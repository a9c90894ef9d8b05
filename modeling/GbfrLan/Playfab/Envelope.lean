import GbfrLan.Broker.Playfab
import GbfrLan.Json.Scanned

/-!
# The text of a `GetLobby` reply

The broker sends a lobby inside an envelope, with the names of each object in order. So the lobby
data come before the id, and the members before the lock, the owner and the search data.
-/
namespace GbfrLan.Playfab
open Lib Json Scan

section Broker

open Broker

theorem playfabOk_eq (data : Value) : (playfabOk data).body = .object
    [("code", number 200), ("data", data), ("status", .string "OK")] := by
  have horder : [("code", 0), ("status", 1), ("data", 2)].foldl
      (fun m e => Entries.insert e.1 e.2 m) [] = [("code", 0), ("data", 2), ("status", 1)] := by
    decide +kernel
  have hobj := Value.obj_map (fun n => [number 200, .string "OK", data].getD n .null) horder
  simp only [List.map_cons, List.map_nil, Prod.map_apply, id_eq, List.getD_cons_zero,
    List.getD_cons_succ] at hobj
  exact hobj

theorem lobbyPublic_eq (host : Host) (l : Broker.Lobby) : lobbyPublic host l = .object
    [("AccessPolicy", .string l.accessPolicy), ("ConnectionString", .string l.connection),
      ("CurrentPlayers", number l.members.length), ("LobbyData", .object l.lobbyData),
      ("LobbyId", .string l.id), ("MaxPlayers", integer l.maxPlayers),
      ("Members", .array (membersForClient host l)), ("MembershipLock", .string l.membershipLock),
      ("Owner", l.owner), ("OwnerMigrationPolicy", integer l.ownerMigrationPolicy),
      ("SearchData", .object l.searchData)] := by
  have horder : [("LobbyId", 0), ("ConnectionString", 1), ("Owner", 2), ("OwnerMigrationPolicy", 3),
      ("MaxPlayers", 4), ("CurrentPlayers", 5), ("MembershipLock", 6), ("AccessPolicy", 7),
      ("LobbyData", 8), ("SearchData", 9), ("Members", 10)].foldl
        (fun m e => Entries.insert e.1 e.2 m) [] =
      [("AccessPolicy", 7), ("ConnectionString", 1), ("CurrentPlayers", 5), ("LobbyData", 8),
        ("LobbyId", 0), ("MaxPlayers", 4), ("Members", 10), ("MembershipLock", 6), ("Owner", 2),
        ("OwnerMigrationPolicy", 3), ("SearchData", 9)] := by decide +kernel
  have hobj := Value.obj_map (fun n => [.string l.id, .string l.connection, l.owner,
    integer l.ownerMigrationPolicy, integer l.maxPlayers, number l.members.length,
    .string l.membershipLock, .string l.accessPolicy, .object l.lobbyData, .object l.searchData,
    .array (membersForClient host l)].getD n .null) horder
  simp only [List.map_cons, List.map_nil, Prod.map_apply, id_eq, List.getD_cons_zero,
    List.getD_cons_succ] at hobj
  exact hobj

theorem isNumberText_toString (n : ℕ) : IsNumberText (toString n) := by
  constructor
  · intro hempty
    exact Text.toString_ne_nil n (by rw [hempty]; rfl)
  · intro c hc
    exact .inl (Text.isDigit_of_mem_toString hc)

theorem isNumberText_toString_int (n : ℤ) : IsNumberText (toString n) := by
  cases n with
  | ofNat n => exact isNumberText_toString n
  | negSucc n =>
    obtain ⟨-, hdigits⟩ := isNumberText_toString (n + 1)
    have htext : (toString (Int.negSucc n)).toList = '-' :: (toString (n + 1)).toList := by
      change ("-" ++ toString (n + 1)).toList = _
      rw [String.toList_append]
      rfl
    constructor
    · intro hempty
      rw [hempty] at htext
      cases htext
    · intro c hc
      rw [htext] at hc
      rcases List.mem_cons.mp hc with rfl | hc
      · exact .inr (by decide)
      · exact hdigits c hc

/-- The texts of numbers are what they should be if those of doubles are. -/
theorem numberText_isNumberText {host : Host} (hfloat : ∀ bits, IsNumberText (host.floatText bits)) :
    ∀ n, IsNumberText (numberText host n)
  | .posInt n => isNumberText_toString n.toNat
  | .negInt n => isNumberText_toString_int n.toInt
  | .float bits => hfloat bits

end Broker

/-- The body of the broker's answer to `GetLobby`. -/
def reply (host : Broker.Host) (l : Broker.Lobby) : Value :=
  (Broker.playfabOk (Broker.lobbyPublic host l)).body

def replyText (host : Broker.Host) (l : Broker.Lobby) : List Char :=
  (reply host l).text (Broker.numberText host)

section
variable (host : Broker.Host) (l : Broker.Lobby)

/-- What stands in front of the lobby. -/
def envelope : List Char :=
  '{' :: (fieldText (Broker.numberText host) ("code", Broker.number 200) ++
    ',' :: (writeString "data" ++ [':']))

theorem reply_locate {key : String} (hcode : "code" ≠ key) (hdata : "data" ≠ key)
    (hstatus : "status" ≠ key) :
    (reply host l).locate (Broker.numberText host) key =
      ((Broker.lobbyPublic host l).locate (Broker.numberText host) key).map fun (a, x) =>
        (envelope host ++ a, x) := by
  rw [reply, playfabOk_eq]
  simp only [Value.locate, locateFields, locateMoreFields, locateField, Broker.number, hcode, hdata,
    hstatus, if_false, Option.map_none, Option.none_or, Option.or_none, Option.map_map]
  congr 1
  funext e
  simp [envelope, Broker.number]

theorem reply_find {key : String} (hcode : "code" ≠ key) (hdata : "data" ≠ key)
    (hstatus : "status" ≠ key) : (reply host l).find key = (Broker.lobbyPublic host l).find key := by
  rw [reply, playfabOk_eq]
  simp [Value.find, Value.findFields, Value.findField, Broker.number, hcode, hdata, hstatus]

/-- The text in front of the connection string. -/
def beforeConnection : List Char :=
  envelope host ++ '{' :: (fieldText (Broker.numberText host) ("AccessPolicy", .string l.accessPolicy) ++
    ',' :: (writeString "ConnectionString" ++ [':']))

theorem locate_connection :
    (reply host l).locate (Broker.numberText host) "ConnectionString" =
      some (beforeConnection host l, .string l.connection) := by
  rw [reply_locate host l (by decide) (by decide) (by decide), lobbyPublic_eq]
  simp [Value.locate, locateFields, locateMoreFields, locateField, beforeConnection]

/-- The first id of a lobby stands behind the connection string. -/
theorem locate_lobbyId : ∃ a x, (reply host l).locate (Broker.numberText host) "LobbyId" =
    some (beforeConnection host l ++ (writeString l.connection ++ a), x) := by
  rw [reply_locate host l (by decide) (by decide) (by decide), lobbyPublic_eq]
  simp only [Value.locate, locateFields, locateMoreFields, locateField]
  simp [Broker.number, beforeConnection, fieldText, Value.text]

end

end GbfrLan.Playfab
