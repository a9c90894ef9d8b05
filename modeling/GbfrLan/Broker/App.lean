import GbfrLan.Json.Value

/-!
# The state of the broker

Sessions, lobbies and party registrations with the readers that the request handlers
share. Hash maps are finite maps; where the broker iterates over one, the order comes
with the request. SHA-1, base64 and the text of a double come from `Host`.
-/
namespace GbfrLan.Broker
open Lib Json

def minPlayers : ℤ := 2
def maxPlayersCeiling : ℤ := 32

structure Player where
  playfabId : String
  entityId : String
  entityType : String
  entityToken : String
  sessionTicket : String
  tokenExpiration : String
  deriving DecidableEq, Repr

structure Lobby where
  id : String
  connection : String
  owner : Value
  /-- 0 none, 1 automatic, 2 manual, 3 server. -/
  ownerMigrationPolicy : ℤ
  maxPlayers : ℤ
  lobbyData : Fields
  searchData : Fields
  accessPolicy : String
  membershipLock : String
  members : List Value
  created : ℚ

structure PartyMember where
  entityId : String
  ip : String
  udpPort : UInt16
  seen : ℚ
  /-- The client's registration counter; 0 if it sent none. -/
  memberSeq : ℕ
  deriving DecidableEq

structure App where
  titleId : String
  maxPlayers : ℤ
  overrideGameMax : Bool
  sessions : OrdMap String Player
  lobbies : OrdMap String Lobby
  party : OrdMap String (OrdMap String PartyMember)

/-- The broker at start. -/
def App.new (titleId : String) (maxPlayers : ℤ) (overrideGameMax : Bool) : App :=
  ⟨titleId, maxPlayers, overrideGameMax, OrdMap.empty, OrdMap.empty, OrdMap.empty⟩

/-- Functions of other crates, and the bits of a clock value as a double. -/
structure Host where
  sha1Hex : String → String
  b64 : String → String
  floatText : UInt64 → String
  clockBits : ℚ → UInt64

/-- What a request finds besides the state: the clock, its text, and the iteration order
of the hash maps. -/
structure Moment where
  now : ℚ
  nowText : String
  order : List String

abbrev Headers := OrdMap String String

def clampMaxPlayers (n : ℤ) : ℤ := max minPlayers (min n maxPlayersCeiling)

/-- A reply of the broker: the HTTP status and the body. -/
structure Response where
  status : ℕ
  body : Value

def number (n : ℕ) : Value := .number (.posInt (UInt64.ofNat n))

/-- A signed 64-bit number. -/
def integer (n : ℤ) : Value :=
  if n < 0 then .number (.negInt (Int64.ofInt n)) else number n.toNat

def playfabOk (data : Value) : Response :=
  ⟨200, .obj [("code", number 200), ("status", .string "OK"), ("data", data)]⟩

def playfabErr (error message : String) : Response :=
  let (status, text) :=
    if error = "LobbyNotFound" then (404, "NotFound")
    else if error = "LobbyMemberLimitExceeded" ∨ error = "PartyMemberLimitExceeded" then
      (409, "Conflict")
    else (400, "BadRequest")
  ⟨status, .obj [("code", number status), ("status", .string text), ("error", .string error),
    ("errorCode", number 1114), ("errorMessage", .string message)]⟩

def memberId (member : Value) : String :=
  match jsonStr member "Id" with
  | some id => id
  | none => ((member.get "MemberEntity").bind fun e => jsonStr e "Id").getD ""

/-- FNV-1a over the bytes of the id, in decimal, unless the id is decimal already. -/
def decimalAccountId (entityId : String) : String :=
  if !entityId.isEmpty && entityId.toList.all Char.isDigit then entityId
  else
    let n := entityId.toUTF8.toList.foldl
      (fun (n : UInt64) b => (n ^^^ b.toUInt64) * 16777619) 2166136261
    toString (if n = 0 then 1 else n).toNat

section
variable (host : Host)

def numberText : Number → String
  | .posInt n => toString n.toNat
  | .negInt n => toString n.toInt
  | .float bits => host.floatText bits

def valueAsString : Value → Option String
  | .string s => some s
  | .number n => some (numberText host n)
  | .bool b => some (if b then "1" else "0")
  | _ => none

/-- Rewrite a field that is not a string but has a text. -/
def stringField (data : Fields) (key : String) : Fields :=
  match Entries.get? key data with
  | some (.string _) => data
  | some v =>
      match valueAsString host v with
      | some s => Entries.insert key (.string s) data
      | none => data
  | none => data

def fillMemberData (data : Fields) (eid : String) : Fields :=
  let data := ["member_platform", "member_platform_account_id", "member_platform_user_name"].foldl
    (stringField host) data
  let plat := ((Entries.get? "member_platform" data).bind Value.asStr).getD ""
  let data := if plat = "" ∨ plat = "1" then
      Entries.insert "member_platform" (.string "Steam") data
    else data
  let acctOk := (((Entries.get? "member_platform_account_id" data).bind Value.asStr).map fun s =>
    !s.isEmpty && s.toList.all Char.isDigit).getD false
  let data := if !acctOk then
      Entries.insert "member_platform_account_id" (.string (decimalAccountId eid)) data
    else data
  if !Entries.contains "member_platform_user_name" data then
    Entries.insert "member_platform_user_name" (.string "LAN") data
  else data

def membersForClient (lobby : Lobby) : List Value :=
  lobby.members.map fun m =>
    let data := ((m.get "MemberData").bind Value.asObject).getD []
    m.insertField "MemberData" (.object (fillMemberData host data (memberId m)))

def lobbyPublic (lobby : Lobby) : Value :=
  .obj [("LobbyId", .string lobby.id), ("ConnectionString", .string lobby.connection),
    ("Owner", lobby.owner), ("OwnerMigrationPolicy", integer lobby.ownerMigrationPolicy),
    ("MaxPlayers", integer lobby.maxPlayers), ("CurrentPlayers", number lobby.members.length),
    ("MembershipLock", .string lobby.membershipLock), ("AccessPolicy", .string lobby.accessPolicy),
    ("LobbyData", .object lobby.lobbyData), ("SearchData", .object lobby.searchData),
    ("Members", .array (membersForClient host lobby))]

/-- The URL-safe form of base64 without padding. -/
def urlSafe (s : String) : String :=
  String.ofList ((s.toList.reverse.dropWhile (· = '=')).reverse.map fun c =>
    if c = '+' then '-' else if c = '/' then '_' else c)

def App.playerFromTicket (app : App) (ticket : String) : App × Player :=
  let digest := host.sha1Hex (if ticket.isEmpty then "empty" else ticket)
  let playfabId := String.ofList (Text.upper (digest.toList.take 16))
  let entityId := String.ofList ((host.sha1Hex ("tpa:" ++ playfabId)).toList.take 16)
  let token := "STUB." ++ urlSafe (host.b64 entityId)
  let player : Player := ⟨playfabId, entityId, "title_player_account", token,
    "STUB-SESSION-" ++ playfabId, "2027-01-01T00:00:00.000Z"⟩
  ({ app with
    sessions := (app.sessions.insert token player).insert player.sessionTicket player }, player)

end

def lobbyOwnerId (lobby : Lobby) : String :=
  (jsonStr lobby.owner "Id").getD (lobby.owner.asStr.getD "")

def entityObj (p : Player) : Value :=
  .obj [("Id", .string p.entityId), ("Type", .string p.entityType),
    ("TypeString", .string p.entityType)]

/-- The first of these headers that is a session's token. -/
def headerSession (app : App) (headers : Headers) : List String → Option Player
  | [] => none
  | hk :: rest =>
      match (headers.get? hk).bind app.sessions.get? with
      | some p => some p
      | none => headerSession app headers rest

/-- The id of the first of these fields that has one. -/
def fieldEntity (body : Value) : List String → Option String
  | [] => none
  | key :: rest =>
      match (body.get key).bind fun e => jsonStr e "Id" with
      | some id => some id
      | none => fieldEntity body rest

def requestEntityId (app : App) (body : Value) (headers : Headers) : Option String :=
  match headerSession app headers ["x-entitytoken", "x-authorization", "x-authentication"] with
  | some p => some p.entityId
  | none =>
      match (jsonStr body "EntityId").or (jsonStr body "entityId") with
      | some s => some s
      | none => fieldEntity body ["MemberEntity", "Owner", "SearchingEntity", "Entity"]

def configuredMeshCap (app : App) : ℤ := clampMaxPlayers app.maxPlayers

def resolveLobbyMax (app : App) (requested : Option ℤ) : ℤ :=
  if app.overrideGameMax then configuredMeshCap app
  else (requested.map clampMaxPlayers).getD (configuredMeshCap app)

def asObjOrEmpty (v : Option Value) : Fields := (v.bind Value.asObject).getD []

def parseOwnerMigrationPolicy (body : Value) : ℤ :=
  match (body.get "OwnerMigrationPolicy").or (body.get "ownerMigrationPolicy") with
  | some (.number n) => max 0 (min (n.asI64.getD 0) 3)
  | some (.string s) =>
      let t := Text.lower s.toList
      if t = "automatic".toList then 1
      else if t = "manual".toList then 2
      else if t = "server".toList then 3
      else 0
  | _ => 0

/-- Overwrite entries of a map with those of another. -/
def mergeFields (into from' : Fields) : Fields :=
  from'.foldl (fun m e => Entries.insert e.1 e.2 m) into

end GbfrLan.Broker
