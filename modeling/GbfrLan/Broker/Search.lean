import GbfrLan.Broker.Frame

/-!
# Search rows and lobby reads

`FindLobbies` writes its rows apart from `GetLobby`. A row says `Unlocked` whatever lock the lobby
has, so the two agree on the lobbies that are not locked.

The filter and the sort string of a search, and the search data that a row shows, are parameters:
what a search keeps is any part of the lobbies, in any order.
-/
namespace GbfrLan.Broker
open Lib Json

/-- The parts of a search that are decided by its filter, its sort string and the search data. -/
structure Finder where
  /-- `search_data_for_find`. -/
  searchData : Lobby → Fields
  /-- `Filter::matches` on the view of a lobby. -/
  selects : FindQuery → Lobby → Bool
  /-- `sort_by` with the sort string and the creation time. -/
  sort : FindQuery → List Lobby → List Lobby
  sort_perm : ∀ q ls, (sort q ls).Perm ls

namespace Finder

variable (f : Finder)

/-- The lobbies that a search returns, in their order. -/
def candidates (app : App) (r : Request) : List Lobby :=
  let q := findQuery app r
  let found := (app.lobbies.iter r.moment.order).filter fun l => !q.friendsFilter && f.selects q l
  let sorted := f.sort q found
  match q.count with
  | some c => if 0 < c then sorted.take (min c 1000).toNat else sorted
  | none => sorted

def row (l : Lobby) : Value :=
  .obj [("LobbyId", .string l.id), ("ConnectionString", .string l.connection),
    ("CurrentPlayers", number l.members.length), ("MaxPlayers", integer l.maxPlayers),
    ("MembershipLock", .string "Unlocked"), ("SearchData", .object (f.searchData l)),
    ("Owner", l.owner)]

/-- `Lobbies` of the reply. -/
def rows (app : App) (r : Request) : List Value := (f.candidates app r).map f.row

theorem mem_candidates {app : App} {r : Request} {l : Lobby} (h : l ∈ f.candidates app r) :
    ∃ k, app.lobbies.get? k = some l := by
  set q := findQuery app r with hq
  set found := (app.lobbies.iter r.moment.order).filter fun l => !q.friendsFilter && f.selects q l
    with hfound
  have hsorted : l ∈ f.sort q found := by
    unfold candidates at h
    simp only at h
    split at h
    · split_ifs at h
      · exact List.mem_of_mem_take h
      · exact h
    · exact h
  have hmem : l ∈ found := (f.sort_perm q found).mem_iff.mp hsorted
  exact OrdMap.mem_iter (List.mem_of_mem_filter hmem)

end Finder

/-- The fields that a row and a lobby share. -/
def rowFields : List String :=
  ["ConnectionString", "CurrentPlayers", "MaxPlayers", "MembershipLock", "Owner"]

/-- Every `GetLobby` for the id of the row says the same as the row. -/
def RowAgrees (host : Host) (app : App) (row : Value) : Prop :=
  ∀ r, jsonStr row "LobbyId" = some (bodyLobbyId r.body) →
    ∃ data, handleGet host app r = ok data ∧ ∀ key ∈ rowFields, row.get key = data.get key

theorem ok_injective {a b : Value} (h : ok a = ok b) : a = b := by
  have hdata : ∀ v, (playfabOk v).body.get "data" = some v := by
    intro v
    simp [playfabOk, Value.get_obj, Entries.get?]
  have hreply : playfabOk a = playfabOk b := Reply.response.inj h
  rw [← Option.some.injEq, ← hdata, ← hdata, hreply]

section
variable {host : Host} {f : Finder} {l : Lobby}

theorem rowFields_agree_iff :
    (∀ key ∈ rowFields, (f.row l).get key = (lobbyPublic host l).get key) ↔
      l.membershipLock = "Unlocked" := by
  simp only [rowFields, Finder.row, lobbyPublic, Value.get_obj, List.forall_mem_cons]
  simp [Entries.get?, eq_comm]

theorem jsonStr_row : jsonStr (f.row l) "LobbyId" = some l.id := by
  simp [jsonStr, Finder.row, Value.get_obj, Entries.get?, Value.asStr]

/-- A row agrees exactly when its lobby is not locked. -/
theorem rowAgrees_iff {app : App} (hok : app.Ok) {k : String} (hl : app.lobbies.get? k = some l) :
    RowAgrees host app (f.row l) ↔ l.membershipLock = "Unlocked" := by
  have hget : ∀ r : Request, bodyLobbyId r.body = l.id →
      handleGet host app r = ok (lobbyPublic host l) := by
    intro r hr
    unfold handleGet
    rw [hr, (hok k l hl).id, hl]
  constructor
  · intro h
    set r : Request := ⟨⟨0, "", []⟩, "", .obj [("LobbyId", .string l.id)], OrdMap.empty⟩ with hr
    have hid : bodyLobbyId r.body = l.id := by
      simp [hr, bodyLobbyId, bodyStr, jsonStr, Value.get_obj, Entries.get?, Value.asStr]
    obtain ⟨data, hdata, hfields⟩ := h r (by rw [jsonStr_row, hid])
    rw [hget r hid] at hdata
    have heq : lobbyPublic host l = data := ok_injective hdata
    rw [← @rowFields_agree_iff host f l, heq]
    exact hfields
  · intro hlock r hr
    rw [jsonStr_row, Option.some.injEq] at hr
    exact ⟨lobbyPublic host l, hget r hr.symm, rowFields_agree_iff.mpr hlock⟩

end

/-- In every state that a broker reaches, the rows of a search agree with `GetLobby` exactly when no
lobby that it returns is locked. -/
theorem rows_agree_iff (host : Host) (app : App) (qs : List Query) (f : Finder) (r : Request) :
    (∀ row ∈ f.rows (app.after host qs) r, RowAgrees host (app.after host qs) row) ↔
      ∀ l ∈ f.candidates (app.after host qs) r, l.membershipLock = "Unlocked" := by
  have hok := app.after_ok host qs
  rw [Finder.rows, List.forall_mem_map]
  refine forall₂_congr fun l hl => ?_
  obtain ⟨k, hk⟩ := f.mem_candidates hl
  exact rowAgrees_iff hok hk

end GbfrLan.Broker
