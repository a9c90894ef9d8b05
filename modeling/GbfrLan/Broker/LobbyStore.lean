import GbfrLan.Broker.Playfab
import GbfrLan.Lib.Run

/-!
# The lobby store

Every lobby in the store is filed under its own id, has the connection string of that
id, and has between one member and its maximum, each under its own id. Members are
built with their id as a string, which is what keeps later edits of a member from
changing it.
-/
namespace GbfrLan.Broker
open Lib Json

/-- A lobby that may be stored under the id `k` of a title. -/
structure Lobby.Ok (title k : String) (l : Lobby) : Prop where
  id : l.id = k
  connection : l.connection = "lan." ++ title ++ "." ++ l.id
  named : ∀ m ∈ l.members, (jsonStr m "Id").isSome = true
  distinct : (l.members.map memberId).Nodup
  nonempty : 1 ≤ l.members.length
  room : (l.members.length : ℤ) ≤ l.maxPlayers
  low : 2 ≤ l.maxPlayers
  high : l.maxPlayers ≤ 32

def App.Ok (app : App) : Prop := ∀ k l, app.lobbies.get? k = some l → l.Ok app.titleId k

theorem clampMaxPlayers_range (n : ℤ) : 2 ≤ clampMaxPlayers n ∧ clampMaxPlayers n ≤ 32 := by
  unfold clampMaxPlayers minPlayers maxPlayersCeiling
  omega

theorem resolveLobbyMax_range (app : App) (requested : Option ℤ) :
    2 ≤ resolveLobbyMax app requested ∧ resolveLobbyMax app requested ≤ 32 := by
  unfold resolveLobbyMax
  split_ifs
  · exact clampMaxPlayers_range _
  · cases requested with
    | none => exact clampMaxPlayers_range _
    | some n => exact clampMaxPlayers_range n

/-- A string field `Id` decides the id of a member. -/
theorem memberId_of_id {m : Value} {s : String} (h : jsonStr m "Id" = some s) :
    memberId m = s := by
  simp [memberId, h]

theorem jsonStr_newMember (eid : String) (entity : Value) (data : Fields) :
    jsonStr (newMember eid entity data) "Id" = some eid := by
  simp [newMember, Value.obj, jsonStr, Value.asStr]

theorem jsonStr_insertField {key : String} (h : "Id" ≠ key) (v x : Value) :
    jsonStr (v.insertField key x) "Id" = jsonStr v "Id" := by
  unfold jsonStr
  rw [Value.get_insertField_of_ne h]

theorem jsonStr_deleteMemberData (keys : List String) (m : Value) :
    jsonStr (deleteMemberData keys m) "Id" = jsonStr m "Id" := by
  unfold deleteMemberData
  split
  · exact jsonStr_insertField (by decide) _ _
  · rfl

namespace Lobby.Ok

variable {title k : String} {l : Lobby} {host : Host}

/-- Editing a member without touching its id. -/
theorem modify (h : l.Ok title k) {p : Value → Bool} {f : Value → Value}
    (hf : ∀ m, jsonStr (f m) "Id" = jsonStr m "Id") :
    ({ l with members := modifyFirst p f l.members } : Lobby).Ok title k := by
  have hid : ∀ m ∈ l.members, memberId (f m) = memberId m := by
    intro m hm
    obtain ⟨s, hs⟩ := Option.isSome_iff_exists.mp (h.named m hm)
    rw [memberId_of_id hs, memberId_of_id ((hf m).trans hs)]
  refine { h with named := ?_, distinct := ?_, nonempty := ?_, room := ?_ }
  · intro m hm
    cases mem_modifyFirst hm with
    | inl hold => exact h.named m hold
    | inr hnew =>
      obtain ⟨x, hx, -, rfl⟩ := hnew
      rw [hf]
      exact h.named x hx
  · rw [map_modifyFirst hid]
    exact h.distinct
  · rw [length_modifyFirst]
    exact h.nonempty
  · rw [length_modifyFirst]
    exact h.room

/-- Adding a member that is not there, while there is room. -/
theorem append (h : l.Ok title k) {eid : String} (entity : Value) (data : Fields)
    (hnew : ¬ (l.members.any fun m => memberId m == eid) = true)
    (hroom : (l.members.length : ℤ) < l.maxPlayers) :
    ({ l with members := l.members ++ [newMember eid entity data] } : Lobby).Ok title k := by
  have hid : memberId (newMember eid entity data) = eid :=
    memberId_of_id (jsonStr_newMember eid entity data)
  refine { h with named := ?_, distinct := ?_, nonempty := ?_, room := ?_ }
  · intro m hm
    cases List.mem_append.mp hm with
    | inl hold => exact h.named m hold
    | inr hnew =>
      rw [List.mem_singleton.mp hnew, jsonStr_newMember]
      rfl
  · rw [List.map_append, List.map_singleton, hid]
    apply List.Nodup.append h.distinct (List.nodup_singleton _)
    intro x hx hx'
    rw [List.mem_singleton.mp hx'] at hx
    obtain ⟨m, hm, heq⟩ := List.mem_map.mp hx
    exact hnew (List.any_eq_true.mpr ⟨m, hm, by simp [heq]⟩)
  · show 1 ≤ (l.members ++ [newMember eid entity data]).length
    rw [List.length_append, List.length_singleton]
    omega
  · show ((l.members ++ [newMember eid entity data]).length : ℤ) ≤ l.maxPlayers
    rw [List.length_append, List.length_singleton]
    push_cast
    omega

theorem join (h : l.Ok title k) {body entity : Value} {eid : String} {l' : Lobby}
    (hj : l.join host body entity eid = some l') : l'.Ok title k := by
  unfold Lobby.join at hj
  split_ifs at hj with hany hfull
  · cases hj
    apply h.modify
    intro m
    exact jsonStr_insertField (by decide) _ _
  · cases hj
    exact h.append entity _ hany (by omega)

theorem putMember (h : l.Ok title k) (mem : Value) : (l.putMember host mem).Ok title k := by
  unfold Lobby.putMember
  simp only
  split_ifs with hempty hany hroom
  · exact h
  · apply h.modify
    intro m
    rw [jsonStr_insertField (by decide), jsonStr_insertField (by decide)]
  · exact h.append _ _ hany hroom
  · exact h

theorem updateScalars (h : l.Ok title k) (body : Value) : (l.updateScalars body).Ok title k := by
  have hroom := h.room
  have hlow := h.low
  have hhigh := h.high
  unfold Lobby.updateScalars
  cases hmax : (jsonI64 body "MaxPlayers").or (jsonI64 body "maxPlayers") with
  | none => exact { h with }
  | some mx =>
    have hrange := clampMaxPlayers_range mx
    exact { h with
      room := le_max_right _ _
      low := le_max_of_le_left hrange.1
      high := max_le hrange.2 (hroom.trans hhigh) }

theorem deleteMemberData (h : l.Ok title k) (body : Value) (target : Option String) :
    (l.deleteMemberData body target).Ok title k := by
  unfold Lobby.deleteMemberData
  split
  · exact h.modify (jsonStr_deleteMemberData _)
  · exact h

theorem mergeData (h : l.Ok title k) (body : Value) : (l.mergeData body).Ok title k := { h with }

theorem mergeMemberData (h : l.Ok title k) (body : Value) (target : Option String) :
    (l.mergeMemberData host body target).Ok title k := by
  unfold Lobby.mergeMemberData
  split
  · apply h.modify
    intro m
    exact jsonStr_insertField (by decide) _ _
  · exact h

theorem update (h : l.Ok title k) (body : Value) (updater : Option String) :
    (l.update host body updater).Ok title k := by
  unfold Lobby.update
  simp only
  set target := memberSetTarget body updater
  have hmember : ((((l.updateScalars body).deleteMemberData body target).mergeData
      body).mergeMemberData host body target).Ok title k :=
    (((h.updateScalars body).deleteMemberData body target).mergeData body).mergeMemberData body target
  -- The loop over `Members`: one entry at a time.
  generalize ((body.get "Members").bind Value.asArray).getD [] = mems
  induction mems using List.reverseRecOn with
  | nil => exact hmember
  | append_singleton mems mem ih =>
    rw [List.foldl_append]
    exact ih.putMember mem

/-- A leave keeps a sublist of the members, and closes the lobby when none is left. -/
theorem leave (h : l.Ok title k) {pid : Option String} {l' : Lobby}
    (hl : l.leave pid = some l') : l'.Ok title k := by
  have hkept : ∃ kept : List Value, kept.Sublist l.members ∧ 1 ≤ kept.length ∧
      ∃ owner, l' = { l with members := kept, owner := owner } := by
    unfold Lobby.leave at hl
    simp only at hl
    split at hl
    · cases hl
    · rename_i next rest heq
      cases hl
      refine ⟨next :: rest, ?_, by simp, _, by rw [heq]⟩
      rw [← heq]
      split_ifs
      · exact List.nil_sublist _
      · cases pid with
        | none => exact List.Sublist.refl _
        | some p => exact List.filter_sublist
  obtain ⟨kept, hsub, hone, owner, rfl⟩ := hkept
  have hroom := h.room
  have hlen := hsub.length_le
  exact { h with
    named := fun m hm => h.named m (hsub.subset hm)
    distinct := h.distinct.sublist (hsub.map _)
    nonempty := hone
    room := by
      show (kept.length : ℤ) ≤ l.maxPlayers
      omega }

end Lobby.Ok

namespace App.Ok

variable {app app' : App} {host : Host} {r : Request}

/-- A state with the same lobbies and title. -/
theorem congr (h : app.Ok) (hl : app'.lobbies = app.lobbies) (ht : app'.titleId = app.titleId) :
    app'.Ok := by
  intro k l hk
  rw [ht]
  exact h k l (hl ▸ hk)

theorem insert (h : app.Ok) {k : String} {l : Lobby} (hl : l.Ok app.titleId k) :
    ({ app with lobbies := app.lobbies.insert k l } : App).Ok := by
  intro k' l' hk'
  simp only [OrdMap.get?_insert] at hk'
  split_ifs at hk' with heq
  · cases hk'
    exact heq ▸ hl
  · exact h k' l' hk'

theorem erase (h : app.Ok) (k : String) :
    ({ app with lobbies := app.lobbies.erase k } : App).Ok := by
  intro k' l' hk'
  simp only [OrdMap.get?_erase] at hk'
  split_ifs at hk'
  exact h k' l' hk'

theorem dropOwnerLobbies (h : app.Ok) (ownerId : String) : (dropOwnerLobbies app ownerId).Ok := by
  unfold Broker.dropOwnerLobbies
  split_ifs
  · exact h
  · intro k l hk
    simp only [OrdMap.get?_filter, Option.filter_eq_some_iff] at hk
    exact h k l hk.1

end App.Ok

/-- Finding or making the caller's session leaves the lobbies alone. -/
theorem resolvePlayer_frame (host : Host) (app : App) (r : Request) (ticket : String) :
    (resolvePlayer host app r ticket).1.lobbies = app.lobbies ∧
      (resolvePlayer host app r ticket).1.titleId = app.titleId := by
  unfold resolvePlayer
  simp only
  split <;> exact ⟨rfl, rfl⟩

@[simp] theorem dropOwnerLobbies_titleId (app : App) (ownerId : String) :
    (dropOwnerLobbies app ownerId).titleId = app.titleId := by
  unfold dropOwnerLobbies
  split_ifs <;> rfl

namespace App.Ok

variable {app : App} {host : Host}

theorem createLobby (h : app.Ok) (m : Moment) (body : Value) (player : Player) :
    (createLobby host app m body player).1.Ok := by
  have hmax := resolveLobbyMax_range (Broker.dropOwnerLobbies app player.entityId)
    ((jsonI64 body "MaxPlayers").or (jsonI64 body "maxPlayers"))
  apply (h.dropOwnerLobbies player.entityId).insert
  constructor
  · rfl
  · rfl
  · intro x hx
    rw [List.mem_singleton.mp hx, jsonStr_newMember]
    rfl
  · exact List.nodup_singleton _
  · exact le_refl _
  · show (1 : ℤ) ≤ resolveLobbyMax _ _
    omega
  · exact hmax.1
  · exact hmax.2

theorem handleJoin (h : app.Ok) (r : Request) : (handleJoin host app r).1.Ok := by
  obtain ⟨hl, ht⟩ := resolvePlayer_frame host app r "anonymous"
  have hres : (resolvePlayer host app r "anonymous").1.Ok := h.congr hl ht
  unfold Broker.handleJoin
  simp only
  split
  · exact hres
  · split
    · exact hres
    · rename_i lobby hget
      split
      · exact hres
      · rename_i lobby' hjoin
        exact hres.insert ((hres _ lobby hget).join hjoin)

theorem handleLeave (h : app.Ok) (r : Request) : (handleLeave app r).1.Ok := by
  unfold Broker.handleLeave
  simp only
  split
  · exact h
  · rename_i lobby hget
    cases hleave : lobby.leave (requestEntityId app r.body r.headers) with
    | none => exact h.erase _
    | some l' => exact (h.erase _).insert ((h _ lobby hget).leave hleave)

theorem handleUpdate (h : app.Ok) (r : Request) : (handleUpdate host app r).1.Ok := by
  unfold Broker.handleUpdate
  simp only
  split
  · exact h
  · rename_i lobby hget
    exact h.insert ((h _ lobby hget).update r.body _)

theorem handlePlayfab (h : app.Ok) (r : Request) : (handlePlayfab host app r).1.Ok := by
  unfold Broker.handlePlayfab
  split
  · exact h.congr rfl rfl
  · obtain ⟨hl, ht⟩ := resolvePlayer_frame host app r
      ((jsonStr r.body "SteamTicket").getD "anonymous")
    exact h.congr hl ht
  · obtain ⟨hl, ht⟩ := resolvePlayer_frame host app r "anonymous"
    exact (h.congr hl ht).createLobby r.moment r.body _
  · exact h.handleJoin r
  · exact h
  · exact h.handleLeave r
  · exact h.handleUpdate r
  · exact h
  · exact h
  · exact h

/-- The lookup that `JoinLobby` unwraps succeeds. -/
theorem join_lookup (h : app.Ok) {order : List String} {conn lid : String}
    (hfound : ((app.lobbies.iter order).find? fun l => l.connection == conn).map Lobby.id =
      some lid) : (app.lobbies.get? lid).isSome = true := by
  obtain ⟨l, hl, rfl⟩ := Option.map_eq_some_iff.mp hfound
  obtain ⟨k, hk⟩ := OrdMap.mem_iter (List.mem_of_find?_eq_some hl)
  rw [(h k l hk).id, hk]
  rfl

end App.Ok

/-- The title of a broker does not change. -/
theorem handlePlayfab_titleId (host : Host) (app : App) (r : Request) :
    (handlePlayfab host app r).1.titleId = app.titleId := by
  unfold handlePlayfab
  split
  · rfl
  · exact (resolvePlayer_frame host app r _).2
  · show (dropOwnerLobbies (resolvePlayer host app r "anonymous").1 _).titleId = _
    rw [dropOwnerLobbies_titleId]
    exact (resolvePlayer_frame host app r _).2
  · have hres := (resolvePlayer_frame host app r "anonymous").2
    simp only [handleJoin]
    split
    · exact hres
    · split
      · exact hres
      · split <;> exact hres
  · rfl
  · simp only [handleLeave]
    split <;> rfl
  · simp only [handleUpdate]
    split <;> rfl
  · rfl
  · rfl
  · rfl

/-- Whatever requests arrive at a broker without lobbies, in whatever order, every lobby
it then holds is filed under its id, has the connection string of that id, members with
different ids, and between one and `max_players` of them, where `max_players` is between 2
and 32. -/
theorem lobbies_wellFormed (host : Host) (app : App) (rs : List Request) (k : String) (l : Lobby) :
    (run (fun a r => (handlePlayfab host a r).1) { app with lobbies := OrdMap.empty } rs).lobbies.get?
        k = some l →
      k = l.id ∧ l.connection = "lan." ++ app.titleId ++ "." ++ l.id ∧
        (l.members.map memberId).Nodup ∧ 1 ≤ l.members.length ∧
        (l.members.length : ℤ) ≤ l.maxPlayers ∧ 2 ≤ l.maxPlayers ∧ l.maxPlayers ≤ 32 := by
  intro hk
  have hstep : ∀ (a : App) (r : Request), (a.Ok ∧ a.titleId = app.titleId) →
      ((handlePlayfab host a r).1.Ok ∧ (handlePlayfab host a r).1.titleId = app.titleId) := by
    rintro a r ⟨hok, ht⟩
    exact ⟨hok.handlePlayfab r, (handlePlayfab_titleId host a r).trans ht⟩
  have hempty : ({ app with lobbies := OrdMap.empty } : App).Ok := by
    intro k l hk
    cases hk
  obtain ⟨hok, ht⟩ := run_invariant_all hstep ⟨hempty, rfl⟩ rs
  have hl := hok k l hk
  refine ⟨hl.id.symm, ?_, hl.distinct, hl.nonempty, hl.room, hl.low, hl.high⟩
  rw [← ht]
  exact hl.connection

/-- SHA-1 and base64 where a run of an anonymous client reads them at one clock value. -/
def anonymousHost : Host where
  sha1Hex s :=
    if s = "anonymous" then "0a92fab3230134cca6eadd9898325b9b2ae67998"
    else if s = "tpa:0A92FAB3230134CC" then "a07e41cf7143288dfd66bb3cf00b04a5dd8e32eb"
    else "2b05b16a57c6995f612e5be52ee5b40c4100064f"
  b64 _ := "YTA3ZTQxY2Y3MTQzMjg4ZA=="
  floatText _ := ""
  clockBits _ := 0x41da556e40000000

/-- An anonymous client makes a lobby, a guest joins it, and its maximum is lowered. -/
def createAndJoin : List Request :=
  let m : Moment := ⟨1767225600, "1767225600.5", []⟩
  [⟨m, "/Lobby/CreateAndJoinLobby", .obj [("MaxPlayers", number 4)], OrdMap.empty⟩,
    ⟨m, "/Lobby/JoinLobby", .obj [("ConnectionString", .string "lan.1AC1AD.lan-2b05b16a57c6"),
      ("MemberEntity", .obj [("Id", .string "guest")])], OrdMap.empty⟩,
    ⟨m, "/Lobby/UpdateLobby", .obj [("LobbyId", .string "lan-2b05b16a57c6"),
      ("MaxPlayers", .string "1")], OrdMap.empty⟩]

theorem createAndJoin_wellFormed :
    ∃ l, (run (fun a r => (handlePlayfab anonymousHost a r).1)
        { App.new "1AC1AD" 8 false with lobbies := OrdMap.empty } createAndJoin).lobbies.get?
          "lan-2b05b16a57c6" = some l ∧
      "lan-2b05b16a57c6" = l.id ∧ l.connection = "lan." ++ "1AC1AD" ++ "." ++ l.id ∧
        (l.members.map memberId).Nodup ∧ 1 ≤ l.members.length ∧
        (l.members.length : ℤ) ≤ l.maxPlayers ∧ 2 ≤ l.maxPlayers ∧ l.maxPlayers ≤ 32 := by
  have hsome : ((run (fun a r => (handlePlayfab anonymousHost a r).1)
      { App.new "1AC1AD" 8 false with lobbies := OrdMap.empty } createAndJoin).lobbies.get?
        "lan-2b05b16a57c6").isSome = true := by decide +kernel
  obtain ⟨l, hl⟩ := Option.isSome_iff_exists.mp hsome
  exact ⟨l, hl, lobbies_wellFormed anonymousHost (App.new "1AC1AD" 8 false) createAndJoin _ l hl⟩

end GbfrLan.Broker
