import GbfrLan.Broker.Update
import GbfrLan.Broker.Frame

/-!
# UpdateLobby as a whole

The fields of an update are applied in a fixed order: deletions, settings, the data of the lobby,
the data of one member, and the entries of `Members` one by one. The members that were there stay
in their places under their ids all along, so each part is about the members it names.
-/
namespace GbfrLan.Broker
open Lib Json

/-! ### Members in their places -/

/-- Every member is in its place under its id, and is the same unless its id is `touched`. -/
def KeepsMembers (touched : String → Prop) (ms ms' : List Value) : Prop :=
  ∀ (i : ℕ) (m : Value), ms[i]? = some m → ∃ m', ms'[i]? = some m' ∧ memberId m' = memberId m ∧
    (¬touched (memberId m) → m' = m)

namespace KeepsMembers

variable {touched touched' : String → Prop} {ms ms' ms'' : List Value}

theorem refl (touched : String → Prop) (ms : List Value) : KeepsMembers touched ms ms :=
  fun _ m hm => ⟨m, hm, rfl, fun _ => rfl⟩

theorem mono (h : KeepsMembers touched ms ms') (hsub : ∀ id, touched id → touched' id) :
    KeepsMembers touched' ms ms' := by
  intro i m hm
  obtain ⟨m', hm', hid, hsame⟩ := h i m hm
  exact ⟨m', hm', hid, fun hno => hsame fun hyes => hno (hsub _ hyes)⟩

theorem trans (h : KeepsMembers touched ms ms') (h' : KeepsMembers touched ms' ms'') :
    KeepsMembers touched ms ms'' := by
  intro i m hm
  obtain ⟨m', hm', hid, hsame⟩ := h i m hm
  obtain ⟨m'', hm'', hid', hsame'⟩ := h' i m' hm'
  refine ⟨m'', hm'', hid'.trans hid, fun hno => ?_⟩
  rw [hsame' (hid ▸ hno), hsame hno]

theorem append (touched : String → Prop) (ms new : List Value) :
    KeepsMembers touched ms (ms ++ new) := by
  intro i m hm
  have hi : i < ms.length := (List.getElem?_eq_some_iff.mp hm).1
  exact ⟨m, (List.getElem?_append_left hi).trans hm, rfl, fun _ => rfl⟩

/-- An edit of the first member under an id that leaves its own `Id` alone. -/
theorem modify (hnamed : ∀ m ∈ ms, (jsonStr m "Id").isSome = true) {f : Value → Value}
    (hf : ∀ m, jsonStr (f m) "Id" = jsonStr m "Id") (eid : String) :
    KeepsMembers (· = eid) ms (modifyFirst (fun m => memberId m == eid) f ms) := by
  intro i m hm
  obtain ⟨m', hm', hkept | ⟨hid, hnew⟩⟩ := getElem?_modifyFirst (f := f) hm
  · exact ⟨m', hm', by rw [hkept], fun _ => hkept⟩
  · obtain ⟨s, hs⟩ := Option.isSome_iff_exists.mp (hnamed m (List.mem_of_getElem? hm))
    refine ⟨m', hm', ?_, fun hno => absurd (by simpa using hid) hno⟩
    rw [hnew, memberId_of_id ((hf m).trans hs), memberId_of_id hs]

end KeepsMembers

/-! ### The entries of `Members` -/

/-- The ids of the members, in their order. -/
def Lobby.ids (l : Lobby) : List String := l.members.map memberId

theorem Lobby.any_iff_mem_ids (l : Lobby) (eid : String) :
    (l.members.any fun m => memberId m == eid) = true ↔ eid ∈ l.ids := by
  simp [ids]

theorem map_memberId_modify {ms : List Value} (hnamed : ∀ m ∈ ms, (jsonStr m "Id").isSome = true)
    {p : Value → Bool} {f : Value → Value} (hf : ∀ m, jsonStr (f m) "Id" = jsonStr m "Id") :
    (modifyFirst p f ms).map memberId = ms.map memberId := by
  apply map_modifyFirst
  intro m hm
  obtain ⟨s, hs⟩ := Option.isSome_iff_exists.mp (hnamed m hm)
  rw [memberId_of_id ((hf m).trans hs), memberId_of_id hs]

/-- What the entries make of the members: those that were there stay, and new ones come from entries
under new ids until the lobby is full. -/
structure Admits (entries : List Value) (l l' : Lobby) : Prop where
  kept : KeepsMembers (· ∈ entries.map memberId) l.members l'.members
  added : ∃ added : List Value, added.Sublist entries ∧ l'.ids = l.ids ++ added.map memberId ∧
    ∀ m ∈ added, memberId m ≠ ""
  served : ∀ m ∈ entries, memberId m = "" ∨ memberId m ∈ l'.ids ∨
    l'.maxPlayers ≤ l'.members.length
  maxPlayers : l'.maxPlayers = l.maxPlayers

namespace Admits

variable {l l' l'' : Lobby}

theorem trans {xs ys : List Value} (h : Admits xs l l') (h' : Admits ys l' l'') :
    Admits (xs ++ ys) l l'' := by
  obtain ⟨added, hsub, hids, hne⟩ := h.added
  obtain ⟨added', hsub', hids', hne'⟩ := h'.added
  have hlen : l'.members.length ≤ l''.members.length := by
    have hlength := congrArg List.length hids'
    simp only [Lobby.ids, List.length_map, List.length_append] at hlength
    omega
  refine ⟨?_, ⟨added ++ added', hsub.append hsub', ?_, ?_⟩, ?_, h'.maxPlayers.trans h.maxPlayers⟩
  · rw [List.map_append]
    exact (h.kept.mono fun id hid => List.mem_append_left _ hid).trans
      (h'.kept.mono fun id hid => List.mem_append_right _ hid)
  · rw [hids', hids, List.map_append, List.append_assoc]
  · intro m hm
    rcases List.mem_append.mp hm with hm | hm
    · exact hne m hm
    · exact hne' m hm
  · intro m hm
    rcases List.mem_append.mp hm with hm | hm
    · rcases h.served m hm with hempty | hin | hfull
      · exact .inl hempty
      · exact .inr (.inl (hids' ▸ List.mem_append_left _ hin))
      · rw [← h'.maxPlayers] at hfull
        exact .inr (.inr (by omega))
    · exact h'.served m hm

/-- One entry: an edit of the member under its id, a new member, or nothing. -/
theorem putMember (host : Host) {title k : String} (h : l.Ok title k) (mem : Value) :
    Admits [mem] l (l.putMember host mem) := by
  have hone {p : Value → Prop} (hp : p mem) : ∀ m ∈ [mem], p m := fun m hm =>
    List.mem_singleton.mp hm ▸ hp
  unfold Lobby.putMember
  simp only
  split_ifs with hempty hany hroom
  · exact ⟨.refl _ _, ⟨[], List.nil_sublist _, by simp, by simp⟩,
      hone (.inl (String.isEmpty_iff.mp hempty)), rfl⟩
  · set put : Value → Value := fun m =>
      (m.insertField "MemberData" (.object (fillMemberData host
        (asObjOrEmpty (mem.get "MemberData")) (memberId mem)))).insertField "MemberEntity"
        ((mem.get "MemberEntity").getD
          (.obj [("Id", .string (memberId mem)), ("Type", .string "title_player_account")])) with hput
    have hput : ∀ m, jsonStr (put m) "Id" = jsonStr m "Id" := fun m =>
      (jsonStr_insertField (by decide) _ _).trans (jsonStr_insertField (by decide) _ _)
    have hids := map_memberId_modify (p := fun m => memberId m == memberId mem) h.named hput
    refine ⟨(KeepsMembers.modify h.named hput (memberId mem)).mono fun id hid => ?_,
      ⟨[], List.nil_sublist _, by simpa [Lobby.ids] using hids, by simp⟩, hone (.inr (.inl ?_)), rfl⟩
    · rw [hid]
      exact List.mem_singleton_self _
    · rw [Lobby.ids, hids]
      exact (l.any_iff_mem_ids _).mp hany
  · have hid : memberId (newMember (memberId mem) ((mem.get "MemberEntity").getD (.obj
        [("Id", .string (memberId mem)), ("Type", .string "title_player_account")]))
        (fillMemberData host (asObjOrEmpty (mem.get "MemberData")) (memberId mem))) = memberId mem :=
      memberId_of_id (jsonStr_newMember _ _ _)
    have hids : (l.members ++ [newMember (memberId mem) ((mem.get "MemberEntity").getD (.obj
        [("Id", .string (memberId mem)), ("Type", .string "title_player_account")]))
        (fillMemberData host (asObjOrEmpty (mem.get "MemberData")) (memberId mem))]).map memberId =
          l.ids ++ [memberId mem] := by
      rw [List.map_append, List.map_singleton, hid, Lobby.ids]
    refine ⟨.append _ _ _, ⟨[mem], List.Sublist.refl _, hids, ?_⟩, hone (.inr (.inl ?_)), rfl⟩
    · exact hone fun hnil => hempty (String.isEmpty_iff.mpr hnil)
    · rw [Lobby.ids, hids]
      exact List.mem_append_right _ (List.mem_singleton_self _)
  · exact ⟨.refl _ _, ⟨[], List.nil_sublist _, by simp, by simp⟩,
      hone (.inr (.inr (not_lt.mp hroom))), rfl⟩

/-- The loop over the entries, one at a time. -/
theorem foldl (host : Host) {title k : String} (h : l.Ok title k) (entries : List Value) :
    Admits entries l (entries.foldl (Lobby.putMember host) l) := by
  induction entries generalizing l with
  | nil =>
    exact ⟨.refl _ _, ⟨[], List.nil_sublist _, by simp, by simp⟩,
      fun m hm => absurd hm List.not_mem_nil, rfl⟩
  | cons mem entries ih => exact (putMember host h mem).trans (ih (h.putMember mem))

end Admits

/-! ### The parts in front of the entries -/

namespace Lobby

variable {l : Lobby} {title k : String}

theorem deleteMemberData_keeps (h : l.Ok title k) (body : Value) (target : Option String) :
    KeepsMembers (target = some ·) l.members (l.deleteMemberData body target).members ∧
      (l.deleteMemberData body target).ids = l.ids := by
  unfold deleteMemberData
  split
  · rename_i t key keys hkeys
    refine ⟨(KeepsMembers.modify h.named (jsonStr_deleteMemberData (key :: keys)) t).mono ?_,
      map_memberId_modify h.named (jsonStr_deleteMemberData (key :: keys))⟩
    rintro id rfl
    rfl
  · exact ⟨.refl _ _, rfl⟩

theorem mergeMemberData_keeps (host : Host) (h : l.Ok title k) (body : Value)
    (target : Option String) :
    KeepsMembers (target = some ·) l.members (l.mergeMemberData host body target).members ∧
      (l.mergeMemberData host body target).ids = l.ids := by
  unfold mergeMemberData
  split
  · rename_i md t hmd
    have hput (x : Value → Value) : ∀ m : Value,
        jsonStr (m.insertField "MemberData" (x m)) "Id" = jsonStr m "Id" := fun m =>
      jsonStr_insertField (by decide) m (x m)
    refine ⟨(KeepsMembers.modify h.named (hput _) t).mono ?_, map_memberId_modify h.named (hput _)⟩
    rintro id rfl
    rfl
  · exact ⟨.refl _ _, rfl⟩

/-- The settings of an update are those of its body, or those that the lobby had. -/
theorem updateScalars_settings (l : Lobby) (body : Value) :
    (l.updateScalars body).membershipLock =
        (bodyStr body "MembershipLock" "membershipLock").getD l.membershipLock ∧
      (l.updateScalars body).accessPolicy =
        (bodyStr body "AccessPolicy" "accessPolicy").getD l.accessPolicy ∧
      (l.updateScalars body).owner = ((body.get "Owner").or (body.get "owner")).getD l.owner ∧
      (l.updateScalars body).maxPlayers =
        ((((jsonI64 body "MaxPlayers").or (jsonI64 body "maxPlayers")).map fun n =>
          max (max 2 (min n 32)) (l.members.length : ℤ)).getD l.maxPlayers) := by
  unfold updateScalars
  simp only
  split
  · rename_i mx hmx
    refine ⟨rfl, rfl, rfl, ?_⟩
    rw [hmx]
    rfl
  · rename_i hnone
    refine ⟨rfl, rfl, rfl, ?_⟩
    rw [hnone]
    rfl

/-- The entries of `Members` in the body of an update. -/
def memberEntries (body : Value) : List Value := ((body.get "Members").bind Value.asArray).getD []

/-- The bags of a body, under either spelling. -/
def lobbyDataOf (body : Value) : Fields :=
  asObjOrEmpty ((body.get "LobbyData").or (body.get "lobbyData"))

def searchDataOf (body : Value) : Fields :=
  asObjOrEmpty ((body.get "SearchData").or (body.get "searchData"))

/-- Everything that an update says about the lobby after it. -/
structure Updated (body : Value) (target : Option String) (l l' : Lobby) : Prop where
  lobbyData : ∀ k, Entries.get? k l'.lobbyData = (Entries.get? k (lobbyDataOf body)).or
    (if k ∈ jsonStrArray body ["LobbyDataToDelete", "lobbyDataToDelete"] then none
    else Entries.get? k l.lobbyData)
  searchData : ∀ k, Entries.get? k l'.searchData = (Entries.get? k (searchDataOf body)).or
    (if k ∈ jsonStrArray body ["SearchDataToDelete", "searchDataToDelete"] then none
    else Entries.get? k l.searchData)
  membershipLock : l'.membershipLock =
    (bodyStr body "MembershipLock" "membershipLock").getD l.membershipLock
  accessPolicy : l'.accessPolicy = (bodyStr body "AccessPolicy" "accessPolicy").getD l.accessPolicy
  owner : l'.owner = ((body.get "Owner").or (body.get "owner")).getD l.owner
  maxPlayers : l'.maxPlayers =
    (((jsonI64 body "MaxPlayers").or (jsonI64 body "maxPlayers")).map fun n =>
      max (max 2 (min n 32)) (l.members.length : ℤ)).getD l.maxPlayers
  /-- Members stay in their places under their ids; only the target and the ones named in `Members`
  are edited. -/
  kept : KeepsMembers (fun id => target = some id ∨ id ∈ (memberEntries body).map memberId)
    l.members l'.members
  /-- New members are entries of `Members`, in their order, under ids that are not there yet. -/
  added : ∃ added : List Value, added.Sublist (memberEntries body) ∧
    l'.ids = l.ids ++ added.map memberId ∧ ∀ m ∈ added, memberId m ≠ ""
  distinct : l'.ids.Nodup
  room : (l'.members.length : ℤ) ≤ l'.maxPlayers
  /-- An entry that names nobody afterwards has no id or found the lobby full. -/
  served : ∀ m ∈ memberEntries body, memberId m = "" ∨ memberId m ∈ l'.ids ∨
    l'.maxPlayers ≤ l'.members.length

theorem update_updated (host : Host) (h : l.Ok title k) (body : Value) (updater : Option String)
    (hlobby : KeysNodup (lobbyDataOf body)) (hsearch : KeysNodup (searchDataOf body)) :
    Updated body (memberSetTarget body updater) l (l.update host body updater) := by
  set target := memberSetTarget body updater with htarget
  set l₁ := l.updateScalars body with hl₁
  set l₂ := l₁.deleteMemberData body target with hl₂
  set l₃ := (l₂.mergeData body).mergeMemberData host body target with hl₃
  have hok₁ : l₁.Ok title k := h.updateScalars body
  have hok₂ : (l₂.mergeData body).Ok title k := (hok₁.deleteMemberData body target).mergeData body
  have hok₃ : l₃.Ok title k := hok₂.mergeMemberData body target
  have hok : (l.update host body updater).Ok title k := h.update body updater
  have hadmits : Admits (memberEntries body) l₃ (l.update host body updater) :=
    .foldl host hok₃ (memberEntries body)
  obtain ⟨hdelete, hdelete'⟩ := deleteMemberData_keeps hok₁ body target
  obtain ⟨hmerge, hmerge'⟩ := mergeMemberData_keeps host hok₂ body target
  have hids : l₃.ids = l.ids := by
    rw [hmerge', ← show l₁.ids = l.ids by rw [ids, hl₁, members_updateScalars]; rfl, ← hdelete']
    rfl
  have hkept : KeepsMembers (target = some ·) l.members l₃.members := by
    rw [← members_updateScalars l body]
    exact hdelete.trans hmerge
  obtain ⟨hbag, hbag'⟩ := l.update_data host body updater
  obtain ⟨howner, hmax, haccess, hlock⟩ := l.update_sameSettings host body updater
  obtain ⟨glock, gaccess, gowner, gmax⟩ := l.updateScalars_settings body
  obtain ⟨added, hsub, hadded, hne⟩ := hadmits.added
  refine
    { lobbyData := fun k => ?_, searchData := fun k => ?_, membershipLock := hlock.trans glock
      accessPolicy := haccess.trans gaccess, owner := howner.trans gowner
      maxPlayers := hmax.trans gmax, kept := ?_, added := ⟨added, hsub, hids ▸ hadded, hne⟩
      distinct := hok.distinct, room := hok.room, served := hadmits.served }
  · rw [hbag, ← Entries.get?_foldl_erase]
    exact get?_mergeFields k hlobby
  · rw [hbag', ← Entries.get?_foldl_erase]
    exact get?_mergeFields k hsearch
  · exact (hkept.mono fun _ => .inl).trans (hadmits.kept.mono fun _ => .inr)

end Lobby

/-- In every state that a broker reaches, an update of a stored lobby applies its deletions, then its
values, and its settings, and keeps the members in their places. The bags of its body are objects
of the JSON library, which hold a key once. -/
theorem handlePlayfab_updated (host : Host) (app : App) (qs : List Query) (r : Request) (l : Lobby)
    (hroute : route r.path = some .updateLobby)
    (hl : (app.after host qs).lobbies.get? (bodyLobbyId r.body) = some l)
    (hlobby : KeysNodup (Lobby.lobbyDataOf r.body)) (hsearch : KeysNodup (Lobby.searchDataOf r.body)) :
    ∃ l', (handlePlayfab host (app.after host qs) r).1.lobbies.get? (bodyLobbyId r.body) = some l' ∧
      Lobby.Updated r.body
        (memberSetTarget r.body (requestEntityId (app.after host qs) r.body r.headers)) l l' := by
  refine ⟨l.update host r.body (requestEntityId (app.after host qs) r.body r.headers), ?_, ?_⟩
  · rw [handlePlayfab_update hroute, handleUpdate_get?, if_pos rfl, hl]
    rfl
  · exact Lobby.update_updated host (app.after_ok host qs _ l hl) r.body _ hlobby hsearch

/-- An update that deletes a key and sets it, and adds a guest. -/
def updateRequest : Request :=
  ⟨⟨1767225601, "1767225601", []⟩, "/Lobby/UpdateLobby",
    .obj [("LobbyId", .string "lan-2b05b16a57c6"), ("LobbyDataToDelete", .array [.string "quest"]),
      ("LobbyData", .obj [("quest", .string "12")]), ("SearchData", .obj [("string_key1", .string "a")]),
      ("MaxPlayers", number 1), ("Members", .array [.obj [("Id", .string "guest")]])], OrdMap.empty⟩

/-- The broker with a lobby of its maker. -/
def oneLobby : List Query := (createAndJoin.take 1).map .playfab

theorem updateRequest_updated : ∃ l l',
    ((App.new "1AC1AD" 8 false).after anonymousHost oneLobby).lobbies.get? "lan-2b05b16a57c6" =
      some l ∧ Lobby.Updated updateRequest.body none l l' := by
  have hstored : (((App.new "1AC1AD" 8 false).after anonymousHost oneLobby).lobbies.get?
      "lan-2b05b16a57c6").isSome = true := by decide +kernel
  obtain ⟨l, hl⟩ := Option.isSome_iff_exists.mp hstored
  have hid : bodyLobbyId updateRequest.body = "lan-2b05b16a57c6" := by decide +kernel
  have htarget : memberSetTarget updateRequest.body
      (requestEntityId ((App.new "1AC1AD" 8 false).after anonymousHost oneLobby)
        updateRequest.body updateRequest.headers) = none := by decide +kernel
  have hbags : KeysNodup (Lobby.lobbyDataOf updateRequest.body) ∧
      KeysNodup (Lobby.searchDataOf updateRequest.body) := by
    unfold KeysNodup
    decide +kernel
  obtain ⟨l', -, hl'⟩ := handlePlayfab_updated anonymousHost (App.new "1AC1AD" 8 false) oneLobby
    updateRequest l (by decide +kernel) (hid ▸ hl) hbags.1 hbags.2
  rw [htarget] at hl'
  exact ⟨l, l', hl, hl'⟩

end GbfrLan.Broker
