import GbfrLan.Broker.MemberData
import GbfrLan.Broker.Playfab

/-!
# What an update does to the data of a lobby

An update first deletes keys and then merges the bags of its body key by key. The parts that
deal with members leave both bags alone, and change the data of one member in the same way.
-/
namespace GbfrLan.Broker
open Lib Json

/-- Keys of a bag of an object occur once. -/
def KeysNodup (m : Fields) : Prop := (m.map Prod.fst).Nodup

theorem get?_mergeFields (k : String) {into from' : Fields} (h : KeysNodup from') :
    Entries.get? k (mergeFields into from') =
      (Entries.get? k from').or (Entries.get? k into) := by
  unfold mergeFields
  rw [Entries.get?_foldl_insert, Entries.get?_perm h from'.reverse_perm.symm]

namespace Lobby

variable (host : Host)

/-- Both bags are the same. -/
def SameData (l l' : Lobby) : Prop := l'.lobbyData = l.lobbyData ∧ l'.searchData = l.searchData

theorem putMember_sameData (l : Lobby) (mem : Value) : l.SameData (l.putMember host mem) := by
  unfold putMember SameData
  simp only
  split_ifs <;> exact ⟨rfl, rfl⟩

theorem foldl_putMember_sameData (mems : List Value) (l : Lobby) :
    l.SameData (mems.foldl (putMember host) l) := by
  induction mems generalizing l with
  | nil => exact ⟨rfl, rfl⟩
  | cons mem mems ih =>
    obtain ⟨hl, hs⟩ := l.putMember_sameData host mem
    obtain ⟨hl', hs'⟩ := ih (l.putMember host mem)
    exact ⟨hl'.trans hl, hs'.trans hs⟩

theorem mergeMemberData_sameData (l : Lobby) (body : Value) (target : Option String) :
    l.SameData (l.mergeMemberData host body target) := by
  unfold mergeMemberData SameData
  split <;> exact ⟨rfl, rfl⟩

theorem deleteMemberData_sameData (l : Lobby) (body : Value) (target : Option String) :
    l.SameData (l.deleteMemberData body target) := by
  unfold deleteMemberData SameData
  split <;> exact ⟨rfl, rfl⟩

theorem updateScalars_data (l : Lobby) (body : Value) :
    (l.updateScalars body).lobbyData =
        (jsonStrArray body ["LobbyDataToDelete", "lobbyDataToDelete"]).foldl
          (fun d k => Entries.erase k d) l.lobbyData ∧
      (l.updateScalars body).searchData =
        (jsonStrArray body ["SearchDataToDelete", "searchDataToDelete"]).foldl
          (fun d k => Entries.erase k d) l.searchData := by
  unfold updateScalars
  simp only
  split <;> exact ⟨rfl, rfl⟩

/-- The bags after an update. -/
theorem update_data (l : Lobby) (body : Value) (updater : Option String) :
    (l.update host body updater).lobbyData =
        mergeFields ((jsonStrArray body ["LobbyDataToDelete", "lobbyDataToDelete"]).foldl
          (fun d k => Entries.erase k d) l.lobbyData)
          (asObjOrEmpty ((body.get "LobbyData").or (body.get "lobbyData"))) ∧
      (l.update host body updater).searchData =
        mergeFields ((jsonStrArray body ["SearchDataToDelete", "searchDataToDelete"]).foldl
          (fun d k => Entries.erase k d) l.searchData)
          (asObjOrEmpty ((body.get "SearchData").or (body.get "searchData"))) := by
  set target := memberSetTarget body updater with htarget
  set l₁ := l.updateScalars body with hl₁
  set l₂ := l₁.deleteMemberData body target with hl₂
  obtain ⟨hlobby, hsearch⟩ := l.updateScalars_data body
  obtain ⟨hdel, hdel'⟩ := l₁.deleteMemberData_sameData body target
  obtain ⟨hmem, hmem'⟩ := (l₂.mergeData body).mergeMemberData_sameData host body target
  obtain ⟨hput, hput'⟩ := foldl_putMember_sameData host
    (((body.get "Members").bind Value.asArray).getD [])
    ((l₂.mergeData body).mergeMemberData host body target)
  refine ⟨?_, ?_⟩
  · rw [← hlobby, ← hl₁, ← hdel]
    exact hput.trans hmem
  · rw [← hsearch, ← hl₁, ← hdel']
    exact hput'.trans hmem'

end Lobby

theorem handlePlayfab_update {host : Host} {app : App} {r : Request}
    (hr : route r.path = some .updateLobby) :
    (handlePlayfab host app r).1 = (handleUpdate host app r).1 := by
  simp only [handlePlayfab, hr]

/-- The lobby that an update leaves under an id. -/
theorem handleUpdate_get? (host : Host) (app : App) (r : Request) (id : String) :
    (handleUpdate host app r).1.lobbies.get? id =
      if id = bodyLobbyId r.body then
        (app.lobbies.get? id).map fun l =>
          l.update host r.body (requestEntityId app r.body r.headers)
      else app.lobbies.get? id := by
  unfold handleUpdate
  simp only
  split
  · rename_i hnone
    split_ifs with hid
    · rw [hid, hnone]
      rfl
    · rfl
  · rename_i l hsome
    rw [OrdMap.get?_insert]
    split_ifs with hid
    · rw [hid, hsome]
      rfl
    · rfl

/-! ### The data of a member -/

/-- Member data is filled in under these keys only. -/
theorem get?_fillMemberData (host : Host) {k : String} (h : k ∉ platformKeys) (data : Fields)
    (eid : String) : Entries.get? k (fillMemberData host data eid) = Entries.get? k data := by
  simp only [platformKeys, List.mem_cons, List.not_mem_nil, or_false, not_or] at h
  rw [fillMemberData_get?, if_neg h.1, if_neg h.2.1, if_neg h.2.2]

/-- An entry of the data of a member. -/
def Lobby.memberEntry (l : Lobby) (eid k : String) : Option Value :=
  (l.members.find? fun m => memberId m == eid).bind fun m =>
    Entries.get? k (asObjOrEmpty (m.get "MemberData"))

theorem memberId_insertField (m x : Value) : memberId (m.insertField "MemberData" x) = memberId m := by
  unfold memberId jsonStr
  rw [Value.get_insertField_of_ne (by decide), Value.get_insertField_of_ne (by decide)]

theorem memberId_deleteMemberData (keys : List String) (m : Value) :
    memberId (deleteMemberData keys m) = memberId m := by
  unfold deleteMemberData
  split
  · exact memberId_insertField m _
  · rfl

/-- A member with an id is an object. -/
theorem get_memberData_insertField {m : Value} {eid : String} (h : memberId m = eid)
    (hne : eid ≠ "") (x : Value) : (m.insertField "MemberData" x).get "MemberData" = some x := by
  cases m with
  | object fields => simp [Value.insertField]
  | _ => exact absurd h.symm hne

theorem get?_deleteMemberData (keys : List String) {m : Value} {eid : String}
    (h : memberId m = eid) (hne : eid ≠ "") (k : String) :
    Entries.get? k (asObjOrEmpty ((deleteMemberData keys m).get "MemberData")) =
      if k ∈ keys then none else Entries.get? k (asObjOrEmpty (m.get "MemberData")) := by
  unfold deleteMemberData
  cases hmd : (m.get "MemberData").bind Value.asObject with
  | none =>
    simp only [asObjOrEmpty, hmd, Option.getD_none, Entries.get?_nil, ite_self]
  | some md =>
    simp only [get_memberData_insertField h hne, asObjOrEmpty, hmd, Option.bind_some,
      Value.asObject, Option.getD_some]
    exact Entries.get?_foldl_erase k keys md

namespace Lobby

theorem members_updateScalars (l : Lobby) (body : Value) :
    (l.updateScalars body).members = l.members := by
  unfold updateScalars
  simp only
  split <;> rfl

theorem memberEntry_deleteMemberData (l : Lobby) (body : Value) {eid : String} (hne : eid ≠ "")
    (k : String) :
    (l.deleteMemberData body (some eid)).memberEntry eid k =
      if k ∈ jsonStrArray body ["MemberDataToDelete", "memberDataToDelete"] then none
      else l.memberEntry eid k := by
  unfold deleteMemberData
  cases hkeys : jsonStrArray body ["MemberDataToDelete", "memberDataToDelete"] with
  | nil => simp
  | cons key keys =>
    have hfound := find?_modifyFirst (p := fun m => memberId m == eid)
      (f := Broker.deleteMemberData (key :: keys)) (fun m hm => by simpa [memberId_deleteMemberData] using hm) l.members
    simp only [memberEntry, hfound]
    cases hm : l.members.find? fun m => memberId m == eid with
    | none => simp
    | some m =>
      have hid : memberId m = eid := by simpa using List.find?_some hm
      exact get?_deleteMemberData (key :: keys) hid hne k

theorem memberEntry_mergeMemberData (host : Host) (l : Lobby) {body : Value} {eid : String}
    {md : Fields} (hne : eid ≠ "") (hdata : (body.get "MemberData").bind Value.asObject = some md)
    (hnodup : KeysNodup md) (hin : (l.members.any fun m => memberId m == eid) = true) {k : String}
    (hk : k ∉ platformKeys) :
    (l.mergeMemberData host body (some eid)).memberEntry eid k =
      (Entries.get? k md).or (l.memberEntry eid k) := by
  obtain ⟨m, hm⟩ : ∃ m, (l.members.find? fun m => memberId m == eid) = some m := by
    rw [← Option.isSome_iff_exists, List.find?_isSome]
    simpa using hin
  have hid : memberId m = eid := by simpa using List.find?_some hm
  have hfound := find?_modifyFirst (p := fun m => memberId m == eid) (f := fun m =>
      m.insertField "MemberData" (.object (fillMemberData host
        (mergeFields (asObjOrEmpty (m.get "MemberData")) md) eid)))
    (fun m hm => by simpa [memberId_insertField] using hm) l.members
  unfold mergeMemberData
  simp only [hdata, memberEntry, hfound, hm, Option.map_some, Option.bind_some]
  rw [get_memberData_insertField hid hne]
  show Entries.get? k (fillMemberData host _ eid) = _
  rw [get?_fillMemberData host hk, get?_mergeFields k hnodup]

/-- The data of the member that an update is for. -/
theorem memberEntry_update (host : Host) (l : Lobby) {body : Value} {updater : Option String}
    {eid : String} {md : Fields} (htarget : memberSetTarget body updater = some eid)
    (hne : eid ≠ "") (hdata : (body.get "MemberData").bind Value.asObject = some md)
    (hnodup : KeysNodup md) (hmembers : body.get "Members" = none)
    (hin : (l.members.any fun m => memberId m == eid) = true) {k : String}
    (hk : k ∉ platformKeys) :
    (l.update host body updater).memberEntry eid k =
      (Entries.get? k md).or
        (if k ∈ jsonStrArray body ["MemberDataToDelete", "memberDataToDelete"] then none
        else l.memberEntry eid k) := by
  set l₁ := l.updateScalars body with hl₁
  set l₂ := l₁.deleteMemberData body (some eid) with hl₂
  have hupdate : l.update host body updater =
      (l₂.mergeData body).mergeMemberData host body (some eid) := by
    unfold update
    rw [htarget, hmembers]
    rfl
  have hin₂ : ((l₂.mergeData body).members.any fun m => memberId m == eid) = true := by
    have hmap : l₂.members.map memberId = l.members.map memberId := by
      rw [hl₂, ← l.members_updateScalars body]
      unfold deleteMemberData
      split
      · exact map_modifyFirst fun m _ => memberId_deleteMemberData _ m
      · rfl
    have hany (xs : List Value) : (xs.any fun m => memberId m == eid) = (xs.map memberId).any (· == eid) := by
      rw [List.any_map]
      rfl
    show (l₂.members.any fun m => memberId m == eid) = true
    rwa [hany, hmap, ← hany]
  have hdelete : (l₂.mergeData body).memberEntry eid k =
      if k ∈ jsonStrArray body ["MemberDataToDelete", "memberDataToDelete"] then none
      else l.memberEntry eid k := by
    have hsame : l₁.memberEntry eid k = l.memberEntry eid k := by
      unfold memberEntry
      rw [hl₁, members_updateScalars]
    rw [← hsame]
    exact l₁.memberEntry_deleteMemberData body hne k
  rw [hupdate, memberEntry_mergeMemberData host _ hne hdata hnodup hin₂ hk, hdelete]

/-- The owner and the settings are the same. -/
def SameSettings (l l' : Lobby) : Prop :=
  l'.owner = l.owner ∧ l'.maxPlayers = l.maxPlayers ∧ l'.accessPolicy = l.accessPolicy ∧
    l'.membershipLock = l.membershipLock

theorem SameSettings.trans {l l' l'' : Lobby} (h : l.SameSettings l') (h' : l'.SameSettings l'') :
    l.SameSettings l'' :=
  ⟨h'.1.trans h.1, h'.2.1.trans h.2.1, h'.2.2.1.trans h.2.2.1, h'.2.2.2.trans h.2.2.2⟩

theorem foldl_putMember_sameSettings (host : Host) (mems : List Value) (l : Lobby) :
    l.SameSettings (mems.foldl (putMember host) l) := by
  induction mems generalizing l with
  | nil => exact ⟨rfl, rfl, rfl, rfl⟩
  | cons mem mems ih =>
    have hstep : l.SameSettings (l.putMember host mem) := by
      unfold putMember SameSettings
      simp only
      split_ifs <;> exact ⟨rfl, rfl, rfl, rfl⟩
    exact hstep.trans (ih (l.putMember host mem))

/-- Behind the scalar fields an update keeps the owner and the settings. -/
theorem update_sameSettings (host : Host) (l : Lobby) (body : Value) (updater : Option String) :
    (l.updateScalars body).SameSettings (l.update host body updater) := by
  set l₁ := l.updateScalars body with hl₁
  set target := memberSetTarget body updater with htarget
  have hdelete : l₁.SameSettings (l₁.deleteMemberData body target) := by
    unfold deleteMemberData SameSettings
    split <;> exact ⟨rfl, rfl, rfl, rfl⟩
  have hmerge (l : Lobby) : l.SameSettings (l.mergeMemberData host body target) := by
    unfold mergeMemberData SameSettings
    split <;> exact ⟨rfl, rfl, rfl, rfl⟩
  have hdata : (l₁.deleteMemberData body target).SameSettings
      ((l₁.deleteMemberData body target).mergeData body) := ⟨rfl, rfl, rfl, rfl⟩
  exact ((hdelete.trans hdata).trans (hmerge _)).trans (foldl_putMember_sameSettings host _ _)

end Lobby

end GbfrLan.Broker
