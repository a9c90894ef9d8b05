import GbfrLan.Broker.Frame

/-!
# Members as the broker makes them

A member is made with an id, an entity and data. Later requests put other data or another entity
there and add no field, so every member of a stored lobby has these three and nothing else.
-/
namespace GbfrLan.Broker
open Lib Json

theorem newMember_eq (id : String) (entity : Value) (data : Fields) : newMember id entity data = .object
    [("Id", .string id), ("MemberData", .object data), ("MemberEntity", entity)] := by
  have horder : [("Id", 0), ("MemberEntity", 1), ("MemberData", 2)].foldl
      (fun m e => Entries.insert e.1 e.2 m) [] =
        [("Id", 0), ("MemberData", 2), ("MemberEntity", 1)] := by decide +kernel
  have hobj := Value.obj_map (fun n => [.string id, entity, .object data].getD n .null) horder
  simp only [List.map_cons, List.map_nil, Prod.map_apply, id_eq, List.getD_cons_zero,
    List.getD_cons_succ] at hobj
  exact hobj

/-- Other data in the place of those of a member. -/
theorem newMember_putData (id : String) (entity : Value) (data data' : Fields) :
    (newMember id entity data).insertField "MemberData" (.object data') = newMember id entity data' := by
  have hid : ("Id" : String) < "MemberData" := by decide
  rw [newMember_eq, newMember_eq]
  simp [Value.insertField, Entries.insert, hid.not_gt]

/-- Another entity in the place of that of a member. -/
theorem newMember_putEntity (id : String) (entity entity' : Value) (data : Fields) :
    (newMember id entity data).insertField "MemberEntity" entity' = newMember id entity' data := by
  have hid : ("Id" : String) < "MemberEntity" := by decide
  have hdata : ("MemberData" : String) < "MemberEntity" := by decide
  rw [newMember_eq, newMember_eq]
  simp [Value.insertField, Entries.insert, hid.not_gt, hdata.not_gt]

def IsMember (m : Value) : Prop := ∃ id entity data, m = newMember id entity data

theorem isMember_newMember (id : String) (entity : Value) (data : Fields) :
    IsMember (newMember id entity data) := ⟨id, entity, data, rfl⟩

namespace IsMember

variable {m : Value}

theorem putData (h : IsMember m) (data : Fields) :
    IsMember (m.insertField "MemberData" (.object data)) := by
  obtain ⟨id, entity, old, rfl⟩ := h
  rw [newMember_putData]
  exact isMember_newMember id entity data

theorem putEntity (h : IsMember m) (entity : Value) : IsMember (m.insertField "MemberEntity" entity) := by
  obtain ⟨id, old, data, rfl⟩ := h
  rw [newMember_putEntity]
  exact isMember_newMember id entity data

theorem deleteMemberData (h : IsMember m) (keys : List String) : IsMember (deleteMemberData keys m) := by
  unfold Broker.deleteMemberData
  split
  · exact h.putData _
  · exact h

end IsMember

def Lobby.Shaped (l : Lobby) : Prop := ∀ m ∈ l.members, IsMember m

namespace Lobby.Shaped

variable {l : Lobby} {host : Host}

theorem modify (h : l.Shaped) {p : Value → Bool} {f : Value → Value}
    (hf : ∀ m, IsMember m → IsMember (f m)) :
    ({ l with members := modifyFirst p f l.members } : Lobby).Shaped := by
  intro m hm
  rcases mem_modifyFirst hm with hold | ⟨x, hx, -, rfl⟩
  · exact h m hold
  · exact hf x (h x hx)

theorem append (h : l.Shaped) (id : String) (entity : Value) (data : Fields) :
    ({ l with members := l.members ++ [newMember id entity data] } : Lobby).Shaped := by
  intro m hm
  rcases List.mem_append.mp hm with hold | hnew
  · exact h m hold
  · rw [List.mem_singleton.mp hnew]
    exact isMember_newMember id entity data

theorem join (h : l.Shaped) {body entity : Value} {eid : String} {l' : Lobby}
    (hj : l.join host body entity eid = some l') : l'.Shaped := by
  unfold Lobby.join at hj
  split_ifs at hj
  · cases hj
    exact h.modify fun m hm => hm.putData _
  · cases hj
    exact h.append eid entity _

theorem putMember (h : l.Shaped) (mem : Value) : (l.putMember host mem).Shaped := by
  unfold Lobby.putMember
  simp only
  split_ifs
  · exact h
  · exact h.modify fun m hm => (hm.putData _).putEntity _
  · exact h.append _ _ _
  · exact h

theorem deleteMemberData (h : l.Shaped) (body : Value) (target : Option String) :
    (l.deleteMemberData body target).Shaped := by
  unfold Lobby.deleteMemberData
  split
  · exact h.modify fun m hm => hm.deleteMemberData _
  · exact h

theorem mergeMemberData (h : l.Shaped) (body : Value) (target : Option String) :
    (l.mergeMemberData host body target).Shaped := by
  unfold Lobby.mergeMemberData
  split
  · exact h.modify fun m hm => hm.putData _
  · exact h

theorem updateScalars (h : l.Shaped) (body : Value) : (l.updateScalars body).Shaped := by
  unfold Lobby.updateScalars
  cases (jsonI64 body "MaxPlayers").or (jsonI64 body "maxPlayers") <;> exact h

theorem update (h : l.Shaped) (body : Value) (updater : Option String) :
    (l.update host body updater).Shaped := by
  unfold Lobby.update
  simp only
  set target := memberSetTarget body updater
  have hdeleted : ((l.updateScalars body).deleteMemberData body target).Shaped :=
    (h.updateScalars body).deleteMemberData body target
  have hmerged : (((l.updateScalars body).deleteMemberData body target).mergeData body).Shaped :=
    hdeleted
  -- The loop over `Members`: one entry at a time.
  generalize ((body.get "Members").bind Value.asArray).getD [] = mems
  induction mems using List.reverseRecOn with
  | nil => exact hmerged.mergeMemberData body target
  | append_singleton mems mem ih =>
    rw [List.foldl_append]
    exact ih.putMember mem

end Lobby.Shaped

def App.Shaped (app : App) : Prop := ∀ k l, app.lobbies.get? k = some l → l.Shaped

/-- Everything a request can make of the lobby under an id. -/
inductive Becomes (host : Host) (app : App) (r : Request) (k : String) : Lobby → Prop where
  | kept {l : Lobby} (h : app.lobbies.get? k = some l) : Becomes host app r k l
  | joined {l l' : Lobby} (h : app.lobbies.get? k = some l) {entity : Value} {eid : String}
      (hid : ∀ s, jsonStr entity "Id" = some s → s = eid)
      (hjoin : l.join host r.body entity eid = some l') : Becomes host app r k l'
  | left {l l' : Lobby} (h : app.lobbies.get? k = some l) {pid : Option String}
      (hleave : l.leave pid = some l') : Becomes host app r k l'
  | updated {l : Lobby} (h : app.lobbies.get? k = some l) (hroute : route r.path = some .updateLobby)
      (hid : k = bodyLobbyId r.body) :
      Becomes host app r k (l.update host r.body (requestEntityId app r.body r.headers))
  | created (hroute : route r.path = some .createLobby) (hid : k = createdId host app r) :
      Becomes host app r k (createLobby host (resolvePlayer host app r "anonymous").1 r.moment r.body
        (resolvePlayer host app r "anonymous").2).2

theorem handleLeave_becomes (host : Host) (app : App) (r : Request) {k : String} {l' : Lobby}
    (h : (handleLeave app r).1.lobbies.get? k = some l') : Becomes host app r k l' := by
  unfold handleLeave at h
  simp only at h
  split at h
  · exact .kept h
  · rename_i l hl
    cases hleave : l.leave (requestEntityId app r.body r.headers) with
    | none =>
      simp only [hleave, OrdMap.get?_erase] at h
      split_ifs at h
      exact .kept h
    | some l₁ =>
      simp only [hleave, OrdMap.get?_insert, OrdMap.get?_erase] at h
      split_ifs at h with heq
      · cases h
        exact .left (heq ▸ hl) hleave
      · exact .kept h

theorem handleJoin_becomes (host : Host) (app : App) (r : Request) {k : String} {l' : Lobby}
    (h : (handleJoin host app r).1.lobbies.get? k = some l') : Becomes host app r k l' := by
  obtain ⟨hres, -⟩ := resolvePlayer_frame host app r "anonymous"
  unfold handleJoin at h
  simp only at h
  split at h
  · exact .kept (hres ▸ h)
  · split at h
    · exact .kept (hres ▸ h)
    · rename_i l hl
      split at h
      · exact .kept (hres ▸ h)
      · rename_i l₁ hjoin
        simp only [OrdMap.get?_insert] at h
        split_ifs at h with hk
        · cases h
          exact .joined (by rw [hk, ← hres, hl]) (fun s hs => by rw [hs, Option.getD_some]) hjoin
        · exact .kept (hres ▸ h)

theorem handleCreate_becomes (host : Host) (app : App) (r : Request)
    (hroute : route r.path = some .createLobby) {k : String} {l' : Lobby}
    (h : (handleCreate host app r).1.lobbies.get? k = some l') : Becomes host app r k l' := by
  obtain ⟨hres, -⟩ := resolvePlayer_frame host app r "anonymous"
  set p := resolvePlayer host app r "anonymous" with hp
  have hinsert : (handleCreate host app r).1.lobbies.get? k =
      ((dropOwnerLobbies p.1 p.2.entityId).lobbies.insert (createdId host app r)
        (createLobby host p.1 r.moment r.body p.2).2).get? k := rfl
  rw [hinsert, OrdMap.get?_insert] at h
  split_ifs at h with hk
  · cases h
    exact .created hroute hk
  · exact .kept (hres ▸ dropOwnerLobbies_get? p.1 h)

theorem handlePlayfab_becomes (host : Host) (app : App) (r : Request) {k : String} {l' : Lobby}
    (h : (handlePlayfab host app r).1.lobbies.get? k = some l') : Becomes host app r k l' := by
  unfold handlePlayfab at h
  split at h
  · exact .kept h
  · exact .kept ((resolvePlayer_frame host app r _).1 ▸ h)
  · exact handleCreate_becomes host app r (by assumption) h
  · exact handleJoin_becomes host app r h
  · exact .kept h
  · exact handleLeave_becomes host app r h
  · rename_i hroute
    rw [handleUpdate_get?] at h
    split_ifs at h with hid
    · obtain ⟨l, hl, rfl⟩ := Option.map_eq_some_iff.mp h
      exact .updated hl hroute hid
    · exact .kept h
  · exact .kept h
  · exact .kept h
  · exact .kept h

theorem App.Shaped.serve {host : Host} {app : App} (h : app.Shaped) (q : Query) :
    (app.serve host q).Shaped := by
  intro k l' hk
  cases q with
  | playfab r =>
    cases handlePlayfab_becomes host app r hk with
    | kept hl => exact h k l' hl
    | joined hl _ hjoin => exact (h k _ hl).join hjoin
    | left hl hleave => exact fun m hm => h k _ hl m (Lobby.leave_members hleave hm)
    | updated hl => exact (h k _ hl).update r.body _
    | created =>
      intro m hm
      rw [List.mem_singleton.mp hm]
      exact isMember_newMember _ _ _
  | party r =>
    obtain ⟨hl, -, -⟩ := handleParty_lobbies host app r
    exact h k l' (hl ▸ hk)

/-- In every state that a broker reaches, every member of a lobby has an id, an entity and data. -/
theorem App.after_shaped (host : Host) (app : App) (qs : List Query) : (app.after host qs).Shaped := by
  have hempty : ({ app with lobbies := OrdMap.empty } : App).Shaped := by
    intro k l hk
    cases hk
  exact run_invariant_all (fun a q ha => ha.serve q) hempty qs

end GbfrLan.Broker
