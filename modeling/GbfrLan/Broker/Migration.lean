import GbfrLan.Broker.Leave
import GbfrLan.Broker.Ownership
import GbfrLan.Broker.Shape
import GbfrLan.Broker.UpdateLobby

/-!
# Owner migration

When the owner leaves, an automatic migration reads the next owner from the entity of the first
member that stays. Members are told apart by their `Id`, so the new owner is one of them only where
the two say the same. Creates and joins write records in which they do; an entry of `Members` in an
update need not.
-/
namespace GbfrLan.Broker
open Lib Json

/-- The id in the entity of a member. -/
def entityId (m : Value) : Option String := (m.get "MemberEntity").bind fun e => jsonStr e "Id"

/-- The entity of a member has its id, or none. -/
def OneId (m : Value) : Prop := ∀ s, entityId m = some s → s ≠ "" → s = memberId m

theorem ownerText_nextOwner (m : Value) :
    ownerText (nextOwner m) = ((entityId m).filter fun s => !s.isEmpty).getD (memberId m) := by
  set fresh : Value := .obj [("Id", .string (memberId m)), ("Type", .string "title_player_account")]
    with hfresh
  have hfreshId : jsonStr fresh "Id" = some (memberId m) := by
    simp [hfresh, jsonStr, Value.get_obj, Entries.get?, Value.asStr]
  unfold ownerText nextOwner entityId
  cases hm : m.get "MemberEntity" with
  | none => simp only [Option.filter_none, Option.getD_none, Option.bind_none, ← hfresh, hfreshId,
      Option.getD_some]
  | some e =>
    rw [Option.filter_some, Option.bind_some]
    cases hid : jsonStr e "Id" with
    | none =>
      simp only [Option.map_none, Option.getD_none, Bool.false_eq_true, if_false, Option.filter_none,
        ← hfresh, hfreshId, Option.getD_some]
    | some s =>
      rw [Option.map_some, Option.getD_some, Option.filter_some]
      split_ifs with hkeep
      · rw [Option.getD_some, hid, Option.getD_some, Option.getD_some]
      · rw [Option.getD_none, ← hfresh, hfreshId, Option.getD_some, Option.getD_none]

/-- After the owner has left, the lobby is open. An automatic migration makes one of its members the
owner, every other policy leaves it without one. -/
def Migrates (host : Host) (app : App) (r : Request) (policy : ℤ) : Prop :=
  ∃ l', (handlePlayfab host app r).1.lobbies.get? (bodyLobbyId r.body) = some l' ∧
    (policy = 1 → lobbyOwnerId l' ∈ l'.ids) ∧ (policy ≠ 1 → l'.owner = .null)

namespace Lobby

/-- The owner `e` is a member or leaves two members behind, and an automatic migration finds in the
entity of the first member that stays no id, or the id of a member that stays. -/
def HandsOver (l : Lobby) (e : String) : Prop :=
  (l.hasMember e = true ∨ 2 ≤ l.members.length) ∧
    (l.ownerMigrationPolicy = 1 → ∀ next, (l.staying e).head? = some next →
      ∀ s, entityId next = some s → s ≠ "" → s ∈ (l.staying e).map memberId)

variable {l : Lobby} {e : String}

/-- With another member there, the owner closes the lobby exactly when it is none of two. -/
theorem closes_eq_false_iff (hother : l.staying e ≠ []) :
    l.closes e = false ↔ l.hasMember e = true ∨ 2 ≤ l.members.length := by
  have hempty : (l.staying e).isEmpty = false := by simpa using hother
  unfold closes
  rw [hempty, Bool.false_or]
  cases hm : l.hasMember e with
  | true =>
    have hlt := length_staying_lt hm
    simp [hlt.ne]
  | false =>
    rw [staying_eq hm]
    simp
    omega

theorem ids_without : (l.without e).ids = (l.staying e).map memberId := rfl

/-- The owner that an automatic migration picks is a member that stays. -/
theorem owner_without_iff (howner : lobbyOwnerId l = e) (hother : l.staying e ≠ [])
    (hauto : l.ownerMigrationPolicy = 1) :
    lobbyOwnerId (l.without e) ∈ (l.without e).ids ↔
      ∀ next, (l.staying e).head? = some next →
        ∀ s, entityId next = some s → s ≠ "" → s ∈ (l.staying e).map memberId := by
  obtain ⟨next, rest, hstay⟩ := List.exists_cons_of_ne_nil hother
  have hnext : memberId next ∈ (l.staying e).map memberId := by simp [hstay]
  have hid : lobbyOwnerId (l.without e) =
      ((entityId next).filter fun s => !s.isEmpty).getD (memberId next) := by
    have hafter : (l.without e).owner = nextOwner next := by
      show l.ownerAfter e (l.staying e) = nextOwner next
      rw [ownerAfter, if_pos howner, if_pos hauto, hstay]
      rfl
    rw [← ownerText_nextOwner, ← hafter]
    rfl
  rw [hid, ids_without, hstay, List.head?_cons]
  simp only [Option.some.injEq, forall_eq']
  rw [← hstay]
  cases hs : entityId next with
  | none => simp [hnext]
  | some s =>
    rw [Option.filter_some]
    by_cases hempty : s = ""
    · simpa [hempty] using hnext
    · have hkeep : (!s.isEmpty) = true := by simpa using hempty
      rw [if_pos hkeep, Option.getD_some]
      simp [hempty]

end Lobby

/-- Exactly when the leave of an owner hands the lobby over. -/
theorem migrates_iff (host : Host) {app : App} {r : Request} {l : Lobby} {e : String}
    (hroute : route r.path = some .leaveLobby)
    (hl : app.lobbies.get? (bodyLobbyId r.body) = some l)
    (he : requestEntityId app r.body r.headers = some e) (howner : lobbyOwnerId l = e)
    (hother : l.staying e ≠ []) :
    Migrates host app r l.ownerMigrationPolicy ↔ l.HandsOver e := by
  have hget : (handlePlayfab host app r).1.lobbies.get? (bodyLobbyId r.body) =
      if l.closes e then none else some (l.without e) := by
    rw [handlePlayfab_leave hroute, handleLeave_get? he, if_pos rfl, hl]
    rfl
  unfold Migrates Lobby.HandsOver
  rw [hget, ← Lobby.closes_eq_false_iff hother]
  cases hcl : l.closes e with
  | true => simp
  | false =>
    simp only [Bool.false_eq_true, if_false, Option.some.injEq, exists_eq_left', true_and]
    by_cases hauto : l.ownerMigrationPolicy = 1
    · simp only [hauto, forall_const, ne_eq, not_true, false_imp_iff, and_true]
      exact Lobby.owner_without_iff howner hother hauto
    · have hnull : (l.without e).owner = .null := by
        show l.ownerAfter e (l.staying e) = .null
        rw [Lobby.ownerAfter, if_pos howner, if_neg hauto]
      simp [hauto, hnull]

/-! ### Records that carry one id -/

/-- The entries of `Members` in an update name one id each. -/
def Query.OneId : Query → Prop
  | .playfab r => route r.path = some .updateLobby →
      ∀ mem ∈ Lobby.memberEntries r.body, Broker.OneId mem
  | .party _ => True

theorem entityId_newMember (id : String) (entity : Value) (data : Fields) :
    entityId (newMember id entity data) = jsonStr entity "Id" := by
  simp [entityId, newMember, Value.get_obj, Entries.get?]

theorem oneId_newMember {id : String} {entity : Value} {data : Fields}
    (h : ∀ s, jsonStr entity "Id" = some s → s ≠ "" → s = id) : OneId (newMember id entity data) := by
  intro s hs hne
  rw [entityId_newMember] at hs
  rw [memberId_of_id (jsonStr_newMember id entity data)]
  exact h s hs hne

/-- A record as the broker makes them, with one id. -/
def OneRecord (m : Value) : Prop := IsMember m ∧ OneId m

namespace OneRecord

variable {m : Value}

theorem putData (h : OneRecord m) (data : Fields) :
    OneRecord (m.insertField "MemberData" (.object data)) := by
  obtain ⟨⟨id, entity, old, rfl⟩, hone⟩ := h
  rw [newMember_putData]
  refine ⟨isMember_newMember id entity data, oneId_newMember fun s hs hne => ?_⟩
  have hid := hone s (by rw [entityId_newMember, hs]) hne
  rwa [memberId_of_id (jsonStr_newMember id entity old)] at hid

theorem deleteMemberData (h : OneRecord m) (keys : List String) :
    OneRecord (deleteMemberData keys m) := by
  unfold Broker.deleteMemberData
  split
  · exact h.putData _
  · exact h

/-- The entity of an entry of `Members` under the id of the record. -/
theorem put (h : OneRecord m) {mem : Value} (hmem : OneId mem) (hid : memberId m = memberId mem)
    (data : Fields) {entity : Value} (hentity : mem.get "MemberEntity" = some entity ∨
      jsonStr entity "Id" = some (memberId mem)) :
    OneRecord ((m.insertField "MemberData" (.object data)).insertField "MemberEntity" entity) := by
  obtain ⟨⟨id, old, data', rfl⟩, -⟩ := h
  rw [memberId_of_id (jsonStr_newMember id old data')] at hid
  rw [newMember_putData, newMember_putEntity]
  refine ⟨isMember_newMember id entity data, oneId_newMember fun s hs hne => ?_⟩
  rcases hentity with hget | hown
  · rw [hid]
    exact hmem s (by rw [entityId, hget]; exact hs) hne
  · rw [hown, Option.some.injEq] at hs
    rw [hid, hs]

end OneRecord

def Lobby.OneIds (l : Lobby) : Prop := ∀ m ∈ l.members, OneRecord m

namespace Lobby.OneIds

variable {l : Lobby} {host : Host}

theorem modify (h : l.OneIds) {p : Value → Bool} {f : Value → Value}
    (hf : ∀ m, OneRecord m → p m = true → OneRecord (f m)) :
    ({ l with members := modifyFirst p f l.members } : Lobby).OneIds := by
  intro m hm
  rcases mem_modifyFirst hm with hold | ⟨x, hx, hp, rfl⟩
  · exact h m hold
  · exact hf x (h x hx) hp

theorem append (h : l.OneIds) {id : String} {entity : Value} (data : Fields)
    (hid : ∀ s, jsonStr entity "Id" = some s → s ≠ "" → s = id) :
    ({ l with members := l.members ++ [newMember id entity data] } : Lobby).OneIds := by
  intro m hm
  rcases List.mem_append.mp hm with hold | hnew
  · exact h m hold
  · rw [List.mem_singleton.mp hnew]
    exact ⟨isMember_newMember id entity data, oneId_newMember hid⟩

theorem join (h : l.OneIds) {body entity : Value} {eid : String} {l' : Lobby}
    (hid : ∀ s, jsonStr entity "Id" = some s → s = eid)
    (hj : l.join host body entity eid = some l') : l'.OneIds := by
  unfold Lobby.join at hj
  split_ifs at hj
  · cases hj
    exact h.modify fun m hm _ => hm.putData _
  · cases hj
    exact h.append _ fun s hs _ => hid s hs

theorem putMember (h : l.OneIds) {mem : Value} (hmem : OneId mem) :
    (l.putMember host mem).OneIds := by
  have hentity : mem.get "MemberEntity" = some ((mem.get "MemberEntity").getD
        (.obj [("Id", .string (memberId mem)), ("Type", .string "title_player_account")])) ∨
      jsonStr ((mem.get "MemberEntity").getD (.obj [("Id", .string (memberId mem)),
        ("Type", .string "title_player_account")])) "Id" = some (memberId mem) := by
    cases mem.get "MemberEntity" with
    | none => exact .inr (by simp [jsonStr, Value.get_obj, Entries.get?, Value.asStr])
    | some entity => exact .inl rfl
  unfold Lobby.putMember
  simp only
  split_ifs
  · exact h
  · exact h.modify fun m hm hid => hm.put hmem (by simpa using hid) _ hentity
  · refine h.append _ fun s hs hne => ?_
    rcases hentity with hget | hown
    · exact hmem s (by rw [entityId, hget]; exact hs) hne
    · exact (Option.some.inj (hown.symm.trans hs)).symm
  · exact h

theorem deleteMemberData (h : l.OneIds) (body : Value) (target : Option String) :
    (l.deleteMemberData body target).OneIds := by
  unfold Lobby.deleteMemberData
  split
  · exact h.modify fun m hm _ => hm.deleteMemberData _
  · exact h

theorem mergeMemberData (h : l.OneIds) (body : Value) (target : Option String) :
    (l.mergeMemberData host body target).OneIds := by
  unfold Lobby.mergeMemberData
  split
  · exact h.modify fun m hm _ => hm.putData _
  · exact h

theorem update (h : l.OneIds) {body : Value} (updater : Option String)
    (hentries : ∀ mem ∈ Lobby.memberEntries body, OneId mem) :
    (l.update host body updater).OneIds := by
  set target := memberSetTarget body updater with htarget
  have hscalars : (l.updateScalars body).OneIds := by
    unfold OneIds
    rw [members_updateScalars]
    exact h
  have hmerged : (((l.updateScalars body).deleteMemberData body target).mergeData body).OneIds :=
    hscalars.deleteMemberData body target
  show ((Lobby.memberEntries body).foldl (Lobby.putMember host) _).OneIds
  generalize Lobby.memberEntries body = mems at hentries
  induction mems using List.reverseRecOn with
  | nil => exact hmerged.mergeMemberData body target
  | append_singleton mems mem ih =>
    rw [List.foldl_append]
    exact (ih fun m hm => hentries m (List.mem_append_left _ hm)).putMember
      (hentries mem (List.mem_append_right _ (List.mem_singleton_self _)))

end Lobby.OneIds

def App.OneIds (app : App) : Prop := ∀ k l, app.lobbies.get? k = some l → l.OneIds

theorem App.OneIds.serve {host : Host} {app : App} (h : app.OneIds) {q : Query} (hq : q.OneId) :
    (app.serve host q).OneIds := by
  intro k l' hk
  cases q with
  | playfab r =>
    cases handlePlayfab_becomes host app r hk with
    | kept hl => exact h k l' hl
    | joined hl hid hjoin => exact (h k _ hl).join hid hjoin
    | left hl hleave => exact fun m hm => h k _ hl m (Lobby.leave_members hleave hm)
    | updated hl hroute => exact (h k _ hl).update _ (hq hroute)
    | created =>
      intro m hm
      rw [List.mem_singleton.mp hm]
      refine ⟨isMember_newMember _ _ _, oneId_newMember fun s hs _ => ?_⟩
      rw [hs, Option.getD_some]
  | party r =>
    obtain ⟨hl, -, -⟩ := handleParty_lobbies host app r
    exact h k l' (hl ▸ hk)

/-- Where every entry of `Members` names one id, so does every stored member. -/
theorem App.after_oneIds (host : Host) (app : App) {qs : List Query} (hqs : ∀ q ∈ qs, q.OneId) :
    (app.after host qs).OneIds := by
  have hempty : ({ app with lobbies := OrdMap.empty } : App).OneIds := by
    intro k l hk
    cases hk
  exact run_invariant_mem (fun a q ha hq => ha.serve hq) hempty hqs

theorem Lobby.OneIds.handsOver {l : Lobby} (h : l.OneIds) {e : String}
    (hopen : l.hasMember e = true ∨ 2 ≤ l.members.length) : l.HandsOver e := by
  refine ⟨hopen, fun _ next hnext s hs hne => ?_⟩
  have hmem : next ∈ l.staying e := List.mem_of_mem_head? hnext
  rw [(h next (List.mem_of_mem_filter hmem)).2 s hs hne]
  exact List.mem_map_of_mem hmem

/-- In every state that a broker reaches, the leave of an owner with another member in the lobby
hands it over exactly when `HandsOver` holds. Where every entry of `Members` named one id, that is
when the owner is a member itself or leaves two behind. -/
theorem owner_migrates_iff (host : Host) (app : App) (qs : List Query) (r : Request) (l : Lobby)
    (e : String) (hroute : route r.path = some .leaveLobby)
    (hl : (app.after host qs).lobbies.get? (bodyLobbyId r.body) = some l)
    (he : requestEntityId (app.after host qs) r.body r.headers = some e)
    (howner : lobbyOwnerId l = e) (hother : l.staying e ≠ []) :
    (Migrates host (app.after host qs) r l.ownerMigrationPolicy ↔ l.HandsOver e) ∧
      ((∀ q ∈ qs, q.OneId) → (Migrates host (app.after host qs) r l.ownerMigrationPolicy ↔
        l.hasMember e = true ∨ 2 ≤ l.members.length)) := by
  have hiff := migrates_iff host hroute hl he howner hother
  refine ⟨hiff, fun hqs => hiff.trans ⟨And.left, fun hopen => ?_⟩⟩
  exact (App.after_oneIds host app hqs _ l hl).handsOver hopen

/-- A lobby with automatic migration and a guest, whose entity has the id `entity`. -/
def handedLobby (entity : String) : List Query :=
  let m : Moment := ⟨1767225600, "1767225600.5", []⟩
  [.playfab ⟨m, "/Lobby/CreateAndJoinLobby",
      .obj [("OwnerMigrationPolicy", .string "Automatic")], OrdMap.empty⟩,
    .playfab ⟨m, "/Lobby/UpdateLobby", .obj [("LobbyId", .string "lan-2b05b16a57c6"),
      ("Members", .array [.obj [("Id", .string "guest"),
        ("MemberEntity", .obj [("Id", .string entity)])]])], OrdMap.empty⟩]

/-- The leave of the maker. -/
def ownerLeave : Request := leaveRequest "a07e41cf7143288d"

theorem handedLobby_oneId : ∀ q ∈ handedLobby "guest", q.OneId := by
  refine List.forall_mem_cons.mpr ⟨fun hroute => absurd hroute (by decide +kernel),
    List.forall_mem_singleton.mpr fun _ mem hmem => ?_⟩
  have hentries : Lobby.memberEntries (.obj [("LobbyId", .string "lan-2b05b16a57c6"),
      ("Members", .array [.obj [("Id", .string "guest"),
        ("MemberEntity", .obj [("Id", .string "guest")])]])]) =
      [.obj [("Id", .string "guest"), ("MemberEntity", .obj [("Id", .string "guest")])]] := by
    decide +kernel
  rw [hentries, List.mem_singleton] at hmem
  have hids : entityId (.obj [("Id", .string "guest"),
        ("MemberEntity", .obj [("Id", .string "guest")])]) = some "guest" ∧
      memberId (.obj [("Id", .string "guest"),
        ("MemberEntity", .obj [("Id", .string "guest")])]) = "guest" := by decide +kernel
  intro s hs _
  rw [hmem, hids.1, Option.some.injEq] at hs
  rw [hmem, hids.2, hs]

/-- A guest with one id gets the lobby of the maker. -/
theorem handedLobby_migrates :
    Migrates anonymousHost ((App.new "1AC1AD" 8 false).after anonymousHost (handedLobby "guest"))
      ownerLeave 1 := by
  set app := (App.new "1AC1AD" 8 false).after anonymousHost (handedLobby "guest") with happ
  have hstored : (app.lobbies.get? (bodyLobbyId ownerLeave.body)).map (fun l =>
      (lobbyOwnerId l, l.ownerMigrationPolicy, l.hasMember "a07e41cf7143288d",
        (l.staying "a07e41cf7143288d").length)) = some ("a07e41cf7143288d", 1, true, 1) := by
    decide +kernel
  obtain ⟨l, hl, hfacts⟩ := Option.map_eq_some_iff.mp hstored
  simp only [Prod.mk.injEq] at hfacts
  obtain ⟨howner, hpolicy, hmember, hlength⟩ := hfacts
  have hiff := owner_migrates_iff anonymousHost (App.new "1AC1AD" 8 false) (handedLobby "guest")
    ownerLeave l "a07e41cf7143288d" (by decide +kernel) hl (by decide +kernel) howner
    (List.ne_nil_of_length_pos (by omega))
  rw [hpolicy] at hiff
  exact (hiff.2 handedLobby_oneId).mpr (.inl hmember)

/-- A guest whose entity has another id stays in a lobby that this other id owns. -/
theorem handedLobby_lost : ∃ l,
    ((App.new "1AC1AD" 8 false).after anonymousHost (handedLobby "other")).lobbies.get?
      (bodyLobbyId ownerLeave.body) = some l ∧
    requestEntityId ((App.new "1AC1AD" 8 false).after anonymousHost (handedLobby "other"))
      ownerLeave.body ownerLeave.headers = some "a07e41cf7143288d" ∧
    lobbyOwnerId l = "a07e41cf7143288d" ∧ l.staying "a07e41cf7143288d" ≠ [] ∧
    ¬Migrates anonymousHost ((App.new "1AC1AD" 8 false).after anonymousHost (handedLobby "other"))
      ownerLeave l.ownerMigrationPolicy := by
  set app := (App.new "1AC1AD" 8 false).after anonymousHost (handedLobby "other") with happ
  have hstored : (app.lobbies.get? (bodyLobbyId ownerLeave.body)).map (fun l =>
      (lobbyOwnerId l, l.ownerMigrationPolicy, (l.staying "a07e41cf7143288d").length)) =
        some ("a07e41cf7143288d", 1, 1) := by
    decide +kernel
  have hafter : ((handlePlayfab anonymousHost app ownerLeave).1.lobbies.get?
      (bodyLobbyId ownerLeave.body)).map (fun l => (lobbyOwnerId l, l.ids)) =
        some ("other", ["guest"]) := by
    decide +kernel
  obtain ⟨l, hl, hfacts⟩ := Option.map_eq_some_iff.mp hstored
  simp only [Prod.mk.injEq] at hfacts
  obtain ⟨howner, hpolicy, hlength⟩ := hfacts
  refine ⟨l, hl, by decide +kernel, howner, List.ne_nil_of_length_pos (by omega), ?_⟩
  rintro ⟨l', hl', hauto, -⟩
  rw [hl', Option.map_some, Option.some.injEq, Prod.mk.injEq] at hafter
  have hin := hauto hpolicy
  rw [hafter.1, hafter.2] at hin
  exact absurd hin (by decide)

end GbfrLan.Broker
