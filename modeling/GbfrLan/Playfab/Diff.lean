import GbfrLan.Playfab.View

/-!
# What a delta reports

A delta says of every scalar field whether it differs, names every key whose value was added,
changed or removed, and has one entry for every member who is new or whose properties differ. So
it is empty exactly when the title has been shown everything already.
-/
namespace GbfrLan.Playfab
open Lib

/-- The fields that are compared. -/
structure LobbySnapshot where
  owner : EntityKey
  hasOwner : Bool
  maxPlayers : UInt32
  accessPolicy : ℕ
  membershipLock : ℤ
  props : Props
  search : Props
  memberProps : OrdMap String Props

def snapshot (l : View) : LobbySnapshot :=
  ⟨l.owner, l.hasOwner, l.maxPlayers, l.accessPolicy, l.membershipLock, l.props, l.search,
    l.memberProps⟩

/-- A delta is computed from the snapshot. -/
theorem diffLobby_snapshot {before before' : View} (h : snapshot before = snapshot before')
    (order : List String) (after : View) :
    diffLobby order before after = diffLobby order before' after := by
  simp only [snapshot, LobbySnapshot.mk.injEq] at h
  obtain ⟨howner, hhas, hmax, haccess, hlock, hprops, hsearch, hmembers⟩ := h
  have hupdate : memberUpdateOf before after = memberUpdateOf before' after := by
    funext e
    simp only [memberUpdateOf, hmembers]
  simp only [diffLobby, howner, hhas, hmax, haccess, hlock, hprops, hsearch, hupdate]

/-! ### Keys -/

theorem mem_foldl_keys (k : String) (keys : List String) (m : OrdMap String Unit) :
    k ∈ (keys.foldl (fun m k => m.insert k ()) m).keys ↔ k ∈ keys ∨ k ∈ m.keys := by
  induction keys generalizing m with
  | nil => simp
  | cons a keys ih =>
    rw [List.foldl_cons, ih, OrdMap.mem_keys_iff, OrdMap.mem_keys_iff, OrdMap.contains,
      OrdMap.contains, OrdMap.get?_insert, List.mem_cons]
    by_cases hk : k = a
    · simp [hk]
    · simp [hk]

theorem mem_sortDedup {k : String} {keys : List String} : k ∈ sortDedup keys ↔ k ∈ keys := by
  rw [sortDedup, mem_foldl_keys]
  exact or_iff_left (List.not_mem_nil (a := k))

theorem sorted_sortDedup (keys : List String) : (sortDedup keys).Pairwise (· < ·) :=
  OrdMap.keys_sorted _

/-- In order and each once, the keys under which the bags differ. -/
structure ChangedExactly (before after : Props) (keys : List String) : Prop where
  sorted : keys.Pairwise (· < ·)
  mem : ∀ k, k ∈ keys ↔ before.get? k ≠ after.get? k

theorem changedKeys_exact (before after : Props) :
    ChangedExactly before after (changedKeys before after) := by
  refine ⟨sorted_sortDedup _, fun k => ?_⟩
  rw [changedKeys, mem_sortDedup, List.mem_append, List.mem_filter, List.mem_filter,
    OrdMap.mem_keys_iff, OrdMap.mem_keys_iff, OrdMap.contains, OrdMap.contains]
  -- the first pass finds what was added or changed, the second what was removed
  cases hafter : after.get? k with
  | some v => simp
  | none =>
    cases hbefore : before.get? k with
    | some v => simp
    | none => simp

/-- Each key is named once. -/
theorem ChangedExactly.nodup {before after : Props} {keys : List String}
    (h : ChangedExactly before after keys) : keys.Nodup :=
  h.sorted.imp fun hlt => hlt.ne

theorem ChangedExactly.nil_iff {before after : Props} {keys : List String}
    (h : ChangedExactly before after keys) : keys = [] ↔ before = after := by
  constructor
  · rintro rfl
    refine OrdMap.ext_get? fun k => ?_
    by_contra hne
    exact absurd ((h.mem k).mpr hne) List.not_mem_nil
  · rintro rfl
    refine List.eq_nil_iff_forall_not_mem.mpr fun k hk => ?_
    exact (h.mem k).mp hk rfl

theorem changedKeys_eq_nil_iff {before after : Props} : changedKeys before after = [] ↔ before = after :=
  (changedKeys_exact before after).nil_iff

theorem changedKeys_self (m : Props) : changedKeys m m = [] := changedKeys_eq_nil_iff.mpr rfl

/-! ### Members -/

/-- The member has data that the snapshot does not have. -/
def Announces (before after : View) (eid : String) : Prop :=
  ∃ mp, after.memberProps.get? eid = some mp ∧ before.memberProps.get? eid ≠ some mp

/-- The entry about a member. -/
structure Reports (before after : View) (eid : String) (u : MemberUpdate) : Prop where
  member : u.member ∈ after.members ∧ u.member.id = eid ∨
    (∀ m ∈ after.members, m.id ≠ eid) ∧ u.member = titlePlayer (interned eid)
  status : u.connectionStatusUpdated = true ↔ before.memberProps.get? eid = none
  keys : ∀ mp, after.memberProps.get? eid = some mp →
    ChangedExactly ((before.memberProps.get? eid).getD OrdMap.empty) mp u.propertyKeys

theorem find?_member (members : List EntityKey) (eid : String) (e : EntityKey) :
    (members.find? fun m => m.id == eid).getD e ∈ members ∧
        ((members.find? fun m => m.id == eid).getD e).id = eid ∨
      (∀ m ∈ members, m.id ≠ eid) ∧ (members.find? fun m => m.id == eid).getD e = e := by
  cases hfind : members.find? fun m => m.id == eid with
  | some m => exact .inl ⟨List.mem_of_find?_eq_some hfind, by simpa using List.find?_some hfind⟩
  | none =>
    refine .inr ⟨fun m hm => ?_, rfl⟩
    simpa using List.find?_eq_none.mp hfind m hm

theorem reports_entry {before after : View} {eid : String} {mp : Props} {new : Bool}
    (h : after.memberProps.get? eid = some mp) (hnew : new = true ↔ before.memberProps.get? eid = none) :
    Reports before after eid
      ⟨(after.members.find? fun m => m.id == eid).getD (titlePlayer (interned eid)), new,
        changedKeys ((before.memberProps.get? eid).getD OrdMap.empty) mp⟩ := by
  refine ⟨find?_member after.members eid (titlePlayer (interned eid)), hnew, fun mp' hmp' => ?_⟩
  rw [h, Option.some.injEq] at hmp'
  subst hmp'
  exact changedKeys_exact _ _

/-- A member without an entry in the snapshot, or with another one, is reported, and no other. -/
theorem memberUpdateOf_cases {before after : View} {eid : String} {mp : Props}
    (h : after.memberProps.get? eid = some mp) :
    before.memberProps.get? eid ≠ some mp ∧
        (∃ u, memberUpdateOf before after (eid, mp) = some u ∧ Reports before after eid u) ∨
      before.memberProps.get? eid = some mp ∧ memberUpdateOf before after (eid, mp) = none := by
  unfold memberUpdateOf
  simp only [OrdMap.contains]
  cases hbefore : before.memberProps.get? eid with
  | none =>
    refine .inl ⟨by simp, _, rfl, ?_⟩
    rw [← hbefore]
    exact reports_entry h (by simp [hbefore])
  | some old =>
    simp only [Option.isSome_some, Bool.not_true, Bool.false_or, Option.getD_some]
    by_cases hsame : old = mp
    · subst hsame
      exact .inr ⟨rfl, by rw [changedKeys_self]; rfl⟩
    · have hkeys : (!(changedKeys old mp).isEmpty) = true := by
        simpa [changedKeys_eq_nil_iff] using hsame
      refine .inl ⟨by simpa using hsame, _, if_pos hkeys, ?_⟩
      have hentry := @reports_entry before after eid mp false h (by simp [hbefore])
      rwa [hbefore] at hentry

/-- The members in the order of the iteration, and the entry of each that has one. -/
theorem filterMap_memberUpdateOf (before after : View) (es : Entries String Props)
    (hes : ∀ e ∈ es, after.memberProps.get? e.1 = some e.2) :
    List.Forall₂ (Reports before after)
      ((es.filter fun e => decide (before.memberProps.get? e.1 ≠ some e.2)).map Prod.fst)
      (es.filterMap (memberUpdateOf before after)) := by
  induction es with
  | nil => exact .nil
  | cons e es ih =>
    have hrest := ih fun e he => hes e (List.mem_cons_of_mem _ he)
    rcases @memberUpdateOf_cases before after _ _ (hes e List.mem_cons_self) with
      ⟨hnew, u, hu, hreports⟩ | ⟨hold, hnone⟩
    · rw [List.filterMap_cons_some hu, List.filter_cons_of_pos (by simpa using hnew)]
      exact .cons hreports hrest
    · rw [List.filterMap_cons_none hnone, List.filter_cons_of_neg (by simpa using hold)]
      exact hrest

/-! ### The whole delta -/

theorem EntityKey.eq_iff {a b : EntityKey} : a = b ↔ a.id = b.id ∧ a.type = b.type := by
  cases a
  cases b
  simp

/-- What a delta between two views has to say. -/
structure DiffExact (before after : View) (d : LobbyDelta) : Prop where
  owner : d.ownerUpdated = true ↔ before.hasOwner ≠ after.hasOwner ∨
    before.owner.id ≠ after.owner.id ∨ before.owner.type ≠ after.owner.type
  maxPlayers : d.maxPlayersUpdated = true ↔ before.maxPlayers ≠ after.maxPlayers
  accessPolicy : d.accessPolicyUpdated = true ↔ before.accessPolicy ≠ after.accessPolicy
  membershipLock : d.membershipLockUpdated = true ↔ before.membershipLock ≠ after.membershipLock
  lobbyKeys : ChangedExactly before.props after.props d.lobbyKeys
  searchKeys : ChangedExactly before.search after.search d.searchKeys
  members : ∃ ids : List String, ids.Nodup ∧ (∀ eid, eid ∈ ids ↔ Announces before after eid) ∧
    List.Forall₂ (Reports before after) ids d.memberUpdates

theorem diffLobby_diffExact (order : List String) (before after : View) :
    DiffExact before after (diffLobby order before after) where
  owner := by
    have hkey : before.owner = after.owner ↔
        before.owner.id = after.owner.id ∧ before.owner.type = after.owner.type := EntityKey.eq_iff
    rw [diffLobby, Bool.or_eq_true, bne_iff_ne, decide_eq_true_eq, ne_eq before.owner, hkey, not_and_or]
  maxPlayers := bne_iff_ne
  accessPolicy := bne_iff_ne
  membershipLock := bne_iff_ne
  lobbyKeys := changedKeys_exact _ _
  searchKeys := changedKeys_exact _ _
  members := by
    set es := after.memberProps.iterEntries order with hes
    refine ⟨_, ?_, fun eid => ?_, filterMap_memberUpdateOf before after es fun e he =>
      OrdMap.mem_iterEntries.mp he⟩
    · exact (after.memberProps.keys_iterEntries_nodup order).sublist (List.filter_sublist.map _)
    · simp only [List.mem_map, List.mem_filter, decide_eq_true_eq, Prod.exists, exists_and_right,
        exists_eq_right, hes, OrdMap.mem_iterEntries, Announces]

/-- The title has nothing new to see. -/
structure SameShown (before after : View) : Prop where
  hasOwner : before.hasOwner = after.hasOwner
  owner : before.owner = after.owner
  maxPlayers : before.maxPlayers = after.maxPlayers
  accessPolicy : before.accessPolicy = after.accessPolicy
  membershipLock : before.membershipLock = after.membershipLock
  props : before.props = after.props
  search : before.search = after.search
  memberProps : ∀ eid mp, after.memberProps.get? eid = some mp → before.memberProps.get? eid = some mp

theorem SameShown.refl (v : View) : SameShown v v :=
  ⟨rfl, rfl, rfl, rfl, rfl, rfl, rfl, fun _ _ h => h⟩

theorem DiffExact.isEmpty_iff {before after : View} {d : LobbyDelta} (h : DiffExact before after d) :
    d.isEmpty = true ↔ SameShown before after := by
  obtain ⟨ids, -, hids, hupdates⟩ := h.members
  have howner : d.ownerUpdated = false ↔
      before.hasOwner = after.hasOwner ∧ before.owner = after.owner := by
    rw [← Bool.not_eq_true, h.owner, EntityKey.eq_iff]
    tauto
  have hflag {b : Bool} {P : Prop} (hb : b = true ↔ ¬P) : b = false ↔ P := by
    rw [← Bool.not_eq_true, hb, not_not]
  have hmembers : d.memberUpdates = [] ↔
      ∀ eid mp, after.memberProps.get? eid = some mp → before.memberProps.get? eid = some mp := by
    rw [← List.length_eq_zero_iff, ← hupdates.length_eq, List.length_eq_zero_iff,
      List.eq_nil_iff_forall_not_mem]
    simp only [hids, Announces, not_exists, not_and, not_not]
  unfold LobbyDelta.isEmpty
  simp only [Bool.and_eq_true, Bool.not_eq_true', List.isEmpty_iff, howner, hflag h.maxPlayers,
    hflag h.accessPolicy, hflag h.membershipLock, h.searchKeys.nil_iff, h.lobbyKeys.nil_iff, hmembers]
  constructor
  · rintro ⟨⟨⟨⟨⟨⟨⟨hhas, howner⟩, hmax⟩, haccess⟩, hlock⟩, hsearch⟩, hprops⟩, hall⟩
    exact ⟨hhas, howner, hmax, haccess, hlock, hprops, hsearch, hall⟩
  · rintro ⟨hhas, howner, hmax, haccess, hlock, hprops, hsearch, hall⟩
    exact ⟨⟨⟨⟨⟨⟨⟨hhas, howner⟩, hmax⟩, haccess⟩, hlock⟩, hsearch⟩, hprops⟩, hall⟩

theorem diffLobby_self (order : List String) (v : View) : (diffLobby order v v).isEmpty = true :=
  (diffLobby_diffExact order v v).isEmpty_iff.mpr (.refl v)

/-- A delta says exactly what differs, and nothing when nothing does. -/
theorem diff_exact (order : List String) (before after : View) :
    DiffExact before after (diffLobby order before after) ∧
      ((diffLobby order before after).isEmpty = true ↔ SameShown before after) ∧
      (diffLobby order after after).isEmpty = true :=
  ⟨diffLobby_diffExact order before after, (diffLobby_diffExact order before after).isEmpty_iff,
    diffLobby_self order after⟩

end GbfrLan.Playfab
