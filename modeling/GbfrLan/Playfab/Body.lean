import GbfrLan.Playfab.Lobby

/-!
# What the broker reads in a request of the shim

The values that the texts of `Playfab.Lobby` stand for. Values are escaped, so they come back
as they are. Names and lobby ids are not, so a text is only read back when those need no
escape.
-/
namespace GbfrLan.Playfab
open Lib Json

/-- No name in the bag needs an escape. -/
def PlainKeys (m : Props) : Prop := ∀ k ∈ m.keys, Read.Plain k

instance (m : Props) : Decidable (PlainKeys m) := List.decidableBAll _ _

/-- Nothing that is written without escaping needs one. -/
structure Lobby.Plain (l : Lobby) : Prop where
  id : Read.Plain l.id
  props : PlainKeys l.props
  search : PlainKeys l.search
  memberProps : ∀ mp ∈ l.memberProps.values, PlainKeys mp

instance (l : Lobby) : Decidable l.Plain :=
  decidable_of_iff (Read.Plain l.id ∧ PlainKeys l.props ∧ PlainKeys l.search ∧
      ∀ mp ∈ l.memberProps.values, PlainKeys mp)
    ⟨fun ⟨a, b, c, d⟩ => ⟨a, b, c, d⟩, fun ⟨a, b, c, d⟩ => ⟨a, b, c, d⟩⟩

/-! ### Values -/

def propsValue (m : Props) (order : List String) : Value :=
  .obj ((m.iterEntries order).map fun e => (e.1, .string e.2))

def memberDataValue (entityId : String) (extra : Props) (order : List String) : Value :=
  propsValue (ensureMemberProps (applyProps OrdMap.empty extra) entityId) order

def strListValue (keys : List String) : Value := .array (keys.map .string)

def entityValue (id type : String) : Value := .obj [("Id", .string id), ("Type", .string type)]

def memberEntries (lobby : Lobby) (memberTarget : Option String) (localEntity : String)
    (order : List String) : List (String × Value) :=
  let target := memberTarget.or (if localEntity.isEmpty then none else some localEntity)
  match target.bind fun eid => (lobby.memberProps.get? eid).map fun mp => (eid, mp) with
  | none => []
  | some (eid, mp) =>
      if memberTarget.isSome then
        [("MemberData", memberDataValue eid mp order),
          ("MemberEntity", entityValue eid "title_player_account")]
      else [("MemberData", memberDataValue eid mp order)]

def deleteEntries (searchDelete lobbyDelete : List String) : List (String × Value) :=
  (if searchDelete.isEmpty then [] else [("SearchDataToDelete", strListValue searchDelete)]) ++
  (if lobbyDelete.isEmpty then [] else [("LobbyDataToDelete", strListValue lobbyDelete)])

def PostUpdateScalars.entries (scalars : PostUpdateScalars) : List (String × Value) :=
  (scalars.owner.map fun o => ("Owner", entityValue o.id o.type)).toList ++
  (scalars.maxPlayers.map fun m => ("MaxPlayers", Broker.number m.toNat)).toList ++
  (scalars.accessPolicy.map fun a => ("AccessPolicy", .string (accessPolicyName a))).toList ++
  (scalars.membershipLock.map fun k =>
    ("MembershipLock", .string (if k = 1 then "Locked" else "Unlocked"))).toList

def memberDeleteEntries (memberTarget : Option String) (memberDelete : List String) :
    List (String × Value) :=
  if memberTarget.isSome ∧ ¬memberDelete.isEmpty then
    [("MemberDataToDelete", strListValue memberDelete)]
  else []

/-- The fields of the body of a post. -/
def Post.entries (p : Post) : List (String × Value) :=
  [("LobbyId", .string p.lobby.id), ("LobbyData", propsValue p.lobby.props p.order.props),
    ("SearchData", propsValue p.lobby.search p.order.search)] ++
    memberEntries p.lobby p.memberTarget p.localEntity p.order.member ++
    deleteEntries p.searchDelete p.lobbyDelete ++ p.scalars.entries ++
    memberDeleteEntries p.memberTarget p.memberDelete

theorem get_propsValue (m : Props) (order : List String) (k : String) :
    (propsValue m order).get k = (m.get? k).map .string := by
  have hnodup : (((m.iterEntries order).map fun e => (e.1, Value.string e.2)).map Prod.fst).Nodup := by
    rw [List.map_map]
    exact m.keys_iterEntries_nodup order
  rw [propsValue, Value.get_obj, Entries.get?_perm
    ((List.reverse_perm _).map Prod.fst |>.nodup_iff.mpr hnodup) (List.reverse_perm _),
    Entries.get?_map, OrdMap.get?_iterEntries]

/-! ### Reading -/

section
variable {readFloat : List Char → Option UInt64} {d : ℕ}

theorem reads_escaped (s : String) :
    Read.Reads readFloat d (quoted (jsonEscape s)) (.string s) :=
  Read.reads_string readFloat d (quotes_jsonEscape s)

theorem reads_plain {s : String} (h : Read.Plain s) :
    Read.Reads readFloat d (quoted s.toList) (.string s) :=
  Read.reads_string readFloat d (Read.quotes_plain h)

theorem reads_propsJson {m : Props} (h : PlainKeys m) (order : List String) :
    Read.Reads readFloat (d + 2) (propsJson m order) (propsValue m order) := by
  have hentries (es : Entries String String) (hes : ∀ e ∈ es, Read.Plain e.1) :
      Read.ReadsFields readFloat (d + 1)
        (es.map fun e => field e.1 (quoted (jsonEscape e.2)))
        (es.map fun e => (e.1, .string e.2)) := by
    induction es with
    | nil => exact .nil
    | cons e es ih =>
      refine .cons (hes e List.mem_cons_self) (reads_escaped e.2) (ih ?_)
      intro e' he'
      exact hes e' (List.mem_cons_of_mem _ he')
  refine (hentries (m.iterEntries order) ?_).object
  intro e he
  have hmem : e ∈ m.entries := (OrdMap.mem_entries_iff m e.1 e.2).mpr (OrdMap.mem_iterEntries.mp he)
  exact h e.1 (List.mem_map_of_mem hmem)

theorem reads_strList (keys : List String) :
    Read.Reads readFloat (d + 2) (strList keys) (strListValue keys) := by
  have hquoted : Read.Reads readFloat (d + 2) _ _ :=
    Read.reads_strings (keys.map fun k => ⟨jsonEscape k, k, quotes_jsonEscape k⟩)
  rw [List.map_map, List.map_map] at hquoted
  exact hquoted

theorem reads_entityJson (id type : String) :
    Read.Reads readFloat (d + 2) (entityJson id type) (entityValue id type) :=
  Read.ReadsFields.object
    (.cons (by decide) (reads_escaped id) (.single (by decide) (reads_escaped type)))

theorem plainKeys_iff {m : Props} : PlainKeys m ↔ ∀ k v, m.get? k = some v → Read.Plain k := by
  constructor
  · intro h k v hk
    exact h k (List.mem_map_of_mem ((OrdMap.mem_entries_iff m k v).mpr hk))
  · intro h k hk
    obtain ⟨e, he, rfl⟩ := List.mem_map.mp hk
    exact h e.1 e.2 ((OrdMap.mem_entries_iff m e.1 e.2).mp he)

theorem plainKeys_insert {m : Props} (h : PlainKeys m) {k : String} (v : String)
    (hk : Read.Plain k) : PlainKeys (m.insert k v) := by
  rw [plainKeys_iff] at h ⊢
  intro k' v' hk'
  rw [OrdMap.get?_insert] at hk'
  split_ifs at hk' with heq
  · rw [heq]
    exact hk
  · exact h k' v' hk'

theorem plainKeys_applyProps {dst src : Props} (hdst : PlainKeys dst) (hsrc : PlainKeys src) :
    PlainKeys (applyProps dst src) := by
  have hes (es : Entries String String) (hes : ∀ e ∈ es, Read.Plain e.1) (m : Props)
      (hm : PlainKeys m) :
      PlainKeys (es.foldl (fun m e => m.insert e.1 (cString e.2)) m) := by
    induction es generalizing m with
    | nil => exact hm
    | cons e es ih =>
      apply ih
      · intro e' he'
        exact hes e' (List.mem_cons_of_mem _ he')
      · exact plainKeys_insert hm _ (hes e List.mem_cons_self)
  refine hes src.entries ?_ dst hdst
  intro e he
  exact hsrc e.1 (List.mem_map_of_mem he)

theorem plainKeys_ensureMemberProps {mp : Props} (h : PlainKeys mp) (eid : String) :
    PlainKeys (ensureMemberProps mp eid) := by
  unfold ensureMemberProps
  extract_lets plat mp₁ account mp₂
  have h₁ : PlainKeys mp₁ := by
    unfold mp₁
    split_ifs
    · exact plainKeys_insert h _ (by decide)
    · exact h
  have h₂ : PlainKeys mp₂ := plainKeys_insert h₁ _ (by decide)
  split_ifs
  · exact h₂
  · exact plainKeys_insert h₂ _ (by decide)

theorem reads_memberDataJson {mp : Props} (h : PlainKeys mp) (eid : String) (order : List String) :
    Read.Reads readFloat (d + 2) (memberDataJson eid mp order) (memberDataValue eid mp order) := by
  have hempty : PlainKeys OrdMap.empty := by simp [PlainKeys, OrdMap.keys]
  exact reads_propsJson (plainKeys_ensureMemberProps (plainKeys_applyProps hempty h) eid) order

theorem reads_memberFields {l : Lobby} {target : Option String} {localEntity : String}
    (h : ∀ eid mp, target.or (if localEntity.isEmpty then none else some localEntity) = some eid →
      l.memberProps.get? eid = some mp → PlainKeys mp) (order : List String) :
    Read.ReadsFields readFloat (d + 2) (memberFields l target localEntity order)
      (memberEntries l target localEntity order) := by
  unfold memberFields memberEntries memberPropsJsonFor
  simp only
  cases htarget : target.or (if localEntity.isEmpty then none else some localEntity) with
  | none => exact .nil
  | some eid =>
    cases hmp : l.memberProps.get? eid with
    | none => simpa [hmp] using Read.ReadsFields.nil
    | some mp =>
      have hplain : PlainKeys mp := h eid mp htarget hmp
      simp only [Option.bind_some, hmp, Option.map_some]
      split_ifs
      · exact .cons (by decide) (reads_memberDataJson hplain eid order)
          (.single (by decide) (reads_entityJson eid _))
      · exact .single (by decide) (reads_memberDataJson hplain eid order)

theorem reads_deleteFields (searchDelete lobbyDelete : List String) :
    Read.ReadsFields readFloat (d + 2) (deleteFields searchDelete lobbyDelete)
      (deleteEntries searchDelete lobbyDelete) := by
  unfold deleteFields deleteEntries
  apply Read.ReadsFields.append
  · split_ifs
    · exact .nil
    · exact .single (by decide) (reads_strList searchDelete)
  · split_ifs
    · exact .nil
    · exact .single (by decide) (reads_strList lobbyDelete)

theorem plain_accessPolicyName (a : ℕ) : Read.Plain (accessPolicyName a) := by
  unfold accessPolicyName
  split_ifs <;> decide

theorem reads_scalarFields (scalars : PostUpdateScalars) :
    Read.ReadsFields readFloat (d + 2) scalars.fields scalars.entries := by
  unfold PostUpdateScalars.fields PostUpdateScalars.entries
  refine ((Read.ReadsFields.append ?_ ?_).append ?_).append ?_
  · cases scalars.owner with
    | none => exact .nil
    | some o => exact .single (by decide) (reads_entityJson o.id o.type)
  · cases scalars.maxPlayers with
    | none => exact .nil
    | some m =>
      have hm : m.toNat < 2 ^ 64 := by have := m.toNat_lt; omega
      exact .single (by decide) (Read.reads_nat _ hm)
  · cases scalars.accessPolicy with
    | none => exact .nil
    | some a => exact .single (by decide) (reads_plain (plain_accessPolicyName a))
  · cases scalars.membershipLock with
    | none => exact .nil
    | some k =>
      have hk : Read.Plain (if k = 1 then "Locked" else "Unlocked") := by split_ifs <;> decide
      exact .single (by decide) (reads_plain hk)

theorem reads_memberDeleteFields (target : Option String) (keys : List String) :
    Read.ReadsFields readFloat (d + 2) (memberDeleteFields target keys)
      (memberDeleteEntries target keys) := by
  unfold memberDeleteFields memberDeleteEntries
  split_ifs
  · exact .single (by decide) (reads_strList keys)
  · exact .nil

/-- The broker reads a post with plain names as its fields. -/
theorem fromSlice_postBody {p : Post} (h : p.lobby.Plain) :
    Read.fromSlice readFloat p.body = some (.obj p.entries) := by
  apply Read.fromSlice_of_reads
  refine Read.ReadsFields.object (((Read.ReadsFields.append ?_ ?_).append ?_).append ?_ |>.append ?_)
  · exact .cons (by decide) (reads_plain h.id)
      (.cons (by decide) (reads_propsJson h.props _)
        (.single (by decide) (reads_propsJson h.search _)))
  · refine reads_memberFields (fun eid mp _ hmp => ?_) _
    exact h.memberProps mp (List.mem_map_of_mem ((OrdMap.mem_entries_iff _ eid mp).mpr hmp))
  · exact reads_deleteFields _ _
  · exact reads_scalarFields _
  · exact reads_memberDeleteFields _ _

/-- The broker reads a leave with a plain lobby id as its two ids. -/
theorem fromSlice_leaveBody {id eid : String} (h : Read.Plain id) (heid : eid ≠ "") :
    Read.fromSlice readFloat (leaveBody id eid) =
      some (.obj [("LobbyId", .string id), ("EntityId", .string eid)]) := by
  apply Read.fromSlice_of_reads
  unfold leaveBody
  rw [if_neg (by simpa using heid)]
  exact Read.ReadsFields.object
    (.cons (by decide) (reads_plain h) (.single (by decide) (reads_escaped eid)))

end

end GbfrLan.Playfab
