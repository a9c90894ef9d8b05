import Mathlib.Order.Basic
import Mathlib.Data.List.Sort
import Mathlib.Data.List.Perm.Subperm
import Mathlib.Tactic

/-!
# Finite maps as sorted entry lists

`Entries` are plain association lists with an ordered insertion. They are used
where a map occurs inside an inductive type. `OrdMap` bundles an entry list with
its strict ordering, so a map has one representation, a first and a last key,
and equality of maps is equality of lookups.
-/
namespace GbfrLan.Lib

universe u v w

/-- An association list. Lookups read the first entry of a key. -/
abbrev Entries (K : Type u) (V : Type v) := List (K × V)

namespace Entries

variable {K : Type u} {V : Type v} [LinearOrder K]

def get? (k : K) : Entries K V → Option V
  | [] => none
  | (k', v) :: rest => if k = k' then some v else get? k rest

/-- Ordered insertion; an existing entry of the key is overwritten. -/
def insert (k : K) (v : V) : Entries K V → Entries K V
  | [] => [(k, v)]
  | (k', v') :: rest =>
      if k < k' then (k, v) :: (k', v') :: rest
      else if k = k' then (k, v) :: rest
      else (k', v') :: insert k v rest

def erase (k : K) (m : Entries K V) : Entries K V := m.filter (fun e => decide (e.1 ≠ k))

def contains (k : K) (m : Entries K V) : Bool := (get? k m).isSome

@[simp] theorem get?_nil (k : K) : get? k ([] : Entries K V) = none := rfl

theorem get?_cons (k k' : K) (v : V) (m : Entries K V) :
    get? k ((k', v) :: m) = if k = k' then some v else get? k m := rfl

@[simp] theorem get?_insert (k k' : K) (v : V) (m : Entries K V) :
    get? k' (insert k v m) = if k' = k then some v else get? k' m := by
  induction m with
  | nil => simp [insert, get?]
  | cons e m ih =>
    obtain ⟨a, b⟩ := e
    simp only [insert]
    by_cases hlt : k < a
    · simp only [if_pos hlt, get?_cons]
    · by_cases heq : k = a
      · subst heq
        simp only [lt_irrefl, if_false, if_true, get?_cons]
        split_ifs <;> rfl
      · simp only [if_neg hlt, if_neg heq, get?_cons, ih]
        by_cases h1 : k' = a
        · subst h1
          simp [Ne.symm heq]
        · simp [h1]

@[simp] theorem get?_erase (k k' : K) (m : Entries K V) :
    get? k' (erase k m) = if k' = k then none else get? k' m := by
  induction m with
  | nil => simp [erase]
  | cons e m ih =>
    obtain ⟨a, b⟩ := e
    simp only [erase] at ih ⊢
    by_cases ha : a = k
    · subst ha
      simp only [List.filter_cons, ne_eq, not_true, decide_false, get?_cons]
      by_cases h : k' = a <;> simp_all
    · simp only [List.filter_cons, ne_eq, ha, not_false_eq_true, decide_true, if_true, get?_cons, ih]
      by_cases h : k' = a
      · subst h; simp [ha]
      · simp [h]

theorem get?_eq_some_mem {k : K} {v : V} {m : Entries K V} (h : get? k m = some v) :
    (k, v) ∈ m := by
  induction m with
  | nil => simp at h
  | cons e m ih =>
    obtain ⟨a, b⟩ := e
    rw [get?_cons] at h
    split_ifs at h with hk
    · subst hk; simp_all
    · exact List.mem_cons_of_mem _ (ih h)

theorem get?_eq_none_iff {k : K} {m : Entries K V} :
    get? k m = none ↔ ∀ e ∈ m, e.1 ≠ k := by
  induction m with
  | nil => simp
  | cons e m ih =>
    obtain ⟨a, b⟩ := e
    rw [get?_cons]
    by_cases h : k = a
    · subst h; simp
    · simp [h, ih, Ne.symm h]

theorem get?_append (k : K) (m n : Entries K V) :
    get? k (m ++ n) = (get? k m).or (get? k n) := by
  induction m with
  | nil => simp
  | cons e m ih =>
    obtain ⟨a, b⟩ := e
    rw [List.cons_append, get?_cons, get?_cons, ih]
    split_ifs <;> rfl

/-- The order of the entries is that of the keys, whatever the values are. -/
theorem insert_map {W : Type w} (f : V → W) (k : K) (v : V) (m : Entries K V) :
    insert k (f v) (m.map (Prod.map id f)) = (insert k v m).map (Prod.map id f) := by
  induction m with
  | nil => rfl
  | cons e m ih =>
    obtain ⟨k', v'⟩ := e
    simp only [List.map_cons, Prod.map_apply, id_eq, insert]
    split_ifs
    · rfl
    · rfl
    · rw [ih]
      rfl

theorem foldl_insert_map {W : Type w} (f : V → W) (es m : Entries K V) :
    (es.map (Prod.map id f)).foldl (fun m e => insert e.1 e.2 m) (m.map (Prod.map id f)) =
      (es.foldl (fun m e => insert e.1 e.2 m) m).map (Prod.map id f) := by
  induction es generalizing m with
  | nil => rfl
  | cons e es ih =>
    rw [List.map_cons, List.foldl_cons, List.foldl_cons, ← ih, ← insert_map]
    rfl

/-- A loop of insertions: the last entry of a key wins. -/
theorem get?_foldl_insert (k : K) (es m : Entries K V) :
    get? k (es.foldl (fun m e => insert e.1 e.2 m) m) = (get? k es.reverse).or (get? k m) := by
  induction es generalizing m with
  | nil => simp
  | cons e es ih =>
    obtain ⟨a, b⟩ := e
    rw [List.foldl_cons, ih, get?_insert, List.reverse_cons, get?_append, Option.or_assoc,
      get?_cons]
    split_ifs <;> rfl

theorem get?_foldl_erase (k : K) (ks : List K) (m : Entries K V) :
    get? k (ks.foldl (fun m k => erase k m) m) = if k ∈ ks then none else get? k m := by
  induction ks generalizing m with
  | nil => simp
  | cons a ks ih =>
    rw [List.foldl_cons, ih, get?_erase]
    by_cases h : k ∈ ks
    · simp [h]
    · by_cases ha : k = a <;> simp [h, ha]

/-- With one entry for each key, lookups are membership. -/
theorem get?_eq_some_iff {k : K} {v : V} {m : Entries K V} (h : (m.map Prod.fst).Nodup) :
    get? k m = some v ↔ (k, v) ∈ m := by
  refine ⟨get?_eq_some_mem, fun hm => ?_⟩
  induction m with
  | nil => cases hm
  | cons e m ih =>
    obtain ⟨a, b⟩ := e
    rw [List.map_cons, List.nodup_cons] at h
    rw [get?_cons]
    rcases List.mem_cons.mp hm with heq | hrest
    · cases heq
      simp
    · have hne : k ≠ a := by
        rintro rfl
        exact h.1 (List.mem_map.mpr ⟨(k, v), hrest, rfl⟩)
      rw [if_neg hne, ih h.2 hrest]

theorem get?_map {W : Type w} (k : K) (f : V → W) (m : Entries K V) :
    get? k (m.map fun e => (e.1, f e.2)) = (get? k m).map f := by
  induction m with
  | nil => rfl
  | cons e m ih =>
    obtain ⟨a, b⟩ := e
    rw [List.map_cons, get?_cons, get?_cons, ih]
    split_ifs <;> rfl

theorem get?_perm {m n : Entries K V} (h : (m.map Prod.fst).Nodup) (hp : m.Perm n) (k : K) :
    get? k m = get? k n := by
  have hn : (n.map Prod.fst).Nodup := (hp.map _).nodup_iff.mp h
  refine Option.ext fun v => ?_
  rw [get?_eq_some_iff h, get?_eq_some_iff hn, hp.mem_iff]

end Entries

/-- A finite map: entries in strictly increasing key order. -/
@[ext] structure OrdMap (K : Type u) (V : Type v) [LinearOrder K] where
  entries : Entries K V
  sorted : entries.Pairwise (fun a b => a.1 < b.1)

namespace OrdMap

variable {K : Type u} {V : Type v} {W : Type w} [LinearOrder K]

instance [DecidableEq V] : DecidableEq (OrdMap K V) := fun a b =>
  decidable_of_iff (a.entries = b.entries) ⟨OrdMap.ext, congrArg _⟩

def empty : OrdMap K V := ⟨[], List.Pairwise.nil⟩

def get? (m : OrdMap K V) (k : K) : Option V := Entries.get? k m.entries

def contains (m : OrdMap K V) (k : K) : Bool := (m.get? k).isSome

def size (m : OrdMap K V) : ℕ := m.entries.length

def keys (m : OrdMap K V) : List K := m.entries.map Prod.fst

def values (m : OrdMap K V) : List V := m.entries.map Prod.snd

/-- The entry of the smallest key. -/
def first? (m : OrdMap K V) : Option (K × V) := m.entries.head?

/-- The entry of the largest key. -/
def last? (m : OrdMap K V) : Option (K × V) := m.entries.getLast?

theorem mem_insert_entries {k : K} {v : V} {m : Entries K V} {e : K × V}
    (h : e ∈ Entries.insert k v m) : e = (k, v) ∨ e ∈ m := by
  induction m with
  | nil => simpa [Entries.insert] using h
  | cons a m ih =>
    obtain ⟨a, b⟩ := a
    simp only [Entries.insert] at h
    split_ifs at h
    · simpa using h
    · rcases List.mem_cons.mp h with h | h
      · exact Or.inl h
      · exact Or.inr (List.mem_cons_of_mem _ h)
    · rcases List.mem_cons.mp h with h | h
      · exact Or.inr (by simp [h])
      · exact (ih h).imp_right (List.mem_cons_of_mem _)

theorem sorted_insert (k : K) (v : V) (m : Entries K V)
    (h : m.Pairwise (fun a b => a.1 < b.1)) :
    (Entries.insert k v m).Pairwise (fun a b => a.1 < b.1) := by
  induction m with
  | nil => simp [Entries.insert]
  | cons a m ih =>
    obtain ⟨a, b⟩ := a
    obtain ⟨ha, hm⟩ := List.pairwise_cons.mp h
    simp only [Entries.insert]
    split_ifs with hlt heq
    · refine List.Pairwise.cons ?_ h
      intro e he
      rcases List.mem_cons.mp he with rfl | he
      · exact hlt
      · exact hlt.trans (ha e he)
    · subst heq
      exact List.Pairwise.cons ha hm
    · refine List.Pairwise.cons ?_ (ih hm)
      intro e he
      rcases mem_insert_entries he with rfl | he
      · exact lt_of_le_of_ne (not_lt.mp hlt) (Ne.symm heq)
      · exact ha e he

theorem sorted_foldl_insert (es m : Entries K V) (h : m.Pairwise (fun a b => a.1 < b.1)) :
    (es.foldl (fun m e => Entries.insert e.1 e.2 m) m).Pairwise (fun a b => a.1 < b.1) := by
  induction es generalizing m with
  | nil => exact h
  | cons e es ih => exact ih _ (sorted_insert e.1 e.2 m h)

def insert (m : OrdMap K V) (k : K) (v : V) : OrdMap K V :=
  ⟨Entries.insert k v m.entries, sorted_insert k v m.entries m.sorted⟩

def erase (m : OrdMap K V) (k : K) : OrdMap K V :=
  ⟨Entries.erase k m.entries, m.sorted.filter _⟩

/-- Keep the entries that satisfy the predicate. -/
def filter (m : OrdMap K V) (p : K → V → Bool) : OrdMap K V :=
  ⟨m.entries.filter (fun e => p e.1 e.2), m.sorted.filter _⟩

/-- Rewrite every value, keeping the keys. -/
def mapVals (m : OrdMap K V) (f : K → V → W) : OrdMap K W :=
  ⟨m.entries.map (fun e => (e.1, f e.1 e.2)), by
    rw [List.pairwise_map]; exact m.sorted⟩

/-- Drop entries from the front while the predicate holds. -/
def dropWhile (m : OrdMap K V) (p : K → V → Bool) : OrdMap K V :=
  ⟨m.entries.dropWhile (fun e => p e.1 e.2),
    m.sorted.sublist (List.dropWhile_sublist _)⟩

@[simp] theorem get?_empty (k : K) : (empty : OrdMap K V).get? k = none := rfl

@[simp] theorem size_empty : (empty : OrdMap K V).size = 0 := rfl

@[simp] theorem entries_empty : (empty : OrdMap K V).entries = [] := rfl

@[simp] theorem get?_insert (m : OrdMap K V) (k k' : K) (v : V) :
    (m.insert k v).get? k' = if k' = k then some v else m.get? k' :=
  Entries.get?_insert k k' v m.entries

@[simp] theorem get?_erase (m : OrdMap K V) (k k' : K) :
    (m.erase k).get? k' = if k' = k then none else m.get? k' :=
  Entries.get?_erase k k' m.entries

theorem get?_foldl_insert (es : Entries K V) (m : OrdMap K V) (k : K) :
    (es.foldl (fun m e => m.insert e.1 e.2) m).get? k = (Entries.get? k es.reverse).or (m.get? k) := by
  induction es generalizing m with
  | nil => rfl
  | cons e es ih =>
    rw [List.foldl_cons, ih, get?_insert, List.reverse_cons, Entries.get?_append, Option.or_assoc,
      Entries.get?_cons, Entries.get?_nil]
    split_ifs <;> rfl

theorem mem_entries_iff (m : OrdMap K V) (k : K) (v : V) :
    (k, v) ∈ m.entries ↔ m.get? k = some v := by
  refine ⟨fun h => ?_, Entries.get?_eq_some_mem⟩
  obtain ⟨entries, hs⟩ := m
  simp only [get?] at h ⊢
  induction entries with
  | nil => simp at h
  | cons a entries ih =>
    obtain ⟨a, b⟩ := a
    obtain ⟨ha, hs'⟩ := List.pairwise_cons.mp hs
    rcases List.mem_cons.mp h with h | h
    · simp only [Prod.mk.injEq] at h
      simp [Entries.get?, h.1, h.2]
    · have hak : a < k := ha (k, v) h
      simp only [Entries.get?, if_neg (ne_of_gt hak), ih hs' h]

theorem contains_iff (m : OrdMap K V) (k : K) :
    m.contains k = true ↔ ∃ v, m.get? k = some v := by
  simp [contains, Option.isSome_iff_exists]

theorem contains_insert_iff {m : OrdMap K V} {k k' : K} {v : V} :
    (m.insert k v).contains k' = true ↔ k' = k ∨ m.contains k' = true := by
  rw [contains, get?_insert]
  by_cases h : k' = k
  · simp [h]
  · simp [h, contains]

theorem contains_erase_iff {m : OrdMap K V} {k k' : K} :
    (m.erase k).contains k' = true ↔ k' ≠ k ∧ m.contains k' = true := by
  rw [contains, get?_erase]
  by_cases h : k' = k
  · simp [h]
  · simp [h, contains]

theorem mem_keys_iff {m : OrdMap K V} {k : K} : k ∈ m.keys ↔ m.contains k = true := by
  rw [contains_iff, keys, List.mem_map]
  constructor
  · rintro ⟨e, he, rfl⟩
    exact ⟨e.2, (m.mem_entries_iff e.1 e.2).mp he⟩
  · rintro ⟨v, hv⟩
    exact ⟨(k, v), (m.mem_entries_iff k v).mpr hv, rfl⟩

theorem keys_sorted (m : OrdMap K V) : m.keys.Pairwise (· < ·) := by
  unfold keys
  rw [List.pairwise_map]
  exact m.sorted

theorem keys_nodup (m : OrdMap K V) : m.keys.Nodup := m.keys_sorted.imp ne_of_lt

theorem entries_nodup (m : OrdMap K V) : m.entries.Nodup :=
  List.Nodup.of_map Prod.fst m.keys_nodup

theorem filter_key (m : OrdMap K V) (k : K) :
    m.entries.filter (fun e => decide (e.1 = k)) = ((m.get? k).map fun v => (k, v)).toList := by
  have hmem (e : K × V) : e ∈ m.entries.filter (fun e => decide (e.1 = k)) ↔
      m.get? k = some e.2 ∧ e.1 = k := by
    rw [List.mem_filter, ← Prod.mk.eta (p := e), mem_entries_iff, decide_eq_true_eq]
    constructor
    · rintro ⟨hget, rfl⟩
      exact ⟨hget, rfl⟩
    · rintro ⟨hget, rfl⟩
      exact ⟨hget, rfl⟩
  cases hget : m.get? k with
  | none =>
    rw [Option.map_none, Option.toList_none, List.eq_nil_iff_forall_not_mem]
    intro e he
    rw [hmem, hget] at he
    cases he.1
  | some v =>
    rw [Option.map_some, Option.toList_some, ← List.perm_singleton,
      List.perm_ext_iff_of_nodup (m.entries_nodup.filter _) (List.nodup_singleton _)]
    intro e
    rw [hmem, hget, List.mem_singleton, Prod.ext_iff, Option.some.injEq]
    exact ⟨fun h => ⟨h.2, h.1.symm⟩, fun h => ⟨h.2.symm, h.1⟩⟩

/-- Two maps with the same lookups are equal. -/
theorem ext_get? {m n : OrdMap K V} (h : ∀ k, m.get? k = n.get? k) : m = n := by
  have hmem : ∀ e, e ∈ m.entries ↔ e ∈ n.entries := by
    rintro ⟨k, v⟩
    rw [mem_entries_iff, mem_entries_iff, h]
  have hperm : m.entries.Perm n.entries :=
    (List.perm_ext_iff_of_nodup m.entries_nodup n.entries_nodup).mpr hmem
  have hasymm : ∀ a b : K × V, a ∈ m.entries → b ∈ n.entries →
      a.1 < b.1 → b.1 < a.1 → a = b :=
    fun _ _ _ _ hab hba => absurd hba (not_lt_of_gt hab)
  exact OrdMap.ext (hperm.eq_of_pairwise hasymm m.sorted n.sorted)

theorem insert_of_get? {m : OrdMap K V} {k : K} {v : V} (h : m.get? k = some v) :
    m.insert k v = m := by
  apply ext_get?
  intro k'
  rw [get?_insert]
  split_ifs with hk
  · rw [hk, h]
  · rfl

theorem insert_comm (m : OrdMap K V) {k k' : K} (v v' : V) (h : k ≠ k') :
    (m.insert k v).insert k' v' = (m.insert k' v').insert k v := by
  apply ext_get?
  intro j
  simp only [get?_insert]
  split_ifs with h₁ h₂
  · exact absurd (h₂.symm.trans h₁) h
  all_goals rfl

theorem insert_insert (m : OrdMap K V) (k : K) (v v' : V) :
    (m.insert k v).insert k v' = m.insert k v' := by
  apply ext_get?
  intro j
  simp only [get?_insert]
  split_ifs <;> rfl

theorem insert_perm {m : OrdMap K V} {k : K} (v : V) (h : m.get? k = none) :
    (m.insert k v).entries.Perm ((k, v) :: m.entries) := by
  have hnone := Entries.get?_eq_none_iff.mp h
  refine (List.perm_ext_iff_of_nodup (entries_nodup _) ?_).mpr ?_
  · exact List.nodup_cons.mpr ⟨fun hm => hnone _ hm rfl, m.entries_nodup⟩
  · rintro ⟨k', v'⟩
    rw [mem_entries_iff, get?_insert, List.mem_cons, mem_entries_iff]
    by_cases hk : k' = k
    · subst hk; simp [h, eq_comm]
    · simp [hk]

theorem erase_perm {m : OrdMap K V} {k : K} {v : V} (h : m.get? k = some v) :
    m.entries.Perm ((k, v) :: (m.erase k).entries) := by
  refine (List.perm_ext_iff_of_nodup m.entries_nodup ?_).mpr ?_
  · refine List.nodup_cons.mpr ⟨fun hm => ?_, entries_nodup _⟩
    rw [mem_entries_iff, get?_erase] at hm
    simp at hm
  · rintro ⟨k', v'⟩
    rw [List.mem_cons, mem_entries_iff, mem_entries_iff, get?_erase]
    by_cases hk : k' = k
    · subst hk; simp [h, eq_comm]
    · simp [hk]

theorem size_insert_of_none {m : OrdMap K V} {k : K} (v : V) (h : m.get? k = none) :
    (m.insert k v).size = m.size + 1 := by
  simpa [size] using (insert_perm v h).length_eq

theorem size_erase_of_some {m : OrdMap K V} {k : K} {v : V} (h : m.get? k = some v) :
    (m.erase k).size + 1 = m.size := by
  simpa [size] using (erase_perm h).length_eq.symm

/-- A new value for a key that is there. -/
theorem size_insert_of_some {m : OrdMap K V} {k : K} {v : V} (v' : V) (h : m.get? k = some v) :
    (m.insert k v').size = m.size := by
  have hagain : (m.erase k).insert k v' = m.insert k v' := by
    apply ext_get?
    intro k'
    simp only [get?_insert, get?_erase]
    split_ifs <;> rfl
  have hnone : (m.erase k).get? k = none := by
    rw [get?_erase, if_pos rfl]
  have herase := size_erase_of_some h
  rw [← hagain, size_insert_of_none v' hnone]
  omega

theorem size_erase_le (m : OrdMap K V) (k : K) : (m.erase k).size ≤ m.size :=
  List.length_filter_le _ _

theorem first?_eq_some {m : OrdMap K V} {k : K} {v : V} (h : m.first? = some (k, v)) :
    m.get? k = some v := by
  rw [← mem_entries_iff]
  exact List.mem_of_head? h

theorem exists_first? {m : OrdMap K V} (h : 0 < m.size) : ∃ e, m.first? = some e := by
  cases hfirst : m.first? with
  | some e => exact ⟨e, rfl⟩
  | none =>
    rw [size, List.head?_eq_none_iff.mp hfirst] at h
    cases h

theorem first?_le {m : OrdMap K V} {e : K × V} (h : m.first? = some e) {k : K}
    (hk : m.contains k = true) : e.1 ≤ k := by
  obtain ⟨v, hv⟩ := (contains_iff m k).mp hk
  rw [← mem_entries_iff] at hv
  obtain ⟨entries, hs⟩ := m
  cases entries with
  | nil => cases hv
  | cons a entries =>
    obtain rfl : a = e := by simpa [first?] using h
    rcases List.mem_cons.mp hv with rfl | hv
    · exact le_refl _
    · exact ((List.pairwise_cons.mp hs).1 _ hv).le

theorem last?_eq_some {m : OrdMap K V} {k : K} {v : V} (h : m.last? = some (k, v)) :
    m.get? k = some v := by
  rw [← mem_entries_iff]
  exact List.mem_of_getLast? h

theorem exists_last? {m : OrdMap K V} (h : 0 < m.size) : ∃ e, m.last? = some e := by
  cases hlast : m.last? with
  | some e => exact ⟨e, rfl⟩
  | none =>
    rw [size, List.getLast?_eq_none_iff.mp hlast] at h
    cases h

theorem le_last? {m : OrdMap K V} {e : K × V} (h : m.last? = some e) {k : K}
    (hk : m.contains k = true) : k ≤ e.1 := by
  obtain ⟨v, hv⟩ := (contains_iff m k).mp hk
  rw [← mem_entries_iff] at hv
  obtain ⟨front, hfront⟩ := List.getLast?_eq_some_iff.mp h
  have hs := m.sorted
  rw [hfront] at hv hs
  rcases List.mem_append.mp hv with hv | hv
  · exact ((List.pairwise_append.mp hs).2.2 _ hv _ (List.mem_singleton_self _)).le
  · rw [← List.mem_singleton.mp hv]

@[simp] theorem get?_mapVals (m : OrdMap K V) (f : K → V → W) (k : K) :
    (m.mapVals f).get? k = (m.get? k).map (f k) := by
  obtain ⟨entries, hs⟩ := m
  simp only [get?, mapVals]
  clear hs
  induction entries with
  | nil => rfl
  | cons e entries ih =>
    obtain ⟨a, b⟩ := e
    simp only [List.map_cons, Entries.get?_cons, ih]
    split_ifs with h
    · simp [h]
    · rfl

theorem get?_filter (m : OrdMap K V) (p : K → V → Bool) (k : K) :
    (m.filter p).get? k = (m.get? k).filter (p k) := by
  refine Option.ext (fun v => ?_)
  rw [← mem_entries_iff, Option.filter_eq_some_iff, ← mem_entries_iff]
  simp [filter]

theorem get?_dropWhile {m : OrdMap K V} {p : K → V → Bool} {k : K} {v : V}
    (h : (m.dropWhile p).get? k = some v) : m.get? k = some v := by
  rw [← mem_entries_iff] at h ⊢
  exact (List.dropWhile_sublist _).subset h

/-- An entry that fails the test is never dropped. -/
theorem get?_dropWhile_of_neg {m : OrdMap K V} {p : K → V → Bool} {k : K} {v : V}
    (h : m.get? k = some v) (hp : p k v = false) : (m.dropWhile p).get? k = some v := by
  rw [← mem_entries_iff] at h ⊢
  obtain ⟨entries, hs⟩ := m
  simp only [dropWhile] at h ⊢
  clear hs
  induction entries with
  | nil => cases h
  | cons e entries ih =>
    rw [List.dropWhile_cons]
    split_ifs with he
    · rcases List.mem_cons.mp h with rfl | h
      · rw [hp] at he
        cases he
      · exact ih h
    · exact h

/-- An entry behind one that fails the test is never dropped. -/
theorem get?_dropWhile_of_lt {m : OrdMap K V} {p : K → Bool} {k k' : K} (hk : m.contains k = true)
    (hk' : m.contains k' = true) (hlt : k < k') (hp : p k = false) :
    (m.dropWhile fun k _ => p k).contains k' = true := by
  obtain ⟨v, hv⟩ := (contains_iff m k).mp hk
  obtain ⟨v', hv'⟩ := (contains_iff m k').mp hk'
  rw [contains_iff]
  refine ⟨v', ?_⟩
  rw [← mem_entries_iff] at hv hv' ⊢
  obtain ⟨entries, hs⟩ := m
  simp only [dropWhile] at hv hv' ⊢
  induction entries with
  | nil => cases hv
  | cons e entries ih =>
    obtain ⟨he, hs'⟩ := List.pairwise_cons.mp hs
    rw [List.dropWhile_cons]
    split_ifs with hpe
    · have hin : (k, v) ∈ entries := by
        rcases List.mem_cons.mp hv with rfl | hv
        · rw [hp] at hpe
          cases hpe
        · exact hv
      rcases List.mem_cons.mp hv' with rfl | hv'
      · exact absurd hlt (he _ hin).not_gt
      · exact ih hs' ((contains_iff _ k).mpr ⟨v, (mem_entries_iff ⟨entries, hs'⟩ k v).mp hin⟩)
          ((contains_iff _ k').mpr ⟨v', (mem_entries_iff ⟨entries, hs'⟩ k' v').mp hv'⟩) hin hv'
    · exact hv'

/-- The first entry that is left fails the test. -/
theorem first?_dropWhile_not {m : OrdMap K V} {p : K → Bool} {e : K × V}
    (he : (m.dropWhile fun k _ => p k).first? = some e) : p e.1 = false := by
  have hnot := List.head?_dropWhile_not (fun e : K × V => p e.1) m.entries
  have hhead : (m.entries.dropWhile fun e : K × V => p e.1).head? = some e := he
  rw [hhead] at hnot
  simpa using hnot

/-- A test drops exactly the keys that pass it when every key in front of one that passes does. -/
theorem get?_dropWhile_iff {m : OrdMap K V} {p : K → Bool} :
    (∀ k, (m.dropWhile fun k _ => p k).get? k = if p k then none else m.get? k) ↔
      ∀ k k', m.contains k = true → m.contains k' = true → k < k' → p k' = true → p k = true := by
  constructor
  · intro h k k' hk hk' hlt hp'
    by_contra hp
    have hkept := get?_dropWhile_of_lt hk hk' hlt (by simpa using hp)
    rw [contains, h, if_pos hp'] at hkept
    cases hkept
  · intro h k
    split_ifs with hp
    · by_contra hne
      obtain ⟨v, hv⟩ := Option.ne_none_iff_exists'.mp hne
      have hin := (contains_iff m k).mpr ⟨v, get?_dropWhile hv⟩
      cases hfirst : (m.dropWhile fun k _ => p k).first? with
      | none =>
        rw [← mem_entries_iff, List.head?_eq_none_iff.mp hfirst] at hv
        cases hv
      | some e =>
        have hle := first?_le hfirst ((contains_iff _ k).mpr ⟨v, hv⟩)
        have hfail := first?_dropWhile_not hfirst
        have hine : m.contains e.1 = true :=
          (contains_iff m e.1).mpr ⟨e.2, get?_dropWhile (first?_eq_some hfirst)⟩
        rcases hle.lt_or_eq with hlt | heq
        · rw [h e.1 k hine hin hlt hp] at hfail
          cases hfail
        · rw [heq, hp] at hfail
          cases hfail
    · cases hk : m.get? k with
      | none =>
        by_contra hne
        obtain ⟨v, hv⟩ := Option.ne_none_iff_exists'.mp hne
        rw [get?_dropWhile hv] at hk
        cases hk
      | some v => exact get?_dropWhile_of_neg (p := fun k _ => p k) hk (by simpa using hp)

/-- What is left starts with the first entry that is left. -/
theorem contains_dropWhile_iff {m : OrdMap K V} {p : K → Bool} {e : K × V}
    (he : (m.dropWhile fun k _ => p k).first? = some e) (k : K) :
    (m.dropWhile fun k _ => p k).contains k = true ↔ m.contains k = true ∧ e.1 ≤ k := by
  have hget := first?_eq_some (k := e.1) (v := e.2) he
  have hkept : (m.dropWhile fun k _ => p k).contains e.1 = true := (contains_iff _ _).mpr ⟨e.2, hget⟩
  have hin : m.contains e.1 = true := (contains_iff _ _).mpr ⟨e.2, get?_dropWhile hget⟩
  constructor
  · intro hk
    obtain ⟨v, hv⟩ := (contains_iff _ _).mp hk
    exact ⟨(contains_iff _ _).mpr ⟨v, get?_dropWhile hv⟩, first?_le he hk⟩
  · intro ⟨hk, hle⟩
    rcases hle.eq_or_lt with heq | hlt
    · rw [← heq]
      exact hkept
    · exact get?_dropWhile_of_lt hin hk hlt (first?_dropWhile_not he)

/-- The values in an iteration order of a hash map: the named keys first, then the rest. -/
def iter (m : OrdMap K V) (order : List K) : List V :=
  (order.dedup.filter m.contains ++ m.keys.filter fun k => decide (k ∉ order)).filterMap m.get?

theorem mem_iter {m : OrdMap K V} {order : List K} {v : V} (h : v ∈ m.iter order) :
    ∃ k, m.get? k = some v := by
  obtain ⟨k, -, hk⟩ := List.mem_filterMap.mp h
  exact ⟨k, hk⟩

/-- The entries in an iteration order of a hash map. -/
def iterEntries (m : OrdMap K V) (order : List K) : Entries K V :=
  (order.dedup.filter m.contains ++ m.keys.filter fun k => decide (k ∉ order)).filterMap
    fun k => (m.get? k).map fun v => (k, v)

theorem mem_iterEntries {m : OrdMap K V} {order : List K} {k : K} {v : V} :
    (k, v) ∈ m.iterEntries order ↔ m.get? k = some v := by
  unfold iterEntries
  rw [List.mem_filterMap]
  constructor
  · rintro ⟨k', -, hk'⟩
    obtain ⟨v', hv', heq⟩ := Option.map_eq_some_iff.mp hk'
    cases heq
    exact hv'
  · intro hk
    refine ⟨k, ?_, by simp [hk]⟩
    rw [List.mem_append, List.mem_filter, List.mem_filter]
    by_cases ho : k ∈ order
    · left
      exact ⟨List.mem_dedup.mpr ho, by simp [contains, hk]⟩
    · right
      have hmem : (k, v) ∈ m.entries := (mem_entries_iff m k v).mpr hk
      exact ⟨List.mem_map_of_mem hmem, by simpa using ho⟩

theorem iter_eq_map (m : OrdMap K V) (order : List K) :
    m.iter order = (m.iterEntries order).map Prod.snd := by
  unfold iter iterEntries
  rw [List.map_filterMap]
  refine List.filterMap_congr fun k _ => ?_
  simp [Function.comp_def]

/-- An iteration visits every value. -/
theorem mem_iter_iff {m : OrdMap K V} {order : List K} {v : V} :
    v ∈ m.iter order ↔ ∃ k, m.get? k = some v := by
  rw [iter_eq_map, List.mem_map]
  constructor
  · rintro ⟨⟨k, v⟩, hmem, rfl⟩
    exact ⟨k, mem_iterEntries.mp hmem⟩
  · rintro ⟨k, hk⟩
    exact ⟨(k, v), mem_iterEntries.mpr hk, rfl⟩

theorem keys_iterEntries_nodup (m : OrdMap K V) (order : List K) :
    ((m.iterEntries order).map Prod.fst).Nodup := by
  unfold iterEntries
  rw [List.map_filterMap]
  refine List.Nodup.filterMap ?_ ?_
  · intro a a' b hb hb'
    simp only [Option.mem_def, Option.map_map, Option.map_eq_some_iff, Function.comp] at hb hb'
    obtain ⟨_, -, rfl⟩ := hb
    obtain ⟨_, -, rfl⟩ := hb'
    rfl
  · refine List.Nodup.append ((List.nodup_dedup _).filter _) (m.keys_nodup.filter _) ?_
    intro k hk hk'
    have ho : k ∈ order := List.mem_dedup.mp (List.mem_of_mem_filter hk)
    simpa [ho] using (List.mem_filter.mp hk').2

theorem get?_iterEntries (m : OrdMap K V) (order : List K) (k : K) :
    Entries.get? k (m.iterEntries order) = m.get? k := by
  refine Option.ext fun v => ?_
  rw [Entries.get?_eq_some_iff (m.keys_iterEntries_nodup order), mem_iterEntries]

end OrdMap

end GbfrLan.Lib
