import Mathlib.Order.Compare
import Mathlib.Tactic

/-!
# Comparisons that a sort can use

A sort by a comparison is meaningful when the comparison is a total preorder on the elements that
are sorted. `PreorderOn` says so, with a rule for each way in which comparisons are composed:
lexicographically, by a key, reversed, and with missing keys last.
-/
namespace GbfrLan.Lib

universe u v

variable {α : Type u} {β : Type v}

/-- A total preorder on a set: turned arguments turn the result, and "not greater" is transitive. -/
structure PreorderOn (S : Set α) (cmp : α → α → Ordering) : Prop where
  swap : ∀ a ∈ S, ∀ b ∈ S, cmp b a = (cmp a b).swap
  trans : ∀ a ∈ S, ∀ b ∈ S, ∀ c ∈ S, cmp a b ≠ .gt → cmp b c ≠ .gt → cmp a c ≠ .gt

namespace PreorderOn

variable {S : Set α} {cmp cmp' : α → α → Ordering} {a b c : α}

theorem refl (h : PreorderOn S cmp) (ha : a ∈ S) : cmp a a = .eq := by
  have hswap := h.swap a ha a ha
  cases hcmp : cmp a a with
  | eq => rfl
  | lt => rw [hcmp] at hswap; cases hswap
  | gt => rw [hcmp] at hswap; cases hswap

/-- What is equivalent to the left of two is as the left one. -/
theorem eq_left (h : PreorderOn S cmp) (ha : a ∈ S) (hb : b ∈ S) (hc : c ∈ S)
    (hab : cmp a b = .eq) : cmp a c = cmp b c := by
  have hba : cmp b a = .eq := by rw [h.swap a ha b hb, hab]; rfl
  have hge (x y z : α) (hx : x ∈ S) (hy : y ∈ S) (hz : z ∈ S) (hxy : cmp x y = .eq)
      (hyx : cmp y x = .eq) (hlt : cmp x z = .lt) : cmp y z = .lt := by
    have hzx : cmp z x = .gt := by rw [h.swap x hx z hz, hlt]; rfl
    cases hyz : cmp y z with
    | lt => rfl
    | eq =>
      have hzy : cmp z y ≠ .gt := by rw [h.swap y hy z hz, hyz]; decide
      exact absurd hzx (h.trans z hz y hy x hx hzy (by rw [hyx]; decide))
    | gt =>
      have hle := h.trans y hy x hx z hz (by rw [hyx]; decide) (by rw [hlt]; decide)
      exact absurd hyz hle
  cases hac : cmp a c with
  | lt => exact (hge a b c ha hb hc hab hba hac).symm
  | gt =>
    cases hbc : cmp b c with
    | gt => rfl
    | lt => exact absurd (hge b a c hb ha hc hba hab hbc) (by rw [hac]; decide)
    | eq => exact absurd hac (h.trans a ha b hb c hc (by rw [hab]; decide) (by rw [hbc]; decide))
  | eq =>
    cases hbc : cmp b c with
    | eq => rfl
    | lt => exact absurd (hge b a c hb ha hc hba hab hbc) (by rw [hac]; decide)
    | gt => exact absurd hbc (h.trans b hb a ha c hc (by rw [hba]; decide) (by rw [hac]; decide))

theorem eq_trans (h : PreorderOn S cmp) (ha : a ∈ S) (hb : b ∈ S) (hc : c ∈ S)
    (hab : cmp a b = .eq) (hbc : cmp b c = .eq) : cmp a c = .eq := by
  rw [h.eq_left ha hb hc hab, hbc]

theorem lt_of_lt_of_not_gt (h : PreorderOn S cmp) (ha : a ∈ S) (hb : b ∈ S) (hc : c ∈ S)
    (hab : cmp a b = .lt) (hbc : cmp b c ≠ .gt) : cmp a c = .lt := by
  cases hac : cmp a c with
  | lt => rfl
  | gt => exact absurd hac (h.trans a ha b hb c hc (by rw [hab]; decide) hbc)
  | eq =>
    have hcb : cmp c b = .lt := by rw [← h.eq_left ha hc hb hac, hab]
    rw [h.swap c hc b hb, hcb] at hbc
    exact absurd rfl hbc

theorem mono (h : PreorderOn S cmp) {T : Set α} (hT : T ⊆ S) : PreorderOn T cmp where
  swap a ha b hb := h.swap a (hT ha) b (hT hb)
  trans a ha b hb c hc := h.trans a (hT ha) b (hT hb) c (hT hc)

/-- The second comparison decides what the first one leaves open. -/
theorem andThen (h : PreorderOn S cmp) (h' : PreorderOn S cmp') :
    PreorderOn S fun a b => (cmp a b).then (cmp' a b) where
  swap a ha b hb := by rw [h.swap a ha b hb, h'.swap a ha b hb, Ordering.swap_then]
  trans a ha b hb c hc hab hbc := by
    cases hcmp : cmp a b with
    | lt =>
      have hle : cmp b c ≠ .gt := by
        intro hgt
        rw [hgt] at hbc
        exact hbc rfl
      rw [h.lt_of_lt_of_not_gt ha hb hc hcmp hle]
      exact (by decide : Ordering.lt ≠ .gt)
    | gt =>
      rw [hcmp] at hab
      exact absurd rfl hab
    | eq =>
      rw [h.eq_left ha hb hc hcmp]
      rw [hcmp] at hab
      cases hcmp' : cmp b c with
      | lt => exact (by decide : Ordering.lt ≠ .gt)
      | gt =>
        rw [hcmp'] at hbc
        exact absurd rfl hbc
      | eq =>
        rw [hcmp'] at hbc
        exact h'.trans a ha b hb c hc hab hbc

theorem reverse (h : PreorderOn S cmp) : PreorderOn S fun a b => (cmp a b).swap where
  swap a ha b hb := by rw [h.swap a ha b hb]
  trans a ha b hb c hc hab hbc := by
    rw [← h.swap a ha b hb] at hab
    rw [← h.swap b hb c hc] at hbc
    rw [← h.swap a ha c hc]
    exact h.trans c hc b hb a ha hbc hab

/-- With its arguments the other way. -/
theorem flip (h : PreorderOn S cmp) : PreorderOn S fun a b => cmp b a where
  swap a ha b hb := h.swap b hb a ha
  trans a ha b hb c hc hab hbc := h.trans c hc b hb a ha hbc hab

/-- By a key. -/
theorem comap {T : Set β} {cmp : β → β → Ordering} (h : PreorderOn T cmp) (f : α → β)
    (hf : ∀ a ∈ S, f a ∈ T) : PreorderOn S fun a b => cmp (f a) (f b) where
  swap a ha b hb := h.swap (f a) (hf a ha) (f b) (hf b hb)
  trans a ha b hb c hc := h.trans (f a) (hf a ha) (f b) (hf b hb) (f c) (hf c hc)

theorem const (S : Set α) : PreorderOn S fun _ _ => .eq where
  swap _ _ _ _ := rfl
  trans _ _ _ _ _ _ h _ := h

theorem ofLinear [LinearOrder α] (S : Set α) : PreorderOn S (compare : α → α → Ordering) where
  swap a _ b _ := Std.OrientedOrd.eq_swap
  trans a _ b _ c _ hab hbc := by
    rw [ne_eq, compare_gt_iff_gt, not_lt] at *
    exact hab.trans hbc

end PreorderOn

/-- A missing key comes behind every other one. -/
def missingLast (cmp : α → α → Ordering) : Option α → Option α → Ordering
  | none, none => .eq
  | none, some _ => .gt
  | some _, none => .lt
  | some a, some b => cmp a b

theorem PreorderOn.missingLast {S : Set α} {cmp : α → α → Ordering} (h : PreorderOn S cmp) :
    PreorderOn {o : Option α | ∀ a ∈ o, a ∈ S} (Lib.missingLast cmp) where
  swap a ha b hb := by
    cases a with
    | none => cases b <;> rfl
    | some a =>
      cases b with
      | none => rfl
      | some b => exact h.swap a (ha a rfl) b (hb b rfl)
  trans a ha b hb c hc hab hbc := by
    cases c with
    | none => cases a <;> simp [Lib.missingLast]
    | some c =>
      cases b with
      | none => exact absurd rfl hbc
      | some b =>
        cases a with
        | none => exact absurd rfl hab
        | some a => exact h.trans a (ha a rfl) b (hb b rfl) c (hc c rfl) hab hbc

/-- `sort_by`: a stable sort. -/
def sortBy (cmp : α → α → Ordering) (xs : List α) : List α :=
  xs.mergeSort fun a b => cmp a b != .gt

theorem sortBy_perm (cmp : α → α → Ordering) (xs : List α) : (sortBy cmp xs).Perm xs :=
  List.mergeSort_perm ..

/-- A comparison that is a total preorder on the elements puts them in its order. -/
theorem sortBy_sorted {cmp : α → α → Ordering} {xs : List α} (h : PreorderOn {a | a ∈ xs} cmp) :
    (sortBy cmp xs).Pairwise fun a b => cmp a b ≠ .gt := by
  set le : {a // a ∈ xs} → {a // a ∈ xs} → Bool := fun a b => cmp a.1 b.1 != .gt with hle
  have hsorted : (xs.attach.mergeSort le).Pairwise fun a b => le a b = true := by
    refine List.pairwise_mergeSort (fun a b c hab hbc => ?_) (fun a b => ?_) _
    · simp only [hle, bne_iff_ne] at *
      exact h.trans a.1 a.2 b.1 b.2 c.1 c.2 hab hbc
    · simp only [hle, Bool.or_eq_true, bne_iff_ne]
      rw [h.swap a.1 a.2 b.1 b.2]
      cases cmp a.1 b.1 <;> decide
  have hmap : (xs.attach.mergeSort le).map Subtype.val = sortBy cmp xs := by
    have hval := List.map_mergeSort (r := le) (s := fun a b => cmp a b != .gt) (f := Subtype.val)
      (l := xs.attach) fun a _ b _ => rfl
    rw [hval, List.attach_map_subtype_val]
    rfl
  rw [← hmap, List.pairwise_map]
  exact hsorted.imp fun hab => by simpa [hle] using hab

/-- What a cut leaves out of a sorted list does not come before what it keeps. -/
theorem not_lt_of_notMem_take {cmp : α → α → Ordering} {xs : List α} {n : ℕ} {a b : α}
    (h : PreorderOn {a | a ∈ xs} cmp) (ha : a ∈ xs) (hcut : a ∉ (sortBy cmp xs).take n)
    (hb : b ∈ (sortBy cmp xs).take n) : cmp a b ≠ .lt := by
  have hbx : b ∈ xs := (sortBy_perm cmp xs).mem_iff.mp (List.mem_of_mem_take hb)
  have hsplit : a ∈ (sortBy cmp xs).take n ++ (sortBy cmp xs).drop n := by
    rw [List.take_append_drop]
    exact (sortBy_perm cmp xs).mem_iff.mpr ha
  have hdrop : a ∈ (sortBy cmp xs).drop n := (List.mem_append.mp hsplit).resolve_left hcut
  have hsorted := sortBy_sorted h
  rw [← List.take_append_drop n (sortBy cmp xs), List.pairwise_append] at hsorted
  intro hlt
  refine hsorted.2.2 b hb a hdrop ?_
  rw [h.swap a ha b hbx, hlt]
  rfl

end GbfrLan.Lib
