import Mathlib.Tactic

/-!
# The first place of a pattern

`position` is the index of the first place where a pattern stands in a list. In a list that grows
at its end the place does not move once it is there, and it is there as soon as the pattern is
complete.
-/
namespace GbfrLan.Lib

universe u

variable {α : Type u}

/-- A pattern stands in a front part exactly when it stands in the whole and ends in that part. -/
theorem prefix_drop_iff {pat front whole : List α} (h : front <+: whole) {j : ℕ}
    (hj : j ≤ front.length) :
    pat <+: front.drop j ↔ pat <+: whole.drop j ∧ j + pat.length ≤ front.length := by
  obtain ⟨rest, rfl⟩ := h
  have hdrop : (front ++ rest).drop j = front.drop j ++ rest := List.drop_append_of_le_length hj
  rw [hdrop]
  constructor
  · intro hpat
    refine ⟨hpat.trans (List.prefix_append _ _), ?_⟩
    have hlength := hpat.length_le
    rw [List.length_drop] at hlength
    omega
  · rintro ⟨hpat, hlength⟩
    refine List.prefix_of_prefix_length_le hpat (List.prefix_append _ _) ?_
    rw [List.length_drop]
    omega

variable [DecidableEq α]

/-- The index of the first place where the pattern stands. -/
def position (pat : List α) : List α → Option ℕ
  | [] => if pat = [] then some 0 else none
  | x :: xs => if pat <+: x :: xs then some 0 else (position pat xs).map (· + 1)

theorem position_eq_some_iff {pat xs : List α} {i : ℕ} :
    position pat xs = some i ↔ i ≤ xs.length ∧ pat <+: xs.drop i ∧ ∀ j < i, ¬pat <+: xs.drop j := by
  induction xs generalizing i with
  | nil =>
    unfold position
    split_ifs with hnil
    · cases i <;> simp [hnil]
    · cases i <;> simp [hnil]
  | cons x xs ih =>
    unfold position
    split_ifs with hpre
    · constructor
      · intro h
        cases h
        exact ⟨Nat.zero_le _, hpre, fun j hj => absurd hj (Nat.not_lt_zero j)⟩
      · rintro ⟨-, -, hfirst⟩
        cases i with
        | zero => rfl
        | succ i => exact absurd hpre (hfirst 0 (Nat.succ_pos i))
    · cases i with
      | zero => simp [hpre]
      | succ i =>
        rw [Option.map_eq_some_iff]
        constructor
        · rintro ⟨i', hi', heq⟩
          obtain rfl : i' = i := by omega
          obtain ⟨hle, hat, hfirst⟩ := ih.mp hi'
          refine ⟨by simpa using hle, hat, fun j hj => ?_⟩
          cases j with
          | zero => exact hpre
          | succ j => exact hfirst j (by omega)
        · rintro ⟨hle, hat, hfirst⟩
          refine ⟨i, ih.mpr ⟨by simpa using hle, hat, fun j hj => ?_⟩, rfl⟩
          exact hfirst (j + 1) (by omega)

theorem position_eq_none_iff {pat xs : List α} :
    position pat xs = none ↔ ∀ i ≤ xs.length, ¬pat <+: xs.drop i := by
  induction xs with
  | nil =>
    unfold position
    split_ifs with hnil
    · simp [hnil]
    · simp [hnil]
  | cons x xs ih =>
    unfold position
    split_ifs with hpre
    · simp only [false_iff]
      exact fun h => h 0 (Nat.zero_le _) hpre
    · rw [Option.map_eq_none_iff, ih]
      constructor
      · intro h i hi
        cases i with
        | zero => exact hpre
        | succ i => exact h i (by simpa using hi)
      · intro h i hi
        exact h (i + 1) (by simpa using hi)

/-- The first place in a front part, by the first place in the whole. -/
theorem position_of_prefix {pat front whole : List α} (hfront : front <+: whole) {i : ℕ}
    (h : position pat whole = some i) :
    position pat front = if i + pat.length ≤ front.length then some i else none := by
  obtain ⟨-, hat, hfirst⟩ := position_eq_some_iff.mp h
  split_ifs with hlength
  · refine position_eq_some_iff.mpr ⟨by omega, ?_, fun j hj hpat => ?_⟩
    · exact (prefix_drop_iff hfront (by omega)).mpr ⟨hat, hlength⟩
    · exact hfirst j hj ((prefix_drop_iff hfront (by omega)).mp hpat).1
  · refine position_eq_none_iff.mpr fun j hj hpat => ?_
    obtain ⟨hwhole, hle⟩ := (prefix_drop_iff hfront hj).mp hpat
    by_cases hlt : j < i
    · exact hfirst j hlt hwhole
    · omega

/-- Nothing in front of the first character of a pattern is a place of it. -/
theorem position_append_of_not_mem {p : α} {pat xs : List α} (h : p ∉ xs) (ys : List α) :
    position (p :: pat) (xs ++ ys) = (position (p :: pat) ys).map (· + xs.length) := by
  induction xs with
  | nil => simp
  | cons x xs ih =>
    have hx : ¬(p :: pat) <+: x :: (xs ++ ys) := by
      intro hpre
      rw [List.cons_prefix_cons] at hpre
      exact h (hpre.1 ▸ List.mem_cons_self)
    rw [List.cons_append, position, if_neg hx, ih fun hmem => h (List.mem_cons_of_mem _ hmem),
      Option.map_map]
    congr 1

end GbfrLan.Lib
