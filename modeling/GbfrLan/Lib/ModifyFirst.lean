import Mathlib.Tactic

/-!
# Changing the first match in a list

The loop `iter_mut().find(..)` of the sources: the first element that passes a test is
changed in place.
-/
namespace GbfrLan.Lib

universe u v

variable {α : Type u}

def modifyFirst (p : α → Bool) (f : α → α) : List α → List α
  | [] => []
  | x :: xs => if p x then f x :: xs else x :: modifyFirst p f xs

theorem length_modifyFirst (p : α → Bool) (f : α → α) (xs : List α) :
    (modifyFirst p f xs).length = xs.length := by
  induction xs with
  | nil => rfl
  | cons x xs ih =>
    unfold modifyFirst
    split_ifs
    · rfl
    · rw [List.length_cons, ih, List.length_cons]

theorem mem_modifyFirst {p : α → Bool} {f : α → α} {xs : List α} {y : α}
    (h : y ∈ modifyFirst p f xs) : y ∈ xs ∨ ∃ x ∈ xs, p x = true ∧ y = f x := by
  induction xs with
  | nil => cases h
  | cons x xs ih =>
    unfold modifyFirst at h
    split_ifs at h with hx
    · cases List.mem_cons.mp h with
      | inl heq => exact .inr ⟨x, List.mem_cons_self .., hx, heq⟩
      | inr hmem => exact .inl (List.mem_cons_of_mem _ hmem)
    · cases List.mem_cons.mp h with
      | inl heq => exact .inl (heq ▸ List.mem_cons_self ..)
      | inr hmem =>
        cases ih hmem with
        | inl hold => exact .inl (List.mem_cons_of_mem _ hold)
        | inr hnew =>
          obtain ⟨z, hz, hp, heq⟩ := hnew
          exact .inr ⟨z, List.mem_cons_of_mem _ hz, hp, heq⟩

theorem map_modifyFirst {β : Type v} {p : α → Bool} {f : α → α} {g : α → β} {xs : List α}
    (hf : ∀ x ∈ xs, g (f x) = g x) : (modifyFirst p f xs).map g = xs.map g := by
  induction xs with
  | nil => rfl
  | cons x xs ih =>
    unfold modifyFirst
    split_ifs
    · rw [List.map_cons, List.map_cons, hf x (List.mem_cons_self ..)]
    · rw [List.map_cons, List.map_cons, ih fun y hy => hf y (List.mem_cons_of_mem _ hy)]

/-- Every place keeps its element, or holds the changed one if that passes the test. -/
theorem getElem?_modifyFirst {p : α → Bool} {f : α → α} {xs : List α} {i : ℕ} {x : α}
    (h : xs[i]? = some x) :
    ∃ y, (modifyFirst p f xs)[i]? = some y ∧ (y = x ∨ p x = true ∧ y = f x) := by
  induction xs generalizing i with
  | nil => simp at h
  | cons z xs ih =>
    unfold modifyFirst
    cases i with
    | zero =>
      obtain rfl : z = x := by simpa using h
      split_ifs with hz
      · exact ⟨f z, rfl, .inr ⟨hz, rfl⟩⟩
      · exact ⟨z, rfl, .inl rfl⟩
    | succ i =>
      rw [List.getElem?_cons_succ] at h
      split_ifs
      · exact ⟨x, h, .inl rfl⟩
      · exact ih h

/-- The element that was changed is the one that is found again. -/
theorem find?_modifyFirst {p : α → Bool} {f : α → α} (hf : ∀ x, p x = true → p (f x) = true)
    (xs : List α) : (modifyFirst p f xs).find? p = (xs.find? p).map f := by
  induction xs with
  | nil => rfl
  | cons x xs ih =>
    unfold modifyFirst
    by_cases hx : p x = true
    · rw [if_pos hx, List.find?_cons_of_pos (hf x hx), List.find?_cons_of_pos hx, Option.map_some]
    · rw [if_neg hx, List.find?_cons_of_neg hx, List.find?_cons_of_neg hx, ih]

end GbfrLan.Lib
