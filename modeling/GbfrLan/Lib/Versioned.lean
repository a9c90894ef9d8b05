import Mathlib.Tactic

/-!
# A slot under version numbers

A slot holds a value with the version it was put with. Puts and deletes carry a
version and are ignored when the slot holds a newer value. An empty slot has no
version, so a put that arrives after a newer delete fills it again: the final
content depends on the order of arrival, and `foldl_eq_sorted_iff` says when it
does not.
-/
namespace GbfrLan.Lib

universe u

variable {α : Type u}

/-- The content of a slot: a value and its version. -/
abbrev Slot (α : Type u) := Option (α × ℕ)

inductive Edit (α : Type u) where
  | put (version : ℕ) (a : α)
  | delete (version : ℕ)
  deriving DecidableEq, Repr

namespace Edit

def version : Edit α → ℕ
  | .put v _ => v
  | .delete v => v

def apply (s : Slot α) : Edit α → Slot α
  | .put v a =>
      match s with
      | none => some (a, v)
      | some (b, w) => if v < w then some (b, w) else some (a, v)
  | .delete v =>
      match s with
      | none => none
      | some (b, w) => if v < w then some (b, w) else none

/-- Some delete among these edits removes a value of this version. -/
def Covers (v : ℕ) (es : List (Edit α)) : Prop := ∃ w, .delete w ∈ es ∧ v ≤ w

/-- Every put is followed by a delete of its version or a newer one. -/
def AllCovered : List (Edit α) → Prop
  | [] => True
  | .put v _ :: es => Covers v es ∧ AllCovered es
  | .delete _ :: es => AllCovered es

theorem covers_cons_put (v w : ℕ) (a : α) (es : List (Edit α)) :
    Covers v (.put w a :: es) ↔ Covers v es := by
  simp [Covers]

theorem covers_cons_delete (v w : ℕ) (es : List (Edit α)) :
    Covers v (.delete w :: es) ↔ v ≤ w ∨ Covers v es := by
  constructor
  · rintro ⟨x, hx, hle⟩
    cases List.mem_cons.mp hx with
    | inl heq =>
      cases heq
      exact .inl hle
    | inr hmem => exact .inr ⟨x, hmem, hle⟩
  · rintro (hle | ⟨x, hx, hle⟩)
    · exact ⟨w, List.mem_cons_self .., hle⟩
    · exact ⟨x, List.mem_cons_of_mem _ hx, hle⟩

theorem Covers.mono {v w : ℕ} {es : List (Edit α)} (h : Covers w es) (hle : v ≤ w) :
    Covers v es := by
  obtain ⟨x, hx, hwx⟩ := h
  exact ⟨x, hx, hle.trans hwx⟩

/-- The slot ends empty exactly when the value it started with and every put are
followed by a delete that is not older. -/
theorem foldl_eq_none_iff (es : List (Edit α)) (s : Slot α) :
    es.foldl apply s = none ↔ (∀ x ∈ s, Covers x.2 es) ∧ AllCovered es := by
  induction es generalizing s with
  | nil => cases s <;> simp [AllCovered, Covers]
  | cons e es ih =>
    rw [List.foldl_cons, ih]
    cases e with
    | put v a =>
      cases s with
      | none => simp [apply, AllCovered]
      | some x =>
        obtain ⟨b, w⟩ := x
        simp only [apply, AllCovered, covers_cons_put]
        split_ifs with hlt
        · simp only [Option.mem_def, Option.some.injEq, forall_eq']
          constructor
          · rintro ⟨hw, hall⟩
            exact ⟨hw, hw.mono (by omega), hall⟩
          · rintro ⟨hw, -, hall⟩
            exact ⟨hw, hall⟩
        · simp only [Option.mem_def, Option.some.injEq, forall_eq']
          constructor
          · rintro ⟨hv, hall⟩
            exact ⟨hv.mono (by omega), hv, hall⟩
          · rintro ⟨-, hv, hall⟩
            exact ⟨hv, hall⟩
    | delete v =>
      cases s with
      | none => simp [apply, AllCovered]
      | some x =>
        obtain ⟨b, w⟩ := x
        simp only [apply, AllCovered, covers_cons_delete]
        split_ifs with hlt
        · simp only [Option.mem_def, Option.some.injEq, forall_eq']
          have hnot : ¬ w ≤ v := by omega
          simp [hnot]
        · have hle : w ≤ v := by omega
          simp [hle]

/-- A value newer than every edit stays. -/
theorem foldl_of_newer {es : List (Edit α)} {a : α} {v : ℕ}
    (h : ∀ e ∈ es, e = .put v a ∨ e.version < v) :
    es.foldl apply (some (a, v)) = some (a, v) := by
  induction es with
  | nil => rfl
  | cons e es ih =>
    have hkeep : apply (some (a, v)) e = some (a, v) := by
      cases h e (List.mem_cons_self ..) with
      | inl heq => simp [heq, apply]
      | inr hlt =>
        cases e with
        | put w b => simp only [version] at hlt; simp [apply, hlt]
        | delete w => simp only [version] at hlt; simp [apply, hlt]
    rw [List.foldl_cons, hkeep]
    exact ih fun e' he' => h e' (List.mem_cons_of_mem _ he')

/-- A put newer than every other edit and than the slot decides the result. -/
theorem foldl_of_newest_put {es : List (Edit α)} {a : α} {v : ℕ} {s : Slot α}
    (hmem : .put v a ∈ es) (h : ∀ e ∈ es, e = .put v a ∨ e.version < v)
    (hs : ∀ x ∈ s, x.2 ≤ v) : es.foldl apply s = some (a, v) := by
  induction es generalizing s with
  | nil => cases hmem
  | cons e es ih =>
    have hrest : ∀ e' ∈ es, e' = .put v a ∨ e'.version < v :=
      fun e' he' => h e' (List.mem_cons_of_mem _ he')
    rw [List.foldl_cons]
    by_cases heq : e = .put v a
    · have happ : apply s e = some (a, v) := by
        subst heq
        cases s with
        | none => rfl
        | some x =>
          obtain ⟨b, w⟩ := x
          have hle : w ≤ v := hs (b, w) rfl
          simp only [apply]
          rw [if_neg (by omega)]
      rw [happ]
      exact foldl_of_newer hrest
    · have hlt : e.version < v := (h e (List.mem_cons_self ..)).resolve_left heq
      have hmem' : .put v a ∈ es := (List.mem_cons.mp hmem).resolve_left (Ne.symm heq)
      apply ih hmem' hrest
      intro x hx
      cases e with
      | put w b =>
        simp only [version] at hlt
        cases s with
        | none =>
          cases hx
          exact hlt.le
        | some y =>
          have hy : y.2 ≤ v := hs y rfl
          simp only [apply] at hx
          split_ifs at hx
          · cases hx
            exact hy
          · cases hx
            exact hlt.le
      | delete w =>
        cases s with
        | none => cases hx
        | some y =>
          have hy : y.2 ≤ v := hs y rfl
          simp only [apply] at hx
          split_ifs at hx
          · cases hx
            exact hy
          · cases hx

/-- The newest value is a put, or the one the slot starts with. -/
def NewestIsPut (s : Slot α) (es : List (Edit α)) : Prop :=
  (∃ x ∈ s, ∀ e ∈ es, e.version < x.2) ∨
    ∃ v a, .put v a ∈ es ∧ (∀ e ∈ es, e.version ≤ v) ∧ ∀ x ∈ s, x.2 ≤ v

/-- The order of arrival does not matter. -/
def OrderSafe (s : Slot α) (es : List (Edit α)) : Prop :=
  NewestIsPut s es ∨ ((∀ x ∈ s, Covers x.2 es) ∧ AllCovered es)

/-- A delete at the end that is newer than everything else covers it all. -/
theorem allCovered_concat (es : List (Edit α)) (v : ℕ) (h : ∀ e ∈ es, e.version < v) :
    AllCovered (es ++ [.delete v]) := by
  induction es with
  | nil => trivial
  | cons e es ih =>
    have hrest := ih fun e' he' => h e' (List.mem_cons_of_mem _ he')
    have hlt := h e (List.mem_cons_self ..)
    cases e with
    | put w b =>
      simp only [version] at hlt
      exact ⟨⟨v, by simp, hlt.le⟩, hrest⟩
    | delete w => exact hrest

/-- Edits with different versions leave the slot as they do in the order of their
versions exactly when the order is safe. -/
theorem foldl_eq_sorted_iff {es ss : List (Edit α)} (s : Slot α) (hperm : es.Perm ss)
    (hsorted : ss.Pairwise fun a b => a.version < b.version) :
    es.foldl apply s = ss.foldl apply s ↔ OrderSafe s es := by
  cases hss : ss using List.reverseRecOn with
  | nil =>
    rw [hss, List.perm_nil] at hperm
    subst hperm
    simp only [List.foldl_nil, true_iff]
    cases s with
    | none => exact .inr ⟨by simp, trivial⟩
    | some x => exact .inl (.inl ⟨x, rfl, by simp⟩)
  | append_singleton init last =>
    rw [hss] at hperm hsorted
    have hbelow : ∀ e ∈ init, e.version < last.version := by
      intro e he
      exact (List.pairwise_append.mp hsorted).2.2 e he last (List.mem_singleton.mpr rfl)
    have hsplit : ∀ e ∈ es, e = last ∨ e.version < last.version := by
      intro e he
      cases List.mem_append.mp (hperm.mem_iff.mp he) with
      | inl hinit => exact .inr (hbelow e hinit)
      | inr hlast => exact .inl (List.mem_singleton.mp hlast)
    have hsplit' : ∀ e ∈ init ++ [last], e = last ∨ e.version < last.version :=
      fun e he => hsplit e (hperm.mem_iff.mpr he)
    have hlast : last ∈ es := hperm.mem_iff.mpr (by simp)
    by_cases hnew : ∃ x ∈ s, last.version < x.2
    · -- The slot starts with the newest value, which stays in either order.
      obtain ⟨x, hx, hlt⟩ := hnew
      obtain ⟨b, w⟩ := x
      cases hx
      have hall : ∀ e ∈ es, e.version < w := by
        intro e he
        cases hsplit e he with
        | inl heq => exact heq ▸ hlt
        | inr hle => exact hle.trans hlt
      rw [foldl_of_newer fun e he => .inr (hall e he),
        foldl_of_newer fun e he => .inr (hall e (hperm.mem_iff.mpr he))]
      simp only [true_iff]
      exact .inl (.inl ⟨(b, w), rfl, hall⟩)
    · have hs : ∀ x ∈ s, x.2 ≤ last.version := by
        intro x hx
        by_contra hlt
        exact hnew ⟨x, hx, by omega⟩
      cases last with
      | put v a =>
        rw [foldl_of_newest_put hlast hsplit hs,
          foldl_of_newest_put (by simp) hsplit' hs]
        simp only [true_iff]
        refine .inl (.inr ⟨v, a, hlast, ?_, hs⟩)
        intro e he
        cases hsplit e he with
        | inl heq =>
          rw [heq]
          exact le_refl _
        | inr hlt => exact hlt.le
      | delete v =>
        have hnone : (init ++ [Edit.delete v]).foldl apply s = none := by
          rw [foldl_eq_none_iff]
          refine ⟨?_, allCovered_concat init v hbelow⟩
          intro x hx
          exact ⟨v, by simp, hs x hx⟩
        rw [hnone, foldl_eq_none_iff]
        constructor
        · exact Or.inr
        · intro hsafe
          cases hsafe with
          | inr hcov => exact hcov
          | inl hput =>
            exfalso
            cases hput with
            | inl hx =>
              obtain ⟨x, hx, hall⟩ := hx
              have h1 := hall _ hlast
              have h2 := hs x hx
              omega
            | inr hp =>
              obtain ⟨w, a, hmem, hall, -⟩ := hp
              have h1 : v ≤ w := hall _ hlast
              cases hsplit _ hmem with
              | inl heq => cases heq
              | inr hlt =>
                have h2 : w < v := hlt
                omega

end Edit

end GbfrLan.Lib
