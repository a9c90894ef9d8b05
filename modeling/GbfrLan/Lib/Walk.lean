import Mathlib.Tactic

/-!
# Walks with a cursor

A loop over the indices below a bound that moves a cursor of its own, such as a pointer into a
table. A turn of the loop breaks it, returns a result, goes on, or runs into a fault, behind which
there is nothing. A walk is in step when the turns leave the cursor where the next index has it;
then its result is told by the turns at the cursors of the indices alone.
-/
namespace GbfrLan.Lib

/-- What a turn comes to. -/
inductive Turn (σ α : Type) where
  | fault
  | stop
  | found (a : α)
  /-- The loop goes on with this cursor. -/
  | next (s : σ)

namespace Turn

variable {σ α β : Type}

theorem stop_ne_fault : (.stop : Turn σ α) ≠ .fault := nofun

theorem found_ne_fault (a : α) : (.found a : Turn σ α) ≠ .fault := nofun

theorem next_ne_fault (s : σ) : (.next s : Turn σ α) ≠ .fault := nofun

/-- A turn that goes on with what was read, and faults when it cannot be read. -/
def reading (r : Option β) (f : β → Turn σ α) : Turn σ α :=
  match r with
  | none => .fault
  | some b => f b

@[simp] theorem reading_some (b : β) (f : β → Turn σ α) : reading (some b) f = f b := rfl

/-- Behind a read that did not fault. -/
theorem exists_of_reading {r : Option β} {f : β → Turn σ α} {t : Turn σ α} (ht : t ≠ .fault)
    (h : reading r f = t) : ∃ b, r = some b ∧ f b = t := by
  cases r with
  | none => exact absurd h.symm ht
  | some b => exact ⟨b, rfl, h⟩

theorem reading_ne_fault {r : Option β} {f : β → Turn σ α} (hr : r.isSome)
    (hf : ∀ b, r = some b → f b ≠ .fault) : reading r f ≠ .fault := by
  obtain ⟨b, hb⟩ := Option.isSome_iff_exists.mp hr
  rw [hb]
  exact hf b hb

end Turn

section

variable {σ α : Type} (turn : ℕ → σ → Turn σ α) (cursor : ℕ → σ)

/-- The turns that are left, from an index and a cursor on: `none` after a fault, and `some none`
when the loop ends without a result. -/
def walk : ℕ → ℕ → σ → Option (Option α)
  | 0, _, _ => some none
  | left + 1, i, s =>
      match turn i s with
      | .fault => none
      | .stop => some none
      | .found a => some (some a)
      | .next s' => walk left (i + 1) s'

/-- The loop moves the cursor with the index. -/
def InStep : Prop := ∀ i s, turn i (cursor i) = .next s → s = cursor (i + 1)

/-- The turn at the cursor of an index goes on. -/
def Passes (i : ℕ) : Prop := turn i (cursor i) = .next (cursor (i + 1))

/-- How a walk ends after so many turns that go on. -/
inductive EndsAfter (bound i m : ℕ) : Option α → Prop where
  | all (h : m = bound) : EndsAfter bound i m none
  | stop (hlt : m < bound) (h : turn (i + m) (cursor (i + m)) = .stop) : EndsAfter bound i m none
  | found (a : α) (hlt : m < bound) (h : turn (i + m) (cursor (i + m)) = .found a) :
      EndsAfter bound i m (some a)

variable {turn cursor}

/-- A walk in step without a fault: turns that go on, and then one that does not, or no more. -/
theorem walk_spec (hstep : InStep turn cursor) {left i : ℕ} {r : Option α}
    (h : walk turn left i (cursor i) = some r) :
    ∃ m, (∀ k, i ≤ k → k < i + m → Passes turn cursor k) ∧ EndsAfter turn cursor left i m r := by
  induction left generalizing i with
  | zero =>
    obtain rfl := Option.some.inj h
    exact ⟨0, fun k _ _ => by omega, .all rfl⟩
  | succ left ih =>
    rw [walk] at h
    cases hturn : turn i (cursor i) with
    | fault => rw [hturn] at h; cases h
    | stop =>
      rw [hturn] at h
      obtain rfl := Option.some.inj h
      exact ⟨0, fun k _ _ => by omega, .stop (Nat.succ_pos _) hturn⟩
    | found a =>
      rw [hturn] at h
      obtain rfl := Option.some.inj h
      exact ⟨0, fun k _ _ => by omega, .found a (Nat.succ_pos _) hturn⟩
    | next s =>
      rw [hturn] at h
      obtain rfl := hstep i s hturn
      obtain ⟨m, hpass, hend⟩ := ih h
      have hshift : i + 1 + m = i + (m + 1) := by omega
      refine ⟨m + 1, fun k hlow hhigh => ?_, ?_⟩
      · rcases hlow.eq_or_lt with rfl | hlt
        · exact hturn
        · exact hpass k hlt (by omega)
      · cases hend with
        | all hm => exact .all (by omega)
        | stop hlt hstop => exact .stop (Nat.succ_lt_succ hlt) (hshift ▸ hstop)
        | found a hlt hfound => exact .found a (Nat.succ_lt_succ hlt) (hshift ▸ hfound)

/-- Where no turn that is left faults, the walk does not. -/
theorem walk_isSome_of_lt (hstep : InStep turn cursor) {left i : ℕ}
    (hno : ∀ k, i ≤ k → k < i + left → turn k (cursor k) ≠ .fault) :
    (walk turn left i (cursor i)).isSome := by
  induction left generalizing i with
  | zero => rfl
  | succ left ih =>
    rw [walk]
    cases hturn : turn i (cursor i) with
    | fault => exact absurd hturn (hno i le_rfl (by omega))
    | stop => rfl
    | found a => rfl
    | next s =>
      obtain rfl := hstep i s hturn
      exact ih fun k hlow hhigh => hno k (by omega) (by omega)

theorem walk_isSome (hstep : InStep turn cursor) (hno : ∀ i, turn i (cursor i) ≠ .fault)
    (left i : ℕ) : (walk turn left i (cursor i)).isSome :=
  walk_isSome_of_lt hstep fun k _ _ => hno k

end

end GbfrLan.Lib
