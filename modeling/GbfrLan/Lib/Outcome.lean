import Mathlib.Tactic

/-!
# Functions that may panic or not end

`Outcome` is what a function returns that may panic too, or whose loops carry a count of their
turns and may use it up. `Agrees` compares it with the same function where neither can happen: the
results are related, and a panic or a loop without an end agrees with nothing.
-/
namespace GbfrLan.Lib

/-- What a function returns: a result, `None`, a panic, or no end of a loop. -/
inductive Outcome (α : Type) where
  | ok (a : α)
  | none
  | panic
  | stuck
  deriving DecidableEq, Repr

namespace Outcome

def bind {α β : Type} (r : Outcome α) (f : α → Outcome β) : Outcome β :=
  match r with
  | .ok a => f a
  | .none => .none
  | .panic => .panic
  | .stuck => .stuck

instance : Monad Outcome where
  pure := .ok
  bind := .bind

/-- `None` is one result among others. -/
def option {α : Type} (r : Outcome α) : Outcome (Option α) :=
  match r with
  | .ok a => .ok (some a)
  | .none => .ok Option.none
  | .panic => .panic
  | .stuck => .stuck

/-- It comes to an end without a panic. -/
def Safe {α : Type} (r : Outcome α) : Prop := r ≠ .panic ∧ r ≠ .stuck

def ofOption {α : Type} : Option α → Outcome α
  | some a => .ok a
  | Option.none => .none

section

variable {α β α' β' : Type}

@[simp] theorem ok_bind (a : α) (f : α → Outcome β) : (Outcome.ok a >>= f) = f a := rfl

@[simp] theorem none_bind (f : α → Outcome β) : (Outcome.none >>= f) = .none := rfl

@[simp] theorem option_ok (a : α) : (Outcome.ok a).option = .ok (some a) := rfl

@[simp] theorem option_none : (Outcome.none : Outcome α).option = .ok Option.none := rfl

theorem safe_ok (a : α) : (Outcome.ok a).Safe := ⟨nofun, nofun⟩

/-- A computation in two parts has a result when both have one. -/
theorem exists_bind_eq_ok_iff {r : Outcome α} {f : α → Outcome β} :
    (∃ b, (r >>= f) = .ok b) ↔ ∃ a, r = .ok a ∧ ∃ b, f a = .ok b := by
  constructor
  · intro h
    cases r with
    | ok a => exact ⟨a, rfl, h⟩
    | none => exact absurd h nofun
    | panic => exact absurd h nofun
    | stuck => exact absurd h nofun
  · rintro ⟨a, rfl, h⟩
    exact h

/-- Both have a result and these are related, or neither has one. -/
inductive Agrees (R : α → β → Prop) : Outcome α → Option β → Prop where
  | ok {a : α} {a' : β} (h : R a a') : Agrees R (.ok a) (some a')
  | none : Agrees R .none Option.none

variable {R : α → β → Prop} {r : Outcome α} {r' : Option β}

theorem Agrees.safe (h : Agrees R r r') : r.Safe := by
  cases h with
  | ok _ => exact safe_ok _
  | none => exact ⟨nofun, nofun⟩

theorem Agrees.elim (h : Agrees R r r') :
    r = .none ∧ r' = Option.none ∨ ∃ a a', r = .ok a ∧ r' = some a' ∧ R a a' := by
  cases h with
  | ok h => exact .inr ⟨_, _, rfl, rfl, h⟩
  | none => exact .inl ⟨rfl, rfl⟩

theorem Agrees.bind {S : α' → β' → Prop} {f : α → Outcome α'} {f' : β → Option β'}
    (h : Agrees R r r') (hf : ∀ a a', r' = some a' → R a a' → Agrees S (f a) (f' a')) :
    Agrees S (r >>= f) (r'.bind f') := by
  cases h with
  | ok h => exact hf _ _ rfl h
  | none => exact .none

theorem Agrees.eq {a' : Option α} (h : Agrees (· = ·) r a') : r = ofOption a' := by
  cases h with
  | ok h => exact congrArg Outcome.ok h
  | none => rfl

end

end Outcome

end GbfrLan.Lib
