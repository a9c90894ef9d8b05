import Mathlib.Tactic

/-!
# Writes that carry a whole copy

A writer keeps a copy of a bag that is stored elsewhere. A write is an update of some keys,
applied to the copy at once, and sent with everything that the copy had before. Sent writes
are served in order, and the copy may be replaced in between. `Tracks` says when no key that
was ever written can be lost: the writes on their way end with the last word on every key, and
the copy has no other value for such a key.
-/
namespace GbfrLan.Lib

universe u v

variable {K : Type u} {V : Type v}

abbrev Bag (K : Type u) (V : Type v) := K → Option V

/-- For each key nothing, or the value that it is to have; no value deletes it. -/
abbrev Update (K : Type u) (V : Type v) := K → Option (Option V)

namespace Update

def override (u : Update K V) (b : Bag K V) : Bag K V := fun k => (u k).getD (b k)

/-- What serving the update does when it carries this copy. -/
def through (u : Update K V) (copy : Bag K V) (b : Bag K V) : Bag K V :=
  u.override fun k => (copy k).or (b k)

/-- What the last update that names the key says about it. -/
def lastWord (us : List (Update K V)) : Update K V := fun k => us.reverse.findSome? fun u => u k

@[simp] theorem lastWord_nil (k : K) : lastWord ([] : List (Update K V)) k = none := rfl

theorem lastWord_concat (us : List (Update K V)) (u : Update K V) (k : K) :
    lastWord (us ++ [u]) k = (u k).or (lastWord us k) := by
  unfold lastWord
  rw [List.reverse_append, List.reverse_singleton, List.singleton_append, List.findSome?_cons]
  cases u k <;> rfl

end Update

/-- The bag when everything that was sent has been served. -/
def served (sent : List (Bag K V → Bag K V)) (b : Bag K V) : Bag K V :=
  sent.foldl (fun b f => f b) b

@[simp] theorem served_nil (b : Bag K V) : served [] b = b := rfl

theorem served_concat (f : Bag K V → Bag K V) (sent : List (Bag K V → Bag K V)) (b : Bag K V) :
    served (sent ++ [f]) b = f (served sent b) := List.foldl_concat ..

open Update in
structure Tracks (us : List (Update K V)) (copy : Bag K V) (sent : List (Bag K V → Bag K V))
    (b : Bag K V) : Prop where
  final : ∀ k o, lastWord us k = some o → served sent b k = o
  copy : ∀ k v o, copy k = some v → lastWord us k = some o → o = some v

namespace Tracks

open Update

variable {us : List (Update K V)} {copy copy' : Bag K V} {sent : List (Bag K V → Bag K V)}
  {b b' : Bag K V}

theorem start (copy b : Bag K V) : Tracks [] copy [] b where
  final _ _ h := by cases h
  copy _ _ _ _ h := by cases h

/-- A write goes over the copy and is sent. -/
theorem write (h : Tracks us copy sent b) (u : Update K V) :
    Tracks (us ++ [u]) (u.override copy) (sent ++ [u.through copy]) b where
  final k o ho := by
    rw [lastWord_concat] at ho
    rw [served_concat]
    show (u k).getD ((copy k).or (served sent b k)) = o
    cases hu : u k with
    | some w =>
      rw [hu] at ho
      exact Option.some.inj ho
    | none =>
      rw [hu, Option.none_or] at ho
      cases hc : copy k with
      | some v => exact (h.copy k v o hc ho).symm
      | none => exact h.final k o ho
  copy k v o hv ho := by
    rw [lastWord_concat] at ho
    unfold override at hv
    cases hu : u k with
    | some w =>
      rw [hu] at hv ho
      exact (Option.some.inj ho).symm.trans hv
    | none =>
      rw [hu] at hv ho
      exact h.copy k v o hv ho

/-- The write that was sent first is served. -/
theorem serve {f : Bag K V → Bag K V} (h : Tracks us copy (f :: sent) b) :
    Tracks us copy sent (f b) where
  final := h.final
  copy := h.copy

/-- With nothing on its way the copy may be replaced by one that is read from the bag. -/
theorem refresh (h : Tracks us copy [] b)
    (hread : ∀ k v o, copy' k = some v → lastWord us k = some o → b k = o → o = some v) :
    Tracks us copy' [] b where
  final := h.final
  copy k v o hv ho := hread k v o hv ho (h.final k o ho)

end Tracks

end GbfrLan.Lib
