import GbfrLan.Lib.Run

/-!
# The connections of a listener

A connection holds a slot from its acceptance to its end. An acceptance counts first and looks at the
count afterwards, and connections may end in between.
-/
namespace GbfrLan.Broker
open Lib

/-- A word that is counted up and down. -/
@[irreducible] def usize : ℕ := 2 ^ 64

structure Conns where
  live : ℕ
  /-- What the acceptances in progress have read, oldest first. -/
  counting : List ℕ
  /-- The guards that are held. -/
  held : ℕ
  refused : ℕ

def Conns.new : Conns := ⟨0, [], 0, 0⟩

inductive ConnEvent where
  /-- The first half of `ConnGuard::acquire`: the count. -/
  | count
  /-- The second half of the acceptance at this place. -/
  | settle (i : ℕ)
  /-- A guard is dropped. -/
  | drop
  deriving DecidableEq

namespace Conns

def countOne (s : Conns) : Conns :=
  { s with live := (s.live + 1) % usize, counting := s.counting ++ [s.live + 1] }

/-- `fetch_sub`. -/
def uncount (s : Conns) : Conns := { s with live := (usize - 1 + s.live) % usize }

@[simp] theorem uncount_counting (s : Conns) : s.uncount.counting = s.counting := rfl

@[simp] theorem uncount_held (s : Conns) : s.uncount.held = s.held := rfl

@[simp] theorem uncount_refused (s : Conns) : s.uncount.refused = s.refused := rfl

def settle (cap : ℕ) (s : Conns) (i : ℕ) : Conns :=
  match s.counting[i]? with
  | some n =>
      let s := { s with counting := s.counting.eraseIdx i }
      if cap < n then { s.uncount with refused := s.refused + 1 } else { s with held := s.held + 1 }
  | none => s

theorem settle_of_get {cap : ℕ} {s : Conns} {i n : ℕ} (h : s.counting[i]? = some n) :
    (settle cap s i).counting = s.counting.eraseIdx i ∧
      (settle cap s i).refused = s.refused + (if cap < n then 1 else 0) ∧
      (settle cap s i).held = s.held + (if cap < n then 0 else 1) := by
  simp only [settle, h]
  split_ifs <;> exact ⟨rfl, rfl, rfl⟩

/-- Only a guard that is held can be dropped. -/
def drop (s : Conns) : Conns := if s.held = 0 then s else { s.uncount with held := s.held - 1 }

def step (cap : ℕ) (s : Conns) : ConnEvent → Conns
  | .count => s.countOne
  | .settle i => settle cap s i
  | .drop => s.drop

/-- At most `t` acceptances are in progress at once. -/
def Accepts (t : ℕ) (s : Conns) (e : ConnEvent) : Prop := e = .count → s.counting.length < t

/-- How the counter, the guards and the acceptances in progress belong together. -/
structure Ok (cap t : ℕ) (s : Conns) : Prop where
  live : s.live = s.held + s.counting.length
  few : s.counting.length ≤ t
  /-- The acceptances that will hold a guard have room. -/
  room : s.held + s.counting.countP (fun n => decide (n ≤ cap)) ≤ cap

section
variable {cap t : ℕ} {s : Conns}

theorem Ok.held_le (h : Ok cap t s) : s.held ≤ cap := by
  have := h.room
  omega

theorem uncount_live (hpos : 0 < s.live) (hlt : s.live < usize) : s.uncount.live = s.live - 1 := by
  have hdown : usize - 1 + s.live = s.live - 1 + usize := by omega
  have hlive : s.uncount.live = (usize - 1 + s.live) % usize := rfl
  rw [hlive, hdown, Nat.add_mod_right, Nat.mod_eq_of_lt (by omega)]

theorem Ok.live_lt (h : Ok cap t s) (hsize : cap + t < usize) : s.live < usize := by
  have hheld := h.held_le
  have hfew := h.few
  rw [h.live]
  omega

theorem Ok.countOne (h : Ok cap t s) (hsize : cap + t < usize) (hone : s.counting.length < t) :
    Ok cap t s.countOne := by
  have hheld := h.held_le
  have hroom := h.room
  have hlive := h.live
  refine ⟨?_, ?_, ?_⟩
  · simp only [Conns.countOne, List.length_append, List.length_singleton]
    rw [Nat.mod_eq_of_lt (by omega)]
    omega
  · simp only [Conns.countOne, List.length_append, List.length_singleton]
    omega
  · simp only [Conns.countOne, List.countP_append, List.countP_singleton, decide_eq_true_eq]
    split_ifs with hgood
    · -- the count covers the guards and all the acceptances in progress
      have hle := s.counting.countP_le_length (p := fun n => decide (n ≤ cap))
      omega
    · exact hroom

theorem countP_eraseIdx {l : List ℕ} {i n : ℕ} (p : ℕ → Bool) (h : l[i]? = some n) :
    (l.eraseIdx i).countP p + (if p n then 1 else 0) = l.countP p := by
  induction l generalizing i with
  | nil => simp at h
  | cons a l ih =>
    cases i with
    | zero =>
      obtain rfl : a = n := by simpa using h
      rw [List.eraseIdx_cons_zero, List.countP_cons]
    | succ i =>
      have hrest := ih (by simpa using h)
      rw [List.eraseIdx_cons_succ, List.countP_cons, List.countP_cons]
      omega

theorem Ok.settle (h : Ok cap t s) (hsize : cap + t < usize) (i : ℕ) : Ok cap t (settle cap s i) := by
  unfold Conns.settle
  cases hn : s.counting[i]? with
  | none => exact h
  | some n =>
    obtain ⟨hi, -⟩ := List.getElem?_eq_some_iff.mp hn
    have hlength : (s.counting.eraseIdx i).length + 1 = s.counting.length := by
      rw [List.length_eraseIdx, if_pos hi]
      omega
    have hcount := countP_eraseIdx (fun n => decide (n ≤ cap)) hn
    have hlive := h.live
    have hfew := h.few
    have hroom := h.room
    have hlt := h.live_lt hsize
    simp only [decide_eq_true_eq] at hcount
    simp only
    split_ifs with hfull
    · rw [if_neg (not_le.mpr hfull)] at hcount
      have hdown := @uncount_live { s with counting := s.counting.eraseIdx i } (by simp only; omega) hlt
      refine ⟨?_, ?_, ?_⟩
      · simp only [hdown, uncount_held, uncount_counting]
        omega
      · simp only [uncount_counting]
        omega
      · simp only [uncount_held, uncount_counting]
        omega
    · rw [if_pos (not_lt.mp hfull)] at hcount
      refine ⟨?_, ?_, ?_⟩ <;> simp only <;> omega

theorem Ok.drop (h : Ok cap t s) (hsize : cap + t < usize) : Ok cap t s.drop := by
  have hlive := h.live
  have hroom := h.room
  unfold Conns.drop
  split_ifs with hzero
  · exact h
  · have hdown := uncount_live (by omega) (h.live_lt hsize)
    refine ⟨?_, ?_, ?_⟩
    · simp only [hdown, uncount_counting]
      omega
    · simp only [uncount_counting]
      exact h.few
    · simp only [uncount_counting]
      omega

theorem Ok.step (h : Ok cap t s) (hsize : cap + t < usize) {e : ConnEvent} (he : Accepts t s e) :
    Ok cap t (step cap s e) := by
  cases e with
  | count => exact h.countOne hsize (he rfl)
  | settle i => exact h.settle hsize i
  | drop => exact h.drop hsize

theorem along_of_ne {es : List ConnEvent} (h : ∀ e ∈ es, e ≠ .count) :
    Along (step cap) (Accepts t) s es := by
  induction es generalizing s with
  | nil => trivial
  | cons e es ih =>
    obtain ⟨he, hrest⟩ := List.forall_mem_cons.mp h
    exact ⟨fun heq => absurd heq he, ih hrest⟩

theorem ok_run {es : List ConnEvent} (hsize : cap + t < usize)
    (hes : Along (step cap) (Accepts t) new es) : Ok cap t (run (step cap) new es) := by
  refine run_invariant (fun s e hs he => hs.step hsize he) ?_ hes
  exact ⟨rfl, Nat.zero_le _, Nat.zero_le _⟩

/-- What an acceptance does that counts in this state, when only other connections end before it looks at
its count. -/
theorem settle_drops (h : Ok cap t s) (hidle : s.counting = []) (k : ℕ) :
    let s' := run (step cap) s (.count :: List.replicate k .drop)
    s'.counting = [s.held + 1] ∧ s'.held = s.held - k ∧ s'.refused = s.refused := by
  have hlive : s.live = s.held := by
    rw [h.live, hidle]
    rfl
  intro s'
  induction k with
  | zero =>
    refine ⟨?_, rfl, rfl⟩
    change s.counting ++ [s.live + 1] = _
    rw [hidle, hlive]
    rfl
  | succ k ih =>
    have hsplit : s' = (run (step cap) s (.count :: List.replicate k .drop)).drop := by
      change run (step cap) s (.count :: List.replicate (k + 1) .drop) = _
      rw [List.replicate_succ', ← List.cons_append, run_append]
      rfl
    obtain ⟨hcounting, hheld, hrefused⟩ := ih
    rw [hsplit]
    unfold Conns.drop
    split_ifs with hzero
    · exact ⟨hcounting, by omega, hrefused⟩
    · simp only [uncount_counting, uncount_refused]
      exact ⟨hcounting, by omega, hrefused⟩

end

/-- However many threads accept at once and however their halves and the ends of connections interleave:
never more guards are held than the cap, and the counter is back at the number of the guards whenever no
acceptance is in progress. -/
theorem conns_bounded (cap t : ℕ) (es : List ConnEvent) (hsize : cap + t < usize)
    (hes : Along (step cap) (Accepts t) new es) :
    let s := run (step cap) new es
    s.held ≤ cap ∧ s.live = s.held + s.counting.length :=
  ⟨(ok_run hsize hes).held_le, (ok_run hsize hes).live⟩

theorem twoAccepts_bounded :
    (run (step 1) new [.count, .count, .settle 1, .settle 0, .count, .drop]).held ≤ 1 := by
  refine (conns_bounded 1 2 [.count, .count, .settle 1, .settle 0, .count, .drop] ?_ ?_).1
  · unfold usize
    decide
  · simp [Accepts, Conns.step, Conns.settle, Along, countOne, new, usize]

/-- The accept loop refuses a connection exactly when the cap is held at the moment of its count, whatever
ends before it looks at the count, and a refusal takes no slot. -/
theorem accept_refuses_iff (cap k : ℕ) (es : List ConnEvent) (hsize : cap + 1 < usize)
    (hes : Along (step cap) (Accepts 1) new es) (hidle : (run (step cap) new es).counting = []) :
    let s := run (step cap) new es
    let s' := run (step cap) s (.count :: List.replicate k .drop ++ [.settle 0])
    (s'.refused = s.refused + 1 ↔ s.held = cap) ∧ s'.held = (s.held - k) + (if s.held = cap then 0 else 1) ∧
      s'.live = s'.held := by
  intro s s'
  have hok : Ok cap 1 s := ok_run hsize hes
  have hle := hok.held_le
  obtain ⟨hcounting, hheld, hrefused⟩ := settle_drops hok hidle k
  set mid := run (step cap) s (.count :: List.replicate k .drop) with hmid
  have hs' : s' = settle cap mid 0 := by
    change run (step cap) s (.count :: List.replicate k .drop ++ [.settle 0]) = _
    rw [run_append, ← hmid]
    rfl
  have hget : mid.counting[0]? = some (s.held + 1) := by
    rw [hcounting]
    rfl
  have hmidok : Ok cap 1 mid := by
    refine run_invariant (fun s e hs he => hs.step hsize he) hok ?_
    refine ⟨fun _ => by rw [hidle]; exact Nat.one_pos, ?_⟩
    exact along_of_ne fun e he => by rw [List.eq_of_mem_replicate he]; decide
  have hs'ok : Ok cap 1 s' := by
    rw [hs']
    exact hmidok.settle hsize 0
  obtain ⟨hcounting', hrefused', hheld'⟩ := @settle_of_get cap mid 0 (s.held + 1) hget
  rw [← hs'] at hcounting' hrefused' hheld'
  have hlive := hs'ok.live
  rw [hcounting', hcounting, List.eraseIdx_cons_zero, List.length_nil, Nat.add_zero] at hlive
  refine ⟨?_, ?_, hlive⟩
  · rw [hrefused', hrefused]
    split_ifs with hfull
    · exact ⟨fun _ => by omega, fun _ => rfl⟩
    · exact ⟨fun h => by omega, fun h => by omega⟩
  · rw [hheld', hheld]
    split_ifs <;> omega

/-- The one connection of the listener ends between the count of the next one and the look at it. -/
theorem lateEnd_refused :
    let s := run (step 1) new [.count, .settle 0]
    (run (step 1) s (.count :: List.replicate 1 .drop ++ [.settle 0])).refused = s.refused + 1 := by
  refine (accept_refuses_iff 1 1 [.count, .settle 0] ?_ ?_ rfl).1.mpr rfl
  · unfold usize
    decide
  · simp [Accepts, Conns.step, Along, countOne, new]

end Conns

end GbfrLan.Broker
