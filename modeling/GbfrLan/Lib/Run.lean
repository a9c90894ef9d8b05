import Mathlib.Tactic

/-!
# Runs of event-driven machines

A machine is a total step function `S → E → S`; every source of nondeterminism
(the scheduler, the network, the clock) is data of the event. `Along` says that
each event of a run meets a condition on the state in which it is taken.
-/
namespace GbfrLan.Lib

universe u v

variable {S : Type u} {E : Type v}

/-- The state after a finite sequence of events. -/
def run (step : S → E → S) (s : S) (es : List E) : S := es.foldl step s

@[simp] theorem run_nil (step : S → E → S) (s : S) : run step s [] = s := rfl

@[simp] theorem run_cons (step : S → E → S) (s : S) (e : E) (es : List E) :
    run step s (e :: es) = run step (step s e) es := rfl

theorem run_append (step : S → E → S) (s : S) (es fs : List E) :
    run step s (es ++ fs) = run step (run step s es) fs := List.foldl_append

/-- Every event is taken in a state that meets the condition. -/
def Along (step : S → E → S) (cond : S → E → Prop) : S → List E → Prop
  | _, [] => True
  | s, e :: es => cond s e ∧ Along step cond (step s e) es

@[simp] theorem along_nil (step : S → E → S) (cond : S → E → Prop) (s : S) :
    Along step cond s [] := trivial

@[simp] theorem along_cons (step : S → E → S) (cond : S → E → Prop) (s : S) (e : E)
    (es : List E) :
    Along step cond s (e :: es) ↔ cond s e ∧ Along step cond (step s e) es := Iff.rfl

instance decidableAlong (step : S → E → S) (cond : S → E → Prop)
    [∀ s e, Decidable (cond s e)] : ∀ s es, Decidable (Along step cond s es)
  | _, [] => isTrue trivial
  | s, e :: es =>
      have : Decidable (Along step cond (step s e) es) := decidableAlong step cond (step s e) es
      inferInstanceAs (Decidable (cond s e ∧ Along step cond (step s e) es))

theorem along_append (step : S → E → S) (cond : S → E → Prop) (s : S) (es fs : List E) :
    Along step cond s (es ++ fs) ↔
      Along step cond s es ∧ Along step cond (run step s es) fs := by
  induction es generalizing s with
  | nil => simp
  | cons e es ih => simp only [List.cons_append, along_cons, run_cons, ih, and_assoc]

/-- Conditions that agree on the admissible steps agree on admissible runs. -/
theorem along_congr {step : S → E → S} {cond p q : S → E → Prop}
    (h : ∀ s e, cond s e → (p s e ↔ q s e)) {s : S} {es : List E}
    (hrun : Along step cond s es) : Along step p s es ↔ Along step q s es := by
  induction es generalizing s with
  | nil => exact Iff.rfl
  | cons e es ih =>
    rw [along_cons, along_cons, h s e hrun.1, ih hrun.2]

/-- The invariant rule: what every admissible step preserves holds after every
admissible run. -/
theorem run_invariant {step : S → E → S} {cond : S → E → Prop} {inv : S → Prop}
    (hstep : ∀ s e, inv s → cond s e → inv (step s e)) {s : S} {es : List E}
    (hs : inv s) (hrun : Along step cond s es) : inv (run step s es) := by
  induction es generalizing s with
  | nil => exact hs
  | cons e es ih => exact ih (hstep s e hs hrun.1) hrun.2

/-- The invariant rule for machines whose events are all admissible. -/
theorem run_invariant_all {step : S → E → S} {inv : S → Prop}
    (hstep : ∀ s e, inv s → inv (step s e)) {s : S} (hs : inv s) (es : List E) :
    inv (run step s es) := by
  induction es generalizing s with
  | nil => exact hs
  | cons e es ih => exact ih (hstep s e hs)

/-- The invariant rule with a condition on the events alone. -/
theorem run_invariant_mem {step : S → E → S} {cond : E → Prop} {inv : S → Prop}
    (hstep : ∀ s e, inv s → cond e → inv (step s e)) {s : S} {es : List E} (hs : inv s)
    (hes : ∀ e ∈ es, cond e) : inv (run step s es) := by
  induction es generalizing s with
  | nil => exact hs
  | cons e es ih =>
    obtain ⟨he, hrest⟩ := List.forall_mem_cons.mp hes
    exact ih (hstep s e hs he) hrest

/-- The invariant rule for what relates a state to the events that led to it. -/
theorem run_history {step : S → E → S} {cond : S → E → Prop} {inv : List E → S → Prop} {s : S}
    (hstep : ∀ es e, inv es (run step s es) → cond (run step s es) e →
      inv (es ++ [e]) (step (run step s es) e)) {es : List E}
    (hs : inv [] s) (hrun : Along step cond s es) : inv es (run step s es) := by
  induction es using List.reverseRecOn with
  | nil => exact hs
  | append_singleton es e ih =>
    rw [along_append, along_cons] at hrun
    rw [run_append, run_cons, run_nil]
    exact hstep es e (ih hrun.1) hrun.2.1

/-- A property of states that an invariant gives, and that is lost at once by a step on which
the invariant breaks, holds in every state of a run exactly when no step of it is such. -/
theorem property_iff_along {step : S → E → S} {cond : S → E → Prop} {inv good : S → Prop}
    (hgood : ∀ s, inv s → good s) (hstep : ∀ s e, inv s → cond s e → inv (step s e))
    (hlost : ∀ s e, inv s → ¬cond s e → ¬good (step s e)) {s : S} (hs : inv s) (es : List E) :
    (∀ fs, fs <+: es → good (run step s fs)) ↔ Along step cond s es := by
  induction es generalizing s with
  | nil =>
    constructor
    · exact fun _ => trivial
    · intro _ fs hfs
      rw [List.prefix_nil.mp hfs]
      exact hgood s hs
  | cons e es ih =>
    constructor
    · intro h
      have hnext : good (step s e) := h [e] (by simp)
      have hc : cond s e := by
        by_contra hnot
        exact hlost s e hs hnot hnext
      refine ⟨hc, (ih (hstep s e hs hc)).mp fun fs hfs => ?_⟩
      exact h (e :: fs) (by simpa using hfs)
    · rintro ⟨hc, hrest⟩ fs hfs
      have hnext : inv (step s e) := hstep s e hs hc
      cases fs with
      | nil => exact hgood s hs
      | cons f fs =>
        obtain ⟨rfl, hfs'⟩ := List.cons_prefix_cons.mp hfs
        exact (ih hnext).mpr hrest fs hfs'

/-- A bound that a step keeps exactly under a condition holds in every state of a run exactly
when every step of it meets the condition. -/
theorem invariant_iff_along {step : S → E → S} {cond : S → E → Prop} {inv : S → Prop}
    (hstep : ∀ s e, inv s → (inv (step s e) ↔ cond s e)) {s : S} (hs : inv s) (es : List E) :
    (∀ fs, fs <+: es → inv (run step s fs)) ↔ Along step cond s es :=
  property_iff_along (fun _ h => h) (fun s e h => (hstep s e h).mpr)
    (fun s e h => mt (hstep s e h).mp) hs es

/-- Two sequences of events that differ only in hidden ones. -/
inductive Differ (hidden : E → Prop) : List E → List E → Prop
  | nil : Differ hidden [] []
  | both (e : E) {es fs : List E} : Differ hidden es fs → Differ hidden (e :: es) (e :: fs)
  | left {e : E} {es fs : List E} : hidden e → Differ hidden es fs → Differ hidden (e :: es) fs
  | right {e : E} {es fs : List E} : hidden e → Differ hidden es fs → Differ hidden es (e :: fs)

/-- Sequences with the same events that are not hidden. -/
theorem Differ.of_filter_eq {hidden : E → Prop} [DecidablePred hidden] {es fs : List E}
    (h : es.filter (fun e => ¬hidden e) = fs.filter fun e => ¬hidden e) : Differ hidden es fs := by
  induction es generalizing fs with
  | nil =>
    induction fs with
    | nil => exact .nil
    | cons f fs ih =>
      rw [List.filter_nil, eq_comm, List.filter_eq_nil_iff] at h
      have hf : hidden f := by simpa using h f (List.mem_cons_self ..)
      refine .right hf (ih ?_)
      rw [List.filter_nil, eq_comm, List.filter_eq_nil_iff]
      exact fun e he => h e (List.mem_cons_of_mem _ he)
  | cons e es ih =>
    by_cases he : hidden e
    · exact .left he (ih (by simpa [List.filter_cons, he] using h))
    · induction fs with
      | nil => simp [he] at h
      | cons f fs ih' =>
        by_cases hf : hidden f
        · exact .right hf (ih' (by simpa [List.filter_cons, he, hf] using h))
        · simp only [List.filter_cons, he, hf, not_false_eq_true, decide_true, if_true,
            List.cons.injEq] at h
          obtain ⟨rfl, hrest⟩ := h
          exact .both e (ih hrest)

theorem Differ.prepend {hidden : E → Prop} (es : List E) {fs gs : List E}
    (h : Differ hidden fs gs) : Differ hidden (es ++ fs) (es ++ gs) := by
  induction es with
  | nil => exact h
  | cons e es ih => exact .both e ih

/-- The simulation rule for such sequences: hidden events on either side keep the relation. -/
theorem run_related {step : S → E → S} {cond : S → E → Prop} {hidden : E → Prop}
    {rel : S → S → Prop}
    (hboth : ∀ s t e, rel s t → cond s e → cond t e → rel (step s e) (step t e))
    (hleft : ∀ s t e, hidden e → rel s t → cond s e → rel (step s e) t)
    (hright : ∀ s t e, hidden e → rel s t → cond t e → rel s (step t e)) {es fs : List E}
    (h : Differ hidden es fs) {s t : S} (hrel : rel s t) (hs : Along step cond s es)
    (ht : Along step cond t fs) : rel (run step s es) (run step t fs) := by
  induction h generalizing s t with
  | nil => exact hrel
  | both e _ ih => exact ih (hboth s t e hrel hs.1 ht.1) hs.2 ht.2
  | left he _ ih => exact ih (hleft s t _ he hrel hs.1) hs.2 ht
  | right he _ ih => exact ih (hright s t _ he hrel ht.1) hs ht.2

/-- An entry of a log that has grown by one is the new one, or an old one with the new one
behind it. -/
theorem log_split {A : Type u} {log pre post : List A} {x y : A}
    (h : log ++ [x] = pre ++ y :: post) :
    (post = [] ∧ log = pre ∧ x = y) ∨ ∃ post', post = post' ++ [x] ∧ log = pre ++ y :: post' := by
  rcases List.eq_nil_or_concat' post with rfl | ⟨post', z, rfl⟩
  · obtain ⟨hlog, hxy⟩ := List.append_inj' h rfl
    exact Or.inl ⟨rfl, hlog, List.singleton_inj.mp hxy⟩
  · have hassoc : log ++ [x] = (pre ++ y :: post') ++ [z] := by simpa using h
    obtain ⟨hlog, hxz⟩ := List.append_inj' hassoc rfl
    obtain rfl := List.singleton_inj.mp hxz
    exact Or.inr ⟨post', rfl, hlog⟩

end GbfrLan.Lib
