import GbfrLan.Lib.Run
import GbfrLan.Party.Handle

/-!
# The state-change pump

`PartyStartProcessingStateChanges` hands the title a batch of at most 32 queued
changes and `PartyFinishProcessingStateChanges` takes it back. Here they are the
parts that run on the queue; what the tick does before (receiving, applying peer
polls) queues its changes through `queueSc`.
-/
namespace GbfrLan.Party
open Lib

/-- Temporary diagnostic switch of the source. -/
def diagOneMsgPerBatch : Bool := false

def batchCap : ℕ := 32

/-- A type-12 is owed on this network. -/
def Network.owesType12 (n : Network) : Bool :=
  n.type10Delivered && !n.type12Delivered && !n.remotes.entries.isEmpty

/-- The hold record of one network at time `now`, with the time it has held. -/
def Network.noteHold (n : Network) (now : ℕ) : Network × Option ℕ :=
  if n.owesType12 then
    let start := n.type12HoldStart.getD now
    let held := now - start
    ({ n with
        type12HoldStart := some start
        type12HoldTimeoutLogged :=
          n.type12HoldTimeoutLogged || decide (type12HoldTimeoutMs ≤ held) }, some held)
  else ({ n with type12HoldStart := none, type12HoldTimeoutLogged := false }, none)

namespace Handle

/-- Timestamp the type-12 holds. Returns whether some hold is inside its timeout,
whether some hold has outlived it, and the longest time held. -/
def noteType12Hold (h : Handle) (now : ℕ) : Handle × Bool × Bool × ℕ :=
  let helds := h.networks.filterMap fun net =>
    (h.boxes.get? net).bind fun n => (n.noteHold now).2
  let h' := h.networks.foldl (fun h net => h.modifyBox net fun n => (n.noteHold now).1) h
  (h', helds.any fun t => decide (t < type12HoldTimeoutMs),
    helds.any fun t => decide (type12HoldTimeoutMs ≤ t), helds.foldl max 0)

/-- The result of the drain loop. -/
structure Drained where
  pending : List StateChange
  inFlight : List StateChange
  deferred : List StateChange
  handed : Counts
  capHits : ℕ

/-- The drain loop over the queue. `hold` says that type-21 changes are deferred. -/
def drain (hold : Bool) : List StateChange → List StateChange → List StateChange → Counts → ℕ →
    Drained
  | [], inFlight, deferred, handed, capHits => ⟨[], inFlight, deferred, handed, capHits⟩
  | p :: rest, inFlight, deferred, handed, capHits =>
      if batchCap ≤ inFlight.length then ⟨p :: rest, inFlight, deferred, handed, capHits + 1⟩
      else if p.ty == 21 && (inFlight.any (fun q => q.ty == 12) || hold) then
        drain hold rest inFlight (deferred ++ [p]) handed capHits
      else if p.ty == 12 then
        ⟨rest, inFlight ++ [p], deferred, handed.bump p.ty, capHits⟩
      else if p.ty == 21 && diagOneMsgPerBatch then
        ⟨rest, inFlight ++ [p], deferred, handed.bump p.ty, capHits⟩
      else drain hold rest (inFlight ++ [p]) deferred (handed.bump p.ty) capHits

/-- The pump part of `PartyStartProcessingStateChanges`. The batch handed to the
title is `inFlight` of the result. -/
def startProcessing (h : Handle) (now : ℕ) : Handle :=
  if h.batchOutstanding then h
  else
    let (h, holding, timedOut, _) := h.noteType12Hold now
    let d := drain (holding && !timedOut) h.pending [] [] h.ledger.handed h.ledger.capHits
    { h with
      pending := d.deferred ++ d.pending
      inFlight := d.inFlight
      ledger := { h.ledger with
        handed := d.handed
        capHits := d.capHits
        deferred21 := h.ledger.deferred21 + d.deferred.length
        batches := if d.inFlight.isEmpty then h.ledger.batches else h.ledger.batches + 1
        lastBatch := d.inFlight.length }
      batchOutstanding := !d.inFlight.isEmpty }

/-- The changes a Finish call looks at: at most 64, null entries skipped. -/
def returned (count : ℕ) (changes : List (Option StateChange)) : List StateChange :=
  (changes.take (min count 64)).filterMap id

/-- Set the delivered flags of the networks whose type-10 or type-12 was returned. -/
def markDelivered (h : Handle) (back : List StateChange) : Handle :=
  let t10Done := (back.filter fun sc => sc.ty == 10).filterMap StateChange.network
  let t12Done := (back.filter fun sc => sc.ty == 12).filterMap StateChange.network
  let h := t10Done.foldl
    (fun h net => h.modifyBox net fun n => { n with type10Delivered := true }) h
  t12Done.foldl (fun h net => h.modifyBox net fun n => { n with type12Delivered := true }) h

/-- `PartyFinishProcessingStateChanges` with the array the title passes; `none` is a
null array. -/
def finishProcessing (h : Handle) (count : ℕ) (changes : Option (List (Option StateChange))) :
    Handle :=
  match changes with
  | none => h
  | some changes =>
      if count = 0 then h
      else
        let back := returned count changes
        let h := h.markDelivered back
        { h with
          inFlight := []
          batchOutstanding := false
          ledger := { h.ledger with
            lastReclaimed := back.length
            reclaimed := back.foldl (fun c sc => c.bump sc.ty) h.ledger.reclaimed } }

end Handle

/-- The payload messages, the one kind the queue bound may drop. -/
def StateChange.isMessage (sc : StateChange) : Bool := sc.ty == 21

def StateChange.isControl (sc : StateChange) : Bool := !sc.isMessage

/-- How many changes of a list have a given type. -/
def countType (t : Fin 32) (l : List StateChange) : ℕ :=
  l.countP fun sc => decide (t.val = sc.ty.toNat)

theorem Counts.bump_apply (c : Counts) (sc : StateChange) (t : Fin 32) :
    c.bump sc.ty t = c t + countType t [sc] := by
  unfold Counts.bump countType
  by_cases h : t.val = sc.ty.toNat
  · simp [h]
  · simp [h]

namespace Handle

/-- What holds of the batch and the deferred messages while the drain loop runs. -/
structure Draining (hold : Bool) (inFlight deferred : List StateChange) : Prop where
  no12 : ∀ sc ∈ inFlight, sc.ty ≠ 12
  short : inFlight.length ≤ batchCap
  messages : ∀ sc ∈ deferred, sc.isMessage = true
  kept : hold = false → deferred = []
  held : hold = true → ∀ sc ∈ inFlight, sc.isMessage = false

variable {hold : Bool} {inFlight deferred : List StateChange}

theorem Draining.start (hold : Bool) : Draining hold [] [] where
  no12 := by simp
  short := by simp
  messages := by simp
  kept := by simp
  held := by simp

theorem Draining.defer (h : Draining hold inFlight deferred) (hhold : hold = true)
    {p : StateChange} (hp : p.isMessage = true) : Draining hold inFlight (deferred ++ [p]) where
  no12 := h.no12
  short := h.short
  messages sc hsc := by
    rcases List.mem_append.mp hsc with hsc | hsc
    · exact h.messages sc hsc
    · rw [List.mem_singleton.mp hsc]
      exact hp
  kept hk := by rw [hhold] at hk; cases hk
  held := h.held

theorem Draining.take (h : Draining hold inFlight deferred) (hlen : inFlight.length < batchCap)
    {p : StateChange} (h12 : p.ty ≠ 12) (hp : hold = true → p.isMessage = false) :
    Draining hold (inFlight ++ [p]) deferred where
  no12 sc hsc := by
    rcases List.mem_append.mp hsc with hsc | hsc
    · exact h.no12 sc hsc
    · rw [List.mem_singleton.mp hsc]
      exact h12
  short := by
    rw [List.length_append, List.length_singleton]
    omega
  messages := h.messages
  kept := h.kept
  held hk sc hsc := by
    rcases List.mem_append.mp hsc with hsc | hsc
    · exact h.held hk sc hsc
    · rw [List.mem_singleton.mp hsc]
      exact hp hk

theorem Draining.any12 (h : Draining hold inFlight deferred) :
    (inFlight.any fun q => q.ty == 12) = false := by
  rw [List.any_eq_false]
  intro sc hsc
  simpa using h.no12 sc hsc

/-- A change that overtakes the deferred messages keeps its order among its own kind. -/
theorem Draining.overtake (h : Draining hold inFlight deferred) {p : StateChange}
    (hp : hold = true → p.isMessage = false) (f : StateChange → Bool)
    (hf : (∀ sc, f sc = true → sc.isMessage = true) ∨
      (∀ sc, f sc = true → sc.isMessage = false)) :
    (p :: deferred).filter f = (deferred ++ [p]).filter f := by
  by_cases hhold : hold = true
  · rcases hf with hf | hf
    · have hfp : f p = false := by
        by_contra hne
        have hmsg := hf p (by simpa using hne)
        rw [hp hhold] at hmsg
        cases hmsg
      rw [List.filter_cons_of_neg (by simp [hfp]), List.filter_append]
      simp [hfp]
    · have hdef : deferred.filter f = [] := by
        rw [List.filter_eq_nil_iff]
        intro sc hsc hfsc
        have hmsg := h.messages sc hsc
        rw [hf sc hfsc] at hmsg
        cases hmsg
      rw [List.filter_append, hdef, List.filter_cons, hdef]
      simp [List.filter_cons]
  · rw [h.kept (by simpa using hhold)]
    rfl

/-- The drain loop keeps the order of the messages and of the control changes. -/
theorem drain_order (f : StateChange → Bool)
    (hf : (∀ sc, f sc = true → sc.isMessage = true) ∨
      (∀ sc, f sc = true → sc.isMessage = false))
    (pending : List StateChange) (handed : Counts) (capHits : ℕ)
    (h : Draining hold inFlight deferred) :
    let d := drain hold pending inFlight deferred handed capHits
    (d.inFlight ++ (d.deferred ++ d.pending)).filter f =
      (inFlight ++ (deferred ++ pending)).filter f := by
  induction pending generalizing inFlight deferred handed capHits with
  | nil => rfl
  | cons p rest ih =>
    have hmove : (hold = true → p.isMessage = false) →
        (inFlight ++ [p] ++ (deferred ++ rest)).filter f =
          (inFlight ++ (deferred ++ p :: rest)).filter f := by
      intro hp
      have hover := h.overtake hp f hf
      calc (inFlight ++ [p] ++ (deferred ++ rest)).filter f
          = inFlight.filter f ++ ((p :: deferred).filter f ++ rest.filter f) := by
            rw [← List.filter_append, ← List.filter_append]
            simp
        _ = inFlight.filter f ++ ((deferred ++ [p]).filter f ++ rest.filter f) := by rw [hover]
        _ = (inFlight ++ (deferred ++ p :: rest)).filter f := by
            rw [← List.filter_append, ← List.filter_append]
            simp
    unfold drain
    split_ifs with hcap hdefer h12 hone
    · rfl
    · have hd : p.isMessage = true ∧ hold = true := by
        simpa [StateChange.isMessage, h.any12] using hdefer
      have hrec := ih handed capHits (h.defer hd.2 hd.1)
      simpa using hrec
    · have hp : p.isMessage = false := by
        have hty : p.ty = 12 := by simpa using h12
        simp [StateChange.isMessage, hty]
      exact hmove fun _ => hp
    · simp [diagOneMsgPerBatch] at hone
    · have hp : hold = true → p.isMessage = false := by
        intro hhold
        simpa [StateChange.isMessage, hhold] using hdefer
      have hrec := ih (handed.bump p.ty) capHits (h.take (by omega) (by simpa using h12) hp)
      exact hrec.trans (hmove hp)

/-- Every batch the drain loop builds has at most 32 changes, and a type-12 only in
the last place. -/
theorem drain_batch (pending : List StateChange) (handed : Counts) (capHits : ℕ)
    (h : Draining hold inFlight deferred) :
    let d := drain hold pending inFlight deferred handed capHits
    d.inFlight.length ≤ batchCap ∧ ∀ sc ∈ d.inFlight.dropLast, sc.ty ≠ 12 := by
  have hdone : inFlight.length ≤ batchCap ∧ ∀ sc ∈ inFlight.dropLast, sc.ty ≠ 12 :=
    ⟨h.short, fun sc hsc => h.no12 sc (List.dropLast_subset _ hsc)⟩
  induction pending generalizing inFlight deferred handed capHits with
  | nil => exact hdone
  | cons p rest ih =>
    unfold drain
    split_ifs with hcap hdefer h12 hone
    · exact hdone
    · have hd : p.isMessage = true ∧ hold = true := by
        simpa [StateChange.isMessage, h.any12] using hdefer
      exact ih handed capHits (h.defer hd.2 hd.1) hdone
    · refine ⟨?_, ?_⟩
      · simp only [List.length_append, List.length_singleton]
        omega
      · simpa using h.no12
    · simp [diagOneMsgPerBatch] at hone
    · have hp : hold = true → p.isMessage = false := by
        intro hhold
        simpa [StateChange.isMessage, hhold] using hdefer
      have htake := h.take (by omega) (by simpa using h12) hp
      exact ih (handed.bump p.ty) capHits htake
        ⟨htake.short, fun sc hsc => htake.no12 sc (List.dropLast_subset _ hsc)⟩

/-- The ledger counts what the drain loop hands out, and nothing else leaves the
queue. -/
theorem drain_counts (hold : Bool) (t : Fin 32) (pending inFlight deferred : List StateChange)
    (handed : Counts) (capHits : ℕ) :
    let d := drain hold pending inFlight deferred handed capHits
    d.handed t + countType t inFlight = handed t + countType t d.inFlight ∧
      countType t d.inFlight + countType t (d.deferred ++ d.pending) =
        countType t inFlight + countType t (deferred ++ pending) := by
  have happ : ∀ l l' : List StateChange,
      countType t (l ++ l') = countType t l + countType t l' := fun _ _ => List.countP_append
  have hcons : ∀ (x : StateChange) (l : List StateChange),
      countType t (x :: l) = countType t [x] + countType t l := fun x l => happ [x] l
  induction pending generalizing inFlight deferred handed capHits with
  | nil => exact ⟨rfl, rfl⟩
  | cons p rest ih =>
    unfold drain
    split_ifs with hcap hdefer h12 hone
    · exact ⟨rfl, rfl⟩
    · have hrec := ih inFlight (deferred ++ [p]) handed capHits
      simp only [happ, hcons p rest] at hrec ⊢
      omega
    · simp only [happ, hcons p rest, Counts.bump_apply]
      omega
    · simp only [happ, hcons p rest, Counts.bump_apply]
      omega
    · have hrec := ih (inFlight ++ [p]) deferred (handed.bump p.ty) capHits
      simp only [happ, hcons p rest, Counts.bump_apply] at hrec ⊢
      omega

/-- Writing through network pointers changes the boxes only. -/
theorem foldl_modifyBox (f : Network → Network) (nets : List ℕ) (h : Handle) :
    ∃ boxes, nets.foldl (fun h net => h.modifyBox net f) h = { h with boxes := boxes } := by
  induction nets generalizing h with
  | nil => exact ⟨h.boxes, rfl⟩
  | cons net nets ih =>
    obtain ⟨boxes, hboxes⟩ := ih (h.modifyBox net f)
    refine ⟨boxes, ?_⟩
    rw [List.foldl_cons, hboxes]
    unfold modifyBox
    split <;> rfl

theorem markDelivered_eq (h : Handle) (back : List StateChange) :
    ∃ boxes, h.markDelivered back = { h with boxes := boxes } := by
  obtain ⟨boxes₁, h₁⟩ := foldl_modifyBox (fun n => { n with type10Delivered := true })
    ((back.filter fun sc => sc.ty == 10).filterMap StateChange.network) h
  obtain ⟨boxes₂, h₂⟩ := foldl_modifyBox (fun n => { n with type12Delivered := true })
    ((back.filter fun sc => sc.ty == 12).filterMap StateChange.network) { h with boxes := boxes₁ }
  refine ⟨boxes₂, ?_⟩
  simp only [markDelivered, h₁, h₂]

theorem startProcessing_outstanding {h : Handle} (now : ℕ) (hb : h.batchOutstanding = true) :
    h.startProcessing now = h := by
  simp [startProcessing, hb]

/-- A Start with no batch outstanding runs the drain loop from an empty batch. -/
theorem startProcessing_eq {h : Handle} (now : ℕ) (hb : h.batchOutstanding = false) :
    ∃ hold, let d := drain hold h.pending [] [] h.ledger.handed h.ledger.capHits
      (h.startProcessing now).pending = d.deferred ++ d.pending ∧
        (h.startProcessing now).inFlight = d.inFlight ∧
        (h.startProcessing now).ledger.handed = d.handed ∧
        (h.startProcessing now).ledger.queued = h.ledger.queued ∧
        (h.startProcessing now).batchOutstanding = !d.inFlight.isEmpty := by
  obtain ⟨boxes, hboxes⟩ := foldl_modifyBox (fun n => (n.noteHold now).1) h.networks h
  have hnote : (h.noteType12Hold now).1 = { h with boxes := boxes } := hboxes
  refine ⟨(h.noteType12Hold now).2.1 && !(h.noteType12Hold now).2.2.1, ?_⟩
  simp only [startProcessing, hb, Bool.false_eq_true, if_false, hnote, and_self]

/-- A Finish call gives the batch back and touches neither queue nor counters of
queued and handed changes. -/
theorem finishProcessing_frame (h : Handle) (count : ℕ)
    (changes : Option (List (Option StateChange))) :
    (h.finishProcessing count changes).pending = h.pending ∧
      (h.finishProcessing count changes).ledger.queued = h.ledger.queued ∧
      (h.finishProcessing count changes).ledger.handed = h.ledger.handed ∧
      ((h.finishProcessing count changes).batchOutstanding = false ∨
        h.finishProcessing count changes = h) := by
  unfold finishProcessing
  cases changes with
  | none => exact ⟨rfl, rfl, rfl, .inr rfl⟩
  | some changes =>
    by_cases hc : count = 0
    · simp only [hc, if_true, or_true, and_self]
    · obtain ⟨boxes, hboxes⟩ := h.markDelivered_eq (returned count changes)
      simp only [hc, if_false, hboxes, true_or, and_self]

/-- `queueSc` either appends the change and counts it, or leaves queue and counters
alone; the second happens to no control change. -/
theorem queueSc_cases (h : Handle) (sc : StateChange) :
    h.queueSc (some sc) = h.push sc ∨
      (sc.isMessage = true ∧ queueCap ≤ h.pending.length ∧
        h.queueSc (some sc) =
          { h with ledger := { h.ledger with dropped := h.ledger.dropped + 1 } }) := by
  unfold queueSc pendingCapDrop
  by_cases hm : sc.ty = 21
  · by_cases hcap : h.pending.length < queueCap
    · left
      simp [hm, hcap]
    · right
      exact ⟨by simp [StateChange.isMessage, hm], by omega, by simp [hm, hcap]⟩
  · left
    simp [hm]

end Handle

/-- The pump with its history: the changes given to `queueSc`, those that entered
the queue, and the batches handed to the title. -/
structure Pump where
  handle : Handle
  submitted : List StateChange
  accepted : List StateChange
  batches : List (List StateChange)

inductive PumpEvent where
  | queueSc (sc : Option StateChange)
  | start (now : ℕ)
  | finish (count : ℕ) (changes : Option (List (Option StateChange)))
  /-- The rest of the shim rewrites the networks: their flags, holds and remotes. -/
  | networks (boxes : OrdMap ℕ Network) (nets : List ℕ)

namespace Pump

def fresh : Pump := ⟨Handle.new, [], [], []⟩

def step (s : Pump) : PumpEvent → Pump
  | .queueSc sc =>
      let h := s.handle.queueSc sc
      { s with
        handle := h
        submitted := s.submitted ++ sc.toList
        accepted := s.accepted ++ h.pending.drop s.handle.pending.length }
  | .start now =>
      let h := s.handle.startProcessing now
      { s with
        handle := h
        batches :=
          if s.handle.batchOutstanding || h.inFlight.isEmpty then s.batches
          else s.batches ++ [h.inFlight] }
  | .finish count changes => { s with handle := s.handle.finishProcessing count changes }
  | .networks boxes nets => { s with handle := { s.handle with boxes := boxes, networks := nets } }

/-- Everything that left the queue in a batch, followed by what is still in it. -/
def stream (s : Pump) : List StateChange := s.batches.flatten ++ s.handle.pending

structure Sound (s : Pump) : Prop where
  control : s.submitted.filter StateChange.isControl = s.stream.filter StateChange.isControl
  messages : s.accepted.filter StateChange.isMessage = s.stream.filter StateChange.isMessage
  batch : ∀ b ∈ s.batches, b.length ≤ batchCap ∧ ∀ sc ∈ b.dropLast, sc.ty ≠ 12
  outstanding : s.handle.batchOutstanding = true →
    s.batches.getLast? = some s.handle.inFlight
  counted : ∀ t, s.handle.ledger.queued t =
    s.handle.ledger.handed t + countType t s.handle.pending

variable {s : Pump}

theorem fresh_sound : Sound fresh where
  control := rfl
  messages := rfl
  batch := by simp [fresh]
  outstanding := by simp [fresh, Handle.new]
  counted t := by simp [fresh, Handle.new, Ledger.default, countType]

theorem Sound.queueSc (h : Sound s) (sc : Option StateChange) : Sound (s.step (.queueSc sc)) := by
  cases sc with
  | none =>
    have hstep : s.step (.queueSc none) = s := by
      simp [step, Handle.queueSc]
    rw [hstep]
    exact h
  | some sc =>
    rcases s.handle.queueSc_cases sc with hpush | ⟨hmsg, -, hdrop⟩
    · have hstream : (s.step (.queueSc (some sc))).stream = s.stream ++ [sc] := by
        simp [step, stream, hpush, Handle.push]
      have haccepted : (s.step (.queueSc (some sc))).accepted = s.accepted ++ [sc] := by
        simp [step, hpush, Handle.push]
      refine ⟨?_, ?_, h.batch, ?_, ?_⟩
      · rw [hstream, List.filter_append, ← h.control, ← List.filter_append]
        rfl
      · rw [hstream, haccepted, List.filter_append, List.filter_append, h.messages]
      · simp only [step, hpush, Handle.push]
        exact h.outstanding
      · intro t
        simp only [step, hpush, Handle.push, Counts.bump_apply]
        have hcount : countType t (s.handle.pending ++ [sc]) =
            countType t s.handle.pending + countType t [sc] := List.countP_append
        rw [hcount, h.counted t]
        omega
    · have hctl : [sc].filter StateChange.isControl = [] := by
        simp [StateChange.isControl, hmsg]
      refine ⟨?_, ?_, h.batch, ?_, ?_⟩
      · simp only [step, stream, hdrop, Option.toList_some, List.filter_append, hctl,
          List.append_nil]
        rw [h.control, stream, List.filter_append]
      · simp only [step, stream, hdrop, List.drop_length, List.append_nil]
        exact h.messages
      · simp only [step, hdrop]
        exact h.outstanding
      · simp only [step, hdrop]
        exact h.counted

theorem Sound.start (h : Sound s) (now : ℕ) : Sound (s.step (.start now)) := by
  by_cases hb : s.handle.batchOutstanding = true
  · have hstep : s.step (.start now) = s := by
      simp [step, hb, Handle.startProcessing_outstanding now hb]
    rw [hstep]
    exact h
  · have hb' : s.handle.batchOutstanding = false := by simpa using hb
    obtain ⟨hold, hpend, hfl, hhanded, hqueued, hout⟩ := Handle.startProcessing_eq now hb'
    set d := Handle.drain hold s.handle.pending [] [] s.handle.ledger.handed
      s.handle.ledger.capHits
    have hbatches : (s.step (.start now)).batches =
        if d.inFlight.isEmpty then s.batches else s.batches ++ [d.inFlight] := by
      simp [step, hb', hfl]
    have hstream : (s.step (.start now)).stream =
        s.batches.flatten ++ (d.inFlight ++ (d.deferred ++ d.pending)) := by
      unfold stream
      rw [hbatches]
      simp only [step, hpend]
      cases hempty : d.inFlight with
      | nil => simp
      | cons x xs => simp
    have horder : ∀ f : StateChange → Bool, ((∀ sc, f sc = true → sc.isMessage = true) ∨
        (∀ sc, f sc = true → sc.isMessage = false)) →
        (s.step (.start now)).stream.filter f = s.stream.filter f := by
      intro f hf
      have hd : (d.inFlight ++ (d.deferred ++ d.pending)).filter f = s.handle.pending.filter f :=
        Handle.drain_order f hf s.handle.pending s.handle.ledger.handed
          s.handle.ledger.capHits (Handle.Draining.start hold)
      rw [hstream, stream, List.filter_append, hd, List.filter_append]
    refine ⟨?_, ?_, ?_, ?_, ?_⟩
    · rw [horder _ (.inr fun sc hsc => by simpa [StateChange.isControl] using hsc)]
      exact h.control
    · rw [horder _ (.inl fun sc hsc => hsc)]
      exact h.messages
    · intro b hbm
      rw [hbatches] at hbm
      split_ifs at hbm
      · exact h.batch b hbm
      · rcases List.mem_append.mp hbm with hbm | hbm
        · exact h.batch b hbm
        · rw [List.mem_singleton.mp hbm]
          exact Handle.drain_batch s.handle.pending _ _ (Handle.Draining.start hold)
    · intro hnew
      have hne : d.inFlight.isEmpty = false := by
        have hval : (s.step (.start now)).handle.batchOutstanding = !d.inFlight.isEmpty := hout
        rw [hval] at hnew
        simpa using hnew
      rw [hbatches]
      simp [hne, step, hfl]
    · intro t
      have hc : d.handed t + 0 = s.handle.ledger.handed t + countType t d.inFlight ∧
          countType t d.inFlight + countType t (d.deferred ++ d.pending) =
            0 + countType t s.handle.pending :=
        Handle.drain_counts hold t s.handle.pending [] [] s.handle.ledger.handed
          s.handle.ledger.capHits
      have hbefore := h.counted t
      simp only [step, hpend, hhanded, hqueued]
      omega

theorem Sound.finish (h : Sound s) (count : ℕ) (changes : Option (List (Option StateChange))) :
    Sound (s.step (.finish count changes)) := by
  obtain ⟨hpend, hqueued, hhanded, hout⟩ := s.handle.finishProcessing_frame count changes
  have hstream : (s.step (.finish count changes)).stream = s.stream := by
    simp [step, stream, hpend]
  refine ⟨by rw [hstream]; exact h.control, by rw [hstream]; exact h.messages, h.batch, ?_, ?_⟩
  · intro hb
    rcases hout with hout | hout
    · simp only [step] at hb
      rw [hout] at hb
      cases hb
    · simp only [step] at hb ⊢
      rw [hout] at hb ⊢
      exact h.outstanding hb
  · intro t
    simp only [step, hpend, hqueued, hhanded]
    exact h.counted t

theorem Sound.step (h : Sound s) (e : PumpEvent) : Sound (s.step e) := by
  cases e with
  | queueSc sc => exact h.queueSc sc
  | start now => exact h.start now
  | finish count changes => exact h.finish count changes
  | networks boxes nets =>
    obtain ⟨hcontrol, hmessages, hbatch, houtstanding, hcounted⟩ := h
    exact ⟨hcontrol, hmessages, hbatch, houtstanding, hcounted⟩

/-- The pump over every sequence of calls: control changes are handed out in the
order queued, accepted messages in the order accepted, each in one batch or still in
the queue; batches have at most 32 changes and a type-12 only in the last place; a
Start with a batch outstanding returns that batch and changes nothing; and the
ledger balances. -/
theorem run_exactly_once (es : List PumpEvent) :
    let s := Lib.run Pump.step fresh es
    s.submitted.filter StateChange.isControl =
        (s.batches.flatten ++ s.handle.pending).filter StateChange.isControl ∧
      s.accepted.filter StateChange.isMessage =
        (s.batches.flatten ++ s.handle.pending).filter StateChange.isMessage ∧
      (∀ b ∈ s.batches, b.length ≤ 32 ∧ ∀ sc ∈ b.dropLast, sc.ty ≠ 12) ∧
      (s.handle.batchOutstanding = true → s.batches.getLast? = some s.handle.inFlight ∧
        ∀ now, s.handle.startProcessing now = s.handle) ∧
      ∀ t : Fin 32, s.handle.ledger.queued t = s.handle.ledger.handed t +
        s.handle.pending.countP fun sc => decide (t.val = sc.ty.toNat) := by
  have hs : Sound (Lib.run Pump.step fresh es) :=
    run_invariant_all (fun _ e hs => hs.step e) fresh_sound es
  refine ⟨hs.control, hs.messages, hs.batch, ?_, hs.counted⟩
  intro hb
  exact ⟨hs.outstanding hb, fun now => Handle.startProcessing_outstanding now hb⟩

end Pump

end GbfrLan.Party
