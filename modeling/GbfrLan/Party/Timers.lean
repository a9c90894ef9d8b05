import GbfrLan.Party.SendLedger

/-!
# Deadlines of the sender and of the forced ack

The transport thread sleeps until `nextRtoMs` or `nextAckDueMs` and then calls `due` or `forcedAck`,
which decide anew whether the time has come. Both decisions agree on clock readings below `2 ^ 63`,
and a deadline that was served lies in the future afterwards.
-/
namespace GbfrLan.Party
open Lib

/-- The clock reading of an event is below `2 ^ 63`. -/
def SenderEvent.Early : SenderEvent → Prop
  | .send _ _ nowMs | .due nowMs => nowMs < 2 ^ 63
  | .onAck _ => True

instance : DecidablePred SenderEvent.Early
  | .send _ _ nowMs | .due nowMs => inferInstanceAs (Decidable (nowMs < 2 ^ 63))
  | .onAck _ => inferInstanceAs (Decidable True)

namespace Sender

variable {s : Sender} {k : UInt32} {p : Pending} {nowMs : ℕ}

/-- No deadline has come. -/
def Waits (s : Sender) (nowMs : ℕ) : Prop := ∀ t, s.nextRtoMs = some t → nowMs < t

theorem waits_iff (s : Sender) (nowMs : ℕ) :
    s.Waits nowMs ↔ ∀ k p, s.pending.get? k = some p → p.gaveUp = false →
      nowMs < saturatingAdd p.lastSentMs p.rtoMs := by
  have hmin : s.Waits nowMs ↔ ∀ t ∈ (s.pending.values.filter fun p => !p.gaveUp).map fun p =>
      saturatingAdd p.lastSentMs p.rtoMs, nowMs < t := by
    unfold Waits nextRtoMs
    generalize (s.pending.values.filter fun p => !p.gaveUp).map (fun p =>
      saturatingAdd p.lastSentMs p.rtoMs) = times
    constructor
    · intro h t ht
      cases hleast : times.min? with
      | none =>
        rw [List.min?_eq_none_iff] at hleast
        rw [hleast] at ht
        cases ht
      | some least => exact (h least hleast).trans_le ((List.min?_eq_some_iff.mp hleast).2 t ht)
    · exact fun h t ht => h t (List.min?_eq_some_iff.mp ht).1
  rw [hmin]
  constructor
  · intro h k p hk hgave
    refine h _ (List.mem_map.mpr ⟨p, List.mem_filter.mpr ⟨?_, by simp [hgave]⟩, rfl⟩)
    exact List.mem_map.mpr ⟨(k, p), (OrdMap.mem_entries_iff ..).mpr hk, rfl⟩
  · rintro h t ht
    obtain ⟨p, hp, rfl⟩ := List.mem_map.mp ht
    obtain ⟨hvalue, hgave⟩ := List.mem_filter.mp hp
    obtain ⟨e, he, rfl⟩ := List.mem_map.mp hvalue
    exact h e.1 e.2 ((OrdMap.mem_entries_iff ..).mp he) (by simpa using hgave)

/-- A pending message whose deadline the two functions read alike. -/
structure Dated (p : Pending) : Prop where
  sent : p.lastSentMs < 2 ^ 63
  pos : 0 < p.rtoMs
  le : p.rtoMs ≤ rtoMaxMs

theorem Dated.deadline (h : Dated p) :
    saturatingAdd p.lastSentMs p.rtoMs = p.lastSentMs + p.rtoMs := by
  obtain ⟨hsent, -, hle⟩ := h
  unfold rtoMaxMs at hle
  unfold saturatingAdd u64Max
  omega

/-- What keeps a message from being touched by a tick. -/
theorem Dated.idle_iff (h : Dated p) (nowMs : ℕ) :
    (p.gaveUp = true ∨ nowMs - p.lastSentMs < p.rtoMs) ↔
      (p.gaveUp = false → nowMs < saturatingAdd p.lastSentMs p.rtoMs) := by
  have hpos := h.pos
  rw [h.deadline]
  cases p.gaveUp <;> simp only [Bool.false_eq_true, false_or, true_or, forall_const,
    reduceCtorEq, false_imp_iff]
  omega

theorem tick_none_iff (nowMs : ℕ) (k : UInt32) (p : Pending) :
    (tick nowMs k p).2 = none ↔ p.gaveUp = true ∨ nowMs - p.lastSentMs < p.rtoMs := by
  unfold tick
  split_ifs with hgave hearly <;> simp [*]

theorem tick_eq_iff (nowMs : ℕ) (k : UInt32) (p : Pending) :
    (tick nowMs k p).1 = p ↔ p.gaveUp = true ∨ nowMs - p.lastSentMs < p.rtoMs := by
  constructor
  · intro h
    by_contra hnot
    rw [not_or] at hnot
    unfold tick at h
    rw [if_neg hnot.1, if_neg hnot.2] at h
    split_ifs at h
    · exact hnot.1 (congrArg Pending.gaveUp h).symm
    · exact Nat.succ_ne_self _ (congrArg Pending.retries h)
  · intro h
    unfold tick
    split_ifs with hgave hearly hspent
    · rfl
    · rfl
    · exact absurd h (by simp [hgave, hearly])
    · exact absurd h (by simp [hgave, hearly])

theorem Dated.tick (h : Dated p) (hnow : nowMs < 2 ^ 63) (k : UInt32) :
    Dated (tick nowMs k p).1 := by
  obtain ⟨hsent, hpos, hle⟩ := h
  unfold Sender.tick
  split_ifs
  · exact ⟨hsent, hpos, hle⟩
  · exact ⟨hsent, hpos, hle⟩
  · exact ⟨hsent, hpos, hle⟩
  · refine ⟨hnow, ?_, ?_⟩
    · simp only [rtoMaxMs, u64Max]
      omega
    · exact min_le_right _ _

/-- The deadline of a message after a tick lies in the future. -/
theorem Dated.tick_late (h : Dated p) (hnow : nowMs < 2 ^ 63) (k : UInt32)
    (hgave : (Sender.tick nowMs k p).1.gaveUp = false) :
    nowMs < saturatingAdd (Sender.tick nowMs k p).1.lastSentMs (Sender.tick nowMs k p).1.rtoMs := by
  have hnext := h.tick hnow k
  rw [hnext.deadline]
  have hpos := hnext.pos
  unfold Sender.tick at hgave hpos ⊢
  split_ifs at hgave hpos ⊢ with hold hearly
  · rw [hold] at hgave
    cases hgave
  · simp only
    omega
  · simp only at hpos ⊢
    omega

section Due

variable (hdated : ∀ k p, s.pending.get? k = some p → Dated p)
include hdated

/-- `due` reports nothing exactly when no deadline has come. -/
theorem due_nil_iff (nowMs : ℕ) : (s.due nowMs).2 = [] ↔ s.Waits nowMs := by
  rw [waits_iff]
  simp only [due, partyReliable, Bool.not_true, Bool.false_eq_true, if_false,
    List.filterMap_eq_nil_iff, tick_none_iff]
  constructor
  · intro h k p hk
    exact ((hdated k p hk).idle_iff nowMs).mp (h (k, p) ((OrdMap.mem_entries_iff ..).mpr hk))
  · rintro h ⟨k, p⟩ he
    have hk := (OrdMap.mem_entries_iff ..).mp he
    exact ((hdated k p hk).idle_iff nowMs).mpr (h k p hk)

/-- `due` changes nothing exactly when no deadline has come. -/
theorem due_eq_iff (nowMs : ℕ) : (s.due nowMs).1 = s ↔ s.Waits nowMs := by
  rw [waits_iff]
  constructor
  · intro h k p hk
    refine ((hdated k p hk).idle_iff nowMs).mp ((tick_eq_iff nowMs k p).mp ?_)
    have hget := due_get? (s := s) nowMs k
    rw [h, hk, Option.map_some] at hget
    exact (Option.some.inj hget).symm
  · intro h
    have hsame : (s.due nowMs).1.pending = s.pending := by
      refine OrdMap.ext_get? fun k => ?_
      rw [due_get?]
      cases hk : s.pending.get? k with
      | none => rfl
      | some p =>
        rw [Option.map_some, (tick_eq_iff nowMs k p).mpr (((hdated k p hk).idle_iff nowMs).mpr (h k p hk))]
    calc (s.due nowMs).1 = { s with pending := (s.due nowMs).1.pending } := by
          simp only [due, partyReliable, Bool.not_true, Bool.false_eq_true, if_false]
      _ = s := by rw [hsame]

/-- After `due` every deadline lies in the future. -/
theorem due_waits (hnow : nowMs < 2 ^ 63) : (s.due nowMs).1.Waits nowMs := by
  rw [waits_iff]
  intro k p hk hgave
  rw [due_get?, Option.map_eq_some_iff] at hk
  obtain ⟨q, hq, rfl⟩ := hk
  exact (hdated k q hq).tick_late hnow k hgave

end Due

end Sender

namespace SendLedger

variable {s : SendLedger}

/-- Every pending message was last sent before `2 ^ 63`. -/
def Timed (s : SendLedger) : Prop :=
  ∀ k p, s.tx.pending.get? k = some p → p.lastSentMs < 2 ^ 63

theorem Timed.step (h : s.Timed) (e : SenderEvent) (he : e.Early) : (s.step e).Timed := by
  cases e with
  | send payload options nowMs =>
    have hsend : (s.step (.send payload options nowMs)).tx = (s.tx.send payload options nowMs).1 := by
      unfold SendLedger.step
      simp only
      split_ifs <;> rfl
    intro k p hk
    rw [hsend] at hk
    cases hg : guaranteed options with
    | true =>
      simp only [Sender.send, partyReliable, hg, Bool.not_true, Bool.false_eq_true, if_false, if_true,
        OrdMap.get?_insert] at hk
      split_ifs at hk
      · obtain rfl := Option.some.inj hk
        exact he
      · exact h k p (Sender.makeRoom_get? hk)
    | false =>
      refine h k p ?_
      simp only [Sender.send, partyReliable, hg, Bool.not_true, Bool.false_eq_true, if_false] at hk
      split_ifs at hk <;> exact hk
  | onAck ack => exact fun k p hk => h k p (Sender.onAck_get? hk)
  | due nowMs =>
    intro k p hk
    have hget : (s.tx.due nowMs).1.pending.get? k = some p := hk
    rw [Sender.due_get?, Option.map_eq_some_iff] at hget
    obtain ⟨q, hq, rfl⟩ := hget
    unfold Sender.tick
    split_ifs
    · exact h k q hq
    · exact h k q hq
    · exact h k q hq
    · exact he

theorem Sound.dated (h : Sound s) (ht : s.Timed) {k : UInt32} {p : Pending}
    (hk : s.tx.pending.get? k = some p) : Sender.Dated p := by
  have hrto := (h.live k p hk).rto
  have hpow := Nat.two_pow_pos p.retries
  refine ⟨ht k p hk, ?_, ?_⟩ <;> rw [hrto, backoff, rtoFirstMs, rtoMaxMs] <;> omega

/-- The story of a message ends with `gone` exactly when the message is not pending. -/
theorem Sound.story (h : Sound s) {i : ℕ} (h1 : 1 ≤ i) (hi : i ≤ s.count) :
    ∃ first again gaveUp gone, s.history i = story first again gaveUp gone ∧
      again.length ≤ maxRetries ∧ Spaced (first :: again) ∧
      (gone = false ↔ ∃ k, s.tx.pending.contains k = true ∧ s.last k = i) := by
  by_cases hpend : ∃ k, s.tx.pending.contains k = true ∧ s.last k = i
  · obtain ⟨k, hk, rfl⟩ := id hpend
    obtain ⟨p, hp⟩ := (OrdMap.contains_iff _ k).mp hk
    obtain ⟨-, hretries, first, again, htold, hlen, -, hspaced⟩ := h.live k p hp
    exact ⟨first, again, p.gaveUp, false, htold, hlen ▸ hretries, hspaced, by simpa using hpend⟩
  · obtain ⟨first, again, gaveUp, htold, hlen, hspaced⟩ :=
      h.ended i h1 hi fun k hk heq => hpend ⟨k, hk, heq⟩
    exact ⟨first, again, gaveUp, true, htold, hlen, hspaced, by simpa using hpend⟩

end SendLedger

/-! ### The forced ack -/

inductive ReceiverEvent where
  | message (seq options : UInt32) (payload : Bytes) (nowMs : ℕ)
  | piggybackAck
  | forcedAck (nowMs : ℕ)
  deriving DecidableEq, Repr

/-- The clock reading of an event is below `2 ^ 63`. -/
def ReceiverEvent.Early : ReceiverEvent → Prop
  | .message _ _ _ nowMs | .forcedAck nowMs => nowMs < 2 ^ 63
  | .piggybackAck => True

instance : DecidablePred ReceiverEvent.Early
  | .message _ _ _ nowMs | .forcedAck nowMs => inferInstanceAs (Decidable (nowMs < 2 ^ 63))
  | .piggybackAck => inferInstanceAs (Decidable True)

namespace Receiver

def step (r : Receiver) : ReceiverEvent → Receiver
  | .message seq options payload nowMs => (r.onMessage seq options payload nowMs).1
  | .piggybackAck => r.piggybackAck.1
  | .forcedAck nowMs => (r.forcedAck nowMs).1

variable {r : Receiver}

/-- The forced-ack timer was started before `2 ^ 63`. -/
def Timed (r : Receiver) : Prop := ∀ t, r.ackDueAt = some t → t < 2 ^ 63

theorem onMessage_ackDueAt (r : Receiver) (seq options : UInt32) (payload : Bytes) (nowMs : ℕ) :
    (r.onMessage seq options payload nowMs).1.ackDueAt = r.ackDueAt ∨
      (r.onMessage seq options payload nowMs).1.ackDueAt = some (r.ackDueAt.getD nowMs) := by
  have hstore (r : Receiver) (payload : Bytes) :
      (r.store seq options payload).ackDueAt = r.ackDueAt := by
    unfold store
    split <;> rfl
  have hguaranteed (r : Receiver) : (r.onGuaranteed seq options payload).1.ackDueAt = r.ackDueAt := by
    unfold onGuaranteed
    split_ifs
    · rfl
    · rfl
    · exact hstore r payload
    · exact hstore r []
  unfold onMessage
  simp only
  split_ifs
  · exact .inl rfl
  · rw [hguaranteed]
    unfold armAck
    split_ifs
    · exact .inr rfl
    · exact .inl rfl
  · exact .inl rfl
  · exact .inl rfl
  · exact .inl rfl

theorem Timed.step (h : r.Timed) (e : ReceiverEvent) (he : e.Early) : (r.step e).Timed := by
  cases e with
  | message seq options payload nowMs =>
    intro t ht
    have hdue : (r.onMessage seq options payload nowMs).1.ackDueAt = some t := ht
    rcases r.onMessage_ackDueAt seq options payload nowMs with hsame | harmed
    · exact h t (hsame ▸ hdue)
    · rw [harmed, Option.some.injEq] at hdue
      cases hold : r.ackDueAt with
      | none =>
        rw [hold, Option.getD_none] at hdue
        exact hdue ▸ he
      | some t' =>
        rw [hold, Option.getD_some] at hdue
        exact hdue ▸ h t' hold
  | piggybackAck => exact fun t ht => nomatch ht
  | forcedAck nowMs =>
    intro t ht
    have hdue : (r.forcedAck nowMs).1.ackDueAt = some t := ht
    unfold forcedAck at hdue
    cases hold : r.ackDueAt with
    | none => simp [hold] at hdue
    | some t' =>
      simp only [hold] at hdue
      split_ifs at hdue
      exact h t (hold ▸ hdue)

/-- An ack is owed and its deadline has come. -/
def AckDue (r : Receiver) (nowMs : ℕ) : Prop := ∃ t, r.nextAckDueMs = some t ∧ t ≤ nowMs

/-- The forced ack is produced exactly when its deadline has come, and the timer is cleared. -/
theorem Timed.forcedAck (h : r.Timed) (nowMs : ℕ) :
    (r.AckDue nowMs → r.forcedAck nowMs = ({ r with ackDueAt := none }, some r.ackValue)) ∧
      (¬r.AckDue nowMs → r.forcedAck nowMs = (r, none)) := by
  cases hdue : r.ackDueAt with
  | none => simp [AckDue, nextAckDueMs, Receiver.forcedAck, hdue]
  | some t =>
    have hlt := h t hdue
    have hiff : r.AckDue nowMs ↔ ackDelayMs ≤ nowMs - t := by
      simp only [AckDue, nextAckDueMs, hdue, Option.map_some, Option.some.injEq, exists_eq_left',
        saturatingAdd, u64Max, ackDelayMs]
      omega
    rw [hiff]
    constructor
    · intro hle
      simp [Receiver.forcedAck, hdue, hle]
    · intro hle
      simp [Receiver.forcedAck, hdue, hle]

end Receiver

/-! ### Whole runs -/

/-- For every run of a sender and of a receiver with clock readings below `2 ^ 63`: the deadlines and
the functions that serve them agree, every pending message has the timeout of its retries, and the
log of every guaranteed message is a transmission, at most 8 retransmissions with their timeouts in
between, at most one event for the end of the budget, and the removal from the pending map. -/
theorem timers_agree (es : List SenderEvent) (h : ∀ e ∈ es, e.Early) (fs : List ReceiverEvent)
    (hf : ∀ e ∈ fs, e.Early) :
    let s := run SendLedger.step SendLedger.fresh es
    let r := run Receiver.step Receiver.new fs
    (∀ nowMs < 2 ^ 63, ((s.tx.due nowMs).2 = [] ↔ s.tx.Waits nowMs) ∧
        ((s.tx.due nowMs).1 = s.tx ↔ s.tx.Waits nowMs) ∧ (s.tx.due nowMs).1.Waits nowMs) ∧
      (∀ k p, s.tx.pending.get? k = some p →
        p.retries ≤ 8 ∧ p.rtoMs = min (60 * 2 ^ p.retries) 500) ∧
      (∀ i, 1 ≤ i → i ≤ s.count → ∃ first again gaveUp gone,
        s.history i = story first again gaveUp gone ∧ again.length ≤ 8 ∧ Spaced (first :: again) ∧
          (gone = false ↔ ∃ k, s.tx.pending.contains k = true ∧ s.last k = i)) ∧
      ∀ nowMs < 2 ^ 63,
        (r.AckDue nowMs → r.forcedAck nowMs = ({ r with ackDueAt := none }, some r.ackValue)) ∧
          (¬r.AckDue nowMs → r.forcedAck nowMs = (r, none)) := by
  intro s r
  have hsound : s.Sound := SendLedger.run_sound es
  have htimed : (run SendLedger.step SendLedger.fresh es).Timed :=
    @run_invariant_mem _ _ _ SenderEvent.Early SendLedger.Timed (fun _ e ht he => ht.step e he) _ _
      (fun _ _ hk => by simp [SendLedger.fresh, Sender.new] at hk) h
  have hdated : ∀ k p, s.tx.pending.get? k = some p → Sender.Dated p :=
    fun k p hk => hsound.dated htimed hk
  have hreceiver : (run Receiver.step Receiver.new fs).Timed :=
    @run_invariant_mem _ _ _ ReceiverEvent.Early Receiver.Timed (fun _ e ht he => ht.step e he) _ _
      (fun _ ht => by simp [Receiver.new] at ht) hf
  refine ⟨fun nowMs hnow => ?_, fun k p hk => ?_, fun i h1 hi => hsound.story h1 hi,
    fun nowMs _ => hreceiver.forcedAck nowMs⟩
  · exact ⟨Sender.due_nil_iff hdated nowMs, Sender.due_eq_iff hdated nowMs,
      Sender.due_waits hdated hnow⟩
  · exact ⟨(hsound.live k p hk).retries, (hsound.live k p hk).rto⟩

/-- A message that is sent three times before its ack arrives. -/
def slowAck : List SenderEvent := [.send [1] 1 0, .due 59, .due 60, .due 180, .onAck 1, .due 900]

theorem slowAck_history :
    (run SendLedger.step SendLedger.fresh slowAck).history 1 = [.sent 0, .again 60, .again 180, .gone] ∧
      (run SendLedger.step SendLedger.fresh slowAck).tx.Waits 900 ∧
      (run Receiver.step Receiver.new [.message 1 1 [1] 5]).forcedAck 34 =
        (run Receiver.step Receiver.new [.message 1 1 [1] 5], none) := by
  have h := timers_agree slowAck (by decide) [.message 1 1 [1] 5] (by decide)
  refine ⟨by decide, (h.1 900 (by decide)).1.mp (by decide), (h.2.2.2 34 (by decide)).2 ?_⟩
  rintro ⟨t, ht, hle⟩
  have h35 : t = 35 := Option.some.inj (ht.symm.trans (by decide))
  omega

end GbfrLan.Party
