import GbfrLan.Party.Once

/-!
# Best-effort messages with an order, and without any influence

The best-effort sequential messages have numbers of their own. The receiver remembers the highest
one it has passed on, so what it releases is in the order of the sends. None of its state for the
guaranteed messages is read or written for a best-effort datagram, wherever that arrives.
-/
namespace GbfrLan.Party
open Lib

/-- The messages of the best-effort and sequential mode. -/
def bestSeq (m : RecvMsg) : Bool := !guaranteed m.options && sequential m.options

namespace Receiver

variable {r : Receiver}

/-- The buffer holds guaranteed messages only. -/
def BufferGuaranteed (r : Receiver) : Prop :=
  ∀ k o p, r.gBuf.get? k = some (o, p) → guaranteed o = true

theorem drainNumbered_guaranteed (fuel : ℕ) {next : UInt32}
    {buf : OrdMap UInt32 (UInt32 × Bytes)} (h : ∀ k o p, buf.get? k = some (o, p) → guaranteed o = true) :
    ∀ x ∈ drainNumbered fuel next buf, guaranteed x.2.options = true :=
  fun x hx => h _ _ _ (drainNumbered_key fuel x hx).1

theorem BufferGuaranteed.store (h : r.BufferGuaranteed) {options : UInt32}
    (hg : guaranteed options = true) (seq : UInt32) (payload : Bytes) :
    (r.store seq options payload).BufferGuaranteed := by
  obtain ⟨buf₀, hbuf, hsub⟩ := store_gBuf r seq options payload
  intro k o p hk
  rw [hbuf, OrdMap.get?_insert] at hk
  split_ifs at hk
  · simp only [Option.some.injEq, Prod.mk.injEq] at hk
    exact hk.1 ▸ hg
  · exact h k o p (hsub k _ hk)

theorem BufferGuaranteed.onGuaranteed (h : r.BufferGuaranteed) {options : UInt32}
    (hg : guaranteed options = true) (seq : UInt32) (payload : Bytes) :
    (r.onGuaranteed seq options payload).1.BufferGuaranteed ∧
      ∀ m ∈ (r.onGuaranteed seq options payload).2.released, guaranteed m.options = true := by
  have hdirect : ∀ m ∈ release options payload, guaranteed m.options = true := by
    intro m hm
    unfold release at hm
    split_ifs at hm
    · cases hm
    · rw [List.mem_singleton.mp hm]
      exact hg
  constructor
  · unfold Receiver.onGuaranteed
    split_ifs
    · exact h
    · exact fun k o p hk => h k o p (drain_get? _ hk)
    · exact h.store hg seq payload
    · exact fun k o p hk => h.store hg seq [] k o p (drain_get? _ hk)
  · rw [onGuaranteed_released]
    intro m hm
    obtain ⟨x, hx, rfl⟩ := List.mem_map.mp hm
    unfold numbered at hx
    split_ifs at hx
    · cases hx
    · rcases List.mem_append.mp hx with hx | hx
      · obtain ⟨m', hm', rfl⟩ := List.mem_map.mp hx
        exact hdirect m' hm'
      · exact drainNumbered_guaranteed _ h x hx
    · cases hx
    · rcases List.mem_cons.mp hx with rfl | hx
      · exact hg
      · exact drainNumbered_guaranteed _ (h.store hg seq []) x hx

/-- A guaranteed datagram releases guaranteed messages and leaves the best-effort mark alone. -/
theorem BufferGuaranteed.onMessage (h : r.BufferGuaranteed) {options : UInt32}
    (hg : guaranteed options = true) (seq : UInt32) (payload : Bytes) (nowMs : ℕ) :
    (r.onMessage seq options payload nowMs).1.BufferGuaranteed ∧
      ∀ m ∈ (r.onMessage seq options payload nowMs).2.released, guaranteed m.options = true := by
  by_cases h0 : seq = 0
  · obtain ⟨-, hbuf, hrel⟩ := onMessage_other r payload nowMs
      (.inl h0 : seq = 0 ∨ guaranteed options = false)
    refine ⟨fun k o p hk => h k o p (hbuf ▸ hk), fun m hm => ?_⟩
    rcases hrel with hrel | hrel
    · rw [hrel] at hm
      cases hm
    · rw [hrel, List.mem_singleton] at hm
      rw [hm]
      exact hg
  · obtain ⟨r₀, hsame, hmessage⟩ := onMessage_guaranteed r payload nowMs h0 hg
    have h₀ : r₀.BufferGuaranteed := fun k o p hk => h k o p (hsame.2 ▸ hk)
    rw [hmessage]
    exact h₀.onGuaranteed hg seq payload

/-- The highest best-effort number passed on; 0 before the first one. -/
def bestMark (r : Receiver) : ℕ := if r.beSeen then r.beLast.toNat else 0

theorem store_bestMark (r : Receiver) (seq options : UInt32) (payload : Bytes) :
    (r.store seq options payload).bestMark = r.bestMark := by
  unfold store
  split <;> rfl

theorem onGuaranteed_bestMark (r : Receiver) (seq options : UInt32) (payload : Bytes) :
    (r.onGuaranteed seq options payload).1.bestMark = r.bestMark := by
  unfold onGuaranteed
  split_ifs
  · rfl
  · rfl
  · exact store_bestMark ..
  · exact store_bestMark ..

/-- Only a best-effort sequential datagram moves the mark. -/
theorem onMessage_bestMark (r : Receiver) (seq : UInt32) {options : UInt32} (payload : Bytes)
    (nowMs : ℕ) (h : bestSeq ⟨payload, options⟩ = false) :
    (r.onMessage seq options payload nowMs).1.bestMark = r.bestMark := by
  have harm : ∀ r : Receiver, (r.armAck options nowMs).bestMark = r.bestMark := by
    intro r
    unfold armAck
    split_ifs <;> rfl
  unfold onMessage
  simp only
  split_ifs with h0 hg hs hold
  · rfl
  · rw [onGuaranteed_bestMark, harm]
    rfl
  · rfl
  · simp [bestSeq, hg, hs] at h
  · rfl

/-- A best-effort sequential datagram is released exactly when its number is beyond the mark. -/
theorem onMessage_bestSeq (r : Receiver) {seq options : UInt32} (payload : Bytes) (nowMs : ℕ)
    (h : bestSeq ⟨payload, options⟩ = true) (hpos : 0 < seq.toNat) (hlt : seq.toNat < 2 ^ 31)
    (hmark : r.bestMark < 2 ^ 31) :
    ((r.onMessage seq options payload nowMs).2.released = [] ∧
        (r.onMessage seq options payload nowMs).1.bestMark = r.bestMark) ∨
      (r.bestMark < seq.toNat ∧
        (r.onMessage seq options payload nowMs).2.released = [⟨payload, options⟩] ∧
        (r.onMessage seq options payload nowMs).1.bestMark = seq.toNat) := by
  obtain ⟨hg, hs⟩ : guaranteed options = false ∧ sequential options = true := by
    simpa [bestSeq] using h
  have h0 : (seq == 0) = false := by
    rw [beq_eq_false_iff_ne]
    rintro rfl
    exact absurd hpos (by decide)
  unfold onMessage
  simp only [partyReliable, h0, hg, hs, Bool.not_true, Bool.false_or, Bool.false_eq_true, if_false,
    if_true]
  split_ifs with hold
  · exact .inl ⟨rfl, rfl⟩
  · refine .inr ⟨?_, rfl, rfl⟩
    unfold bestMark at hmark ⊢
    cases hseen : r.beSeen with
    | false => simpa using hpos
    | true =>
      rw [hseen, if_pos rfl] at hmark
      have hle : ¬seqLe seq r.beLast = true := by
        simpa [hseen, seqLe] using hold
      rw [seqLe_iff_le hlt hmark] at hle
      rw [if_pos rfl]
      omega

end Receiver

/-! ### The order of the releases -/

namespace Link

/-- The best-effort sequential messages that a run sends. -/
def bestSent (es : List LinkEvent) : List RecvMsg :=
  es.filterMap fun e => match e with
    | .send payload options _ => if bestSeq ⟨payload, options⟩ then some ⟨payload, options⟩ else none
    | _ => none

/-- A datagram is delivered from the wire. -/
def Delivers (s : Link) : LinkEvent → Prop
  | .deliver d _ => d ∈ s.wire
  | _ => True

instance (s : Link) : ∀ e, Decidable (s.Delivers e)
  | .deliver d _ => inferInstanceAs (Decidable (d ∈ s.wire))
  | .send .. | .onAck _ | .due _ | .ackValue | .piggybackAck | .forcedAck _ =>
      inferInstanceAs (Decidable True)

/-- The best-effort sequential messages of a pairing by their numbers: on the wire they have the
positions in which they were sent, and the released ones come from before the mark. -/
structure BestOrdered (sent : List RecvMsg) (s : Link) : Prop where
  next : s.tx.nextBseq.toNat = sent.length + 1
  pending : ∀ k p, s.tx.pending.get? k = some p → guaranteed p.options = true
  wire : ∀ d ∈ s.wire, bestSeq d.msg = true → Numbers sent d.seq d.msg
  buffer : s.rx.BufferGuaranteed
  mark : s.rx.bestMark ≤ sent.length
  released : (s.released.filter bestSeq).Sublist (sent.take s.rx.bestMark)

namespace BestOrdered

variable {sent : List RecvMsg} {s : Link}

theorem initial : BestOrdered [] fresh where
  next := rfl
  pending := by simp [fresh, Sender.new]
  wire := by simp [fresh]
  buffer := by simp [Receiver.BufferGuaranteed, fresh, Receiver.new]
  mark := by decide
  released := by simp [fresh]

theorem not_bestSeq {m : RecvMsg} (h : guaranteed m.options = true) : bestSeq m = false := by
  simp [bestSeq, h]

theorem filter_guaranteed {ms : List RecvMsg} (h : ∀ m ∈ ms, guaranteed m.options = true) :
    ms.filter bestSeq = [] :=
  List.filter_eq_nil_iff.mpr fun m hm => by simp [not_bestSeq (h m hm)]

theorem deliver (h : BestOrdered sent s) (hlen : sent.length < 2 ^ 31) {d : Datagram} (nowMs : ℕ)
    (hd : d ∈ s.wire) : BestOrdered sent (s.step (.deliver d nowMs)) := by
  have hreleased : (s.step (.deliver d nowMs)).released =
      s.released ++ (s.rx.onMessage d.seq d.options d.payload nowMs).2.released := rfl
  have hrx : (s.step (.deliver d nowMs)).rx =
      (s.rx.onMessage d.seq d.options d.payload nowMs).1 := rfl
  have hother (hg : guaranteed d.options = false) :
      (s.rx.onMessage d.seq d.options d.payload nowMs).1.BufferGuaranteed := by
    obtain ⟨-, hbuf, -⟩ := Receiver.onMessage_other s.rx d.payload nowMs
      (.inr hg : d.seq = 0 ∨ guaranteed d.options = false)
    exact fun k o p hk => h.buffer k o p (hbuf ▸ hk)
  cases hbest : bestSeq ⟨d.payload, d.options⟩ with
  | false =>
    have hmark := Receiver.onMessage_bestMark s.rx d.seq d.payload nowMs hbest
    obtain ⟨hbuf, hnone⟩ : (s.rx.onMessage d.seq d.options d.payload nowMs).1.BufferGuaranteed ∧
        (s.rx.onMessage d.seq d.options d.payload nowMs).2.released.filter bestSeq = [] := by
      cases hg : guaranteed d.options with
      | true =>
        obtain ⟨hbuf, hrel⟩ := h.buffer.onMessage hg d.seq d.payload nowMs
        exact ⟨hbuf, filter_guaranteed hrel⟩
      | false =>
        obtain ⟨-, -, hrel⟩ := Receiver.onMessage_other s.rx d.payload nowMs
          (.inr hg : d.seq = 0 ∨ guaranteed d.options = false)
        refine ⟨hother hg, ?_⟩
        rcases hrel with hrel | hrel <;> simp [hrel, hbest]
    refine ⟨h.next, h.pending, h.wire, hrx ▸ hbuf, by rw [hrx, hmark]; exact h.mark, ?_⟩
    rw [hreleased, hrx, hmark, List.filter_append, hnone, List.append_nil]
    exact h.released
  | true =>
    have hnum : Numbers sent d.seq ⟨d.payload, d.options⟩ := h.wire d hd hbest
    obtain ⟨hpos, hle⟩ := hnum.le_length
    have hg : guaranteed d.options = false := by
      simp only [bestSeq, Bool.and_eq_true, Bool.not_eq_true'] at hbest
      exact hbest.1
    rcases Receiver.onMessage_bestSeq s.rx d.payload nowMs hbest hpos (by omega)
      (h.mark.trans_lt hlen) with ⟨hnone, hmark⟩ | ⟨hlt, hone, hmark⟩
    · refine ⟨h.next, h.pending, h.wire, hrx ▸ hother hg, by rw [hrx, hmark]; exact h.mark, ?_⟩
      rw [hreleased, hrx, hmark, hnone, List.append_nil]
      exact h.released
    · refine ⟨h.next, h.pending, h.wire, hrx ▸ hother hg, by rw [hrx, hmark]; exact hle, ?_⟩
      have hlast : sent.take d.seq.toNat =
          sent.take (d.seq.toNat - 1) ++ [⟨d.payload, d.options⟩] := by
        have hidx : d.seq.toNat - 1 < sent.length := by omega
        have hget : sent[d.seq.toNat - 1] = ⟨d.payload, d.options⟩ :=
          Option.some.inj ((List.getElem?_eq_getElem hidx).symm.trans hnum.2)
        rw [← hget, List.take_append_getElem hidx, Nat.sub_add_cancel hpos]
      have hfront : (sent.take s.rx.bestMark).Sublist (sent.take (d.seq.toNat - 1)) :=
        (List.take_prefix_take_left (by omega)).sublist
      rw [hreleased, hrx, hmark, hone, List.filter_append, hlast]
      refine (h.released.trans hfront).append ?_
      simp [hbest]

theorem send_bestSeq (h : BestOrdered sent s) {payload : Bytes} {options : UInt32} (nowMs : ℕ)
    (hbest : bestSeq ⟨payload, options⟩ = true) (hlen : sent.length + 1 < 2 ^ 31) :
    BestOrdered (sent ++ [⟨payload, options⟩]) (s.step (.send payload options nowMs)) := by
  obtain ⟨hg, hs⟩ : guaranteed options = false ∧ sequential options = true := by
    simpa [bestSeq] using hbest
  have hsend : s.tx.send payload options nowMs =
      ({ s.tx with nextBseq := s.tx.nextBseq + 1 }, ⟨s.tx.nextBseq, payload, options, none⟩) := by
    simp [Sender.send, partyReliable, hg, hs]
  have hpre := List.prefix_append sent [(⟨payload, options⟩ : RecvMsg)]
  have hwire : (s.step (.send payload options nowMs)).wire =
      s.wire ++ [⟨s.tx.nextBseq, options, payload⟩] := by
    simp [step, hsend, Outgoing.datagram]
  refine ⟨?_, ?_, ?_, h.buffer, ?_, ?_⟩
  · show (s.tx.send payload options nowMs).1.nextBseq.toNat = _
    rw [hsend, List.length_append, List.length_singleton, ← h.next]
    exact toNat_add_one (by have := h.next; omega)
  · show ∀ k p, (s.tx.send payload options nowMs).1.pending.get? k = some p → _
    rw [hsend]
    exact h.pending
  · intro d hd hdb
    rw [hwire, List.mem_append, List.mem_singleton] at hd
    rcases hd with hd | rfl
    · exact (h.wire d hd hdb).mono hpre
    · exact .next h.next _
  · rw [List.length_append]
    exact h.mark.trans (Nat.le_add_right _ _)
  · show (s.released.filter bestSeq).Sublist
      ((sent ++ [(⟨payload, options⟩ : RecvMsg)]).take s.rx.bestMark)
    rw [List.take_append_of_le_length h.mark]
    exact h.released

theorem send_other (h : BestOrdered sent s) {payload : Bytes} {options : UInt32} (nowMs : ℕ)
    (hbest : bestSeq ⟨payload, options⟩ = false) :
    BestOrdered sent (s.step (.send payload options nowMs)) := by
  obtain ⟨hnext, hpending, hopts⟩ : (s.tx.send payload options nowMs).1.nextBseq = s.tx.nextBseq ∧
      (∀ k p, (s.tx.send payload options nowMs).1.pending.get? k = some p →
        guaranteed p.options = true) ∧
      (s.tx.send payload options nowMs).2.datagram.msg = ⟨payload, options⟩ := by
    by_cases hg : guaranteed options = true
    · obtain ⟨-, hout, hget⟩ := Sender.send_guaranteed s.tx payload nowMs hg
      refine ⟨by simp [Sender.send, partyReliable, hg], fun k p hk => ?_, by rw [hout]; rfl⟩
      rcases hget k p hk with ⟨-, hp⟩ | hold
      · have hopts : p.options = options := congrArg RecvMsg.options hp
        rw [hopts]
        exact hg
      · exact h.pending k p hold
    · have hs : sequential options = false := by
        simpa [bestSeq, hg] using hbest
      have hsend : s.tx.send payload options nowMs = (s.tx, ⟨0, payload, options, none⟩) := by
        simp [Sender.send, partyReliable, hg, hs]
      rw [hsend]
      exact ⟨rfl, h.pending, rfl⟩
  refine ⟨?_, hpending, ?_, h.buffer, h.mark, h.released⟩
  · show (s.tx.send payload options nowMs).1.nextBseq.toNat = _
    rw [hnext]
    exact h.next
  · intro d hd hdb
    have hd' : d ∈ s.wire ++ [(s.tx.send payload options nowMs).2.datagram] := hd
    rcases List.mem_append.mp hd' with hd | hd
    · exact h.wire d hd hdb
    · rw [List.mem_singleton.mp hd, hopts, hbest] at hdb
      cases hdb

theorem due (h : BestOrdered sent s) (nowMs : ℕ) : BestOrdered sent (s.step (.due nowMs)) := by
  refine ⟨h.next, fun k p hk => ?_, fun d hd hdb => ?_, h.buffer, h.mark, h.released⟩
  · have hget : (s.tx.due nowMs).1.pending.get? k = some p := hk
    rw [Sender.due_get?, Option.map_eq_some_iff] at hget
    obtain ⟨q, hq, rfl⟩ := hget
    have hopts : (Sender.tick nowMs k q).1.options = q.options :=
      congrArg RecvMsg.options (Sender.tick_msg nowMs k q)
    rw [hopts]
    exact h.pending k q hq
  · simp only [step, List.mem_append, List.mem_map, List.mem_filter, Bool.not_eq_true'] at hd
    rcases hd with hd | ⟨x, ⟨hx, hsent⟩, rfl⟩
    · exact h.wire d hd hdb
    · obtain ⟨p, hp, hmsg⟩ := Sender.due_retransmit hx hsent
      rw [hmsg, not_bestSeq (h.pending _ p hp)] at hdb
      cases hdb

theorem receiver (h : BestOrdered sent s) {s' : Link} (htx : s'.tx = s.tx) (hwire : s'.wire = s.wire)
    (hbuf : s'.rx.gBuf = s.rx.gBuf) (hmark : s'.rx.bestMark = s.rx.bestMark)
    (hreleased : s'.released = s.released) : BestOrdered sent s' :=
  ⟨htx ▸ h.next, htx ▸ h.pending, hwire ▸ h.wire, fun k o p hk => h.buffer k o p (hbuf ▸ hk),
    hmark ▸ h.mark, by rw [hmark, hreleased]; exact h.released⟩

theorem step (h : BestOrdered sent s) (e : LinkEvent) (he : s.Delivers e)
    (hlen : (sent ++ bestSent [e]).length < 2 ^ 31) :
    BestOrdered (sent ++ bestSent [e]) (s.step e) := by
  have hquiet {sent' : List RecvMsg} (hnone : sent' = []) {s' : Link} (hs : BestOrdered sent s') :
      BestOrdered (sent ++ sent') s' := by
    rw [hnone, List.append_nil]
    exact hs
  cases e with
  | send payload options nowMs =>
    cases hbest : bestSeq ⟨payload, options⟩ with
    | true =>
      have hone : bestSent [.send payload options nowMs] = [⟨payload, options⟩] := by
        simp [bestSent, hbest]
      rw [hone] at hlen ⊢
      exact h.send_bestSeq nowMs hbest (by simpa using hlen)
    | false => exact hquiet (by simp [bestSent, hbest]) (h.send_other nowMs hbest)
  | due nowMs => exact hquiet rfl (h.due nowMs)
  | deliver d nowMs =>
    refine hquiet rfl (h.deliver ?_ nowMs he)
    rw [List.length_append] at hlen
    omega
  | ackValue => exact hquiet rfl (h.receiver rfl rfl rfl rfl rfl)
  | piggybackAck => exact hquiet rfl (h.receiver rfl rfl rfl rfl rfl)
  | forcedAck nowMs =>
    obtain ⟨-, hbuf, -⟩ := forcedAck_spec s.rx nowMs
    have hmark : (s.rx.forcedAck nowMs).1.bestMark = s.rx.bestMark := by
      unfold Receiver.forcedAck
      split
      · split_ifs <;> rfl
      · rfl
    exact hquiet rfl (h.receiver rfl rfl hbuf hmark rfl)
  | onAck ack =>
    refine hquiet rfl ⟨h.next, fun k p hk => h.pending k p (Sender.onAck_get? hk), h.wire, h.buffer,
      h.mark, h.released⟩

end BestOrdered

theorem bestSent_append (es fs : List LinkEvent) :
    bestSent (es ++ fs) = bestSent es ++ bestSent fs := List.filterMap_append

/-! ### Two runs that differ in best-effort deliveries -/

/-- A best-effort datagram arrives. -/
def BestDelivery : LinkEvent → Prop
  | .deliver d _ => guaranteed d.options = false
  | _ => False

instance : DecidablePred BestDelivery
  | .deliver d _ => inferInstanceAs (Decidable (guaranteed d.options = false))
  | .send .. | .onAck _ | .due _ | .ackValue | .piggybackAck | .forcedAck _ =>
      inferInstanceAs (Decidable False)

end Link

/-- What the receiver keeps for the guaranteed messages. -/
def Receiver.core (r : Receiver) : UInt32 × OrdMap UInt32 (UInt32 × Bytes) × Option ℕ :=
  (r.gNext, r.gBuf, r.ackDueAt)

namespace Receiver

/-- A receiver with other best-effort state. -/
def withBest (r : Receiver) (last : UInt32) (seen : Bool) (evicted : Option UInt32) : Receiver :=
  { r with beLast := last, beSeen := seen, lastEvicted := evicted }

theorem eq_withBest {r r' : Receiver} (h : r'.core = r.core) :
    r' = r.withBest r'.beLast r'.beSeen r'.lastEvicted := by
  obtain ⟨hnext, hbuf, hdue⟩ : r'.gNext = r.gNext ∧ r'.gBuf = r.gBuf ∧ r'.ackDueAt = r.ackDueAt := by
    simpa [core] using h
  cases r'
  simp only at hnext hbuf hdue
  rw [hnext, hbuf, hdue]
  rfl

theorem onGuaranteed_withBest (r : Receiver) (last : UInt32) (seen : Bool) (evicted : Option UInt32)
    (seq options : UInt32) (payload : Bytes) :
    ((r.withBest last seen evicted).onGuaranteed seq options payload).1.core =
        (r.onGuaranteed seq options payload).1.core ∧
      ((r.withBest last seen evicted).onGuaranteed seq options payload).2 =
        (r.onGuaranteed seq options payload).2 := by
  have hstore (p : Bytes) : ∃ last' seen' evicted', (r.withBest last seen evicted).store seq options p =
      (r.store seq options p).withBest last' seen' evicted' := by
    have hsame : (r.withBest last seen evicted).toEvict = r.toEvict := rfl
    unfold store
    rw [hsame]
    cases r.toEvict with
    | none => exact ⟨last, seen, evicted, rfl⟩
    | some k => exact ⟨last, seen, some k, rfl⟩
  have hnext : (r.withBest last seen evicted).gNext = r.gNext := rfl
  have hbuf : (r.withBest last seen evicted).gBuf = r.gBuf := rfl
  unfold onGuaranteed
  simp only [hnext, hbuf]
  split_ifs
  · exact ⟨rfl, rfl⟩
  · exact ⟨rfl, rfl⟩
  · obtain ⟨last', seen', evicted', h⟩ := hstore payload
    rw [h]
    exact ⟨rfl, rfl⟩
  · obtain ⟨last', seen', evicted', h⟩ := hstore []
    rw [h]
    exact ⟨rfl, rfl⟩

/-- A guaranteed datagram has the same effect whatever the best-effort state is. -/
theorem onMessage_core {r r' : Receiver} (h : r'.core = r.core) {options : UInt32}
    (hg : guaranteed options = true) (seq : UInt32) (payload : Bytes) (nowMs : ℕ) :
    (r'.onMessage seq options payload nowMs).1.core = (r.onMessage seq options payload nowMs).1.core ∧
      (r'.onMessage seq options payload nowMs).2 = (r.onMessage seq options payload nowMs).2 := by
  rw [eq_withBest h]
  by_cases h0 : seq = 0
  · simp [onMessage, h0, withBest, core]
  · have harm : (({ r.withBest r'.beLast r'.beSeen r'.lastEvicted with
        lastEvicted := none } : Receiver).armAck options nowMs) =
        (({ r with lastEvicted := none } : Receiver).armAck options nowMs).withBest r'.beLast r'.beSeen
          none := by
      unfold armAck withBest
      split_ifs <;> rfl
    simp only [onMessage, partyReliable, h0, hg, beq_iff_eq, Bool.not_true, Bool.false_or, if_false,
      if_true]
    rw [harm]
    exact onGuaranteed_withBest ..

theorem onMessage_best_core (r : Receiver) {options : UInt32} (hg : guaranteed options = false)
    (seq : UInt32) (payload : Bytes) (nowMs : ℕ) :
    (r.onMessage seq options payload nowMs).1.core = r.core := by
  unfold onMessage
  simp only [hg, Bool.false_eq_true, if_false]
  split_ifs <;> rfl

theorem forcedAck_core {r r' : Receiver} (h : r'.core = r.core) (nowMs : ℕ) :
    (r'.forcedAck nowMs).1.core = (r.forcedAck nowMs).1.core ∧
      (r'.forcedAck nowMs).2 = (r.forcedAck nowMs).2 := by
  rw [eq_withBest h]
  have hdue : (r.withBest r'.beLast r'.beSeen r'.lastEvicted).ackDueAt = r.ackDueAt := rfl
  unfold forcedAck
  rw [hdue]
  split
  · split_ifs <;> exact ⟨rfl, rfl⟩
  · exact ⟨rfl, rfl⟩

end Receiver

namespace Link

/-- Two pairings that differ in best-effort state and best-effort releases only. -/
structure SameButBest (s t : Link) : Prop where
  tx : t.tx = s.tx
  core : t.rx.core = s.rx.core
  wire : t.wire = s.wire
  acks : t.acks = s.acks
  released : (t.released.filter fun m => guaranteed m.options) =
    s.released.filter fun m => guaranteed m.options

namespace SameButBest

variable {s t : Link}

theorem best (h : SameButBest s t) {e : LinkEvent} (he : BestDelivery e) :
    SameButBest (s.step e) t ∧ SameButBest s (t.step e) := by
  cases e with
  | deliver d nowMs =>
    have hg : guaranteed d.options = false := he
    have hquiet (s : Link) : ((s.step (.deliver d nowMs)).released.filter fun m => guaranteed m.options) =
        s.released.filter fun m => guaranteed m.options := by
      obtain ⟨-, -, hrel⟩ := Receiver.onMessage_other s.rx d.payload nowMs
        (.inr hg : d.seq = 0 ∨ guaranteed d.options = false)
      show ((s.released ++ (s.rx.onMessage d.seq d.options d.payload nowMs).2.released).filter _) = _
      rcases hrel with hrel | hrel <;> simp [hrel, hg]
    have hcore (s : Link) : (s.step (.deliver d nowMs)).rx.core = s.rx.core :=
      s.rx.onMessage_best_core hg d.seq d.payload nowMs
    exact ⟨⟨h.tx, h.core.trans (hcore s).symm, h.wire, h.acks, h.released.trans (hquiet s).symm⟩,
      ⟨h.tx, (hcore t).trans h.core, h.wire, h.acks, (hquiet t).trans h.released⟩⟩
  | send | due | ackValue | piggybackAck | forcedAck | onAck => cases he

theorem step (h : SameButBest s t) (e : LinkEvent) (he : ¬BestDelivery e) :
    SameButBest (s.step e) (t.step e) := by
  have hack : t.rx.ackValue = s.rx.ackValue :=
    congrArg (fun c : UInt32 × OrdMap UInt32 (UInt32 × Bytes) × Option ℕ => c.1 - 1) h.core
  cases e with
  | send payload options nowMs =>
    refine ⟨?_, h.core, ?_, h.acks, h.released⟩
    · simp only [Link.step, h.tx]
    · simp only [Link.step, h.tx, h.wire]
  | due nowMs =>
    refine ⟨?_, h.core, ?_, h.acks, h.released⟩
    · simp only [Link.step, h.tx]
    · simp only [Link.step, h.tx, h.wire]
  | deliver d nowMs =>
    have hg : guaranteed d.options = true := by simpa [BestDelivery] using he
    obtain ⟨hcore, hout⟩ := Receiver.onMessage_core h.core hg d.seq d.payload nowMs
    refine ⟨h.tx, hcore, h.wire, h.acks, ?_⟩
    simp only [Link.step, hout, List.filter_append, h.released]
  | ackValue => exact ⟨h.tx, h.core, h.wire, by simp only [Link.step, hack, h.acks], h.released⟩
  | piggybackAck =>
    refine ⟨h.tx, ?_, h.wire, ?_, h.released⟩
    · have hrx := h.core
      simp only [Receiver.core, Prod.mk.injEq] at hrx
      simp only [Link.step, Receiver.piggybackAck, Receiver.core, hrx.1, hrx.2.1]
    · simp only [Link.step, Receiver.piggybackAck, hack, h.acks]
  | forcedAck nowMs =>
    obtain ⟨hcore, hout⟩ := Receiver.forcedAck_core h.core nowMs
    exact ⟨h.tx, hcore, h.wire, by simp only [Link.step, hout, h.acks], h.released⟩
  | onAck ack => exact ⟨by simp only [Link.step, h.tx], h.core, h.wire, h.acks, h.released⟩

end SameButBest

/-- What the receiver keeps for the guaranteed messages after each event that is no best-effort
delivery. -/
def coreLog : Link → List LinkEvent → List (UInt32 × OrdMap UInt32 (UInt32 × Bytes) × Option ℕ)
  | _, [] => []
  | s, e :: es => (if BestDelivery e then [] else [(s.step e).rx.core]) ++ coreLog (s.step e) es

theorem SameButBest.coreLog {s t : Link} (h : SameButBest s t) {es fs : List LinkEvent}
    (hd : Differ BestDelivery es fs) : Link.coreLog t fs = Link.coreLog s es := by
  induction hd generalizing s t with
  | nil => rfl
  | both e _ ih =>
    by_cases he : BestDelivery e
    · have hstep := (h.best he).1.best he
      simp only [Link.coreLog, he, if_true, ih hstep.2]
    · have hstep := h.step e he
      simp only [Link.coreLog, he, if_false, ih hstep, hstep.core]
  | left he _ ih => simp only [Link.coreLog, he, if_true, List.nil_append, ih (h.best he).1]
  | right he _ ih => simp only [Link.coreLog, he, if_true, List.nil_append, ih (h.best he).2]

/-- In every run of a fresh pairing with fewer than `2 ^ 31` best-effort sequential messages, those
that are released are a subsequence of those sent. A best-effort datagram changes nothing of what the
receiver keeps for the guaranteed messages, and a run with the same other events keeps the same after
each of them and releases the same guaranteed messages. -/
theorem bestSeq_ordered_and_independent (es : List LinkEvent)
    (h : Along Link.step Delivers fresh es) (hlen : (bestSent es).length < 2 ^ 31) :
    ((Lib.run Link.step fresh es).released.filter bestSeq).Sublist (bestSent es) ∧
      (∀ (s : Link) (e : LinkEvent), BestDelivery e → (s.step e).rx.core = s.rx.core) ∧
      ∀ fs : List LinkEvent,
        fs.filter (fun e => ¬BestDelivery e) = es.filter (fun e => ¬BestDelivery e) →
          coreLog fresh fs = coreLog fresh es ∧
            ((Lib.run Link.step fresh fs).released.filter fun m => guaranteed m.options) =
              (Lib.run Link.step fresh es).released.filter fun m => guaranteed m.options := by
  refine ⟨?_, ?_, fun fs hfs => ?_⟩
  · have hordered : BestOrdered (bestSent es) (Lib.run Link.step fresh es) := by
      refine @run_history _ _ _ _ (fun es s => (bestSent es).length < 2 ^ 31 →
        BestOrdered (bestSent es) s) _ (fun es e hs he hlen => ?_) es
        (fun _ => BestOrdered.initial) h hlen
      rw [bestSent_append] at hlen ⊢
      refine (hs ?_).step e he hlen
      rw [List.length_append] at hlen
      omega
    exact hordered.released.trans (List.take_sublist _ _)
  · intro s e he
    cases e with
    | deliver d nowMs => exact s.rx.onMessage_best_core he d.seq d.payload nowMs
    | send | due | ackValue | piggybackAck | forcedAck | onAck => cases he
  · have hsame : SameButBest fresh fresh := ⟨rfl, rfl, rfl, rfl, rfl⟩
    have hdiffer : Differ BestDelivery es fs := .of_filter_eq hfs.symm
    refine ⟨hsame.coreLog hdiffer, ?_⟩
    have hfree : ∀ (s : Link) (es : List LinkEvent), Along Link.step (fun _ _ => True) s es := by
      intro s es
      induction es generalizing s with
      | nil => trivial
      | cons e es ih => exact ⟨trivial, ih _⟩
    exact (run_related (fun s t e hs _ _ => by
        by_cases he : BestDelivery e
        · exact ((hs.best he).1.best he).2
        · exact hs.step e he)
      (fun s t e he hs _ => (hs.best he).1) (fun s t e he hs _ => (hs.best he).2) hdiffer hsame
      (hfree _ _) (hfree _ _)).released

/-- Two best-effort messages that overtake each other around a guaranteed one. -/
def overtakenBest : List LinkEvent :=
  [.send [1] 2 0, .send [2] 3 0, .send [3] 2 0, .deliver ⟨2, 2, [3]⟩ 1, .deliver ⟨1, 3, [2]⟩ 1,
    .deliver ⟨1, 2, [1]⟩ 2, .deliver ⟨2, 2, [3]⟩ 3]

theorem overtakenBest_released :
    (Lib.run Link.step fresh overtakenBest).released = [⟨[3], 2⟩, ⟨[2], 3⟩] ∧
      ((Lib.run Link.step fresh overtakenBest).released.filter bestSeq).Sublist
        (bestSent overtakenBest) :=
  ⟨by decide, (bestSeq_ordered_and_independent overtakenBest (by decide) (by decide)).1⟩

end Link

end GbfrLan.Party
