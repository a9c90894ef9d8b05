import GbfrLan.Party.Reliable

/-!
# What a sender has numbered

The number of a guaranteed message is its position in the send order. `Tracks`
follows a sender against that order: every message it numbered is pending under its
number, or is gone from the pending map for a reason the caller names.
-/
namespace GbfrLan.Party
open Lib

/-- One data datagram of a pairing. -/
structure Datagram where
  seq : UInt32
  options : UInt32
  payload : Bytes
  deriving DecidableEq, Repr

def Datagram.msg (d : Datagram) : RecvMsg := ⟨d.payload, d.options⟩

def Outgoing.datagram (o : Outgoing) : Datagram := ⟨o.seq, o.options, o.payload⟩

def Retransmit.datagram (x : Retransmit) : Datagram := ⟨x.seq, x.options, x.payload⟩

def Pending.msg (p : Pending) : RecvMsg := ⟨p.payload, p.options⟩

/-- The guaranteed messages that reached a receiver, by sequence number. -/
structure Arrivals where
  arrived : UInt32 → RecvMsg → Prop
  guaranteed : ∀ k m, arrived k m → guaranteed m.options = true
  nonempty : ∀ k m, arrived k m → m.payload ≠ []

/-- The guaranteed messages of a pairing by their position in the send order. -/
def arrivalsOf (sent : List RecvMsg) : Arrivals where
  arrived k m := (0 < k.toNat ∧ sent[k.toNat - 1]? = some m) ∧
    guaranteed m.options = true ∧ m.payload ≠ []
  guaranteed _ _ h := h.2.1
  nonempty _ _ h := h.2.2

theorem arrivalsOf_mono {sent sent' : List RecvMsg} (h : sent <+: sent') {k : UInt32}
    {m : RecvMsg} (hk : (arrivalsOf sent).arrived k m) : (arrivalsOf sent').arrived k m := by
  obtain ⟨⟨hpos, hget⟩, hm⟩ := hk
  obtain ⟨rest, rfl⟩ := h
  have hlt : k.toNat - 1 < sent.length := (List.getElem?_eq_some_iff.mp hget).1
  exact ⟨⟨hpos, by rw [List.getElem?_append_left hlt, hget]⟩, hm⟩

theorem arrived_le_length {sent : List RecvMsg} {k : UInt32} {m : RecvMsg}
    (hk : (arrivalsOf sent).arrived k m) : 0 < k.toNat ∧ k.toNat ≤ sent.length := by
  obtain ⟨⟨hpos, hget⟩, -⟩ := hk
  have hlt : k.toNat - 1 < sent.length := (List.getElem?_eq_some_iff.mp hget).1
  omega

namespace Sender

variable {s : Sender}

theorem makeRoom_get? {k : UInt32} {p : Pending} (h : s.makeRoom.get? k = some p) :
    s.pending.get? k = some p := by
  unfold makeRoom at h
  split at h
  · rw [OrdMap.get?_erase] at h
    split_ifs at h
    exact h
  · exact h

/-- A guaranteed send takes the next number and files the message under it. -/
theorem send_guaranteed (s : Sender) (payload : Bytes) {options : UInt32} (nowMs : ℕ)
    (hg : guaranteed options = true) :
    (s.send payload options nowMs).1.nextGseq = s.nextGseq + 1 ∧
      (s.send payload options nowMs).2.datagram = ⟨s.nextGseq, options, payload⟩ ∧
      ∀ k p, (s.send payload options nowMs).1.pending.get? k = some p →
        (k = s.nextGseq ∧ p.msg = ⟨payload, options⟩) ∨ s.pending.get? k = some p := by
  refine ⟨by simp [send, partyReliable, hg], by simp [send, partyReliable, hg, Outgoing.datagram], ?_⟩
  intro k p hk
  simp only [send, partyReliable, hg, Bool.not_true, Bool.false_eq_true, if_false, if_true,
    OrdMap.get?_insert] at hk
  split_ifs at hk with heq
  · simp only [Option.some.injEq] at hk
    exact .inl ⟨heq, by rw [← hk]; rfl⟩
  · exact .inr (makeRoom_get? hk)

/-- A guaranteed send keeps every pending message but the one it evicts. -/
theorem send_keeps (s : Sender) (payload : Bytes) {options : UInt32} (nowMs : ℕ)
    (hg : guaranteed options = true) (k : UInt32)
    (hk : k = s.nextGseq ∨ s.pending.contains k = true) :
    (s.send payload options nowMs).1.pending.contains k = true ∨
      k ∈ ((s.send payload options nowMs).2.evicted.map Prod.fst).toList := by
  simp only [send, partyReliable, hg, Bool.not_true, Bool.false_eq_true, if_false, if_true,
    OrdMap.contains, OrdMap.get?_insert]
  by_cases heq : k = s.nextGseq
  · exact .inl (by rw [if_pos heq]; rfl)
  · have hold : s.pending.contains k = true := hk.resolve_left heq
    rw [if_neg heq]
    unfold makeRoom
    cases he : s.toEvict with
    | none => exact .inl hold
    | some e =>
      by_cases hke : k = e.1
      · exact .inr (by simp [hke])
      · left
        rw [OrdMap.get?_erase, if_neg hke]
        exact hold

theorem send_other (s : Sender) (payload : Bytes) {options : UInt32} (nowMs : ℕ)
    (hg : guaranteed options = false) :
    (s.send payload options nowMs).1.nextGseq = s.nextGseq ∧
      (s.send payload options nowMs).1.pending = s.pending ∧
      (s.send payload options nowMs).2.options = options ∧
      (s.send payload options nowMs).2.evicted = none := by
  simp only [send, partyReliable, hg, Bool.not_true, Bool.false_eq_true, if_false]
  split_ifs <;> exact ⟨rfl, rfl, rfl, rfl⟩

theorem tick_msg (nowMs : ℕ) (k : UInt32) (p : Pending) : (tick nowMs k p).1.msg = p.msg := by
  unfold tick
  split_ifs <;> rfl

theorem tick_datagram {nowMs : ℕ} {k : UInt32} {p : Pending} {x : Retransmit}
    (h : (tick nowMs k p).2 = some x) (hx : x.gaveUp = false) :
    x.seq = k ∧ x.datagram.msg = p.msg := by
  unfold tick at h
  split_ifs at h
  · simp only [Option.some.injEq] at h
    rw [← h] at hx
    cases hx
  · simp only [Option.some.injEq] at h
    exact ⟨by rw [← h], by rw [← h]; rfl⟩

@[simp] theorem due_nextGseq (nowMs : ℕ) : (s.due nowMs).1.nextGseq = s.nextGseq := rfl

theorem due_get? (nowMs : ℕ) (k : UInt32) :
    (s.due nowMs).1.pending.get? k = (s.pending.get? k).map fun p => (tick nowMs k p).1 := by
  simp [due, partyReliable]

/-- Every retransmission that is sent repeats a pending message. -/
theorem due_retransmit {nowMs : ℕ} {x : Retransmit} (hx : x ∈ (s.due nowMs).2)
    (hsent : x.gaveUp = false) : ∃ p, s.pending.get? x.seq = some p ∧ x.datagram.msg = p.msg := by
  simp only [due, partyReliable, Bool.not_true, Bool.false_eq_true, if_false,
    List.mem_filterMap] at hx
  obtain ⟨⟨k, p⟩, he, htick⟩ := hx
  obtain ⟨hk, hmsg⟩ := tick_datagram htick hsent
  exact ⟨p, by rw [hk, ← OrdMap.mem_entries_iff]; exact he, hmsg⟩

theorem onAck_get? {ack k : UInt32} {p : Pending}
    (h : (s.onAck ack).1.pending.get? k = some p) : s.pending.get? k = some p :=
  OrdMap.get?_dropWhile h

/-- An ack removes only entries that are not after it. -/
theorem onAck_removed {ack k : UInt32} {p : Pending} (h : s.pending.get? k = some p)
    (hgone : (s.onAck ack).1.pending.get? k = none) : seqLe k ack = true := by
  by_contra hle
  have hkeep := OrdMap.get?_dropWhile_of_neg (p := fun k _ => seqLe k ack) h (by simpa using hle)
  unfold onAck at hgone
  rw [hkeep] at hgone
  cases hgone

/-- What a sender knows about the messages it numbered: numbers are positions in the
send order, the pending map holds the messages sent, and each of them is pending or
`gone` for a reason. -/
structure Tracks (tx : Sender) (sent : List RecvMsg) (gone : UInt32 → Prop) : Prop where
  bound : sent.length < 2 ^ 31
  next : tx.nextGseq.toNat = sent.length + 1
  pending : ∀ k p, tx.pending.get? k = some p → (arrivalsOf sent).arrived k p.msg
  conserved : ∀ k : UInt32, 0 < k.toNat → k.toNat ≤ sent.length →
    tx.pending.contains k = true ∨ gone k

namespace Tracks

variable {tx : Sender} {sent : List RecvMsg} {gone gone' : UInt32 → Prop}

theorem initial (gone : UInt32 → Prop) : Tracks Sender.new [] gone where
  bound := by simp
  next := rfl
  pending := by simp [Sender.new]
  conserved := by simp; omega

theorem mono (h : Tracks tx sent gone) (hgone : ∀ k, gone k → gone' k) : Tracks tx sent gone' :=
  { h with conserved := fun k hpos hle => (h.conserved k hpos hle).imp_right (hgone k) }

/-- The number of the next message is the position it takes in the send order. -/
theorem arrived_next (h : Tracks tx sent gone) {m : RecvMsg}
    (hg : guaranteed m.options = true) (hne : m.payload ≠ []) :
    (arrivalsOf (sent ++ [m])).arrived tx.nextGseq m := by
  refine ⟨⟨?_, ?_⟩, hg, hne⟩
  · rw [h.next]
    omega
  · rw [h.next, Nat.add_sub_cancel]
    simp

theorem send_guaranteed (h : Tracks tx sent gone) {payload : Bytes} {options : UInt32}
    (nowMs : ℕ) (hg : guaranteed options = true) (hne : payload ≠ [])
    (hlen : sent.length + 1 < 2 ^ 31) (hgone : ∀ k, gone k → gone' k)
    (hevict : ∀ k ∈ ((tx.send payload options nowMs).2.evicted.map Prod.fst).toList, gone' k) :
    Tracks (tx.send payload options nowMs).1 (sent ++ [⟨payload, options⟩]) gone' := by
  obtain ⟨hnext, -, hget⟩ := Sender.send_guaranteed tx payload nowMs hg
  have harr := h.arrived_next (m := ⟨payload, options⟩) hg hne
  have hnum := h.next
  constructor
  · rw [List.length_append, List.length_singleton]
    exact hlen
  · rw [hnext, toNat_add_one (by omega), hnum, List.length_append, List.length_singleton]
  · intro k p hk
    rcases hget k p hk with ⟨rfl, hp⟩ | hk
    · rw [hp]
      exact harr
    · exact arrivalsOf_mono (List.prefix_append _ _) (h.pending k p hk)
  · intro k hpos hle
    rw [List.length_append, List.length_singleton] at hle
    have hold : (k = tx.nextGseq ∨ tx.pending.contains k = true) ∨ gone k := by
      by_cases heq : k = tx.nextGseq
      · exact .inl (.inl heq)
      · have hlt : k.toNat ≤ sent.length := by
          have hne : k.toNat ≠ tx.nextGseq.toNat := fun h => heq (UInt32.toNat_inj.mp h)
          omega
        exact (h.conserved k hpos hlt).imp_left .inr
    cases hold with
    | inl hp => exact (Sender.send_keeps tx payload nowMs hg k hp).imp_right (hevict k)
    | inr hp => exact .inr (hgone k hp)

theorem send_other (h : Tracks tx sent gone) {payload : Bytes} {options : UInt32} (nowMs : ℕ)
    (hg : guaranteed options = false) : Tracks (tx.send payload options nowMs).1 sent gone := by
  obtain ⟨hnext, hpend, -⟩ := Sender.send_other tx payload nowMs hg
  constructor
  · exact h.bound
  · rw [hnext]
    exact h.next
  · rw [hpend]
    exact h.pending
  · rw [hpend]
    exact h.conserved

theorem due (h : Tracks tx sent gone) (nowMs : ℕ) : Tracks (tx.due nowMs).1 sent gone := by
  constructor
  · exact h.bound
  · exact h.next
  · intro k p hk
    rw [due_get?, Option.map_eq_some_iff] at hk
    obtain ⟨q, hq, rfl⟩ := hk
    rw [tick_msg]
    exact h.pending k q hq
  · intro k hpos hle
    have hsame : (tx.due nowMs).1.pending.contains k = tx.pending.contains k := by
      simp [OrdMap.contains, due_get?]
    rw [hsame]
    exact h.conserved k hpos hle

theorem onAck (h : Tracks tx sent gone) (ack : UInt32) (hgone : ∀ k, gone k → gone' k)
    (hcleared : ∀ k p, tx.pending.get? k = some p →
      (tx.onAck ack).1.pending.get? k = none → gone' k) :
    Tracks (tx.onAck ack).1 sent gone' := by
  constructor
  · exact h.bound
  · exact h.next
  · intro k p hk
    exact h.pending k p (onAck_get? hk)
  · intro k hpos hle
    cases h.conserved k hpos hle with
    | inl hp =>
      obtain ⟨p, hp⟩ := (OrdMap.contains_iff _ _).mp hp
      cases hk : (tx.onAck ack).1.pending.get? k with
      | some q => exact .inl ((OrdMap.contains_iff _ _).mpr ⟨q, hk⟩)
      | none => exact .inr (hcleared k p hp hk)
    | inr hp => exact .inr (hgone k hp)

/-- Below `2 ^ 31` messages, an ack removes only numbers up to its value. -/
theorem removed_le (h : Tracks tx sent gone) {ack k : UInt32} {p : Pending}
    (hack : ack.toNat < 2 ^ 31) (hk : tx.pending.get? k = some p)
    (hgone : (tx.onAck ack).1.pending.get? k = none) : k.toNat ≤ ack.toNat := by
  have hle := onAck_removed hk hgone
  have hkey := arrived_le_length (h.pending k p hk)
  have hbound := h.bound
  exact (seqLe_iff_le (by omega) hack).mp hle

end Tracks

end Sender

end GbfrLan.Party
