import GbfrLan.Lib.Run
import GbfrLan.Party.Stream

/-!
# The maps of a pairing

What the maps of a sender and a receiver look like after any calls. The sender gives up the oldest
pending message and an ack removes the oldest ones, so the pending numbers stay one interval up to
the newest. The receiver gives up the newest entry and the drain loop removes the ones at the
pointer, so every buffered number is beyond it.
-/
namespace GbfrLan.Party
open Lib

/-! ### The sender -/

inductive SenderCall where
  | send (payload : Bytes) (options : UInt32) (nowMs : ℕ)
  | onAck (ack : UInt32)
  | due (nowMs : ℕ)
  | dropAll

/-- The guaranteed sends since the last `dropAll`, with one more call. -/
def countCall (n : ℕ) : SenderCall → ℕ
  | .send _ options _ => if guaranteed options then n + 1 else n
  | .dropAll => 0
  | _ => n

def sentSince (calls : List SenderCall) : ℕ := run countCall 0 calls

namespace Sender

variable {s : Sender} {low : ℕ}

def call (s : Sender) : SenderCall → Sender
  | .send payload options nowMs => (s.send payload options nowMs).1
  | .onAck ack => (s.onAck ack).1
  | .due nowMs => (s.due nowMs).1
  | .dropAll => s.dropAll.1

/-- The pending numbers are those from `low` up to the newest one; there are none when `low` is the
next number. -/
structure Interval (s : Sender) (low : ℕ) : Prop where
  pos : 1 ≤ low
  le : low ≤ s.nextGseq.toNat
  keys : ∀ k, s.pending.contains k = true ↔ low ≤ k.toNat ∧ k.toNat < s.nextGseq.toNat

structure Bounded (s : Sender) : Prop where
  interval : ∃ low, s.Interval low
  room : s.pending.size ≤ pendingCap

theorem Interval.of_contains {s' : Sender} (h : s.Interval low) (hnext : s'.nextGseq = s.nextGseq)
    (hkeys : ∀ k, s'.pending.contains k = s.pending.contains k) : s'.Interval low where
  pos := h.pos
  le := by rw [hnext]; exact h.le
  keys k := by rw [hkeys, hnext]; exact h.keys k

theorem bounded_new : Sender.new.Bounded where
  interval := by
    refine ⟨1, le_refl _, le_refl _, fun k => ⟨fun hk => absurd hk (by simp [new, OrdMap.contains]), ?_⟩⟩
    have hone : Sender.new.nextGseq.toNat = 1 := rfl
    omega
  room := Nat.zero_le _

/-- The first pending number is the low end. -/
theorem Interval.first (h : s.Interval low) {e : UInt32 × Pending} (he : s.pending.first? = some e) :
    e.1.toNat = low := by
  have hin : s.pending.contains e.1 = true :=
    (OrdMap.contains_iff _ _).mpr ⟨e.2, OrdMap.first?_eq_some he⟩
  have hbounds := (h.keys e.1).mp hin
  have hnext := s.nextGseq.toNat_lt
  have hlow : (UInt32.ofNat low).toNat = low := UInt32.toNat_ofNat_of_lt' (by simp [UInt32.size]; omega)
  have hlowin : s.pending.contains (UInt32.ofNat low) = true := (h.keys _).mpr (by omega)
  have hle := UInt32.le_iff_toNat_le.mp (OrdMap.first?_le he hlowin)
  omega

/-- Making room leaves an interval, and a place for one more. -/
theorem Bounded.makeRoom (h : s.Bounded) :
    (∃ low, ({ s with pending := s.makeRoom } : Sender).Interval low) ∧
      s.makeRoom.size + 1 ≤ pendingCap := by
  obtain ⟨low, hlow⟩ := h.interval
  have hroom := h.room
  by_cases hfull : pendingCap ≤ s.pending.size
  · obtain ⟨e, hfirst⟩ := OrdMap.exists_first? (lt_of_lt_of_le (by decide : 0 < pendingCap) hfull)
    have hget := OrdMap.first?_eq_some (k := e.1) (v := e.2) hfirst
    have hin := (hlow.keys e.1).mp ((OrdMap.contains_iff _ _).mpr ⟨e.2, hget⟩)
    have hend := hlow.first hfirst
    have hmake : s.makeRoom = s.pending.erase e.1 := by
      rw [Sender.makeRoom, toEvict, if_pos hfull, hfirst]
    have hsize := OrdMap.size_erase_of_some hget
    refine ⟨⟨low + 1, by omega, by simp only; omega, fun k => ?_⟩, by rw [hmake]; omega⟩
    simp only [hmake]
    rw [OrdMap.contains_erase_iff, hlow.keys, ne_eq, ← UInt32.toNat_inj]
    omega
  · have hmake : s.makeRoom = s.pending := by rw [Sender.makeRoom, toEvict, if_neg hfull]
    rw [hmake]
    exact ⟨⟨low, hlow⟩, by omega⟩

theorem Bounded.send_guaranteed (h : s.Bounded) (payload : Bytes) {options : UInt32} (nowMs : ℕ)
    (hg : guaranteed options = true) (hnum : s.nextGseq.toNat < 2 ^ 32 - 1) :
    (s.send payload options nowMs).1.Bounded := by
  obtain ⟨⟨low, hlow⟩, hsize⟩ := h.makeRoom
  have hle := hlow.le
  simp only at hle
  have hnext := toNat_add_one hnum
  have hnone : s.makeRoom.get? s.nextGseq = none := by
    by_contra hsome
    obtain ⟨p, hp⟩ := Option.ne_none_iff_exists'.mp hsome
    have hin := (hlow.keys _).mp ((OrdMap.contains_iff _ _).mpr ⟨p, hp⟩)
    simp only at hin
    omega
  simp only [send, partyReliable, hg, Bool.not_true, Bool.false_eq_true, if_false, if_true]
  refine ⟨⟨low, hlow.pos, by simp only; omega, fun k => ?_⟩, ?_⟩
  · have hkey := hlow.keys k
    simp only at hkey ⊢
    rw [OrdMap.contains_insert_iff, hkey, hnext, ← UInt32.toNat_inj]
    omega
  · rw [OrdMap.size_insert_of_none _ hnone]
    exact hsize

theorem Bounded.onAck (h : s.Bounded) (ack : UInt32) : (s.onAck ack).1.Bounded := by
  obtain ⟨low, hlow⟩ := h.interval
  refine ⟨?_, (List.dropWhile_sublist _).length_le.trans h.room⟩
  cases hfirst : (s.pending.dropWhile fun k _ => seqLe k ack).first? with
  | none =>
    have hempty : (s.pending.dropWhile fun k _ => seqLe k ack).entries = [] :=
      List.head?_eq_none_iff.mp hfirst
    refine ⟨s.nextGseq.toNat, hlow.pos.trans hlow.le, le_refl _, fun k => ?_⟩
    have hout : (s.pending.dropWhile fun k _ => seqLe k ack).contains k = false := by
      rw [OrdMap.contains, OrdMap.get?, hempty]
      rfl
    simp only [Sender.onAck, hout, Bool.false_eq_true, false_iff]
    omega
  | some e =>
    have hget := OrdMap.first?_eq_some (k := e.1) (v := e.2) hfirst
    have hin := (hlow.keys e.1).mp ((OrdMap.contains_iff _ _).mpr ⟨e.2, OrdMap.get?_dropWhile hget⟩)
    have hpos := hlow.pos
    refine ⟨e.1.toNat, by omega, by simp only [Sender.onAck]; omega, fun k => ?_⟩
    simp only [Sender.onAck]
    rw [OrdMap.contains_dropWhile_iff (p := fun k => seqLe k ack) hfirst, hlow.keys, UInt32.le_iff_toNat_le]
    omega

theorem Bounded.due (h : s.Bounded) (nowMs : ℕ) : (s.due nowMs).1.Bounded := by
  obtain ⟨low, hlow⟩ := h.interval
  refine ⟨⟨low, hlow.of_contains rfl fun k => ?_⟩, ?_⟩
  · rw [OrdMap.contains, due_get?, Option.isSome_map]
    rfl
  · refine le_of_eq_of_le ?_ h.room
    exact List.length_map _

/-- One call, with the count of the guaranteed sends. -/
theorem Bounded.call (h : s.Bounded) {n : ℕ} (hn : s.nextGseq.toNat = n + 1) (c : SenderCall)
    (hlt : countCall n c < 2 ^ 31) :
    (s.call c).Bounded ∧ (s.call c).nextGseq.toNat = countCall n c + 1 := by
  cases c with
  | send payload options nowMs =>
    rw [countCall] at hlt ⊢
    cases hg : guaranteed options with
    | true =>
      rw [hg, if_pos rfl] at hlt
      have hnum : s.nextGseq.toNat < 2 ^ 32 - 1 := by omega
      refine ⟨h.send_guaranteed payload nowMs hg hnum, ?_⟩
      rw [Sender.call, (s.send_guaranteed payload nowMs hg).1, toNat_add_one hnum, if_pos rfl, hn]
    | false =>
      obtain ⟨hnext, hpending, -⟩ := s.send_other payload nowMs hg
      obtain ⟨low, hlow⟩ := h.interval
      refine ⟨⟨⟨low, hlow.of_contains hnext fun k => by rw [Sender.call, hpending]⟩, ?_⟩, ?_⟩
      · rw [Sender.call, hpending]
        exact h.room
      · rw [Sender.call, hnext, hn]
        rfl
  | onAck ack => exact ⟨h.onAck ack, hn⟩
  | due nowMs => exact ⟨h.due nowMs, hn⟩
  | dropAll => exact ⟨bounded_new, rfl⟩

end Sender

/-- The count before a call, when the call does not start it again. -/
theorem le_countCall (n : ℕ) {c : SenderCall} (hc : c ≠ .dropAll) : n ≤ countCall n c := by
  cases c with
  | send payload options nowMs =>
    rw [countCall]
    split_ifs
    · exact Nat.le_succ n
    · exact le_refl n
  | onAck ack => exact le_refl n
  | due nowMs => exact le_refl n
  | dropAll => exact absurd rfl hc

/-- Any calls, as long as the guaranteed sends since the last `dropAll` are counted below
`2 ^ 31`. -/
theorem Sender.bounded_run (calls : List SenderCall) (hlt : sentSince calls < 2 ^ 31) :
    (run Sender.call Sender.new calls).Bounded ∧
      (run Sender.call Sender.new calls).nextGseq.toNat = sentSince calls + 1 := by
  induction calls using List.reverseRecOn with
  | nil => exact ⟨bounded_new, rfl⟩
  | append_singleton calls c ih =>
    rw [sentSince, run_append, run_cons, run_nil] at hlt
    rw [sentSince, run_append, run_cons, run_nil, run_append, run_cons, run_nil]
    by_cases hc : c = .dropAll
    · rw [hc]
      exact ⟨bounded_new, rfl⟩
    · obtain ⟨hbounded, hnum⟩ := ih (lt_of_le_of_lt (le_countCall _ hc) hlt)
      exact hbounded.call hnum c hlt

/-! ### The receiver -/

namespace Receiver

variable {r : Receiver}

/-- A datagram at a time. -/
def hear (r : Receiver) (x : Datagram × ℕ) : Receiver :=
  (r.onMessage x.1.seq x.1.options x.1.payload x.2).1

/-- The buffer is within its cap, and everything in it lies beyond the pointer. -/
structure Bounded (r : Receiver) : Prop where
  room : r.gBuf.size ≤ oooCap
  ahead : ∀ k, r.gBuf.contains k = true → r.gNext < k

/-- With numbers below `2 ^ 31`. -/
structure Small (r : Receiver) : Prop extends Bounded r where
  pos : 1 ≤ r.gNext.toNat
  next : r.gNext.toNat ≤ 2 ^ 31
  keys : ∀ k, r.gBuf.contains k = true → k.toNat < 2 ^ 31
  best : r.beLast.toNat < 2 ^ 31

/-- The pointer has not gone back, and neither has the best-effort mark once there is one. -/
structure Onward (r r' : Receiver) : Prop where
  next : r.gNext ≤ r'.gNext
  seen : r.beSeen = true → r'.beSeen = true
  last : r.beSeen = true → r.beLast ≤ r'.beLast

theorem Onward.refl (r : Receiver) : r.Onward r := ⟨le_refl _, id, fun _ => le_refl _⟩

theorem Onward.trans {r₁ r₂ r₃ : Receiver} (h : r₁.Onward r₂) (h' : r₂.Onward r₃) : r₁.Onward r₃ where
  next := h.next.trans h'.next
  seen hs := h'.seen (h.seen hs)
  last hs := (h.last hs).trans (h'.last (h.seen hs))

theorem small_new : Receiver.new.Small where
  room := Nat.zero_le _
  ahead k hk := by simp [new, OrdMap.contains] at hk
  pos := le_refl _
  next := by decide
  keys k hk := by simp [new, OrdMap.contains] at hk
  best := by decide

/-- The drain loop with as many rounds as there are entries, none of which is behind the pointer. -/
theorem drain_bounds (fuel : ℕ) {next : UInt32} {buf : OrdMap UInt32 (UInt32 × Bytes)}
    (hfuel : buf.size = fuel) (hnext : next.toNat ≤ 2 ^ 31)
    (hkeys : ∀ k, buf.contains k = true → next.toNat ≤ k.toNat ∧ k.toNat < 2 ^ 31) :
    next.toNat ≤ (drain fuel next buf).1.toNat ∧ (drain fuel next buf).1.toNat ≤ 2 ^ 31 ∧
      (drain fuel next buf).2.1.size ≤ buf.size ∧
      ∀ k, (drain fuel next buf).2.1.contains k = true →
        (drain fuel next buf).1.toNat < k.toNat ∧ k.toNat < 2 ^ 31 := by
  induction fuel generalizing next buf with
  | zero =>
    have hempty : buf.entries = [] := List.length_eq_zero_iff.mp hfuel
    refine ⟨le_refl _, hnext, le_refl _, fun k hk => ?_⟩
    rw [drain, OrdMap.contains, OrdMap.get?, hempty] at hk
    cases hk
  | succ fuel ih =>
    unfold drain
    cases hget : buf.get? next with
    | none =>
      refine ⟨le_refl _, hnext, le_refl _, fun k hk => ?_⟩
      have hne : k ≠ next := by
        rintro rfl
        rw [OrdMap.contains, hget] at hk
        cases hk
      have hne' : k.toNat ≠ next.toNat := fun hsame => hne (UInt32.toNat_inj.mp hsame)
      have hk' := hkeys k hk
      simp only
      omega
    | some e =>
      have hin := hkeys next ((OrdMap.contains_iff _ _).mpr ⟨e, hget⟩)
      have hnum := toNat_add_one (a := next) (by omega)
      have hsize := OrdMap.size_erase_of_some hget
      have hrest : ∀ k, (buf.erase next).contains k = true →
          (next + 1).toNat ≤ k.toNat ∧ k.toNat < 2 ^ 31 := by
        intro k hk
        obtain ⟨hne, hold⟩ := OrdMap.contains_erase_iff.mp hk
        have hne' : k.toNat ≠ next.toNat := fun hsame => hne (UInt32.toNat_inj.mp hsame)
        have hk' := hkeys k hold
        omega
      obtain ⟨hmono, hle, hsmall, hahead⟩ := ih (by omega) (by omega) hrest
      exact ⟨by simp only; omega, hle, by simp only; omega, hahead⟩

theorem advance_small (hroom : r.gBuf.size ≤ oooCap) (hpos : 1 ≤ r.gNext.toNat)
    (hnext : r.gNext.toNat ≤ 2 ^ 31) (hbest : r.beLast.toNat < 2 ^ 31)
    (hkeys : ∀ k, r.gBuf.contains k = true → r.gNext.toNat ≤ k.toNat ∧ k.toNat < 2 ^ 31) :
    r.advance.1.Small ∧ r.Onward r.advance.1 := by
  obtain ⟨hmono, hle, hsize, hahead⟩ := drain_bounds r.gBuf.size rfl hnext hkeys
  refine ⟨⟨⟨hsize.trans hroom, fun k hk => ?_⟩, hpos.trans hmono, hle, fun k hk => (hahead k hk).2,
    hbest⟩, ⟨UInt32.le_iff_toNat_le.mpr hmono, id, fun _ => le_refl _⟩⟩
  exact UInt32.lt_iff_toNat_lt.mpr (hahead k hk).1

/-- Storing a new number keeps the buffer within its cap. -/
theorem store_room (hroom : r.gBuf.size ≤ oooCap) {seq : UInt32} (hnew : r.gBuf.contains seq = false)
    (options : UInt32) (payload : Bytes) : (r.store seq options payload).gBuf.size ≤ oooCap := by
  have hnone : r.gBuf.get? seq = none := by simpa [OrdMap.contains] using hnew
  unfold store toEvict
  by_cases hfull : oooCap ≤ r.gBuf.size
  · obtain ⟨e, hlast⟩ := OrdMap.exists_last? (lt_of_lt_of_le (by decide : 0 < oooCap) hfull)
    have hsize := OrdMap.size_erase_of_some (OrdMap.last?_eq_some (k := e.1) (v := e.2) hlast)
    have hgone : (r.gBuf.erase e.1).get? seq = none := by
      rw [OrdMap.get?_erase, hnone, ite_self]
    simp only [if_pos hfull, hlast, Option.map_some]
    rw [OrdMap.size_insert_of_none _ hgone]
    omega
  · simp only [if_neg hfull]
    rw [OrdMap.size_insert_of_none _ hnone]
    omega

theorem store_keys {seq options : UInt32} {payload : Bytes} {k : UInt32}
    (hk : (r.store seq options payload).gBuf.contains k = true) : k = seq ∨ r.gBuf.contains k = true := by
  obtain ⟨buf₀, hbuf, hsub⟩ := store_gBuf r seq options payload
  obtain ⟨e, he⟩ := (OrdMap.contains_iff _ _).mp hk
  rw [hbuf, OrdMap.get?_insert] at he
  split_ifs at he with heq
  · exact .inl heq
  · exact .inr ((OrdMap.contains_iff _ _).mpr ⟨e, hsub k e he⟩)

/-- Storing an entry leaves the pointer and the mark. -/
theorem onward_store (r : Receiver) (seq options : UInt32) (payload : Bytes) :
    r.Onward (r.store seq options payload) := by
  unfold store
  split <;> exact ⟨le_refl _, id, fun _ => le_refl _⟩

theorem store_beLast (r : Receiver) (seq options : UInt32) (payload : Bytes) :
    (r.store seq options payload).beLast = r.beLast := by
  unfold store
  split <;> rfl

/-- A number that is no duplicate is the pointer or beyond it. -/
theorem Small.le_of_new (h : r.Small) {seq : UInt32} (hseq : seq.toNat < 2 ^ 31)
    (hnew : seqLe seq (r.gNext - 1) = false) : r.gNext.toNat ≤ seq.toNat := by
  have hpos := h.pos
  have hnext := h.next
  have hpred := toNat_sub_one (a := r.gNext) (by omega)
  rw [← Bool.not_eq_true, seqLe_iff_le hseq (by omega)] at hnew
  omega

theorem Small.onGuaranteed (h : r.Small) {seq : UInt32} (hseq : seq.toNat < 2 ^ 31) (options : UInt32)
    (payload : Bytes) :
    (r.onGuaranteed seq options payload).1.Small ∧
      r.Onward (r.onGuaranteed seq options payload).1 := by
  have hahead : ∀ k, r.gBuf.contains k = true → r.gNext.toNat < k.toNat ∧ k.toNat < 2 ^ 31 :=
    fun k hk => ⟨UInt32.lt_iff_toNat_lt.mp (h.ahead k hk), h.keys k hk⟩
  unfold Receiver.onGuaranteed
  split_ifs with hdup hs hnext
  · exact ⟨h, .refl r⟩
  · -- the pointer moves over the message itself before the loop
    have heq : seq = r.gNext := by simpa using hnext
    rw [heq] at hseq
    have hnum := toNat_add_one (a := r.gNext) (by omega)
    have hmoved : r.Onward { r with gNext := r.gNext + 1 } :=
      ⟨UInt32.le_iff_toNat_le.mpr (by simp only; omega), id, fun _ => le_refl _⟩
    have hkeys : ∀ k, r.gBuf.contains k = true →
        (r.gNext + 1).toNat ≤ k.toNat ∧ k.toNat < 2 ^ 31 := by
      intro k hk
      have hk' := hahead k hk
      omega
    obtain ⟨hsmall, honward⟩ := advance_small (r := { r with gNext := r.gNext + 1 }) h.room
      (by simp only; omega) (by simp only; omega) h.best hkeys
    exact ⟨hsmall, hmoved.trans honward⟩
  all_goals
    simp only [Bool.or_eq_true, not_or, Bool.not_eq_true] at hdup
    have hle := h.le_of_new hseq hdup.1
  · -- beyond the pointer, and kept for later
    have hne : seq.toNat ≠ r.gNext.toNat := fun hsame => hnext (by simpa using UInt32.toNat_inj.mp hsame)
    have hstored : ∀ k, (r.store seq options payload).gBuf.contains k = true →
        r.gNext.toNat < k.toNat ∧ k.toNat < 2 ^ 31 := by
      intro k hk
      rcases store_keys hk with rfl | hold
      · omega
      · exact hahead k hold
    refine ⟨⟨⟨store_room h.room hdup.2 .., fun k hk => ?_⟩, ?_, ?_, fun k hk => (hstored k hk).2, ?_⟩,
      onward_store ..⟩
    · rw [store_gNext]
      exact UInt32.lt_iff_toNat_lt.mpr (hstored k hk).1
    · rw [store_gNext]
      exact h.pos
    · rw [store_gNext]
      exact h.next
    · rw [store_beLast]
      exact h.best
  · -- the marker may be the one at the pointer, which the loop takes out at once
    have hstored : ∀ k, (r.store seq options []).gBuf.contains k = true →
        r.gNext.toNat ≤ k.toNat ∧ k.toNat < 2 ^ 31 := by
      intro k hk
      rcases store_keys hk with rfl | hold
      · exact ⟨hle, hseq⟩
      · exact ⟨(hahead k hold).1.le, (hahead k hold).2⟩
    obtain ⟨hsmall, honward⟩ := advance_small (r := r.store seq options [])
      (store_room h.room hdup.2 ..) (by rw [store_gNext]; exact h.pos)
      (by rw [store_gNext]; exact h.next) (by rw [store_beLast]; exact h.best)
      (by rw [store_gNext]; exact hstored)
    exact ⟨hsmall, (onward_store ..).trans honward⟩

/-- Only the ack timer and the last eviction are written before the branches. -/
theorem Small.armAck (h : r.Small) (options : UInt32) (nowMs : ℕ) :
    (({ r with lastEvicted := none } : Receiver).armAck options nowMs).Small ∧
      r.Onward (({ r with lastEvicted := none } : Receiver).armAck options nowMs) := by
  unfold Receiver.armAck
  split <;> exact ⟨⟨⟨h.room, h.ahead⟩, h.pos, h.next, h.keys, h.best⟩,
    ⟨le_refl _, id, fun _ => le_refl _⟩⟩

theorem Small.hear (h : r.Small) {x : Datagram × ℕ} (hseq : x.1.seq.toNat < 2 ^ 31) :
    (r.hear x).Small ∧ r.Onward (r.hear x) := by
  have hsame : ({ r with lastEvicted := none } : Receiver).Small :=
    ⟨⟨h.room, h.ahead⟩, h.pos, h.next, h.keys, h.best⟩
  have hstay : r.Onward { r with lastEvicted := none } := ⟨le_refl _, id, fun _ => le_refl _⟩
  unfold Receiver.hear onMessage
  simp only
  split_ifs with h0 hg hs hold
  · exact ⟨hsame, hstay⟩
  · obtain ⟨harmed, honward⟩ := h.armAck x.1.options x.2
    obtain ⟨hsmall, honward'⟩ := harmed.onGuaranteed hseq x.1.options x.1.payload
    exact ⟨hsmall, honward.trans honward'⟩
  · exact ⟨hsame, hstay⟩
  · refine ⟨⟨⟨h.room, h.ahead⟩, h.pos, h.next, h.keys, hseq⟩, le_refl _, fun _ => rfl, fun hseen => ?_⟩
    -- a mark that there is has been passed by the number
    have hafter : seqLe x.1.seq r.beLast = false := by
      simpa [seqLe, hseen] using hold
    rw [← Bool.not_eq_true, seqLe_iff_le hseq h.best] at hafter
    exact UInt32.le_iff_toNat_le.mpr (by simp only; omega)
  · exact ⟨hsame, hstay⟩

theorem Small.run (h : r.Small) {xs : List (Datagram × ℕ)} (hxs : ∀ x ∈ xs, x.1.seq.toNat < 2 ^ 31) :
    (run Receiver.hear r xs).Small ∧ r.Onward (run Receiver.hear r xs) := by
  induction xs generalizing r with
  | nil => exact ⟨h, .refl r⟩
  | cons x xs ih =>
    obtain ⟨hx, hrest⟩ := List.forall_mem_cons.mp hxs
    obtain ⟨hsmall, honward⟩ := h.hear hx
    obtain ⟨hend, honward'⟩ := ih hsmall hrest
    exact ⟨hend, honward.trans honward'⟩

end Receiver

/-- The maps of a sender after any calls, and those of a receiver after any messages, which also
goes onward from each message to any later one. -/
theorem pairing_bounds :
    (∀ calls, sentSince calls < 2 ^ 31 → (run Sender.call Sender.new calls).Bounded) ∧
      ∀ xs : List (Datagram × ℕ), (∀ x ∈ xs, x.1.seq.toNat < 2 ^ 31) →
        (run Receiver.hear Receiver.new xs).Bounded ∧
          ∀ ys, ys <+: xs →
            (run Receiver.hear Receiver.new ys).Onward (run Receiver.hear Receiver.new xs) := by
  refine ⟨fun calls hlt => (Sender.bounded_run calls hlt).1, fun xs hxs => ⟨?_, ?_⟩⟩
  · exact (Receiver.small_new.run hxs).1.toBounded
  · rintro ys ⟨zs, rfl⟩
    have hys : ∀ x ∈ ys, x.1.seq.toNat < 2 ^ 31 := fun x hx => hxs x (List.mem_append_left _ hx)
    have hzs : ∀ x ∈ zs, x.1.seq.toNat < 2 ^ 31 := fun x hx => hxs x (List.mem_append_right _ hx)
    rw [run_append]
    exact ((Receiver.small_new.run hys).1.run hzs).2

/-- Three guaranteed sends, a wild ack and one of the first message; a marker that is taken out at
once, and one that is kept. -/
theorem pairing_bounds_small :
    (run Sender.call Sender.new [.send [1] 1 0, .send [2] 3 0, .send [3] 1 0, .onAck 0xFFFFFFFF,
      .onAck 1, .due 60]).Bounded ∧
    (run Receiver.hear Receiver.new [(⟨1, 1, [1]⟩, 0), (⟨3, 1, [3]⟩, 0)]).Bounded :=
  ⟨pairing_bounds.1 _ (by decide), (pairing_bounds.2 _ (by decide)).1⟩

end GbfrLan.Party
