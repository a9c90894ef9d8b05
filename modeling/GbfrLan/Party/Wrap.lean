import GbfrLan.Party.SendLedger

/-!
# The wrap of the sequence numbers

The pending map is ordered by the plain value of the numbers, an ack is compared with them in the
wrapping order, and the counters run through 0. The two orders agree while the pending numbers lie
on one side of the wrap. These are the exact conditions, for any number of sends.
-/
namespace GbfrLan.Party
open Lib

namespace SendLedger

variable {s : SendLedger}

/-- The pending messages were sent within a window shorter than `2 ^ 31`. -/
def Window (s : SendLedger) : Prop :=
  ∀ k k', s.tx.pending.contains k = true → s.tx.pending.contains k' = true →
    s.last k < s.last k' + 2 ^ 31

/-- The pending numbers lie within an arc shorter than `2 ^ 31`. -/
def Arc (s : SendLedger) : Prop :=
  ∃ b : UInt32, ∀ k, s.tx.pending.contains k = true → (k - b).toNat < 2 ^ 31

/-- What is expected of the sender around the wrap: no message that is counted gets the number 0, a
full map loses the message that was sent first, and an ack removes what is not after it. -/
def Right (s : SendLedger) : SenderEvent → Prop
  | .send payload options nowMs =>
      ((guaranteed options = true ∨ sequential options = true) →
        (s.tx.send payload options nowMs).2.seq ≠ 0) ∧
      (guaranteed options = true → pendingCap ≤ s.tx.pending.size →
        ∃ k o, (s.tx.send payload options nowMs).2.evicted = some (k, o) ∧
          ∀ k', s.tx.pending.contains k' = true → s.last k ≤ s.last k')
  | .onAck ack => ∀ k, (s.tx.onAck ack).1.pending.get? k =
      if seqLe k ack then none else s.tx.pending.get? k
  | .due _ => True

/-- A smaller number that is after the ack, and a larger one that is not. -/
def Apart (ack k k' : UInt32) : Prop :=
  (ack.toNat < k.toNat ∧ k.toNat < ack.toNat + 2 ^ 31 ∧ ack.toNat + 2 ^ 31 ≤ k'.toNat) ∨
    (k.toNat + 2 ^ 31 < ack.toNat ∧ ack.toNat ≤ k'.toNat + 2 ^ 31 ∧ k'.toNat ≤ ack.toNat)

/-- The next number is not the multiple of `2 ^ 32`, a full map does not reach over the wrap, and an
ack does not separate a smaller pending number from a larger one. -/
def Unwrapped (s : SendLedger) : SenderEvent → Prop
  | .send _ options _ =>
      if guaranteed options then
        (s.count + 1) % 2 ^ 32 ≠ 0 ∧ (pendingCap ≤ s.tx.pending.size →
          ∀ k k', s.tx.pending.contains k = true → s.tx.pending.contains k' = true →
            k'.toNat < k.toNat + 2 ^ 31)
      else sequential options = true → (s.best + 1) % 2 ^ 32 ≠ 0
  | .onAck ack => ∀ k k', s.tx.pending.contains k = true → s.tx.pending.contains k' = true →
      ¬Apart ack k k'
  | .due _ => True

theorem ofNat_ne_zero_iff (n : ℕ) : UInt32.ofNat n ≠ 0 ↔ n % 2 ^ 32 ≠ 0 := by
  rw [ne_eq, ne_eq, ← UInt32.toNat_inj, UInt32.toNat_ofNat']
  rfl

/-- The place of a pending message, up to the wrap, is its number. -/
theorem Sound.place_mod (h : Sound s) {k : UInt32} (hk : s.tx.pending.contains k = true) :
    s.last k % 2 ^ 32 = k.toNat := by
  rw [← UInt32.toNat_ofNat', h.named k hk]

/-- In a full map the smallest number is the oldest exactly when the map is on one side of the wrap. -/
theorem Sound.oldest_iff (h : Sound s) (hw : s.Window) {e : UInt32 × Pending}
    (hfirst : s.tx.pending.first? = some e) :
    (∀ k, s.tx.pending.contains k = true → s.last e.1 ≤ s.last k) ↔
      ∀ k k', s.tx.pending.contains k = true → s.tx.pending.contains k' = true →
        k'.toNat < k.toNat + 2 ^ 31 := by
  have hin : s.tx.pending.contains e.1 = true :=
    (OrdMap.contains_iff _ _).mpr ⟨e.2, OrdMap.first?_eq_some hfirst⟩
  have he := h.place_mod hin
  constructor
  · intro hold k k' hk hk'
    have hmod := h.place_mod hk'
    have hle : e.1.toNat ≤ k.toNat := UInt32.le_iff_toNat_le.mp (OrdMap.first?_le hfirst hk)
    have hnear := hw k' e.1 hk' hin
    have hbefore := hold k' hk'
    have hlt := k'.toNat_lt
    omega
  · intro hside k hk
    by_contra hnot
    have hmod := h.place_mod hk
    have hle : e.1.toNat ≤ k.toNat := UInt32.le_iff_toNat_le.mp (OrdMap.first?_le hfirst hk)
    have hnear := hw e.1 k hin hk
    have hclose := hside e.1 k hin hk
    omega

theorem onAck_right_iff (s : SendLedger) (ack : UInt32) :
    s.Right (.onAck ack) ↔ s.Unwrapped (.onAck ack) := by
  have hapart : ∀ k k' : UInt32, k < k' → (Apart ack k k' ↔ seqLe k' ack = true ∧ ¬seqLe k ack = true) := by
    intro k k' hlt
    rw [UInt32.lt_iff_toNat_lt] at hlt
    rw [seqLe_iff, seqLe_iff, ← UInt32.toNat_inj, ← UInt32.toNat_inj, Apart]
    have hk := k.toNat_lt
    have hk' := k'.toNat_lt
    have hack := ack.toNat_lt
    omega
  have hlt_of_apart : ∀ k k' : UInt32, Apart ack k k' → k < k' := by
    intro k k' h
    rw [UInt32.lt_iff_toNat_lt]
    unfold Apart at h
    omega
  refine (OrdMap.get?_dropWhile_iff (p := fun k => seqLe k ack)).trans ⟨fun h k k' hk hk' hap => ?_,
    fun h k k' hk hk' hlt hle => ?_⟩
  · have hlt := hlt_of_apart k k' hap
    obtain ⟨hle, hnot⟩ := (hapart k k' hlt).mp hap
    exact hnot (h k k' hk hk' hlt hle)
  · by_contra hnot
    exact h k k' hk hk' ((hapart k k' hlt).mpr ⟨hle, hnot⟩)

theorem Sound.send_right_iff (h : Sound s) (hw : s.Window) (payload : Bytes) (options : UInt32)
    (nowMs : ℕ) : s.Right (.send payload options nowMs) ↔ s.Unwrapped (.send payload options nowMs) := by
  cases hg : guaranteed options with
  | true =>
    have hseq : (s.tx.send payload options nowMs).2.seq = UInt32.ofNat (s.count + 1) := by
      rw [← h.nextGseq]
      simp [Sender.send, partyReliable, hg]
    have hevicted : (s.tx.send payload options nowMs).2.evicted =
        s.tx.toEvict.map fun e => (e.1, e.2.options) := by
      simp [Sender.send, partyReliable, hg]
    simp only [Right, Unwrapped, hg, hseq, hevicted, true_or, forall_const, if_true,
      ofNat_ne_zero_iff]
    refine and_congr_right fun _ => forall_congr' fun hfull => ?_
    obtain ⟨e, hfirst⟩ := OrdMap.exists_first? (lt_of_lt_of_le (by decide : 0 < pendingCap) hfull)
    rw [← h.oldest_iff hw hfirst]
    simp [Sender.toEvict, hfull, hfirst]
  | false =>
    cases hs : sequential options with
    | true =>
      have hseq : (s.tx.send payload options nowMs).2.seq = UInt32.ofNat (s.best + 1) := by
        rw [← h.nextBseq]
        simp [Sender.send, partyReliable, hg, hs]
      simp only [Right, Unwrapped, hg, hs, hseq, ofNat_ne_zero_iff, or_true, forall_const,
        Bool.false_eq_true, if_false, false_imp_iff, and_true]
    | false => simp [Right, Unwrapped, hg, hs]

/-! ### The window from the numbers alone -/

/-- The pending messages are among the last `2 ^ 31` that were sent. -/
def Recent (s : SendLedger) : Prop :=
  ∀ k, s.tx.pending.contains k = true → s.count < s.last k + 2 ^ 31

theorem Recent.window (h : s.Recent) (hs : Sound s) : s.Window := by
  intro k k' hk hk'
  have hplace := hs.placed k hk
  have hnear := h k' hk'
  omega

/-- A step sends no guaranteed message, or gives the next number to one more. -/
theorem step_pending (s : SendLedger) (e : SenderEvent) :
    ((s.step e).count = s.count ∧ (s.step e).last = s.last ∧
      ∀ k, (s.step e).tx.pending.contains k = true → s.tx.pending.contains k = true) ∨
    ((s.step e).count = s.count + 1 ∧ (s.step e).tx.pending.contains s.tx.nextGseq = true ∧
      (s.step e).last s.tx.nextGseq = s.count + 1 ∧
      ∀ k, (s.step e).tx.pending.contains k = true → k = s.tx.nextGseq ∨
        (s.step e).last k = s.last k ∧ s.tx.pending.contains k = true) := by
  have hcontains {m : OrdMap UInt32 Pending} (hsub : ∀ k p, m.get? k = some p →
      s.tx.pending.get? k = some p) (k : UInt32) (hk : m.contains k = true) :
      s.tx.pending.contains k = true := by
    obtain ⟨p, hp⟩ := (OrdMap.contains_iff m k).mp hk
    exact (OrdMap.contains_iff _ k).mpr ⟨p, hsub k p hp⟩
  cases e with
  | send payload options nowMs =>
    cases hg : guaranteed options with
    | true =>
      right
      simp only [step, Sender.send, partyReliable, hg, Bool.not_true, Bool.false_eq_true, if_false,
        if_true, Function.update_self, OrdMap.contains, OrdMap.get?_insert, Option.isSome_some,
        true_and]
      intro k hk
      by_cases heq : k = s.tx.nextGseq
      · exact .inl heq
      · rw [if_neg heq] at hk
        exact .inr ⟨Function.update_of_ne heq _ _,
          hcontains (fun _ _ => Sender.makeRoom_get?) k hk⟩
    | false =>
      left
      cases hs : sequential options <;> simp [step, Sender.send, partyReliable, hg, hs]
  | onAck ack => exact .inl ⟨rfl, rfl, hcontains fun _ _ => Sender.onAck_get?⟩
  | due nowMs =>
    refine .inl ⟨rfl, rfl, fun k hk => ?_⟩
    have hin : (s.tx.due nowMs).1.pending.contains k = true := hk
    rw [OrdMap.contains, Sender.due_get?, Option.isSome_map] at hin
    exact hin

theorem Recent.step (h : s.Recent) (hs : Sound s) (e : SenderEvent) (harc : (s.step e).Arc) :
    (s.step e).Recent := by
  intro k hk
  rcases s.step_pending e with ⟨hcount, hlast, hold⟩ | ⟨hcount, hnew, hlast, hold⟩
  · rw [hcount, hlast]
    exact h k (hold k hk)
  · rw [hcount]
    rcases hold k hk with rfl | ⟨hsame, hin⟩
    · omega
    · obtain ⟨b, hb⟩ := harc
      have hnear := h k hin
      have hmod := hs.place_mod hin
      have hnext : s.tx.nextGseq.toNat = (s.count + 1) % 2 ^ 32 := by
        rw [hs.nextGseq, UInt32.toNat_ofNat']
      have hkb := hb k hk
      have hnb := hb _ hnew
      have hlt := b.toNat_lt
      rw [UInt32.toNat_sub] at hkb hnb
      omega

/-- Numbers that lie within an arc at all times belong to a window. -/
theorem run_window (es : List SenderEvent)
    (harc : ∀ fs, fs <+: es → (run SendLedger.step fresh fs).Arc) : (run SendLedger.step fresh es).Window := by
  have hrecent : (run SendLedger.step fresh es).Recent := by
    induction es using List.reverseRecOn with
    | nil => simp [Recent, fresh, Sender.new, OrdMap.contains]
    | append_singleton es e ih =>
      have hprev := ih fun fs hfs => harc fs (hfs.trans (List.prefix_append es [e]))
      have hnext := harc (es ++ [e]) (List.prefix_refl _)
      rw [run_append, run_cons, run_nil] at hnext ⊢
      exact hprev.step (run_sound es) e hnext
  exact hrecent.window (run_sound es)

/-- For every run of a sender after which the unacknowledged messages lie within a window shorter than
`2 ^ 31`, by their places or by their numbers at all times, and for every next event: the sender does
what is expected around the wrap exactly when the state is clear of the wrap for that event. -/
theorem right_iff_unwrapped (es : List SenderEvent) (e : SenderEvent)
    (hw : (run SendLedger.step fresh es).Window ∨ ∀ fs, fs <+: es → (run SendLedger.step fresh fs).Arc) :
    (run SendLedger.step fresh es).Right e ↔ (run SendLedger.step fresh es).Unwrapped e := by
  have hwindow : (run SendLedger.step fresh es).Window := hw.elim id (run_window es)
  cases e with
  | send payload options nowMs => exact (run_sound es).send_right_iff hwindow payload options nowMs
  | onAck ack => exact onAck_right_iff _ ack
  | due nowMs => exact Iff.rfl

/-- Two messages of which the first one is acknowledged. -/
def twoPending : List SenderEvent := [.send [1] 1 0, .send [2] 1 0]

theorem twoPending_right : (run SendLedger.step fresh twoPending).Right (.onAck 1) := by
  have hs := run_sound twoPending
  have hcount : (run SendLedger.step fresh twoPending).count = 2 := rfl
  refine (right_iff_unwrapped twoPending (.onAck 1) (.inl fun k k' hk hk' => ?_)).mpr
    fun k k' hk hk' => ?_
  · have hplace := hs.placed k hk
    have hplace' := hs.placed k' hk'
    omega
  · have hplace := hs.placed k' hk'
    have hmod := hs.place_mod hk'
    have hone : (1 : UInt32).toNat = 1 := rfl
    unfold Apart
    omega

/-! ### The run that reaches the wrap -/

/-- Guaranteed messages that are each acknowledged at once. -/
def acked (n : ℕ) : List SenderEvent :=
  (List.range n).flatMap fun i => [.send [1] 1 0, .onAck (UInt32.ofNat (i + 1))]

/-- A guaranteed message for a sender with nothing to evict. -/
theorem send_one {a b : UInt32} {m : OrdMap UInt32 Pending} (h : s.tx = ⟨a, b, m⟩)
    (hroom : m.size < pendingCap) : (s.step (.send [1] 1 0)).tx =
      ⟨a + 1, b, m.insert a ⟨[1], 1, 0, 0, 0, rtoFirstMs, false⟩⟩ := by
  have hg : guaranteed 1 = true := rfl
  simp [step, Sender.send, partyReliable, hg, h, Sender.makeRoom, Sender.toEvict, hroom.not_ge]

theorem run_acked (n : ℕ) : (run SendLedger.step fresh (acked n)).tx =
    ⟨UInt32.ofNat (n + 1), 1, OrdMap.empty⟩ := by
  induction n with
  | zero => rfl
  | succ n ih =>
    have hsplit : acked (n + 1) = acked n ++ [.send [1] 1 0, .onAck (UInt32.ofNat (n + 1))] := by
      simp [acked, List.range_succ]
    rw [hsplit, run_append, run_cons, run_cons, run_nil]
    rw [UInt32.ofNat_add (n + 1)]
    generalize run SendLedger.step fresh (acked n) = s at ih
    generalize UInt32.ofNat (n + 1) = a at ih
    have hsend := send_one ih (by decide)
    have hself : seqLe a a = true := (seqLe_iff a a).mpr (.inl rfl)
    show ((s.step (.send [1] 1 0)).tx.onAck a).1 = _
    rw [hsend]
    simp [Sender.onAck, OrdMap.dropWhile, OrdMap.insert, OrdMap.empty, Entries.insert, hself]

/-- The second message from the wrap on gets the number 0, and then an ack for the first one does not
remove it. -/
theorem wraps_wrong {s : SendLedger} (h : s.tx = ⟨4294967295, 1, OrdMap.empty⟩) :
    ((s.step (.send [1] 1 0)).Window ∧ ¬(s.step (.send [1] 1 0)).Right (.send [1] 1 0)) ∧
      ((s.step (.send [1] 1 0)).step (.send [1] 1 0)).Window ∧
        ¬((s.step (.send [1] 1 0)).step (.send [1] 1 0)).Right (.onAck 4294967295) := by
  have hfirst := send_one h (by decide)
  have hsecond := send_one hfirst (by decide)
  have hlast (s : SendLedger) : (s.step (.send [1] 1 0)).last =
      Function.update s.last s.tx.nextGseq (s.count + 1) := rfl
  have hcount (s : SendLedger) : (s.step (.send [1] 1 0)).count = s.count + 1 := rfl
  refine ⟨⟨?_, ?_⟩, ?_, ?_⟩
  · intro k k' hk hk'
    rw [hfirst] at hk hk'
    simp only [OrdMap.contains, OrdMap.get?_insert, OrdMap.get?_empty] at hk hk'
    split_ifs at hk hk' with h1 h2 <;> simp_all
  · intro hright
    refine hright.1 (.inl rfl) ?_
    have hseq : ((s.step (.send [1] 1 0)).tx.send [1] 1 0).2.seq =
        (s.step (.send [1] 1 0)).tx.nextGseq := rfl
    rw [hseq, hfirst]
    rfl
  · have hplace (k : UInt32) (hk : ((s.step (.send [1] 1 0)).step (.send [1] 1 0)).tx.pending.contains k = true) :
        ((s.step (.send [1] 1 0)).step (.send [1] 1 0)).last k = s.count + 1 ∨
          ((s.step (.send [1] 1 0)).step (.send [1] 1 0)).last k = s.count + 2 := by
      rw [hsecond] at hk
      simp only [OrdMap.contains, OrdMap.get?_insert, OrdMap.get?_empty] at hk
      rw [hlast, hlast, hcount, hfirst, h]
      simp only [Function.update_apply]
      split_ifs at hk ⊢ <;> simp_all
    intro k k' hk hk'
    have h1 := hplace k hk
    have h2 := hplace k' hk'
    omega
  · intro hright
    have hkept := hright 4294967295
    rw [hsecond] at hkept
    revert hkept
    decide

/-- After `2 ^ 32 - 2` messages that were all acknowledged. -/
theorem acked_wraps_wrong :
    ((run SendLedger.step fresh (acked 4294967294 ++ [.send [1] 1 0])).Window ∧
      ¬(run SendLedger.step fresh (acked 4294967294 ++ [.send [1] 1 0])).Right (.send [1] 1 0)) ∧
    (run SendLedger.step fresh (acked 4294967294 ++ [.send [1] 1 0, .send [1] 1 0])).Window ∧
      ¬(run SendLedger.step fresh (acked 4294967294 ++ [.send [1] 1 0, .send [1] 1 0])).Right
        (.onAck 4294967295) := by
  have htx := run_acked 4294967294
  simp only [run_append, run_cons, run_nil]
  generalize run SendLedger.step fresh (acked 4294967294) = s at htx
  exact wraps_wrong htx

end SendLedger

end GbfrLan.Party
