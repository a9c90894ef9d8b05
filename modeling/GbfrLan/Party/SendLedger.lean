import GbfrLan.Lib.Run
import GbfrLan.Party.Sending

/-!
# What becomes of every guaranteed message of one sender

Sequence numbers repeat after `2 ^ 32` sends, so a message is named by its place among the
guaranteed sends. The ledger of a sender remembers which message each number was last given to, and
logs what happens to the messages: transmissions with their times, the end of the retry budget, and
the step that removes the message from the pending map.
-/
namespace GbfrLan.Party
open Lib

inductive SenderEvent where
  | send (payload : Bytes) (options : UInt32) (nowMs : ℕ)
  | onAck (ack : UInt32)
  | due (nowMs : ℕ)
  deriving DecidableEq, Repr

/-- What can happen to a guaranteed message. It is `gone` when it is acked or evicted, or when its
number is given to another message. -/
inductive Fate where
  | sent (nowMs : ℕ)
  | again (nowMs : ℕ)
  | gaveUp
  | gone
  deriving DecidableEq, Repr

structure SendLedger where
  tx : Sender
  count : ℕ
  best : ℕ
  last : UInt32 → ℕ
  log : List (ℕ × Fate)

namespace SendLedger

def fresh : SendLedger := ⟨Sender.new, 0, 0, fun _ => 0, []⟩

/-- One entry for each pending message about which there is something to tell. -/
def tell (s : SendLedger) (f : UInt32 → Pending → Option Fate) : List (ℕ × Fate) :=
  s.tx.pending.entries.filterMap fun e => (f e.1 e.2).map fun x => (s.last e.1, x)

/-- The pending messages that are not among those kept. -/
def removed (s : SendLedger) (kept : OrdMap UInt32 Pending) : List (ℕ × Fate) :=
  s.tell fun k _ => if kept.contains k then none else some .gone

def step (s : SendLedger) : SenderEvent → SendLedger
  | .send payload options nowMs =>
      let (tx, out) := s.tx.send payload options nowMs
      if guaranteed options then
        { s with
          tx := tx
          count := s.count + 1
          last := Function.update s.last out.seq (s.count + 1)
          log := s.log ++ s.removed (tx.pending.erase out.seq) ++ [(s.count + 1, .sent nowMs)] }
      else { s with tx := tx, best := if sequential options then s.best + 1 else s.best }
  | .onAck ack =>
      let tx := (s.tx.onAck ack).1
      { s with tx := tx, log := s.log ++ s.removed tx.pending }
  | .due nowMs =>
      let (tx, rts) := s.tx.due nowMs
      { s with
        tx := tx
        log := s.log ++ rts.map fun x => (s.last x.seq, if x.gaveUp then .gaveUp else .again nowMs) }

/-- What the log says about one message. -/
def history (s : SendLedger) (i : ℕ) : List Fate :=
  (s.log.filter fun x => decide (x.1 = i)).map Prod.snd

end SendLedger

/-- The retransmission timeout after a number of retries. -/
def backoff (retries : ℕ) : ℕ := min (rtoFirstMs * 2 ^ retries) rtoMaxMs

/-- The transmissions of a message, each at least the timeout of its predecessor later. -/
def Spaced (times : List ℕ) : Prop :=
  ∀ i t t', times[i]? = some t → times[i + 1]? = some t' → t + backoff i ≤ t'

/-- A first transmission, retransmissions, and at most one event of each other kind. -/
def story (first : ℕ) (again : List ℕ) (gaveUp gone : Bool) : List Fate :=
  .sent first :: again.map .again ++ (if gaveUp then [.gaveUp] else []) ++
    if gone then [.gone] else []

theorem Spaced.singleton (t : ℕ) : Spaced [t] := by
  intro i t₁ t₂ _ h
  simp at h

theorem Spaced.concat {times : List ℕ} {t t' : ℕ} (h : Spaced times)
    (hlast : times.getLast? = some t) (hlate : t + backoff (times.length - 1) ≤ t') :
    Spaced (times ++ [t']) := by
  intro i t₁ t₂ h₁ h₂
  have hi : i + 1 < (times ++ [t']).length := (List.getElem?_eq_some_iff.mp h₂).1
  rw [List.length_append, List.length_singleton] at hi
  rw [List.getElem?_append_left (by omega)] at h₁
  by_cases hend : i + 1 < times.length
  · rw [List.getElem?_append_left hend] at h₂
    exact h i t₁ t₂ h₁ h₂
  · have hidx : i = times.length - 1 := by omega
    have hlen : i + 1 = times.length := by omega
    rw [hlen, List.getElem?_append_right (le_refl _), Nat.sub_self, List.getElem?_cons_zero] at h₂
    rw [List.getLast?_eq_getElem?, ← hidx, h₁] at hlast
    rw [← Option.some.inj hlast, ← hidx] at hlate
    rw [← Option.some.inj h₂]
    exact hlate

namespace SendLedger

variable {s : SendLedger} {k : UInt32} {p : Pending} {i : ℕ}

/-! ### One message in the log -/

theorem history_append (s : SendLedger) (l : List (ℕ × Fate)) (i : ℕ) :
    ((s.log ++ l).filter fun x => decide (x.1 = i)).map Prod.snd =
      s.history i ++ (l.filter fun x => decide (x.1 = i)).map Prod.snd := by
  rw [List.filter_append, List.map_append]
  rfl

/-- A pending number names the message that it was last given to. -/
def Named (s : SendLedger) : Prop :=
  ∀ k, s.tx.pending.contains k = true → UInt32.ofNat (s.last k) = k

theorem tell_pending (hn : s.Named) (f : UInt32 → Pending → Option Fate)
    (hk : s.tx.pending.get? k = some p) :
    ((s.tell f).filter fun x => decide (x.1 = s.last k)).map Prod.snd = (f k p).toList := by
  have hin := (OrdMap.contains_iff _ k).mpr ⟨p, hk⟩
  have hsame : s.tx.pending.entries.filter (fun e => decide (s.last e.1 = s.last k)) =
      s.tx.pending.entries.filter fun e => decide (e.1 = k) := by
    refine List.filter_congr fun e he => decide_eq_decide.mpr ⟨fun h => ?_, fun h => by rw [h]⟩
    have hine : s.tx.pending.contains e.1 = true :=
      (OrdMap.contains_iff _ _).mpr ⟨e.2, (OrdMap.mem_entries_iff ..).mp he⟩
    rw [← hn e.1 hine, h, hn k hin]
  have hfilter : (s.tell f).filter (fun x => decide (x.1 = s.last k)) =
      (s.tx.pending.entries.filter fun e => decide (s.last e.1 = s.last k)).filterMap
        fun e => (f e.1 e.2).map fun x => (s.last e.1, x) := by
    unfold tell
    generalize s.tx.pending.entries = entries
    induction entries with
    | nil => rfl
    | cons e entries ih =>
      by_cases he : s.last e.1 = s.last k <;> cases hf : f e.1 e.2 <;>
        simp [hf, he, ih]
  rw [hfilter, hsame, OrdMap.filter_key, hk]
  cases hf : f k p <;> simp [hf]

theorem tell_other (f : UInt32 → Pending → Option Fate)
    (h : ∀ k, s.tx.pending.contains k = true → s.last k ≠ i) :
    ((s.tell f).filter fun x => decide (x.1 = i)).map Prod.snd = [] := by
  rw [List.map_eq_nil_iff, List.filter_eq_nil_iff]
  intro x hx
  obtain ⟨e, he, hf⟩ := List.mem_filterMap.mp hx
  obtain ⟨y, -, rfl⟩ := Option.map_eq_some_iff.mp hf
  simpa using h e.1 ((OrdMap.contains_iff _ _).mpr ⟨e.2, (OrdMap.mem_entries_iff ..).mp he⟩)

theorem due_history (s : SendLedger) (nowMs i : ℕ) :
    (s.step (.due nowMs)).history i = s.history i ++
      ((s.tell fun k p => (Sender.tick nowMs k p).2.map fun x =>
        if x.gaveUp then .gaveUp else .again nowMs).filter fun x => decide (x.1 = i)).map Prod.snd := by
  have hseq : ∀ k p x, (Sender.tick nowMs k p).2 = some x → x.seq = k := by
    intro k p x h
    unfold Sender.tick at h
    split_ifs at h <;> simp only [Option.some.injEq] at h <;> rw [← h]
  have hlog : (s.step (.due nowMs)).log = s.log ++ s.tell fun k p =>
      (Sender.tick nowMs k p).2.map fun x => if x.gaveUp then .gaveUp else .again nowMs := by
    simp only [step, Sender.due, partyReliable, Bool.not_true, Bool.false_eq_true, if_false, tell]
    rw [List.map_filterMap]
    congr 1
    refine List.filterMap_congr fun e _ => ?_
    cases htick : (Sender.tick nowMs e.1 e.2).2 with
    | none => rfl
    | some x => simp [hseq _ _ _ htick]
  rw [history, hlog, history_append]

/-! ### The invariant -/

/-- What the log says about a message that is still pending. -/
structure Live (s : SendLedger) (k : UInt32) (p : Pending) : Prop where
  rto : p.rtoMs = backoff p.retries
  retries : p.retries ≤ maxRetries
  told : ∃ first again, s.history (s.last k) = story first again p.gaveUp false ∧
    again.length = p.retries ∧ (first :: again).getLast? = some p.lastSentMs ∧
    Spaced (first :: again)

/-- What the log says about a message that is no longer pending. -/
def Ended (s : SendLedger) (i : ℕ) : Prop :=
  ∃ first again gaveUp, s.history i = story first again gaveUp true ∧
    again.length ≤ maxRetries ∧ Spaced (first :: again)

structure Sound (s : SendLedger) : Prop where
  nextGseq : s.tx.nextGseq = UInt32.ofNat (s.count + 1)
  nextBseq : s.tx.nextBseq = UInt32.ofNat (s.best + 1)
  named : s.Named
  placed : ∀ k, s.tx.pending.contains k = true → 1 ≤ s.last k ∧ s.last k ≤ s.count
  live : ∀ k p, s.tx.pending.get? k = some p → s.Live k p
  ended : ∀ i, 1 ≤ i → i ≤ s.count → (∀ k, s.tx.pending.contains k = true → s.last k ≠ i) → s.Ended i
  silent : ∀ i, i = 0 ∨ s.count < i → s.history i = []

namespace Sound

theorem initial : Sound fresh where
  nextGseq := rfl
  nextBseq := rfl
  named := by simp [Named, fresh, Sender.new, OrdMap.contains]
  placed := by simp [fresh, Sender.new, OrdMap.contains]
  live := by simp [fresh, Sender.new]
  ended := by simp only [fresh]; omega
  silent := fun i _ => rfl

/-- Messages leave the pending map. -/
theorem drop (h : Sound s) {kept : OrdMap UInt32 Pending}
    (hsub : ∀ k p, kept.get? k = some p → s.tx.pending.get? k = some p) :
    Sound { s with
      tx := { s.tx with pending := kept }
      log := s.log ++ s.removed kept } := by
  have hin : ∀ k, kept.contains k = true → s.tx.pending.contains k = true := by
    intro k hk
    obtain ⟨p, hp⟩ := (OrdMap.contains_iff _ k).mp hk
    exact (OrdMap.contains_iff _ k).mpr ⟨p, hsub k p hp⟩
  refine ⟨h.nextGseq, h.nextBseq, fun k hk => h.named k (hin k hk), fun k hk => h.placed k (hin k hk),
    fun k p hk => ?_, fun i h1 hi hfree => ?_, fun i hi => ?_⟩
  · obtain ⟨hrto, hretries, first, again, htold, hrest⟩ := h.live k p (hsub k p hk)
    refine ⟨hrto, hretries, first, again, ?_, hrest⟩
    refine (s.history_append _ _).trans ?_
    rw [removed, tell_pending h.named _ (hsub k p hk), htold]
    simp [(OrdMap.contains_iff kept k).mpr ⟨p, hk⟩]
  · by_cases hpend : ∃ k, s.tx.pending.contains k = true ∧ s.last k = i
    · obtain ⟨k, hk, rfl⟩ := hpend
      obtain ⟨p, hp⟩ := (OrdMap.contains_iff _ k).mp hk
      have hout : kept.contains k = false := by
        by_contra hnot
        exact hfree k (by simpa using hnot) rfl
      obtain ⟨-, hretries, first, again, htold, hlen, -, hspaced⟩ := h.live k p hp
      refine ⟨first, again, p.gaveUp, ?_, hlen ▸ hretries, hspaced⟩
      refine (s.history_append _ _).trans ?_
      rw [removed, tell_pending h.named _ hp, htold]
      simp [hout, story]
    · have hfree' : ∀ k, s.tx.pending.contains k = true → s.last k ≠ i := by
        intro k hk heq
        exact hpend ⟨k, hk, heq⟩
      obtain ⟨first, again, gaveUp, htold, hrest⟩ := h.ended i h1 hi hfree'
      refine ⟨first, again, gaveUp, ?_, hrest⟩
      refine (s.history_append _ _).trans ?_
      rw [removed, tell_other _ hfree', htold, List.append_nil]
  · refine (s.history_append _ _).trans ?_
    have hfree : ∀ k, s.tx.pending.contains k = true → s.last k ≠ i := by
      intro k hk
      have hplace := h.placed k hk
      have hi' : i = 0 ∨ s.count < i := hi
      omega
    rw [h.silent i hi, removed, tell_other _ hfree, List.append_nil]

/-- A new message enters the pending map under the next number. -/
theorem file (h : Sound s) (payload : Bytes) (options : UInt32) (nowMs : ℕ)
    (hfree : s.tx.pending.get? s.tx.nextGseq = none) :
    Sound { s with
      tx := { s.tx with
        nextGseq := s.tx.nextGseq + 1
        pending := s.tx.pending.insert s.tx.nextGseq
          ⟨payload, options, nowMs, nowMs, 0, rtoFirstMs, false⟩ }
      count := s.count + 1
      last := Function.update s.last s.tx.nextGseq (s.count + 1)
      log := s.log ++ [(s.count + 1, .sent nowMs)] } := by
  have hother : ∀ k, s.tx.pending.contains k = true → k ≠ s.tx.nextGseq := by
    rintro k hk rfl
    rw [OrdMap.contains, hfree] at hk
    cases hk
  have hcases : ∀ k, (s.tx.pending.insert s.tx.nextGseq
      ⟨payload, options, nowMs, nowMs, 0, rtoFirstMs, false⟩).contains k = true →
      k = s.tx.nextGseq ∨ k ≠ s.tx.nextGseq ∧ s.tx.pending.contains k = true := by
    intro k hk
    rcases OrdMap.contains_insert_iff.mp hk with heq | hin
    · exact .inl heq
    · exact .inr ⟨hother k hin, hin⟩
  refine ⟨?_, h.nextBseq, fun k hk => ?_, fun k hk => ?_, fun k p hk => ?_, fun i h1 hi hnone => ?_,
    fun i hi => ?_⟩
  · show s.tx.nextGseq + 1 = UInt32.ofNat (s.count + 1 + 1)
    rw [h.nextGseq, UInt32.ofNat_add (s.count + 1)]
    rfl
  · rcases hcases k hk with rfl | ⟨hne, hk⟩
    · simp only [Function.update_self]
      exact h.nextGseq.symm
    · simp only [Function.update_of_ne hne]
      exact h.named k hk
  · rcases hcases k hk with rfl | ⟨hne, hk⟩
    · simp only [Function.update_self]
      omega
    · simp only [Function.update_of_ne hne]
      have hplace := h.placed k hk
      omega
  · simp only [OrdMap.get?_insert] at hk
    split_ifs at hk with heq
    · obtain rfl := Option.some.inj hk
      refine ⟨rfl, Nat.zero_le _, nowMs, [], ?_, rfl, rfl, .singleton nowMs⟩
      refine (s.history_append _ _).trans ?_
      rw [heq]
      simp only [Function.update_self]
      rw [h.silent _ (.inr (Nat.lt_succ_self _))]
      simp [story]
    · obtain ⟨hrto, hretries, first, again, htold, hrest⟩ := h.live k p hk
      refine ⟨hrto, hretries, first, again, ?_, hrest⟩
      refine (s.history_append _ _).trans ?_
      have hplace := h.placed k ((OrdMap.contains_iff _ k).mpr ⟨p, hk⟩)
      have hne : s.count + 1 ≠ s.last k := by omega
      simp only [Function.update_of_ne heq]
      rw [htold, List.filter_cons_of_neg (by simpa using hne)]
      simp
  · have hi' : i ≤ s.count + 1 := hi
    have hnew : i ≠ s.count + 1 := by
      rintro rfl
      exact hnone s.tx.nextGseq (by simp [OrdMap.contains]) (by simp)
    obtain ⟨first, again, gaveUp, htold, hrest⟩ := h.ended i h1 (by omega) fun k hk => by
      have hkeep := hnone k (by
        simp only [OrdMap.contains, OrdMap.get?_insert, if_neg (hother k hk)]
        exact hk)
      simpa only [Function.update_of_ne (hother k hk)] using hkeep
    refine ⟨first, again, gaveUp, ?_, hrest⟩
    refine (s.history_append _ _).trans ?_
    rw [htold, List.filter_cons_of_neg (by simpa using hnew.symm)]
    simp
  · refine (s.history_append _ _).trans ?_
    have hi' : i = 0 ∨ s.count + 1 < i := hi
    rw [h.silent i (by omega), List.filter_cons_of_neg (by simp only [decide_eq_true_eq]; omega)]
    rfl

/-- A best-effort number is given out. -/
theorem count_best (h : Sound s) {next : UInt32} {best : ℕ} (hnext : next = UInt32.ofNat (best + 1)) :
    Sound { s with tx := { s.tx with nextBseq := next }, best := best } where
  nextGseq := h.nextGseq
  nextBseq := hnext
  named := h.named
  placed := h.placed
  live := fun k p hk => ⟨(h.live k p hk).rto, (h.live k p hk).retries, (h.live k p hk).told⟩
  ended := h.ended
  silent := h.silent

theorem send (h : Sound s) (payload : Bytes) (options : UInt32) (nowMs : ℕ) :
    Sound (s.step (.send payload options nowMs)) := by
  cases hg : guaranteed options with
  | true =>
    have hkept : ((s.tx.makeRoom.insert s.tx.nextGseq
        ⟨payload, options, nowMs, nowMs, 0, rtoFirstMs, false⟩).erase s.tx.nextGseq) =
        s.tx.makeRoom.erase s.tx.nextGseq := by
      refine OrdMap.ext_get? fun k => ?_
      simp only [OrdMap.get?_erase, OrdMap.get?_insert]
      split_ifs <;> rfl
    have hstep : s.step (.send payload options nowMs) =
        { s with
          tx := { s.tx with
            nextGseq := s.tx.nextGseq + 1
            pending := (s.tx.makeRoom.erase s.tx.nextGseq).insert s.tx.nextGseq
              ⟨payload, options, nowMs, nowMs, 0, rtoFirstMs, false⟩ }
          count := s.count + 1
          last := Function.update s.last s.tx.nextGseq (s.count + 1)
          log := s.log ++ s.removed (s.tx.makeRoom.erase s.tx.nextGseq) ++
            [(s.count + 1, .sent nowMs)] } := by
      simp only [step, Sender.send, partyReliable, hg, Bool.not_true, Bool.false_eq_true, if_false,
        if_true, hkept]
      congr 2
      refine OrdMap.ext_get? fun k => ?_
      simp only [OrdMap.get?_erase, OrdMap.get?_insert]
      split_ifs <;> rfl
    have hsub : ∀ k p, (s.tx.makeRoom.erase s.tx.nextGseq).get? k = some p →
        s.tx.pending.get? k = some p := by
      intro k p hk
      rw [OrdMap.get?_erase] at hk
      split_ifs at hk
      exact Sender.makeRoom_get? hk
    rw [hstep]
    exact (h.drop hsub).file payload options nowMs (by simp)
  | false =>
    cases hs : sequential options with
    | true =>
      have hnext : s.tx.nextBseq + 1 = UInt32.ofNat (s.best + 1 + 1) := by
        rw [h.nextBseq, UInt32.ofNat_add (s.best + 1)]
        rfl
      simpa [step, Sender.send, partyReliable, hg, hs] using h.count_best hnext
    | false => simpa [step, Sender.send, partyReliable, hg, hs] using h

theorem onAck (h : Sound s) (ack : UInt32) : Sound (s.step (.onAck ack)) :=
  h.drop fun _ _ hk => Sender.onAck_get? hk

/-- A tick of the timer continues the story of a pending message. -/
theorem live_due (h : Sound s) (nowMs : ℕ) (hk : s.tx.pending.get? k = some p) :
    (s.step (.due nowMs)).Live k (Sender.tick nowMs k p).1 := by
  obtain ⟨hrto, hretries, first, again, htold, hlen, hlast, hspaced⟩ := h.live k p hk
  have hhistory : (s.step (.due nowMs)).history (s.last k) = s.history (s.last k) ++
      ((Sender.tick nowMs k p).2.map fun x => if x.gaveUp then Fate.gaveUp else .again nowMs).toList := by
    rw [due_history, tell_pending h.named _ hk]
  have hlast' : (s.step (.due nowMs)).last = s.last := rfl
  unfold Sender.tick at hhistory ⊢
  split_ifs at hhistory ⊢ with hgave hearly hspent
  · refine ⟨hrto, hretries, first, again, ?_, hlen, hlast, hspaced⟩
    rw [hlast', hhistory, htold]
    simp
  · refine ⟨hrto, hretries, first, again, ?_, hlen, hlast, hspaced⟩
    rw [hlast', hhistory, htold]
    simp
  · refine ⟨hrto, hretries, first, again, ?_, hlen, hlast, hspaced⟩
    rw [hlast', hhistory, htold]
    simp [story, hgave]
  · refine ⟨?_, ?_, first, again ++ [nowMs], ?_, ?_, ?_, ?_⟩
    · simp only [hrto, backoff, rtoFirstMs, rtoMaxMs, u64Max, pow_succ]
      omega
    · simp only
      omega
    · rw [hlast', hhistory, htold]
      simp [story, hgave]
    · simp [hlen]
    · rw [← List.cons_append, List.getLast?_concat]
    · refine hspaced.concat hlast ?_
      rw [List.length_cons, Nat.add_sub_cancel, hlen, ← hrto]
      have hpos : 0 < p.rtoMs := by
        rw [hrto, backoff, rtoFirstMs, rtoMaxMs]
        have := Nat.two_pow_pos p.retries
        omega
      omega

theorem due (h : Sound s) (nowMs : ℕ) : Sound (s.step (.due nowMs)) := by
  have hget : ∀ k, (s.step (.due nowMs)).tx.pending.get? k =
      (s.tx.pending.get? k).map fun p => (Sender.tick nowMs k p).1 := fun k => Sender.due_get? nowMs k
  have hin : ∀ k, (s.step (.due nowMs)).tx.pending.contains k = s.tx.pending.contains k := by
    intro k
    rw [OrdMap.contains, hget, Option.isSome_map]
    rfl
  have hquiet : ∀ i, (∀ k, s.tx.pending.contains k = true → s.last k ≠ i) →
      (s.step (.due nowMs)).history i = s.history i := by
    intro i hfree
    rw [due_history, tell_other _ hfree, List.append_nil]
  refine ⟨h.nextGseq, h.nextBseq, fun k hk => h.named k (hin k ▸ hk),
    fun k hk => h.placed k (hin k ▸ hk), fun k p hk => ?_, fun i h1 hi hfree => ?_, fun i hi => ?_⟩
  · rw [hget, Option.map_eq_some_iff] at hk
    obtain ⟨q, hq, rfl⟩ := hk
    exact h.live_due nowMs hq
  · have hfree' : ∀ k, s.tx.pending.contains k = true → s.last k ≠ i :=
      fun k hk => hfree k (hin k ▸ hk)
    obtain ⟨first, again, gaveUp, htold, hrest⟩ := h.ended i h1 hi hfree'
    exact ⟨first, again, gaveUp, (hquiet i hfree').trans htold, hrest⟩
  · rw [hquiet i fun k hk => ?_, h.silent i hi]
    have hplace := h.placed k hk
    have hi' : i = 0 ∨ s.count < i := hi
    omega

theorem step (h : Sound s) : ∀ e, Sound (s.step e)
  | .send payload options nowMs => h.send payload options nowMs
  | .onAck ack => h.onAck ack
  | .due nowMs => h.due nowMs

end Sound

/-- The ledger of every sender is sound. -/
theorem run_sound (es : List SenderEvent) : Sound (run SendLedger.step fresh es) :=
  run_invariant_all (fun _ e h => h.step e) .initial es

end SendLedger

end GbfrLan.Party
