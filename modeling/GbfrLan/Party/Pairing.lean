import GbfrLan.Lib.Run
import GbfrLan.Party.Stream

/-!
# One reliable pairing over a hostile network

A sender, a receiver and the datagrams and ack values between them. The wire
keeps everything ever emitted, so a datagram may be lost, duplicated, delayed or
reordered: a delivery event picks any element of it, any number of times.
-/
namespace GbfrLan.Party
open Lib

/-- A pairing with its history: what was emitted, which ack values were produced,
which guaranteed messages were sent, what the receiver released, and which pending
entries were evicted or removed by an ack. -/
structure Link where
  tx : Sender
  rx : Receiver
  wire : List Datagram
  acks : List UInt32
  sent : List RecvMsg
  released : List RecvMsg
  evicted : List UInt32
  cleared : List (UInt32 × Pending)
  deriving DecidableEq

inductive LinkEvent where
  | send (payload : Bytes) (options : UInt32) (nowMs : ℕ)
  | due (nowMs : ℕ)
  | deliver (d : Datagram) (nowMs : ℕ)
  | ackValue
  | piggybackAck
  | forcedAck (nowMs : ℕ)
  | onAck (ack : UInt32)

namespace Link

def fresh : Link := ⟨Sender.new, Receiver.new, [], [], [], [], [], []⟩

def step (s : Link) : LinkEvent → Link
  | .send payload options nowMs =>
      let (tx, out) := s.tx.send payload options nowMs
      { s with
        tx := tx
        wire := s.wire ++ [out.datagram]
        sent := if guaranteed options then s.sent ++ [⟨payload, options⟩] else s.sent
        evicted := s.evicted ++ (out.evicted.map Prod.fst).toList }
  | .due nowMs =>
      let (tx, rts) := s.tx.due nowMs
      { s with
        tx := tx
        wire := s.wire ++ (rts.filter fun x => !x.gaveUp).map Retransmit.datagram }
  | .deliver d nowMs =>
      let (rx, outcome) := s.rx.onMessage d.seq d.options d.payload nowMs
      { s with rx := rx, released := s.released ++ outcome.released }
  | .ackValue => { s with acks := s.acks ++ [s.rx.ackValue] }
  | .piggybackAck =>
      let (rx, ack) := s.rx.piggybackAck
      { s with rx := rx, acks := s.acks ++ [ack] }
  | .forcedAck nowMs =>
      let (rx, ack) := s.rx.forcedAck nowMs
      { s with rx := rx, acks := s.acks ++ ack.toList }
  | .onAck ack =>
      let tx := (s.tx.onAck ack).1
      { s with
        tx := tx
        cleared := s.cleared ++ s.tx.pending.entries.filter fun e => !tx.pending.contains e.1 }

/-- What the environment may do: send a non-empty payload while fewer than `2 ^ 31`
guaranteed messages were sent in all, deliver what is on the wire, and feed back
ack values the receiver produced. -/
def Legal (s : Link) : LinkEvent → Prop
  | .send payload options _ =>
      payload ≠ [] ∧ (guaranteed options = true → s.sent.length + 1 < 2 ^ 31)
  | .deliver d _ => d ∈ s.wire
  | .onAck ack => ack ∈ s.acks
  | _ => True

instance (s : Link) : ∀ e, Decidable (s.Legal e)
  | .send payload options _ => inferInstanceAs (Decidable (payload ≠ [] ∧
      (guaranteed options = true → s.sent.length + 1 < 2 ^ 31)))
  | .deliver d _ => inferInstanceAs (Decidable (d ∈ s.wire))
  | .onAck ack => inferInstanceAs (Decidable (ack ∈ s.acks))
  | .due _ | .ackValue | .piggybackAck | .forcedAck _ => inferInstanceAs (Decidable True)

end Link

/-- Messages that arrived under consecutive numbers are the first ones sent. -/
theorem prefix_of_arrived {sent covered : List RecvMsg} (hlen : sent.length < 2 ^ 31)
    (h : ∀ i m, covered[i]? = some m → (arrivalsOf sent).arrived (UInt32.ofNat (i + 1)) m) :
    covered <+: sent := by
  induction covered using List.reverseRecOn with
  | nil => exact List.nil_prefix
  | append_singleton covered m ih =>
    have hpre : covered <+: sent := by
      apply ih
      intro i x hx
      have hi : i < covered.length := (List.getElem?_eq_some_iff.mp hx).1
      exact h i x (by rw [List.getElem?_append_left hi, hx])
    have hle := hpre.length_le
    obtain ⟨⟨-, hm⟩, -⟩ := h covered.length m (by simp)
    rw [UInt32.toNat_ofNat_of_lt' (by simp [UInt32.size]; omega), Nat.add_sub_cancel] at hm
    obtain ⟨rest, rfl⟩ := hpre
    rw [List.getElem?_append_right (le_refl _), Nat.sub_self] at hm
    cases rest with
    | nil => simp at hm
    | cons y ys =>
      simp only [List.getElem?_cons_zero, Option.some.injEq] at hm
      exact ⟨ys, by simp [hm]⟩

namespace Link

variable {s : Link}

/-- The reasons for a number to have left the pending map. -/
def Gone (s : Link) (k : UInt32) : Prop := k ∈ s.evicted ∨ k ∈ s.cleared.map Prod.fst

/-- What the sender's side of a pairing keeps: copies on the wire are the messages
sent, and what acks removed was pending once. -/
structure SenderSound (s : Link) : Prop where
  tracks : s.tx.Tracks s.sent s.Gone
  wire : ∀ d ∈ s.wire, guaranteed d.options = true → (arrivalsOf s.sent).arrived d.seq d.msg
  removed : ∀ e ∈ s.cleared, (arrivalsOf s.sent).arrived e.1 e.2.msg
  gone : ∀ e ∈ s.cleared, s.tx.pending.get? e.1 = none
  once : (s.cleared.map Prod.fst).Nodup

/-- What the receiver's side keeps: only what the receiver covered is acknowledged. -/
structure ReceiverSound (s : Link) : Prop where
  stream : ∃ marked covered, s.rx.Accounts (arrivalsOf s.sent) marked covered s.released ∧
    s.released.filter guarSeq = covered.filter guarSeq
  acks : ∀ a ∈ s.acks, a.toNat < s.rx.gNext.toNat
  cleared : ∀ e ∈ s.cleared, e.1.toNat < s.rx.gNext.toNat

structure Sound (s : Link) : Prop extends SenderSound s, ReceiverSound s

theorem fresh_sound : Sound fresh where
  tracks := Sender.Tracks.initial _
  wire := by simp [fresh]
  removed := by simp [fresh]
  gone := by simp [fresh]
  once := by simp [fresh]
  stream := ⟨OrdMap.empty, [], Covers.initial _, rfl⟩
  acks := by simp [fresh]
  cleared := by simp [fresh]

/-- The contiguous pointer counts the covered messages. -/
theorem gNext_toNat {sent : List RecvMsg} {r : Receiver} {marked : OrdMap UInt32 RecvMsg}
    {covered out : List RecvMsg} (hlen : sent.length < 2 ^ 31)
    (h : r.Accounts (arrivalsOf sent) marked covered out) :
    covered <+: sent ∧ r.gNext.toNat = covered.length + 1 := by
  have hpre := prefix_of_arrived hlen h.arrived
  have hle := hpre.length_le
  constructor
  · exact hpre
  · rw [h.next_eq]
    exact UInt32.toNat_ofNat_of_lt' (by simp [UInt32.size]; omega)

/-- The receiver's side does not see what the sender's side does to the wire and
the pending map. -/
theorem ReceiverSound.of_sender {s' : Link} (h : ReceiverSound s)
    (hsent : s.sent <+: s'.sent) (hrx : s'.rx = s.rx) (hacks : s'.acks = s.acks)
    (hreleased : s'.released = s.released)
    (hcleared : ∀ e ∈ s'.cleared, e.1.toNat < s.rx.gNext.toNat) : ReceiverSound s' := by
  obtain ⟨⟨marked, covered, hacc, hf⟩, ha, -⟩ := h
  constructor
  · refine ⟨marked, covered, ?_, by rw [hreleased, hf]⟩
    rw [hrx, hreleased]
    exact hacc.mono_arrivals fun _ _ => arrivalsOf_mono hsent
  · rw [hrx, hacks]
    exact ha
  · rw [hrx]
    exact hcleared

/-- The sender's side does not see what the receiver's side does. -/
theorem SenderSound.of_receiver {s' : Link} (h : SenderSound s) (htx : s'.tx = s.tx)
    (hwire : s'.wire = s.wire) (hsent : s'.sent = s.sent) (hevicted : s'.evicted = s.evicted)
    (hcleared : s'.cleared = s.cleared) : SenderSound s' := by
  have hgone : s'.Gone = s.Gone := by
    unfold Gone
    rw [hevicted, hcleared]
  obtain ⟨h1, h2, h3, h4, h5⟩ := h
  constructor <;> simp only [htx, hwire, hsent, hcleared, hgone] <;> assumption

theorem SenderSound.send_guaranteed (h : SenderSound s) {payload : Bytes} {options : UInt32}
    {nowMs : ℕ} (hg : guaranteed options = true) (hne : payload ≠ [])
    (hlen : s.sent.length + 1 < 2 ^ 31) :
    SenderSound (s.step (.send payload options nowMs)) := by
  obtain ⟨-, hout, hget⟩ := Sender.send_guaranteed s.tx payload nowMs hg
  have hsent : (s.step (.send payload options nowMs)).sent = s.sent ++ [⟨payload, options⟩] := by
    simp [step, hg]
  have hmono : ∀ k m, (arrivalsOf s.sent).arrived k m →
      (arrivalsOf (s.sent ++ [⟨payload, options⟩])).arrived k m :=
    fun _ _ => arrivalsOf_mono (List.prefix_append _ _)
  constructor
  · rw [hsent]
    apply h.tracks.send_guaranteed nowMs hg hne hlen
    · intro k hk
      exact hk.imp_left fun hk => List.mem_append_left _ hk
    · intro k hk
      exact .inl (List.mem_append_right _ hk)
  · intro d hd hdg
    rw [hsent]
    simp only [step, hout, List.mem_append, List.mem_singleton] at hd
    rcases hd with hd | rfl
    · exact hmono _ _ (h.wire d hd hdg)
    · exact h.tracks.arrived_next (m := ⟨payload, options⟩) hg hne
  · intro e he
    rw [hsent]
    exact hmono _ _ (h.removed e he)
  · intro e he
    cases hk : (s.step (.send payload options nowMs)).tx.pending.get? e.1 with
    | none => rfl
    | some p =>
      rcases hget e.1 p hk with ⟨heq, -⟩ | hold
      · have hle := arrived_le_length (h.removed e he)
        have hnum := h.tracks.next
        rw [heq] at hle
        omega
      · rw [h.gone e he] at hold
        cases hold
  · exact h.once

theorem SenderSound.send_other (h : SenderSound s) {payload : Bytes} {options : UInt32}
    {nowMs : ℕ} (hg : guaranteed options = false) :
    SenderSound (s.step (.send payload options nowMs)) := by
  obtain ⟨-, hpend, hopt, hev⟩ := Sender.send_other s.tx payload nowMs hg
  have hsent : (s.step (.send payload options nowMs)).sent = s.sent := by simp [step, hg]
  have htx : (s.step (.send payload options nowMs)).tx.pending = s.tx.pending := hpend
  constructor
  · rw [hsent]
    refine (h.tracks.send_other nowMs hg).mono ?_
    intro k hk
    exact hk.imp_left fun hk => List.mem_append_left _ hk
  · intro d hd hdg
    rw [hsent]
    simp only [step, List.mem_append, List.mem_singleton] at hd
    rcases hd with hd | rfl
    · exact h.wire d hd hdg
    · have hopt' : ((s.tx.send payload options nowMs).2.datagram).options = options := hopt
      rw [hopt', hg] at hdg
      cases hdg
  · rw [hsent]
    exact h.removed
  · rw [htx]
    exact h.gone
  · exact h.once

theorem SenderSound.due (h : SenderSound s) (nowMs : ℕ) : SenderSound (s.step (.due nowMs)) := by
  constructor
  · exact h.tracks.due nowMs
  · intro d hd hdg
    simp only [step, List.mem_append, List.mem_map, List.mem_filter, Bool.not_eq_true'] at hd
    rcases hd with hd | ⟨x, ⟨hx, hsent⟩, rfl⟩
    · exact h.wire d hd hdg
    · obtain ⟨p, hp, hmsg⟩ := Sender.due_retransmit hx hsent
      rw [hmsg]
      exact h.tracks.pending _ p hp
  · exact h.removed
  · intro e he
    have hget : (s.step (.due nowMs)).tx.pending.get? e.1 =
        (s.tx.pending.get? e.1).map fun p => (Sender.tick nowMs e.1 p).1 :=
      Sender.due_get? nowMs e.1
    rw [hget, h.gone e he]
    rfl
  · exact h.once

theorem mem_removed {ack : UInt32} {e : UInt32 × Pending} :
    e ∈ s.tx.pending.entries.filter (fun e => !(s.tx.onAck ack).1.pending.contains e.1) ↔
      s.tx.pending.get? e.1 = some e.2 ∧ (s.tx.onAck ack).1.pending.get? e.1 = none := by
  rw [List.mem_filter, ← OrdMap.mem_entries_iff]
  simp [OrdMap.contains]

theorem SenderSound.onAck (h : SenderSound s) (ack : UInt32) :
    SenderSound (s.step (.onAck ack)) := by
  constructor
  · apply h.tracks.onAck ack
    · intro k hk
      refine hk.imp_right ?_
      intro hk
      simp only [step, List.map_append, List.mem_append]
      exact .inl hk
    · intro k p hp hk
      refine .inr (List.mem_map.mpr ⟨(k, p), ?_, rfl⟩)
      exact List.mem_append_right _ (mem_removed.mpr ⟨hp, hk⟩)
  · exact h.wire
  · intro e he
    cases List.mem_append.mp he with
    | inl he => exact h.removed e he
    | inr he => exact h.tracks.pending _ _ (mem_removed.mp he).1
  · intro e he
    cases List.mem_append.mp he with
    | inl he =>
      cases hk : (s.step (.onAck ack)).tx.pending.get? e.1 with
      | none => rfl
      | some p =>
        have hold := Sender.onAck_get? hk
        rw [h.gone e he] at hold
        cases hold
    | inr he => exact (mem_removed.mp he).2
  · have hsub : (s.tx.pending.entries.filter fun e =>
        !(s.tx.onAck ack).1.pending.contains e.1).Sublist s.tx.pending.entries :=
      List.filter_sublist
    have hnodup := (hsub.map Prod.fst).nodup s.tx.pending.keys_nodup
    simp only [step, List.map_append]
    refine h.once.append hnodup ?_
    intro k hk hk'
    obtain ⟨e, he, rfl⟩ := List.mem_map.mp hk
    obtain ⟨e', he', heq⟩ := List.mem_map.mp hk'
    have hsome := (mem_removed.mp he').1
    rw [heq, h.gone e he] at hsome
    cases hsome

/-- An ack removes nothing that the receiver has not covered. -/
theorem Sound.onAck (h : Sound s) {ack : UInt32} (ha : ack ∈ s.acks) :
    Sound (s.step (.onAck ack)) := by
  refine ⟨h.toSenderSound.onAck ack, ?_⟩
  refine h.toReceiverSound.of_sender (List.prefix_refl _) rfl rfl rfl ?_
  intro e he
  cases List.mem_append.mp he with
  | inl he => exact h.cleared e he
  | inr he =>
    obtain ⟨hsome, hnone⟩ := mem_removed.mp he
    obtain ⟨marked, covered, hacc, -⟩ := h.stream
    obtain ⟨hpre, hnum⟩ := gNext_toNat h.tracks.bound hacc
    have hcov := hpre.length_le
    have hbound := h.tracks.bound
    have hack := h.acks ack ha
    have hle := h.tracks.removed_le (by omega) hsome hnone
    omega

/-- Releasing messages that the pointer or a marker accounts for. -/
theorem ReceiverSound.extend {s' : Link} (h : ReceiverSound s)
    (hlen : s.sent.length < 2 ^ 31) (released : List RecvMsg)
    (hext : ∀ marked covered, s.rx.Accounts (arrivalsOf s.sent) marked covered s.released →
      ∃ marked' ext, s'.rx.Accounts (arrivalsOf s.sent) marked' (covered ++ ext)
          (s.released ++ released) ∧ released.filter guarSeq = ext.filter guarSeq)
    (hsent : s'.sent = s.sent) (hreleased : s'.released = s.released ++ released)
    (hacks : s'.acks = s.acks) (hcleared : s'.cleared = s.cleared) : ReceiverSound s' := by
  obtain ⟨⟨marked, covered, hacc, hf⟩, ha, hc⟩ := h
  obtain ⟨marked', ext, hacc', hf'⟩ := hext marked covered hacc
  have hnum := (gNext_toNat hlen hacc).2
  have hnum' := (gNext_toNat hlen hacc').2
  have hmono : s.rx.gNext.toNat ≤ s'.rx.gNext.toNat := by
    rw [hnum, hnum', List.length_append]
    omega
  constructor
  · refine ⟨marked', covered ++ ext, ?_, ?_⟩
    · rw [hsent, hreleased]
      exact hacc'
    · rw [hreleased, List.filter_append, List.filter_append, hf, hf']
  · intro a hmem
    rw [hacks] at hmem
    exact (ha a hmem).trans_le hmono
  · intro e he
    rw [hcleared] at he
    exact (hc e he).trans_le hmono

theorem Sound.deliver (h : Sound s) {d : Datagram} (nowMs : ℕ)
    (hd : d ∈ s.wire) : Sound (s.step (.deliver d nowMs)) := by
  refine ⟨h.toSenderSound.of_receiver rfl rfl rfl rfl rfl, ?_⟩
  refine h.toReceiverSound.extend h.tracks.bound
    (s.rx.onMessage d.seq d.options d.payload nowMs).2.released ?_ rfl rfl rfl rfl
  intro marked covered hacc
  by_cases hg : guaranteed d.options = true
  · have harr := h.wire d hd hg
    have hne : d.seq ≠ 0 := by
      intro h0
      have hpos := (arrived_le_length harr).1
      rw [h0] at hpos
      exact absurd hpos (by decide)
    obtain ⟨marked', ext, hacc', hf, -⟩ := Receiver.onMessage_extends hacc nowMs hne harr
    exact ⟨marked', ext, hacc', hf⟩
  · have hg' : guaranteed d.options = false := by simpa using hg
    obtain ⟨hnext, hbuf, hrel⟩ := Receiver.onMessage_other s.rx d.payload nowMs
      (.inr hg' : d.seq = 0 ∨ guaranteed d.options = false)
    refine ⟨marked, [], ?_, ?_⟩
    · simp only [step, Receiver.Accounts, hnext, hbuf, List.append_nil]
      exact hacc.mono_out (List.sublist_append_left _ _).subperm
    · rcases hrel with hrel | hrel <;> simp [hrel, guarSeq, hg']

/-- Producing an ack value: it names what the receiver has covered. -/
theorem Sound.produce (h : Sound s) {s' : Link} (produced : List UInt32)
    (hnext : s'.rx.gNext = s.rx.gNext) (hbuf : s'.rx.gBuf = s.rx.gBuf)
    (hacks : s'.acks = s.acks ++ produced) (hprod : ∀ a ∈ produced, a = s.rx.ackValue)
    (htx : s'.tx = s.tx) (hwire : s'.wire = s.wire) (hsent : s'.sent = s.sent)
    (hreleased : s'.released = s.released) (hevicted : s'.evicted = s.evicted)
    (hcleared : s'.cleared = s.cleared) : Sound s' := by
  refine ⟨h.toSenderSound.of_receiver htx hwire hsent hevicted hcleared, ?_⟩
  obtain ⟨marked, covered, hacc, hf⟩ := h.stream
  have hnum := (gNext_toNat h.tracks.bound hacc).2
  constructor
  · refine ⟨marked, covered, ?_, by rw [hreleased, hf]⟩
    simp only [Receiver.Accounts, hnext, hbuf, hsent, hreleased]
    exact hacc
  · intro a ha
    rw [hacks, List.mem_append] at ha
    rw [hnext]
    rcases ha with ha | ha
    · exact h.acks a ha
    · have hval : s.rx.ackValue.toNat = s.rx.gNext.toNat - 1 := toNat_sub_one (by omega)
      rw [hprod a ha, hval]
      omega
  · rw [hcleared, hnext]
    exact h.cleared

theorem forcedAck_spec (r : Receiver) (nowMs : ℕ) :
    (r.forcedAck nowMs).1.gNext = r.gNext ∧ (r.forcedAck nowMs).1.gBuf = r.gBuf ∧
      ∀ a ∈ (r.forcedAck nowMs).2.toList, a = r.ackValue := by
  unfold Receiver.forcedAck
  split
  · split_ifs
    · exact ⟨rfl, rfl, by simp⟩
    · exact ⟨rfl, rfl, by simp⟩
  · exact ⟨rfl, rfl, by simp⟩

/-- Every legal step keeps the pairing sound. -/
theorem Sound.step (h : Sound s) (e : LinkEvent) (he : s.Legal e) :
    Sound (s.step e) := by
  cases e with
  | send payload options nowMs =>
    obtain ⟨hne, hlen⟩ := he
    by_cases hg : guaranteed options = true
    · refine ⟨h.toSenderSound.send_guaranteed hg hne (hlen hg), ?_⟩
      refine h.toReceiverSound.of_sender ?_ rfl rfl rfl h.cleared
      simp [Link.step, hg]
    · have hg' : guaranteed options = false := by simpa using hg
      refine ⟨h.toSenderSound.send_other hg', ?_⟩
      refine h.toReceiverSound.of_sender ?_ rfl rfl rfl h.cleared
      simp [Link.step, hg']
  | due nowMs =>
    exact ⟨h.toSenderSound.due nowMs,
      h.toReceiverSound.of_sender (List.prefix_refl _) rfl rfl rfl h.cleared⟩
  | deliver d nowMs => exact h.deliver nowMs he
  | ackValue =>
    exact h.produce [s.rx.ackValue] rfl rfl rfl (by simp) rfl rfl rfl rfl rfl rfl
  | piggybackAck =>
    exact h.produce [s.rx.ackValue] rfl rfl rfl (by simp) rfl rfl rfl rfl rfl rfl
  | forcedAck nowMs =>
    obtain ⟨hnext, hbuf, hval⟩ := forcedAck_spec s.rx nowMs
    exact h.produce _ hnext hbuf rfl hval rfl rfl rfl rfl rfl rfl
  | onAck ack => exact h.onAck he

theorem Sound.run (h : Sound s) {es : List LinkEvent}
    (hrun : Along Link.step Legal s es) : Sound (run Link.step s es) :=
  run_invariant (fun _ e hs he => hs.step e he) h hrun

/-- In a pairing sound from the start, the released messages of the sequential mode
are the first ones sent in that mode. -/
theorem Sound.released_prefix (h : Sound s) :
    s.released.filter guarSeq <+: s.sent.filter guarSeq := by
  obtain ⟨marked, covered, hacc, hf⟩ := h.stream
  rw [hf]
  exact (gNext_toNat h.tracks.bound hacc).1.filter guarSeq

/-- The entries that acks removed were all released, one release for each of them. -/
theorem Sound.cleared_subperm (h : Sound s) :
    (s.cleared.map fun e => e.2.msg).Subperm s.released := by
  obtain ⟨marked, covered, hacc, -⟩ := h.stream
  obtain ⟨hpre, hnum⟩ := gNext_toNat h.tracks.bound hacc
  have hmem : ∀ e ∈ s.cleared, e.1.toNat - 1 < covered.length ∧
      covered[e.1.toNat - 1]? = some e.2.msg := by
    intro e he
    have hcov := h.cleared e he
    have hpos := arrived_le_length (h.removed e he)
    obtain ⟨⟨-, hget⟩, -⟩ := h.removed e he
    have hidx : e.1.toNat - 1 < covered.length := by omega
    obtain ⟨rest, hrest⟩ := hpre
    rw [← hrest, List.getElem?_append_left hidx] at hget
    exact ⟨hidx, hget⟩
  have hnodup : (s.cleared.map fun e => e.1.toNat - 1).Nodup := by
    have hcomp : (s.cleared.map fun e => e.1.toNat - 1) =
        (s.cleared.map Prod.fst).map fun k => k.toNat - 1 := by simp
    rw [hcomp]
    refine h.once.map_on ?_
    intro k hk k' hk' heq
    obtain ⟨e, he, rfl⟩ := List.mem_map.mp hk
    obtain ⟨e', he', rfl⟩ := List.mem_map.mp hk'
    have hpos := arrived_le_length (h.removed e he)
    have hpos' := arrived_le_length (h.removed e' he')
    exact UInt32.toNat_inj.mp (by omega)
  have hrange : (s.cleared.map fun e => e.1.toNat - 1).Subperm (List.range covered.length) := by
    refine hnodup.subperm ?_
    intro i hi
    obtain ⟨e, he, rfl⟩ := List.mem_map.mp hi
    exact List.mem_range.mpr (hmem e he).1
  have hsome : ((s.cleared.map fun e => e.2.msg).map some).Subperm (covered.map some) := by
    obtain ⟨l, hperm, hsub⟩ := hrange
    have hleft : (s.cleared.map fun e => e.2.msg).map some =
        (s.cleared.map fun e => e.1.toNat - 1).map fun i => covered[i]? := by
      rw [List.map_map, List.map_map]
      exact List.map_congr_left fun e he => (hmem e he).2.symm
    have hright : covered.map some = (List.range covered.length).map fun i => covered[i]? := by
      refine List.ext_getElem (by simp) ?_
      intro i hi hi'
      simp at hi
      simp [hi]
    rw [hleft, hright]
    exact ⟨l.map fun i => covered[i]?, hperm.map _, hsub.map _⟩
  have hcovered := (List.map_subperm_map_iff (Option.some_injective _)).mp hsome
  have hout : covered.Subperm s.released :=
    ((List.sublist_append_left covered marked.values).subperm).trans hacc.accounted
  exact hcovered.trans hout

/-- Safety of one reliable pairing: after every legal run from fresh endpoints, the
guaranteed and sequential messages the receiver released are a prefix of those sent,
and the messages that acks removed from the pending map were all released. -/
theorem released_prefix_and_cleared_released (es : List LinkEvent)
    (h : Along Link.step Legal fresh es) :
    (Lib.run Link.step fresh es).released.filter guarSeq <+:
        (Lib.run Link.step fresh es).sent.filter guarSeq ∧
      ((Lib.run Link.step fresh es).cleared.map fun e => e.2.msg).Subperm
        (Lib.run Link.step fresh es).released := by
  have hs := fresh_sound.run h
  exact ⟨hs.released_prefix, hs.cleared_subperm⟩

/-- Two sequential messages that overtake each other, with a nonsequential one and a
retransmission between them. -/
def overtaking : List LinkEvent :=
  [.send [1] 3 0, .send [2] 1 0, .send [3] 3 5, .due 60, .deliver ⟨3, 3, [3]⟩ 61,
    .deliver ⟨2, 1, [2]⟩ 62, .deliver ⟨1, 3, [1]⟩ 63, .deliver ⟨2, 1, [2]⟩ 64, .ackValue, .onAck 3]

theorem overtaking_in_order :
    (Lib.run Link.step fresh overtaking).released = [⟨[2], 1⟩, ⟨[1], 3⟩, ⟨[3], 3⟩] ∧
      (Lib.run Link.step fresh overtaking).cleared.length = 3 ∧
      ((Lib.run Link.step fresh overtaking).released.filter guarSeq <+:
          (Lib.run Link.step fresh overtaking).sent.filter guarSeq ∧
        ((Lib.run Link.step fresh overtaking).cleared.map fun e => e.2.msg).Subperm
          (Lib.run Link.step fresh overtaking).released) :=
  ⟨by decide, by decide, released_prefix_and_cleared_released overtaking (by decide)⟩

end Link

end GbfrLan.Party
