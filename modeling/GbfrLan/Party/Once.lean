import GbfrLan.Party.Numbered
import GbfrLan.Party.Pairing

/-!
# Guaranteed messages without an order

A guaranteed nonsequential message is released when it arrives, and its number stays behind in the
buffer as a marker until the pointer passes it. Below `2 ^ 31` messages a number names one message,
so a second copy is recognised as long as the full buffer gives up no marker.
-/
namespace GbfrLan.Party
open Lib

/-- `m` is the guaranteed message with the number `k`: numbers are positions in the send order. -/
def Numbers (sent : List RecvMsg) (k : UInt32) (m : RecvMsg) : Prop :=
  0 < k.toNat ∧ sent[k.toNat - 1]? = some m

namespace Numbers

variable {sent sent' : List RecvMsg} {k : UInt32} {m m' : RecvMsg}

theorem le_length (h : Numbers sent k m) : 0 < k.toNat ∧ k.toNat ≤ sent.length := by
  have hlt : k.toNat - 1 < sent.length := (List.getElem?_eq_some_iff.mp h.2).1
  exact ⟨h.1, by have := h.1; omega⟩

theorem mono (h : Numbers sent k m) (hs : sent <+: sent') : Numbers sent' k m := by
  obtain ⟨rest, rfl⟩ := hs
  have hlt : k.toNat - 1 < sent.length := (List.getElem?_eq_some_iff.mp h.2).1
  exact ⟨h.1, by rw [List.getElem?_append_left hlt, h.2]⟩

theorem unique (h : Numbers sent k m) (h' : Numbers sent k m') : m = m' :=
  Option.some.inj (h.2.symm.trans h'.2)

theorem mem (h : Numbers sent k m) : m ∈ sent := List.mem_of_getElem? h.2

/-- The number behind the last one goes to the next message. -/
theorem next (hk : k.toNat = sent.length + 1) (m : RecvMsg) : Numbers (sent ++ [m]) k m :=
  ⟨by omega, by rw [hk, Nat.add_sub_cancel, List.getElem?_concat_length]⟩

end Numbers

/-! ### The receiver -/

namespace Receiver

/-- The pointer and the buffer against the numbers: an entry is the payload of a sequential message
or the marker of another one. -/
structure Follows (r : Receiver) (sent : List RecvMsg) : Prop where
  pos : 0 < r.gNext.toNat
  near : r.gNext.toNat ≤ sent.length + 1
  buffered : ∀ k o p, r.gBuf.get? k = some (o, p) →
    ∃ m, Numbers sent k m ∧ m.options = o ∧ p = if sequential o then m.payload else []

/-- A number that the receiver recognises: its pointer has passed it, or it is in the buffer. -/
def Recalls (r : Receiver) (k : UInt32) : Prop :=
  k.toNat < r.gNext.toNat ∨ r.gBuf.contains k = true

/-- The release is of a message without an order. -/
def unordered (x : UInt32 × RecvMsg) : Bool := !sequential x.2.options

/-- The datagram has to be stored in a full buffer whose newest entry is a marker. -/
def givesUpMarker (r : Receiver) (d : Datagram) : Bool :=
  guaranteed d.options && d.seq != 0 && !r.duplicate d.seq &&
    !(sequential d.options && d.seq == r.gNext) &&
    ((r.toEvict.bind r.gBuf.get?).map fun e => !sequential e.1).getD false

variable {r : Receiver} {sent : List RecvMsg} {seq options : UInt32} {payload : Bytes}

theorem drain_recalls (fuel : ℕ) {next : UInt32} {buf : OrdMap UInt32 (UInt32 × Bytes)}
    (hlen : sent.length < 2 ^ 31) (hnear : next.toNat ≤ sent.length + 1)
    (hbuf : ∀ k, buf.contains k = true → k.toNat ≤ sent.length) :
    next.toNat ≤ (drain fuel next buf).1.toNat ∧
      (drain fuel next buf).1.toNat ≤ sent.length + 1 ∧
      ∀ k, buf.contains k = true → k.toNat < (drain fuel next buf).1.toNat ∨
        (drain fuel next buf).2.1.contains k = true := by
  induction fuel generalizing next buf with
  | zero => exact ⟨le_refl _, hnear, fun k hk => .inr hk⟩
  | succ fuel ih =>
    unfold drain
    cases hk : buf.get? next with
    | none => exact ⟨le_refl _, hnear, fun k hk => .inr hk⟩
    | some e =>
      have hle := hbuf next ((OrdMap.contains_iff _ _).mpr ⟨e, hk⟩)
      have hnum := toNat_add_one (a := next) (by omega)
      obtain ⟨hmono, hnear', hrest⟩ := @ih (next + 1) (buf.erase next) (by omega)
        fun k hk => hbuf k (OrdMap.contains_erase_iff.mp hk).2
      refine ⟨by simp only; omega, hnear', fun k hk => ?_⟩
      by_cases heq : k = next
      · left
        rw [heq]
        simp only
        omega
      · exact hrest k (OrdMap.contains_erase_iff.mpr ⟨heq, hk⟩)

theorem Follows.key_le (h : r.Follows sent) {k : UInt32} (hk : r.gBuf.contains k = true) :
    k.toNat ≤ sent.length := by
  obtain ⟨⟨o, p⟩, he⟩ := (OrdMap.contains_iff _ _).mp hk
  obtain ⟨m, hm, -⟩ := h.buffered k o p he
  exact hm.le_length.2

/-- The numbers that are recognised are those that are discarded. -/
theorem Follows.duplicate_iff (h : r.Follows sent) (hlen : sent.length < 2 ^ 31) {m : RecvMsg}
    (hm : Numbers sent seq m) : r.duplicate seq = true ↔ r.Recalls seq := by
  have hpos := h.pos
  have hnear := h.near
  have hle := hm.le_length
  have hsub := toNat_sub_one hpos
  unfold duplicate Recalls
  rw [Bool.or_eq_true, seqLe_iff_le (by omega) (by omega), hsub]
  exact or_congr_left (by omega)

/-- Storing keeps every number but the one it evicts. -/
theorem store_recalls (r : Receiver) (seq options : UInt32) (payload : Bytes) {k : UInt32}
    (hk : k = seq ∨ r.gBuf.contains k = true) :
    (r.store seq options payload).gBuf.contains k = true ∨ (k ≠ seq ∧ r.toEvict = some k) := by
  by_cases hseq : k = seq
  · left
    unfold store
    split <;> simp [OrdMap.contains, hseq]
  · have hin := hk.resolve_left hseq
    unfold store
    split
    · rename_i k' hevict
      by_cases heq : k = k'
      · exact .inr ⟨hseq, by rw [heq, hevict]⟩
      · left
        exact OrdMap.contains_insert_iff.mpr (.inr (OrdMap.contains_erase_iff.mpr ⟨heq, hin⟩))
    · exact .inl (OrdMap.contains_insert_iff.mpr (.inr hin))

theorem Follows.store (h : r.Follows sent) {m : RecvMsg} (hm : Numbers sent seq m) :
    (r.store seq m.options (if sequential m.options then m.payload else [])).Follows sent := by
  obtain ⟨buf₀, hbuf, hsub⟩ := store_gBuf r seq m.options
    (if sequential m.options then m.payload else [])
  refine ⟨by rw [store_gNext]; exact h.pos, by rw [store_gNext]; exact h.near, ?_⟩
  intro k o p hk
  rw [hbuf, OrdMap.get?_insert] at hk
  by_cases heq : k = seq
  · rw [if_pos heq, Option.some.injEq, Prod.mk.injEq] at hk
    exact ⟨m, heq ▸ hm, hk.1, by rw [← hk.1, hk.2]⟩
  · rw [if_neg heq] at hk
    exact h.buffered k o p (hsub k _ hk)

theorem Follows.mono (h : r.Follows sent) {sent' : List RecvMsg} (hs : sent <+: sent') :
    r.Follows sent' where
  pos := h.pos
  near := h.near.trans (Nat.add_le_add_right hs.length_le 1)
  buffered k o p hk := by
    obtain ⟨m, hm, hrest⟩ := h.buffered k o p hk
    exact ⟨m, hm.mono hs, hrest⟩

theorem Follows.congr (h : r.Follows sent) {r' : Receiver} (hs : SameStream r r') :
    r'.Follows sent where
  pos := hs.1 ▸ h.pos
  near := hs.1 ▸ h.near
  buffered := hs.2 ▸ h.buffered

theorem Recalls.congr {k : UInt32} (h : r.Recalls k) {r' : Receiver} (hs : SameStream r r') :
    r'.Recalls k := by
  unfold Recalls
  rw [hs.1, hs.2]
  exact h

/-- The drain loop behind a pointer that has come this far. -/
theorem Follows.advance (h : r.Follows sent) (hlen : sent.length < 2 ^ 31) :
    r.advance.1.Follows sent ∧ r.gNext.toNat ≤ r.advance.1.gNext.toNat ∧
      ∀ k, r.Recalls k → r.advance.1.Recalls k := by
  obtain ⟨hmono, hnear, hrest⟩ := drain_recalls r.gBuf.size hlen h.near fun k => h.key_le (k := k)
  have hpos := h.pos
  refine ⟨⟨?_, hnear, fun k o p hk => h.buffered k o p (drain_get? _ hk)⟩, hmono, ?_⟩
  · show 0 < (drain r.gBuf.size r.gNext r.gBuf).1.toNat
    omega
  · rintro k (hlt | hin)
    · exact .inl (lt_of_lt_of_le hlt hmono)
    · exact hrest k hin

/-- What the guaranteed branch does to the numbers it recognises: it forgets at most the one that it
evicts, and recognises a message without an order from now on. -/
theorem Follows.onGuaranteed (h : r.Follows sent) (hlen : sent.length < 2 ^ 31)
    (hm : Numbers sent seq ⟨payload, options⟩) :
    (r.onGuaranteed seq options payload).1.Follows sent ∧
      (sequential options = false → (r.onGuaranteed seq options payload).1.Recalls seq) ∧
      ∀ k, r.Recalls k → (r.onGuaranteed seq options payload).1.Recalls k ∨
        (r.toEvict = some k ∧ r.duplicate seq = false ∧
          ¬(sequential options = true ∧ seq = r.gNext)) := by
  have hnear := h.near
  have hle := hm.le_length
  unfold Receiver.onGuaranteed
  split_ifs with hdup hseq hnext
  · exact ⟨h, fun _ => (h.duplicate_iff hlen hm).mp hdup, fun k hk => .inl hk⟩
  · have heq : seq = r.gNext := by simpa using hnext
    have hnum := toNat_add_one (a := r.gNext) (by omega)
    have hmoved : ({ r with gNext := r.gNext + 1 } : Receiver).Follows sent :=
      ⟨by simp only; omega, by simp only; rw [hnum, ← heq]; omega, h.buffered⟩
    obtain ⟨hfollows, -, hrecalls⟩ := hmoved.advance hlen
    refine ⟨hfollows, fun hno => ?_, fun k hk => .inl (hrecalls k ?_)⟩
    · rw [hseq] at hno
      cases hno
    · exact hk.imp_left fun hlt => by simp only; omega
  · have hd : r.duplicate seq = false := by simpa [duplicate] using hdup
    have hstore : (r.store seq options payload).Follows sent := by
      simpa [hseq] using h.store hm
    refine ⟨hstore, fun hno => ?_, fun k hk => ?_⟩
    · rw [hseq] at hno
      cases hno
    · rcases hk with hlt | hin
      · exact .inl (.inl (by rw [store_gNext]; exact hlt))
      · refine (store_recalls r seq options payload (.inr hin)).imp .inr fun hev => ?_
        exact ⟨hev.2, hd, fun hboth => hnext (by simpa using hboth.2)⟩
  · have hd : r.duplicate seq = false := by simpa [duplicate] using hdup
    have hnon : sequential options = false := by simpa using hseq
    have hstore : (r.store seq options []).Follows sent := by
      simpa [hnon] using h.store hm
    obtain ⟨hfollows, -, hrecalls⟩ := hstore.advance hlen
    refine ⟨hfollows, fun _ => hrecalls seq ?_, fun k hk => ?_⟩
    · exact .inr ((store_recalls r seq options [] (.inl rfl)).resolve_right fun hev => hev.1 rfl)
    · rcases hk with hlt | hin
      · exact .inl (hrecalls k (.inl (by rw [store_gNext]; exact hlt)))
      · refine (store_recalls r seq options [] (.inr hin)).imp (fun hk => hrecalls k (.inr hk)) ?_
        exact fun hev => ⟨hev.2, hd, fun hboth => hseq hboth.1⟩

/-- Every release is of the message with its number, and one without an order is the message at
hand. -/
theorem Follows.numbered (h : r.Follows sent) (hm : Numbers sent seq ⟨payload, options⟩) :
    (∀ x ∈ r.numbered seq options payload, Numbers sent x.1 x.2) ∧
      (r.numbered seq options payload).filter unordered =
        if r.duplicate seq || sequential options then [] else [(seq, ⟨payload, options⟩)] := by
  have hdrained : ∀ (fuel : ℕ) (next : UInt32) (buf : OrdMap UInt32 (UInt32 × Bytes)),
      (∀ k o p, buf.get? k = some (o, p) → p ≠ [] → r.gBuf.get? k = some (o, p)) →
      ∀ x ∈ drainNumbered fuel next buf, Numbers sent x.1 x.2 ∧ unordered x = false := by
    intro fuel next buf hbuf x hx
    obtain ⟨hk, hne⟩ := drainNumbered_key fuel x hx
    obtain ⟨m, hm, hopts, hp⟩ := h.buffered _ _ _ (hbuf _ _ _ hk hne)
    cases hs : sequential x.2.options with
    | true =>
      rw [hs, if_pos rfl] at hp
      have hx2 : x.2 = m := by
        rw [← show (⟨m.payload, m.options⟩ : RecvMsg) = m from rfl, ← hp, hopts]
      exact ⟨hx2 ▸ hm, by simp [unordered, hs]⟩
    | false =>
      rw [hs] at hp
      exact absurd hp hne
  have hnone {l : List (UInt32 × RecvMsg)} (hl : ∀ x ∈ l, unordered x = false) :
      l.filter unordered = [] :=
    List.filter_eq_nil_iff.mpr fun x hx => by simp [hl x hx]
  unfold Receiver.numbered
  cases hdup : r.duplicate seq with
  | true => simp
  | false =>
    simp only [Bool.false_eq_true, if_false, Bool.false_or]
    cases hseq : sequential options with
    | true =>
      simp only [if_true]
      split_ifs with hnext
      · have hall : ∀ x ∈ (release options payload).map (fun m => (seq, m)) ++
            drainNumbered r.gBuf.size (r.gNext + 1) r.gBuf,
            Numbers sent x.1 x.2 ∧ unordered x = false := by
          intro x hx
          rcases List.mem_append.mp hx with hx | hx
          · obtain ⟨m', hm', rfl⟩ := List.mem_map.mp hx
            unfold release at hm'
            split_ifs at hm'
            · cases hm'
            · rw [List.mem_singleton.mp hm']
              exact ⟨hm, by simp [unordered, hseq]⟩
          · exact hdrained _ _ r.gBuf (fun _ _ _ hk _ => hk) x hx
        exact ⟨fun x hx => (hall x hx).1, hnone fun x hx => (hall x hx).2⟩
      · simp
    | false =>
      simp only [Bool.false_eq_true, if_false]
      obtain ⟨buf₀, hbuf, hsub⟩ := store_gBuf r seq options []
      have hall := hdrained (r.store seq options []).gBuf.size (r.store seq options []).gNext
        (r.store seq options []).gBuf fun k o p hk hne => by
          rw [hbuf, OrdMap.get?_insert] at hk
          split_ifs at hk
          · simp only [Option.some.injEq, Prod.mk.injEq] at hk
            exact absurd hk.2.symm hne
          · exact hsub k _ hk
      refine ⟨fun x hx => ?_, ?_⟩
      · rcases List.mem_cons.mp hx with rfl | hx
        · exact hm
        · exact (hall x hx).1
      · have hkeep : unordered (seq, ⟨payload, options⟩) = true := by simp [unordered, hseq]
        rw [List.filter_cons_of_pos hkeep, hnone fun x hx => (hall x hx).2]

end Receiver

/-! ### Runs of a pairing -/

namespace Link

/-- What the environment may do: send anything while fewer than `2 ^ 31` guaranteed messages were
sent in all, deliver what is on the wire, and feed back any ack. -/
def Allowed (s : Link) : LinkEvent → Prop
  | .send _ options _ => guaranteed options = true → s.sent.length + 1 < 2 ^ 31
  | .deliver d _ => d ∈ s.wire
  | _ => True

instance (s : Link) : ∀ e, Decidable (s.Allowed e)
  | .send _ options _ => inferInstanceAs (Decidable (guaranteed options = true →
      s.sent.length + 1 < 2 ^ 31))
  | .deliver d _ => inferInstanceAs (Decidable (d ∈ s.wire))
  | .onAck _ | .due _ | .ackValue | .piggybackAck | .forcedAck _ => inferInstanceAs (Decidable True)

/-- The receiver gives up no marker for the datagram. -/
def KeepsMarkers (s : Link) : LinkEvent → Prop
  | .deliver d _ => s.rx.givesUpMarker d = false
  | _ => True

instance (s : Link) : ∀ e, Decidable (s.KeepsMarkers e)
  | .deliver d _ => inferInstanceAs (Decidable (s.rx.givesUpMarker d = false))
  | .send .. | .onAck _ | .due _ | .ackValue | .piggybackAck | .forcedAck _ =>
      inferInstanceAs (Decidable True)

/-- What a step releases of the guaranteed messages, with their numbers. -/
def releases (s : Link) : LinkEvent → List (UInt32 × RecvMsg)
  | .deliver d _ =>
      if guaranteed d.options && d.seq != 0 then s.rx.numbered d.seq d.options d.payload else []
  | _ => []

/-- The releases of a run. -/
def releaseLog : Link → List LinkEvent → List (UInt32 × RecvMsg)
  | _, [] => []
  | s, e :: es => s.releases e ++ releaseLog (s.step e) es

theorem releaseLog_append (s : Link) (es fs : List LinkEvent) :
    releaseLog s (es ++ fs) = releaseLog s es ++ releaseLog (Lib.run step s es) fs := by
  induction es generalizing s with
  | nil => rfl
  | cons e es ih => simp only [List.cons_append, releaseLog, ih, run_cons, List.append_assoc]

/-- The sender's side: numbers are positions, on the wire and in the pending map. -/
structure Counts (s : Link) : Prop where
  bound : s.sent.length < 2 ^ 31
  next : s.tx.nextGseq.toNat = s.sent.length + 1
  guaranteed : ∀ m ∈ s.sent, guaranteed m.options = true
  pending : ∀ k p, s.tx.pending.get? k = some p → Numbers s.sent k p.msg
  wire : ∀ d ∈ s.wire, Party.guaranteed d.options = true → Numbers s.sent d.seq d.msg

variable {s : Link}

theorem fresh_counts : Counts fresh where
  bound := by simp [fresh]
  next := rfl
  guaranteed := by simp [fresh]
  pending := by simp [fresh, Sender.new]
  wire := by simp [fresh]

theorem Counts.of_sender {s' : Link} (h : Counts s) (htx : s'.tx = s.tx) (hwire : s'.wire = s.wire)
    (hsent : s'.sent = s.sent) : Counts s' := by
  obtain ⟨h1, h2, h3, h4, h5⟩ := h
  constructor <;> simp only [htx, hwire, hsent] <;> assumption

theorem Counts.send (h : Counts s) {payload : Bytes} {options : UInt32} {nowMs : ℕ}
    (hlen : Party.guaranteed options = true → s.sent.length + 1 < 2 ^ 31) :
    Counts (s.step (.send payload options nowMs)) := by
  by_cases hg : Party.guaranteed options = true
  · obtain ⟨hnext, hout, hget⟩ := Sender.send_guaranteed s.tx payload nowMs hg
    have hsent : (s.step (.send payload options nowMs)).sent = s.sent ++ [⟨payload, options⟩] := by
      simp [step, hg]
    have hpre := List.prefix_append s.sent [⟨payload, options⟩]
    have hnew : Numbers (s.sent ++ [⟨payload, options⟩]) s.tx.nextGseq ⟨payload, options⟩ :=
      .next h.next _
    have hroom := hlen hg
    constructor
    · rw [hsent, List.length_append, List.length_singleton]
      exact hroom
    · have hnum := toNat_add_one (a := s.tx.nextGseq) (by rw [h.next]; omega)
      rw [hsent, List.length_append, List.length_singleton]
      show (s.tx.send payload options nowMs).1.nextGseq.toNat = _
      rw [hnext, hnum, h.next]
    · intro m hm
      rw [hsent] at hm
      rcases List.mem_append.mp hm with hm | hm
      · exact h.guaranteed m hm
      · rw [List.mem_singleton.mp hm]
        exact hg
    · intro k p hk
      rw [hsent]
      rcases hget k p hk with ⟨rfl, hp⟩ | hold
      · rw [hp]
        exact hnew
      · exact (h.pending k p hold).mono hpre
    · intro d hd hdg
      rw [hsent]
      simp only [step, hout, List.mem_append, List.mem_singleton] at hd
      rcases hd with hd | rfl
      · exact (h.wire d hd hdg).mono hpre
      · exact hnew
  · have hg' : Party.guaranteed options = false := by simpa using hg
    obtain ⟨hnext, hpend, hopt, -⟩ := Sender.send_other s.tx payload nowMs hg'
    have hsent : (s.step (.send payload options nowMs)).sent = s.sent := by simp [step, hg']
    have htx : (s.step (.send payload options nowMs)).tx.pending = s.tx.pending := hpend
    refine ⟨hsent ▸ h.bound, ?_, hsent ▸ h.guaranteed, ?_, ?_⟩
    · rw [hsent, ← h.next, ← hnext]
      rfl
    · rw [hsent, htx]
      exact h.pending
    · intro d hd hdg
      rw [hsent]
      simp only [step, List.mem_append, List.mem_singleton] at hd
      rcases hd with hd | rfl
      · exact h.wire d hd hdg
      · have hopt' : ((s.tx.send payload options nowMs).2.datagram).options = options := hopt
        rw [hopt', hg'] at hdg
        cases hdg

theorem Counts.due (h : Counts s) (nowMs : ℕ) : Counts (s.step (.due nowMs)) where
  bound := h.bound
  next := h.next
  guaranteed := h.guaranteed
  pending k p hk := by
    have hget : (s.tx.due nowMs).1.pending.get? k = some p := hk
    rw [Sender.due_get?, Option.map_eq_some_iff] at hget
    obtain ⟨q, hq, rfl⟩ := hget
    rw [Sender.tick_msg]
    exact h.pending k q hq
  wire d hd hdg := by
    simp only [step, List.mem_append, List.mem_map, List.mem_filter, Bool.not_eq_true'] at hd
    rcases hd with hd | ⟨x, ⟨hx, hsent⟩, rfl⟩
    · exact h.wire d hd hdg
    · obtain ⟨p, hp, hmsg⟩ := Sender.due_retransmit hx hsent
      rw [hmsg]
      exact h.pending _ p hp

theorem Counts.step (h : Counts s) (e : LinkEvent) (he : s.Allowed e) : Counts (s.step e) := by
  cases e with
  | send payload options nowMs => exact h.send he
  | due nowMs => exact h.due nowMs
  | deliver d nowMs => exact h.of_sender rfl rfl rfl
  | ackValue => exact h.of_sender rfl rfl rfl
  | piggybackAck => exact h.of_sender rfl rfl rfl
  | forcedAck nowMs => exact h.of_sender rfl rfl rfl
  | onAck ack =>
    exact ⟨h.bound, h.next, h.guaranteed, fun k p hk => h.pending k p (Sender.onAck_get? hk), h.wire⟩

/-- The releases of a run against the pairing: each is a message that was sent under its number, they
are what was released of the guaranteed messages, and the receiver recalls every one without an order,
none of which occurs twice. -/
structure Once (log : List (UInt32 × RecvMsg)) (s : Link) : Prop where
  counts : Counts s
  follows : s.rx.Follows s.sent
  numbers : ∀ x ∈ log, Numbers s.sent x.1 x.2
  released : log.map Prod.snd = s.released.filter fun m => guaranteed m.options
  recalls : ∀ x ∈ log.filter Receiver.unordered, s.rx.Recalls x.1
  once : ((log.filter Receiver.unordered).map Prod.fst).Nodup

namespace Once

variable {log : List (UInt32 × RecvMsg)}

theorem initial : Once [] fresh where
  counts := fresh_counts
  follows := ⟨by decide, by decide, by simp [fresh, Receiver.new]⟩
  numbers := by simp
  released := rfl
  recalls := by simp
  once := by simp

/-- Steps that release nothing and keep the stream of the receiver. -/
theorem quiet (h : Once log s) {s' : Link} (hcounts : Counts s') (hsent : s.sent <+: s'.sent)
    (hrx : SameStream s.rx s'.rx) (hreleased : s'.released = s.released) : Once log s' where
  counts := hcounts
  follows := (h.follows.mono hsent).congr hrx
  numbers x hx := (h.numbers x hx).mono hsent
  released := hreleased ▸ h.released
  recalls x hx := (h.recalls x hx).congr hrx
  once := h.once

/-- A datagram without a place in the guaranteed order. -/
theorem deliver_other (h : Once log s) {d : Datagram} (nowMs : ℕ)
    (hg : guaranteed d.options = false) : Once log (s.step (.deliver d nowMs)) := by
  obtain ⟨hnext, hbuf, hrel⟩ := Receiver.onMessage_other s.rx d.payload nowMs
    (.inr hg : d.seq = 0 ∨ guaranteed d.options = false)
  have hquiet : Once log { s with rx := (s.step (.deliver d nowMs)).rx } :=
    h.quiet (h.counts.of_sender rfl rfl rfl) (List.prefix_refl _) ⟨hnext, hbuf⟩ rfl
  refine { hquiet with counts := h.counts.of_sender rfl rfl rfl, released := ?_ }
  show _ = (s.released ++ (s.rx.onMessage d.seq d.options d.payload nowMs).2.released).filter _
  rcases hrel with hrel | hrel <;> simp [hrel, hg, h.released]

/-- A guaranteed datagram that makes the receiver give up no marker. -/
theorem deliver_guaranteed (h : Once log s) {d : Datagram} (nowMs : ℕ) (hd : d ∈ s.wire)
    (hg : guaranteed d.options = true) (hkeep : s.rx.givesUpMarker d = false) :
    Once (log ++ s.rx.numbered d.seq d.options d.payload) (s.step (.deliver d nowMs)) := by
  have hlen := h.counts.bound
  have hm : Numbers s.sent d.seq ⟨d.payload, d.options⟩ := h.counts.wire d hd hg
  have h0 : d.seq ≠ 0 := by
    intro h0
    have hpos := hm.1
    rw [h0] at hpos
    exact absurd hpos (by decide)
  obtain ⟨r₀, hsame, hmessage⟩ := Receiver.onMessage_guaranteed s.rx d.payload nowMs h0 hg
  have hrx : (s.step (.deliver d nowMs)).rx = (r₀.onGuaranteed d.seq d.options d.payload).1 :=
    congrArg Prod.fst hmessage
  have hreleased : (s.step (.deliver d nowMs)).released =
      s.released ++ (s.rx.numbered d.seq d.options d.payload).map Prod.snd := by
    rw [← Receiver.numbered_congr hsame, ← Receiver.onGuaranteed_released, ← hmessage]
    rfl
  have hfollows₀ := h.follows.congr hsame
  obtain ⟨hfollows, hnew, hrecalls⟩ := hfollows₀.onGuaranteed hlen hm
  obtain ⟨hnumbers, hunordered⟩ := h.follows.numbered hm
  -- Nothing that the log knows is evicted: an entry that may go belongs to a message with an order.
  have hkept : ∀ x ∈ log.filter Receiver.unordered,
      (r₀.onGuaranteed d.seq d.options d.payload).1.Recalls x.1 := by
    intro x hx
    obtain ⟨hx, hxo⟩ := List.mem_filter.mp hx
    refine (hrecalls x.1 ((h.recalls x (List.mem_filter.mpr ⟨hx, hxo⟩)).congr hsame)).resolve_right ?_
    rintro ⟨hevict, hdup, hnext⟩
    have hevict' : s.rx.toEvict = some x.1 := by
      rw [← hevict]
      unfold Receiver.toEvict
      rw [hsame.2]
    obtain ⟨e, he⟩ : ∃ e, s.rx.gBuf.get? x.1 = some e := by
      unfold Receiver.toEvict at hevict'
      split_ifs at hevict'
      obtain ⟨⟨k, e⟩, hlast, rfl⟩ := Option.map_eq_some_iff.mp hevict'
      exact ⟨e, OrdMap.last?_eq_some hlast⟩
    obtain ⟨m, hm', hopts, -⟩ := h.follows.buffered x.1 e.1 e.2 he
    have hmarker : sequential e.1 = false := by
      rw [← hopts, hm'.unique (h.numbers x hx)]
      simpa [Receiver.unordered] using hxo
    rw [Receiver.duplicate_congr hsame] at hdup
    rw [hsame.1] at hnext
    simp [Receiver.givesUpMarker, hg, h0, hdup, hevict', he, hmarker] at hkeep
    exact hnext hkeep
  refine ⟨h.counts.of_sender rfl rfl rfl, ?_, ?_, ?_, ?_, ?_⟩
  · rw [hrx]
    exact hfollows
  · intro x hx
    exact (List.mem_append.mp hx).elim (h.numbers x) (hnumbers x)
  · have hall : ((s.rx.numbered d.seq d.options d.payload).map Prod.snd).filter
        (fun m => guaranteed m.options) = (s.rx.numbered d.seq d.options d.payload).map Prod.snd :=
      List.filter_eq_self.mpr fun m hm => by
        obtain ⟨x, hx, rfl⟩ := List.mem_map.mp hm
        exact h.counts.guaranteed _ (hnumbers x hx).mem
    rw [hreleased, List.map_append, List.filter_append, hall, h.released]
  · intro x hx
    rw [hrx]
    rw [List.filter_append, List.mem_append, hunordered] at hx
    rcases hx with hx | hx
    · exact hkept x hx
    · split_ifs at hx with hskip
      · cases hx
      · rw [Bool.or_eq_true, not_or, Bool.not_eq_true, Bool.not_eq_true] at hskip
        rw [List.mem_singleton.mp hx]
        exact hnew hskip.2
  · rw [List.filter_append, List.map_append, hunordered]
    split_ifs with hskip
    · simpa using h.once
    · rw [Bool.or_eq_true, not_or, Bool.not_eq_true] at hskip
      refine h.once.append (by simp) ?_
      intro k hk hk'
      obtain ⟨x, hx, rfl⟩ := List.mem_map.mp hk
      have hdup := (h.follows.duplicate_iff hlen hm).mpr
        (by simpa [List.mem_singleton.mp hk'] using h.recalls x hx)
      rw [hskip.1] at hdup
      cases hdup

theorem step (h : Once log s) (e : LinkEvent) (he : s.Allowed e) (hkeep : s.KeepsMarkers e) :
    Once (log ++ s.releases e) (s.step e) := by
  have hcounts := h.counts.step e he
  cases e with
  | deliver d nowMs =>
    cases hg : guaranteed d.options with
    | true =>
      have h0 : d.seq ≠ 0 := by
        intro h0
        have hpos := (h.counts.wire d he hg).1
        rw [h0] at hpos
        exact absurd hpos (by decide)
      have hrel : s.releases (.deliver d nowMs) = s.rx.numbered d.seq d.options d.payload := by
        simp [releases, hg, h0]
      rw [hrel]
      exact h.deliver_guaranteed nowMs he hg hkeep
    | false =>
      have hrel : s.releases (.deliver d nowMs) = [] := by simp [releases, hg]
      rw [hrel, List.append_nil]
      exact h.deliver_other nowMs hg
  | forcedAck nowMs =>
    obtain ⟨hnext, hbuf, -⟩ := forcedAck_spec s.rx nowMs
    exact (List.append_nil log).symm ▸ h.quiet hcounts (List.prefix_refl _) ⟨hnext, hbuf⟩ rfl
  | send payload options nowMs =>
    refine (List.append_nil log).symm ▸ h.quiet hcounts ?_ ⟨rfl, rfl⟩ rfl
    simp only [Link.step]
    split_ifs
    · exact List.prefix_append _ _
    · exact List.prefix_refl _
  | due nowMs | ackValue | piggybackAck | onAck ack =>
    exact (List.append_nil log).symm ▸ h.quiet hcounts (List.prefix_refl _) ⟨rfl, rfl⟩ rfl

end Once

/-- In every run of a fresh pairing in which the receiver gives up no marker, the releases of the
guaranteed messages are of the messages under their numbers, and none without an order occurs twice. -/
theorem nonsequential_released_once (es : List LinkEvent)
    (h : Along Link.step (fun s e => s.Allowed e ∧ s.KeepsMarkers e) fresh es) :
    (releaseLog fresh es).map Prod.snd =
        ((Lib.run Link.step fresh es).released.filter fun m => guaranteed m.options) ∧
      (∀ x ∈ releaseLog fresh es, Numbers (Lib.run Link.step fresh es).sent x.1 x.2) ∧
      (((releaseLog fresh es).filter Receiver.unordered).map Prod.fst).Nodup := by
  have hrun : Once (releaseLog fresh es) (Lib.run Link.step fresh es) := by
    refine @run_history _ _ _ _ (fun es s => Once (releaseLog fresh es) s) _
      (fun es e hs he => ?_) es Once.initial h
    rw [releaseLog_append, releaseLog, releaseLog, List.append_nil]
    exact hs.step e he.1 he.2
  exact ⟨hrun.released, hrun.numbers, hrun.once⟩

/-- A marker in front of a gap, and a second copy. -/
def repeated : List LinkEvent :=
  [.send [1] 1 0, .send [] 1 0, .deliver ⟨2, 1, []⟩ 1, .deliver ⟨2, 1, []⟩ 2, .deliver ⟨1, 1, [1]⟩ 3]

theorem repeated_released_once :
    (Lib.run Link.step fresh repeated).released = [⟨[], 1⟩, ⟨[1], 1⟩] ∧
      (((releaseLog fresh repeated).filter Receiver.unordered).map Prod.fst).Nodup :=
  ⟨by decide, (nonsequential_released_once repeated (by decide)).2.2⟩

end Link

/-! ### A buffer that forgets -/

namespace Receiver

variable {r : Receiver} {ks : List UInt32} {k : UInt32}

/-- The receiver waits for the first message, with markers under these numbers. -/
structure Holds (r : Receiver) (ks : List UInt32) : Prop where
  next : r.gNext = 1
  keys : ∀ k, r.gBuf.contains k = true ↔ k ∈ ks
  behind : ∀ k ∈ ks, 1 < k.toNat

theorem Holds.duplicate (h : r.Holds ks) (hk : 1 < k.toNat) (hlt : k.toNat < 2 ^ 31)
    (hnew : k ∉ ks) : r.duplicate k = false := by
  have hle : seqLe k 0 = false := by
    rw [← Bool.not_eq_true, seqLe_iff_le hlt (by decide)]
    show ¬k.toNat ≤ 0
    omega
  have hin : r.gBuf.contains k = false := by
    rw [← Bool.not_eq_true, h.keys]
    exact hnew
  unfold Receiver.duplicate
  rw [h.next, hin, Bool.or_false]
  exact hle

theorem Holds.store_get?_one (h : r.Holds ks) (hk : 1 < k.toNat) :
    (r.store k 1 []).gBuf.get? 1 = none := by
  obtain ⟨buf₀, hbuf, hsub⟩ := store_gBuf r k 1 []
  have hne : (1 : UInt32) ≠ k := by
    rintro rfl
    exact absurd hk (by decide)
  rw [hbuf, OrdMap.get?_insert, if_neg hne]
  by_contra hsome
  obtain ⟨e, he⟩ := Option.ne_none_iff_exists'.mp hsome
  have hin := (h.keys 1).mp ((OrdMap.contains_iff _ _).mpr ⟨e, hsub 1 e he⟩)
  exact absurd (h.behind 1 hin) (by decide)

/-- A number that it does not hold is released. -/
theorem Holds.numbered (h : r.Holds ks) (hk : 1 < k.toNat) (hlt : k.toNat < 2 ^ 31)
    (hnew : k ∉ ks) : r.numbered k 1 [1] = [(k, ⟨[1], 1⟩)] := by
  have hsize : ∀ fuel, drainNumbered fuel 1 (r.store k 1 []).gBuf = [] := by
    intro fuel
    cases fuel with
    | zero => rfl
    | succ fuel => simp only [drainNumbered, h.store_get?_one hk]
  have hseq : sequential 1 = false := by decide
  unfold Receiver.numbered
  rw [h.duplicate hk hlt hnew, hseq]
  simp only [Bool.false_eq_true, if_false, store_gNext, h.next, hsize]

/-- It takes its place among the markers, or that of the one that is evicted. -/
theorem Holds.deliver (h : r.Holds ks) (hk : 1 < k.toNat) (hlt : k.toNat < 2 ^ 31) (hnew : k ∉ ks)
    (nowMs : ℕ) {ks' : List UInt32}
    (hks' : ∀ k', k' ∈ ks' ↔ k' = k ∨ (k' ∈ ks ∧ r.toEvict ≠ some k')) :
    (r.onMessage k 1 [1] nowMs).1.Holds ks' ∧
      (r.toEvict = none → (r.onMessage k 1 [1] nowMs).1.gBuf.size = r.gBuf.size + 1) := by
  have h0 : k ≠ 0 := by
    rintro rfl
    exact absurd hk (by decide)
  obtain ⟨r₀, hsame, hmessage⟩ := onMessage_guaranteed r [1] nowMs h0 (by decide : guaranteed 1 = true)
  have h₀ : r₀.Holds ks := ⟨hsame.1.trans h.next, hsame.2 ▸ h.keys, h.behind⟩
  have hevict : r₀.toEvict = r.toEvict := by
    unfold toEvict
    rw [hsame.2]
  have hdrain : ∀ fuel, drain fuel 1 (r₀.store k 1 []).gBuf = (1, (r₀.store k 1 []).gBuf, []) := by
    intro fuel
    cases fuel with
    | zero => rfl
    | succ fuel => simp only [drain, h₀.store_get?_one hk]
  have hstep : (r₀.onGuaranteed k 1 [1]).1 = { r₀.store k 1 [] with gNext := 1 } := by
    have hdup := h₀.duplicate hk hlt hnew
    unfold Receiver.duplicate at hdup
    have hseq : sequential 1 = false := by decide
    unfold Receiver.onGuaranteed
    rw [hdup, hseq]
    simp only [Bool.false_eq_true, if_false, advance, store_gNext, h₀.next, hdrain]
  rw [hmessage, hstep]
  refine ⟨⟨rfl, fun k' => ?_, fun k' hk' => ?_⟩, fun hnone => ?_⟩
  · show (r₀.store k 1 []).gBuf.contains k' = true ↔ k' ∈ ks'
    rw [hks', ← h₀.keys k', ← hevict]
    unfold store
    cases r₀.toEvict with
    | none =>
      by_cases heq : k' = k <;> simp [OrdMap.contains, heq]
    | some k₀ =>
      by_cases heq : k' = k
      · simp [OrdMap.contains, heq]
      · by_cases heq₀ : k' = k₀
        · simp [OrdMap.contains, heq₀]
        · simp [OrdMap.contains, heq, heq₀, Ne.symm heq₀]
  · rcases (hks' k').mp hk' with rfl | hin
    · exact hk
    · exact h.behind k' hin.1
  · have hnone₀ : r₀.gBuf.get? k = none := by
      by_contra hsome
      obtain ⟨e, he⟩ := Option.ne_none_iff_exists'.mp hsome
      exact hnew ((h₀.keys k).mp ((OrdMap.contains_iff _ _).mpr ⟨e, he⟩))
    show (r₀.store k 1 []).gBuf.size = _
    unfold store
    rw [hevict, hnone, ← hsame.2]
    exact OrdMap.size_insert_of_none _ hnone₀

/-- With one place left, the messages 257 and 258 fill the buffer and evict the former, so that
another copy of it is released. -/
theorem Holds.forgets (h : r.Holds ks) (hsize : r.gBuf.size = 255) (hlow : ∀ k ∈ ks, k.toNat < 257) :
    r.numbered 257 1 [1] = [(257, ⟨[1], 1⟩)] ∧
      ((r.onMessage 257 1 [1] 1).1.onMessage 258 1 [1] 1).1.numbered 257 1 [1] =
        [(257, ⟨[1], 1⟩)] := by
  have hout : ∀ k : UInt32, 257 ≤ k.toNat → k ∉ ks := fun k hk hin => by
    have hlt := hlow k hin
    omega
  have hout₁ : (257 : UInt32) ∉ ks := hout 257 (by decide)
  have hroom : r.toEvict = none := by
    unfold toEvict
    rw [hsize, if_neg (by decide)]
  have hkeys₂ : ∀ k, k ∈ 257 :: ks ↔ k = 257 ∨ (k ∈ ks ∧ r.toEvict ≠ some k) := by
    simp [hroom]
  obtain ⟨hholds₂, hsize₂⟩ := h.deliver (by decide) (by decide) hout₁ 1 hkeys₂
  set r₂ := (r.onMessage 257 1 [1] 1).1 with hr₂
  -- The message in front of the last one is the newest marker of the full buffer.
  have hfull : r₂.toEvict = some 257 := by
    have hcap : r₂.gBuf.size = 256 := (hsize₂ hroom).trans (by rw [hsize])
    obtain ⟨e, he⟩ := OrdMap.exists_last? (m := r₂.gBuf) (by omega)
    have hin := (hholds₂.keys e.1).mp
      ((OrdMap.contains_iff _ _).mpr ⟨e.2, OrdMap.last?_eq_some he⟩)
    have hle := OrdMap.le_last? he ((hholds₂.keys 257).mpr (List.mem_cons_self ..))
    unfold toEvict
    rw [hcap, if_pos (by decide), he, Option.map_some, Option.some.injEq]
    rcases List.mem_cons.mp hin with heq | hin
    · exact heq
    · have hlt := hlow _ hin
      have hle' : 257 ≤ e.1.toNat := UInt32.le_iff_toNat_le.mp hle
      omega
  have hkeys₃ : ∀ k, k ∈ 258 :: ks ↔ k = 258 ∨ (k ∈ 257 :: ks ∧ r₂.toEvict ≠ some k) := by
    intro k
    have hne : k ∈ ks → 257 ≠ k := fun hk heq => hout₁ (heq ▸ hk)
    rw [hfull, List.mem_cons, List.mem_cons, ne_eq, Option.some.injEq]
    constructor
    · rintro (rfl | hk)
      · exact .inl rfl
      · exact .inr ⟨.inr hk, hne hk⟩
    · rintro (rfl | ⟨rfl | hk, hno⟩)
      · exact .inl rfl
      · exact absurd rfl hno
      · exact .inr hk
  have hout₂ : (258 : UInt32) ∉ 257 :: ks := by
    rw [List.mem_cons, not_or]
    exact ⟨by decide, hout 258 (by decide)⟩
  obtain ⟨hholds₃, -⟩ := hholds₂.deliver (by decide) (by decide) hout₂ 1 hkeys₃
  have hout₃ : (257 : UInt32) ∉ 258 :: ks := by
    rw [List.mem_cons, not_or]
    exact ⟨by decide, hout₁⟩
  exact ⟨h.numbered (by decide) (by decide) hout₁, hholds₃.numbered (by decide) (by decide) hout₃⟩

end Receiver

namespace Link

/-- Copies of the messages under these numbers. -/
def deliveries (ks : List UInt32) : List LinkEvent := ks.map fun k => .deliver ⟨k, 1, [1]⟩ 1

/-- The `n` numbers behind the first one. -/
def numbersFrom2 (n : ℕ) : List UInt32 := (List.range n).map fun i => UInt32.ofNat (i + 2)

theorem numbersFrom2_succ (n : ℕ) :
    numbersFrom2 (n + 1) = numbersFrom2 n ++ [UInt32.ofNat (n + 2)] := by
  rw [numbersFrom2, List.range_succ, List.map_append]
  rfl

theorem mem_numbersFrom2 {n : ℕ} (hn : n < 256) {k : UInt32} :
    k ∈ numbersFrom2 n ↔ 2 ≤ k.toNat ∧ k.toNat < n + 2 := by
  have hnum : ∀ i < n, (UInt32.ofNat (i + 2)).toNat = i + 2 := fun i hi =>
    UInt32.toNat_ofNat_of_lt' (by simp [UInt32.size]; omega)
  simp only [numbersFrom2, List.mem_map, List.mem_range]
  constructor
  · rintro ⟨i, hi, rfl⟩
    have := hnum i hi
    omega
  · rintro ⟨hlow, hhigh⟩
    refine ⟨k.toNat - 2, by omega, ?_⟩
    rw [← UInt32.toNat_inj, hnum _ (by omega)]
    omega

theorem along_deliveries {s : Link} {ks : List UInt32}
    (h : ∀ k ∈ ks, (⟨k, 1, [1]⟩ : Datagram) ∈ s.wire) :
    Along Link.step Allowed s (deliveries ks) := by
  induction ks generalizing s with
  | nil => trivial
  | cons k ks ih =>
    obtain ⟨hk, hrest⟩ := List.forall_mem_cons.mp h
    exact ⟨hk, ih hrest⟩

theorem releaseLog_deliveries (s : Link) {k : UInt32} (hk : k ≠ 0) (ks : List UInt32) :
    releaseLog s (deliveries (k :: ks)) = s.rx.numbered k 1 [1] ++
      releaseLog (s.step (.deliver ⟨k, 1, [1]⟩ 1)) (deliveries ks) := by
  have hg : guaranteed 1 = true := by decide
  simp only [deliveries, List.map_cons, releaseLog, releases, hg, Bool.true_and, bne_iff_ne, ne_eq,
    hk, not_false_eq_true, if_true]

theorem releaseLog_three (s : Link) {a b c : UInt32} (ha : a ≠ 0) (hb : b ≠ 0) (hc : c ≠ 0) :
    releaseLog s (deliveries [a, b, c]) = s.rx.numbered a 1 [1] ++
      ((s.rx.onMessage a 1 [1] 1).1.numbered b 1 [1] ++
        ((s.rx.onMessage a 1 [1] 1).1.onMessage b 1 [1] 1).1.numbered c 1 [1]) := by
  rw [releaseLog_deliveries _ ha, releaseLog_deliveries _ hb, releaseLog_deliveries _ hc]
  exact congrArg (fun l => _ ++ (_ ++ l)) (List.append_nil _)

/-- Below the cap every message is kept as a marker. -/
theorem deliveries_hold {s : Link} (hs : s.rx = Receiver.new) {n : ℕ} (hn : n < 256) :
    (Lib.run step s (deliveries (numbersFrom2 n))).rx.Holds (numbersFrom2 n) ∧
      (Lib.run step s (deliveries (numbersFrom2 n))).rx.gBuf.size = n := by
  induction n with
  | zero =>
    simp only [numbersFrom2, List.range_zero, List.map_nil, deliveries, run_nil, hs]
    exact ⟨⟨rfl, by simp [Receiver.new, OrdMap.contains], by simp⟩, rfl⟩
  | succ n ih =>
    obtain ⟨hholds, hsize⟩ := ih (by omega)
    set s' := Lib.run step s (deliveries (numbersFrom2 n)) with hs'
    have hnum : (UInt32.ofNat (n + 2)).toNat = n + 2 :=
      UInt32.toNat_ofNat_of_lt' (by simp [UInt32.size]; omega)
    have hevict : s'.rx.toEvict = none := by
      unfold Receiver.toEvict
      rw [hsize, if_neg (by unfold oooCap; omega)]
    have hnew : UInt32.ofNat (n + 2) ∉ numbersFrom2 n := by
      rw [mem_numbersFrom2 (by omega), hnum]
      omega
    have hkeys : ∀ k, k ∈ numbersFrom2 (n + 1) ↔
        k = UInt32.ofNat (n + 2) ∨ (k ∈ numbersFrom2 n ∧ s'.rx.toEvict ≠ some k) := by
      intro k
      rw [numbersFrom2_succ, List.mem_append, hevict]
      simp [or_comm]
    obtain ⟨hnext, hgrow⟩ := hholds.deliver (by omega) (by omega) hnew 1 hkeys
    have hevents : deliveries (numbersFrom2 (n + 1)) =
        deliveries (numbersFrom2 n) ++ [.deliver ⟨UInt32.ofNat (n + 2), 1, [1]⟩ 1] := by
      rw [numbersFrom2_succ, deliveries, List.map_append]
      rfl
    rw [hevents, run_append, run_cons, run_nil, ← hs']
    exact ⟨hnext, (hgrow hevict).trans (by rw [hsize])⟩

theorem not_nodup_of_two {x : UInt32 × RecvMsg} (hx : Receiver.unordered x = true)
    (front mid rest : List (UInt32 × RecvMsg)) :
    ¬(((front ++ (mid ++ ([x] ++ (rest ++ [x])))).filter Receiver.unordered).map Prod.fst).Nodup := by
  have htwice : [x, x].Sublist (front ++ (mid ++ ([x] ++ (rest ++ [x])))) :=
    (((List.sublist_append_right rest [x]).cons_cons x).trans (List.sublist_append_right _ _)).trans
      (List.sublist_append_right _ _)
  have hpair := (htwice.filter Receiver.unordered).map Prod.fst
  rw [show [x, x].filter Receiver.unordered = [x, x] by simp [hx]] at hpair
  rw [List.nodup_iff_sublist]
  exact fun hno => hno x.1 hpair

/-- The first of 258 messages is lost, the next 256 fill the buffer, and the last one takes the place
of the one in front of it, of which a second copy arrives. -/
def forgotten : List LinkEvent :=
  List.replicate 258 (.send [1] 1 0) ++
    (deliveries (numbersFrom2 255) ++ deliveries [257, 258, 257])

theorem forgotten_released_twice : Along Link.step Allowed fresh forgotten ∧
    ¬(((releaseLog fresh forgotten).filter Receiver.unordered).map Prod.fst).Nodup := by
  unfold forgotten
  generalize hfill : numbersFrom2 255 = ks
  have hks : ∀ k, k ∈ ks ↔ 2 ≤ k.toNat ∧ k.toNat < 257 := fun k => hfill ▸ mem_numbersFrom2 (by decide)
  generalize hs : Lib.run step fresh (List.replicate 258 (.send [1] 1 0)) = s
  obtain ⟨hsends, hrx, hwire⟩ : Along Link.step Allowed fresh (List.replicate 258 (.send [1] 1 0)) ∧
      s.rx = Receiver.new ∧ s.wire = (List.range 258).map fun i => ⟨UInt32.ofNat (i + 1), 1, [1]⟩ := by
    rw [← hs]
    decide +kernel
  constructor
  · have hcopy : ∀ k : UInt32, 2 ≤ k.toNat → k.toNat < 259 → (⟨k, 1, [1]⟩ : Datagram) ∈ s.wire := by
      intro k hlow hhigh
      rw [hwire]
      refine List.mem_map.mpr ⟨k.toNat - 1, List.mem_range.mpr (by omega), ?_⟩
      rw [show k.toNat - 1 + 1 = k.toNat by omega, UInt32.ofNat_toNat]
    have hall : deliveries ks ++ deliveries [257, 258, 257] = deliveries (ks ++ [257, 258, 257]) :=
      (List.map_append ..).symm
    rw [hall]
    refine (along_append ..).mpr ⟨hsends, hs ▸ along_deliveries fun k hk => ?_⟩
    rcases List.mem_append.mp hk with hk | hk
    · exact hcopy k ((hks k).mp hk).1 (by have := ((hks k).mp hk).2; omega)
    · simp only [List.mem_cons, List.not_mem_nil, or_false] at hk
      rcases hk with rfl | rfl | rfl <;> exact hcopy _ (by decide) (by decide)
  · obtain ⟨hholds, hsize⟩ := deliveries_hold hrx (n := 255) (by decide)
    rw [hfill] at hholds hsize
    obtain ⟨hfirst, hsecond⟩ := hholds.forgets hsize fun k hk => ((hks k).mp hk).2
    have hlast := releaseLog_three (Lib.run step s (deliveries ks)) (a := 257) (b := 258) (c := 257)
      (by decide) (by decide) (by decide)
    rw [hfirst, hsecond] at hlast
    rw [releaseLog_append, hs, releaseLog_append, hlast]
    exact not_nodup_of_two (by decide) _ _ _

end Link

end GbfrLan.Party
