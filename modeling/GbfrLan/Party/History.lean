import GbfrLan.Party.Numbered
import GbfrLan.Party.Transport

/-!
# The history of two shims

Two shims on one network id. `A` stays connected and keeps its network box; `B`
leaves and connects again under the same entity id, each time with a new box. Every
datagram ever emitted between them stays on the wire. `inc` counts the boxes of `B`,
and the record of releases names the box a message belongs to. `FlowA` and `FlowB`
follow the messages of either side through that history.
-/
namespace GbfrLan.Party
open Lib

inductive Side where
  | a
  | b
  deriving DecidableEq, Repr

def Side.other : Side → Side
  | .a => .b
  | .b => .a

/-- A datagram between the two, with the box of `B` at the time it was sent. -/
structure Wired where
  dest : Side
  inc : ℕ
  pkt : Packet
  deriving DecidableEq

/-- One release of a guaranteed message: the box of `B` it belongs to, its number and
the message. -/
structure Release where
  inc : ℕ
  seq : UInt32
  msg : RecvMsg
  deriving DecidableEq

/-- What happened so far between the two shims. -/
structure History where
  /-- The number of boxes of `B`. -/
  inc : ℕ
  wire : List Wired
  /-- Guaranteed messages of `A` to `B`, with the box of `B` at the time. -/
  sentA : List (ℕ × RecvMsg)
  evictedA : List UInt32
  /-- What the boxes of `B` released of them. -/
  logB : List Release
  /-- Guaranteed messages of the present box of `B` to `A`. -/
  sentB : List RecvMsg
  evictedB : List UInt32
  /-- The box of `B` whose message `A` took last under a number. -/
  origin : UInt32 → ℕ
  /-- What `A` released of the messages of `B`. -/
  logA : List Release
  /-- Datagrams of the present box of `B`, or to it, that were discarded as duplicates
  of a message neither released nor buffered for that box. -/
  discarded : List (Side × UInt32)

/-- Some release record names this box and number. -/
def released (log : List Release) (inc : ℕ) (seq : UInt32) : Bool :=
  log.any fun x => x.inc == inc && x.seq == seq

namespace History

def initial : History := ⟨0, [], [], [], [], [], [], fun _ => 0, [], []⟩

/-- The record of a guaranteed frame that a receiver is about to process. -/
def record (h : History) (side : Side) (r : Receiver) (f : PendingRx) (inc : ℕ) : History :=
  match side with
  | .a =>
      let origin := if r.duplicate f.seq then h.origin else Function.update h.origin f.seq inc
      { h with
        origin := origin
        logA := h.logA ++
          (r.numbered f.seq f.sendOpts f.payload).map fun x => ⟨origin x.1, x.1, x.2⟩
        discarded :=
          if r.duplicate f.seq && inc == h.inc && !released h.logA h.inc f.seq &&
              !(r.gBuf.contains f.seq && h.origin f.seq == h.inc) then
            h.discarded ++ [(.a, f.seq)]
          else h.discarded }
  | .b =>
      { h with
        logB := h.logB ++ (r.numbered f.seq f.sendOpts f.payload).map fun x => ⟨h.inc, x.1, x.2⟩
        discarded :=
          if r.duplicate f.seq && !released h.logB h.inc f.seq && !r.gBuf.contains f.seq then
            h.discarded ++ [(.b, f.seq)]
          else h.discarded }

/-- Packets of one side for the other go on the wire. -/
def emit (h : History) (side : Side) (pkts : List Packet) : History :=
  { h with wire := h.wire ++ pkts.map fun p => ⟨side.other, h.inc, p⟩ }

/-- A guaranteed message in the history of its sender. -/
def noteSent (h : History) (side : Side) (tx : Sender) (payload : Bytes) (options : UInt32)
    (now : ℕ) : History :=
  let evicted := ((tx.send payload options now).2.evicted.map Prod.fst).toList
  match side with
  | .a => { h with
      sentA := h.sentA ++ [(h.inc, ⟨payload, options⟩)], evictedA := h.evictedA ++ evicted }
  | .b => { h with
      sentB := h.sentB ++ [⟨payload, options⟩], evictedB := h.evictedB ++ evicted }

/-- A new box of `B`. -/
def newBox (h : History) : History := { h with inc := h.inc + 1, sentB := [], evictedB := [] }

end History

namespace History

variable {h : History}

def msgsA (h : History) : List RecvMsg := h.sentA.map Prod.snd

/-- Why a message of `A` may have left the pending map. -/
def GoneA (h : History) (k : UInt32) : Prop := k ∈ h.evictedA ∨ ∃ j m, ⟨j, k, m⟩ ∈ h.logB

def GoneB (h : History) (k : UInt32) : Prop := k ∈ h.evictedB ∨ ∃ m, ⟨h.inc, k, m⟩ ∈ h.logA

/-- The pointer of the receiver that `A` keeps for `B`. -/
def pointer (ea : Option Endpoint) : UInt32 := (ea.map fun e => e.rx.gNext).getD 1

/-- The messages of `A`, from its sender for `B` to the receivers of the boxes of `B`.
Acks of a box cover only what that box released. -/
structure FlowA (ea eb : Option Endpoint) (h : History) : Prop where
  track : ∀ e, ea = some e → e.tx.Tracks h.msgsA h.GoneA
  unsent : ea = none → h.sentA = []
  bound : h.sentA.length < 2 ^ 31
  logs : ∀ e, eb = some e → e.rx.Logs h.msgsA fun k m => ⟨h.inc, k, m⟩ ∈ h.logB
  genuine : ∀ x ∈ h.logB, (arrivalsOf h.msgsA).arrived x.seq x.msg ∧ x.inc ≤ h.inc ∧
    ∃ i, i ≤ x.inc ∧ h.sentA[x.seq.toNat - 1]? = some (i, x.msg)
  sentBefore : ∀ x ∈ h.sentA, x.1 ≤ h.inc
  wire : ∀ x ∈ h.wire, x.dest = .b → x.pkt.kind = kindMsg →
    guaranteed x.pkt.options = true →
      (arrivalsOf h.msgsA).arrived x.pkt.seq ⟨x.pkt.payload, x.pkt.options⟩
  acks : ∀ x ∈ h.wire, x.dest = .a → x.pkt.ack.toNat < 2 ^ 31 ∧
    ∀ k : UInt32, 0 < k.toNat → k.toNat ≤ x.pkt.ack.toNat → ∃ m, ⟨x.inc, k, m⟩ ∈ h.logB

/-- The messages of the present box of `B`, from its sender for `A` to the receiver that
`A` keeps over all boxes. -/
structure FlowB (ea eb : Option Endpoint) (live : Bool) (h : History) : Prop where
  track : ∀ e, eb = some e → e.tx.Tracks h.sentB h.GoneB
  unsent : live = true → eb = none → h.sentB = []
  bound : h.sentB.length < 2 ^ 31
  logs : ∀ e, ea = some e → e.rx.Logs h.sentB fun k m => ⟨h.inc, k, m⟩ ∈ h.logA
  origin : ∀ e, ea = some e → ∀ k, e.rx.gBuf.contains k = true → h.origin k = h.inc
  genuine : ∀ k m, ⟨h.inc, k, m⟩ ∈ h.logA → (arrivalsOf h.sentB).arrived k m
  logBefore : ∀ x ∈ h.logA, x.inc ≤ h.inc
  wireBefore : ∀ x ∈ h.wire, x.inc ≤ h.inc
  wire : ∀ x ∈ h.wire, x.dest = .a → x.inc = h.inc → x.pkt.kind = kindMsg →
    guaranteed x.pkt.options = true →
      (arrivalsOf h.sentB).arrived x.pkt.seq ⟨x.pkt.payload, x.pkt.options⟩
  acks : ∀ x ∈ h.wire, x.dest = .b → x.pkt.ack.toNat < (pointer ea).toNat

structure Sound (ea eb : Option Endpoint) (live : Bool) (h : History) : Prop where
  flowA : FlowA ea eb h
  flowB : FlowB ea eb live h
  clean : h.discarded = []

theorem initial_sound : Sound none none false initial where
  flowA := by
    constructor <;> simp [initial, msgsA]
  flowB := by
    constructor <;> simp [initial]
  clean := rfl

/-- An endpoint keeps its receiver's stream, or is created. -/
structure KeepsRx (o o' : Option Endpoint) : Prop where
  keeps : ∀ e', o' = some e' →
    (∃ e, o = some e ∧ SameStream e.rx e'.rx) ∨ (o = none ∧ Unstarted e'.rx)
  stays : o' = none → o = none

/-- An endpoint keeps its sender, or is created. -/
structure KeepsTx (o o' : Option Endpoint) : Prop where
  keeps : ∀ e', o' = some e' →
    (∃ e, o = some e ∧ e'.tx = e.tx) ∨ (o = none ∧ e'.tx = Sender.new)
  stays : o' = none → o = none

theorem KeepsRx.refl (o : Option Endpoint) : KeepsRx o o :=
  ⟨fun e' h => .inl ⟨e', h, rfl, rfl⟩, fun h => h⟩

theorem KeepsTx.refl (o : Option Endpoint) : KeepsTx o o :=
  ⟨fun e' h => .inl ⟨e', h, rfl⟩, fun h => h⟩

theorem KeepsRx.of_same {e e' : Endpoint} (h : SameStream e.rx e'.rx) :
    KeepsRx (some e) (some e') :=
  ⟨fun _ hx => .inl ⟨e, rfl, Option.some.inj hx ▸ h⟩, fun h => nomatch h⟩

theorem KeepsTx.of_same {e e' : Endpoint} (h : e'.tx = e.tx) : KeepsTx (some e) (some e') :=
  ⟨fun _ hx => .inl ⟨e, rfl, Option.some.inj hx ▸ h⟩, fun h => nomatch h⟩

theorem KeepsRx.pointer {o o' : Option Endpoint} (h : KeepsRx o o') : pointer o' = pointer o := by
  cases ho' : o' with
  | none => rw [h.stays ho']
  | some e' =>
    cases h.keeps e' ho' with
    | inl hs =>
      obtain ⟨e, rfl, hnext, -⟩ := hs
      simp [History.pointer, hnext]
    | inr hn =>
      obtain ⟨rfl, hnext, -⟩ := hn
      simp [History.pointer, hnext]

theorem KeepsRx.logs {o o' : Option Endpoint} (hk : KeepsRx o o') {sent : List RecvMsg}
    {logged : UInt32 → RecvMsg → Prop} (h : ∀ e, o = some e → e.rx.Logs sent logged) :
    ∀ e', o' = some e' → e'.rx.Logs sent logged := by
  intro e' he'
  cases hk.keeps e' he' with
  | inl hs =>
    obtain ⟨e, he, hnext, hbuf⟩ := hs
    simp only [Receiver.Logs, hnext, hbuf]
    exact h e he
  | inr hn =>
    obtain ⟨-, hnext, hbuf⟩ := hn
    simp only [Receiver.Logs, hnext, hbuf]
    exact .initial _ _

variable {ea eb ea' eb' : Option Endpoint} {live : Bool}

theorem FlowA.congr (hA : FlowA ea eb h) (ha : KeepsTx ea ea') (hb : KeepsRx eb eb') :
    FlowA ea' eb' h where
  track e' he' := by
    cases ha.keeps e' he' with
    | inl hold =>
      obtain ⟨e, he, htx⟩ := hold
      rw [htx]
      exact hA.track e he
    | inr hnew =>
      rw [hnew.2, msgsA, hA.unsent hnew.1]
      exact .initial _
  unsent hnone := hA.unsent (ha.stays hnone)
  bound := hA.bound
  logs := hb.logs hA.logs
  genuine := hA.genuine
  sentBefore := hA.sentBefore
  wire := hA.wire
  acks := hA.acks

theorem FlowB.congrRx (hB : FlowB ea eb live h) (ha : KeepsRx ea ea') : FlowB ea' eb live h where
  track := hB.track
  unsent := hB.unsent
  bound := hB.bound
  logs := ha.logs hB.logs
  origin e' he' k hk := by
    cases ha.keeps e' he' with
    | inl hold =>
      obtain ⟨e, he, -, hbuf⟩ := hold
      exact hB.origin e he k (hbuf ▸ hk)
    | inr hnew =>
      rw [hnew.2.2] at hk
      simp [OrdMap.contains] at hk
  genuine := hB.genuine
  logBefore := hB.logBefore
  wireBefore := hB.wireBefore
  wire := hB.wire
  acks x hx hd := by
    rw [ha.pointer]
    exact hB.acks x hx hd

theorem FlowB.congrTx (hB : FlowB ea eb true h) (hb : KeepsTx eb eb') :
    FlowB ea eb' true h where
  track e' he' := by
    cases hb.keeps e' he' with
    | inl hold =>
      obtain ⟨e, he, htx⟩ := hold
      rw [htx]
      exact hB.track e he
    | inr hnew =>
      rw [hnew.2, hB.unsent rfl hnew.1]
      exact .initial _
  unsent hl hnone := hB.unsent hl (hb.stays hnone)
  bound := hB.bound
  logs := hB.logs
  origin := hB.origin
  genuine := hB.genuine
  logBefore := hB.logBefore
  wireBefore := hB.wireBefore
  wire := hB.wire
  acks := hB.acks

/-- An ack that reaches `A` removes only what a box of `B` released. -/
theorem FlowA.onAck {e : Endpoint} (hA : FlowA (some e) eb h) {x : Wired} (hx : x ∈ h.wire)
    (hd : x.dest = .a) :
    FlowA (some { e with tx := (e.tx.onAck x.pkt.ack).1 }) eb h := by
  obtain ⟨hlt, hcov⟩ := hA.acks x hx hd
  have htrack := hA.track e rfl
  refine { hA with track := ?_, unsent := fun hn => nomatch hn }
  intro e' he'
  cases he'
  apply htrack.onAck x.pkt.ack (fun k hk => hk)
  intro k p hp hgone
  have hle := htrack.removed_le hlt hp hgone
  have hpos := (arrived_le_length (htrack.pending k p hp)).1
  obtain ⟨m, hm⟩ := hcov k hpos hle
  exact .inr ⟨x.inc, m, hm⟩

/-- An ack that reaches the present box of `B` removes only what `A` released for it. -/
theorem FlowB.onAck {e : Endpoint} (hB : FlowB ea (some e) live h) {x : Wired} (hx : x ∈ h.wire)
    (hd : x.dest = .b) :
    FlowB ea (some { e with tx := (e.tx.onAck x.pkt.ack).1 }) live h := by
  have hack := hB.acks x hx hd
  have htrack := hB.track e rfl
  have hbound := hB.bound
  refine { hB with track := ?_, unsent := fun _ hn => nomatch hn }
  intro e' he'
  cases he'
  cases hea : ea with
  | none =>
    rw [hea] at hack
    have h0 : x.pkt.ack.toNat = 0 := by
      have h1 : (pointer none).toNat = 1 := rfl
      omega
    apply htrack.onAck x.pkt.ack (fun k hk => hk)
    intro k p hp hgone
    have hle := htrack.removed_le (by omega) hp hgone
    have hpos := (arrived_le_length (htrack.pending k p hp)).1
    omega
  | some ea₀ =>
    have hlogs := hB.logs ea₀ hea
    have hptr : pointer ea = ea₀.rx.gNext := by rw [hea]; rfl
    rw [hptr] at hack
    have hnear := hlogs.near
    apply htrack.onAck x.pkt.ack (fun k hk => hk)
    intro k p hp hgone
    have hle := htrack.removed_le (by omega) hp hgone
    have hpos := (arrived_le_length (htrack.pending k p hp)).1
    exact .inr (hlogs.passed k hpos (by omega))

theorem mem_released {log : List Release} {inc : ℕ} {seq : UInt32} :
    released log inc seq = true ↔ ∃ m, ⟨inc, seq, m⟩ ∈ log := by
  unfold released
  rw [List.any_eq_true]
  constructor
  · rintro ⟨⟨j, k, m⟩, hx, heq⟩
    simp only [Bool.and_eq_true, beq_iff_eq] at heq
    obtain ⟨rfl, rfl⟩ := heq
    exact ⟨m, hx⟩
  · rintro ⟨m, hm⟩
    exact ⟨_, hm, by simp⟩

/-- A message of the present box of `B` runs through the receiver that `A` keeps. -/
theorem FlowB.record {e : Endpoint} (hB : FlowB (some e) eb live h) {f : PendingRx}
    (hm : (arrivalsOf h.sentB).arrived f.seq ⟨f.payload, f.sendOpts⟩) (h0 : f.seq ≠ 0) (now : ℕ) :
    FlowB (some { e with rx := (e.rx.onMessage f.seq f.sendOpts f.payload now).1 }) eb live
      (h.record .a e.rx f h.inc) := by
  have hlogs := hB.logs e rfl
  set origin := if e.rx.duplicate f.seq then h.origin else Function.update h.origin f.seq h.inc
    with horigin
  have htaken : e.rx.duplicate f.seq = false → origin f.seq = h.inc := by
    intro hd
    simp [horigin, hd]
  have hkept : ∀ k, e.rx.gBuf.contains k = true → origin k = h.inc := by
    intro k hk
    have hold := hB.origin e rfl k hk
    rw [horigin]
    split_ifs
    · exact hold
    · by_cases heq : k = f.seq
      · rw [heq, Function.update_self]
      · rw [Function.update_of_ne heq, hold]
  have hown : ∀ x ∈ e.rx.numbered f.seq f.sendOpts f.payload, origin x.1 = h.inc := by
    intro x hx
    cases Receiver.numbered_key x hx with
    | inl hnew => rw [hnew.1, htaken hnew.2]
    | inr hbuf => exact hkept x.1 hbuf
  have hlog : (h.record .a e.rx f h.inc).logA =
      h.logA ++ (e.rx.numbered f.seq f.sendOpts f.payload).map fun x => ⟨h.inc, x.1, x.2⟩ := by
    simp only [History.record]
    congr 1
    exact List.map_congr_left fun x hx => by rw [← horigin, hown x hx]
  have harrived := hlogs.numbered_arrived hm
  have hgen : ∀ k m, ⟨h.inc, k, m⟩ ∈ (h.record .a e.rx f h.inc).logA →
      (arrivalsOf h.sentB).arrived k m := by
    intro k m hkm
    rw [hlog] at hkm
    cases List.mem_append.mp hkm with
    | inl hold => exact hB.genuine k m hold
    | inr hnew =>
      obtain ⟨x, hx, heq⟩ := List.mem_map.mp hnew
      cases heq
      exact harrived x hx
  obtain ⟨r₀, hsame, hrun⟩ := Receiver.onMessage_guaranteed e.rx f.payload now h0 hm.2.1
  have hlogs₀ : r₀.Logs h.sentB fun k m => ⟨h.inc, k, m⟩ ∈ h.logA := by
    simp only [Receiver.Logs, hsame.1, hsame.2]
    exact hlogs
  obtain ⟨hdone, hmono⟩ := hlogs₀.onGuaranteed hB.bound hm
    (fun k m hkm => by rw [hlog]; exact List.mem_append_left _ hkm) hgen
    (fun x hx => by
      rw [Receiver.numbered_congr hsame] at hx
      rw [hlog]
      exact List.mem_append_right _ (List.mem_map.mpr ⟨x, hx, rfl⟩))
  rw [hsame.1] at hmono
  constructor
  · intro e' he'
    refine (hB.track e' he').mono ?_
    intro k hk
    refine hk.imp_right ?_
    rintro ⟨m, hmem⟩
    exact ⟨m, by rw [hlog]; exact List.mem_append_left _ hmem⟩
  · exact hB.unsent
  · exact hB.bound
  · intro e' he'
    cases he'
    rw [hrun]
    exact hdone
  · intro e' he' k hk
    cases he'
    rw [hrun] at hk
    obtain ⟨entry, hentry⟩ := (OrdMap.contains_iff _ _).mp hk
    cases Receiver.onGuaranteed_gBuf hentry with
    | inl hnew =>
      rw [Receiver.duplicate_congr hsame] at hnew
      rw [hnew.1]
      exact htaken hnew.2
    | inr hbuf =>
      rw [hsame.2] at hbuf
      exact hkept k hbuf
  · exact hgen
  · intro x hx
    rw [hlog] at hx
    cases List.mem_append.mp hx with
    | inl hold => exact hB.logBefore x hold
    | inr hnew =>
      obtain ⟨y, -, rfl⟩ := List.mem_map.mp hnew
      exact le_refl _
  · exact hB.wireBefore
  · exact hB.wire
  · intro x hx hd
    have hold := hB.acks x hx hd
    have hptr : (pointer (some e)) = e.rx.gNext := rfl
    have hptr' : pointer (some { e with
        rx := (e.rx.onMessage f.seq f.sendOpts f.payload now).1 }) =
        (r₀.onGuaranteed f.seq f.sendOpts f.payload).1.gNext := by
      rw [← hrun]
      rfl
    rw [hptr] at hold
    rw [hptr']
    omega

/-- It is not discarded unless it was released or is buffered for that box. -/
theorem FlowB.record_discarded {e : Endpoint} (hB : FlowB (some e) eb live h) {f : PendingRx}
    (hm : (arrivalsOf h.sentB).arrived f.seq ⟨f.payload, f.sendOpts⟩) :
    (h.record .a e.rx f h.inc).discarded = h.discarded := by
  simp only [History.record]
  rw [if_neg]
  intro hbad
  simp only [Bool.and_eq_true, Bool.not_eq_true', beq_self_eq_true, and_true,
    Bool.and_eq_false_imp] at hbad
  obtain ⟨⟨hdup, hlog⟩, hbuf⟩ := hbad
  cases (hB.logs e rfl).logged_of_duplicate hB.bound hm hdup with
  | inl hlogged =>
    rw [mem_released.mpr hlogged] at hlog
    cases hlog
  | inr hcontains =>
    have horig := hB.origin e rfl f.seq hcontains
    have hne := hbuf hcontains
    simp [horig] at hne

/-- A message of `A` runs through the receiver of the present box of `B`. -/
theorem FlowA.record {e : Endpoint} (hA : FlowA ea (some e) h) {f : PendingRx} {inc : ℕ}
    (hm : (arrivalsOf h.msgsA).arrived f.seq ⟨f.payload, f.sendOpts⟩) (h0 : f.seq ≠ 0) (now : ℕ) :
    FlowA ea (some { e with rx := (e.rx.onMessage f.seq f.sendOpts f.payload now).1 })
      (h.record .b e.rx f inc) := by
  have hlogs := hA.logs e rfl
  have hbound : h.msgsA.length < 2 ^ 31 := by
    rw [msgsA, List.length_map]
    exact hA.bound
  have hlog : (h.record .b e.rx f inc).logB =
      h.logB ++ (e.rx.numbered f.seq f.sendOpts f.payload).map fun x => ⟨h.inc, x.1, x.2⟩ := rfl
  have harrived := hlogs.numbered_arrived hm
  have hmem : ∀ x ∈ h.logB, x ∈ (h.record .b e.rx f inc).logB := by
    intro x hx
    rw [hlog]
    exact List.mem_append_left _ hx
  have hgenuine : ∀ x ∈ (h.record .b e.rx f inc).logB,
      (arrivalsOf h.msgsA).arrived x.seq x.msg ∧ x.inc ≤ h.inc ∧
        ∃ i, i ≤ x.inc ∧ h.sentA[x.seq.toNat - 1]? = some (i, x.msg) := by
    intro x hx
    rw [hlog] at hx
    cases List.mem_append.mp hx with
    | inl hold => exact hA.genuine x hold
    | inr hnew =>
      obtain ⟨y, hy, rfl⟩ := List.mem_map.mp hnew
      have harr := harrived y hy
      refine ⟨harr, le_refl _, ?_⟩
      obtain ⟨⟨-, hget⟩, -⟩ := harr
      rw [msgsA, List.getElem?_map, Option.map_eq_some_iff] at hget
      obtain ⟨⟨i, m⟩, hi, hmsg⟩ := hget
      refine ⟨i, hA.sentBefore _ (List.mem_of_getElem? hi), ?_⟩
      rw [hi]
      simp only [Option.some.injEq, Prod.mk.injEq, true_and]
      exact hmsg
  have hgen : ∀ k m, ⟨h.inc, k, m⟩ ∈ (h.record .b e.rx f inc).logB →
      (arrivalsOf h.msgsA).arrived k m := fun k m hkm => (hgenuine _ hkm).1
  obtain ⟨r₀, hsame, hrun⟩ := Receiver.onMessage_guaranteed e.rx f.payload now h0 hm.2.1
  have hlogs₀ : r₀.Logs h.msgsA fun k m => ⟨h.inc, k, m⟩ ∈ h.logB := by
    simp only [Receiver.Logs, hsame.1, hsame.2]
    exact hlogs
  obtain ⟨hdone, -⟩ := hlogs₀.onGuaranteed hbound hm
    (fun k m hkm => hmem _ hkm) hgen
    (fun x hx => by
      rw [Receiver.numbered_congr hsame] at hx
      rw [hlog]
      exact List.mem_append_right _ (List.mem_map.mpr ⟨x, hx, rfl⟩))
  constructor
  · intro e' he'
    refine (hA.track e' he').mono ?_
    intro k hk
    refine hk.imp_right ?_
    rintro ⟨j, m, hjm⟩
    exact ⟨j, m, hmem _ hjm⟩
  · exact hA.unsent
  · exact hA.bound
  · intro e' he'
    cases he'
    rw [hrun]
    exact hdone
  · exact hgenuine
  · exact hA.sentBefore
  · exact hA.wire
  · intro x hx hd
    obtain ⟨hlt, hcov⟩ := hA.acks x hx hd
    refine ⟨hlt, ?_⟩
    intro k hpos hle
    obtain ⟨m, hmk⟩ := hcov k hpos hle
    exact ⟨m, hmem _ hmk⟩

theorem FlowA.record_discarded {e : Endpoint} (hA : FlowA ea (some e) h) {f : PendingRx} {inc : ℕ}
    (hm : (arrivalsOf h.msgsA).arrived f.seq ⟨f.payload, f.sendOpts⟩) :
    (h.record .b e.rx f inc).discarded = h.discarded := by
  have hbound : h.msgsA.length < 2 ^ 31 := by
    rw [msgsA, List.length_map]
    exact hA.bound
  simp only [History.record]
  rw [if_neg]
  intro hbad
  simp only [Bool.and_eq_true, Bool.not_eq_true'] at hbad
  obtain ⟨⟨hdup, hlog⟩, hbuf⟩ := hbad
  cases (hA.logs e rfl).logged_of_duplicate hbound hm hdup with
  | inl hlogged =>
    rw [mem_released.mpr hlogged] at hlog
    cases hlog
  | inr hcontains =>
    rw [hcontains] at hbuf
    cases hbuf

/-- A guaranteed send of `A` takes the next number. -/
theorem FlowA.noteSent {e : Endpoint} (hA : FlowA (some e) eb h) {payload : Bytes}
    {options : UInt32} (now : ℕ) (hg : guaranteed options = true) (hne : payload ≠ [])
    (hlen : h.sentA.length + 1 < 2 ^ 31) :
    FlowA (some { e with tx := (e.tx.send payload options now).1 }) eb
      (h.noteSent .a e.tx payload options now) := by
  have hmsgs : (h.noteSent .a e.tx payload options now).msgsA =
      h.msgsA ++ [⟨payload, options⟩] := by
    simp [msgsA, History.noteSent]
  have hprefix : h.msgsA <+: (h.noteSent .a e.tx payload options now).msgsA := by
    rw [hmsgs]
    exact List.prefix_append _ _
  constructor
  · intro e' he'
    cases he'
    rw [hmsgs]
    apply (hA.track e rfl).send_guaranteed now hg hne
    · rw [msgsA, List.length_map]
      exact hlen
    · intro k hk
      exact hk.imp_left fun hev => List.mem_append_left _ hev
    · intro k hk
      exact .inl (List.mem_append_right _ hk)
  · intro hn
    cases hn
  · show (h.sentA ++ [_]).length < 2 ^ 31
    rw [List.length_append, List.length_singleton]
    exact hlen
  · intro e' he'
    exact (hA.logs e' he').mono_sent hprefix
  · intro x hx
    obtain ⟨harr, hinc, i, hi, hget⟩ := hA.genuine x hx
    refine ⟨arrivalsOf_mono hprefix harr, hinc, i, hi, ?_⟩
    show (h.sentA ++ [_])[x.seq.toNat - 1]? = _
    rw [List.getElem?_append_left (List.getElem?_eq_some_iff.mp hget).1, hget]
  · intro x hx
    cases List.mem_append.mp hx with
    | inl hold => exact hA.sentBefore x hold
    | inr hnew =>
      rw [List.mem_singleton.mp hnew]
      exact le_refl _
  · intro x hx hd hk hgx
    exact arrivalsOf_mono hprefix (hA.wire x hx hd hk hgx)
  · exact hA.acks

theorem FlowB.noteSent {e : Endpoint} (hB : FlowB ea (some e) live h) {payload : Bytes}
    {options : UInt32} (now : ℕ) (hg : guaranteed options = true) (hne : payload ≠ [])
    (hlen : h.sentB.length + 1 < 2 ^ 31) :
    FlowB ea (some { e with tx := (e.tx.send payload options now).1 }) live
      (h.noteSent .b e.tx payload options now) := by
  have hprefix : h.sentB <+: (h.noteSent .b e.tx payload options now).sentB :=
    List.prefix_append _ _
  constructor
  · intro e' he'
    cases he'
    apply (hB.track e rfl).send_guaranteed now hg hne hlen
    · intro k hk
      exact hk.imp_left fun hev => List.mem_append_left _ hev
    · intro k hk
      exact .inl (List.mem_append_right _ hk)
  · intro _ hn
    cases hn
  · show (h.sentB ++ [_]).length < 2 ^ 31
    rw [List.length_append, List.length_singleton]
    exact hlen
  · intro e' he'
    exact (hB.logs e' he').mono_sent hprefix
  · exact hB.origin
  · intro k m hkm
    exact arrivalsOf_mono hprefix (hB.genuine k m hkm)
  · exact hB.logBefore
  · exact hB.wireBefore
  · intro x hx hd hinc hk hgx
    exact arrivalsOf_mono hprefix (hB.wire x hx hd hinc hk hgx)
  · exact hB.acks

theorem mem_emit {side : Side} {pkts : List Packet} {x : Wired} :
    x ∈ (h.emit side pkts).wire ↔ x ∈ h.wire ∨ ∃ p ∈ pkts, x = ⟨side.other, h.inc, p⟩ := by
  simp only [emit, List.mem_append, List.mem_map]
  constructor
  · rintro (hx | ⟨p, hp, rfl⟩)
    · exact .inl hx
    · exact .inr ⟨p, hp, rfl⟩
  · rintro (hx | ⟨p, hp, rfl⟩)
    · exact .inl hx
    · exact .inr ⟨p, hp, rfl⟩

end History

/-- A packet an endpoint may emit: it carries the current ack, and a guaranteed message
under its number. -/
structure Endpoint.Emits (e : Endpoint) (sent : List RecvMsg) (p : Packet) : Prop where
  ack : p.ack = e.rx.ackValue
  msg : p.kind = kindMsg → guaranteed p.options = true →
    (arrivalsOf sent).arrived p.seq ⟨p.payload, p.options⟩

namespace Endpoint

variable {e : Endpoint} {sent : List RecvMsg} {gone : UInt32 → Prop}

/-- A guaranteed message goes out under the number it is filed under. -/
theorem sendTo_emits (ht : e.tx.Tracks sent gone) (entity : String) {payload : Bytes}
    {options : UInt32} (now : ℕ) (hg : guaranteed options = true) (hne : payload ≠ []) :
    e.Emits (sent ++ [⟨payload, options⟩])
      (e.sendTo entity kindMsg payload options now).2 := by
  obtain ⟨-, hout, -⟩ := Sender.send_guaranteed e.tx payload now hg
  obtain ⟨hseq, -, hpay⟩ := Datagram.mk.inj hout
  constructor
  · rfl
  · intro _ _
    simp only [sendTo, beq_self_eq_true, if_true, hseq, hpay]
    exact ht.arrived_next hg hne

/-- Any other packet only has to carry the current ack. -/
theorem sendTo_emits_other (sent : List RecvMsg) (entity : String) {kind : UInt8}
    (payload : Bytes) {options : UInt32} (now : ℕ)
    (ho : (kind == kindMsg && guaranteed options) = false) :
    e.Emits sent (e.sendTo entity kind payload options now).2 := by
  have hkind : (e.sendTo entity kind payload options now).2.kind = kind ∧
      (e.sendTo entity kind payload options now).2.options = options ∧
      (e.sendTo entity kind payload options now).2.ack = e.rx.ackValue := by
    unfold sendTo
    split_ifs <;> exact ⟨rfl, rfl, rfl⟩
  obtain ⟨hk, hopt, hack⟩ := hkind
  constructor
  · exact hack
  · intro hm hg
    rw [hk] at hm
    rw [hopt] at hg
    simp [hm, hg] at ho

theorem sendTo_tracks_other (ht : e.tx.Tracks sent gone) (entity : String) {kind : UInt8}
    (payload : Bytes) {options : UInt32} (now : ℕ)
    (ho : (kind == kindMsg && guaranteed options) = false) :
    (e.sendTo entity kind payload options now).1.tx.Tracks sent gone := by
  unfold sendTo
  split_ifs with hk
  · rw [hk, Bool.true_and] at ho
    exact ht.send_other now ho
  · exact ht

/-- The timers repeat pending messages under their numbers. -/
theorem service_emits (ht : e.tx.Tracks sent gone) (entity : String) (now : ℕ) :
    ∀ p ∈ (e.service entity now).2, e.Emits sent p := by
  intro p hp
  simp only [service, List.mem_append, List.mem_map, List.mem_filter] at hp
  cases hp with
  | inl hp =>
    obtain ⟨x, ⟨hx, hsent⟩, rfl⟩ := hp
    obtain ⟨q, hq, hmsg⟩ := Sender.due_retransmit hx (by simpa using hsent)
    constructor
    · rfl
    · intro _ _
      have harr := ht.pending x.seq q hq
      rw [← hmsg] at harr
      exact harr
  | inr hp =>
    obtain ⟨ack, hack, rfl⟩ := hp
    have hval : ∀ r : Receiver, ∀ v, (r.forcedAck now).2 = some v → v = r.ackValue := by
      intro r v hv
      unfold Receiver.forcedAck at hv
      split at hv
      · split_ifs at hv
        exact (Option.some.inj hv).symm
      · cases hv
    constructor
    · have hv := hval _ ack (Option.mem_toList.mp hack)
      rw [hv]
      split_ifs <;> rfl
    · intro hk
      cases hk

end Endpoint

namespace History

variable {h : History} {ea eb ea' eb' : Option Endpoint} {live : Bool}

theorem FlowA.emit_a {e : Endpoint} (hA : FlowA ea eb h) {pkts : List Packet}
    (hp : ∀ p ∈ pkts, e.Emits h.msgsA p) : FlowA ea eb (h.emit .a pkts) where
  track := hA.track
  unsent := hA.unsent
  bound := hA.bound
  logs := hA.logs
  genuine := hA.genuine
  sentBefore := hA.sentBefore
  wire x hx hd hk hg := by
    cases mem_emit.mp hx with
    | inl hold => exact hA.wire x hold hd hk hg
    | inr hnew =>
      obtain ⟨p, hpm, rfl⟩ := hnew
      exact (hp p hpm).msg hk hg
  acks x hx hd := by
    cases mem_emit.mp hx with
    | inl hold => exact hA.acks x hold hd
    | inr hnew =>
      obtain ⟨p, -, rfl⟩ := hnew
      cases hd

/-- The ack of `A` covers only what lies below its pointer. -/
theorem FlowB.emit_a {e : Endpoint} (hB : FlowB (some e) eb live h) {sent : List RecvMsg}
    {pkts : List Packet} (hp : ∀ p ∈ pkts, e.Emits sent p) :
    FlowB (some e) eb live (h.emit .a pkts) where
  track := hB.track
  unsent := hB.unsent
  bound := hB.bound
  logs := hB.logs
  origin := hB.origin
  genuine := hB.genuine
  logBefore := hB.logBefore
  wireBefore x hx := by
    cases mem_emit.mp hx with
    | inl hold => exact hB.wireBefore x hold
    | inr hnew =>
      obtain ⟨p, -, rfl⟩ := hnew
      exact le_refl _
  wire x hx hd hinc hk hg := by
    cases mem_emit.mp hx with
    | inl hold => exact hB.wire x hold hd hinc hk hg
    | inr hnew =>
      obtain ⟨p, -, rfl⟩ := hnew
      cases hd
  acks x hx hd := by
    cases mem_emit.mp hx with
    | inl hold => exact hB.acks x hold hd
    | inr hnew =>
      obtain ⟨p, hpm, rfl⟩ := hnew
      have hpos := (hB.logs e rfl).pos
      have hsub := toNat_sub_one hpos
      show p.ack.toNat < e.rx.gNext.toNat
      rw [(hp p hpm).ack, Receiver.ackValue]
      omega

/-- The ack of the present box of `B` covers only what that box released. -/
theorem FlowA.emit_b {e : Endpoint} (hA : FlowA ea (some e) h) {sent : List RecvMsg}
    {pkts : List Packet} (hp : ∀ p ∈ pkts, e.Emits sent p) :
    FlowA ea (some e) (h.emit .b pkts) where
  track := hA.track
  unsent := hA.unsent
  bound := hA.bound
  logs := hA.logs
  genuine := hA.genuine
  sentBefore := hA.sentBefore
  wire x hx hd hk hg := by
    cases mem_emit.mp hx with
    | inl hold => exact hA.wire x hold hd hk hg
    | inr hnew =>
      obtain ⟨p, -, rfl⟩ := hnew
      cases hd
  acks x hx hd := by
    cases mem_emit.mp hx with
    | inl hold => exact hA.acks x hold hd
    | inr hnew =>
      obtain ⟨p, hpm, rfl⟩ := hnew
      have hlogs := hA.logs e rfl
      have hpos := hlogs.pos
      have hnear := hlogs.near
      have hbound := hA.bound
      have hsub := toNat_sub_one hpos
      rw [msgsA, List.length_map] at hnear
      simp only [(hp p hpm).ack, Receiver.ackValue]
      constructor
      · omega
      · intro k hk hle
        exact hlogs.passed k hk (by omega)

theorem FlowB.emit_b {e : Endpoint} (hB : FlowB ea eb live h) {pkts : List Packet}
    (hp : ∀ p ∈ pkts, e.Emits h.sentB p) : FlowB ea eb live (h.emit .b pkts) where
  track := hB.track
  unsent := hB.unsent
  bound := hB.bound
  logs := hB.logs
  origin := hB.origin
  genuine := hB.genuine
  logBefore := hB.logBefore
  wireBefore x hx := by
    cases mem_emit.mp hx with
    | inl hold => exact hB.wireBefore x hold
    | inr hnew =>
      obtain ⟨p, -, rfl⟩ := hnew
      exact le_refl _
  wire x hx hd hinc hk hg := by
    cases mem_emit.mp hx with
    | inl hold => exact hB.wire x hold hd hinc hk hg
    | inr hnew =>
      obtain ⟨p, hpm, rfl⟩ := hnew
      exact (hp p hpm).msg hk hg
  acks x hx hd := by
    cases mem_emit.mp hx with
    | inl hold => exact hB.acks x hold hd
    | inr hnew =>
      obtain ⟨p, -, rfl⟩ := hnew
      cases hd

theorem FlowA.retrack {e e' : Endpoint} (hA : FlowA (some e) eb h)
    (ht : e'.tx.Tracks h.msgsA h.GoneA) : FlowA (some e') eb h :=
  { hA with
    track := by
      intro x hx
      cases hx
      exact ht
    unsent := by simp }

theorem FlowB.retrack {e e' : Endpoint} (hB : FlowB ea (some e) live h)
    (ht : e'.tx.Tracks h.sentB h.GoneB) : FlowB ea (some e') live h :=
  { hB with
    track := by
      intro x hx
      cases hx
      exact ht
    unsent := by simp }

/-- The flow of one side does not read what the other one sent or released. -/
theorem FlowB.noteSent_a (hB : FlowB ea eb live h) (tx : Sender) (payload : Bytes)
    (options : UInt32) (now : ℕ) : FlowB ea eb live (h.noteSent .a tx payload options now) :=
  ⟨hB.track, hB.unsent, hB.bound, hB.logs, hB.origin, hB.genuine, hB.logBefore, hB.wireBefore,
    hB.wire, hB.acks⟩

theorem FlowA.noteSent_b (hA : FlowA ea eb h) (tx : Sender) (payload : Bytes)
    (options : UInt32) (now : ℕ) : FlowA ea eb (h.noteSent .b tx payload options now) :=
  ⟨hA.track, hA.unsent, hA.bound, hA.logs, hA.genuine, hA.sentBefore, hA.wire, hA.acks⟩

theorem FlowB.record_b (hB : FlowB ea eb live h) (r : Receiver) (f : PendingRx) (inc : ℕ) :
    FlowB ea eb live (h.record .b r f inc) :=
  ⟨hB.track, hB.unsent, hB.bound, hB.logs, hB.origin, hB.genuine, hB.logBefore, hB.wireBefore,
    hB.wire, hB.acks⟩

theorem FlowA.record_a (hA : FlowA ea eb h) (r : Receiver) (f : PendingRx) (inc : ℕ) :
    FlowA ea eb (h.record .a r f inc) :=
  ⟨hA.track, hA.unsent, hA.bound, hA.logs, hA.genuine, hA.sentBefore, hA.wire, hA.acks⟩

/-- An endpoint keeps its sender and its receiver's stream, or is created. -/
structure Keeps (o o' : Option Endpoint) : Prop where
  tx : KeepsTx o o'
  rx : KeepsRx o o'

theorem Keeps.refl (o : Option Endpoint) : Keeps o o := ⟨.refl o, .refl o⟩

theorem Keeps.of_same {e e' : Endpoint} (ht : e'.tx = e.tx) (hr : SameStream e.rx e'.rx) :
    Keeps (some e) (some e') := ⟨.of_same ht, .of_same hr⟩

theorem Keeps.created (ip : String) (udpPort : UInt16) :
    Keeps none (some (Endpoint.new ip udpPort)) := by
  constructor
  · constructor
    · intro e' he'
      cases he'
      exact .inr ⟨rfl, rfl⟩
    · simp
  · constructor
    · intro e' he'
      cases he'
      exact .inr ⟨rfl, rfl, rfl⟩
    · simp

theorem Sound.keepA (hs : Sound ea eb live h) (ha : Keeps ea ea') : Sound ea' eb live h where
  flowA := hs.flowA.congr ha.tx (.refl _)
  flowB := hs.flowB.congrRx ha.rx
  clean := hs.clean

theorem Sound.keepB (hs : Sound ea eb true h) (hb : Keeps eb eb') : Sound ea eb' true h where
  flowA := hs.flowA.congr (.refl _) hb.rx
  flowB := hs.flowB.congrTx hb.tx
  clean := hs.clean

theorem Sound.onAckA {e : Endpoint} (hs : Sound (some e) eb live h) {x : Wired}
    (hx : x ∈ h.wire) (hd : x.dest = .a) :
    Sound (some { e with tx := (e.tx.onAck x.pkt.ack).1 }) eb live h where
  flowA := hs.flowA.onAck hx hd
  flowB := hs.flowB.congrRx (.of_same ⟨rfl, rfl⟩)
  clean := hs.clean

theorem Sound.onAckB {e : Endpoint} (hs : Sound ea (some e) live h) {x : Wired}
    (hx : x ∈ h.wire) (hd : x.dest = .b) :
    Sound ea (some { e with tx := (e.tx.onAck x.pkt.ack).1 }) live h where
  flowA := hs.flowA.congr (.refl _) (.of_same ⟨rfl, rfl⟩)
  flowB := hs.flowB.onAck hx hd
  clean := hs.clean

/-- A frame of the present box of `B` at `A`. -/
theorem Sound.recordA {e : Endpoint} (hs : Sound (some e) eb live h) {f : PendingRx}
    (hm : (arrivalsOf h.sentB).arrived f.seq ⟨f.payload, f.sendOpts⟩) (h0 : f.seq ≠ 0) (now : ℕ) :
    Sound (some { e with rx := (e.rx.onMessage f.seq f.sendOpts f.payload now).1 }) eb live
      (h.record .a e.rx f h.inc) where
  flowA := (hs.flowA.record_a e.rx f h.inc).congr (.of_same rfl) (.refl _)
  flowB := hs.flowB.record hm h0 now
  clean := (hs.flowB.record_discarded hm).trans hs.clean

/-- A frame of `A` at the present box of `B`. -/
theorem Sound.recordB {e : Endpoint} (hs : Sound ea (some e) true h) {f : PendingRx} {inc : ℕ}
    (hm : (arrivalsOf h.msgsA).arrived f.seq ⟨f.payload, f.sendOpts⟩) (h0 : f.seq ≠ 0) (now : ℕ) :
    Sound ea (some { e with rx := (e.rx.onMessage f.seq f.sendOpts f.payload now).1 }) true
      (h.record .b e.rx f inc) where
  flowA := hs.flowA.record hm h0 now
  flowB := (hs.flowB.record_b e.rx f inc).congrTx (.of_same rfl)
  clean := (hs.flowA.record_discarded hm).trans hs.clean

/-- `A` sends to `B`. -/
theorem Sound.sendA {e : Endpoint} (hs : Sound (some e) eb live h) (entity : String)
    {kind : UInt8} {payload : Bytes} {options : UInt32} (now : ℕ)
    (hlegal : kind = kindMsg → payload ≠ [] ∧
      (guaranteed options = true → h.sentA.length + 1 < 2 ^ 31))
    {pkts : List Packet} (hp : ∀ p ∈ pkts, p = (e.sendTo entity kind payload options now).2) :
    Sound (some (e.sendTo entity kind payload options now).1) eb live
      ((if kind == kindMsg && guaranteed options then h.noteSent .a e.tx payload options now
        else h).emit .a pkts) := by
  have htrack := hs.flowA.track e rfl
  have hsame := e.sendTo_sameStream entity kind payload options now
  cases hmode : kind == kindMsg && guaranteed options with
  | true =>
    obtain ⟨hkind, hg⟩ := Bool.and_eq_true_iff.mp hmode
    have hkind : kind = kindMsg := by simpa using hkind
    subst hkind
    obtain ⟨hne, hlen⟩ := hlegal rfl
    have hemits : ∀ p ∈ pkts, e.Emits (h.noteSent .a e.tx payload options now).msgsA p := by
      intro p hpm
      rw [hp p hpm]
      have hmsgs : (h.noteSent .a e.tx payload options now).msgsA =
          h.msgsA ++ [⟨payload, options⟩] := by
        simp [msgsA, History.noteSent]
      rw [hmsgs]
      exact Endpoint.sendTo_emits htrack entity now hg hne
    constructor
    · have hsent := hs.flowA.noteSent now hg hne (hlen hg)
      exact (hsent.emit_a hemits).congr (.of_same rfl) (.refl _)
    · exact ((hs.flowB.noteSent_a e.tx payload options now).emit_a hemits).congrRx (.of_same hsame)
    · exact hs.clean
  | false =>
    have hemits : ∀ p ∈ pkts, e.Emits h.msgsA p := by
      intro p hpm
      rw [hp p hpm]
      exact Endpoint.sendTo_emits_other h.msgsA entity payload now hmode
    have htrack' := Endpoint.sendTo_tracks_other htrack entity payload now hmode
    constructor
    · exact (hs.flowA.retrack htrack').emit_a hemits
    · exact (hs.flowB.emit_a hemits).congrRx (.of_same hsame)
    · exact hs.clean

/-- The present box of `B` sends to `A`. -/
theorem Sound.sendB {e : Endpoint} (hs : Sound ea (some e) true h) (entity : String)
    {kind : UInt8} {payload : Bytes} {options : UInt32} (now : ℕ)
    (hlegal : kind = kindMsg → payload ≠ [] ∧
      (guaranteed options = true → h.sentB.length + 1 < 2 ^ 31))
    {pkts : List Packet} (hp : ∀ p ∈ pkts, p = (e.sendTo entity kind payload options now).2) :
    Sound ea (some (e.sendTo entity kind payload options now).1) true
      ((if kind == kindMsg && guaranteed options then h.noteSent .b e.tx payload options now
        else h).emit .b pkts) := by
  have htrack := hs.flowB.track e rfl
  have hsame := e.sendTo_sameStream entity kind payload options now
  cases hmode : kind == kindMsg && guaranteed options with
  | true =>
    obtain ⟨hkind, hg⟩ := Bool.and_eq_true_iff.mp hmode
    have hkind : kind = kindMsg := by simpa using hkind
    subst hkind
    obtain ⟨hne, hlen⟩ := hlegal rfl
    have hemits : ∀ p ∈ pkts, e.Emits (h.noteSent .b e.tx payload options now).sentB p := by
      intro p hpm
      rw [hp p hpm]
      exact Endpoint.sendTo_emits htrack entity now hg hne
    constructor
    · exact ((hs.flowA.noteSent_b e.tx payload options now).emit_b hemits).congr (.refl _)
        (.of_same hsame)
    · have hsent := hs.flowB.noteSent now hg hne (hlen hg)
      exact (hsent.emit_b hemits).congrTx (.of_same rfl)
    · exact hs.clean
  | false =>
    have hemits : ∀ p ∈ pkts, e.Emits h.sentB p := by
      intro p hpm
      rw [hp p hpm]
      exact Endpoint.sendTo_emits_other h.sentB entity payload now hmode
    have htrack' := Endpoint.sendTo_tracks_other htrack entity payload now hmode
    constructor
    · exact (hs.flowA.emit_b hemits).congr (.refl _) (.of_same hsame)
    · exact (hs.flowB.retrack htrack').emit_b hemits
    · exact hs.clean

theorem Sound.serviceA {e : Endpoint} (hs : Sound (some e) eb live h) (entity : String) (now : ℕ)
    {pkts : List Packet} (hp : ∀ p ∈ pkts, p ∈ (e.service entity now).2) :
    Sound (some (e.service entity now).1) eb live (h.emit .a pkts) := by
  have htrack := hs.flowA.track e rfl
  have hsame := e.service_sameStream entity now
  have hemits := fun p hpm => Endpoint.service_emits htrack entity now p (hp p hpm)
  constructor
  · exact (hs.flowA.retrack (htrack.due now)).emit_a hemits
  · exact (hs.flowB.emit_a hemits).congrRx (.of_same hsame)
  · exact hs.clean

theorem Sound.serviceB {e : Endpoint} (hs : Sound ea (some e) true h) (entity : String) (now : ℕ)
    {pkts : List Packet} (hp : ∀ p ∈ pkts, p ∈ (e.service entity now).2) :
    Sound ea (some (e.service entity now).1) true (h.emit .b pkts) := by
  have htrack := hs.flowB.track e rfl
  have hsame := e.service_sameStream entity now
  have hemits := fun p hpm => Endpoint.service_emits htrack entity now p (hp p hpm)
  constructor
  · exact (hs.flowA.emit_b hemits).congr (.refl _) (.of_same hsame)
  · exact (hs.flowB.retrack (htrack.due now)).emit_b hemits
  · exact hs.clean

@[simp] theorem emit_nil (h : History) (side : Side) : h.emit side [] = h := by
  simp [emit]

/-- `B` leaves: its box is gone. -/
theorem Sound.leave (hs : Sound ea eb live h) : Sound ea none false h where
  flowA := { hs.flowA with logs := by simp }
  flowB := { hs.flowB with track := by simp, unsent := by simp }
  clean := hs.clean

/-- `B` connects with a new box while `A` has taken nothing from the ones before. -/
theorem Sound.newBox (hs : Sound ea none false h) (hu : ∀ e, ea = some e → Unstarted e.rx) :
    Sound ea none true h.newBox where
  flowA :=
    { track := hs.flowA.track
      unsent := hs.flowA.unsent
      bound := hs.flowA.bound
      logs := fun _ he => nomatch he
      genuine := fun x hx => by
        obtain ⟨harr, hinc, hsent⟩ := hs.flowA.genuine x hx
        exact ⟨harr, Nat.le_succ_of_le hinc, hsent⟩
      sentBefore := fun x hx => Nat.le_succ_of_le (hs.flowA.sentBefore x hx)
      wire := hs.flowA.wire
      acks := hs.flowA.acks }
  flowB :=
    { track := fun _ he => nomatch he
      unsent := fun _ _ => rfl
      bound := by simp [History.newBox]
      logs := fun e he => by
        obtain ⟨hnext, hbuf⟩ := hu e he
        simp only [Receiver.Logs, hnext, hbuf]
        exact .initial _ _
      origin := fun e he k hk => by
        rw [(hu e he).2] at hk
        simp [OrdMap.contains] at hk
      genuine := fun k m hkm => by
        have hle : h.inc + 1 ≤ h.inc := hs.flowB.logBefore _ hkm
        omega
      logBefore := fun x hx => Nat.le_succ_of_le (hs.flowB.logBefore x hx)
      wireBefore := fun x hx => Nat.le_succ_of_le (hs.flowB.wireBefore x hx)
      wire := fun x hx hd hinc => by
        have hle := hs.flowB.wireBefore x hx
        have heq : x.inc = h.inc + 1 := hinc
        omega
      acks := hs.flowB.acks }
  clean := hs.clean

end History

end GbfrLan.Party
