import GbfrLan.Lib.OrdMap
import GbfrLan.Lib.SeqSpace

/-!
# The reliable-delivery layer of the Party shim

Sender and receiver state of one endpoint pairing, as in `reliable.rs`. Clock
readings are milliseconds below `2 ^ 64`, so the saturating operations on them
are truncated subtraction and capped addition on naturals. Wire sequence numbers
and option words keep their 32-bit types.
-/
namespace GbfrLan.Party
open Lib

abbrev Bytes := List UInt8

/-- Master switch of the source. -/
def partyReliable : Bool := true

def sendGuaranteed : UInt32 := 0x1
def sendSequential : UInt32 := 0x2
def sendAllowLazyAcknowledgement : UInt32 := 0x10

def rtoFirstMs : ℕ := 60
def rtoMaxMs : ℕ := 500
def maxRetries : ℕ := 8
/-- Hard cap on the per-pairing pending map. -/
def pendingCap : ℕ := 4096
/-- Hard cap on the guaranteed out-of-order buffer. -/
def oooCap : ℕ := 256
def ackDelayMs : ℕ := 30

def u64Max : ℕ := 2 ^ 64 - 1

def saturatingAdd (a b : ℕ) : ℕ := min (a + b) u64Max

def guaranteed (options : UInt32) : Bool := options &&& sendGuaranteed != 0

def sequential (options : UInt32) : Bool := options &&& sendSequential != 0

structure Pending where
  payload : Bytes
  options : UInt32
  firstSentMs : ℕ
  lastSentMs : ℕ
  retries : ℕ
  rtoMs : ℕ
  gaveUp : Bool
  deriving DecidableEq, Repr

/-- The result of queueing one outgoing message. `evicted` names the pending
message dropped to stay under `pendingCap`. -/
structure Outgoing where
  seq : UInt32
  payload : Bytes
  options : UInt32
  evicted : Option (UInt32 × UInt32)
  deriving DecidableEq, Repr

/-- One due retransmission. A `gaveUp` event carries no payload and is not sent. -/
structure Retransmit where
  seq : UInt32
  payload : Bytes
  options : UInt32
  retries : ℕ
  first : Bool
  gaveUp : Bool
  deriving DecidableEq, Repr

structure Sender where
  nextGseq : UInt32
  nextBseq : UInt32
  pending : OrdMap UInt32 Pending
  deriving DecidableEq

namespace Sender

def new : Sender := ⟨1, 1, OrdMap.empty⟩

/-- The oldest pending message when the map is at its cap. -/
def toEvict (s : Sender) : Option (UInt32 × Pending) :=
  if pendingCap ≤ s.pending.size then s.pending.first? else none

/-- The pending map after the eviction check of `send`. -/
def makeRoom (s : Sender) : OrdMap UInt32 Pending :=
  match s.toEvict with
  | some (k, _) => s.pending.erase k
  | none => s.pending

def send (s : Sender) (payload : Bytes) (options : UInt32) (nowMs : ℕ) : Sender × Outgoing :=
  if !partyReliable then (s, ⟨0, payload, options, none⟩)
  else if guaranteed options then
    let seq := s.nextGseq
    let entry : Pending := ⟨payload, options, nowMs, nowMs, 0, rtoFirstMs, false⟩
    ({ s with nextGseq := s.nextGseq + 1, pending := s.makeRoom.insert seq entry },
      ⟨seq, payload, options, s.toEvict.map fun e => (e.1, e.2.options)⟩)
  else if sequential options then
    ({ s with nextBseq := s.nextBseq + 1 }, ⟨s.nextBseq, payload, options, none⟩)
  else (s, ⟨0, payload, options, none⟩)

/-- Cumulative ack. The loop removes the first pending entry while its key is not
after the ack, and reports the removed `(seq, options)` pairs. -/
def onAck (s : Sender) (ack : UInt32) : Sender × List (UInt32 × UInt32) :=
  ({ s with pending := s.pending.dropWhile fun k _ => seqLe k ack },
    (s.pending.entries.takeWhile fun e => seqLe e.1 ack).map fun e => (e.1, e.2.options))

/-- Earliest retransmission deadline of a message that has not given up. -/
def nextRtoMs (s : Sender) : Option ℕ :=
  ((s.pending.values.filter fun p => !p.gaveUp).map fun p =>
    saturatingAdd p.lastSentMs p.rtoMs).min?

/-- What `due` does to one pending message. -/
def tick (nowMs : ℕ) (seq : UInt32) (p : Pending) : Pending × Option Retransmit :=
  if p.gaveUp then (p, none)
  else if nowMs - p.lastSentMs < p.rtoMs then (p, none)
  else if maxRetries ≤ p.retries then
    ({ p with gaveUp := true }, some ⟨seq, [], p.options, p.retries, false, true⟩)
  else
    let p' := { p with
      retries := p.retries + 1
      lastSentMs := nowMs
      rtoMs := min (min (p.rtoMs * 2) u64Max) rtoMaxMs }
    (p', some ⟨seq, p.payload, p.options, p'.retries, p'.retries == 1, false⟩)

def due (s : Sender) (nowMs : ℕ) : Sender × List Retransmit :=
  if !partyReliable then (s, [])
  else ({ s with pending := s.pending.mapVals fun k p => (tick nowMs k p).1 },
    s.pending.entries.filterMap fun e => (tick nowMs e.1 e.2).2)

/-- Endpoint destroyed: guaranteed delivery no longer applies. -/
def dropAll (s : Sender) : Sender × ℕ := (new, s.pending.size)

end Sender

structure RecvMsg where
  payload : Bytes
  options : UInt32
  deriving DecidableEq, Repr

inductive RecvOutcome where
  | delivered (msgs : List RecvMsg)
  | queued (seq expected : UInt32)
  | droppedDuplicate
  | droppedOutOfOrder (seq high : UInt32)
  deriving DecidableEq, Repr

/-- The payloads an outcome hands to the game, in order. -/
def RecvOutcome.released : RecvOutcome → List RecvMsg
  | .delivered msgs => msgs
  | _ => []

structure Receiver where
  gNext : UInt32
  /-- Guaranteed messages received but not yet contiguous: sequential entries
  carry their payload, nonsequential ones are empty duplicate markers. -/
  gBuf : OrdMap UInt32 (UInt32 × Bytes)
  beLast : UInt32
  beSeen : Bool
  ackDueAt : Option ℕ
  lastEvicted : Option UInt32
  deriving DecidableEq

namespace Receiver

def new : Receiver := ⟨1, OrdMap.empty, 0, false, none, none⟩

def ackValue (r : Receiver) : UInt32 := r.gNext - 1

def bufferedLen (r : Receiver) : ℕ := r.gBuf.size

/-- The payload of a contiguous entry, unless it is an empty marker. -/
def release (options : UInt32) (payload : Bytes) : List RecvMsg :=
  if payload.isEmpty then [] else [⟨payload, options⟩]

/-- The loop `while let Some(..) = g_buf.remove(&g_next)`. Each round removes one
entry, so the buffer size is enough fuel. -/
def drain : ℕ → UInt32 → OrdMap UInt32 (UInt32 × Bytes) →
    UInt32 × OrdMap UInt32 (UInt32 × Bytes) × List RecvMsg
  | 0, next, buf => (next, buf, [])
  | fuel + 1, next, buf =>
      match buf.get? next with
      | none => (next, buf, [])
      | some (opts, p) =>
          let rest := drain fuel (next + 1) (buf.erase next)
          (rest.1, rest.2.1, release opts p ++ rest.2.2)

/-- The newest buffered entry when the buffer is at its cap. -/
def toEvict (r : Receiver) : Option UInt32 :=
  if oooCap ≤ r.gBuf.size then r.gBuf.last?.map Prod.fst else none

/-- Store one entry, evicting the newest one first when the buffer is full. -/
def store (r : Receiver) (seq options : UInt32) (payload : Bytes) : Receiver :=
  match r.toEvict with
  | some k => { r with
      gBuf := (r.gBuf.erase k).insert seq (options, payload), lastEvicted := some k }
  | none => { r with gBuf := r.gBuf.insert seq (options, payload) }

/-- Run the drain loop from the current contiguous pointer. -/
def advance (r : Receiver) : Receiver × List RecvMsg :=
  let out := drain r.gBuf.size r.gNext r.gBuf
  ({ r with gNext := out.1, gBuf := out.2.1 }, out.2.2)

/-- Start the forced-ack timer unless it runs or the sender opted out. -/
def armAck (r : Receiver) (options : UInt32) (nowMs : ℕ) : Receiver :=
  if options &&& sendAllowLazyAcknowledgement == 0 then
    { r with ackDueAt := some (r.ackDueAt.getD nowMs) }
  else r

/-- The guaranteed branch of `onMessage`, after the ack timer was armed. -/
def onGuaranteed (r : Receiver) (seq options : UInt32) (payload : Bytes) :
    Receiver × RecvOutcome :=
  if seqLe seq (r.gNext - 1) || r.gBuf.contains seq then (r, .droppedDuplicate)
  else if sequential options then
    if seq == r.gNext then
      let out := { r with gNext := r.gNext + 1 }.advance
      (out.1, .delivered (release options payload ++ out.2))
    else (r.store seq options payload, .queued seq r.gNext)
  else
    let out := (r.store seq options []).advance
    (out.1, .delivered (⟨payload, options⟩ :: out.2))

/-- Feed one decoded data message through the ordering and ack machinery. -/
def onMessage (r : Receiver) (seq options : UInt32) (payload : Bytes) (nowMs : ℕ) :
    Receiver × RecvOutcome :=
  let r := { r with lastEvicted := none }
  if !partyReliable || seq == 0 then (r, .delivered [⟨payload, options⟩])
  else if guaranteed options then (r.armAck options nowMs).onGuaranteed seq options payload
  else if sequential options then
    if r.beSeen && !seqAfter seq r.beLast then (r, .droppedOutOfOrder seq r.beLast)
    else ({ r with beSeen := true, beLast := seq }, .delivered [⟨payload, options⟩])
  else (r, .delivered [⟨payload, options⟩])

def piggybackAck (r : Receiver) : Receiver × UInt32 :=
  ({ r with ackDueAt := none }, r.ackValue)

def nextAckDueMs (r : Receiver) : Option ℕ := r.ackDueAt.map (saturatingAdd · ackDelayMs)

def forcedAck (r : Receiver) (nowMs : ℕ) : Receiver × Option UInt32 :=
  match r.ackDueAt with
  | some t =>
      if ackDelayMs ≤ nowMs - t then ({ r with ackDueAt := none }, some r.ackValue)
      else (r, none)
  | none => (r, none)

end Receiver

end GbfrLan.Party
