import GbfrLan.Party.Reliable
import Mathlib.Data.String.Basic

/-!
# The Party handle

The process-wide state behind the handle mutex: the network boxes with their
remote endpoints, the queue of state changes for the title and its delivery
ledger. Boxes are never freed, so `boxes` holds every one of them under its
unique epoch, which stands for its address, and `networks` is the list of
addresses the handle knows. The remote endpoints of a box are never removed, so
one of them is named by its box and its entity id.
-/
namespace GbfrLan.Party
open Lib

/-- One state change of the pump with the fields the shim reads back: the box for
types 3, 4, 10, 12, 19 and 21, the remote endpoint for types 12 and 21, the receive
options and the payload for type 21. -/
structure StateChange where
  ty : UInt32
  network : Option ℕ
  endpoint : Option String
  options : UInt32
  payload : Bytes
  deriving DecidableEq, Repr

/-- Per-type counters; types from 32 on are not counted. -/
abbrev Counts := Fin 32 → ℕ

def Counts.bump (c : Counts) (ty : UInt32) : Counts :=
  fun t => if t.val = ty.toNat then c t + 1 else c t

structure Ledger where
  queued : Counts
  handed : Counts
  reclaimed : Counts
  batches : ℕ
  lastBatch : ℕ
  lastReclaimed : ℕ
  deferred21 : ℕ
  capHits : ℕ
  dropped : ℕ
  deriving DecidableEq

def Ledger.default : Ledger := ⟨fun _ => 0, fun _ => 0, fun _ => 0, 0, 0, 0, 0, 0, 0⟩

/-- Bound on the queue of state changes. -/
def queueCap : ℕ := 128

def type12HoldTimeoutMs : ℕ := 10000

structure Endpoint where
  ip : String
  udpPort : UInt16
  tx : Sender
  rx : Receiver
  deriving DecidableEq

/-- An inbound frame that waits for its endpoints: entity id, payload, send options
and sequence number. -/
structure PendingRx where
  entity : String
  payload : Bytes
  sendOpts : UInt32
  seq : UInt32
  deriving DecidableEq, Repr

structure Network where
  id : String
  localUser : Option String
  localEndpoint : Bool
  remotes : OrdMap String Endpoint
  udp : Bool
  connectCompleted : Bool
  pendingRx : List PendingRx
  pendingPeers : List (String × String × UInt16)
  type10Delivered : Bool
  type12Delivered : Bool
  type12HoldStart : Option ℕ
  type12HoldTimeoutLogged : Bool
  pollRequested : Bool
  deriving DecidableEq

/-- The box that `connectNetwork` builds. -/
def Network.new (id : String) (localUser : Option String) : Network :=
  ⟨id, localUser, false, OrdMap.empty, true, false, [], [], false, false, none, false, false⟩

structure Handle where
  boxes : OrdMap ℕ Network
  nextEpoch : ℕ
  networks : List ℕ
  pending : List StateChange
  inFlight : List StateChange
  ledger : Ledger
  batchOutstanding : Bool
  deriving DecidableEq

namespace Handle

def new : Handle := ⟨OrdMap.empty, 1, [], [], [], Ledger.default, false⟩

/-- Write through a network pointer. -/
def modifyBox (h : Handle) (net : ℕ) (f : Network → Network) : Handle :=
  match h.boxes.get? net with
  | some n => { h with boxes := h.boxes.insert net (f n) }
  | none => h

/-- The drop decision of the queue bound, with its ledger entry. -/
def pendingCapDrop (h : Handle) : Handle × Bool :=
  if h.pending.length < queueCap then (h, false)
  else ({ h with ledger := { h.ledger with dropped := h.ledger.dropped + 1 } }, true)

/-- Append a state change to the queue and count it. -/
def push (h : Handle) (sc : StateChange) : Handle :=
  { h with
    pending := h.pending ++ [sc]
    ledger := { h.ledger with queued := h.ledger.queued.bump sc.ty } }

/-- Queue a state change; `none` is the null pointer of a failed allocation. -/
def queueSc (h : Handle) (sc : Option StateChange) : Handle :=
  match sc with
  | none => h
  | some sc =>
      if sc.ty == 21 then
        let (h, drop) := h.pendingCapDrop
        if drop then h else h.push sc
      else h.push sc

end Handle

end GbfrLan.Party
