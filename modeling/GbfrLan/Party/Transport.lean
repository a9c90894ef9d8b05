import GbfrLan.Lib.SocketAddr
import GbfrLan.Party.Handle
import GbfrLan.Party.Stream

/-!
# The transport of one network

What the receive path, the send path and the timers do to a network box. The
reliable build is modelled, so every message runs through the endpoint's `Sender`
and `Receiver`. Entity ids are taken to fit their field of the wire header, and the
outbox is left out: a queued job is a send at the moment it is processed.
-/
namespace GbfrLan.Party
open Lib

def kindHello : UInt8 := 1
def kindMsg : UInt8 := 2
def kindAck : UInt8 := 3

/-- A decoded datagram. -/
structure Packet where
  entity : String
  kind : UInt8
  options : UInt32
  seq : UInt32
  ack : UInt32
  payload : Bytes
  deriving DecidableEq, Repr

/-- The frame of a message datagram. -/
def Packet.frame (p : Packet) : PendingRx := ⟨p.entity, p.payload, p.options, p.seq⟩

def recvGuaranteed : UInt32 := 0x1
def recvSequential : UInt32 := 0x2

def recvOptsFor (sendOpts : UInt32) : UInt32 := sendOpts &&& (recvGuaranteed ||| recvSequential)

/-- Bound on the frames that wait for their endpoints. -/
def pendingRxCap : ℕ := 128

def pendingPeerCap : ℕ := 16

def remoteCap : ℕ := 8

namespace Endpoint

/-- The endpoint that `ensureRemote` creates. -/
def new (ip : String) (udpPort : UInt16) : Endpoint := ⟨ip, udpPort, Sender.new, Receiver.new⟩

/-- Whether the endpoint has an address to send to (`ep_addr`). -/
def hasAddr (e : Endpoint) : Bool :=
  e.udpPort != 0 && SocketAddr.isSocketAddr (e.ip ++ ":" ++ toString e.udpPort.toNat)

/-- One send to this endpoint, with the ack that rides on it. -/
def sendTo (e : Endpoint) (entity : String) (kind : UInt8) (payload : Bytes) (options : UInt32)
    (now : ℕ) : Endpoint × Packet :=
  if kind == kindMsg then
    let (tx, out) := e.tx.send payload options now
    let (rx, ack) := e.rx.piggybackAck
    ({ e with tx := tx, rx := rx }, ⟨entity, kind, options, out.seq, ack, out.payload⟩)
  else
    let (rx, ack) := e.rx.piggybackAck
    ({ e with rx := rx }, ⟨entity, kind, options, 0, ack, payload⟩)

/-- The timers of one endpoint: due retransmissions, each with the current ack, then
a standalone ack if one is still owed. -/
def service (e : Endpoint) (entity : String) (now : ℕ) : Endpoint × List Packet :=
  let (tx, rts) := e.tx.due now
  let sent := rts.filter fun x => !x.gaveUp
  let rx := if sent.isEmpty then e.rx else e.rx.piggybackAck.1
  let (rx, forced) := rx.forcedAck now
  ({ e with tx := tx, rx := rx },
    (sent.map fun x => ⟨entity, kindMsg, x.options, x.seq, e.rx.ackValue, x.payload⟩) ++
      forced.toList.map fun ack => ⟨entity, kindAck, 0, 0, ack, []⟩)

/-- Leaving destroys the endpoint's delivery state. -/
def reset (e : Endpoint) : Endpoint := { e with tx := e.tx.dropAll.1, rx := Receiver.new }

theorem sendTo_sameStream (e : Endpoint) (entity : String) (kind : UInt8) (payload : Bytes)
    (options : UInt32) (now : ℕ) :
    SameStream e.rx (e.sendTo entity kind payload options now).1.rx := by
  unfold sendTo
  split_ifs <;> exact ⟨rfl, rfl⟩

theorem service_sameStream (e : Endpoint) (entity : String) (now : ℕ) :
    SameStream e.rx (e.service entity now).1.rx := by
  have hforced : ∀ r : Receiver, SameStream r (r.forcedAck now).1 := by
    intro r
    unfold Receiver.forcedAck
    split
    · split_ifs <;> exact ⟨rfl, rfl⟩
    · exact ⟨rfl, rfl⟩
  simp only [service]
  split_ifs
  · exact hforced e.rx
  · exact hforced e.rx.piggybackAck.1

end Endpoint

namespace Network

def localEntity (n : Network) : String := n.localUser.getD ""

def modifyRemote (n : Network) (eid : String) (f : Endpoint → Endpoint) : Network :=
  match n.remotes.get? eid with
  | some e => { n with remotes := n.remotes.insert eid (f e) }
  | none => n

/-- Register a remote, or refresh the address of a known one. `member` is whether the
game's member list has the entity; the result says whether an endpoint was created. -/
def ensureRemote (n : Network) (eid ip : String) (udpPort : UInt16) (member : Bool) :
    Network × Bool :=
  if eid == "" then (n, false)
  else if !n.connectCompleted then (n, false)
  else if eid == n.localEntity then (n, false)
  else if !n.localEndpoint || !n.type10Delivered then (n, false)
  else
    match n.remotes.get? eid with
    | some e =>
        if udpPort != 0 && (e.ip != ip || e.udpPort != udpPort) then
          (n.modifyRemote eid fun e => { e with ip := ip, udpPort := udpPort }, false)
        else (n, false)
    | none =>
        if !member then (n, false)
        else if remoteCap ≤ n.remotes.size then (n, false)
        else ({ n with remotes := n.remotes.insert eid (Endpoint.new ip udpPort) }, true)

def queuePendingPeer (n : Network) (eid ip : String) (udpPort : UInt16) : Network :=
  if n.pendingPeers.any fun x => x.1 == eid then n
  else if pendingPeerCap ≤ n.pendingPeers.length then n
  else { n with pendingPeers := n.pendingPeers ++ [(eid, ip, udpPort)] }

/-- The address bookkeeping of the receive path; `srcIp` is empty for a source that is
not IPv4. A known peer never reaches the member list. -/
def noteSource (n : Network) (eid srcIp : String) (srcPort : UInt16) : Network :=
  if n.connectCompleted && srcIp != "" then
    if n.remotes.contains eid then (n.ensureRemote eid srcIp srcPort false).1
    else n.queuePendingPeer eid srcIp srcPort
  else n

/-- The ack that rides on a packet. -/
def applyAck (n : Network) (eid : String) (ack : UInt32) : Network :=
  if ack != 0 then n.modifyRemote eid fun e => { e with tx := (e.tx.onAck ack).1 } else n

/-- Append a frame to the waiting ones, dropping the oldest at the bound. -/
def bufferFrame (n : Network) (f : PendingRx) : Network :=
  let kept := if pendingRxCap ≤ n.pendingRx.length then n.pendingRx.tail else n.pendingRx
  { n with pendingRx := kept ++ [f] }

/-- A frame from this entity can be handed to the receiver now. -/
def ready (n : Network) (eid : String) : Bool :=
  n.remotes.contains eid && n.localEndpoint && n.type12Delivered

/-- The receive path for one datagram up to the delivery of its frame. The frame is
returned when it goes to the receiver at once; with older frames waiting it queues
behind them, and the replay loop follows. -/
def receive (n : Network) (p : Packet) (srcIp : String) (srcPort : UInt16) :
    Network × Option PendingRx :=
  let n := (n.noteSource p.entity srcIp srcPort).applyAck p.entity p.ack
  if p.kind == kindHello then ({ n with pollRequested := true }, none)
  else if p.kind != kindMsg then (n, none)
  else
    let n := if n.remotes.contains p.entity then n else { n with pollRequested := true }
    if !n.ready p.entity then (n.bufferFrame p.frame, none)
    else if !n.pendingRx.isEmpty then ({ n with pendingRx := n.pendingRx ++ [p.frame] }, none)
    else (n, some p.frame)

/-- The frame the replay loop takes next, with the rest. -/
def nextFrame (n : Network) : Option (PendingRx × Network) :=
  match n.pendingRx with
  | [] => none
  | f :: rest => if n.ready f.entity then some (f, { n with pendingRx := rest }) else none

/-- Run one frame through the receiver of its remote endpoint. -/
def onMessage (n : Network) (f : PendingRx) (now : ℕ) : Network × RecvOutcome :=
  match n.remotes.get? f.entity with
  | some e =>
      let (rx, outcome) := e.rx.onMessage f.seq f.sendOpts f.payload now
      (n.modifyRemote f.entity fun e => { e with rx := rx }, outcome)
  | none => (n, .droppedDuplicate)

/-- Send to every remote that has an address. Packets carry the entity they go to. -/
def sendUdpAll (n : Network) (kind : UInt8) (payload : Bytes) (options : UInt32) (now : ℕ) :
    Network × List (String × Packet) :=
  if !n.udp then (n, [])
  else
    ({ n with remotes := n.remotes.mapVals fun _ e =>
        if e.hasAddr then (e.sendTo n.localEntity kind payload options now).1 else e },
      (n.remotes.entries.filter fun x => x.2.hasAddr).map fun x =>
        (x.1, (x.2.sendTo n.localEntity kind payload options now).2))

def reliableService (n : Network) (now : ℕ) : Network × List (String × Packet) :=
  if !n.udp then (n, [])
  else
    ({ n with remotes := n.remotes.mapVals fun _ e =>
        if e.hasAddr then (e.service n.localEntity now).1 else e },
      (n.remotes.entries.filter fun x => x.2.hasAddr).flatMap fun x =>
        (x.2.service n.localEntity now).2.map fun p => (x.1, p))

/-- What `PartyNetworkLeaveNetwork` does to the box. -/
def leave (n : Network) : Network :=
  { n with udp := false, connectCompleted := false, remotes := n.remotes.mapVals fun _ e => e.reset }

theorem get?_modifyRemote (n : Network) (eid : String) (f : Endpoint → Endpoint) (id : String) :
    (n.modifyRemote eid f).remotes.get? id =
      if id = eid then (n.remotes.get? id).map f else n.remotes.get? id := by
  unfold modifyRemote
  by_cases heq : id = eid
  · subst heq
    cases he : n.remotes.get? id <;> simp [he]
  · cases he : n.remotes.get? eid <;> simp [heq]

/-- Everything `ensureRemote` can do: nothing, a new address, or a fresh endpoint. -/
theorem ensureRemote_cases (n : Network) (eid ip : String) (udpPort : UInt16) (member : Bool) :
    n.ensureRemote eid ip udpPort member = (n, false) ∨
      n.ensureRemote eid ip udpPort member =
        (n.modifyRemote eid fun e => { e with ip := ip, udpPort := udpPort }, false) ∨
      (n.remotes.get? eid = none ∧ n.ensureRemote eid ip udpPort member =
        ({ n with remotes := n.remotes.insert eid (Endpoint.new ip udpPort) }, true)) := by
  unfold ensureRemote
  cases he : n.remotes.get? eid with
  | some e =>
    simp only
    split_ifs <;> simp
  | none =>
    simp only
    split_ifs <;> simp

/-- Everything `receive` can do after the source and the ack were noted: keep the
frame waiting, or hand it over with none waiting before it. -/
theorem receive_cases (n : Network) (p : Packet) (srcIp : String) (srcPort : UInt16) :
    let n₁ := (n.noteSource p.entity srcIp srcPort).applyAck p.entity p.ack
    ∃ poll, n.receive p srcIp srcPort = ({ n₁ with pollRequested := poll }, none) ∨
      (p.kind = kindMsg ∧ n.receive p srcIp srcPort =
        (({ n₁ with pollRequested := poll } : Network).bufferFrame p.frame, none)) ∨
      (p.kind = kindMsg ∧ n.receive p srcIp srcPort =
        ({ n₁ with pendingRx := n₁.pendingRx ++ [p.frame] }, none)) ∨
      (p.kind = kindMsg ∧ n₁.pendingRx = [] ∧ n.receive p srcIp srcPort = (n₁, some p.frame)) := by
  set n₁ := (n.noteSource p.entity srcIp srcPort).applyAck p.entity p.ack with hn₁
  by_cases hhello : p.kind = kindHello
  · exact ⟨true, .inl (by simp [receive, hhello, hn₁])⟩
  by_cases hmsg : p.kind = kindMsg
  · by_cases hc : n₁.remotes.contains p.entity = true
    · have hrecv : n.receive p srcIp srcPort =
          if !n₁.ready p.entity then (n₁.bufferFrame p.frame, none)
          else if !n₁.pendingRx.isEmpty then
            ({ n₁ with pendingRx := n₁.pendingRx ++ [p.frame] }, none)
          else (n₁, some p.frame) := by
        simp [receive, hmsg, kindMsg, kindHello, ← hn₁, hc]
      refine ⟨n₁.pollRequested, .inr ?_⟩
      rw [hrecv]
      split_ifs with hr hp
      · exact .inl ⟨hmsg, rfl⟩
      · exact .inr (.inl ⟨hmsg, rfl⟩)
      · exact .inr (.inr ⟨hmsg, by simpa using hp, rfl⟩)
    · refine ⟨true, .inr (.inl ⟨hmsg, ?_⟩)⟩
      simp [receive, hmsg, kindMsg, kindHello, ← hn₁, hc, ready]
  · exact ⟨n₁.pollRequested, .inl (by simp [receive, hhello, hmsg, ← hn₁])⟩

end Network

end GbfrLan.Party
