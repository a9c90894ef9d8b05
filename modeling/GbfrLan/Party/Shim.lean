import GbfrLan.Lib.Run
import GbfrLan.Party.Pump
import GbfrLan.Party.Transport

/-!
# The Party exports and the transport thread on the handle

Each export and each unit of work of the transport thread is one event; the handle
mutex makes them atomic. The loops of the receive path are cut at the frames they
hand to a receiver: `recv` takes one datagram, `replay` one waiting frame, and
`recvDatagram` and `flushPendingRx` are the loops made of them.
-/
namespace GbfrLan.Party
open Lib

/-- A change about a network and, for types 12 and 21, one of its remotes. -/
def controlSc (ty : UInt32) (net : ℕ) (eid : Option String) : StateChange :=
  ⟨ty, some net, eid, 0, []⟩

/-- The type-21 change for a message from a remote. -/
def type21 (net : ℕ) (eid : String) (m : RecvMsg) : StateChange :=
  ⟨21, some net, some eid, recvOptsFor m.options, m.payload⟩

namespace Handle

def deliverType21 (h : Handle) (net : ℕ) (eid : String) (m : RecvMsg) : Handle :=
  let (h, drop) := h.pendingCapDrop
  if drop then h else h.queueSc (some (type21 net eid m))

/-- Run one frame through the receiver of its endpoint and hand every message it
releases to the game. -/
def deliverReliable (h : Handle) (net : ℕ) (f : PendingRx) (now : ℕ) : Handle :=
  match h.boxes.get? net with
  | none => h
  | some n =>
      let (n, outcome) := n.onMessage f now
      outcome.released.foldl (fun h m => h.deliverType21 net f.entity m)
        { h with boxes := h.boxes.insert net n }

/-- One round of the replay loop. -/
def replay (h : Handle) (net now : ℕ) : Handle :=
  match (h.boxes.get? net).bind Network.nextFrame with
  | none => h
  | some (f, n) => { h with boxes := h.boxes.insert net n }.deliverReliable net f now

/-- The receive path for one datagram, up to the replay loop. -/
def recv (h : Handle) (net : ℕ) (p : Packet) (srcIp : String) (srcPort : UInt16) (now : ℕ) :
    Handle :=
  match h.boxes.get? net with
  | none => h
  | some n =>
      if !n.udp then h
      else
        let (n, frame) := n.receive p srcIp srcPort
        let h := { h with boxes := h.boxes.insert net n }
        match frame with
        | some f => h.deliverReliable net f now
        | none => h

/-- The replay loop; the number of waiting frames is enough fuel. -/
def replayLoop (net now : ℕ) : ℕ → Handle → Handle
  | 0, h => h
  | fuel + 1, h =>
      match (h.boxes.get? net).bind Network.nextFrame with
      | none => h
      | some _ => replayLoop net now fuel (h.replay net now)

def flushPendingRx (h : Handle) (net now : ℕ) : Handle :=
  replayLoop net now (((h.boxes.get? net).map fun n => n.pendingRx.length).getD 0) h

/-- The receive path for one datagram. The loop runs when the frame queued behind
older ones, which is when it was ready but not handed over. -/
def recvDatagram (h : Handle) (net : ℕ) (p : Packet) (srcIp : String) (srcPort : UInt16)
    (now : ℕ) : Handle :=
  let behind := match h.boxes.get? net with
    | some n => n.udp && p.kind == kindMsg &&
        (n.receive p srcIp srcPort).1.ready p.entity && (n.receive p srcIp srcPort).2.isNone
    | none => false
  let h := h.recv net p srcIp srcPort now
  if behind then h.flushPendingRx net now else h

/-- Register a remote and tell the title about a new one. -/
def ensureRemote (h : Handle) (net : ℕ) (eid ip : String) (udpPort : UInt16) (member : Bool) :
    Handle :=
  match h.boxes.get? net with
  | none => h
  | some n =>
      let (n, created) := n.ensureRemote eid ip udpPort member
      let h := { h with boxes := h.boxes.insert net n }
      if created then h.queueSc (some (controlSc 12 net (some eid))) else h

/-- One round of `drain_pending_peers`. -/
def drainPeer (h : Handle) (net : ℕ) (member : Bool) : Handle :=
  match h.boxes.get? net with
  | none => h
  | some n =>
      match n.pendingPeers with
      | [] => h
      | (eid, ip, udpPort) :: rest =>
          { h with boxes := h.boxes.insert net { n with pendingPeers := rest } }.ensureRemote net
            eid ip udpPort member

def emitConnectCompleted (h : Handle) (net : ℕ) : Handle :=
  match h.boxes.get? net with
  | none => h
  | some n =>
      if n.connectCompleted then h
      else { h with boxes := h.boxes.insert net { n with connectCompleted := true } }.queueSc
        (some (controlSc 3 net none))

/-- The network the handle already has under this id. -/
def findNetwork (h : Handle) (id : String) : Option ℕ :=
  h.networks.find? fun net => ((h.boxes.get? net).map Network.id) == some id

/-- A new box at the next epoch. -/
def addBox (h : Handle) (id : String) (user : Option String) : Handle :=
  { h with
    boxes := h.boxes.insert h.nextEpoch (Network.new id user)
    nextEpoch := h.nextEpoch + 1
    networks := h.networks ++ [h.nextEpoch] }

/-- `connect_network` with a socket that binds; `user` is the last local user. -/
def connectNetwork (h : Handle) (id : String) (user : Option String) : Handle :=
  match h.findNetwork id with
  | some net => h.emitConnectCompleted net
  | none => (h.addBox id user).emitConnectCompleted h.nextEpoch

/-- `PartyCreateNewNetwork`; type 2 carries no network pointer. -/
def createNewNetwork (h : Handle) (id : String) (user : Option String) : Handle :=
  (h.addBox id user).queueSc (some ⟨2, none, none, 0, []⟩)

/-- `PartyNetworkAuthenticateLocalUser`, which takes a box back into the list. -/
def authenticateLocalUser (h : Handle) (net : ℕ) : Handle :=
  let h := if h.networks.contains net then h else { h with networks := h.networks ++ [net] }
  h.queueSc (some (controlSc 4 net none))

/-- `PartyNetworkCreateEndpoint`, up to its replay loop. -/
def createEndpoint (h : Handle) (net : ℕ) (user : Option String) : Handle :=
  (h.modifyBox net fun n => { n with localEndpoint := true, localUser := user }).queueSc
    (some (controlSc 10 net none))

/-- `PartyNetworkLeaveNetwork`. -/
def leaveNetwork (h : Handle) (net : ℕ) : Handle :=
  let h := h.queueSc (some (controlSc 19 net none))
  let h := if h.networks.contains net then h.modifyBox net Network.leave else h
  { h with networks := h.networks.filter fun x => x != net }

end Handle

inductive ShimEvent where
  | queueSc (sc : StateChange)
  | start (now : ℕ)
  | finish (count : ℕ) (changes : Option (List (Option StateChange)))
  | connect (id : String) (user : Option String)
  | createNetwork (id : String) (user : Option String)
  | authenticate (net : ℕ)
  | createEndpoint (net : ℕ) (user : Option String)
  | leave (net : ℕ)
  | ensureRemote (net : ℕ) (eid ip : String) (udpPort : UInt16) (member : Bool)
  | drainPeer (net : ℕ) (member : Bool)
  | recv (net : ℕ) (p : Packet) (srcIp : String) (srcPort : UInt16) (now : ℕ)
  | replay (net now : ℕ)
  | send (net : ℕ) (kind : UInt8) (payload : Bytes) (options : UInt32) (now : ℕ)
  | service (net now : ℕ)

/-- One event on the handle. -/
def Handle.step (h : Handle) : ShimEvent → Handle
  | .queueSc sc => h.queueSc (some sc)
  | .start now => h.startProcessing now
  | .finish count changes => h.finishProcessing count changes
  | .connect id user => h.connectNetwork id user
  | .createNetwork id user => h.createNewNetwork id user
  | .authenticate net => h.authenticateLocalUser net
  | .createEndpoint net user => h.createEndpoint net user
  | .leave net => h.leaveNetwork net
  | .ensureRemote net eid ip udpPort member => h.ensureRemote net eid ip udpPort member
  | .drainPeer net member => h.drainPeer net member
  | .recv net p srcIp srcPort now => h.recv net p srcIp srcPort now
  | .replay net now => h.replay net now
  | .send net kind payload options now =>
      h.modifyBox net fun n => (n.sendUdpAll kind payload options now).1
  | .service net now => h.modifyBox net fun n => (n.reliableService now).1

/-- The replay loop is a run of replay events. -/
theorem Handle.replayLoop_eq_run (net now fuel : ℕ) (h : Handle) :
    ∃ k, Handle.replayLoop net now fuel h =
      run Handle.step h (List.replicate k (.replay net now)) := by
  induction fuel generalizing h with
  | zero => exact ⟨0, rfl⟩
  | succ fuel ih =>
    unfold Handle.replayLoop
    cases hf : (h.boxes.get? net).bind Network.nextFrame with
    | none => exact ⟨0, rfl⟩
    | some x =>
      obtain ⟨k, hk⟩ := ih (h.replay net now)
      exact ⟨k + 1, hk⟩

/-- The receive path for one datagram is a run: the datagram, then waiting frames. -/
theorem Handle.recvDatagram_eq_run (h : Handle) (net : ℕ) (p : Packet) (srcIp : String)
    (srcPort : UInt16) (now : ℕ) :
    ∃ k, h.recvDatagram net p srcIp srcPort now = run Handle.step h
      (.recv net p srcIp srcPort now :: List.replicate k (.replay net now)) := by
  unfold Handle.recvDatagram
  simp only
  split_ifs with hb
  · exact Handle.replayLoop_eq_run net now _ _
  · exact ⟨0, rfl⟩

end GbfrLan.Party
