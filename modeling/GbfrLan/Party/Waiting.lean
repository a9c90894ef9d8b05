import GbfrLan.Party.Announce

/-!
# What waits in a network box

A box keeps inbound frames until their endpoints exist, and candidates for new remotes until the
tick looks at them. Everything outside the receive path is blind to both. This module has the
shim with the loops of the receive path run to their end, and the bound on the waiting frames.
-/
namespace GbfrLan.Party
open Lib

/-- The part of a box that only the receive path and the tick look at. -/
structure Waiting where
  rx : List PendingRx
  peers : List (String × String × UInt16)
  poll : Bool

namespace Network

def waiting (n : Network) : Waiting := ⟨n.pendingRx, n.pendingPeers, n.pollRequested⟩

def put (n : Network) (w : Waiting) : Network :=
  { n with pendingRx := w.rx, pendingPeers := w.peers, pollRequested := w.poll }

@[simp] theorem waiting_put (n : Network) (w : Waiting) : (n.put w).waiting = w := rfl

@[simp] theorem put_waiting (n : Network) : n.put n.waiting = n := rfl

@[simp] theorem put_put (n : Network) (w w' : Waiting) : (n.put w).put w' = n.put w' := rfl

section
variable (n : Network) (w : Waiting)

@[simp] theorem put_id : (n.put w).id = n.id := rfl

@[simp] theorem put_localUser : (n.put w).localUser = n.localUser := rfl

@[simp] theorem put_localEndpoint : (n.put w).localEndpoint = n.localEndpoint := rfl

@[simp] theorem put_remotes : (n.put w).remotes = n.remotes := rfl

@[simp] theorem put_udp : (n.put w).udp = n.udp := rfl

@[simp] theorem put_connectCompleted : (n.put w).connectCompleted = n.connectCompleted := rfl

@[simp] theorem put_pendingRx : (n.put w).pendingRx = w.rx := rfl

@[simp] theorem put_pendingPeers : (n.put w).pendingPeers = w.peers := rfl

@[simp] theorem put_type10Delivered : (n.put w).type10Delivered = n.type10Delivered := rfl

@[simp] theorem put_type12Delivered : (n.put w).type12Delivered = n.type12Delivered := rfl

@[simp] theorem put_localEntity : (n.put w).localEntity = n.localEntity := rfl

@[simp] theorem put_ready (eid : String) : (n.put w).ready eid = n.ready eid := rfl

end

/-- The change neither reads nor writes what waits. -/
def Blind (f : Network → Network) : Prop := ∀ n w, f (n.put w) = (f n).put w

theorem Blind.waiting {f : Network → Network} (hf : Blind f) (n : Network) :
    (f n).waiting = n.waiting := by
  have h := hf n n.waiting
  rw [put_waiting] at h
  rw [h, waiting_put]

variable (n : Network) (w : Waiting)

theorem modifyRemote_put (eid : String) (f : Endpoint → Endpoint) :
    (n.put w).modifyRemote eid f = (n.modifyRemote eid f).put w := by
  unfold modifyRemote
  rw [put_remotes]
  cases n.remotes.get? eid <;> rfl

theorem ensureRemote_put (eid ip : String) (udpPort : UInt16) (member : Bool) :
    (n.put w).ensureRemote eid ip udpPort member =
      ((n.ensureRemote eid ip udpPort member).1.put w,
        (n.ensureRemote eid ip udpPort member).2) := by
  unfold ensureRemote
  simp only [modifyRemote_put, put_connectCompleted, put_localEntity, put_localEndpoint,
    put_type10Delivered, put_remotes]
  cases n.remotes.get? eid with
  | none =>
    by_cases hcap : remoteCap ≤ n.remotes.size
    · simp only [hcap, if_true]
      split_ifs <;> rfl
    · simp only [hcap, if_false]
      split_ifs <;> rfl
  | some e =>
    simp only
    split_ifs <;> rfl

theorem onMessage_put (f : PendingRx) (now : ℕ) :
    (n.put w).onMessage f now = ((n.onMessage f now).1.put w, (n.onMessage f now).2) := by
  unfold onMessage
  simp only [modifyRemote_put, put_remotes]
  cases n.remotes.get? f.entity <;> rfl

theorem noteHold_put (now : ℕ) :
    (n.put w).noteHold now = ((n.noteHold now).1.put w, (n.noteHold now).2) := by
  have howes : (n.put w).owesType12 = n.owesType12 := rfl
  unfold noteHold
  rw [howes]
  split_ifs <;> rfl

theorem blind_sendUdpAll (kind : UInt8) (payload : Bytes) (options : UInt32) (now : ℕ) :
    Blind fun n => (n.sendUdpAll kind payload options now).1 := by
  intro n w
  show ((n.put w).sendUdpAll kind payload options now).1 =
    (n.sendUdpAll kind payload options now).1.put w
  unfold sendUdpAll
  rw [put_udp]
  cases n.udp <;> rfl

theorem blind_reliableService (now : ℕ) : Blind fun n => (n.reliableService now).1 := by
  intro n w
  show ((n.put w).reliableService now).1 = (n.reliableService now).1.put w
  unfold reliableService
  rw [put_udp]
  cases n.udp <;> rfl

end Network

namespace Handle

variable {h : Handle} {net : ℕ} {w : Waiting}

theorem get?_modifyBox (h : Handle) (net : ℕ) (f : Network → Network) (k : ℕ) :
    (h.modifyBox net f).boxes.get? k =
      if k = net then (h.boxes.get? k).map f else h.boxes.get? k := by
  unfold modifyBox
  by_cases hk : k = net
  · subst hk
    cases hget : h.boxes.get? k <;> simp [hget]
  · cases hget : h.boxes.get? net <;> simp [hk]

theorem modifyBox_eq (h : Handle) (net : ℕ) (f : Network → Network) :
    h.modifyBox net f = { h with boxes := (h.modifyBox net f).boxes } := by
  unfold modifyBox
  cases h.boxes.get? net <;> rfl

theorem modifyBox_comm (h : Handle) {net net' : ℕ} {f g : Network → Network}
    (hfg : ∀ n, g (f n) = f (g n)) :
    (h.modifyBox net f).modifyBox net' g = (h.modifyBox net' g).modifyBox net f := by
  have hboxes : ((h.modifyBox net f).modifyBox net' g).boxes =
      ((h.modifyBox net' g).modifyBox net f).boxes := by
    apply OrdMap.ext_get?
    intro k
    simp only [get?_modifyBox]
    split_ifs
    · cases h.boxes.get? k with
      | none => rfl
      | some n => exact congrArg some (hfg n)
    all_goals rfl
  rw [modifyBox_eq (h.modifyBox net f), modifyBox_eq (h.modifyBox net' g), hboxes,
    modifyBox_eq h net f, modifyBox_eq h net' g]

theorem queueSc_setBoxes (h : Handle) (boxes : OrdMap ℕ Network) (sc : Option StateChange) :
    ({ h with boxes := boxes } : Handle).queueSc sc = { h.queueSc sc with boxes := boxes } := by
  cases sc with
  | none => rfl
  | some sc =>
    unfold queueSc pendingCapDrop
    simp only
    split_ifs <;> rfl

theorem queueSc_modifyBox (h : Handle) (net : ℕ) (f : Network → Network)
    (sc : Option StateChange) :
    (h.modifyBox net f).queueSc sc = (h.queueSc sc).modifyBox net f := by
  unfold modifyBox
  rw [queueSc_boxes]
  cases h.boxes.get? net with
  | none => rfl
  | some n => exact queueSc_setBoxes h _ sc

/-- The handle with something else waiting in one of its boxes. -/
def put (h : Handle) (net : ℕ) (w : Waiting) : Handle := h.modifyBox net fun n => n.put w

theorem get?_put (h : Handle) (net : ℕ) (w : Waiting) (k : ℕ) :
    (h.put net w).boxes.get? k =
      if k = net then (h.boxes.get? k).map fun n => n.put w else h.boxes.get? k :=
  h.get?_modifyBox net _ k

theorem put_eq (h : Handle) (net : ℕ) (w : Waiting) :
    h.put net w = { h with boxes := (h.put net w).boxes } := h.modifyBox_eq net _

/-- What does not touch the boxes. -/
theorem put_of_boxless {f : Handle → Handle}
    (hf : ∀ (h : Handle) boxes, f { h with boxes := boxes } = { f h with boxes := boxes })
    (h : Handle) (net : ℕ) (w : Waiting) : f (h.put net w) = (f h).put net w := by
  have hboxes : (f h).boxes = h.boxes := by
    have heq : f h = { f h with boxes := h.boxes } := hf h h.boxes
    rw [heq]
  unfold put modifyBox
  rw [hboxes]
  cases h.boxes.get? net with
  | none => rfl
  | some n => exact hf h _

theorem put_networks (h : Handle) (net : ℕ) (w : Waiting) (nets : List ℕ) :
    { h.put net w with networks := nets } = ({ h with networks := nets } : Handle).put net w :=
  put_of_boxless (f := fun h => { h with networks := nets }) (fun _ _ => rfl) h net w

theorem put_modifyBox (h : Handle) (net : ℕ) (w : Waiting) (net' : ℕ) {f : Network → Network}
    (hf : Network.Blind f) : (h.put net w).modifyBox net' f = (h.modifyBox net' f).put net w :=
  h.modifyBox_comm fun n => hf n w

theorem put_queueSc (h : Handle) (net : ℕ) (w : Waiting) (sc : Option StateChange) :
    (h.put net w).queueSc sc = (h.queueSc sc).put net w := h.queueSc_modifyBox net _ sc

theorem put_foldl_modifyBox (nets : List ℕ) (h : Handle) (net : ℕ) (w : Waiting)
    {f : Network → Network} (hf : Network.Blind f) :
    nets.foldl (fun h k => h.modifyBox k f) (h.put net w) =
      (nets.foldl (fun h k => h.modifyBox k f) h).put net w := by
  induction nets generalizing h with
  | nil => rfl
  | cons k nets ih => rw [List.foldl_cons, List.foldl_cons, put_modifyBox h net w k hf, ih]

/-- What a reader of one box gets, when it does not look at what waits. -/
theorem put_read {α : Type} (h : Handle) (net : ℕ) (w : Waiting) (k : ℕ) {f : Network → α}
    (hf : ∀ n, f (n.put w) = f n) :
    ((h.put net w).boxes.get? k).map f = (h.boxes.get? k).map f := by
  rw [get?_put]
  split_ifs
  · rw [Option.map_map]
    exact congrArg (fun g => Option.map g _) (funext hf)
  · rfl

theorem put_noteType12Hold (h : Handle) (net : ℕ) (w : Waiting) (now : ℕ) :
    (h.put net w).noteType12Hold now =
      ((h.noteType12Hold now).1.put net w, (h.noteType12Hold now).2) := by
  have hread (k : ℕ) : ((h.put net w).boxes.get? k).bind (fun n => (n.noteHold now).2) =
      (h.boxes.get? k).bind fun n => (n.noteHold now).2 := by
    rw [get?_put]
    split_ifs
    · cases h.boxes.get? k with
      | none => rfl
      | some n =>
        show ((n.put w).noteHold now).2 = _
        rw [n.noteHold_put]
        rfl
    · rfl
  have hnets : (h.put net w).networks = h.networks := by rw [put_eq]
  have hblind : Network.Blind fun n => (n.noteHold now).1 := by
    intro n w
    show ((n.put w).noteHold now).1 = _
    rw [n.noteHold_put]
  simp only [noteType12Hold, hread, hnets, put_foldl_modifyBox h.networks h net w hblind]

theorem put_startProcessing (h : Handle) (net : ℕ) (w : Waiting) (now : ℕ) :
    (h.put net w).startProcessing now = (h.startProcessing now).put net w := by
  have hout : (h.put net w).batchOutstanding = h.batchOutstanding := by rw [put_eq]
  unfold startProcessing
  rw [hout, put_noteType12Hold]
  split_ifs
  · rfl
  · generalize h.noteType12Hold now = x
    unfold put modifyBox
    cases x.1.boxes.get? net <;> rfl

theorem put_markDelivered (h : Handle) (net : ℕ) (w : Waiting) (back : List StateChange) :
    (h.put net w).markDelivered back = (h.markDelivered back).put net w := by
  have h10 : Network.Blind fun n => { n with type10Delivered := true } := fun _ _ => rfl
  have h12 : Network.Blind fun n => { n with type12Delivered := true } := fun _ _ => rfl
  unfold markDelivered
  simp only
  rw [put_foldl_modifyBox _ h net w h10, put_foldl_modifyBox _ _ net w h12]

theorem put_finishProcessing (h : Handle) (net : ℕ) (w : Waiting) (count : ℕ)
    (changes : Option (List (Option StateChange))) :
    (h.put net w).finishProcessing count changes =
      (h.finishProcessing count changes).put net w := by
  unfold finishProcessing
  cases changes with
  | none => rfl
  | some changes =>
    simp only [put_markDelivered]
    split_ifs
    · rfl
    · generalize h.markDelivered (returned count changes) = x
      unfold put modifyBox
      cases x.boxes.get? net <;> rfl

theorem ensureRemote_eq (h : Handle) (k : ℕ) (eid ip : String) (udpPort : UInt16)
    (member : Bool) : h.ensureRemote k eid ip udpPort member =
      if ((h.boxes.get? k).map fun n => (n.ensureRemote eid ip udpPort member).2) = some true then
        (h.modifyBox k fun n => (n.ensureRemote eid ip udpPort member).1).queueSc
          (some (controlSc 12 k (some eid)))
      else h.modifyBox k fun n => (n.ensureRemote eid ip udpPort member).1 := by
  unfold ensureRemote modifyBox
  cases h.boxes.get? k with
  | none => rfl
  | some n => simp only [Option.map_some, Option.some.injEq]

theorem blind_ensureRemote (eid ip : String) (udpPort : UInt16) (member : Bool) :
    Network.Blind fun n => (n.ensureRemote eid ip udpPort member).1 := by
  intro n w
  show ((n.put w).ensureRemote eid ip udpPort member).1 = _
  rw [n.ensureRemote_put]

theorem put_ensureRemote (h : Handle) (net : ℕ) (w : Waiting) (k : ℕ) (eid ip : String)
    (udpPort : UInt16) (member : Bool) :
    (h.put net w).ensureRemote k eid ip udpPort member =
      (h.ensureRemote k eid ip udpPort member).put net w := by
  have hcreated : ∀ n : Network, ((n.put w).ensureRemote eid ip udpPort member).2 =
      (n.ensureRemote eid ip udpPort member).2 := by
    intro n
    rw [n.ensureRemote_put]
  rw [ensureRemote_eq, ensureRemote_eq, h.put_read net w k hcreated,
    put_modifyBox h net w k (blind_ensureRemote eid ip udpPort member)]
  split_ifs
  · exact put_queueSc _ net w _
  · rfl

theorem emitConnectCompleted_eq (h : Handle) (k : ℕ) : h.emitConnectCompleted k =
    if ((h.boxes.get? k).map Network.connectCompleted) = some false then
      (h.modifyBox k fun n => { n with connectCompleted := true }).queueSc
        (some (controlSc 3 k none))
    else h := by
  unfold emitConnectCompleted modifyBox
  cases h.boxes.get? k with
  | none => rfl
  | some n =>
    cases hc : n.connectCompleted <;> simp [hc]

theorem put_emitConnectCompleted (h : Handle) (net : ℕ) (w : Waiting) (k : ℕ) :
    (h.put net w).emitConnectCompleted k = (h.emitConnectCompleted k).put net w := by
  have hblind : Network.Blind fun n => { n with connectCompleted := true } := fun _ _ => rfl
  rw [emitConnectCompleted_eq, emitConnectCompleted_eq,
    h.put_read net w k fun n => n.put_connectCompleted w, put_modifyBox h net w k hblind]
  split_ifs
  · exact put_queueSc _ net w _
  · rfl

theorem put_findNetwork (h : Handle) (net : ℕ) (w : Waiting) (id : String) :
    (h.put net w).findNetwork id = h.findNetwork id := by
  have hnets : (h.put net w).networks = h.networks := by rw [put_eq]
  unfold findNetwork
  simp only [hnets, h.put_read net w _ fun n => n.put_id w]

theorem put_addBox (hn : h.Numbered) (hget : (h.boxes.get? net).isSome = true) (w : Waiting)
    (id : String) (user : Option String) :
    (h.put net w).addBox id user = (h.addBox id user).put net w := by
  obtain ⟨n, hbox⟩ := Option.isSome_iff_exists.mp hget
  have hne : net ≠ h.nextEpoch := by
    have := hn net n hbox
    omega
  have hadd : (h.addBox id user).boxes.get? net = some n := by simp [addBox, hne, hbox]
  unfold put modifyBox
  rw [hbox, hadd]
  simp only [addBox, OrdMap.insert_comm h.boxes _ _ hne]

/-- Whole events: what is not a round of a loop of the receive path or of the tick. -/
def whole : ShimEvent → Bool
  | .recv _ _ _ _ _ | .replay _ _ | .drainPeer _ _ => false
  | _ => true

/-- A whole event is blind to what waits. -/
theorem put_step (hn : h.Numbered) (hget : (h.boxes.get? net).isSome = true) (w : Waiting)
    {e : ShimEvent} (he : whole e = true) : (h.put net w).step e = (h.step e).put net w := by
  have hnets : (h.put net w).networks = h.networks := by rw [put_eq]
  have hepoch : (h.put net w).nextEpoch = h.nextEpoch := by rw [put_eq]
  cases e with
  | queueSc sc => exact h.put_queueSc net w (some sc)
  | start now => exact h.put_startProcessing net w now
  | finish count changes => exact h.put_finishProcessing net w count changes
  | connect id user =>
    show (h.put net w).connectNetwork id user = (h.connectNetwork id user).put net w
    unfold connectNetwork
    rw [put_findNetwork, hepoch, put_addBox hn hget w]
    split
    · exact h.put_emitConnectCompleted net w _
    · exact (h.addBox id user).put_emitConnectCompleted net w _
  | createNetwork id user =>
    simp only [step, createNewNetwork]
    rw [put_addBox hn hget w, put_queueSc]
  | authenticate net' =>
    have hlist : (if h.networks.contains net' then h.put net w
        else { h.put net w with networks := h.networks ++ [net'] }) =
        (if h.networks.contains net' then h
          else { h with networks := h.networks ++ [net'] }).put net w := by
      split_ifs
      · rfl
      · exact h.put_networks net w _
    simp only [step, authenticateLocalUser]
    rw [hnets, hlist, put_queueSc]
  | createEndpoint net' user =>
    have hblind : Network.Blind fun n => { n with localEndpoint := true, localUser := user } :=
      fun _ _ => rfl
    simp only [step, createEndpoint]
    rw [put_modifyBox h net w net' hblind, put_queueSc]
  | leave net' =>
    have hleft : Network.Blind Network.leave := fun _ _ => rfl
    simp only [step, leaveNetwork]
    rw [put_queueSc]
    set h₁ := h.queueSc (some (controlSc 19 net' none))
    have hnets₁ : (h₁.put net w).networks = h₁.networks := by rw [put_eq]
    have hbox : (if h₁.networks.contains net' then (h₁.put net w).modifyBox net' Network.leave
        else h₁.put net w) = (if h₁.networks.contains net' then h₁.modifyBox net' Network.leave
          else h₁).put net w := by
      split_ifs
      · exact h₁.put_modifyBox net w net' hleft
      · rfl
    rw [hnets₁, hbox]
    set h₂ := if h₁.networks.contains net' then h₁.modifyBox net' Network.leave else h₁
    have hnets₂ : (h₂.put net w).networks = h₂.networks := by rw [put_eq]
    rw [hnets₂]
    exact h₂.put_networks net w _
  | ensureRemote net' eid ip udpPort member =>
    exact h.put_ensureRemote net w net' eid ip udpPort member
  | send net' kind payload options now =>
    exact h.put_modifyBox net w net' (Network.blind_sendUdpAll kind payload options now)
  | service net' now => exact h.put_modifyBox net w net' (Network.blind_reliableService now)
  | recv net' p srcIp srcPort now => cases he
  | replay net' now => cases he
  | drainPeer net' member => cases he

/-- The tick's loop over the candidates; their number is enough fuel. -/
def drainPeersLoop (net : ℕ) (member : String → Bool) : ℕ → Handle → Handle
  | 0, h => h
  | fuel + 1, h =>
      match (h.boxes.get? net).bind fun n => n.pendingPeers.head? with
      | none => h
      | some (eid, _, _) => drainPeersLoop net member fuel (h.drainPeer net (member eid))

/-- `drain_pending_peers`; `member` is the game's member list. -/
def drainPendingPeers (h : Handle) (net : ℕ) (member : String → Bool) : Handle :=
  drainPeersLoop net member (((h.boxes.get? net).map fun n => n.pendingPeers.length).getD 0) h

end Handle

/-- The events of the shim with its loops run to their end. -/
inductive Turn where
  | whole (e : ShimEvent) (he : Handle.whole e = true)
  | recv (net : ℕ) (p : Packet) (srcIp : String) (srcPort : UInt16) (now : ℕ)
  | flush (net now : ℕ)
  | drainPeers (net : ℕ) (member : String → Bool)

def Handle.turn (h : Handle) : Turn → Handle
  | .whole e _ => h.step e
  | .recv net p srcIp srcPort now => h.recvDatagram net p srcIp srcPort now
  | .flush net now => h.flushPendingRx net now
  | .drainPeers net member => h.drainPendingPeers net member

/-! ### The receive path on what waits -/

namespace Network

variable (n : Network)

theorem ready_of_sameRemotes {n n' : Network} (h : n.SameRemotes n')
    (hlocal : n'.localEndpoint = n.localEndpoint)
    (h12 : n'.type12Delivered = n.type12Delivered) (eid : String) :
    n'.ready eid = n.ready eid := by
  unfold ready
  rw [h eid, hlocal, h12]

/-- The address and the ack of a datagram leave the frames and the endpoints alone. -/
theorem noted_frame (eid srcIp : String) (srcPort : UInt16) (ack : UInt32) :
    let n₁ := (n.noteSource eid srcIp srcPort).applyAck eid ack
    n₁.pendingRx = n.pendingRx ∧ ∀ e, n₁.ready e = n.ready e := by
  intro n₁
  have hrx : n₁.pendingRx = n.pendingRx :=
    ((n.noteSource eid srcIp srcPort).applyAck_frames eid ack).1.trans
      (n.noteSource_frames eid srcIp srcPort).1
  have hmodify (m : Network) (f : Endpoint → Endpoint) :
      (m.modifyRemote eid f).localEndpoint = m.localEndpoint ∧
        (m.modifyRemote eid f).type12Delivered = m.type12Delivered := by
    unfold modifyRemote
    split <;> exact ⟨rfl, rfl⟩
  have hsource : (n.noteSource eid srcIp srcPort).localEndpoint = n.localEndpoint ∧
      (n.noteSource eid srcIp srcPort).type12Delivered = n.type12Delivered := by
    unfold noteSource
    split_ifs
    · rcases n.ensureRemote_cases eid srcIp srcPort false with heq | heq | ⟨-, heq⟩
      · rw [heq]
        exact ⟨rfl, rfl⟩
      · rw [heq]
        exact hmodify n _
      · rw [heq]
        exact ⟨rfl, rfl⟩
    · unfold queuePendingPeer
      split_ifs <;> exact ⟨rfl, rfl⟩
    · exact ⟨rfl, rfl⟩
  have hack : n₁.localEndpoint = (n.noteSource eid srcIp srcPort).localEndpoint ∧
      n₁.type12Delivered = (n.noteSource eid srcIp srcPort).type12Delivered := by
    show (applyAck _ eid ack).localEndpoint = _ ∧ (applyAck _ eid ack).type12Delivered = _
    unfold applyAck
    split_ifs
    · exact hmodify _ _
    · exact ⟨rfl, rfl⟩
  refine ⟨hrx, fun e => ready_of_sameRemotes ?_ (hack.1.trans hsource.1) (hack.2.trans hsource.2) e⟩
  exact (n.noteSource_sameRemotes eid srcIp srcPort).trans (applyAck_sameRemotes _ eid ack)

variable {n} {p : Packet} {srcIp : String} {srcPort : UInt16}

/-- The box after the address and the ack of a datagram. -/
def noted (n : Network) (p : Packet) (srcIp : String) (srcPort : UInt16) : Network :=
  (n.noteSource p.entity srcIp srcPort).applyAck p.entity p.ack

@[simp] theorem noted_pendingRx : (n.noted p srcIp srcPort).pendingRx = n.pendingRx :=
  (n.noted_frame p.entity srcIp srcPort p.ack).1

@[simp] theorem noted_ready (eid : String) : (n.noted p srcIp srcPort).ready eid = n.ready eid :=
  (n.noted_frame p.entity srcIp srcPort p.ack).2 eid

theorem receive_other (hk : p.kind ≠ kindMsg) :
    n.receive p srcIp srcPort = ({ n.noted p srcIp srcPort with
      pollRequested := p.kind == kindHello || (n.noted p srcIp srcPort).pollRequested }, none) := by
  unfold receive
  rw [← noted]
  generalize n.noted p srcIp srcPort = m
  cases hhello : p.kind == kindHello with
  | true => simp
  | false => simp [hk]

theorem receive_unready (hk : p.kind = kindMsg) (hr : n.ready p.entity = false) :
    n.receive p srcIp srcPort = (({ n.noted p srcIp srcPort with
      pollRequested := !(n.noted p srcIp srcPort).remotes.contains p.entity ||
        (n.noted p srcIp srcPort).pollRequested } : Network).bufferFrame p.frame, none) := by
  have hr' : (n.noted p srcIp srcPort).ready p.entity = false := by rw [noted_ready, hr]
  unfold receive
  rw [← noted]
  generalize n.noted p srcIp srcPort = m at hr' ⊢
  cases hc : m.remotes.contains p.entity with
  | true => simp [hk, kindMsg, kindHello, hc, hr']
  | false => simp [hk, kindMsg, kindHello, hc, ready]

theorem receive_ready (hk : p.kind = kindMsg) (hr : n.ready p.entity = true) :
    n.receive p srcIp srcPort =
      if n.pendingRx = [] then (n.noted p srcIp srcPort, some p.frame)
      else ({ n.noted p srcIp srcPort with pendingRx := n.pendingRx ++ [p.frame] }, none) := by
  have hr' : (n.noted p srcIp srcPort).ready p.entity = true := by rw [noted_ready, hr]
  have hc : (n.noted p srcIp srcPort).remotes.contains p.entity = true := by
    simp only [ready, Bool.and_eq_true] at hr'
    exact hr'.1.1
  unfold receive
  rw [← noted]
  simp [hk, kindMsg, kindHello, hc, hr']

end Network

namespace Handle

variable {h : Handle} {net now : ℕ}

/-- The frames that wait in a box. -/
def rxAt (h : Handle) (net : ℕ) : List PendingRx :=
  ((h.boxes.get? net).map Network.pendingRx).getD []

theorem rxAt_eq {n : Network} (hget : h.boxes.get? net = some n) : h.rxAt net = n.pendingRx := by
  rw [rxAt, hget]
  rfl

theorem deliverReliable_boxes (h : Handle) (net : ℕ) (f : PendingRx) (now k : ℕ) :
    (h.deliverReliable net f now).boxes.get? k =
      if k = net then (h.boxes.get? k).map fun n => (n.onMessage f now).1
      else h.boxes.get? k := by
  unfold deliverReliable
  cases hget : h.boxes.get? net with
  | none =>
    simp only
    split_ifs with hk
    · rw [hk, hget]
      rfl
    · rfl
  | some n =>
    simp only
    rw [(foldl_deliverType21 net f.entity _ _).1, OrdMap.get?_insert]
    split_ifs with hk
    · rw [hk, hget]
      rfl
    · rfl

theorem deliverReliable_rxAt (h : Handle) (net : ℕ) (f : PendingRx) (now k : ℕ) :
    (h.deliverReliable net f now).rxAt k = h.rxAt k := by
  unfold rxAt
  rw [deliverReliable_boxes]
  split_ifs
  · rw [Option.map_map]
    have hrx : (Network.pendingRx ∘ fun n => (n.onMessage f now).1) = Network.pendingRx := by
      funext n
      show (n.onMessage f now).1.pendingRx = n.pendingRx
      unfold Network.onMessage
      split
      · exact n.modifyRemote_pendingRx f.entity _
      · rfl
    rw [hrx]
  · rfl

theorem rxAt_setBox (h : Handle) (net : ℕ) (n : Network) (k : ℕ) :
    ({ h with boxes := h.boxes.insert net n } : Handle).rxAt k =
      if k = net then n.pendingRx else h.rxAt k := by
  unfold rxAt
  rw [OrdMap.get?_insert]
  split_ifs <;> rfl

/-- The first frame can be handed over: the loop takes it. -/
theorem replay_rxAt {n : Network} {f : PendingRx} {rest : List PendingRx}
    (hget : h.boxes.get? net = some n) (hrx : n.pendingRx = f :: rest)
    (hr : n.ready f.entity = true) (now k : ℕ) :
    (h.replay net now).rxAt k = if k = net then rest else h.rxAt k := by
  have hnext : (h.boxes.get? net).bind Network.nextFrame =
      some (f, { n with pendingRx := rest }) := by
    rw [hget, Option.bind_some, Network.nextFrame, hrx]
    simp [hr]
  unfold replay
  rw [hnext]
  simp only
  rw [deliverReliable_rxAt, rxAt_setBox]

theorem nextFrame_cases (n : Network) : n.nextFrame = none ∨
    ∃ f rest, n.pendingRx = f :: rest ∧ n.ready f.entity = true ∧
      n.nextFrame = some (f, { n with pendingRx := rest }) := by
  unfold Network.nextFrame
  cases n.pendingRx with
  | nil => exact Or.inl rfl
  | cons f rest =>
    simp only
    split_ifs with hr
    · exact Or.inr ⟨f, rest, rfl, hr, rfl⟩
    · exact Or.inl rfl

theorem replayLoop_rxAt_le (net now fuel : ℕ) (h : Handle) (k : ℕ) :
    ((replayLoop net now fuel h).rxAt k).length ≤ (h.rxAt k).length := by
  induction fuel generalizing h with
  | zero => exact le_rfl
  | succ fuel ih =>
    unfold replayLoop
    split
    · exact le_rfl
    · rename_i x hnext
      obtain ⟨n, hget, hn⟩ := Option.bind_eq_some_iff.mp hnext
      rcases nextFrame_cases n with hnone | ⟨f, rest, hrx, hr, -⟩
      · rw [hnone] at hn
        cases hn
      · refine (ih _).trans ?_
        rw [replay_rxAt hget hrx hr now k]
        split_ifs with hk
        · rw [hk, rxAt_eq hget, hrx]
          exact Nat.le_succ _
        · exact le_rfl

theorem flushPendingRx_rxAt_lt {n : Network} {f : PendingRx} {rest : List PendingRx}
    (hget : h.boxes.get? net = some n) (hrx : n.pendingRx = f :: rest)
    (hr : n.ready f.entity = true) (now : ℕ) :
    ((h.flushPendingRx net now).rxAt net).length ≤ rest.length := by
  have hfuel : (((h.boxes.get? net).map fun n => n.pendingRx.length).getD 0) = rest.length + 1 := by
    rw [hget]
    simp [hrx]
  have hnext : (h.boxes.get? net).bind Network.nextFrame =
      some (f, { n with pendingRx := rest }) := by
    rw [hget, Option.bind_some, Network.nextFrame, hrx]
    simp [hr]
  unfold flushPendingRx
  rw [hfuel, replayLoop, hnext]
  refine (replayLoop_rxAt_le net now _ _ net).trans ?_
  rw [replay_rxAt hget hrx hr now net, if_pos rfl]

/-- The first frame cannot be handed over: the loop stops at once. -/
theorem flushPendingRx_of_unready {n : Network} {f : PendingRx} {rest : List PendingRx}
    (hget : h.boxes.get? net = some n) (hrx : n.pendingRx = f :: rest)
    (hr : n.ready f.entity = false) (now : ℕ) : h.flushPendingRx net now = h := by
  have hnext : (h.boxes.get? net).bind Network.nextFrame = none := by
    rw [hget, Option.bind_some, Network.nextFrame, hrx]
    simp [hr]
  unfold flushPendingRx
  cases (((h.boxes.get? net).map fun n => n.pendingRx.length).getD 0) with
  | zero => rfl
  | succ fuel => rw [replayLoop, hnext]

/-! ### The bound on the frames -/

/-- No box keeps more frames than the bound. -/
def Bounded (h : Handle) : Prop := ∀ net, (h.rxAt net).length ≤ pendingRxCap

/-- A frame that can be handed over comes when there is room behind the frames that wait, or when
the first of those can be handed over too. -/
def Room (h : Handle) : Turn → Prop
  | .recv net p _ _ _ =>
      ∀ n ∈ h.boxes.get? net, n.udp = true → p.kind = kindMsg → n.ready p.entity = true →
        n.pendingRx.length < pendingRxCap ∨ ∀ f ∈ n.pendingRx.head?, n.ready f.entity = true
  | _ => True

theorem bufferFrame_length {n : Network} (f : PendingRx)
    (hn : n.pendingRx.length ≤ pendingRxCap) :
    (n.bufferFrame f).pendingRx.length ≤ pendingRxCap := by
  have hcap : pendingRxCap = 128 := rfl
  show ((if pendingRxCap ≤ n.pendingRx.length then n.pendingRx.tail else n.pendingRx) ++
    [f]).length ≤ pendingRxCap
  rw [List.length_append, List.length_singleton]
  split_ifs
  · rw [List.length_tail]
    omega
  · omega

section
variable {n : Network} {p : Packet} {srcIp : String} {srcPort : UInt16}

theorem recvDatagram_closed (hget : h.boxes.get? net = none ∨
    ∃ n, h.boxes.get? net = some n ∧ n.udp = false) :
    h.recvDatagram net p srcIp srcPort now = h := by
  unfold recvDatagram recv
  rcases hget with hget | ⟨n, hget, hudp⟩
  · simp [hget]
  · simp [hget, hudp]

theorem recvDatagram_open (hget : h.boxes.get? net = some n) (hudp : n.udp = true) :
    h.recvDatagram net p srcIp srcPort now =
      let r := n.receive p srcIp srcPort
      let h₁ : Handle := { h with boxes := h.boxes.insert net r.1 }
      let h₂ := match r.2 with
        | some f => h₁.deliverReliable net f now
        | none => h₁
      if p.kind == kindMsg && r.1.ready p.entity && r.2.isNone then h₂.flushPendingRx net now
      else h₂ := by
  unfold recvDatagram recv
  rcases hr : n.receive p srcIp srcPort with ⟨n', frame⟩
  cases frame <;> simp [hget, hudp, hr]

theorem recvDatagram_other (hget : h.boxes.get? net = some n) (hudp : n.udp = true)
    (hk : p.kind ≠ kindMsg) : h.recvDatagram net p srcIp srcPort now =
      { h with boxes := h.boxes.insert net { n.noted p srcIp srcPort with
        pollRequested := p.kind == kindHello || (n.noted p srcIp srcPort).pollRequested } } := by
  rw [recvDatagram_open hget hudp, Network.receive_other hk]
  simp [hk]

theorem recvDatagram_unready (hget : h.boxes.get? net = some n) (hudp : n.udp = true)
    (hk : p.kind = kindMsg) (hr : n.ready p.entity = false) :
    h.recvDatagram net p srcIp srcPort now =
      { h with boxes := h.boxes.insert net (({ n.noted p srcIp srcPort with
        pollRequested := !(n.noted p srcIp srcPort).remotes.contains p.entity ||
          (n.noted p srcIp srcPort).pollRequested } : Network).bufferFrame p.frame) } := by
  have hr' : (n.noted p srcIp srcPort).ready p.entity = false := by rw [Network.noted_ready, hr]
  rw [recvDatagram_open hget hudp, Network.receive_unready hk hr]
  generalize n.noted p srcIp srcPort = m at hr' ⊢
  have hbuffer (poll : Bool) : (({ m with pollRequested := poll } : Network).bufferFrame
      p.frame).ready p.entity = false := hr'
  simp [hbuffer]

theorem recvDatagram_direct (hget : h.boxes.get? net = some n) (hudp : n.udp = true)
    (hk : p.kind = kindMsg) (hr : n.ready p.entity = true) (hnil : n.pendingRx = []) :
    h.recvDatagram net p srcIp srcPort now =
      ({ h with boxes := h.boxes.insert net (n.noted p srcIp srcPort) } : Handle).deliverReliable
        net p.frame now := by
  rw [recvDatagram_open hget hudp, Network.receive_ready hk hr, if_pos hnil]
  simp

theorem recvDatagram_behind (hget : h.boxes.get? net = some n) (hudp : n.udp = true)
    (hk : p.kind = kindMsg) (hr : n.ready p.entity = true) (hne : n.pendingRx ≠ []) :
    h.recvDatagram net p srcIp srcPort now =
      ({ h with boxes := h.boxes.insert net { n.noted p srcIp srcPort with
        pendingRx := n.pendingRx ++ [p.frame] } } : Handle).flushPendingRx net now := by
  have hr' : (n.noted p srcIp srcPort).ready p.entity = true := by rw [Network.noted_ready, hr]
  rw [recvDatagram_open hget hudp, Network.receive_ready hk hr, if_neg hne]
  have hready : ({ n.noted p srcIp srcPort with
      pendingRx := n.pendingRx ++ [p.frame] } : Network).ready p.entity = true := hr'
  simp [hk, hready]

end

theorem Bounded.setBox (hb : h.Bounded) {n : Network} (hn : n.pendingRx.length ≤ pendingRxCap) :
    ({ h with boxes := h.boxes.insert net n } : Handle).Bounded := by
  intro k
  rw [rxAt_setBox]
  split_ifs
  · exact hn
  · exact hb k

theorem recvDatagram_bounded_iff (hb : h.Bounded) (net : ℕ) (p : Packet) (srcIp : String)
    (srcPort : UInt16) (now : ℕ) :
    (h.recvDatagram net p srcIp srcPort now).Bounded ↔
      h.Room (.recv net p srcIp srcPort now) := by
  have hroom (hall : ∀ n ∈ h.boxes.get? net, n.udp = true → p.kind = kindMsg →
      n.ready p.entity = true → n.pendingRx.length < pendingRxCap ∨
        ∀ f ∈ n.pendingRx.head?, n.ready f.entity = true)
      (hnext : (h.recvDatagram net p srcIp srcPort now).Bounded) :
      (h.recvDatagram net p srcIp srcPort now).Bounded ↔ h.Room (.recv net p srcIp srcPort now) :=
    iff_of_true hnext hall
  cases hget : h.boxes.get? net with
  | none =>
    apply hroom
    · simp [hget]
    · rwa [recvDatagram_closed (Or.inl hget)]
  | some n =>
    have hn : n.pendingRx.length ≤ pendingRxCap := by
      rw [← rxAt_eq hget]
      exact hb net
    cases hudp : n.udp with
    | false =>
      apply hroom
      · simp [hget, hudp]
      · rwa [recvDatagram_closed (Or.inr ⟨n, hget, hudp⟩)]
    | true =>
    by_cases hk : p.kind = kindMsg
    · cases hr : n.ready p.entity with
      | false =>
        apply hroom
        · simp [hget, hr]
        · rw [recvDatagram_unready hget hudp hk hr]
          exact hb.setBox (bufferFrame_length _ (by simpa using hn))
      | true =>
        cases hrx : n.pendingRx with
        | nil =>
          apply hroom
          · simp [hget, hrx, pendingRxCap]
          · rw [recvDatagram_direct hget hudp hk hr hrx]
            intro k
            rw [deliverReliable_rxAt]
            exact hb.setBox (by simpa using hn) k
        | cons f rest =>
          have hne : n.pendingRx ≠ [] := by rw [hrx]; simp
          rw [recvDatagram_behind hget hudp hk hr hne]
          set m : Network := { n.noted p srcIp srcPort with pendingRx := n.pendingRx ++ [p.frame] }
            with hm
          set h₁ : Handle := { h with boxes := h.boxes.insert net m }
          have hget₁ : h₁.boxes.get? net = some m := by simp [h₁]
          have hrx₁ : m.pendingRx = f :: (rest ++ [p.frame]) := by simp [hm, hrx]
          have hready (e : String) : m.ready e = n.ready e := Network.noted_ready e
          cases hf : n.ready f.entity with
          | true =>
            -- The first frame goes to its receiver, so the loop makes the room.
            refine iff_of_true ?_ ?_
            · intro k
              by_cases hkn : k = net
              · subst hkn
                refine (flushPendingRx_rxAt_lt hget₁ hrx₁ ((hready _).trans hf) now).trans ?_
                rw [hrx] at hn
                simpa using hn
              · refine (replayLoop_rxAt_le net now _ h₁ k).trans ?_
                rw [rxAt_setBox, if_neg hkn]
                exact hb k
            · intro n' hn' _ _ _
              obtain rfl : n = n' := Option.some.inj (hget.symm.trans hn')
              right
              simpa [hrx] using hf
          | false =>
            rw [flushPendingRx_of_unready hget₁ hrx₁ ((hready _).trans hf) now]
            constructor
            · intro hb₁ n' hn' _ _ _
              obtain rfl : n = n' := Option.some.inj (hget.symm.trans hn')
              have hlen := hb₁ net
              rw [rxAt_eq hget₁, hm] at hlen
              left
              simp only [List.length_append, List.length_singleton] at hlen
              omega
            · intro hr₁
              rcases hr₁ n hget hudp hk hr with hlt | hhead
              · apply hb.setBox
                simp only [hm, List.length_append, List.length_singleton]
                omega
              · rw [hrx] at hhead
                rw [hhead f rfl] at hf
                cases hf
    · apply hroom
      · simp [hk]
      · rw [recvDatagram_other hget hudp hk]
        exact hb.setBox (by simpa using hn)

theorem modifyBox_rxAt (h : Handle) (net : ℕ) {f : Network → Network} (hf : Network.Blind f)
    (k : ℕ) : (h.modifyBox net f).rxAt k = h.rxAt k := by
  unfold rxAt
  rw [get?_modifyBox]
  split_ifs
  · rw [Option.map_map]
    have hrx : Network.pendingRx ∘ f = Network.pendingRx :=
      funext fun n => congrArg Waiting.rx (hf.waiting n)
    rw [hrx]
  · rfl

theorem ensureRemote_rxAt (h : Handle) (net : ℕ) (eid ip : String) (udpPort : UInt16)
    (member : Bool) (k : ℕ) : (h.ensureRemote net eid ip udpPort member).rxAt k = h.rxAt k := by
  have hmod := h.modifyBox_rxAt net (blind_ensureRemote eid ip udpPort member) k
  rw [ensureRemote_eq]
  split_ifs
  · rw [rxAt, queueSc_boxes]
    exact hmod
  · exact hmod

theorem drainPeer_rxAt (h : Handle) (net : ℕ) (member : Bool) (k : ℕ) :
    (h.drainPeer net member).rxAt k = h.rxAt k := by
  unfold drainPeer
  split
  · rfl
  · rename_i n hget
    split
    · rfl
    · rw [ensureRemote_rxAt, rxAt_setBox]
      split_ifs with hk
      · rw [hk, rxAt_eq hget]
      · rfl

theorem drainPeersLoop_rxAt (net : ℕ) (member : String → Bool) (fuel : ℕ) (h : Handle) (k : ℕ) :
    (drainPeersLoop net member fuel h).rxAt k = h.rxAt k := by
  induction fuel generalizing h with
  | zero => rfl
  | succ fuel ih =>
    unfold drainPeersLoop
    split
    · rfl
    · rw [ih, drainPeer_rxAt]

theorem put_self {n : Network} (hget : h.boxes.get? net = some n) : h.put net n.waiting = h := by
  have hboxes : (h.put net n.waiting).boxes = h.boxes := by
    apply OrdMap.ext_get?
    intro k
    rw [get?_put]
    split_ifs with hk
    · rw [hk, hget]
      rfl
    · rfl
  rw [put_eq, hboxes]

theorem rxAt_congr {h h' : Handle} (hboxes : h'.boxes = h.boxes) (k : ℕ) : h'.rxAt k = h.rxAt k := by
  rw [rxAt, rxAt, hboxes]

@[simp] theorem queueSc_rxAt (h : Handle) (sc : Option StateChange) (k : ℕ) :
    (h.queueSc sc).rxAt k = h.rxAt k := rxAt_congr (h.queueSc_boxes sc) k

theorem foldl_modifyBox_rxAt (nets : List ℕ) (h : Handle) {f : Network → Network}
    (hf : Network.Blind f) (k : ℕ) :
    (nets.foldl (fun h net => h.modifyBox net f) h).rxAt k = h.rxAt k := by
  induction nets generalizing h with
  | nil => rfl
  | cons net nets ih => rw [List.foldl_cons, ih, modifyBox_rxAt h net hf]

/-- No frame waits in the new box. -/
theorem addBox_rxAt (hn : h.Numbered) (id : String) (user : Option String) (k : ℕ) :
    (h.addBox id user).rxAt k = h.rxAt k := by
  have hset := rxAt_setBox h h.nextEpoch (Network.new id user) k
  refine hset.trans ?_
  split_ifs with hk
  · cases hget : h.boxes.get? k with
    | none =>
      rw [rxAt, hget]
      rfl
    | some n => exact absurd (hn k n hget) (by omega)
  · rfl

theorem emitConnectCompleted_rxAt (h : Handle) (net k : ℕ) :
    (h.emitConnectCompleted net).rxAt k = h.rxAt k := by
  have hblind : Network.Blind fun n => { n with connectCompleted := true } := fun _ _ => rfl
  rw [emitConnectCompleted_eq]
  split_ifs
  · rw [queueSc_rxAt, modifyBox_rxAt h net hblind]
  · rfl

theorem startProcessing_rxAt (h : Handle) (now k : ℕ) : (h.startProcessing now).rxAt k = h.rxAt k := by
  have hblind : Network.Blind fun n => (n.noteHold now).1 := by
    intro n w
    show ((n.put w).noteHold now).1 = _
    rw [n.noteHold_put]
  unfold startProcessing
  split_ifs
  · rfl
  · exact (rxAt_congr rfl k).trans (foldl_modifyBox_rxAt h.networks h hblind k)

theorem markDelivered_rxAt (h : Handle) (back : List StateChange) (k : ℕ) :
    (h.markDelivered back).rxAt k = h.rxAt k := by
  have h10 : Network.Blind fun n => { n with type10Delivered := true } := fun _ _ => rfl
  have h12 : Network.Blind fun n => { n with type12Delivered := true } := fun _ _ => rfl
  unfold markDelivered
  simp only
  rw [foldl_modifyBox_rxAt _ _ h12, foldl_modifyBox_rxAt _ _ h10]

theorem finishProcessing_rxAt (h : Handle) (count : ℕ) (changes : Option (List (Option StateChange)))
    (k : ℕ) : (h.finishProcessing count changes).rxAt k = h.rxAt k := by
  unfold finishProcessing
  cases changes with
  | none => rfl
  | some changes =>
    simp only
    split_ifs
    · rfl
    · exact (rxAt_congr rfl k).trans (h.markDelivered_rxAt (returned count changes) k)

theorem leaveNetwork_rxAt (h : Handle) (net k : ℕ) : (h.leaveNetwork net).rxAt k = h.rxAt k := by
  have hleft : Network.Blind Network.leave := fun _ _ => rfl
  have hbox : (if (h.queueSc (some (controlSc 19 net none))).networks.contains net then
      (h.queueSc (some (controlSc 19 net none))).modifyBox net Network.leave
      else h.queueSc (some (controlSc 19 net none))).rxAt k = h.rxAt k := by
    split_ifs
    · rw [modifyBox_rxAt _ net hleft, queueSc_rxAt]
    · exact queueSc_rxAt h _ k
  unfold leaveNetwork
  exact (rxAt_congr rfl k).trans hbox

/-- A whole event leaves the waiting frames of every network. -/
theorem step_rxAt (hn : h.Numbered) {e : ShimEvent} (he : whole e = true) (k : ℕ) :
    (h.step e).rxAt k = h.rxAt k := by
  cases e with
  | queueSc sc => exact h.queueSc_rxAt _ k
  | start now => exact h.startProcessing_rxAt now k
  | finish count changes => exact h.finishProcessing_rxAt count changes k
  | connect id user =>
    show (h.connectNetwork id user).rxAt k = _
    unfold connectNetwork
    split
    · exact h.emitConnectCompleted_rxAt _ k
    · rw [emitConnectCompleted_rxAt, addBox_rxAt hn]
  | createNetwork id user =>
    show ((h.addBox id user).queueSc _).rxAt k = _
    rw [queueSc_rxAt, addBox_rxAt hn]
  | authenticate net =>
    show (h.authenticateLocalUser net).rxAt k = _
    unfold authenticateLocalUser
    rw [queueSc_rxAt]
    split_ifs
    · rfl
    · exact rxAt_congr rfl k
  | createEndpoint net user =>
    show (h.createEndpoint net user).rxAt k = _
    unfold createEndpoint
    rw [queueSc_rxAt, modifyBox_rxAt h net fun _ _ => rfl]
  | leave net => exact h.leaveNetwork_rxAt net k
  | ensureRemote net eid ip udpPort member => exact h.ensureRemote_rxAt net eid ip udpPort member k
  | send net kind payload options now =>
    exact h.modifyBox_rxAt net (Network.blind_sendUdpAll kind payload options now) k
  | service net now => exact h.modifyBox_rxAt net (Network.blind_reliableService now) k
  | recv net p srcIp srcPort now => cases he
  | replay net now => cases he
  | drainPeer net member => cases he

theorem Numbered.step (hn : h.Numbered) (e : ShimEvent) : (h.step e).Numbered := by
  have hrest (hshim : FromShim e) (hstart : ∀ now, e ≠ .start now)
      (hfinish : ∀ count changes, e ≠ .finish count changes) : (h.step e).Numbered := by
    obtain ⟨new, hext⟩ := step_extends hn hshim hstart hfinish
    exact hext.numbered
  cases e with
  | queueSc sc =>
    have hboxes : (h.queueSc (some sc)).boxes = h.boxes := h.queueSc_boxes _
    have hepoch : (h.queueSc (some sc)).nextEpoch = h.nextEpoch := by
      rcases h.queueSc_cases sc with heq | ⟨-, -, heq⟩
      · rw [heq]
        rfl
      · rw [heq]
    exact (Alike.of_eq hboxes hepoch).numbered hn
  | start now => exact (h.startProcessing_alike now).numbered hn
  | finish count changes => exact (h.finishProcessing_alike count changes).numbered hn
  | _ => exact hrest trivial (by simp) (by simp)

theorem drainPeersLoop_eq_run (net : ℕ) (member : String → Bool) (fuel : ℕ) (h : Handle) :
    ∃ es, drainPeersLoop net member fuel h = run Handle.step h es := by
  induction fuel generalizing h with
  | zero => exact ⟨[], rfl⟩
  | succ fuel ih =>
    unfold drainPeersLoop
    split
    · exact ⟨[], rfl⟩
    · rename_i eid _ _ _
      obtain ⟨es, hes⟩ := ih (h.drainPeer net (member eid))
      exact ⟨.drainPeer net (member eid) :: es, hes⟩

/-- A turn is a run of the events of its loop. -/
theorem turn_eq_run (h : Handle) (t : Turn) : ∃ es, h.turn t = run Handle.step h es := by
  cases t with
  | whole e he => exact ⟨[e], rfl⟩
  | recv net p srcIp srcPort now =>
    obtain ⟨k, hk⟩ := h.recvDatagram_eq_run net p srcIp srcPort now
    exact ⟨_, hk⟩
  | flush net now =>
    obtain ⟨k, hk⟩ := replayLoop_eq_run net now _ h
    exact ⟨_, hk⟩
  | drainPeers net member => exact drainPeersLoop_eq_run net member _ h

theorem Numbered.turn (hn : h.Numbered) (t : Turn) : (h.turn t).Numbered := by
  obtain ⟨es, hes⟩ := h.turn_eq_run t
  have hstep (h : Handle) (e : ShimEvent) (hn : h.Numbered) : (h.step e).Numbered := hn.step e
  rw [hes]
  exact run_invariant_all hstep hn es

theorem turn_bounded_iff (hn : h.Numbered) (hb : h.Bounded) (t : Turn) :
    (h.turn t).Bounded ↔ h.Room t := by
  cases t with
  | whole e he =>
    refine iff_of_true (fun k => ?_) trivial
    show ((h.step e).rxAt k).length ≤ _
    rw [step_rxAt hn he]
    exact hb k
  | recv net p srcIp srcPort now => exact recvDatagram_bounded_iff hb net p srcIp srcPort now
  | flush net now =>
    exact iff_of_true (fun k => (replayLoop_rxAt_le net now _ h k).trans (hb k)) trivial
  | drainPeers net member =>
    refine iff_of_true (fun k => ?_) trivial
    show ((drainPeersLoop net member _ h).rxAt k).length ≤ _
    rw [drainPeersLoop_rxAt]
    exact hb k

/-- In every run, every network keeps at most 128 waiting frames in all states exactly when every
frame that could be handed over finds room or an open queue. -/
theorem bounded_iff_room (ts : List Turn) :
    (∀ us, us <+: ts → ∀ net n, (run Handle.turn Handle.new us).boxes.get? net = some n →
        n.pendingRx.length ≤ 128) ↔
      Along Handle.turn Room Handle.new ts := by
  have hnew : Handle.new.Numbered ∧ Handle.new.Bounded :=
    ⟨fun _ _ hget => by simp [Handle.new] at hget, fun _ => Nat.zero_le _⟩
  have hturn (h : Handle) (t : Turn) (hn : h.Numbered) : (h.turn t).Numbered := hn.turn t
  have hnumbered (us : List Turn) : (run Handle.turn Handle.new us).Numbered :=
    run_invariant_all hturn hnew.1 us
  have hstep (h : Handle) (t : Turn) (hs : h.Numbered ∧ h.Bounded) :
      ((h.turn t).Numbered ∧ (h.turn t).Bounded) ↔ h.Room t := by
    rw [turn_bounded_iff hs.1 hs.2 t]
    exact and_iff_right (hs.1.turn t)
  rw [← invariant_iff_along hstep hnew ts]
  refine forall₂_congr fun us _ => ?_
  constructor
  · intro hall
    refine ⟨hnumbered us, fun net => ?_⟩
    cases hget : (run Handle.turn Handle.new us).boxes.get? net with
    | none => simp [rxAt, hget]
    | some n =>
      rw [rxAt_eq hget]
      exact hall net n hget
  · rintro ⟨-, hb⟩ net n hget
    rw [← rxAt_eq hget]
    exact hb net

/-- Whole events as turns. -/
def wholes (es : List ShimEvent) : List Turn :=
  es.filterMap fun e => if he : whole e = true then some (.whole e he) else none

/-- The `k`-th message of somebody who is not registered. -/
def strangerMessage (k : ℕ) : Turn :=
  .recv 1 ⟨"stranger", kindMsg, 0, UInt32.ofNat (k + 1), 0, [1]⟩ "10.0.0.9" 27015 2

/-- A stranger fills the buffer, then a registered remote sends. -/
def strangerFills : List Turn :=
  wholes Receiving.meetRemote ++ (List.range 128).map strangerMessage ++
    [.recv 1 ⟨"guest", kindMsg, 3, 1, 0, [7]⟩ "10.0.0.2" 27015 2]

theorem strangerFills_overflows :
    ((run Handle.turn Handle.new strangerFills).boxes.get? 1).map
      (fun n => n.pendingRx.length) = some 129 := by
  decide +kernel

end Handle

end GbfrLan.Party
