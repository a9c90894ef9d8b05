import GbfrLan.Party.Shim
import GbfrLan.Party.Stream

/-!
# From the acknowledged to the handed-over

The ack pointer of a remote moves when its receiver releases a message; the message
reaches the title through a queue that drops type-21 changes at its bound. This
module compares the two over whole runs of the shim.
-/
namespace GbfrLan.Party
open Lib

/-- The shim with its history: the message frames that arrived on each network, and
the state changes handed out in batches. -/
structure Receiving where
  handle : Handle
  arrived : List (ℕ × PendingRx)
  handed : List StateChange

namespace Receiving

def fresh : Receiving := ⟨Handle.new, [], []⟩

def step (s : Receiving) (e : ShimEvent) : Receiving where
  handle := s.handle.step e
  arrived := match e with
    | .recv net p _ _ _ =>
        if p.kind == kindMsg then s.arrived ++ [(net, p.frame)] else s.arrived
    | _ => s.arrived
  handed := match e with
    | .start now =>
        if s.handle.batchOutstanding then s.handed
        else s.handed ++ (s.handle.startProcessing now).inFlight
    | _ => s.handed

/-- Only control changes are queued from outside the receive path, and a guaranteed
message has a payload, as every sender's export makes sure. -/
def Legal (_ : Receiving) : ShimEvent → Prop
  | .queueSc sc => sc.isControl = true
  | .recv _ p _ _ _ => guaranteed p.options = true → p.payload ≠ []
  | _ => True

instance (s : Receiving) : ∀ e, Decidable (s.Legal e)
  | .queueSc sc => inferInstanceAs (Decidable (sc.isControl = true))
  | .recv _ p _ _ _ => inferInstanceAs (Decidable (guaranteed p.options = true → p.payload ≠ []))
  | .start _ | .finish _ _ | .connect _ _ | .createNetwork _ _ | .authenticate _
  | .createEndpoint _ _ | .leave _ | .ensureRemote _ _ _ _ _ | .drainPeer _ _ | .replay _ _
  | .send _ _ _ _ _ | .service _ _ => inferInstanceAs (Decidable True)

/-- The frame an event hands to a receiver, on its network. -/
def fed (s : Receiving) : ShimEvent → Option (Network × PendingRx)
  | .recv net p srcIp srcPort _ =>
      match s.handle.boxes.get? net with
      | some n => if n.udp then (n.receive p srcIp srcPort).2.map fun f =>
          ((n.receive p srcIp srcPort).1, f) else none
      | none => none
  | .replay net _ =>
      match (s.handle.boxes.get? net).bind Network.nextFrame with
      | some (f, n) => some (n, f)
      | none => none
  | _ => none

/-- The clock reading of an event that receives. -/
def clock : ShimEvent → ℕ
  | .recv _ _ _ _ now => now
  | .replay _ now => now
  | _ => 0

/-- The queue has room for every guaranteed message the event releases. -/
def HasRoom (s : Receiving) (e : ShimEvent) : Prop :=
  match s.fed e with
  | some (n, f) => guaranteed f.sendOpts = true → f.seq ≠ 0 →
      (n.onMessage f (clock e)).2.released = [] ∨
        s.handle.pending.length + (n.onMessage f (clock e)).2.released.length ≤ queueCap
  | none => True

instance (s : Receiving) (e : ShimEvent) : Decidable (s.HasRoom e) := by
  unfold HasRoom
  cases s.fed e with
  | none => exact inferInstanceAs (Decidable True)
  | some x => exact inferInstanceAs (Decidable (guaranteed x.2.sendOpts = true → x.2.seq ≠ 0 →
      (x.1.onMessage x.2 (clock e)).2.released = [] ∨ s.handle.pending.length +
        (x.1.onMessage x.2 (clock e)).2.released.length ≤ queueCap))

end Receiving

/-- Every remote's stream is the old one or not started. -/
def KeepsStreams (m m' : OrdMap String Endpoint) : Prop :=
  ∀ eid e', m'.get? eid = some e' →
    Unstarted e'.rx ∨ ∃ e, m.get? eid = some e ∧ SameStream e.rx e'.rx

namespace KeepsStreams

variable {m m' m'' : OrdMap String Endpoint}

theorem refl (m : OrdMap String Endpoint) : KeepsStreams m m :=
  fun _ e' h => .inr ⟨e', h, rfl, rfl⟩

theorem trans (h : KeepsStreams m m') (h' : KeepsStreams m' m'') : KeepsStreams m m'' := by
  intro eid e'' he''
  cases h' eid e'' he'' with
  | inl hu => exact .inl hu
  | inr hs =>
    obtain ⟨e', he', hnext', hbuf'⟩ := hs
    cases h eid e' he' with
    | inl hu => exact .inl ⟨hnext'.trans hu.1, hbuf'.trans hu.2⟩
    | inr hs =>
      obtain ⟨e, he, hnext, hbuf⟩ := hs
      exact .inr ⟨e, he, hnext'.trans hnext, hbuf'.trans hbuf⟩

theorem mapVals {f : String → Endpoint → Endpoint}
    (hf : ∀ eid e, Unstarted (f eid e).rx ∨ SameStream e.rx (f eid e).rx) :
    KeepsStreams m (m.mapVals f) := by
  intro eid e' he'
  rw [OrdMap.get?_mapVals, Option.map_eq_some_iff] at he'
  obtain ⟨e, he, rfl⟩ := he'
  exact (hf eid e).imp_right fun hs => ⟨e, he, hs⟩

theorem modifyRemote (n : Network) (eid : String) {f : Endpoint → Endpoint}
    (hf : ∀ e, SameStream e.rx (f e).rx) :
    KeepsStreams n.remotes (n.modifyRemote eid f).remotes := by
  unfold Network.modifyRemote
  cases he : n.remotes.get? eid with
  | none => exact refl _
  | some e =>
    intro eid' e' he'
    simp only [OrdMap.get?_insert] at he'
    split_ifs at he' with heq
    · simp only [Option.some.injEq] at he'
      exact .inr ⟨e, heq ▸ he, he' ▸ hf e⟩
    · exact .inr ⟨e', he', rfl, rfl⟩

end KeepsStreams

namespace Network

theorem modifyRemote_pendingRx (n : Network) (eid : String) (f : Endpoint → Endpoint) :
    (n.modifyRemote eid f).pendingRx = n.pendingRx := by
  unfold modifyRemote
  split <;> rfl

theorem ensureRemote_frames (n : Network) (eid ip : String) (udpPort : UInt16) (member : Bool) :
    (n.ensureRemote eid ip udpPort member).1.pendingRx = n.pendingRx ∧
      KeepsStreams n.remotes (n.ensureRemote eid ip udpPort member).1.remotes := by
  rcases n.ensureRemote_cases eid ip udpPort member with h | h | ⟨-, h⟩ <;> rw [h]
  · exact ⟨rfl, .refl _⟩
  · exact ⟨n.modifyRemote_pendingRx eid _, .modifyRemote n eid fun e => ⟨rfl, rfl⟩⟩
  · refine ⟨rfl, ?_⟩
    intro eid' e' he'
    simp only [OrdMap.get?_insert] at he'
    split_ifs at he'
    · simp only [Option.some.injEq] at he'
      exact .inl (he' ▸ ⟨rfl, rfl⟩)
    · exact .inr ⟨e', he', rfl, rfl⟩

theorem noteSource_frames (n : Network) (eid srcIp : String) (srcPort : UInt16) :
    (n.noteSource eid srcIp srcPort).pendingRx = n.pendingRx ∧
      KeepsStreams n.remotes (n.noteSource eid srcIp srcPort).remotes := by
  unfold noteSource
  split_ifs
  · exact n.ensureRemote_frames eid srcIp srcPort false
  · unfold queuePendingPeer
    split_ifs <;> exact ⟨rfl, .refl _⟩
  · exact ⟨rfl, .refl _⟩

theorem applyAck_frames (n : Network) (eid : String) (ack : UInt32) :
    (n.applyAck eid ack).pendingRx = n.pendingRx ∧
      KeepsStreams n.remotes (n.applyAck eid ack).remotes := by
  unfold applyAck
  split_ifs
  · exact ⟨n.modifyRemote_pendingRx eid _, .modifyRemote n eid fun e => ⟨rfl, rfl⟩⟩
  · exact ⟨rfl, .refl _⟩

/-- Receiving a datagram touches no stream before its frame is handed over, and adds
no other frame to the waiting ones. -/
theorem receive_frames (n : Network) (p : Packet) (srcIp : String) (srcPort : UInt16) :
    KeepsStreams n.remotes (n.receive p srcIp srcPort).1.remotes ∧
      (∀ f ∈ (n.receive p srcIp srcPort).1.pendingRx,
        f ∈ n.pendingRx ∨ (p.kind = kindMsg ∧ f = p.frame)) ∧
      (∀ f, (n.receive p srcIp srcPort).2 = some f →
        p.kind = kindMsg ∧ f = p.frame) := by
  have hn := n.noteSource_frames p.entity srcIp srcPort
  have ha := (n.noteSource p.entity srcIp srcPort).applyAck_frames p.entity p.ack
  have hpend := ha.1.trans hn.1
  have hkeep := hn.2.trans ha.2
  obtain ⟨poll, h | ⟨hk, h⟩ | ⟨hk, h⟩ | ⟨hk, hnil, h⟩⟩ := n.receive_cases p srcIp srcPort
  · rw [h]
    refine ⟨hkeep, ?_, by simp⟩
    intro f hf
    exact .inl (hpend ▸ hf)
  · rw [h]
    refine ⟨hkeep, ?_, by simp⟩
    intro f hf
    simp only [bufferFrame, List.mem_append, List.mem_singleton] at hf
    cases hf with
    | inl hf =>
      split_ifs at hf
      · exact .inl (hpend ▸ List.mem_of_mem_tail hf)
      · exact .inl (hpend ▸ hf)
    | inr hf => exact .inr ⟨hk, hf⟩
  · rw [h]
    refine ⟨hkeep, ?_, by simp⟩
    intro f hf
    cases List.mem_append.mp hf with
    | inl hf => exact .inl (hpend ▸ hf)
    | inr hf => exact .inr ⟨hk, List.mem_singleton.mp hf⟩
  · rw [h]
    refine ⟨hkeep, ?_, ?_⟩
    · intro f hf
      exact .inl (hpend ▸ hf)
    · intro f hf
      exact ⟨hk, (Option.some.inj hf).symm⟩

/-- A box keeps its streams and gains no waiting frame. -/
def Quiet (n n' : Network) : Prop :=
  (∀ f ∈ n'.pendingRx, f ∈ n.pendingRx) ∧ KeepsStreams n.remotes n'.remotes

theorem Quiet.of_eq {n n' : Network} (hp : n'.pendingRx = n.pendingRx)
    (hr : KeepsStreams n.remotes n'.remotes) : n.Quiet n' :=
  ⟨fun _ hf => hp ▸ hf, hr⟩

theorem sendUdpAll_quiet (n : Network) (kind : UInt8) (payload : Bytes) (options : UInt32)
    (now : ℕ) : n.Quiet (n.sendUdpAll kind payload options now).1 := by
  unfold sendUdpAll
  split_ifs
  · exact .of_eq rfl (.refl _)
  · refine .of_eq rfl (.mapVals fun eid e => .inr ?_)
    split_ifs
    · exact e.sendTo_sameStream n.localEntity kind payload options now
    · exact ⟨rfl, rfl⟩

theorem reliableService_quiet (n : Network) (now : ℕ) : n.Quiet (n.reliableService now).1 := by
  unfold reliableService
  split_ifs
  · exact .of_eq rfl (.refl _)
  · refine .of_eq rfl (.mapVals fun eid e => .inr ?_)
    split_ifs
    · exact e.service_sameStream n.localEntity now
    · exact ⟨rfl, rfl⟩

theorem leave_quiet (n : Network) : n.Quiet n.leave :=
  .of_eq rfl (.mapVals fun _ _ => .inl ⟨rfl, rfl⟩)

theorem noteHold_quiet (n : Network) (now : ℕ) : n.Quiet (n.noteHold now).1 := by
  unfold noteHold
  split_ifs <;> exact .of_eq rfl (.refl _)

end Network

/-- No box gains a stream or a waiting frame. -/
def QuietBoxes (boxes boxes' : OrdMap ℕ Network) : Prop :=
  ∀ net n', boxes'.get? net = some n' →
    (∃ n, boxes.get? net = some n ∧ n.Quiet n') ∨
      (n'.pendingRx = [] ∧ ∀ eid e, n'.remotes.get? eid = some e → Unstarted e.rx)

namespace QuietBoxes

variable {boxes boxes' boxes'' : OrdMap ℕ Network}

theorem refl (boxes : OrdMap ℕ Network) : QuietBoxes boxes boxes :=
  fun _ n' h => .inl ⟨n', h, .of_eq rfl (.refl _)⟩

theorem trans (h : QuietBoxes boxes boxes') (h' : QuietBoxes boxes' boxes'') :
    QuietBoxes boxes boxes'' := by
  intro net n'' hn''
  cases h' net n'' hn'' with
  | inr hnew => exact .inr hnew
  | inl hold =>
    obtain ⟨n', hn', hf', hs'⟩ := hold
    cases h net n' hn' with
    | inl hold =>
      obtain ⟨n, hn, hf, hs⟩ := hold
      exact .inl ⟨n, hn, fun f hm => hf f (hf' f hm), hs.trans hs'⟩
    | inr hnew =>
      right
      constructor
      · rw [List.eq_nil_iff_forall_not_mem]
        intro f hm
        have hm' := hf' f hm
        rw [hnew.1] at hm'
        cases hm'
      · intro eid e he
        cases hs' eid e he with
        | inl hu => exact hu
        | inr hsame =>
          obtain ⟨e', he', hnext, hbuf⟩ := hsame
          have hu := hnew.2 eid e' he'
          exact ⟨hnext.trans hu.1, hbuf.trans hu.2⟩

theorem insert {net : ℕ} {n n' : Network} (hn : boxes.get? net = some n) (hq : n.Quiet n') :
    QuietBoxes boxes (boxes.insert net n') := by
  intro net' m hm
  rw [OrdMap.get?_insert] at hm
  split_ifs at hm with heq
  · simp only [Option.some.injEq] at hm
    exact .inl ⟨n, heq ▸ hn, hm ▸ hq⟩
  · exact .inl ⟨m, hm, .of_eq rfl (.refl _)⟩

theorem insertNew (net : ℕ) (id : String) (user : Option String) :
    QuietBoxes boxes (boxes.insert net (Network.new id user)) := by
  intro net' m hm
  rw [OrdMap.get?_insert] at hm
  split_ifs at hm with heq
  · simp only [Option.some.injEq] at hm
    right
    rw [← hm]
    exact ⟨rfl, by simp [Network.new]⟩
  · exact .inl ⟨m, hm, .of_eq rfl (.refl _)⟩

theorem modifyBox (h : Handle) (net : ℕ) {f : Network → Network}
    (hf : ∀ n : Network, n.Quiet (f n)) : QuietBoxes h.boxes (h.modifyBox net f).boxes := by
  unfold Handle.modifyBox
  cases hn : h.boxes.get? net with
  | none => exact refl _
  | some n => exact insert hn (hf n)

theorem foldl_modifyBox (nets : List ℕ) (h : Handle) {f : Network → Network}
    (hf : ∀ n : Network, n.Quiet (f n)) :
    QuietBoxes h.boxes (nets.foldl (fun h net => h.modifyBox net f) h).boxes := by
  induction nets generalizing h with
  | nil => exact refl _
  | cons net nets ih => exact (modifyBox h net hf).trans (ih (h.modifyBox net f))

end QuietBoxes

namespace Handle

@[simp] theorem queueSc_boxes (h : Handle) (sc : Option StateChange) :
    (h.queueSc sc).boxes = h.boxes := by
  cases sc with
  | none => rfl
  | some sc =>
    rcases h.queueSc_cases sc with hp | ⟨-, -, hp⟩ <;> rw [hp]
    rfl

theorem startProcessing_boxes (h : Handle) (now : ℕ) :
    QuietBoxes h.boxes (h.startProcessing now).boxes := by
  unfold startProcessing
  split_ifs
  · exact .refl _
  · exact .foldl_modifyBox h.networks h fun n => n.noteHold_quiet now

theorem markDelivered_boxes (h : Handle) (back : List StateChange) :
    QuietBoxes h.boxes (h.markDelivered back).boxes := by
  have h10 : ∀ n : Network, n.Quiet { n with type10Delivered := true } :=
    fun n => .of_eq rfl (.refl _)
  have h12 : ∀ n : Network, n.Quiet { n with type12Delivered := true } :=
    fun n => .of_eq rfl (.refl _)
  exact (QuietBoxes.foldl_modifyBox _ h h10).trans (.foldl_modifyBox _ _ h12)

theorem finishProcessing_boxes (h : Handle) (count : ℕ)
    (changes : Option (List (Option StateChange))) :
    QuietBoxes h.boxes (h.finishProcessing count changes).boxes := by
  unfold finishProcessing
  cases changes with
  | none => exact .refl _
  | some changes =>
    simp only
    split_ifs
    · exact .refl _
    · exact h.markDelivered_boxes (returned count changes)

theorem ensureRemote_boxes (h : Handle) (net : ℕ) (eid ip : String) (udpPort : UInt16)
    (member : Bool) : QuietBoxes h.boxes (h.ensureRemote net eid ip udpPort member).boxes := by
  unfold ensureRemote
  cases hn : h.boxes.get? net with
  | none => exact .refl _
  | some n =>
    obtain ⟨hp, hk⟩ := n.ensureRemote_frames eid ip udpPort member
    have hq : QuietBoxes h.boxes (h.boxes.insert net (n.ensureRemote eid ip udpPort member).1) :=
      .insert hn (.of_eq hp hk)
    simp only
    split_ifs
    · rw [queueSc_boxes]
      exact hq
    · exact hq

theorem drainPeer_boxes (h : Handle) (net : ℕ) (member : Bool) :
    QuietBoxes h.boxes (h.drainPeer net member).boxes := by
  unfold drainPeer
  split
  · exact .refl _
  · rename_i n hn
    split
    · exact .refl _
    · rename_i eid ip udpPort rest hp
      have hq : QuietBoxes h.boxes (h.boxes.insert net { n with pendingPeers := rest }) :=
        .insert hn (.of_eq rfl (.refl _))
      exact hq.trans (ensureRemote_boxes _ net eid ip udpPort member)

theorem emitConnectCompleted_boxes (h : Handle) (net : ℕ) :
    QuietBoxes h.boxes (h.emitConnectCompleted net).boxes := by
  unfold emitConnectCompleted
  cases hn : h.boxes.get? net with
  | none => exact .refl _
  | some n =>
    simp only
    split_ifs
    · exact .refl _
    · rw [queueSc_boxes]
      exact .insert hn (.of_eq rfl (.refl _))

/-- Every event outside the receive path leaves the streams alone. -/
theorem step_quiet (h : Handle) (e : ShimEvent)
    (hrecv : ∀ net p srcIp srcPort now, e ≠ .recv net p srcIp srcPort now)
    (hreplay : ∀ net now, e ≠ .replay net now) : QuietBoxes h.boxes (h.step e).boxes := by
  cases e with
  | queueSc sc =>
    simp only [step, queueSc_boxes]
    exact .refl _
  | start now => exact h.startProcessing_boxes now
  | finish count changes => exact h.finishProcessing_boxes count changes
  | connect id user =>
    simp only [step, connectNetwork]
    split
    · exact h.emitConnectCompleted_boxes _
    · exact (QuietBoxes.insertNew h.nextEpoch id user).trans
        ((h.addBox id user).emitConnectCompleted_boxes h.nextEpoch)
  | createNetwork id user =>
    simp only [step, createNewNetwork, queueSc_boxes]
    exact .insertNew h.nextEpoch id user
  | authenticate net =>
    simp only [step, authenticateLocalUser, queueSc_boxes]
    split_ifs <;> exact .refl _
  | createEndpoint net user =>
    simp only [step, createEndpoint, queueSc_boxes]
    exact .modifyBox h net fun n => .of_eq rfl (.refl _)
  | leave net =>
    simp only [step, leaveNetwork]
    split_ifs
    · have hq := QuietBoxes.modifyBox (h.queueSc (some (controlSc 19 net none))) net
        Network.leave_quiet
      rw [queueSc_boxes] at hq
      exact hq
    · rw [queueSc_boxes]
      exact .refl _
  | ensureRemote net eid ip udpPort member => exact h.ensureRemote_boxes net eid ip udpPort member
  | drainPeer net member => exact h.drainPeer_boxes net member
  | recv net p srcIp srcPort now => exact absurd rfl (hrecv net p srcIp srcPort now)
  | replay net now => exact absurd rfl (hreplay net now)
  | send net kind payload options now =>
    exact .modifyBox h net fun n => n.sendUdpAll_quiet kind payload options now
  | service net now => exact .modifyBox h net fun n => n.reliableService_quiet now

/-- The drain loop hands out or keeps every queued change. -/
theorem drain_perm (hold : Bool) (pending : List StateChange) (handed : Counts) (capHits : ℕ) :
    let d := drain hold pending [] [] handed capHits
    (d.inFlight ++ (d.deferred ++ d.pending)).Perm pending := by
  set d := drain hold pending [] [] handed capHits
  have horder : ∀ f : StateChange → Bool, ((∀ sc, f sc = true → sc.isMessage = true) ∨
      (∀ sc, f sc = true → sc.isMessage = false)) →
      (d.inFlight ++ (d.deferred ++ d.pending)).filter f = pending.filter f :=
    fun f hf => drain_order f hf pending handed capHits (.start hold)
  have hmsg := horder StateChange.isMessage (.inl fun _ h => h)
  have hctl := horder (fun sc => !sc.isMessage) (.inr fun _ h => by simpa using h)
  have hsplit : ∀ l : List StateChange,
      (l.filter StateChange.isMessage ++ l.filter fun sc => !sc.isMessage).Perm l :=
    fun l => List.filter_append_perm StateChange.isMessage l
  exact (hsplit _).symm.trans (by rw [hmsg, hctl]; exact hsplit pending)

/-- Queueing appends to the queue, also after a change elsewhere in the handle. -/
theorem queueSc_pending {h h' : Handle} (heq : h'.pending = h.pending)
    (sc : Option StateChange) : h.pending <+: (h'.queueSc sc).pending := by
  rw [← heq]
  cases sc with
  | none => exact List.prefix_refl _
  | some sc =>
    rcases h'.queueSc_cases sc with hp | ⟨-, -, hp⟩ <;> rw [hp]
    exact List.prefix_append _ _

@[simp] theorem modifyBox_pending (h : Handle) (net : ℕ) (f : Network → Network) :
    (h.modifyBox net f).pending = h.pending := by
  unfold modifyBox
  split <;> rfl

theorem ensureRemote_pending {h h' : Handle} (heq : h'.pending = h.pending) (net : ℕ)
    (eid ip : String) (udpPort : UInt16) (member : Bool) :
    h.pending <+: (h'.ensureRemote net eid ip udpPort member).pending := by
  unfold ensureRemote
  split
  · rw [heq]
  · simp only
    split_ifs
    · apply queueSc_pending
      exact heq
    · simp only [heq]
      exact List.prefix_refl _

theorem emitConnectCompleted_pending (h : Handle) (net : ℕ) :
    h.pending <+: (h.emitConnectCompleted net).pending := by
  unfold emitConnectCompleted
  split
  · exact List.prefix_refl _
  · split_ifs
    · exact List.prefix_refl _
    · apply queueSc_pending
      rfl

/-- Outside a Start the queue only grows at its end. -/
theorem step_pending (h : Handle) (e : ShimEvent) (hstart : ∀ now, e ≠ .start now)
    (hrecv : ∀ net p srcIp srcPort now, e ≠ .recv net p srcIp srcPort now)
    (hreplay : ∀ net now, e ≠ .replay net now) : h.pending <+: (h.step e).pending := by
  cases e with
  | queueSc sc => exact queueSc_pending rfl (some sc)
  | start now => exact absurd rfl (hstart now)
  | finish count changes =>
    simp only [step]
    rw [(h.finishProcessing_frame count changes).1]
  | connect id user =>
    simp only [step, connectNetwork]
    split
    · exact h.emitConnectCompleted_pending _
    · exact (h.addBox id user).emitConnectCompleted_pending _
  | createNetwork id user =>
    apply queueSc_pending
    rfl
  | authenticate net =>
    simp only [step, authenticateLocalUser]
    split_ifs
    · apply queueSc_pending
      rfl
    · apply queueSc_pending
      rfl
  | createEndpoint net user =>
    exact queueSc_pending (h.modifyBox_pending net _) _
  | leave net =>
    simp only [step, leaveNetwork]
    split_ifs
    · rw [modifyBox_pending]
      exact queueSc_pending rfl _
    · exact queueSc_pending rfl _
  | ensureRemote net eid ip udpPort member =>
    exact ensureRemote_pending rfl net eid ip udpPort member
  | drainPeer net member =>
    simp only [step, drainPeer]
    split
    · exact List.prefix_refl _
    · split
      · exact List.prefix_refl _
      · apply ensureRemote_pending
        rfl
  | recv net p srcIp srcPort now => exact absurd rfl (hrecv net p srcIp srcPort now)
  | replay net now => exact absurd rfl (hreplay net now)
  | send net kind payload options now =>
    simp only [step, modifyBox_pending]
    exact List.prefix_refl _
  | service net now =>
    simp only [step, modifyBox_pending]
    exact List.prefix_refl _

/-- What handing messages over does: boxes stay, the queue grows at its end, and with
room for all of them every message enters it. -/
theorem foldl_deliverType21 (net : ℕ) (eid : String) (ms : List RecvMsg) (h : Handle) :
    let h' := ms.foldl (fun h m => h.deliverType21 net eid m) h
    h'.boxes = h.boxes ∧ h.pending <+: h'.pending ∧
      (h.pending.length + ms.length ≤ queueCap →
        h'.pending = h.pending ++ ms.map (type21 net eid)) := by
  induction ms generalizing h with
  | nil => exact ⟨rfl, List.prefix_refl _, fun _ => by simp⟩
  | cons m ms ih =>
    obtain ⟨hboxes, hpre, hroom⟩ := ih (h.deliverType21 net eid m)
    by_cases hlt : h.pending.length < queueCap
    · have hone : h.deliverType21 net eid m = h.push (type21 net eid m) := by
        simp [deliverType21, pendingCapDrop, queueSc, type21, hlt]
      rw [hone] at hboxes hpre hroom
      simp only [List.foldl_cons, hone]
      refine ⟨hboxes, (List.prefix_append _ _).trans hpre, ?_⟩
      intro hlen
      rw [hroom (by simp [push] at hlen ⊢; omega)]
      simp [push]
    · have hone : (h.deliverType21 net eid m).boxes = h.boxes ∧
          (h.deliverType21 net eid m).pending = h.pending := by
        simp [deliverType21, pendingCapDrop, hlt]
      rw [hone.1] at hboxes
      rw [hone.2] at hpre
      refine ⟨hboxes, hpre, ?_⟩
      intro hlen
      simp only [List.length_cons] at hlen
      omega

end Handle

namespace Receiving

variable {s : Receiving}

/-- The guaranteed messages that arrived from one remote. -/
def arrivalsAt (arrived : List (ℕ × PendingRx)) (net : ℕ) (eid : String) : Arrivals where
  arrived k m := (net, (⟨eid, m.payload, m.options, k⟩ : PendingRx)) ∈ arrived ∧
    guaranteed m.options = true ∧ m.payload ≠ []
  guaranteed _ _ h := h.2.1
  nonempty _ _ h := h.2.2

/-- The accepted messages of one remote. -/
def acceptedFrom (acc : List (ℕ × String × RecvMsg)) (net : ℕ) (eid : String) : List RecvMsg :=
  (acc.filter fun x => decide (x.1 = net) && decide (x.2.1 = eid)).map fun x => x.2.2

/-- Every stream of the handle is accounted for by messages that entered the queue. -/
def Accounted (boxes : OrdMap ℕ Network) (arrived : List (ℕ × PendingRx))
    (acc : List (ℕ × String × RecvMsg)) : Prop :=
  ∀ net n eid e, boxes.get? net = some n → n.remotes.get? eid = some e →
    ∃ marked covered, e.rx.Accounts (arrivalsAt arrived net eid) marked covered
      (acceptedFrom acc net eid)

structure Sound (s : Receiving) : Prop where
  frames : ∀ net n f, s.handle.boxes.get? net = some n → f ∈ n.pendingRx →
    (net, f) ∈ s.arrived ∧ (guaranteed f.sendOpts = true → f.payload ≠ [])
  accounts : ∃ acc : List (ℕ × String × RecvMsg),
    (acc.map fun x => type21 x.1 x.2.1 x.2.2).Subperm (s.handed ++ s.handle.pending) ∧
      Accounted s.handle.boxes s.arrived acc

theorem fresh_sound : Sound fresh where
  frames := by simp [fresh, Handle.new]
  accounts := ⟨[], by simp, by simp [Accounted, fresh, Handle.new]⟩

theorem Accounted.transfer {boxes boxes' : OrdMap ℕ Network}
    {arrived arrived' : List (ℕ × PendingRx)} {acc : List (ℕ × String × RecvMsg)}
    (h : Accounted boxes arrived acc) (harr : arrived ⊆ arrived')
    (hkeep : ∀ net n', boxes'.get? net = some n' →
      (∃ n, boxes.get? net = some n ∧ KeepsStreams n.remotes n'.remotes) ∨
        ∀ eid e, n'.remotes.get? eid = some e → Unstarted e.rx) :
    Accounted boxes' arrived' acc := by
  intro net n' eid e' hn' he'
  have hfresh : Unstarted e'.rx → ∃ marked covered,
      e'.rx.Accounts (arrivalsAt arrived' net eid) marked covered (acceptedFrom acc net eid) := by
    rintro ⟨hnext, hbuf⟩
    refine ⟨OrdMap.empty, [], ?_⟩
    simp only [Receiver.Accounts, hnext, hbuf]
    exact (Covers.initial _).mono_out (List.nil_subperm)
  cases hkeep net n' hn' with
  | inr hnew => exact hfresh (hnew eid e' he')
  | inl hold =>
    obtain ⟨n, hn, hks⟩ := hold
    cases hks eid e' he' with
    | inl hu => exact hfresh hu
    | inr hsame =>
      obtain ⟨e, he, hnext, hbuf⟩ := hsame
      obtain ⟨marked, covered, hacc⟩ := h net n eid e hn he
      refine ⟨marked, covered, ?_⟩
      simp only [Receiver.Accounts, hnext, hbuf]
      exact hacc.mono_arrivals fun k m hm => ⟨harr hm.1, hm.2⟩

/-- An event outside the receive path. -/
theorem Sound.quiet (h : Sound s) {s' : Receiving}
    (hq : QuietBoxes s.handle.boxes s'.handle.boxes) (harr : s'.arrived = s.arrived)
    (hqueue : (s.handed ++ s.handle.pending).Subperm (s'.handed ++ s'.handle.pending)) :
    Sound s' := by
  constructor
  · intro net n' f hn' hf
    rw [harr]
    cases hq net n' hn' with
    | inl hold =>
      obtain ⟨n, hn, hframes, -⟩ := hold
      exact h.frames net n f hn (hframes f hf)
    | inr hnew =>
      rw [hnew.1] at hf
      cases hf
  · obtain ⟨acc, hsub, hacc⟩ := h.accounts
    refine ⟨acc, hsub.trans hqueue, ?_⟩
    rw [harr]
    refine hacc.transfer (List.Subset.refl _) ?_
    intro net n' hn'
    exact (hq net n' hn').imp (fun ⟨n, hn, hquiet⟩ => ⟨n, hn, hquiet.2⟩) fun hnew => hnew.2

/-- A box is rewritten without touching its streams, and new frames wait in it. -/
theorem Sound.setBox (h : Sound s) {net : ℕ} {n : Network} (n' : Network)
    {arrived' : List (ℕ × PendingRx)} (hn : s.handle.boxes.get? net = some n)
    (hkeep : KeepsStreams n.remotes n'.remotes) (harr : s.arrived ⊆ arrived')
    (hframes : ∀ f ∈ n'.pendingRx, f ∈ n.pendingRx ∨
      ((net, f) ∈ arrived' ∧ (guaranteed f.sendOpts = true → f.payload ≠ []))) :
    Sound ⟨{ s.handle with boxes := s.handle.boxes.insert net n' }, arrived', s.handed⟩ := by
  constructor
  · intro net' m f hm hf
    simp only [OrdMap.get?_insert] at hm
    split_ifs at hm with heq
    · simp only [Option.some.injEq] at hm
      subst hm heq
      cases hframes f hf with
      | inl hold => exact ⟨harr (h.frames _ n f hn hold).1, (h.frames _ n f hn hold).2⟩
      | inr hnew => exact hnew
    · exact ⟨harr (h.frames net' m f hm hf).1, (h.frames net' m f hm hf).2⟩
  · obtain ⟨acc, hsub, hacc⟩ := h.accounts
    refine ⟨acc, hsub, hacc.transfer harr ?_⟩
    intro net' m hm
    simp only [OrdMap.get?_insert] at hm
    split_ifs at hm with heq
    · simp only [Option.some.injEq] at hm
      subst hm heq
      exact .inl ⟨n, hn, hkeep⟩
    · exact .inl ⟨m, hm, .refl _⟩

theorem acceptedFrom_append (acc : List (ℕ × String × RecvMsg)) (net net' : ℕ) (eid eid' : String)
    (ms : List RecvMsg) :
    acceptedFrom (acc ++ ms.map fun m => (net, eid, m)) net' eid' =
      acceptedFrom acc net' eid' ++ if net = net' ∧ eid = eid' then ms else [] := by
  have hnew : (((ms.map fun m => (net, eid, m)).filter
      fun x => decide (x.1 = net') && decide (x.2.1 = eid')).map fun x => x.2.2) =
      if net = net' ∧ eid = eid' then ms else [] := by
    induction ms with
    | nil => simp
    | cons m ms ih =>
      by_cases h : net = net' ∧ eid = eid'
      · simp only [if_pos h] at ih ⊢
        simp only [List.map_cons, List.filter_cons, h.1, h.2, decide_true, Bool.and_self, if_true]
        simp only [h.1, h.2] at ih
        rw [ih]
      · simp only [if_neg h] at ih ⊢
        have hdec : (decide (net = net') && decide (eid = eid')) = false := by simpa using h
        simp only [List.map_cons, List.filter_cons, hdec]
        exact ih
  simp only [acceptedFrom, List.filter_append, List.map_append, hnew]

/-- One remote's receiver is replaced, and more messages are accepted. -/
theorem Accounted.update {boxes : OrdMap ℕ Network} {arrived : List (ℕ × PendingRx)}
    {acc acc' : List (ℕ × String × RecvMsg)} (h : Accounted boxes arrived acc) {net : ℕ}
    {n : Network} {eid : String} {e : Endpoint} {rx : Receiver}
    (hn : boxes.get? net = some n) (he : n.remotes.get? eid = some e)
    (hmore : ∀ net' eid', (acceptedFrom acc net' eid').Subperm (acceptedFrom acc' net' eid'))
    (hrx : ∃ marked covered, rx.Accounts (arrivalsAt arrived net eid) marked covered
      (acceptedFrom acc' net eid)) :
    Accounted (boxes.insert net (n.modifyRemote eid fun e => { e with rx := rx })) arrived acc' := by
  intro net' n' eid' e' hn' he'
  have hold : ∀ net₀ n₀ eid₀ e₀, boxes.get? net₀ = some n₀ → n₀.remotes.get? eid₀ = some e₀ →
      ∃ marked covered, e₀.rx.Accounts (arrivalsAt arrived net₀ eid₀) marked covered
        (acceptedFrom acc' net₀ eid₀) := by
    intro net₀ n₀ eid₀ e₀ hn₀ he₀
    obtain ⟨marked, covered, hacc⟩ := h net₀ n₀ eid₀ e₀ hn₀ he₀
    exact ⟨marked, covered, hacc.mono_out (hmore net₀ eid₀)⟩
  simp only [OrdMap.get?_insert] at hn'
  split_ifs at hn' with heq
  · simp only [Option.some.injEq] at hn'
    subst heq hn'
    simp only [Network.modifyRemote, he, OrdMap.get?_insert] at he'
    split_ifs at he' with heq'
    · simp only [Option.some.injEq] at he'
      subst heq' he'
      exact hrx
    · exact hold net' n eid' e' hn he'
  · exact hold net' n' eid' e' hn' he'

/-- A frame that arrived runs through its receiver with room for what it releases. -/
theorem Sound.deliver (h : Sound s) {net : ℕ} {n : Network} {f : PendingRx} (now : ℕ)
    (hn : s.handle.boxes.get? net = some n) (harr : (net, f) ∈ s.arrived)
    (hne : guaranteed f.sendOpts = true → f.payload ≠ [])
    (hroom : guaranteed f.sendOpts = true → f.seq ≠ 0 → (n.onMessage f now).2.released = [] ∨
      s.handle.pending.length + (n.onMessage f now).2.released.length ≤ queueCap) :
    Sound { s with handle := s.handle.deliverReliable net f now } := by
  set ms := (n.onMessage f now).2.released with hms
  set h₁ : Handle := { s.handle with boxes := s.handle.boxes.insert net (n.onMessage f now).1 }
    with hh₁
  have hdel : s.handle.deliverReliable net f now =
      ms.foldl (fun h m => h.deliverType21 net f.entity m) h₁ := by
    simp [Handle.deliverReliable, hn, hms, hh₁]
  obtain ⟨hboxes, hpre, hfull⟩ := Handle.foldl_deliverType21 net f.entity ms h₁
  rw [← hdel] at hboxes hpre hfull
  have hpending : h₁.pending = s.handle.pending := rfl
  have hgrow : (s.handed ++ s.handle.pending).Subperm
      (s.handed ++ (s.handle.deliverReliable net f now).pending) :=
    ((List.Sublist.refl _).append hpre.sublist).subperm
  have hpend : (n.onMessage f now).1.pendingRx = n.pendingRx := by
    unfold Network.onMessage
    split
    · exact n.modifyRemote_pendingRx _ _
    · rfl
  obtain ⟨acc, hsub, hacc⟩ := h.accounts
  constructor
  · intro net' m f' hm hf'
    simp only [hboxes, hh₁, OrdMap.get?_insert] at hm
    split_ifs at hm with heq
    · simp only [Option.some.injEq] at hm
      subst hm heq
      exact h.frames _ n f' hn (hpend ▸ hf')
    · exact h.frames net' m f' hm hf'
  · cases he : n.remotes.get? f.entity with
    | none =>
      have hsame : (n.onMessage f now).1 = n := by simp [Network.onMessage, he]
      refine ⟨acc, hsub.trans hgrow, ?_⟩
      simp only [hboxes, hh₁, hsame]
      refine hacc.transfer (List.Subset.refl _) ?_
      intro net' m hm
      simp only [OrdMap.get?_insert] at hm
      split_ifs at hm with heq
      · simp only [Option.some.injEq] at hm
        subst hm heq
        exact .inl ⟨n, hn, .refl _⟩
      · exact .inl ⟨m, hm, .refl _⟩
    | some e =>
      have hbox : (n.onMessage f now).1 = n.modifyRemote f.entity fun e' =>
          { e' with rx := (e.rx.onMessage f.seq f.sendOpts f.payload now).1 } := by
        simp [Network.onMessage, he]
      have hrel : ms = (e.rx.onMessage f.seq f.sendOpts f.payload now).2.released := by
        rw [hms]
        simp [Network.onMessage, he]
      obtain ⟨marked, covered, hcov⟩ := hacc net n f.entity e hn he
      by_cases hg : guaranteed f.sendOpts = true ∧ f.seq ≠ 0
      · have harrived : (arrivalsAt s.arrived net f.entity).arrived f.seq
            ⟨f.payload, f.sendOpts⟩ := ⟨harr, hg.1, hne hg.1⟩
        obtain ⟨marked', ext, hcov', -⟩ := Receiver.onMessage_extends hcov now hg.2 harrived
        refine ⟨acc ++ ms.map fun m => (net, f.entity, m), ?_, ?_⟩
        · have hqueue : (s.handle.deliverReliable net f now).pending =
              s.handle.pending ++ ms.map (type21 net f.entity) := by
            cases hroom hg.1 hg.2 with
            | inl hnil =>
              have hnil' : ms = [] := hnil
              rw [hdel, hnil']
              simp [hpending]
            | inr hlen => exact hfull hlen
          have hmap : (ms.map fun m => (net, f.entity, m)).map
              (fun x => type21 x.1 x.2.1 x.2.2) = ms.map (type21 net f.entity) := by
            rw [List.map_map]
            rfl
          simp only [List.map_append, hmap, hqueue]
          rw [← List.append_assoc]
          exact (List.subperm_append_right _).mpr hsub
        · rw [hboxes, hh₁]
          simp only [hbox]
          refine hacc.update hn he ?_ ⟨marked', covered ++ ext, ?_⟩
          · intro net' eid'
            rw [acceptedFrom_append]
            exact (List.sublist_append_left _ _).subperm
          · rw [acceptedFrom_append, if_pos ⟨rfl, rfl⟩, hrel]
            exact hcov'
      · have hother : f.seq = 0 ∨ guaranteed f.sendOpts = false := by
          by_cases h0 : f.seq = 0
          · exact .inl h0
          · exact .inr (by simpa [h0] using hg)
        obtain ⟨hnext, hbuf, -⟩ := Receiver.onMessage_other e.rx f.payload now hother
        refine ⟨acc, hsub.trans hgrow, ?_⟩
        rw [hboxes, hh₁]
        simp only [hbox]
        refine hacc.update hn he (fun _ _ => List.Subperm.refl _) ⟨marked, covered, ?_⟩
        simp only [Receiver.Accounts, hnext, hbuf]
        exact hcov

theorem Sound.start (h : Sound s) (now : ℕ) : Sound (s.step (.start now)) := by
  refine h.quiet (s.handle.startProcessing_boxes now) rfl ?_
  by_cases hb : s.handle.batchOutstanding = true
  · simp only [step, Handle.step, Handle.startProcessing_outstanding now hb, hb, if_true]
    exact List.Subperm.refl _
  · have hb' : s.handle.batchOutstanding = false := by simpa using hb
    obtain ⟨hold, hpend, hfl, -⟩ := Handle.startProcessing_eq now hb'
    have hperm := Handle.drain_perm hold s.handle.pending s.handle.ledger.handed
      s.handle.ledger.capHits
    simp only [step, Handle.step, hb', Bool.false_eq_true, if_false, hpend, hfl, List.append_assoc]
    exact (hperm.symm.append_left s.handed).subperm

theorem Sound.recv (h : Sound s) {net : ℕ} {p : Packet} {srcIp : String} {srcPort : UInt16}
    {now : ℕ} (hne : guaranteed p.options = true → p.payload ≠ [])
    (hroom : s.HasRoom (.recv net p srcIp srcPort now)) :
    Sound (s.step (.recv net p srcIp srcPort now)) := by
  have harr : s.arrived ⊆ (s.step (.recv net p srcIp srcPort now)).arrived := by
    simp only [step]
    split_ifs
    · exact List.subset_append_left _ _
    · exact List.Subset.refl _
  have hmsg : p.kind = kindMsg →
      (net, p.frame) ∈ (s.step (.recv net p srcIp srcPort now)).arrived := by
    intro hk
    simp [step, hk]
  cases hn : s.handle.boxes.get? net with
  | none =>
    have hsame : (s.step (.recv net p srcIp srcPort now)).handle = s.handle := by
      simp [step, Handle.step, Handle.recv, hn]
    constructor
    · intro net' n f hn' hf
      rw [hsame] at hn'
      exact ⟨harr (h.frames net' n f hn' hf).1, (h.frames net' n f hn' hf).2⟩
    · obtain ⟨acc, hsub, hacc⟩ := h.accounts
      refine ⟨acc, by rw [hsame]; exact hsub, ?_⟩
      rw [hsame]
      exact hacc.transfer harr fun net' n' hn' => .inl ⟨n', hn', .refl _⟩
  | some n =>
    obtain ⟨hkeep, hframes, hfed⟩ := n.receive_frames p srcIp srcPort
    have hset := h.setBox (n.receive p srcIp srcPort).1 hn hkeep harr (by
      intro f hf
      cases hframes f hf with
      | inl hold => exact .inl hold
      | inr hnew => exact .inr (hnew.2 ▸ ⟨hmsg hnew.1, hne⟩))
    by_cases hudp : n.udp = true
    · cases hfr : (n.receive p srcIp srcPort).2 with
      | none =>
        have heq : (s.step (.recv net p srcIp srcPort now)).handle = { s.handle with
            boxes := s.handle.boxes.insert net (n.receive p srcIp srcPort).1 } := by
          simp [step, Handle.step, Handle.recv, hn, hudp, hfr]
        have hstate : s.step (.recv net p srcIp srcPort now) =
            ⟨(s.step (.recv net p srcIp srcPort now)).handle,
              (s.step (.recv net p srcIp srcPort now)).arrived, s.handed⟩ := rfl
        rw [hstate, heq]
        exact hset
      | some f =>
        obtain ⟨hk, rfl⟩ := hfed f hfr
        have heq : (s.step (.recv net p srcIp srcPort now)).handle =
            ({ s.handle with boxes := s.handle.boxes.insert net (n.receive p srcIp srcPort).1 } :
              Handle).deliverReliable net p.frame now := by
          simp [step, Handle.step, Handle.recv, hn, hudp, hfr]
        have hstate : s.step (.recv net p srcIp srcPort now) =
            ⟨(s.step (.recv net p srcIp srcPort now)).handle,
              (s.step (.recv net p srcIp srcPort now)).arrived, s.handed⟩ := rfl
        rw [hstate, heq]
        refine hset.deliver (n := (n.receive p srcIp srcPort).1) now (by simp) (hmsg hk) hne ?_
        simpa [HasRoom, fed, hn, hudp, hfr, clock] using hroom
    · have heq : (s.step (.recv net p srcIp srcPort now)).handle = s.handle := by
        simp [step, Handle.step, Handle.recv, hn, hudp]
      constructor
      · intro net' n' f hn' hf
        rw [heq] at hn'
        exact ⟨harr (h.frames net' n' f hn' hf).1, (h.frames net' n' f hn' hf).2⟩
      · obtain ⟨acc, hsub, hacc⟩ := h.accounts
        refine ⟨acc, by rw [heq]; exact hsub, ?_⟩
        rw [heq]
        exact hacc.transfer harr fun net' n' hn' => .inl ⟨n', hn', .refl _⟩

theorem Sound.replay (h : Sound s) {net now : ℕ} (hroom : s.HasRoom (.replay net now)) :
    Sound (s.step (.replay net now)) := by
  have hstate : s.step (.replay net now) = { s with handle := s.handle.replay net now } := rfl
  rw [hstate]
  unfold Handle.replay
  cases hx : (s.handle.boxes.get? net).bind Network.nextFrame with
  | none => exact h
  | some x =>
    obtain ⟨f, n'⟩ := x
    obtain ⟨n, hn, hnext⟩ := Option.bind_eq_some_iff.mp hx
    have hpop : f ∈ n.pendingRx ∧ n'.remotes = n.remotes ∧ ∀ g ∈ n'.pendingRx, g ∈ n.pendingRx := by
      unfold Network.nextFrame at hnext
      cases hp : n.pendingRx with
      | nil => simp [hp] at hnext
      | cons g rest =>
        simp only [hp] at hnext
        split_ifs at hnext
        simp only [Option.some.injEq, Prod.mk.injEq] at hnext
        obtain ⟨rfl, rfl⟩ := hnext
        exact ⟨by simp, rfl, fun x hx => List.mem_cons_of_mem _ hx⟩
    have hset := h.setBox n' hn (hpop.2.1 ▸ .refl _) (List.Subset.refl _)
      fun g hg => .inl (hpop.2.2 g hg)
    obtain ⟨harr, hne⟩ := h.frames net n f hn hpop.1
    refine hset.deliver (n := n') now (by simp) harr hne ?_
    simpa [HasRoom, fed, hx, clock] using hroom

theorem Sound.step (h : Sound s) (e : ShimEvent) (hl : s.Legal e) (hroom : s.HasRoom e) :
    Sound (s.step e) := by
  have hquiet : (∀ now, e ≠ .start now) →
      (∀ net p srcIp srcPort now, e ≠ .recv net p srcIp srcPort now) →
      (∀ net now, e ≠ .replay net now) → (s.step e).arrived = s.arrived →
      (s.step e).handed = s.handed → Sound (s.step e) := by
    intro hstart hrecv hreplay harr hhanded
    refine h.quiet (s.handle.step_quiet e hrecv hreplay) harr ?_
    rw [hhanded]
    exact ((List.Sublist.refl _).append
      (s.handle.step_pending e hstart hrecv hreplay).sublist).subperm
  cases e with
  | start now => exact h.start now
  | recv net p srcIp srcPort now => exact h.recv hl hroom
  | replay net now => exact h.replay hroom
  | _ => exact hquiet (by simp) (by simp) (by simp) rfl rfl

/-- A host that has connected and met one remote, with both state changes finished. -/
def meetRemote : List ShimEvent :=
  [.connect "lan" (some "host"), .createEndpoint 1 (some "host"), .start 0,
    .finish 2 (some [some (controlSc 3 1 none), some (controlSc 10 1 none)]),
    .ensureRemote 1 "guest" "10.0.0.2" 27015 true, .start 1,
    .finish 1 (some [some (controlSc 12 1 (some "guest"))])]

/-- The guest's `k`-th guaranteed and sequential message. -/
def guestMessage (k : ℕ) : ShimEvent :=
  .recv 1 ⟨"guest", kindMsg, 3, UInt32.ofNat (k + 1), 0, [7]⟩ "10.0.0.2" 27015 2

end Receiving

end GbfrLan.Party
