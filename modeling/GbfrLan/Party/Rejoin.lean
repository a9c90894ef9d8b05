import GbfrLan.Lib.Run
import GbfrLan.Party.History

/-!
# A peer that leaves and comes back

The two shims as one machine. The box of `A` lives on while `B` leaves and connects
again; the network delivers any datagram of the wire at any time, any number of times.
-/
namespace GbfrLan.Party
open Lib

/-- `a` is the box of `A`, `b` the live box of `B` if it is connected. -/
structure World where
  a : Network
  b : Option Network
  hist : History

inductive WorldEvent where
  /-- The title finished creating the endpoint, a type-10 or a type-12. -/
  | flags (side : Side) (localEndpoint type10 type12 : Bool)
  | ensureRemote (side : Side) (eid ip : String) (udpPort : UInt16) (member : Bool)
  | drainPeer (side : Side) (member : Bool)
  | recv (side : Side) (x : Wired) (srcIp : String) (srcPort : UInt16) (now : ℕ)
  /-- Replay of a waiting frame; `inc` is the box that a frame of `B` came from. -/
  | replay (side : Side) (inc : ℕ) (now : ℕ)
  | send (side : Side) (kind : UInt8) (payload : Bytes) (options : UInt32) (now : ℕ)
  | service (side : Side) (now : ℕ)
  | leave
  | connect

namespace World

section
variable (idA idB : String)

/-- `A` connected and alone. -/
def initial : World :=
  ⟨{ Network.new "lan" (some idA) with connectCompleted := true }, none, History.initial⟩

/-- The entity id of the other shim. -/
def peer : Side → String
  | .a => idB
  | .b => idA

def net (w : World) : Side → Option Network
  | .a => some w.a
  | .b => w.b

def setNet (w : World) (side : Side) (n : Network) : World :=
  match side with
  | .a => { w with a := n }
  | .b => { w with b := some n }

/-- The endpoint each shim keeps for the other. -/
def endpoint (w : World) (side : Side) : Option Endpoint :=
  (w.net side).bind fun n => n.remotes.get? (peer idA idB side)

/-- A frame runs through a receiver. -/
def feed (w : World) (side : Side) (n : Network) (f : PendingRx) (inc : ℕ) (now : ℕ) : World :=
  let hist := match n.remotes.get? (peer idA idB side) with
    | some e =>
        if f.entity == peer idA idB side && guaranteed f.sendOpts && f.seq != 0 then
          w.hist.record side e.rx f inc
        else w.hist
    | none => w.hist
  { w.setNet side (n.onMessage f now).1 with hist := hist }

/-- Packets with their destination, restricted to the other shim. -/
def toPeer (side : Side) (pkts : List (String × Packet)) : List Packet :=
  (pkts.filter fun x => x.1 == peer idA idB side).map Prod.snd

def step (w : World) (e : WorldEvent) : World :=
  match e with
  | .flags side localEndpoint type10 type12 =>
      match w.net side with
      | none => w
      | some n => w.setNet side { n with
          localEndpoint := localEndpoint, type10Delivered := type10, type12Delivered := type12 }
  | .ensureRemote side eid ip udpPort member =>
      match w.net side with
      | none => w
      | some n => w.setNet side (n.ensureRemote eid ip udpPort member).1
  | .drainPeer side member =>
      match w.net side with
      | none => w
      | some n =>
          match n.pendingPeers with
          | [] => w
          | (eid, ip, udpPort) :: rest =>
              w.setNet side (({ n with pendingPeers := rest } : Network).ensureRemote eid ip udpPort
                member).1
  | .recv side x srcIp srcPort now =>
      match w.net side with
      | none => w
      | some n =>
          if !n.udp then w
          else
            match n.receive x.pkt srcIp srcPort with
            | (n, some f) => (w.setNet side n).feed idA idB side n f x.inc now
            | (n, none) => w.setNet side n
  | .replay side inc now =>
      match (w.net side).bind Network.nextFrame with
      | none => w
      | some (f, n) => (w.setNet side n).feed idA idB side n f inc now
  | .send side kind payload options now =>
      match w.net side with
      | none => w
      | some n =>
          let hist := match n.remotes.get? (peer idA idB side) with
            | some e =>
                if n.udp && e.hasAddr && kind == kindMsg && guaranteed options then
                  w.hist.noteSent side e.tx payload options now
                else w.hist
            | none => w.hist
          let (n, pkts) := n.sendUdpAll kind payload options now
          { w.setNet side n with hist := hist.emit side (toPeer idA idB side pkts) }
  | .service side now =>
      match w.net side with
      | none => w
      | some n =>
          let (n, pkts) := n.reliableService now
          { w.setNet side n with hist := w.hist.emit side (toPeer idA idB side pkts) }
  | .leave => { w with b := none }
  | .connect =>
      { w with
        b := some { Network.new "lan" (some idB) with connectCompleted := true }
        hist := w.hist.newBox }

/-- What the environment may do: the packets that name the other shim are those on the
wire, sent payloads are not empty, fewer than `2 ^ 31` guaranteed messages are sent on
each pairing, and `B` leaves and connects in turn. -/
def Legal (w : World) : WorldEvent → Prop
  | .recv side x _ _ _ => x.pkt.entity = peer idA idB side → x ∈ w.hist.wire ∧ x.dest = side
  | .replay side inc _ =>
      match (w.net side).bind Network.nextFrame with
      | some (f, _) => f.entity = peer idA idB side → ∃ x ∈ w.hist.wire, x.dest = side ∧ x.inc = inc ∧
          x.pkt.kind = kindMsg ∧ x.pkt.frame = f
      | none => True
  | .send side kind payload options _ => kind = kindMsg → payload ≠ [] ∧
      (guaranteed options = true → match side with
        | .a => w.hist.sentA.length + 1 < 2 ^ 31
        | .b => w.hist.sentB.length + 1 < 2 ^ 31)
  | .connect => w.b = none
  | _ => True

/-- The guaranteed frame of `B` that an event hands to the receiver of `A`, if any, came
from the present box of `B`. -/
def FromPresentBox (w : World) : WorldEvent → Prop
  | .recv .a x srcIp srcPort _ =>
      match (w.a.receive x.pkt srcIp srcPort).2 with
      | some f => f.entity = idB → guaranteed f.sendOpts = true → x.inc = w.hist.inc
      | none => True
  | .replay .a inc _ =>
      match w.a.nextFrame with
      | some (f, _) => f.entity = idB → guaranteed f.sendOpts = true → inc = w.hist.inc
      | none => True
  | _ => True

/-- When `B` connects, the receiver that `A` keeps for it has covered and buffered
nothing. -/
def UnstartedAtConnect (w : World) : WorldEvent → Prop
  | .connect => match w.endpoint idA idB .a with
      | some e => e.rx.gNext = 1 ∧ e.rx.gBuf = OrdMap.empty
      | none => True
  | _ => True

/-- Every guaranteed message is pending, evicted, or released for the box it belongs to,
and none was discarded for state left by an earlier box. -/
def Safe (w : World) : Prop :=
  (∀ e, w.endpoint idA idB .b = some e → ∀ k : UInt32, ∀ m, 0 < k.toNat →
    w.hist.sentB[k.toNat - 1]? = some m →
      e.tx.pending.contains k = true ∨ k ∈ w.hist.evictedB ∨ ⟨w.hist.inc, k, m⟩ ∈ w.hist.logA) ∧
  (∀ e, w.endpoint idA idB .a = some e → ∀ k : UInt32, ∀ i m, 0 < k.toNat →
    w.hist.sentA[k.toNat - 1]? = some (i, m) →
      e.tx.pending.contains k = true ∨ k ∈ w.hist.evictedA ∨ ∃ j, i ≤ j ∧ ⟨j, k, m⟩ ∈ w.hist.logB) ∧
  w.hist.discarded = []

end

variable {idA idB : String} {w : World} {side : Side} {n n' : Network}

/-- The histories of both pairings are sound for the endpoints the shims keep. -/
def Sound (idA idB : String) (w : World) : Prop :=
  w.hist.Sound (w.endpoint idA idB .a) (w.endpoint idA idB .b) w.b.isSome

theorem initial_sound (idA idB : String) : Sound idA idB (initial idA) := History.initial_sound

@[simp] theorem setNet_setNet (w : World) (side : Side) (n n' : Network) :
    (w.setNet side n).setNet side n' = w.setNet side n' := by
  cases side <;> rfl

@[simp] theorem setNet_net (w : World) (side : Side) (n : Network) :
    (w.setNet side n).net side = some n := by
  cases side <;> rfl

@[simp] theorem setNet_hist (w : World) (side : Side) (n : Network) :
    (w.setNet side n).hist = w.hist := by
  cases side <;> rfl

@[simp] theorem setNet_mk (w : World) (side : Side) (n : Network) :
    (⟨(w.setNet side n).a, (w.setNet side n).b, w.hist⟩ : World) = w.setNet side n := by
  cases side <;> rfl

theorem Sound.atA (hs : Sound idA idB w) {o : Option Endpoint} (ho : w.a.remotes.get? idB = o) :
    w.hist.Sound o (w.endpoint idA idB .b) w.b.isSome := ho ▸ hs

theorem Sound.atB (hs : Sound idA idB w) (hb : w.b = some n) {o : Option Endpoint}
    (ho : n.remotes.get? idA = o) : w.hist.Sound (w.endpoint idA idB .a) o true := by
  have hend : w.endpoint idA idB .b = o := by
    rw [endpoint, net, hb]
    exact ho
  rw [Sound, hend, hb] at hs
  exact hs

theorem sound_setA {h : History} {o : Option Endpoint} (ho : n.remotes.get? idB = o)
    (hs : h.Sound o (w.endpoint idA idB .b) w.b.isSome) :
    Sound idA idB { w.setNet .a n with hist := h } := by
  subst ho
  exact hs

theorem sound_setB {h : History} {o : Option Endpoint} (ho : n.remotes.get? idA = o)
    (hs : h.Sound (w.endpoint idA idB .a) o true) :
    Sound idA idB { w.setNet .b n with hist := h } := by
  subst ho
  exact hs

/-- A step of one shim that leaves its endpoint for the other alone. -/
theorem Sound.keep (hs : Sound idA idB w) (hn : w.net side = some n)
    (hk : History.Keeps (n.remotes.get? (peer idA idB side))
      (n'.remotes.get? (peer idA idB side))) : Sound idA idB (w.setNet side n') := by
  cases side with
  | a =>
    cases hn
    exact sound_setA rfl ((hs.atA rfl).keepA hk)
  | b => exact sound_setB rfl ((hs.atB hn rfl).keepB hk)

theorem Sound.keep_remotes (hs : Sound idA idB w) (hn : w.net side = some n)
    (hr : n'.remotes = n.remotes) : Sound idA idB (w.setNet side n') := by
  apply hs.keep hn
  rw [hr]
  exact .refl _

theorem modifyRemote_keeps (n : Network) (eid : String) (f : Endpoint → Endpoint)
    (hf : ∀ e, (f e).tx = e.tx ∧ SameStream e.rx (f e).rx) (id : String) :
    History.Keeps (n.remotes.get? id) ((n.modifyRemote eid f).remotes.get? id) := by
  rw [Network.get?_modifyRemote]
  split_ifs with heq
  · cases n.remotes.get? id with
    | none => exact .refl _
    | some e => exact .of_same (hf e).1 (hf e).2
  · exact .refl _

theorem ensureRemote_keeps (n : Network) (eid ip : String) (udpPort : UInt16) (member : Bool)
    (id : String) :
    History.Keeps (n.remotes.get? id)
      ((n.ensureRemote eid ip udpPort member).1.remotes.get? id) := by
  rcases n.ensureRemote_cases eid ip udpPort member with h | h | ⟨hnone, h⟩
  · rw [h]
    exact .refl _
  · rw [h]
    apply modifyRemote_keeps
    intro e
    exact ⟨rfl, rfl, rfl⟩
  · rw [h]
    simp only [OrdMap.get?_insert]
    split_ifs with heq
    · subst heq
      rw [hnone]
      exact .created ip udpPort
    · exact .refl _

theorem noteSource_keeps (n : Network) (eid srcIp : String) (srcPort : UInt16) (id : String) :
    History.Keeps (n.remotes.get? id) ((n.noteSource eid srcIp srcPort).remotes.get? id) := by
  unfold Network.noteSource
  split_ifs
  · exact ensureRemote_keeps n eid srcIp srcPort false id
  · unfold Network.queuePendingPeer
    split_ifs <;> exact .refl _
  · exact .refl _

/-- The ack of a datagram on the wire. -/
theorem Sound.applyAck (hs : Sound idA idB w) (hn : w.net side = some n) {x : Wired}
    (hx : x.pkt.entity = peer idA idB side → x ∈ w.hist.wire ∧ x.dest = side) :
    Sound idA idB (w.setNet side (n.applyAck x.pkt.entity x.pkt.ack)) := by
  unfold Network.applyAck
  split_ifs with hack
  · have hget := n.get?_modifyRemote x.pkt.entity
      (fun e => { e with tx := (e.tx.onAck x.pkt.ack).1 }) (peer idA idB side)
    by_cases hpeer : peer idA idB side = x.pkt.entity
    · obtain ⟨hwire, hdest⟩ := hx hpeer.symm
      rw [if_pos hpeer] at hget
      cases hold : n.remotes.get? (peer idA idB side) with
      | none =>
        rw [hold] at hget
        apply hs.keep hn
        rw [hget, hold]
        exact .refl _
      | some e =>
        rw [hold] at hget
        cases side with
        | a =>
          cases hn
          exact sound_setA hget ((hs.atA hold).onAckA hwire hdest)
        | b => exact sound_setB hget ((hs.atB hn hold).onAckB hwire hdest)
    · apply hs.keep hn
      rw [hget, if_neg hpeer]
      exact .refl _
  · exact hs.keep_remotes hn rfl

/-- A frame runs through the receiver of its endpoint. A guaranteed frame of the other
shim is one of the wire, and at `A` it is of the present box of `B`. -/
theorem Sound.feed (hs : Sound idA idB w) (hn : w.net side = some n) {f : PendingRx} {inc : ℕ}
    (now : ℕ)
    (hf : f.entity = peer idA idB side → ∃ x ∈ w.hist.wire, x.dest = side ∧ x.inc = inc ∧
      x.pkt.kind = kindMsg ∧ x.pkt.frame = f)
    (hbox : side = .a → f.entity = idB → guaranteed f.sendOpts = true → inc = w.hist.inc) :
    Sound idA idB (w.feed idA idB side n f inc now) := by
  have hother : f.entity ≠ peer idA idB side →
      (n.onMessage f now).1.remotes.get? (peer idA idB side) =
        n.remotes.get? (peer idA idB side) := by
    intro hne
    unfold Network.onMessage
    cases he : n.remotes.get? f.entity with
    | none => rfl
    | some e => simp only [Network.get?_modifyRemote, if_neg (Ne.symm hne)]
  have hpeer : ∀ e, f.entity = peer idA idB side → n.remotes.get? (peer idA idB side) = some e →
      (n.onMessage f now).1.remotes.get? (peer idA idB side) =
        some { e with rx := (e.rx.onMessage f.seq f.sendOpts f.payload now).1 } := by
    intro e heq he
    unfold Network.onMessage
    rw [heq, he]
    simp only [Network.get?_modifyRemote, he]
    simp
  cases he : n.remotes.get? (peer idA idB side) with
  | none =>
    have hsame : (n.onMessage f now).1.remotes.get? (peer idA idB side) = none := by
      by_cases heq : f.entity = peer idA idB side
      · unfold Network.onMessage
        rw [heq, he]
        exact he
      · rw [hother heq, he]
    have hkeep : Sound idA idB (w.setNet side (n.onMessage f now).1) := by
      apply hs.keep hn
      rw [hsame, he]
      exact .refl _
    simpa [World.feed, he] using hkeep
  | some e =>
    cases hg : f.entity == peer idA idB side && guaranteed f.sendOpts && f.seq != 0 with
    | false =>
      have hkeep : Sound idA idB (w.setNet side (n.onMessage f now).1) := by
        apply hs.keep hn
        by_cases heq : f.entity = peer idA idB side
        · rw [hpeer e heq he, he]
          have hm : f.seq = 0 ∨ guaranteed f.sendOpts = false := by
            by_contra hno
            simp_all
          obtain ⟨hnext, hbuf, -⟩ := e.rx.onMessage_other f.payload now hm
          exact .of_same rfl ⟨hnext, hbuf⟩
        · rw [hother heq]
          exact .refl _
      simpa [World.feed, he, hg] using hkeep
    | true =>
      have hparts : (f.entity = peer idA idB side ∧ guaranteed f.sendOpts = true) ∧ f.seq ≠ 0 := by
        simpa using hg
      obtain ⟨⟨heq, hgf⟩, h0⟩ := hparts
      obtain ⟨x, hx, hdest, hinc, hkind, hframe⟩ := hf heq
      have hnew := hpeer e heq he
      simp only [World.feed, he, hg, if_true]
      subst hframe
      cases side with
      | a =>
        cases hn
        have hse := hs.atA he
        have hi := hbox rfl heq hgf
        have hm := hse.flowB.wire x hx hdest (hinc.trans hi) hkind hgf
        rw [hi]
        exact sound_setA hnew (hse.recordA hm h0 now)
      | b =>
        have hse := hs.atB hn he
        have hm := hse.flowA.wire x hx hdest hkind hgf
        exact sound_setB hnew (hse.recordB hm h0 now)

theorem mem_toPeer_sendUdpAll {kind : UInt8} {payload : Bytes} {options : UInt32} {now : ℕ}
    {p : Packet} (hp : p ∈ toPeer idA idB side (n.sendUdpAll kind payload options now).2) :
    n.udp = true ∧ ∃ e, n.remotes.get? (peer idA idB side) = some e ∧ e.hasAddr = true ∧
      p = (e.sendTo n.localEntity kind payload options now).2 := by
  unfold Network.sendUdpAll at hp
  split_ifs at hp with hu
  · simp [toPeer] at hp
  · simp only [toPeer, List.mem_map, List.mem_filter] at hp
    obtain ⟨y, ⟨⟨⟨id, e⟩, ⟨hmem, haddr⟩, rfl⟩, hid⟩, rfl⟩ := hp
    have hid : id = peer idA idB side := by simpa using hid
    subst hid
    exact ⟨by simpa using hu, e, (OrdMap.mem_entries_iff _ _ _).mp hmem, haddr, rfl⟩

theorem mem_toPeer_reliableService {now : ℕ} {p : Packet}
    (hp : p ∈ toPeer idA idB side (n.reliableService now).2) :
    n.udp = true ∧ ∃ e, n.remotes.get? (peer idA idB side) = some e ∧ e.hasAddr = true ∧
      p ∈ (e.service n.localEntity now).2 := by
  unfold Network.reliableService at hp
  split_ifs at hp with hu
  · simp [toPeer] at hp
  · simp only [toPeer, List.mem_map, List.mem_filter, List.mem_flatMap] at hp
    obtain ⟨y, ⟨⟨⟨id, e⟩, ⟨hmem, haddr⟩, q, hq, rfl⟩, hid⟩, rfl⟩ := hp
    have hid : id = peer idA idB side := by simpa using hid
    subst hid
    exact ⟨by simpa using hu, e, (OrdMap.mem_entries_iff _ _ _).mp hmem, haddr, hq⟩

/-- The endpoint for the other shim can be sent to. -/
def Sends (n : Network) (id : String) (e : Endpoint) : Prop :=
  n.udp = true ∧ n.remotes.get? id = some e ∧ e.hasAddr = true

/-- Without such an endpoint a send goes out to others only. -/
theorem sendUdpAll_idle {id : String} (hno : ∀ e, ¬ Sends n id e) (kind : UInt8) (payload : Bytes)
    (options : UInt32) (now : ℕ) :
    (n.sendUdpAll kind payload options now).1.remotes.get? id = n.remotes.get? id := by
  unfold Network.sendUdpAll
  split_ifs with hu
  · rfl
  · simp only [OrdMap.get?_mapVals]
    cases he : n.remotes.get? id with
    | none => rfl
    | some e =>
      have haddr : ¬ e.hasAddr = true := fun h => hno e ⟨by simpa using hu, he, h⟩
      simp [haddr]

theorem sendUdpAll_get? {id : String} {e : Endpoint} (hsend : Sends n id e) (kind : UInt8)
    (payload : Bytes) (options : UInt32) (now : ℕ) :
    (n.sendUdpAll kind payload options now).1.remotes.get? id =
      some (e.sendTo n.localEntity kind payload options now).1 := by
  obtain ⟨hu, he, haddr⟩ := hsend
  simp [Network.sendUdpAll, hu, he, haddr]

theorem reliableService_idle {id : String} (hno : ∀ e, ¬ Sends n id e) (now : ℕ) :
    (n.reliableService now).1.remotes.get? id = n.remotes.get? id := by
  unfold Network.reliableService
  split_ifs with hu
  · rfl
  · simp only [OrdMap.get?_mapVals]
    cases he : n.remotes.get? id with
    | none => rfl
    | some e =>
      have haddr : ¬ e.hasAddr = true := fun h => hno e ⟨by simpa using hu, he, h⟩
      simp [haddr]

theorem reliableService_get? {id : String} {e : Endpoint} (hsend : Sends n id e) (now : ℕ) :
    (n.reliableService now).1.remotes.get? id = some (e.service n.localEntity now).1 := by
  obtain ⟨hu, he, haddr⟩ := hsend
  simp [Network.reliableService, hu, he, haddr]

theorem toPeer_eq_nil {pkts : List (String × Packet)}
    (h : ∀ p, p ∉ toPeer idA idB side pkts) : toPeer idA idB side pkts = [] :=
  List.eq_nil_iff_forall_not_mem.mpr h

theorem Sound.send (hs : Sound idA idB w) {kind : UInt8} {payload : Bytes} {options : UInt32}
    (now : ℕ) (hlegal : w.Legal idA idB (.send side kind payload options now)) :
    Sound idA idB (w.step idA idB (.send side kind payload options now)) := by
  cases hn : w.net side with
  | none =>
    simp only [step, hn]
    exact hs
  | some n =>
    simp only [step, hn]
    by_cases hsend : ∃ e, Sends n (peer idA idB side) e
    · obtain ⟨e, hsend⟩ := hsend
      have hnew := sendUdpAll_get? hsend kind payload options now
      obtain ⟨hu, he, haddr⟩ := hsend
      have hpkts : ∀ p ∈ toPeer idA idB side (n.sendUdpAll kind payload options now).2,
          p = (e.sendTo n.localEntity kind payload options now).2 := by
        intro p hp
        obtain ⟨-, e', he', -, hpe⟩ := mem_toPeer_sendUdpAll hp
        rw [he] at he'
        cases he'
        exact hpe
      simp only [he, hu, haddr, Bool.true_and]
      cases side with
      | a =>
        cases hn
        exact sound_setA hnew ((hs.atA he).sendA w.a.localEntity now hlegal hpkts)
      | b =>
        exact sound_setB hnew ((hs.atB hn he).sendB n.localEntity now hlegal hpkts)
    · have hno : ∀ e, ¬ Sends n (peer idA idB side) e := fun e he => hsend ⟨e, he⟩
      have hnil : toPeer idA idB side (n.sendUdpAll kind payload options now).2 = [] := by
        apply toPeer_eq_nil
        intro p hp
        obtain ⟨hu, e, he, haddr, -⟩ := mem_toPeer_sendUdpAll hp
        exact hno e ⟨hu, he, haddr⟩
      have hkeep : Sound idA idB (w.setNet side (n.sendUdpAll kind payload options now).1) := by
        apply hs.keep hn
        rw [sendUdpAll_idle hno]
        exact .refl _
      rw [hnil]
      cases he : n.remotes.get? (peer idA idB side) with
      | none => simpa using hkeep
      | some e =>
        have hmode : (n.udp && e.hasAddr) = false := by
          by_contra hb
          simp only [Bool.not_eq_false, Bool.and_eq_true] at hb
          exact hno e ⟨hb.1, he, hb.2⟩
        simpa [hmode] using hkeep

theorem Sound.service (hs : Sound idA idB w) (now : ℕ) :
    Sound idA idB (w.step idA idB (.service side now)) := by
  cases hn : w.net side with
  | none =>
    simp only [step, hn]
    exact hs
  | some n =>
    simp only [step, hn]
    by_cases hsend : ∃ e, Sends n (peer idA idB side) e
    · obtain ⟨e, hsend⟩ := hsend
      have hnew := reliableService_get? hsend now
      obtain ⟨hu, he, haddr⟩ := hsend
      have hpkts : ∀ p ∈ toPeer idA idB side (n.reliableService now).2,
          p ∈ (e.service n.localEntity now).2 := by
        intro p hp
        obtain ⟨-, e', he', -, hpe⟩ := mem_toPeer_reliableService hp
        rw [he] at he'
        cases he'
        exact hpe
      cases side with
      | a =>
        cases hn
        exact sound_setA hnew ((hs.atA he).serviceA w.a.localEntity now hpkts)
      | b => exact sound_setB hnew ((hs.atB hn he).serviceB n.localEntity now hpkts)
    · have hno : ∀ e, ¬ Sends n (peer idA idB side) e := fun e he => hsend ⟨e, he⟩
      have hnil : toPeer idA idB side (n.reliableService now).2 = [] := by
        apply toPeer_eq_nil
        intro p hp
        obtain ⟨hu, e, he, haddr, -⟩ := mem_toPeer_reliableService hp
        exact hno e ⟨hu, he, haddr⟩
      have hkeep : Sound idA idB (w.setNet side (n.reliableService now).1) := by
        apply hs.keep hn
        rw [reliableService_idle hno]
        exact .refl _
      rw [hnil]
      simpa using hkeep

theorem Sound.recv (hs : Sound idA idB w) {x : Wired} {srcIp : String} {srcPort : UInt16} {now : ℕ}
    (hlegal : w.Legal idA idB (.recv side x srcIp srcPort now))
    (hbox : w.FromPresentBox idB (.recv side x srcIp srcPort now)) :
    Sound idA idB (w.step idA idB (.recv side x srcIp srcPort now)) := by
  cases hn : w.net side with
  | none =>
    simp only [step, hn]
    exact hs
  | some n =>
    simp only [step, hn]
    by_cases hu : n.udp = true
    · simp only [hu, Bool.not_true, Bool.false_eq_true, if_false]
      have hnoted := hs.keep hn (noteSource_keeps n x.pkt.entity srcIp srcPort _)
      have hacked := hnoted.applyAck (setNet_net ..) (by rw [setNet_hist]; exact hlegal)
      rw [setNet_setNet] at hacked
      -- Whatever `receive` does next, the endpoints are those after the ack.
      have hsame : ∀ n' : Network,
          n'.remotes = ((n.noteSource x.pkt.entity srcIp srcPort).applyAck x.pkt.entity
            x.pkt.ack).remotes → Sound idA idB (w.setNet side n') := by
        intro n' hr
        have hdone := hacked.keep_remotes (setNet_net ..) hr
        rwa [setNet_setNet] at hdone
      obtain ⟨poll, h | ⟨hk, h⟩ | ⟨hk, h⟩ | ⟨hk, -, h⟩⟩ := n.receive_cases x.pkt srcIp srcPort
      · simp only [h]
        exact hsame _ rfl
      · simp only [h]
        exact hsame _ rfl
      · simp only [h]
        exact hsame _ rfl
      · simp only [h]
        apply hacked.feed (setNet_net ..) now
        · intro heq
          obtain ⟨hwire, hdest⟩ := hlegal heq
          exact ⟨x, by rw [setNet_hist]; exact hwire, hdest, rfl, hk, rfl⟩
        · rintro rfl heq hg
          cases hn
          simp only [FromPresentBox, h] at hbox
          rw [setNet_hist]
          exact hbox heq hg
    · simp only [hu, Bool.not_false, if_true]
      exact hs

theorem Sound.replay (hs : Sound idA idB w) {inc now : ℕ}
    (hlegal : w.Legal idA idB (.replay side inc now))
    (hbox : w.FromPresentBox idB (.replay side inc now)) :
    Sound idA idB (w.step idA idB (.replay side inc now)) := by
  cases hf : (w.net side).bind Network.nextFrame with
  | none =>
    simp only [step, hf]
    exact hs
  | some y =>
    obtain ⟨f, n'⟩ := y
    obtain ⟨n, hn, hnext⟩ := Option.bind_eq_some_iff.mp hf
    have hremotes : n'.remotes = n.remotes := by
      unfold Network.nextFrame at hnext
      split at hnext
      · cases hnext
      · split_ifs at hnext
        cases hnext
        rfl
    simp only [step, hf]
    simp only [Legal, hf] at hlegal
    apply (hs.keep_remotes hn hremotes).feed (setNet_net ..) now
    · intro heq
      rw [setNet_hist]
      exact hlegal heq
    · rintro rfl heq hg
      cases hn
      simp only [FromPresentBox, hnext] at hbox
      rw [setNet_hist]
      exact hbox heq hg

/-- The events the two shims and the network may take, with the sequence state of `A`
and `B` in step. -/
def InStep (idA idB : String) (w : World) (e : WorldEvent) : Prop :=
  w.Legal idA idB e ∧ w.FromPresentBox idB e ∧ w.UnstartedAtConnect idA idB e

theorem Sound.step (hs : Sound idA idB w) {e : WorldEvent} (he : w.InStep idA idB e) :
    Sound idA idB (w.step idA idB e) := by
  obtain ⟨hlegal, hbox, hconn⟩ := he
  cases e with
  | flags side localEndpoint type10 type12 =>
    cases hn : w.net side with
    | none =>
      simp only [World.step, hn]
      exact hs
    | some n =>
      simp only [World.step, hn]
      exact hs.keep_remotes hn rfl
  | ensureRemote side eid ip udpPort member =>
    cases hn : w.net side with
    | none =>
      simp only [World.step, hn]
      exact hs
    | some n =>
      simp only [World.step, hn]
      exact hs.keep hn (ensureRemote_keeps n eid ip udpPort member _)
  | drainPeer side member =>
    cases hn : w.net side with
    | none =>
      simp only [World.step, hn]
      exact hs
    | some n =>
      simp only [World.step, hn]
      cases hp : n.pendingPeers with
      | nil => exact hs
      | cons y rest =>
        obtain ⟨eid, ip, udpPort⟩ := y
        exact hs.keep hn (ensureRemote_keeps { n with pendingPeers := rest } eid ip udpPort member _)
  | recv side x srcIp srcPort now => exact hs.recv hlegal hbox
  | replay side inc now => exact hs.replay hlegal hbox
  | send side kind payload options now => exact hs.send now hlegal
  | service side now => exact hs.service now
  | leave => exact History.Sound.leave hs
  | connect =>
    have hb : w.b = none := hlegal
    have hgone : w.hist.Sound (w.endpoint idA idB .a) none false := History.Sound.leave hs
    refine hgone.newBox ?_
    intro e he
    simp only [UnstartedAtConnect, he] at hconn
    exact hconn

/-- A sound history accounts for every guaranteed message. -/
theorem Sound.safe (hs : Sound idA idB w) : w.Safe idA idB := by
  refine ⟨?_, ?_, hs.clean⟩
  · intro e he k m hpos hget
    have hlt := (List.getElem?_eq_some_iff.mp hget).1
    cases (hs.flowB.track e he).conserved k hpos (by omega) with
    | inl hp => exact .inl hp
    | inr hgone =>
      cases hgone with
      | inl hev => exact .inr (.inl hev)
      | inr hlog =>
        obtain ⟨m', hm'⟩ := hlog
        obtain ⟨⟨-, hget'⟩, -⟩ := hs.flowB.genuine k m' hm'
        rw [hget] at hget'
        cases hget'
        exact .inr (.inr hm')
  · intro e he k i m hpos hget
    have hlt := (List.getElem?_eq_some_iff.mp hget).1
    have hlen : k.toNat ≤ w.hist.msgsA.length := by
      rw [History.msgsA, List.length_map]
      omega
    cases (hs.flowA.track e he).conserved k hpos hlen with
    | inl hp => exact .inl hp
    | inr hgone =>
      cases hgone with
      | inl hev => exact .inr (.inl hev)
      | inr hlog =>
        obtain ⟨j, m', hm'⟩ := hlog
        obtain ⟨-, -, i', hle, hget'⟩ := hs.flowA.genuine _ hm'
        rw [hget] at hget'
        cases hget'
        exact .inr (.inr ⟨j, hle, hm'⟩)

/-- Over any number of leaves and connects of `B`, in every interleaving: as long as `A`
has taken nothing from earlier boxes of `B` when `B` connects, and takes frames of the
present box only, no guaranteed message of either side is lost or cleared. -/
theorem inStep_safe (idA idB : String) (es : List WorldEvent)
    (hrun : Along (World.step idA idB) (InStep idA idB) (initial idA) es) :
    Safe idA idB (run (World.step idA idB) (initial idA) es) := by
  have hsound : Sound idA idB (run (World.step idA idB) (initial idA) es) :=
    run_invariant (fun _ _ hs he => hs.step he) (initial_sound idA idB) hrun
  exact hsound.safe

instance decidableLegal (idA idB : String) (w : World) :
    ∀ e, Decidable (w.Legal idA idB e)
  | .flags .. => isTrue trivial
  | .ensureRemote .. => isTrue trivial
  | .drainPeer .. => isTrue trivial
  | .recv side x _ _ _ => inferInstanceAs
      (Decidable (x.pkt.entity = peer idA idB side → x ∈ w.hist.wire ∧ x.dest = side))
  | .replay side inc now =>
      match h : (w.net side).bind Network.nextFrame with
      | none => isTrue (by simp [Legal, h])
      | some (f, _) => decidable_of_iff
          (f.entity = peer idA idB side → ∃ x ∈ w.hist.wire, x.dest = side ∧ x.inc = inc ∧
            x.pkt.kind = kindMsg ∧ x.pkt.frame = f) (by simp [Legal, h])
  | .send .a kind payload options _ => inferInstanceAs
      (Decidable (kind = kindMsg → payload ≠ [] ∧
        (guaranteed options = true → w.hist.sentA.length + 1 < 2 ^ 31)))
  | .send .b kind payload options _ => inferInstanceAs
      (Decidable (kind = kindMsg → payload ≠ [] ∧
        (guaranteed options = true → w.hist.sentB.length + 1 < 2 ^ 31)))
  | .service .. => isTrue trivial
  | .leave => isTrue trivial
  | .connect => inferInstanceAs (Decidable (w.b = none))

instance decidableFromPresentBox (idB : String) (w : World) :
    ∀ e, Decidable (w.FromPresentBox idB e)
  | .recv .a x srcIp srcPort now =>
      match h : (w.a.receive x.pkt srcIp srcPort).2 with
      | none => isTrue (by simp [FromPresentBox, h])
      | some f => decidable_of_iff
          (f.entity = idB → guaranteed f.sendOpts = true → x.inc = w.hist.inc)
          (by simp [FromPresentBox, h])
  | .replay .a inc now =>
      match h : w.a.nextFrame with
      | none => isTrue (by simp [FromPresentBox, h])
      | some (f, _) => decidable_of_iff
          (f.entity = idB → guaranteed f.sendOpts = true → inc = w.hist.inc)
          (by simp [FromPresentBox, h])
  | .recv .b .. => isTrue trivial
  | .replay .b .. => isTrue trivial
  | .flags .. => isTrue trivial
  | .ensureRemote .. => isTrue trivial
  | .drainPeer .. => isTrue trivial
  | .send .. => isTrue trivial
  | .service .. => isTrue trivial
  | .leave => isTrue trivial
  | .connect => isTrue trivial

instance decidableUnstartedAtConnect (idA idB : String) (w : World) :
    ∀ e, Decidable (w.UnstartedAtConnect idA idB e)
  | .connect =>
      match h : w.endpoint idA idB .a with
      | none => isTrue (by simp [UnstartedAtConnect, h])
      | some e => decidable_of_iff (e.rx.gNext = 1 ∧ e.rx.gBuf = OrdMap.empty)
          (by simp [UnstartedAtConnect, h])
  | .recv .. => isTrue trivial
  | .replay .. => isTrue trivial
  | .flags .. => isTrue trivial
  | .ensureRemote .. => isTrue trivial
  | .drainPeer .. => isTrue trivial
  | .send .. => isTrue trivial
  | .service .. => isTrue trivial
  | .leave => isTrue trivial

instance decidableInStep (idA idB : String) (w : World) (e : WorldEvent) :
    Decidable (w.InStep idA idB e) :=
  inferInstanceAs (Decidable (w.Legal idA idB e ∧ w.FromPresentBox idB e ∧
    w.UnstartedAtConnect idA idB e))

/-- `B` connects and both sides register each other. -/
def meet : List WorldEvent :=
  [.connect, .flags .a true true true, .flags .b true true true,
    .ensureRemote .a "guest" "10.0.0.2" 27015 true, .ensureRemote .b "host" "10.0.0.1" 27015 true]

/-- The guest only listens before it leaves; after it comes back it sends. -/
def listenThenRejoin : List WorldEvent :=
  meet ++
    [.send .a kindMsg [7] 3 0,
      .recv .b ⟨.b, 1, ⟨"host", kindMsg, 3, 1, 0, [7]⟩⟩ "10.0.0.1" 27015 1, .service .b 50,
      .recv .a ⟨.a, 1, ⟨"guest", kindAck, 0, 0, 1, []⟩⟩ "10.0.0.2" 27015 51, .leave] ++
  meet ++
    [.send .b kindMsg [1] 3 60,
      .recv .a ⟨.a, 2, ⟨"guest", kindMsg, 3, 1, 0, [1]⟩⟩ "10.0.0.2" 27015 61, .service .a 120,
      .recv .b ⟨.b, 2, ⟨"host", kindAck, 0, 0, 1, []⟩⟩ "10.0.0.1" 27015 121]

theorem listenThenRejoin_safe :
    Along (World.step "host" "guest") (InStep "host" "guest") (initial "host") listenThenRejoin ∧
      Safe "host" "guest" (run (World.step "host" "guest") (initial "host") listenThenRejoin) := by
  have hrun : Along (World.step "host" "guest") (InStep "host" "guest") (initial "host")
      listenThenRejoin := by decide +kernel
  exact ⟨hrun, inStep_safe "host" "guest" listenThenRejoin hrun⟩

/-- The guest sends, leaves, comes back and sends again. -/
def sendThenRejoin : List WorldEvent :=
  meet ++
    [.send .b kindMsg [1] 3 0,
      .recv .a ⟨.a, 1, ⟨"guest", kindMsg, 3, 1, 0, [1]⟩⟩ "10.0.0.2" 27015 1, .leave] ++
  meet ++
    [.send .b kindMsg [2] 3 10,
      .recv .a ⟨.a, 2, ⟨"guest", kindMsg, 3, 1, 0, [2]⟩⟩ "10.0.0.2" 27015 11, .service .a 50,
      .recv .b ⟨.b, 2, ⟨"host", kindAck, 0, 0, 1, []⟩⟩ "10.0.0.1" 27015 51]

/-- The message of the new box is taken for a duplicate, and the ack for the old box
clears it. -/
theorem sendThenRejoin_loses_message :
    Along (World.step "host" "guest") (Legal "host" "guest") (initial "host") sendThenRejoin ∧
      ¬ Safe "host" "guest" (run (World.step "host" "guest") (initial "host") sendThenRejoin) := by
  constructor
  · decide +kernel
  · rintro ⟨hsafe, -, -⟩
    set w := run (World.step "host" "guest") (initial "host") sendThenRejoin with hw
    have hsome : (w.endpoint "host" "guest" .b).isSome = true := by decide +kernel
    obtain ⟨e, he⟩ := Option.isSome_iff_exists.mp hsome
    have hlost : ∀ e ∈ w.endpoint "host" "guest" .b, e.tx.pending.contains 1 = false := by
      decide +kernel
    have hsent : w.hist.sentB[(1 : UInt32).toNat - 1]? = some ⟨[2], 3⟩ := by decide +kernel
    cases hsafe e he 1 ⟨[2], 3⟩ (by decide) hsent with
    | inl hp =>
      rw [hlost e he] at hp
      cases hp
    | inr hgone =>
      cases hgone with
      | inl hev => exact absurd hev (by decide +kernel)
      | inr hlog => exact absurd hlog (by decide +kernel)

end World

end GbfrLan.Party
