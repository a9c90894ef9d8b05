import GbfrLan.Party.Waiting

/-!
# Messages of senders that are never registered

The frames of all senders share one queue, and the replay loop stops at the first frame whose
sender has no endpoint. So a frame of a stranger holds up everything behind it. As long as
strangers' frames come last, two runs that differ in such frames look the same to the title.
-/
namespace GbfrLan.Party
open Lib

namespace Handle

variable {h : Handle} {net k : ℕ} {w : Waiting}

/-! ### Events in another box -/

theorem put_setBox_ne (h : Handle) (w : Waiting) (m : Network) (hk : k ≠ net) :
    { h.put net w with boxes := (h.put net w).boxes.insert k m } =
      ({ h with boxes := h.boxes.insert k m } : Handle).put net w := by
  have hget : (h.boxes.insert k m).get? net = h.boxes.get? net := by
    rw [OrdMap.get?_insert, if_neg hk.symm]
  unfold put modifyBox
  simp only [hget]
  cases h.boxes.get? net with
  | none => rfl
  | some n => simp only [OrdMap.insert_comm h.boxes _ _ hk]

theorem get?_put_ne (h : Handle) (w : Waiting) (hk : k ≠ net) :
    (h.put net w).boxes.get? k = h.boxes.get? k := by
  rw [get?_put, if_neg hk]

theorem put_deliverType21 (h : Handle) (net : ℕ) (w : Waiting) (k : ℕ) (eid : String)
    (m : RecvMsg) : (h.put net w).deliverType21 k eid m = (h.deliverType21 k eid m).put net w := by
  refine put_of_boxless (f := fun h => h.deliverType21 k eid m) (fun h boxes => ?_) h net w
  by_cases hlt : h.pending.length < queueCap
  · simp [deliverType21, pendingCapDrop, queueSc, type21, hlt, push]
  · simp [deliverType21, pendingCapDrop, hlt]

theorem put_foldl_deliverType21 (ms : List RecvMsg) (h : Handle) (net : ℕ) (w : Waiting) (k : ℕ)
    (eid : String) : ms.foldl (fun h m => h.deliverType21 k eid m) (h.put net w) =
      (ms.foldl (fun h m => h.deliverType21 k eid m) h).put net w := by
  induction ms generalizing h with
  | nil => rfl
  | cons m ms ih => rw [List.foldl_cons, List.foldl_cons, put_deliverType21, ih]

theorem deliverReliable_eq (h : Handle) (k : ℕ) (f : PendingRx) (now : ℕ) :
    h.deliverReliable k f now =
      (((h.boxes.get? k).map fun n => (n.onMessage f now).2.released).getD []).foldl
        (fun h m => h.deliverType21 k f.entity m)
        (h.modifyBox k fun n => (n.onMessage f now).1) := by
  unfold deliverReliable modifyBox
  cases h.boxes.get? k <;> rfl

/-- Handing a frame over is blind to what waits. -/
theorem put_deliverReliable (h : Handle) (net : ℕ) (w : Waiting) (k : ℕ) (f : PendingRx)
    (now : ℕ) :
    (h.put net w).deliverReliable k f now = (h.deliverReliable k f now).put net w := by
  have hblind : Network.Blind fun n => (n.onMessage f now).1 := by
    intro n w
    show ((n.put w).onMessage f now).1 = _
    rw [n.onMessage_put]
  have hreleased (n : Network) :
      ((n.put w).onMessage f now).2.released = (n.onMessage f now).2.released := by
    rw [n.onMessage_put]
  rw [deliverReliable_eq, deliverReliable_eq, h.put_read net w k hreleased,
    put_modifyBox h net w k hblind, put_foldl_deliverType21]

theorem put_replay_ne (h : Handle) (w : Waiting) (hk : k ≠ net) (now : ℕ) :
    (h.put net w).replay k now = (h.replay k now).put net w := by
  unfold replay
  rw [get?_put_ne h w hk]
  split
  · rfl
  · rw [put_setBox_ne h w _ hk, put_deliverReliable]

theorem put_replayLoop_ne (fuel : ℕ) (h : Handle) (w : Waiting) (hk : k ≠ net) (now : ℕ) :
    replayLoop k now fuel (h.put net w) = (replayLoop k now fuel h).put net w := by
  induction fuel generalizing h with
  | zero => rfl
  | succ fuel ih =>
    unfold replayLoop
    rw [get?_put_ne h w hk]
    split
    · rfl
    · rw [put_replay_ne h w hk, ih]

theorem put_flushPendingRx_ne (h : Handle) (w : Waiting) (hk : k ≠ net) (now : ℕ) :
    (h.put net w).flushPendingRx k now = (h.flushPendingRx k now).put net w := by
  unfold flushPendingRx
  rw [get?_put_ne h w hk, put_replayLoop_ne _ h w hk]

theorem put_recvDatagram_ne (h : Handle) (w : Waiting) (hk : k ≠ net) (p : Packet)
    (srcIp : String) (srcPort : UInt16) (now : ℕ) :
    (h.put net w).recvDatagram k p srcIp srcPort now =
      (h.recvDatagram k p srcIp srcPort now).put net w := by
  have hget := get?_put_ne h w hk
  cases hbox : h.boxes.get? k with
  | none =>
    rw [recvDatagram_closed (Or.inl hbox), recvDatagram_closed (Or.inl (hget.trans hbox))]
  | some n =>
    cases hudp : n.udp with
    | false =>
      rw [recvDatagram_closed (Or.inr ⟨n, hbox, hudp⟩),
        recvDatagram_closed (Or.inr ⟨n, hget.trans hbox, hudp⟩)]
    | true =>
      rw [recvDatagram_open hbox hudp, recvDatagram_open (hget.trans hbox) hudp]
      simp only [put_setBox_ne h w _ hk]
      cases (n.receive p srcIp srcPort).2 with
      | some f =>
        simp only [put_deliverReliable]
        split_ifs
        · exact put_flushPendingRx_ne _ w hk now
        · rfl
      | none =>
        simp only
        split_ifs
        · exact put_flushPendingRx_ne _ w hk now
        · rfl

theorem put_drainPeer_ne (h : Handle) (w : Waiting) (hk : k ≠ net) (member : Bool) :
    (h.put net w).drainPeer k member = (h.drainPeer k member).put net w := by
  unfold drainPeer
  rw [get?_put_ne h w hk]
  split
  · rfl
  · split
    · rfl
    · rw [put_setBox_ne h w _ hk, put_ensureRemote]

theorem put_drainPeersLoop_ne (member : String → Bool) (fuel : ℕ) (h : Handle) (w : Waiting)
    (hk : k ≠ net) :
    drainPeersLoop k member fuel (h.put net w) = (drainPeersLoop k member fuel h).put net w := by
  induction fuel generalizing h with
  | zero => rfl
  | succ fuel ih =>
    unfold drainPeersLoop
    rw [get?_put_ne h w hk]
    split
    · rfl
    · rw [put_drainPeer_ne h w hk, ih]

theorem put_setBox (h : Handle) (net : ℕ) (w w' : Waiting) (m : Network) :
    { h.put net w with boxes := (h.put net w).boxes.insert net (m.put w') } =
      ({ h with boxes := h.boxes.insert net m } : Handle).put net w' := by
  have hget : (h.boxes.insert net m).get? net = some m := by rw [OrdMap.get?_insert, if_pos rfl]
  unfold put modifyBox
  simp only [hget]
  cases h.boxes.get? net with
  | none => simp only [OrdMap.insert_insert]
  | some n => simp only [OrdMap.insert_insert]

theorem get?_put_self {n : Network} (hget : h.boxes.get? net = some n) (w : Waiting) :
    (h.put net w).boxes.get? net = some (n.put w) := by
  rw [get?_put, if_pos rfl, hget]
  rfl

theorem put_put (h : Handle) (net : ℕ) (w w' : Waiting) : (h.put net w).put net w' = h.put net w' := by
  cases hget : h.boxes.get? net with
  | none =>
    unfold put modifyBox
    simp [hget]
  | some n =>
    have hget' := get?_put_self hget w
    conv_lhs => rw [put, modifyBox, hget']
    conv_rhs => rw [put, modifyBox, hget]
    unfold put modifyBox
    simp [hget, OrdMap.insert_insert]

end Handle

/-! ### The box itself -/

/-- `T` says who is a stranger. The two agree up to strangers: their frames come last, and their
candidacies do not count. -/
structure Agree (T : String → Bool) (w₁ w₂ : Waiting) : Prop where
  rx : ∃ p s₁ s₂, w₁.rx = p ++ s₁ ∧ w₂.rx = p ++ s₂ ∧
    (∀ f ∈ s₁, T f.entity = true) ∧ ∀ f ∈ s₂, T f.entity = true
  peers : w₁.peers.filter (fun x => !T x.1) = w₂.peers.filter fun x => !T x.1

namespace Agree

variable {T : String → Bool} {w w₁ w₂ : Waiting}

theorem refl (w : Waiting) : Agree T w w := ⟨⟨w.rx, [], [], by simp, by simp, by simp, by simp⟩, rfl⟩

theorem symm (h : Agree T w₁ w₂) : Agree T w₂ w₁ := by
  obtain ⟨⟨p, s₁, s₂, h₁, h₂, hs₁, hs₂⟩, hpeers⟩ := h
  exact ⟨⟨p, s₂, s₁, h₂, h₁, hs₂, hs₁⟩, hpeers.symm⟩

/-- Without strangers' frames the two have the same frames. -/
theorem rx_eq (h : Agree T w₁ w₂) (h₁ : ∀ f ∈ w₁.rx, T f.entity = false)
    (h₂ : ∀ f ∈ w₂.rx, T f.entity = false) : w₁.rx = w₂.rx := by
  obtain ⟨⟨p, s₁, s₂, hp₁, hp₂, hs₁, hs₂⟩, -⟩ := h
  have hnil {s : List PendingRx} {l : List PendingRx} (hl : l = p ++ s)
      (hno : ∀ f ∈ l, T f.entity = false) (hs : ∀ f ∈ s, T f.entity = true) : s = [] := by
    apply List.eq_nil_iff_forall_not_mem.mpr
    intro f hf
    have hfalse := hno f (by rw [hl]; exact List.mem_append_right _ hf)
    rw [hs f hf] at hfalse
    cases hfalse
  rw [hp₁, hp₂, hnil hp₁ h₁ hs₁, hnil hp₂ h₂ hs₂]

end Agree

/-- A candidate is noted. -/
def Waiting.note (w : Waiting) (fresh : Bool) (eid ip : String) (udpPort : UInt16) : Waiting :=
  if fresh && !(w.peers.any fun x => x.1 == eid) && decide (w.peers.length < pendingPeerCap) then
    { w with peers := w.peers ++ [(eid, ip, udpPort)] }
  else w

namespace Network

/-- The source of a datagram is a candidate for a new remote. -/
def fresh (n : Network) (eid srcIp : String) : Bool :=
  n.connectCompleted && srcIp != "" && !n.remotes.contains eid

variable (n : Network) (w : Waiting)

theorem queuePendingPeer_eq (eid ip : String) (udpPort : UInt16) :
    n.queuePendingPeer eid ip udpPort = n.put (n.waiting.note true eid ip udpPort) := by
  unfold queuePendingPeer Waiting.note
  by_cases hany : (n.pendingPeers.any fun x => x.1 == eid) = true
  · simp [waiting, hany]
    rfl
  · by_cases hcap : pendingPeerCap ≤ n.pendingPeers.length
    · simp [waiting, hany, hcap, not_lt.mpr hcap]
      rfl
    · simp [waiting, hany, hcap, not_le.mp hcap]
      rfl

theorem noteSource_put (eid srcIp : String) (srcPort : UInt16) :
    (n.put w).noteSource eid srcIp srcPort =
      (n.noteSource eid srcIp srcPort).put (w.note (n.fresh eid srcIp) eid srcIp srcPort) := by
  have hnone (hf : n.fresh eid srcIp = false) :
      w.note (n.fresh eid srcIp) eid srcIp srcPort = w := by
    rw [hf]
    rfl
  unfold noteSource
  rw [put_connectCompleted, put_remotes]
  cases hon : n.connectCompleted && srcIp != "" with
  | false =>
    rw [hnone (by rw [fresh, hon]; rfl)]
    rfl
  | true =>
    cases hc : n.remotes.contains eid with
    | true =>
      rw [hnone (by rw [fresh, hc, Bool.not_true, Bool.and_false]), ensureRemote_put]
      rfl
    | false =>
      have hfresh : n.fresh eid srcIp = true := by rw [fresh, hon, hc]; rfl
      rw [hfresh]
      simp only [if_true, Bool.false_eq_true, if_false, queuePendingPeer_eq, put_put, waiting_put]

theorem applyAck_put (eid : String) (ack : UInt32) :
    (n.put w).applyAck eid ack = (n.applyAck eid ack).put w := by
  unfold applyAck
  split_ifs
  · exact n.modifyRemote_put w eid _
  · rfl

theorem noted_put (p : Packet) (srcIp : String) (srcPort : UInt16) :
    (n.put w).noted p srcIp srcPort = (n.noted p srcIp srcPort).put
      (w.note (n.fresh p.entity srcIp) p.entity srcIp srcPort) := by
  unfold noted
  rw [noteSource_put, applyAck_put]

theorem noted_waiting (p : Packet) (srcIp : String) (srcPort : UInt16) :
    (n.noted p srcIp srcPort).waiting =
      n.waiting.note (n.fresh p.entity srcIp) p.entity srcIp srcPort := by
  have h := n.noted_put n.waiting p srcIp srcPort
  rw [put_waiting] at h
  rw [h, waiting_put]

theorem noted_of_unregistered {n : Network} {p : Packet} (srcIp : String) (srcPort : UInt16)
    (hnone : n.remotes.contains p.entity = false) :
    n.noted p srcIp srcPort =
      n.put (n.waiting.note (n.fresh p.entity srcIp) p.entity srcIp srcPort) := by
  have hack (m : Network) (hm : m.remotes = n.remotes) : m.applyAck p.entity p.ack = m := by
    unfold applyAck modifyRemote
    have hget : m.remotes.get? p.entity = none := by
      rw [hm]
      simpa [OrdMap.contains] using hnone
    rw [hget]
    split_ifs <;> rfl
  unfold noted noteSource
  rw [hnone]
  cases hon : n.connectCompleted && srcIp != "" with
  | false =>
    have hf : n.fresh p.entity srcIp = false := by rw [fresh, hon]; rfl
    rw [hf]
    exact hack n rfl
  | true =>
    have hf : n.fresh p.entity srcIp = true := by rw [fresh, hon, hnone]; rfl
    rw [hf]
    simp only [if_true, Bool.false_eq_true, if_false]
    rw [queuePendingPeer_eq]
    exact hack _ rfl

end Network

namespace Agree

variable {T : String → Bool} {w w₁ w₂ : Waiting}

/-- A stranger's candidacy does not count. -/
theorem note_stranger (h : Agree T w₁ w₂) {eid : String} (hT : T eid = true) (fresh : Bool)
    (ip : String) (udpPort : UInt16) : Agree T (w₁.note fresh eid ip udpPort) w₂ := by
  unfold Waiting.note
  split_ifs
  · refine ⟨h.rx, ?_⟩
    rw [List.filter_append, h.peers]
    simp [hT]
  · exact h

/-- The candidate is there already, or there is room for it, or no stranger takes the room. -/
def HasRoom (T : String → Bool) (w : Waiting) (eid : String) : Prop :=
  (w.peers.any fun x => x.1 == eid) = true ∨ w.peers.length < pendingPeerCap ∨
    ∀ x ∈ w.peers, T x.1 = false

instance (T : String → Bool) (w : Waiting) (eid : String) : Decidable (HasRoom T w eid) :=
  inferInstanceAs (Decidable (_ ∨ _ ∨ _))

/-- At the bound there is room on both sides or on none. -/
theorem HasRoom.lt_of_lt (h : Agree T w₁ w₂) (hlt : w₁.peers.length < pendingPeerCap)
    (h₂ : w₂.peers.length < pendingPeerCap ∨ ∀ x ∈ w₂.peers, T x.1 = false) :
    w₂.peers.length < pendingPeerCap := by
  rcases h₂ with hlt₂ | hno
  · exact hlt₂
  · have hall : w₂.peers.filter (fun x => !T x.1) = w₂.peers := by
      apply List.filter_eq_self.mpr
      intro x hx
      rw [hno x hx]
      rfl
    have hle := List.length_filter_le (fun x : String × String × UInt16 => !T x.1) w₁.peers
    rw [h.peers, hall] at hle
    omega

theorem any_filter (l : List (String × String × UInt16)) {eid : String} (hT : T eid = false) :
    ((l.filter fun x => !T x.1).any fun x => x.1 == eid) = l.any fun x => x.1 == eid := by
  rw [Bool.eq_iff_iff, List.any_eq_true, List.any_eq_true]
  constructor
  · rintro ⟨x, hx, heq⟩
    exact ⟨x, List.mem_of_mem_filter hx, heq⟩
  · rintro ⟨x, hx, heq⟩
    refine ⟨x, List.mem_filter.mpr ⟨hx, ?_⟩, heq⟩
    rw [beq_iff_eq.mp heq, hT]
    rfl

theorem note (h : Agree T w₁ w₂) {eid : String} {fresh : Bool} (ip : String) (udpPort : UInt16)
    (h₁ : T eid = false → fresh = true → HasRoom T w₁ eid)
    (h₂ : T eid = false → fresh = true → HasRoom T w₂ eid) :
    Agree T (w₁.note fresh eid ip udpPort) (w₂.note fresh eid ip udpPort) := by
  cases hT : T eid with
  | true => exact ((h.note_stranger hT fresh ip udpPort).symm.note_stranger hT fresh ip udpPort).symm
  | false =>
    cases fresh with
    | false => exact h
    | true =>
      have hany : (w₁.peers.any fun x => x.1 == eid) = w₂.peers.any fun x => x.1 == eid := by
        rw [← any_filter w₁.peers hT, ← any_filter w₂.peers hT, h.peers]
      cases hin : w₁.peers.any fun x => x.1 == eid with
      | true =>
        have hin₂ := hany.symm.trans hin
        simpa [Waiting.note, hin, hin₂] using h
      | false =>
        have hin₂ := hany.symm.trans hin
        have hroom₁ := (h₁ hT rfl).resolve_left (by simp [hin])
        have hroom₂ := (h₂ hT rfl).resolve_left (by simp [hin₂])
        by_cases hlt₁ : w₁.peers.length < pendingPeerCap
        · have hlt₂ := HasRoom.lt_of_lt h hlt₁ hroom₂
          simp only [Waiting.note, hin, hin₂, hlt₁, hlt₂, Bool.not_false, Bool.and_self,
            decide_true, if_true]
          refine ⟨h.rx, ?_⟩
          simp only [List.filter_append, h.peers]
        · have hlt₂ : ¬w₂.peers.length < pendingPeerCap :=
            fun hlt₂ => hlt₁ (HasRoom.lt_of_lt h.symm hlt₂ hroom₁)
          simpa [Waiting.note, hlt₁, hlt₂] using h

end Agree

namespace Handle

/-- The handles are the same up to strangers in what waits in one box. -/
def Sim (T : String → Bool) (net : ℕ) (h₁ h₂ : Handle) : Prop :=
  ∃ w, h₂ = h₁.put net w ∧ ∀ n, h₁.boxes.get? net = some n → Agree T n.waiting w

/-- No stranger has an endpoint in the box. -/
def Unmet (T : String → Bool) (net : ℕ) (h : Handle) : Prop :=
  ∀ eid, h.Registered (net, eid) → T eid = false

variable {T : String → Bool} {net : ℕ} {h h₁ h₂ : Handle} {n : Network}

theorem unmet_iff_keys : h.Unmet T net ↔
    ∀ n ∈ h.boxes.get? net, ∀ eid ∈ n.remotes.keys, T eid = false := by
  simp only [OrdMap.mem_keys_iff]
  constructor
  · exact fun hu n hget eid hc => hu eid ⟨n, hget, hc⟩
  · rintro hall eid ⟨n, hget, hc⟩
    exact hall n hget eid hc

instance : Decidable (h.Unmet T net) := decidable_of_iff _ unmet_iff_keys.symm

theorem Unmet.contains (hu : h.Unmet T net) (hget : h.boxes.get? net = some n) {eid : String}
    (hT : T eid = true) : n.remotes.contains eid = false := by
  rw [Bool.eq_false_iff]
  intro hc
  rw [hu eid ⟨n, hget, hc⟩] at hT
  cases hT

theorem Unmet.of_alike (hu : h₁.Unmet T net) (ha : h₁.Alike h₂) : h₂.Unmet T net :=
  fun eid hr => hu eid ((ha.registered _).mp hr)

theorem Unmet.not_ready (hu : h.Unmet T net) (hget : h.boxes.get? net = some n) {eid : String}
    (hT : T eid = true) : n.ready eid = false := by
  rw [Network.ready, hu.contains hget hT]
  rfl

theorem put_alike (h : Handle) (net : ℕ) (w : Waiting) : h.Alike (h.put net w) :=
  .modifyBox h net fun _ _ => rfl

theorem put_of_none (hget : h.boxes.get? net = none) (w : Waiting) : h.put net w = h := by
  unfold Handle.put modifyBox
  rw [hget]

theorem Sim.refl (h : Handle) : h.Sim T net h := by
  cases hget : h.boxes.get? net with
  | none =>
    refine ⟨⟨[], [], false⟩, (put_of_none hget _).symm, fun n hn => ?_⟩
    rw [hget] at hn
    cases hn
  | some n =>
    refine ⟨n.waiting, (put_self hget).symm, fun m hm => ?_⟩
    obtain rfl : n = m := Option.some.inj (hget.symm.trans hm)
    exact .refl _

theorem Sim.symm (hs : h₁.Sim T net h₂) : h₂.Sim T net h₁ := by
  obtain ⟨w, rfl, hagree⟩ := hs
  cases hget : h₁.boxes.get? net with
  | none =>
    rw [put_of_none hget]
    exact .refl h₁
  | some n =>
    refine ⟨n.waiting, ?_, fun m hm => ?_⟩
    · rw [put_put, put_self hget]
    · rw [get?_put_self hget] at hm
      obtain rfl := Option.some.inj hm
      exact (hagree n hget).symm

theorem Sim.box (hget : h.boxes.get? net = some n) {w : Waiting} (hagree : Agree T n.waiting w) :
    h.Sim T net (h.put net w) := by
  refine ⟨w, rfl, fun m hm => ?_⟩
  obtain rfl : n = m := Option.some.inj (hget.symm.trans hm)
  exact hagree

theorem Sim.setBox (h : Handle) (m : Network) (w : Waiting) {v : Waiting}
    (hagree : Agree T m.waiting v) :
    ({ h with boxes := h.boxes.insert net m } : Handle).Sim T net
      { h.put net w with boxes := (h.put net w).boxes.insert net (m.put v) } := by
  rw [put_setBox]
  exact .box (by rw [OrdMap.get?_insert, if_pos rfl]) hagree

/-! ### The replay loop -/

theorem replayLoop_stop (hnext : (h.boxes.get? net).bind Network.nextFrame = none) (now fuel : ℕ) :
    replayLoop net now fuel h = h := by
  cases fuel with
  | zero => rfl
  | succ fuel =>
    rw [replayLoop]
    rw [hnext]

theorem nextFrame_stop (hready : ∀ f ∈ n.pendingRx.head?, n.ready f.entity = false) :
    n.nextFrame = none := by
  unfold Network.nextFrame
  split
  · rfl
  · rename_i f rest hrx
    rw [hrx] at hready
    rw [hready f rfl]
    rfl

/-- The loop does the same on both sides: it stops before the strangers' frames at the latest. -/
theorem replayLoop_sim (now : ℕ) {p s₁ s₂ : List PendingRx} {w : Waiting}
    (hget : h.boxes.get? net = some n) (hu : h.Unmet T net) (hrx : n.pendingRx = p ++ s₁)
    (hw : w.rx = p ++ s₂) (hs₁ : ∀ f ∈ s₁, T f.entity = true) (hs₂ : ∀ f ∈ s₂, T f.entity = true)
    (hpeers : n.pendingPeers.filter (fun x => !T x.1) = w.peers.filter fun x => !T x.1)
    {fuel₁ fuel₂ : ℕ} (hf₁ : p.length ≤ fuel₁) (hf₂ : p.length ≤ fuel₂) :
    (replayLoop net now fuel₁ h).Sim T net (replayLoop net now fuel₂ (h.put net w)) := by
  induction p generalizing h n w fuel₁ fuel₂ with
  | nil =>
    have hstop {m : Network} {s : List PendingRx} (hm : ∀ e, m.ready e = n.ready e)
        (hms : m.pendingRx = [] ++ s) (hs : ∀ f ∈ s, T f.entity = true) : m.nextFrame = none := by
      apply nextFrame_stop
      intro f hf
      rw [hms, List.nil_append] at hf
      rw [hm]
      exact hu.not_ready hget (hs f (List.mem_of_mem_head? hf))
    rw [replayLoop_stop, replayLoop_stop]
    · exact .box hget ⟨⟨[], s₁, s₂, hrx, hw, hs₁, hs₂⟩, hpeers⟩
    · rw [get?_put_self hget]
      exact hstop (fun _ => rfl) hw hs₂
    · rw [hget]
      exact hstop (fun _ => rfl) hrx hs₁
  | cons f p ih =>
    cases hr : n.ready f.entity with
    | false =>
      rw [replayLoop_stop, replayLoop_stop]
      · exact .box hget ⟨⟨f :: p, s₁, s₂, hrx, hw, hs₁, hs₂⟩, hpeers⟩
      · rw [get?_put_self hget]
        refine nextFrame_stop fun f' hf' => ?_
        rw [Network.put_pendingRx, hw] at hf'
        obtain rfl : f = f' := by simpa using hf'
        exact hr
      · rw [hget]
        refine nextFrame_stop fun f' hf' => ?_
        rw [hrx] at hf'
        obtain rfl : f = f' := by simpa using hf'
        exact hr
    | true =>
      obtain ⟨g₁, rfl⟩ : ∃ g, fuel₁ = g + 1 := ⟨fuel₁ - 1, by simp at hf₁; omega⟩
      obtain ⟨g₂, rfl⟩ : ∃ g, fuel₂ = g + 1 := ⟨fuel₂ - 1, by simp at hf₂; omega⟩
      set m : Network := { n with pendingRx := p ++ s₁ } with hm
      set w' : Waiting := { w with rx := p ++ s₂ } with hw'
      have hnext₁ : n.nextFrame = some (f, m) := by
        rw [Network.nextFrame, hrx, List.cons_append]
        simp [hr, hm]
      have hnext₂ : (n.put w).nextFrame = some (f, m.put w') := by
        rw [Network.nextFrame, Network.put_pendingRx, hw, List.cons_append]
        simp only [Network.put_ready, hr, if_true]
        rfl
      have hreplay₁ : h.replay net now =
          ({ h with boxes := h.boxes.insert net m } : Handle).deliverReliable net f now := by
        rw [replay, hget, Option.bind_some, hnext₁]
      have hreplay₂ : (h.put net w).replay net now = (h.replay net now).put net w' := by
        rw [hreplay₁, ← put_deliverReliable, ← put_setBox h net w, replay, get?_put_self hget,
          Option.bind_some, hnext₂]
      have hbox : (h.replay net now).boxes.get? net = some (m.onMessage f now).1 := by
        rw [hreplay₁, deliverReliable_boxes, if_pos rfl]
        simp
      have hblind : Network.Blind fun n => (n.onMessage f now).1 := by
        intro n w
        show ((n.put w).onMessage f now).1 = _
        rw [n.onMessage_put]
      have hwait : (m.onMessage f now).1.waiting = m.waiting := hblind.waiting m
      have hunmet : (h.replay net now).Unmet T net := by
        rintro eid ⟨n', hn', hc⟩
        obtain rfl := Option.some.inj (hbox.symm.trans hn')
        exact hu eid ⟨n, hget, (m.onMessage_sameRemotes f now eid).symm.trans hc⟩
      rw [replayLoop, hget, Option.bind_some, hnext₁, replayLoop, get?_put_self hget,
        Option.bind_some, hnext₂]
      simp only
      rw [hreplay₂]
      refine ih hbox hunmet ?_ rfl ?_ ?_ ?_
      · exact congrArg Waiting.rx hwait
      · rw [show (m.onMessage f now).1.pendingPeers = n.pendingPeers from
          congrArg Waiting.peers hwait]
        exact hpeers
      · simpa using hf₁
      · simpa using hf₂

/-- What is blind to the box keeps the two alike. -/
theorem Sim.of_put {g : Handle → Handle} (hs : h₁.Sim T net h₂)
    (hg : (h₁.boxes.get? net).isSome = true → ∀ w, g (h₁.put net w) = (g h₁).put net w) :
    (g h₁).Sim T net (g h₂) := by
  obtain ⟨w, rfl, hagree⟩ := hs
  cases hget : h₁.boxes.get? net with
  | none =>
    rw [put_of_none hget]
    exact .refl _
  | some n =>
    have hsome : (h₁.boxes.get? net).isSome = true := by
      rw [hget]
      rfl
    refine ⟨w, hg hsome w, fun m hm => ?_⟩
    have hself := hg hsome n.waiting
    rw [put_self hget] at hself
    rw [hself, get?_put, if_pos rfl] at hm
    obtain ⟨m', -, rfl⟩ := Option.map_eq_some_iff.mp hm
    exact hagree n hget

theorem Sim.deliverReliable (hs : h₁.Sim T net h₂) (f : PendingRx) (now : ℕ) :
    (h₁.deliverReliable net f now).Sim T net (h₂.deliverReliable net f now) :=
  hs.of_put (g := fun h => h.deliverReliable net f now) fun _ w =>
    h₁.put_deliverReliable net w net f now

theorem Sim.flush (hs : h₁.Sim T net h₂) (hu : h₁.Unmet T net) (now : ℕ) :
    (h₁.flushPendingRx net now).Sim T net (h₂.flushPendingRx net now) := by
  obtain ⟨w, rfl, hagree⟩ := hs
  cases hget : h₁.boxes.get? net with
  | none =>
    rw [put_of_none hget]
    exact .refl _
  | some n =>
    obtain ⟨⟨p, s₁, s₂, hp₁, hp₂, hs₁, hs₂⟩, hpeers⟩ := hagree n hget
    have hlen₁ : n.pendingRx = p ++ s₁ := hp₁
    unfold flushPendingRx
    rw [get?_put_self hget, hget]
    refine replayLoop_sim now hget hu hp₁ hp₂ hs₁ hs₂ hpeers ?_ ?_
    · simp [hlen₁]
    · simp [hp₂]

/-! ### The candidates -/

theorem ensureRemote_unmet {eid ip : String} {udpPort : UInt16} {member : Bool}
    (hbefore : ¬h.Registered (net, eid))
    (hafter : ¬(h.ensureRemote net eid ip udpPort member).Registered (net, eid)) :
    h.ensureRemote net eid ip udpPort member = h := by
  unfold ensureRemote at hafter ⊢
  cases hget : h.boxes.get? net with
  | none => rfl
  | some n =>
    have hnone : n.remotes.get? eid = none := by
      cases hent : n.remotes.get? eid with
      | none => rfl
      | some e => exact absurd ⟨n, hget, by rw [OrdMap.contains, hent]; rfl⟩ hbefore
    have hsame : ({ h with boxes := h.boxes.insert net n } : Handle) = h := by
      have hput := put_self hget
      rw [Handle.put, modifyBox, hget] at hput
      exact hput
    simp only [hget] at hafter ⊢
    rcases n.ensureRemote_cases eid ip udpPort member with heq | heq | ⟨-, heq⟩
    · rw [heq]
      exact hsame
    · have hid : n.modifyRemote eid (fun e => { e with ip := ip, udpPort := udpPort }) = n := by
        rw [Network.modifyRemote, hnone]
      rw [heq, hid]
      exact hsame
    · rw [heq] at hafter
      refine absurd ?_ hafter
      simp only [if_true]
      refine ⟨{ n with remotes := n.remotes.insert eid (Endpoint.new ip udpPort) }, ?_, ?_⟩
      · rw [queueSc_boxes]
        simp
      · simp [OrdMap.contains]

theorem drainPeer_cons {eid ip : String} {udpPort : UInt16}
    {rest : List (String × String × UInt16)} (hget : h.boxes.get? net = some n)
    (hp : n.pendingPeers = (eid, ip, udpPort) :: rest) (member : Bool) :
    h.drainPeer net member =
      (h.put net { n.waiting with peers := rest }).ensureRemote net eid ip udpPort member := by
  unfold drainPeer Handle.put modifyBox
  simp only [hget, hp]
  rfl

/-- The registration of a list of candidates. -/
def ensureAll (net : ℕ) (member : String → Bool) (h : Handle)
    (peers : List (String × String × UInt16)) : Handle :=
  peers.foldl (fun h x => h.ensureRemote net x.1 x.2.1 x.2.2 (member x.1)) h

theorem put_ensureAll (member : String → Bool) (peers : List (String × String × UInt16))
    (h : Handle) (w : Waiting) :
    ensureAll net member (h.put net w) peers = (ensureAll net member h peers).put net w := by
  induction peers generalizing h with
  | nil => rfl
  | cons x peers ih =>
    unfold ensureAll at ih ⊢
    rw [List.foldl_cons, List.foldl_cons, put_ensureRemote, ih]

theorem drainPeersLoop_registered (hn : h.Numbered) (member : String → Bool) (fuel : ℕ)
    {r : Remote} (hr : h.Registered r) : (drainPeersLoop net member fuel h).Registered r := by
  induction fuel generalizing h with
  | zero => exact hr
  | succ fuel ih =>
    unfold drainPeersLoop
    split
    · exact hr
    · rename_i eid _ _ _
      obtain ⟨new, hext⟩ := drainPeer_extends hn net (member eid)
      exact ih hext.numbered ((hext.registered r).mpr (Or.inl hr))

/-- Where no stranger gets an endpoint, the tick only registers the others. -/
theorem drainPeersLoop_eq (member : String → Bool) (peers : List (String × String × UInt16))
    (hn : h.Numbered) (hget : h.boxes.get? net = some n) (hp : n.pendingPeers = peers)
    (hu : (drainPeersLoop net member peers.length h).Unmet T net) :
    drainPeersLoop net member peers.length h =
      ensureAll net member (h.put net { n.waiting with peers := [] })
        (peers.filter fun x => !T x.1) := by
  induction peers generalizing h n with
  | nil =>
    have hself := put_self hget
    have hw : n.waiting = { n.waiting with peers := [] } := by
      rw [Network.waiting, hp]
    rw [hw] at hself
    exact hself.symm
  | cons x peers ih =>
    obtain ⟨eid, ip, udpPort⟩ := x
    have hhead : (h.boxes.get? net).bind (fun n => n.pendingPeers.head?) =
        some (eid, ip, udpPort) := by
      rw [hget, Option.bind_some, hp]
      rfl
    have hloop : drainPeersLoop net member ((eid, ip, udpPort) :: peers).length h =
        drainPeersLoop net member peers.length (h.drainPeer net (member eid)) := by
      rw [List.length_cons, drainPeersLoop, hhead]
    rw [hloop] at hu ⊢
    obtain ⟨new, hext⟩ := drainPeer_extends hn net (member eid)
    have hdrain := drainPeer_cons hget hp (member eid)
    set v : Waiting := { n.waiting with peers := peers } with hv
    obtain ⟨m, hm⟩ : ∃ m, h.ensureRemote net eid ip udpPort (member eid) = m := ⟨_, rfl⟩
    rw [put_ensureRemote, hm] at hdrain
    -- The box after the round, with what waits in it.
    have hbox : ∃ n', (h.drainPeer net (member eid)).boxes.get? net = some n' ∧ n'.waiting = v := by
      rw [hdrain, get?_put, if_pos rfl]
      cases hmget : m.boxes.get? net with
      | some n' => exact ⟨n'.put v, rfl, rfl⟩
      | none =>
        rw [← hm, ensureRemote_eq] at hmget
        split_ifs at hmget <;> simp [queueSc_boxes, get?_modifyBox, hget] at hmget
    obtain ⟨n', hget', hwait⟩ := hbox
    have hrest := ih hext.numbered hget' (congrArg Waiting.peers hwait) hu
    rw [hrest, hwait, hdrain, put_put, ← hm]
    cases hT : T eid with
    | false =>
      rw [List.filter_cons_of_pos (by simp [hT])]
      unfold ensureAll
      rw [List.foldl_cons, put_ensureRemote]
    | true =>
      rw [List.filter_cons_of_neg (by simp [hT])]
      have hafter : ¬(h.drainPeer net (member eid)).Registered (net, eid) := by
        intro hr
        have hfalse := hu eid (drainPeersLoop_registered hext.numbered member _ hr)
        rw [hT] at hfalse
        cases hfalse
      have hbefore : ¬h.Registered (net, eid) :=
        fun hr => hafter ((hext.registered _).mpr (Or.inl hr))
      rw [ensureRemote_unmet hbefore]
      intro hr
      apply hafter
      rw [hdrain, ← hm]
      exact ((put_alike _ net v).registered _).mpr hr

theorem Sim.put (h : Handle) {w₁ w₂ : Waiting} (hagree : Agree T w₁ w₂) :
    (h.put net w₁).Sim T net (h.put net w₂) := by
  refine ⟨w₂, (h.put_put net w₁ w₂).symm, fun m hm => ?_⟩
  rw [get?_put, if_pos rfl] at hm
  obtain ⟨m', -, rfl⟩ := Option.map_eq_some_iff.mp hm
  exact hagree

theorem Sim.drainPeers (hs : h₁.Sim T net h₂) (hn₁ : h₁.Numbered) (hn₂ : h₂.Numbered)
    (member : String → Bool) (hu₁ : (h₁.drainPendingPeers net member).Unmet T net)
    (hu₂ : (h₂.drainPendingPeers net member).Unmet T net) :
    (h₁.drainPendingPeers net member).Sim T net (h₂.drainPendingPeers net member) := by
  obtain ⟨w, rfl, hagree⟩ := hs
  cases hget : h₁.boxes.get? net with
  | none =>
    rw [put_of_none hget]
    exact .refl _
  | some n =>
    have hget₂ := get?_put_self hget w
    have hpeers : n.pendingPeers.filter (fun x => !T x.1) = w.peers.filter fun x => !T x.1 :=
      (hagree n hget).peers
    unfold drainPendingPeers at hu₁ hu₂ ⊢
    rw [hget] at hu₁ ⊢
    rw [hget₂] at hu₂ ⊢
    have heq₁ := drainPeersLoop_eq member _ hn₁ hget rfl hu₁
    have heq₂ := drainPeersLoop_eq member _ hn₂ hget₂ rfl hu₂
    simp only [Option.map_some, Option.getD_some]
    rw [heq₁, heq₂, put_put, Network.put_pendingPeers, hpeers, put_ensureAll, put_ensureAll]
    exact .put _ ⟨(hagree n hget).rx, rfl⟩

end Handle

/-! ### The receive path -/

/-- The datagram finds the strangers behind everybody else: a message of another sender finds no
frame of a stranger, a stranger's message displaces only strangers' frames, and no stranger is in
the way of another candidate. -/
def Network.Clear (T : String → Bool) (n : Network) (p : Packet) (srcIp : String) : Prop :=
  if T p.entity = true then
    p.kind = kindMsg → n.pendingRx.length < pendingRxCap ∨ ∀ f ∈ n.pendingRx, T f.entity = true
  else (n.fresh p.entity srcIp = true → Agree.HasRoom T n.waiting p.entity) ∧
    (p.kind = kindMsg → ∀ f ∈ n.pendingRx, T f.entity = false)

instance (T : String → Bool) (n : Network) (p : Packet) (srcIp : String) :
    Decidable (n.Clear T p srcIp) := inferInstanceAs (Decidable (ite _ _ _))

namespace Handle

/-- `Network.Clear` for the datagrams that come in at one box. -/
def Clear (T : String → Bool) (net : ℕ) (h : Handle) : Turn → Prop
  | .recv k p srcIp _ _ =>
      k = net → ∀ n ∈ h.boxes.get? net, n.udp = true → n.Clear T p srcIp
  | _ => True

instance (T : String → Bool) (net : ℕ) (h : Handle) : ∀ t, Decidable (h.Clear T net t)
  | .recv k p srcIp _ _ => inferInstanceAs
      (Decidable (k = net → ∀ n ∈ h.boxes.get? net, n.udp = true → n.Clear T p srcIp))
  | .whole _ _ | .flush _ _ | .drainPeers _ _ => inferInstanceAs (Decidable True)

variable {T : String → Bool} {net : ℕ} {h h₁ h₂ : Handle} {n : Network}
  {p : Packet} {srcIp : String} {srcPort : UInt16}

theorem Agree.frames {w₁ w₂ : Waiting} {rx : List PendingRx} (h₁ : w₁.rx = rx) (h₂ : w₂.rx = rx)
    (hpeers : w₁.peers.filter (fun x => !T x.1) = w₂.peers.filter fun x => !T x.1) :
    Agree T w₁ w₂ :=
  ⟨⟨rx, [], [], by rw [h₁, List.append_nil], by rw [h₂, List.append_nil], by simp, by simp⟩, hpeers⟩

theorem Sim.recv_open (hget : h.boxes.get? net = some n) (hudp : n.udp = true) {w : Waiting}
    (hagree : Agree T n.waiting w) (hu : h.Unmet T net)
    (hmsg : p.kind = kindMsg → T p.entity = false) (hc₁ : n.Clear T p srcIp)
    (hc₂ : (n.put w).Clear T p srcIp) (now : ℕ) :
    (h.recvDatagram net p srcIp srcPort now).Sim T net
      ((h.put net w).recvDatagram net p srcIp srcPort now) := by
  have hget₂ := get?_put_self hget w
  have hnoted := n.noted_put w p srcIp srcPort
  have hnote : Agree T (n.noted p srcIp srcPort).waiting
      (w.note (n.fresh p.entity srcIp) p.entity srcIp srcPort) := by
    rw [Network.noted_waiting]
    refine hagree.note srcIp srcPort ?_ ?_
    · intro hT hf
      rw [Network.Clear, hT] at hc₁
      exact hc₁.1 hf
    · intro hT hf
      rw [Network.Clear, hT] at hc₂
      exact hc₂.1 hf
  have hwrx : (w.note (n.fresh p.entity srcIp) p.entity srcIp srcPort).rx = w.rx := by
    unfold Waiting.note
    split_ifs <;> rfl
  by_cases hk : p.kind = kindMsg
  · have hT := hmsg hk
    have hsame : n.pendingRx = w.rx := by
      rw [Network.Clear, hT] at hc₁ hc₂
      exact hagree.rx_eq (hc₁.2 hk) (hc₂.2 hk)
    cases hr : n.ready p.entity with
    | false =>
      rw [recvDatagram_unready hget hudp hk hr, recvDatagram_unready hget₂ hudp hk hr, hnoted]
      set m := n.noted p srcIp srcPort with hm
      have hrx : m.pendingRx = w.rx := Network.noted_pendingRx.trans hsame
      refine .setBox h _ w (v := ((({ m.put (w.note (n.fresh p.entity srcIp) p.entity srcIp srcPort)
        with pollRequested := _ } : Network).bufferFrame p.frame).waiting)) ?_
      refine Agree.frames rfl ?_ hnote.peers
      simp only [Network.waiting, Network.bufferFrame, Network.put_pendingRx, hwrx, hrx]
    | true =>
      by_cases hnil : n.pendingRx = []
      · rw [recvDatagram_direct hget hudp hk hr hnil,
          recvDatagram_direct hget₂ hudp hk hr (hsame.symm.trans hnil), hnoted]
        exact (Sim.setBox h _ w hnote).deliverReliable p.frame now
      · rw [recvDatagram_behind hget hudp hk hr hnil,
          recvDatagram_behind hget₂ hudp hk hr (fun hw => hnil (hsame.trans hw)), hnoted]
        refine Sim.flush (.setBox h _ w (v := { w.note (n.fresh p.entity srcIp) p.entity srcIp
          srcPort with rx := (n.put w).pendingRx ++ [p.frame] }) ?_) ?_ now
        · exact Agree.frames rfl (by rw [hsame]; rfl) hnote.peers
        · refine hu.of_alike (.setBox hget fun eid => ?_)
          exact ((n.noteSource_sameRemotes p.entity srcIp srcPort).trans
            (Network.applyAck_sameRemotes _ p.entity p.ack)) eid
  · rw [recvDatagram_other hget hudp hk, recvDatagram_other hget₂ hudp hk, hnoted]
    refine .setBox h _ w (v := { w.note (n.fresh p.entity srcIp) p.entity srcIp srcPort with
      poll := _ }) ?_
    exact ⟨hnote.rx, hnote.peers⟩

/-- A stranger's message on one side only. -/
theorem Sim.stranger (hs : h₁.Sim T net h₂) (hu : h₁.Unmet T net) (hk : p.kind = kindMsg)
    (hT : T p.entity = true) {now : ℕ} (hc : h₁.Clear T net (.recv net p srcIp srcPort now)) :
    (h₁.recvDatagram net p srcIp srcPort now).Sim T net h₂ := by
  cases hget : h₁.boxes.get? net with
  | none =>
    rw [recvDatagram_closed (Or.inl hget)]
    exact hs
  | some n =>
    cases hudp : n.udp with
    | false =>
      rw [recvDatagram_closed (Or.inr ⟨n, hget, hudp⟩)]
      exact hs
    | true =>
      obtain ⟨w, rfl, hagree⟩ := hs
      have hagree := hagree n hget
      have hclear := hc rfl n hget hudp
      rw [Network.Clear, if_pos hT] at hclear
      have hr := hu.not_ready hget hT
      rw [recvDatagram_unready hget hudp hk hr,
        Network.noted_of_unregistered srcIp srcPort (hu.contains hget hT)]
      set v := n.waiting.note (n.fresh p.entity srcIp) p.entity srcIp srcPort with hv
      have hvrx : v.rx = n.pendingRx := by
        rw [hv]
        unfold Waiting.note
        split_ifs <;> rfl
      have hpeers : Agree T v w := hagree.note_stranger hT _ srcIp srcPort
      set m : Network := ({ n.put v with pollRequested := _ } : Network).bufferFrame p.frame with hm
      have hbox : ({ h₁ with boxes := h₁.boxes.insert net m } : Handle) =
          h₁.put net m.waiting := by
        rw [Handle.put, modifyBox, hget]
        rfl
      rw [hbox]
      refine .put h₁ ⟨?_, hpeers.peers⟩
      obtain ⟨q, s₁, s₂, hq₁, hq₂, hs₁, hs₂⟩ := hagree.rx
      have hrx : n.pendingRx = q ++ s₁ := hq₁
      have hmrx : m.pendingRx =
          (if pendingRxCap ≤ n.pendingRx.length then n.pendingRx.tail else n.pendingRx) ++
            [p.frame] := by
        rw [hm, Network.bufferFrame, ← hvrx]
        rfl
      have hframe : T p.frame.entity = true := hT
      show ∃ p' s₁' s₂', m.pendingRx = p' ++ s₁' ∧ _
      rw [hmrx]
      rcases hclear hk with hlt | hall
      · rw [if_neg (not_le.mpr hlt)]
        refine ⟨q, s₁ ++ [p.frame], s₂, ?_, hq₂, ?_, hs₂⟩
        · rw [hrx, List.append_assoc]
        · intro f hf
          rcases List.mem_append.mp hf with hf | hf
          · exact hs₁ f hf
          · rw [List.mem_singleton.mp hf]
            exact hframe
      · refine ⟨[], _, w.rx, rfl, rfl, ?_, ?_⟩
        · intro f hf
          rcases List.mem_append.mp hf with hf | hf
          · split_ifs at hf
            · exact hall f (List.mem_of_mem_tail hf)
            · exact hall f hf
          · rw [List.mem_singleton.mp hf]
            exact hframe
        · intro f hf
          rw [hq₂] at hf
          rcases List.mem_append.mp hf with hf | hf
          · exact hall f (by rw [hrx]; exact List.mem_append_left _ hf)
          · exact hs₂ f hf

end Handle

/-- A message of a stranger at one box. -/
def Turn.Strange (T : String → Bool) (net : ℕ) : Turn → Prop
  | .recv k p _ _ _ => k = net ∧ p.kind = kindMsg ∧ T p.entity = true
  | _ => False

namespace Handle

variable {T : String → Bool} {net : ℕ} {h h₁ h₂ : Handle} {t : Turn}

theorem Sim.turn (hs : h₁.Sim T net h₂) (hn₁ : h₁.Numbered) (hn₂ : h₂.Numbered)
    (hu : h₁.Unmet T net) (ht : ¬t.Strange T net) (hc₁ : h₁.Clear T net t)
    (hc₂ : h₂.Clear T net t) (hu₁ : (h₁.turn t).Unmet T net) (hu₂ : (h₂.turn t).Unmet T net) :
    (h₁.turn t).Sim T net (h₂.turn t) := by
  cases t with
  | whole e he => exact hs.of_put (g := fun h => h.step e) fun hget w => put_step hn₁ hget w he
  | recv k p srcIp srcPort now =>
    by_cases hk : k = net
    · subst hk
      obtain ⟨w, rfl, hagree⟩ := hs
      cases hget : h₁.boxes.get? k with
      | none =>
        rw [put_of_none hget]
        exact .refl _
      | some n =>
        have hget₂ := get?_put_self hget w
        cases hudp : n.udp with
        | false =>
          simp only [Handle.turn]
          rw [recvDatagram_closed (Or.inr ⟨n, hget, hudp⟩),
            recvDatagram_closed (Or.inr ⟨n.put w, hget₂, hudp⟩)]
          exact .box hget (hagree n hget)
        | true =>
          have hmsg (hkind : p.kind = kindMsg) : T p.entity = false := by
            rw [Bool.eq_false_iff]
            exact fun hT => ht ⟨rfl, hkind, hT⟩
          exact .recv_open hget hudp (hagree n hget) hu hmsg (hc₁ rfl n hget hudp)
            (hc₂ rfl (n.put w) hget₂ hudp) now
    · exact hs.of_put (g := fun h => h.recvDatagram k p srcIp srcPort now)
        fun _ w => put_recvDatagram_ne h₁ w hk p srcIp srcPort now
  | flush k now =>
    by_cases hk : k = net
    · subst hk
      exact hs.flush hu now
    · exact hs.of_put (g := fun h => h.flushPendingRx k now)
        fun _ w => put_flushPendingRx_ne h₁ w hk now
  | drainPeers k member =>
    by_cases hk : k = net
    · subst hk
      exact hs.drainPeers hn₁ hn₂ member hu₁ hu₂
    · refine hs.of_put (g := fun h => h.drainPendingPeers k member) fun _ w => ?_
      unfold drainPendingPeers
      rw [get?_put_ne h₁ w hk, put_drainPeersLoop_ne member _ h₁ w hk]

theorem Sim.stranger_turn (hs : h₁.Sim T net h₂) (hu : h₁.Unmet T net) (ht : t.Strange T net)
    (hc : h₁.Clear T net t) : (h₁.turn t).Sim T net h₂ := by
  cases t with
  | recv k p srcIp srcPort now =>
    obtain ⟨rfl, hk, hT⟩ := ht
    exact hs.stranger hu hk hT hc
  | whole e he => cases ht
  | flush k now => cases ht
  | drainPeers k member => cases ht

end Handle

namespace Titled

/-- One turn of the shim, with the log of its exchanges. -/
def turn (s : Titled) (t : Turn) : Titled :=
  ⟨s.handle.turn t, s.log ++ match t with
    | .whole e _ => entry s.handle e
    | _ => []⟩

variable {T : String → Bool} {net : ℕ} {s s' : Titled} {t : Turn}

theorem entry_put (h : Handle) (w : Waiting) (e : ShimEvent) : entry (h.put net w) e = entry h e := by
  cases e with
  | start now =>
    have hout : (h.put net w).batchOutstanding = h.batchOutstanding := by rw [Handle.put_eq]
    have hbatch : ((h.put net w).startProcessing now).inFlight =
        (h.startProcessing now).inFlight := by rw [Handle.put_startProcessing, Handle.put_eq]
    simp only [entry, hout, hbatch]
  | _ => rfl

/-- The two look the same to the title, up to strangers in one box. -/
structure Same (T : String → Bool) (net : ℕ) (s s' : Titled) : Prop where
  numbered : s.handle.Numbered ∧ s'.handle.Numbered
  unmet : s.handle.Unmet T net ∧ s'.handle.Unmet T net
  sim : s.handle.Sim T net s'.handle
  log : s'.log = s.log

theorem Same.symm (hs : Same T net s s') : Same T net s' s :=
  ⟨hs.numbered.symm, hs.unmet.symm, hs.sim.symm, hs.log.symm⟩

/-- The strangers stay strangers, and nothing of theirs comes before others. -/
def Aside (T : String → Bool) (net : ℕ) (s : Titled) (t : Turn) : Prop :=
  (s.handle.turn t).Unmet T net ∧ s.handle.Clear T net t

instance (T : String → Bool) (net : ℕ) (s : Titled) (t : Turn) : Decidable (s.Aside T net t) :=
  inferInstanceAs (Decidable (_ ∧ _))

theorem Same.left (hs : Same T net s s') (ht : t.Strange T net) (ha : s.Aside T net t) :
    Same T net (s.turn t) s' := by
  refine ⟨⟨hs.numbered.1.turn t, hs.numbered.2⟩, ⟨ha.1, hs.unmet.2⟩, ?_, ?_⟩
  · exact hs.sim.stranger_turn hs.unmet.1 ht ha.2
  · cases t with
    | recv k p srcIp srcPort now =>
      rw [hs.log]
      exact (List.append_nil _).symm
    | whole e he => cases ht
    | flush k now => cases ht
    | drainPeers k member => cases ht

theorem Same.both (hs : Same T net s s') (ht : ¬t.Strange T net) (ha : s.Aside T net t)
    (ha' : s'.Aside T net t) : Same T net (s.turn t) (s'.turn t) := by
  refine ⟨⟨hs.numbered.1.turn t, hs.numbered.2.turn t⟩, ⟨ha.1, ha'.1⟩, ?_, ?_⟩
  · exact hs.sim.turn hs.numbered.1 hs.numbered.2 hs.unmet.1 ht ha.2 ha'.2 ha.1 ha'.1
  · obtain ⟨w, hput, -⟩ := hs.sim
    show s'.log ++ _ = s.log ++ _
    rw [hs.log]
    cases t with
    | whole e he => simp only [hput, entry_put]
    | _ => rfl

/-- Two runs that differ only in messages of strangers at one box. As long as these stay aside,
the title sees the same changes in the same order, and all endpoints are the same. -/
theorem strangers_unheard {T : String → Bool} {net : ℕ} {ts us : List Turn}
    (hdiff : Differ (Turn.Strange T net) ts us) (hts : Along turn (Aside T net) fresh ts)
    (hus : Along turn (Aside T net) fresh us) :
    (run turn fresh us).stream = (run turn fresh ts).stream ∧
      ∀ k, ((run turn fresh us).handle.boxes.get? k).map Network.remotes =
        ((run turn fresh ts).handle.boxes.get? k).map Network.remotes := by
  have hnew : fresh.handle.Numbered ∧ fresh.handle.Unmet T net := by
    constructor
    · intro _ _ hget
      simp [fresh, Handle.new] at hget
    · rintro eid ⟨n, hget, -⟩
      simp [fresh, Handle.new] at hget
  have hstart : Same T net fresh fresh := ⟨⟨hnew.1, hnew.1⟩, ⟨hnew.2, hnew.2⟩, .refl _, rfl⟩
  have hboth (s s' : Titled) (t : Turn) (hs : Same T net s s') (ha : s.Aside T net t)
      (ha' : s'.Aside T net t) : Same T net (s.turn t) (s'.turn t) := by
    by_cases ht : t.Strange T net
    · exact ((hs.left ht ha).symm.left ht ha').symm
    · exact hs.both ht ha ha'
  have hright (s s' : Titled) (t : Turn) (ht : t.Strange T net) (hs : Same T net s s')
      (ha' : s'.Aside T net t) : Same T net s (s'.turn t) := (hs.symm.left ht ha').symm
  have hsame := run_related hboth (fun _ _ _ ht hs ha => hs.left ht ha) hright hdiff hstart hts hus
  obtain ⟨w, hput, -⟩ := hsame.sim
  constructor
  · unfold stream
    rw [hsame.log, hput, Handle.put_eq]
  · intro k
    rw [hput]
    exact Handle.put_read _ net w k fun n => n.put_remotes w

def stranger (eid : String) : Bool := eid == "stranger"

def guestMessage : Turn := .recv 1 ⟨"guest", kindMsg, 3, 1, 0, [7]⟩ "10.0.0.2" 27015 2

/-- A stranger's message behind the guest's. -/
theorem strangers_unheard_behind :
    let ts := Handle.wholes Receiving.meetRemote ++ [guestMessage, Handle.strangerMessage 0]
    let us := Handle.wholes Receiving.meetRemote ++ [guestMessage]
    type21 1 "guest" ⟨[7], 3⟩ ∈ (run turn fresh ts).stream ∧
      (run turn fresh us).stream = (run turn fresh ts).stream := by
  intro ts us
  have hdiff : Differ (Turn.Strange stranger 1) ts us :=
    .prepend _ (.both _ (.left ⟨rfl, rfl, rfl⟩ .nil))
  refine ⟨by decide +kernel, ?_⟩
  exact (strangers_unheard hdiff (by decide +kernel) (by decide +kernel)).1

/-- A stranger's message stops the guest's messages: the endpoint exists and its announcement was
delivered, but the queue of waiting frames is not empty any more. -/
theorem stranger_stops_guest :
    let ts := Handle.wholes Receiving.meetRemote ++ [Handle.strangerMessage 0, guestMessage]
    let us := Handle.wholes Receiving.meetRemote ++ [guestMessage]
    Differ (Turn.Strange stranger 1) ts us ∧
      Along turn (fun s t => (s.handle.turn t).Unmet stranger 1) fresh ts ∧
      Along turn (fun s t => (s.handle.turn t).Unmet stranger 1) fresh us ∧
      ((run turn fresh ts).handle.boxes.get? 1).map (fun n => n.ready "guest") = some true ∧
      type21 1 "guest" ⟨[7], 3⟩ ∉ (run turn fresh ts).stream ∧
      type21 1 "guest" ⟨[7], 3⟩ ∈ (run turn fresh us).stream := by
  refine ⟨.prepend _ (.left ⟨rfl, rfl, rfl⟩ (.both _ .nil)), ?_, ?_, ?_, ?_, ?_⟩
  all_goals decide +kernel

end Titled

end GbfrLan.Party
