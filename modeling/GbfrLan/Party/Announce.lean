import GbfrLan.Party.Delivery

/-!
# A remote is announced before its messages

A type-12 change tells the title about a remote endpoint and a type-21 change brings one of its
messages. The queue keeps the two in order, a batch ends behind a type-12, and the next batch
waits for the Finish of the last one. So a message comes in a later batch than the announcement
of its remote, whatever the delivered flag of the network says and whether or not the hold has
timed out.
-/
namespace GbfrLan.Party
open Lib

/-- A remote endpoint: its box and its entity id. -/
abbrev Remote := ℕ × String

namespace StateChange

/-- The type-12 change about a remote. -/
def Announces (sc : StateChange) (r : Remote) : Prop :=
  sc.ty = 12 ∧ sc.network = some r.1 ∧ sc.endpoint = some r.2

/-- A type-21 change with a message of the remote. -/
def Carries (sc : StateChange) (r : Remote) : Prop :=
  sc.ty = 21 ∧ sc.network = some r.1 ∧ sc.endpoint = some r.2

instance (sc : StateChange) (r : Remote) : Decidable (sc.Announces r) :=
  inferInstanceAs (Decidable (_ ∧ _ ∧ _))

instance (sc : StateChange) (r : Remote) : Decidable (sc.Carries r) :=
  inferInstanceAs (Decidable (_ ∧ _ ∧ _))

/-- `y` may come behind `x`: it announces no remote that `x` is already about. -/
def Follows (x y : StateChange) : Prop := ∀ r, y.Announces r → ¬x.Announces r ∧ ¬x.Carries r

theorem Follows.of_ty {x y : StateChange} (h : y.ty ≠ 12) : Follows x y :=
  fun _ hr => absurd hr.1 h

end StateChange

/-- The same remotes. -/
def Network.SameRemotes (n n' : Network) : Prop :=
  ∀ eid, n'.remotes.contains eid = n.remotes.contains eid

namespace Network

variable (n : Network)

theorem SameRemotes.trans {n n₁ n₂ : Network} (h : n.SameRemotes n₁) (h' : n₁.SameRemotes n₂) :
    n.SameRemotes n₂ := fun eid => (h' eid).trans (h eid)

theorem modifyRemote_sameRemotes (eid : String) (f : Endpoint → Endpoint) :
    n.SameRemotes (n.modifyRemote eid f) := by
  intro id
  unfold OrdMap.contains
  rw [get?_modifyRemote]
  split_ifs
  · exact Option.isSome_map
  · rfl

theorem contains_mapVals (f : String → Endpoint → Endpoint) (eid : String) :
    (n.remotes.mapVals f).contains eid = n.remotes.contains eid := by
  unfold OrdMap.contains
  rw [OrdMap.get?_mapVals]
  exact Option.isSome_map

theorem noteSource_sameRemotes (eid srcIp : String) (srcPort : UInt16) :
    n.SameRemotes (n.noteSource eid srcIp srcPort) := by
  unfold noteSource
  split_ifs with hon hknown
  · rcases n.ensureRemote_cases eid srcIp srcPort false with heq | heq | ⟨hnone, -⟩
    · rw [heq]
      exact fun _ => rfl
    · rw [heq]
      exact n.modifyRemote_sameRemotes eid _
    · -- A known peer is not created again.
      rw [OrdMap.contains, hnone] at hknown
      cases hknown
  · unfold queuePendingPeer
    split_ifs <;> exact fun _ => rfl
  · exact fun _ => rfl

theorem applyAck_sameRemotes (eid : String) (ack : UInt32) :
    n.SameRemotes (n.applyAck eid ack) := by
  unfold applyAck
  split_ifs
  · exact n.modifyRemote_sameRemotes eid _
  · exact fun _ => rfl

theorem receive_sameRemotes (p : Packet) (srcIp : String) (srcPort : UInt16) :
    n.SameRemotes (n.receive p srcIp srcPort).1 := by
  have hnoted : n.SameRemotes ((n.noteSource p.entity srcIp srcPort).applyAck p.entity p.ack) :=
    (n.noteSource_sameRemotes p.entity srcIp srcPort).trans (applyAck_sameRemotes _ _ _)
  obtain ⟨poll, heq | ⟨-, heq⟩ | ⟨-, heq⟩ | ⟨-, -, heq⟩⟩ := n.receive_cases p srcIp srcPort
  all_goals
    rw [heq]
    exact hnoted

theorem onMessage_sameRemotes (f : PendingRx) (now : ℕ) :
    n.SameRemotes (n.onMessage f now).1 := by
  unfold onMessage
  split
  · exact n.modifyRemote_sameRemotes f.entity _
  · exact fun _ => rfl

theorem sendUdpAll_sameRemotes (kind : UInt8) (payload : Bytes) (options : UInt32) (now : ℕ) :
    n.SameRemotes (n.sendUdpAll kind payload options now).1 := by
  unfold sendUdpAll
  split_ifs
  · exact fun _ => rfl
  · exact n.contains_mapVals _

theorem reliableService_sameRemotes (now : ℕ) : n.SameRemotes (n.reliableService now).1 := by
  unfold reliableService
  split_ifs
  · exact fun _ => rfl
  · exact n.contains_mapVals _

theorem noteHold_sameRemotes (now : ℕ) : n.SameRemotes (n.noteHold now).1 := by
  unfold noteHold
  split_ifs <;> exact fun _ => rfl

end Network

namespace Handle

def Registered (h : Handle) (r : Remote) : Prop :=
  ∃ n, h.boxes.get? r.1 = some n ∧ n.remotes.contains r.2 = true

/-- Every box is older than the next epoch. -/
def Numbered (h : Handle) : Prop := ∀ net n, h.boxes.get? net = some n → net < h.nextEpoch

/-- The same remotes in the same boxes. -/
structure Alike (h h' : Handle) : Prop where
  registered : ∀ r, h'.Registered r ↔ h.Registered r
  numbered : h.Numbered → h'.Numbered

variable {h h' h₁ h₂ : Handle} {new new' : List StateChange}

theorem Alike.refl (h : Handle) : h.Alike h := ⟨fun _ => Iff.rfl, id⟩

theorem Alike.trans (ha : h.Alike h₁) (hb : h₁.Alike h₂) : h.Alike h₂ :=
  ⟨fun r => (hb.registered r).trans (ha.registered r), fun hn => hb.numbered (ha.numbered hn)⟩

theorem Alike.of_eq (hboxes : h'.boxes = h.boxes) (hepoch : h'.nextEpoch = h.nextEpoch) :
    h.Alike h' := by
  refine ⟨fun r => ?_, fun hn => ?_⟩
  · rw [Registered, Registered, hboxes]
  · rw [Numbered, hboxes, hepoch]
    exact hn

theorem Alike.setBox {net : ℕ} {n n' : Network} (hget : h.boxes.get? net = some n)
    (hsame : n.SameRemotes n') : h.Alike { h with boxes := h.boxes.insert net n' } := by
  constructor
  · intro r
    unfold Registered
    by_cases hr : r.1 = net
    · subst hr
      simp [hget, hsame r.2]
    · simp [hr]
  · intro hn net' m hm
    by_cases hr : net' = net
    · rw [hr]
      exact hn net n hget
    · exact hn net' m (by simpa [hr] using hm)

theorem Alike.modifyBox (h : Handle) (net : ℕ) {f : Network → Network}
    (hf : ∀ n : Network, n.SameRemotes (f n)) : h.Alike (h.modifyBox net f) := by
  unfold Handle.modifyBox
  split
  · rename_i n hget
    exact .setBox hget (hf n)
  · exact .refl h

theorem Alike.foldl_modifyBox (nets : List ℕ) (h : Handle) {f : Network → Network}
    (hf : ∀ n : Network, n.SameRemotes (f n)) :
    h.Alike (nets.foldl (fun h net => h.modifyBox net f) h) := by
  induction nets generalizing h with
  | nil => exact .refl h
  | cons net nets ih => exact (Alike.modifyBox h net hf).trans (ih (h.modifyBox net f))

/-! ### Events that append to the queue -/

/-- The queue has grown at its end. New announcements are about remotes that were not
registered, and new messages come from registered ones. -/
structure Extends (h h' : Handle) (new : List StateChange) : Prop where
  pending : h'.pending = h.pending ++ new
  outstanding : h'.batchOutstanding = h.batchOutstanding
  numbered : h'.Numbered
  registered : ∀ r, h'.Registered r ↔ h.Registered r ∨ ∃ sc ∈ new, sc.Announces r
  announced : ∀ r, ∀ sc ∈ new, sc.Announces r → ¬h.Registered r
  carried : ∀ r, ∀ sc ∈ new, sc.Carries r → h'.Registered r
  apart : new.Pairwise StateChange.Follows

theorem Extends.trans (ha : h.Extends h₁ new) (hb : h₁.Extends h₂ new') :
    h.Extends h₂ (new ++ new') where
  pending := by rw [hb.pending, ha.pending, List.append_assoc]
  outstanding := hb.outstanding.trans ha.outstanding
  numbered := hb.numbered
  registered r := by
    rw [hb.registered, ha.registered, or_assoc]
    simp only [List.mem_append, or_and_right, exists_or]
  announced r sc hsc hr hold := by
    rcases List.mem_append.mp hsc with hsc | hsc
    · exact ha.announced r sc hsc hr hold
    · exact hb.announced r sc hsc hr ((ha.registered r).mpr (Or.inl hold))
  carried r sc hsc hr := by
    rcases List.mem_append.mp hsc with hsc | hsc
    · exact (hb.registered r).mpr (Or.inl (ha.carried r sc hsc hr))
    · exact hb.carried r sc hsc hr
  apart := by
    rw [List.pairwise_append]
    refine ⟨ha.apart, hb.apart, ?_⟩
    intro x hx y hy r hr
    have hnot : ¬h₁.Registered r := hb.announced r y hy hr
    constructor
    · intro hann
      exact hnot ((ha.registered r).mpr (Or.inr ⟨x, hx, hann⟩))
    · intro hcar
      exact hnot (ha.carried r x hx hcar)

theorem Extends.alike (hn : h.Numbered) (ha : h.Alike h') (hpending : h'.pending = h.pending)
    (hout : h'.batchOutstanding = h.batchOutstanding) : h.Extends h' [] where
  pending := by rw [hpending, List.append_nil]
  outstanding := hout
  numbered := ha.numbered hn
  registered r := by simp [ha.registered r]
  announced := by simp
  carried := by simp
  apart := List.Pairwise.nil

/-- One new change. -/
theorem Extends.one {sc : StateChange} (hpending : h'.pending = h.pending ++ [sc])
    (hout : h'.batchOutstanding = h.batchOutstanding) (hn : h'.Numbered)
    (hreg : ∀ r, h'.Registered r ↔ h.Registered r ∨ sc.Announces r)
    (hann : ∀ r, sc.Announces r → ¬h.Registered r)
    (hcar : ∀ r, sc.Carries r → h'.Registered r) : h.Extends h' [sc] where
  pending := hpending
  outstanding := hout
  numbered := hn
  registered r := by
    simp only [List.mem_singleton, exists_eq_left]
    exact hreg r
  announced r sc' hsc := by
    rw [List.mem_singleton.mp hsc]
    exact hann r
  carried r sc' hsc := by
    rw [List.mem_singleton.mp hsc]
    exact hcar r
  apart := List.pairwise_singleton _ _

/-- A change of another type. -/
theorem Extends.queueSc (hn : h.Numbered) {sc : StateChange} (h12 : sc.ty ≠ 12)
    (h21 : sc.ty ≠ 21) : h.Extends (h.queueSc (some sc)) [sc] := by
  have hpush : h.queueSc (some sc) = h.push sc := by simp [Handle.queueSc, h21]
  have hnot (r : Remote) : ¬sc.Announces r := fun hr => h12 hr.1
  rw [hpush]
  refine .one rfl rfl hn (fun r => ?_) (fun r hr => absurd hr (hnot r)) ?_
  · exact (or_iff_left (hnot r)).symm
  · exact fun r hr => absurd hr.1 h21

theorem Extends.control (ha : h.Extends h₁ new) (sc : StateChange) (h12 : sc.ty ≠ 12)
    (h21 : sc.ty ≠ 21) : ∃ new', h.Extends (h₁.queueSc (some sc)) new' :=
  ⟨new ++ [sc], ha.trans (.queueSc ha.numbered h12 h21)⟩

theorem modifyBox_extends (hn : h.Numbered) (net : ℕ) {f : Network → Network}
    (hf : ∀ n : Network, n.SameRemotes (f n)) : h.Extends (h.modifyBox net f) [] := by
  refine .alike hn (.modifyBox h net hf) (modifyBox_pending h net f) ?_
  unfold modifyBox
  split <;> rfl

theorem deliverType21_extends (hn : h.Numbered) {net : ℕ} {eid : String}
    (hr : h.Registered (net, eid)) (m : RecvMsg) :
    ∃ new, h.Extends (h.deliverType21 net eid m) new := by
  by_cases hlt : h.pending.length < queueCap
  · have hpush : h.deliverType21 net eid m = h.push (type21 net eid m) := by
      simp [deliverType21, pendingCapDrop, Handle.queueSc, type21, hlt]
    have hnot (r : Remote) : ¬(type21 net eid m).Announces r := by
      simp [StateChange.Announces, type21]
    rw [hpush]
    refine ⟨_, .one rfl rfl hn (fun r => ?_) (fun r hann => absurd hann (hnot r)) ?_⟩
    · exact (or_iff_left (hnot r)).symm
    · rintro r ⟨-, hnet, heid⟩
      obtain rfl : net = r.1 := Option.some.inj hnet
      obtain rfl : eid = r.2 := Option.some.inj heid
      exact hr
  · refine ⟨[], .alike hn (.of_eq ?_ ?_) ?_ ?_⟩
    all_goals simp [deliverType21, pendingCapDrop, hlt]

theorem foldl_deliverType21_extends (hn : h.Numbered) {net : ℕ} {eid : String}
    (hr : h.Registered (net, eid)) (ms : List RecvMsg) :
    ∃ new, h.Extends (ms.foldl (fun h m => h.deliverType21 net eid m) h) new := by
  induction ms generalizing h with
  | nil => exact ⟨[], .alike hn (.refl h) rfl rfl⟩
  | cons m ms ih =>
    obtain ⟨new, hone⟩ := deliverType21_extends hn hr m
    obtain ⟨new', hrest⟩ := ih hone.numbered ((hone.registered _).mpr (Or.inl hr))
    exact ⟨new ++ new', hone.trans hrest⟩

/-- A frame releases messages only when its remote is registered. -/
theorem deliverReliable_extends (hn : h.Numbered) (net : ℕ) (f : PendingRx) (now : ℕ) :
    ∃ new, h.Extends (h.deliverReliable net f now) new := by
  unfold deliverReliable
  split
  · exact ⟨[], .alike hn (.refl h) rfl rfl⟩
  · rename_i n hget
    have hset : h.Extends { h with boxes := h.boxes.insert net (n.onMessage f now).1 } [] :=
      .alike hn (.setBox hget (n.onMessage_sameRemotes f now)) rfl rfl
    cases hent : n.remotes.get? f.entity with
    | none =>
      have hreleased : (n.onMessage f now).2.released = [] := by
        simp [Network.onMessage, hent, RecvOutcome.released]
      refine ⟨[], ?_⟩
      simp only [hreleased, List.foldl_nil]
      exact hset
    | some e =>
      have hr : h.Registered (net, f.entity) := ⟨n, hget, by rw [OrdMap.contains, hent]; rfl⟩
      obtain ⟨new, hmsgs⟩ := foldl_deliverType21_extends hset.numbered
        ((hset.registered _).mpr (Or.inl hr)) (n.onMessage f now).2.released
      exact ⟨[] ++ new, hset.trans hmsgs⟩

theorem ensureRemote_extends (hn : h.Numbered) (net : ℕ) (eid ip : String) (udpPort : UInt16)
    (member : Bool) : ∃ new, h.Extends (h.ensureRemote net eid ip udpPort member) new := by
  unfold ensureRemote
  split
  · exact ⟨[], .alike hn (.refl h) rfl rfl⟩
  · rename_i n hget
    rcases n.ensureRemote_cases eid ip udpPort member with heq | heq | ⟨hnone, heq⟩
    · rw [heq]
      exact ⟨[], .alike hn (.setBox hget fun _ => rfl) rfl rfl⟩
    · rw [heq]
      exact ⟨[], .alike hn (.setBox hget (n.modifyRemote_sameRemotes eid _)) rfl rfl⟩
    · rw [heq]
      set n' : Network := { n with remotes := n.remotes.insert eid (Endpoint.new ip udpPort) }
      have hown (r : Remote) : (controlSc 12 net (some eid)).Announces r ↔ r = (net, eid) := by
        simp [StateChange.Announces, controlSc, Prod.ext_iff, eq_comm]
      have hreg (r : Remote) :
          ({ h with boxes := h.boxes.insert net n' } : Handle).Registered r ↔
            h.Registered r ∨ r = (net, eid) := by
        obtain ⟨net', eid'⟩ := r
        by_cases hnet : net' = net
        · subst hnet
          simp [Registered, hget, n', OrdMap.contains, apply_ite, or_comm]
        · simp [Registered, hnet]
      refine ⟨_, .one rfl rfl ?_ (fun r => ?_) (fun r hann => ?_) ?_⟩
      · intro net' m hm
        by_cases hnet : net' = net
        · rw [hnet]
          exact hn net n hget
        · exact hn net' m (by simpa [hnet, Handle.queueSc, push, controlSc] using hm)
      · rw [hown r]
        exact hreg r
      · rw [(hown r).mp hann]
        rintro ⟨m, hm, hmem⟩
        obtain rfl : n = m := Option.some.inj (hget.symm.trans hm)
        rw [OrdMap.contains, hnone] at hmem
        cases hmem
      · exact fun r hcar => absurd hcar.1 (by simp [controlSc])

theorem emitConnectCompleted_extends (hn : h.Numbered) (net : ℕ) :
    ∃ new, h.Extends (h.emitConnectCompleted net) new := by
  unfold emitConnectCompleted
  split
  · exact ⟨[], .alike hn (.refl h) rfl rfl⟩
  · rename_i n hget
    split_ifs
    · exact ⟨[], .alike hn (.refl h) rfl rfl⟩
    · have hset : h.Extends
          { h with boxes := h.boxes.insert net { n with connectCompleted := true } } [] :=
        .alike hn (.setBox hget fun _ => rfl) rfl rfl
      exact ⟨_, hset.trans (.queueSc hset.numbered (by simp [controlSc]) (by simp [controlSc]))⟩

theorem addBox_extends (hn : h.Numbered) (id : String) (user : Option String) :
    h.Extends (h.addBox id user) [] := by
  refine .alike hn ⟨fun r => ?_, ?_⟩ rfl rfl
  · unfold Registered addBox
    by_cases hnet : r.1 = h.nextEpoch
    · have hnone : h.boxes.get? r.1 = none := by
        cases hget : h.boxes.get? r.1 with
        | none => rfl
        | some n => exact absurd (hn r.1 n hget) (by omega)
      simp [hnet ▸ hnone, hnet, Network.new, OrdMap.contains]
    · simp [hnet]
  · intro _ net n hget
    show net < h.nextEpoch + 1
    by_cases hnet : net = h.nextEpoch
    · omega
    · have hold : h.boxes.get? net = some n := by simpa [addBox, hnet] using hget
      have := hn net n hold
      omega

/-- The changes that the rest of the shim queues are of other types. -/
def FromShim : ShimEvent → Prop
  | .queueSc sc => sc.ty ≠ 12 ∧ sc.ty ≠ 21
  | _ => True

instance : ∀ e, Decidable (FromShim e)
  | .queueSc sc => inferInstanceAs (Decidable (sc.ty ≠ 12 ∧ sc.ty ≠ 21))
  | .start _ | .finish _ _ | .connect _ _ | .createNetwork _ _ | .authenticate _
  | .createEndpoint _ _ | .leave _ | .ensureRemote _ _ _ _ _ | .drainPeer _ _ | .recv _ _ _ _ _
  | .replay _ _ | .send _ _ _ _ _ | .service _ _ => inferInstanceAs (Decidable True)

theorem recv_extends (hn : h.Numbered) (net : ℕ) (p : Packet) (srcIp : String) (srcPort : UInt16)
    (now : ℕ) : ∃ new, h.Extends (h.recv net p srcIp srcPort now) new := by
  unfold recv
  split
  · exact ⟨[], .alike hn (.refl h) rfl rfl⟩
  · rename_i n hget
    have hset : h.Extends
        { h with boxes := h.boxes.insert net (n.receive p srcIp srcPort).1 } [] :=
      .alike hn (.setBox hget (n.receive_sameRemotes p srcIp srcPort)) rfl rfl
    simp only
    split_ifs
    · exact ⟨[], .alike hn (.refl h) rfl rfl⟩
    · split
      · rename_i f _
        obtain ⟨new, hdeliver⟩ := deliverReliable_extends hset.numbered net f now
        exact ⟨_, hset.trans hdeliver⟩
      · exact ⟨[], hset⟩

theorem replay_extends (hn : h.Numbered) (net now : ℕ) :
    ∃ new, h.Extends (h.replay net now) new := by
  unfold replay
  split
  · exact ⟨[], .alike hn (.refl h) rfl rfl⟩
  · rename_i f n' hnext
    obtain ⟨n, hget, hframe⟩ := Option.bind_eq_some_iff.mp hnext
    have hsame : n.SameRemotes n' := by
      unfold Network.nextFrame at hframe
      split at hframe
      · cases hframe
      · split_ifs at hframe
        cases hframe
        exact fun _ => rfl
    have hset : h.Extends { h with boxes := h.boxes.insert net n' } [] :=
      .alike hn (.setBox hget hsame) rfl rfl
    obtain ⟨new, hdeliver⟩ := deliverReliable_extends hset.numbered net f now
    exact ⟨_, hset.trans hdeliver⟩

theorem drainPeer_extends (hn : h.Numbered) (net : ℕ) (member : Bool) :
    ∃ new, h.Extends (h.drainPeer net member) new := by
  unfold drainPeer
  split
  · exact ⟨[], .alike hn (.refl h) rfl rfl⟩
  · rename_i n hget
    split
    · exact ⟨[], .alike hn (.refl h) rfl rfl⟩
    · rename_i eid ip udpPort rest _
      have hset : h.Extends { h with boxes := h.boxes.insert net { n with pendingPeers := rest } } [] :=
        .alike hn (.setBox hget fun _ => rfl) rfl rfl
      obtain ⟨new, hremote⟩ := ensureRemote_extends hset.numbered net eid ip udpPort member
      exact ⟨_, hset.trans hremote⟩

theorem leaveNetwork_extends (hn : h.Numbered) (net : ℕ) :
    ∃ new, h.Extends (h.leaveNetwork net) new := by
  have hqueue : h.Extends (h.queueSc (some (controlSc 19 net none))) [controlSc 19 net none] :=
    .queueSc hn (by simp [controlSc]) (by simp [controlSc])
  set h₁ := h.queueSc (some (controlSc 19 net none)) with hh₁
  have hleave : h₁.Extends (if h₁.networks.contains net then h₁.modifyBox net Network.leave
      else h₁) [] := by
    split_ifs
    · exact modifyBox_extends hqueue.numbered net fun n => n.contains_mapVals _
    · exact .alike hqueue.numbered (.refl h₁) rfl rfl
  set h₂ := if h₁.networks.contains net then h₁.modifyBox net Network.leave else h₁
  have hlist : h₂.Extends { h₂ with networks := h₂.networks.filter fun x => x != net } [] :=
    .alike hleave.numbered (.of_eq rfl rfl) rfl rfl
  exact ⟨_, (hqueue.trans hleave).trans hlist⟩

theorem step_extends (hn : h.Numbered) {e : ShimEvent} (hshim : FromShim e)
    (hstart : ∀ now, e ≠ .start now) (hfinish : ∀ count changes, e ≠ .finish count changes) :
    ∃ new, h.Extends (h.step e) new := by
  cases e with
  | queueSc sc => exact ⟨_, .queueSc hn hshim.1 hshim.2⟩
  | start now => exact absurd rfl (hstart now)
  | finish count changes => exact absurd rfl (hfinish count changes)
  | connect id user =>
    show ∃ new, h.Extends (h.connectNetwork id user) new
    unfold connectNetwork
    split
    · exact emitConnectCompleted_extends hn _
    · have hadd := addBox_extends hn id user
      obtain ⟨new, hemit⟩ := emitConnectCompleted_extends hadd.numbered h.nextEpoch
      exact ⟨_, hadd.trans hemit⟩
  | createNetwork id user =>
    exact (addBox_extends hn id user).control ⟨2, none, none, 0, []⟩ (by decide) (by decide)
  | authenticate net =>
    have hlist : h.Extends (if h.networks.contains net then h
        else { h with networks := h.networks ++ [net] }) [] := by
      refine .alike hn (.of_eq ?_ ?_) ?_ ?_ <;> split_ifs <;> rfl
    exact hlist.control (controlSc 4 net none) (by simp [controlSc]) (by simp [controlSc])
  | createEndpoint net user =>
    have hset := modifyBox_extends hn net (f := fun n =>
      { n with localEndpoint := true, localUser := user }) fun _ _ => rfl
    exact hset.control (controlSc 10 net none) (by simp [controlSc]) (by simp [controlSc])
  | leave net => exact leaveNetwork_extends hn net
  | ensureRemote net eid ip udpPort member => exact ensureRemote_extends hn net eid ip udpPort member
  | drainPeer net member => exact drainPeer_extends hn net member
  | recv net p srcIp srcPort now => exact recv_extends hn net p srcIp srcPort now
  | replay net now => exact replay_extends hn net now
  | send net kind payload options now =>
    exact ⟨[], modifyBox_extends hn net fun n => n.sendUdpAll_sameRemotes kind payload options now⟩
  | service net now =>
    exact ⟨[], modifyBox_extends hn net fun n => n.reliableService_sameRemotes now⟩

theorem startProcessing_alike (h : Handle) (now : ℕ) : h.Alike (h.startProcessing now) := by
  unfold startProcessing
  split_ifs
  · exact .refl h
  · have hnote : h.Alike (h.noteType12Hold now).1 :=
      .foldl_modifyBox h.networks h fun n => n.noteHold_sameRemotes now
    exact hnote.trans (.of_eq rfl rfl)

theorem finishProcessing_alike (h : Handle) (count : ℕ)
    (changes : Option (List (Option StateChange))) :
    h.Alike (h.finishProcessing count changes) := by
  unfold finishProcessing
  cases changes with
  | none => exact .refl h
  | some changes =>
    simp only
    split_ifs
    · exact .refl h
    · have h10 (n : Network) : n.SameRemotes { n with type10Delivered := true } := fun _ => rfl
      have h12 (n : Network) : n.SameRemotes { n with type12Delivered := true } := fun _ => rfl
      have hmark : h.Alike (h.markDelivered (returned count changes)) :=
        (Alike.foldl_modifyBox _ h h10).trans (.foldl_modifyBox _ _ h12)
      exact hmark.trans (.of_eq rfl rfl)

/-! ### The drain loop -/

/-- A change that overtakes messages still follows what is before it. -/
theorem pairwise_overtake {p : StateChange} {l d r : List StateChange}
    (hd : ∀ sc ∈ d, sc.isMessage = true) (h : (l ++ (d ++ p :: r)).Pairwise StateChange.Follows) :
    (l ++ [p] ++ (d ++ r)).Pairwise StateChange.Follows := by
  have hperm : l ++ [p] ++ (d ++ r) = l ++ (p :: d ++ r) := by simp
  rw [hperm]
  rw [List.pairwise_append] at h ⊢
  obtain ⟨hl, hrest, hcross⟩ := h
  rw [List.pairwise_append] at hrest
  obtain ⟨hdd, hpr, hdr⟩ := hrest
  rw [List.pairwise_cons] at hpr
  refine ⟨hl, ?_, ?_⟩
  · rw [List.cons_append, List.pairwise_cons, List.pairwise_append]
    refine ⟨?_, hdd, hpr.2, fun x hx y hy => hdr x hx y (List.mem_cons_of_mem p hy)⟩
    intro y hy
    rcases List.mem_append.mp hy with hy | hy
    · apply StateChange.Follows.of_ty
      have hmsg := hd y hy
      intro h12
      simp [StateChange.isMessage, h12] at hmsg
    · exact hpr.1 y hy
  · intro x hx y hy
    apply hcross x hx
    simp only [List.cons_append, List.mem_cons, List.mem_append] at hy ⊢
    tauto

theorem drain_pairwise {hold : Bool} {inFlight deferred : List StateChange}
    (pending : List StateChange) (handed : Counts) (capHits : ℕ)
    (h : Draining hold inFlight deferred)
    (hpair : (inFlight ++ (deferred ++ pending)).Pairwise StateChange.Follows) :
    let d := drain hold pending inFlight deferred handed capHits
    (d.inFlight ++ (d.deferred ++ d.pending)).Pairwise StateChange.Follows := by
  induction pending generalizing inFlight deferred handed capHits with
  | nil => exact hpair
  | cons p rest ih =>
    unfold drain
    split_ifs with hcap hdefer h12 hone
    · exact hpair
    · have hd : p.isMessage = true ∧ hold = true := by
        simpa [StateChange.isMessage, h.any12] using hdefer
      exact ih handed capHits (h.defer hd.2 hd.1) (by simpa using hpair)
    · exact pairwise_overtake h.messages hpair
    · simp [diagOneMsgPerBatch] at hone
    · have hp : hold = true → p.isMessage = false := by
        intro hhold
        simpa [StateChange.isMessage, hhold] using hdefer
      exact ih (handed.bump p.ty) capHits (h.take (by omega) (by simpa using h12) hp)
        (pairwise_overtake h.messages hpair)

end Handle

/-- What passes between the pump and the title. -/
inductive Exchange where
  | batch (b : List StateChange)
  | finished
  deriving DecidableEq

def Exchange.changes : Exchange → List StateChange
  | .batch b => b
  | .finished => []

/-- The shim with the log of its exchanges with the title. -/
structure Titled where
  handle : Handle
  log : List Exchange

namespace Titled

def fresh : Titled := ⟨Handle.new, []⟩

/-- A Start with a batch outstanding returns that batch again, and adds nothing. -/
def entry (h : Handle) : ShimEvent → List Exchange
  | .start now =>
      if h.batchOutstanding || (h.startProcessing now).inFlight.isEmpty then []
      else [.batch (h.startProcessing now).inFlight]
  | .finish count changes => if changes.isSome && count != 0 then [.finished] else []
  | _ => []

def step (s : Titled) (e : ShimEvent) : Titled := ⟨s.handle.step e, s.log ++ entry s.handle e⟩

/-- Everything handed out, and what is still in the queue. -/
def stream (s : Titled) : List StateChange := s.log.flatMap Exchange.changes ++ s.handle.pending

/-- The remote was announced in a batch that the title has finished. -/
def Announced (log : List Exchange) (r : Remote) : Prop :=
  ∃ pre b post, log = pre ++ .batch b :: post ∧ .finished ∈ post ∧ ∃ sc ∈ b, sc.Announces r

structure Sound (s : Titled) : Prop where
  numbered : s.handle.Numbered
  order : s.stream.Pairwise StateChange.Follows
  registered : ∀ r, s.handle.Registered r ↔ ∃ sc ∈ s.stream, sc.Announces r
  carried : ∀ r, ∀ sc ∈ s.stream, sc.Carries r → s.handle.Registered r
  closed : s.handle.batchOutstanding = false →
    ∀ pre b post, s.log = pre ++ .batch b :: post → .finished ∈ post
  last : ∀ b, .batch b ∈ s.log → ∀ sc ∈ b.dropLast, sc.ty ≠ 12
  ahead : ∀ pre b post, s.log = pre ++ .batch b :: post →
    ∀ r, ∀ sc ∈ b, sc.Carries r → Announced pre r

theorem sound_fresh : Sound fresh where
  numbered _ _ hget := by cases hget
  order := List.Pairwise.nil
  registered r := by simp [Handle.Registered, fresh, Handle.new, stream]
  carried r sc hsc := by cases hsc
  closed _ pre b post h := by simp [fresh] at h
  last b hb := by cases hb
  ahead pre b post h := by simp [fresh] at h

variable {s : Titled}

theorem Sound.extends (hs : s.Sound) {h' : Handle} {new : List StateChange}
    (hext : s.handle.Extends h' new) : Sound ⟨h', s.log⟩ := by
  have hstream : (⟨h', s.log⟩ : Titled).stream = s.stream ++ new := by
    simp [stream, hext.pending]
  refine ⟨hext.numbered, ?_, ?_, ?_, ?_, hs.last, hs.ahead⟩
  · rw [hstream, List.pairwise_append]
    refine ⟨hs.order, hext.apart, ?_⟩
    intro x hx y hy r hr
    have hnot : ¬s.handle.Registered r := hext.announced r y hy hr
    constructor
    · exact fun hann => hnot ((hs.registered r).mpr ⟨x, hx, hann⟩)
    · exact fun hcar => hnot (hs.carried r x hx hcar)
  · intro r
    rw [hstream, hext.registered r, hs.registered r]
    simp only [List.mem_append, or_and_right, exists_or]
  · intro r sc hsc hcar
    rw [hstream] at hsc
    rcases List.mem_append.mp hsc with hsc | hsc
    · exact (hext.registered r).mpr (Or.inl (hs.carried r sc hsc hcar))
    · exact hext.carried r sc hsc hcar
  · intro hout
    exact hs.closed (hext.outstanding ▸ hout)

/-- In a batch a message has no announcement of its remote beside it. -/
theorem not_announces_of_carries {b : List StateChange} (hpair : b.Pairwise StateChange.Follows)
    (hlast : ∀ sc ∈ b.dropLast, sc.ty ≠ 12) {r : Remote} {sc : StateChange} (hsc : sc ∈ b)
    (hcar : sc.Carries r) : ∀ y ∈ b, ¬y.Announces r := by
  intro y hy hann
  rcases List.eq_nil_or_concat' b with rfl | ⟨init, z, rfl⟩
  · cases hy
  · rw [List.dropLast_concat] at hlast
    rw [List.pairwise_append] at hpair
    have hyz : y = z := by
      rcases List.mem_append.mp hy with hy | hy
      · exact absurd hann.1 (hlast y hy)
      · exact List.mem_singleton.mp hy
    have hinit : sc ∈ init := by
      rcases List.mem_append.mp hsc with hsc | hsc
      · exact hsc
      · have hty : sc.ty = 12 := by
          rw [List.mem_singleton.mp hsc, ← hyz]
          exact hann.1
        rw [hcar.1] at hty
        cases hty
    exact (hpair.2.2 sc hinit z (List.mem_singleton_self z) r (hyz ▸ hann)).2 hcar

theorem Sound.finish (hs : s.Sound) (count : ℕ) (changes : Option (List (Option StateChange))) :
    (s.step (.finish count changes)).Sound := by
  have halike := s.handle.finishProcessing_alike count changes
  have hpending := (s.handle.finishProcessing_frame count changes).1
  by_cases hclose : (changes.isSome && count != 0) = true
  · have hstep : s.step (.finish count changes) =
        ⟨s.handle.finishProcessing count changes, s.log ++ [.finished]⟩ := by
      simp [step, entry, Handle.step, hclose]
    rw [hstep]
    have hstream : (⟨s.handle.finishProcessing count changes, s.log ++ [.finished]⟩ :
        Titled).stream = s.stream := by
      simp [stream, hpending, Exchange.changes]
    refine ⟨halike.numbered hs.numbered, ?_, ?_, ?_, ?_, ?_, ?_⟩
    · rw [hstream]
      exact hs.order
    · intro r
      rw [hstream, halike.registered r]
      exact hs.registered r
    · intro r sc hsc hcar
      rw [hstream] at hsc
      exact (halike.registered r).mpr (hs.carried r sc hsc hcar)
    · intro _ pre b post hlog
      rcases log_split hlog with ⟨-, -, hne⟩ | ⟨post', rfl, -⟩
      · cases hne
      · simp
    · intro b hb
      apply hs.last b
      simpa using hb
    · intro pre b post hlog
      rcases log_split hlog with ⟨-, -, hne⟩ | ⟨post', -, hold⟩
      · cases hne
      · exact hs.ahead pre b post' hold
  · have hsame : s.handle.finishProcessing count changes = s.handle := by
      unfold Handle.finishProcessing
      cases changes with
      | none => rfl
      | some changes =>
        obtain rfl : count = 0 := by simpa using hclose
        rfl
    have hstep : s.step (.finish count changes) = s := by
      simp [step, entry, Handle.step, hclose, hsame]
    rw [hstep]
    exact hs

/-- The queue and the batch that a Start makes of the queue. -/
theorem start_batch {h : Handle} (hout : h.batchOutstanding = false) (now : ℕ)
    (hpair : h.pending.Pairwise StateChange.Follows) :
    let b := (h.startProcessing now).inFlight
    let rest := (h.startProcessing now).pending
    (b ++ rest).Perm h.pending ∧ (b ++ rest).Pairwise StateChange.Follows ∧
      (h.startProcessing now).batchOutstanding = !b.isEmpty ∧
      ∀ sc ∈ b.dropLast, sc.ty ≠ 12 := by
  obtain ⟨hold, hpending, hinFlight, -, -, hnext⟩ := Handle.startProcessing_eq now hout
  simp only [hpending, hinFlight, hnext]
  refine ⟨Handle.drain_perm hold h.pending _ _, ?_, trivial, ?_⟩
  · exact Handle.drain_pairwise h.pending _ _ (.start hold) hpair
  · exact (Handle.drain_batch h.pending _ _ (.start hold)).2

theorem Sound.start (hs : s.Sound) (now : ℕ) : (s.step (.start now)).Sound := by
  by_cases hout : s.handle.batchOutstanding = true
  · have hstep : s.step (.start now) = s := by
      simp [step, entry, Handle.step, hout, Handle.startProcessing_outstanding now hout]
    rw [hstep]
    exact hs
  have hout' : s.handle.batchOutstanding = false := by simpa using hout
  have halike := s.handle.startProcessing_alike now
  obtain ⟨hold, hqueue, hcross⟩ := List.pairwise_append.mp hs.order
  obtain ⟨hperm, hpair, hnext, hlast⟩ := start_batch hout' now hqueue
  set h' := s.handle.startProcessing now with hh'
  have hstep : s.step (.start now) =
      ⟨h', s.log ++ if h'.inFlight.isEmpty then [] else [.batch h'.inFlight]⟩ := by
    simp [step, entry, Handle.step, hout', ← hh']
  have hstream : (s.step (.start now)).stream =
      s.log.flatMap Exchange.changes ++ (h'.inFlight ++ h'.pending) := by
    rw [hstep, stream]
    cases hb : h'.inFlight <;> simp [Exchange.changes]
  have hmem (sc : StateChange) : sc ∈ (s.step (.start now)).stream ↔ sc ∈ s.stream := by
    rw [hstream, stream]
    exact ((List.Perm.refl _).append hperm).mem_iff
  have horder : (s.step (.start now)).stream.Pairwise StateChange.Follows := by
    rw [hstream, List.pairwise_append]
    exact ⟨hold, hpair, fun x hx y hy => hcross x hx y (hperm.mem_iff.mp hy)⟩
  have hreg (r : Remote) : h'.Registered r ↔ ∃ sc ∈ (s.step (.start now)).stream, sc.Announces r := by
    simp only [halike.registered r, hs.registered r, hmem]
  have hcarried (r : Remote) (sc : StateChange) (hsc : sc ∈ (s.step (.start now)).stream)
      (hcar : sc.Carries r) : h'.Registered r :=
    (halike.registered r).mpr (hs.carried r sc ((hmem sc).mp hsc) hcar)
  refine ⟨?_, horder, ?_, ?_, ?_, ?_, ?_⟩
  · exact halike.numbered hs.numbered
  · exact hreg
  · exact hcarried
  · intro hidle
    have hempty : h'.inFlight.isEmpty = true := by
      have hvalue : h'.batchOutstanding = false := hidle
      simpa [hnext] using hvalue
    intro pre b post hlog
    rw [hstep, hempty] at hlog
    exact hs.closed hout' pre b post (by simpa using hlog)
  · intro b hb
    rw [hstep] at hb
    rcases List.mem_append.mp hb with hb | hb
    · exact hs.last b hb
    · split_ifs at hb
      · cases hb
      · obtain rfl : b = h'.inFlight := by simpa using hb
        exact hlast
  · intro pre b post hlog r sc hsc hcar
    rw [hstep] at hlog
    by_cases hempty : h'.inFlight.isEmpty = true
    · rw [if_pos hempty] at hlog
      exact hs.ahead pre b post (by simpa using hlog) r sc hsc hcar
    rw [if_neg hempty] at hlog
    rcases log_split hlog with ⟨-, rfl, hb⟩ | ⟨post', -, hprev⟩
    · -- The announcement is neither in this batch nor behind it, so it was handed out before.
      obtain rfl : h'.inFlight = b := by simpa using hb
      have hin : sc ∈ (s.step (.start now)).stream := by
        rw [hstream]
        exact List.mem_append_right _ (List.mem_append_left _ hsc)
      obtain ⟨y, hy, hann⟩ := (hreg r).mp (hcarried r sc hin hcar)
      obtain ⟨hbatch, -, hbehind⟩ := List.pairwise_append.mp hpair
      have hlogged : y ∈ s.log.flatMap Exchange.changes := by
        rw [hstream, List.mem_append, List.mem_append] at hy
        rcases hy with hy | hy | hy
        · exact hy
        · exact absurd hann (not_announces_of_carries hbatch hlast hsc hcar y hy)
        · exact absurd hcar (hbehind sc hsc y hy r hann).2
      obtain ⟨x, hx, hyx⟩ := List.mem_flatMap.mp hlogged
      obtain ⟨pre₁, post₁, hsplit⟩ := List.append_of_mem hx
      cases x with
      | finished => cases hyx
      | batch b₁ => exact ⟨pre₁, b₁, post₁, hsplit, hs.closed hout' pre₁ b₁ post₁ hsplit, y, hyx, hann⟩
    · exact hs.ahead pre b post' hprev r sc hsc hcar

theorem Sound.step (hs : s.Sound) {e : ShimEvent} (he : Handle.FromShim e) : (s.step e).Sound := by
  have hrest (hstart : ∀ now, e ≠ .start now)
      (hfinish : ∀ count changes, e ≠ .finish count changes) : (s.step e).Sound := by
    obtain ⟨new, hext⟩ := Handle.step_extends hs.numbered he hstart hfinish
    have hentry : entry s.handle e = [] := by
      cases e with
      | start now => exact absurd rfl (hstart now)
      | finish count changes => exact absurd rfl (hfinish count changes)
      | _ => rfl
    have hstep : s.step e = ⟨s.handle.step e, s.log⟩ := by
      rw [Titled.step, hentry, List.append_nil]
    rw [hstep]
    exact hs.extends hext
  cases e with
  | start now => exact hs.start now
  | finish count changes => exact hs.finish count changes
  | _ => exact hrest (by simp) (by simp)

/-- In every run of the shim: a batch with a message of a remote comes behind a batch that
announced the remote, with a Finish in between, and neither it nor a later batch announces that
remote. -/
theorem announced_before_message (es : List ShimEvent) (hes : ∀ e ∈ es, Handle.FromShim e) :
    ∀ pre b post, (run step fresh es).log = pre ++ .batch b :: post →
      ∀ (r : Remote), ∀ sc ∈ b, sc.Carries r →
        (∃ pre₁ b₁ pre₂, pre = pre₁ ++ .batch b₁ :: pre₂ ∧ .finished ∈ pre₂ ∧
          ∃ sc₁ ∈ b₁, sc₁.Announces r) ∧
        ∀ sc₂ ∈ (Exchange.batch b :: post).flatMap Exchange.changes, ¬sc₂.Announces r := by
  intro pre b post hlog r sc hsc hcar
  have hs : (run step fresh es).Sound :=
    run_invariant_mem (fun _ _ hs he => hs.step he) sound_fresh hes
  refine ⟨hs.ahead pre b post hlog r sc hsc hcar, ?_⟩
  have horder := hs.order
  rw [stream, hlog, List.flatMap_append, List.flatMap_cons] at horder
  obtain ⟨hlogged, -, -⟩ := List.pairwise_append.mp horder
  obtain ⟨-, hrest, -⟩ := List.pairwise_append.mp hlogged
  obtain ⟨hbatch, -, hbehind⟩ := List.pairwise_append.mp hrest
  have hlast := hs.last b (by rw [hlog]; simp)
  intro y hy hann
  rw [List.flatMap_cons, List.mem_append] at hy
  rcases hy with hy | hy
  · exact not_announces_of_carries hbatch hlast hsc hcar y hy hann
  · exact (hbehind sc hsc y hy r hann).2 hcar

/-- Two remotes are announced; the second one sends before its announcement is finished. -/
def twoRemotes : List ShimEvent :=
  Receiving.meetRemote ++
    [.ensureRemote 1 "other" "10.0.0.3" 27015 true,
      .recv 1 ⟨"other", kindMsg, 3, 1, 0, [9]⟩ "10.0.0.3" 27015 2, .start 3,
      .finish 1 (some [some (controlSc 12 1 (some "other"))]), .start 4]

theorem twoRemotes_announced :
    let log := (run step fresh twoRemotes).log
    log.getLast? = some (.batch [type21 1 "other" ⟨[9], 3⟩]) ∧ Announced log.dropLast (1, "other") := by
  intro log
  have hlog : log = log.dropLast ++ .batch [type21 1 "other" ⟨[9], 3⟩] :: [] := by decide +kernel
  refine ⟨by decide +kernel, ?_⟩
  exact (announced_before_message twoRemotes (by decide) _ _ [] hlog (1, "other") _
    List.mem_cons_self (by decide)).1

end Titled

end GbfrLan.Party
