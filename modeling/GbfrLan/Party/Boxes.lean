import GbfrLan.Party.Waiting

/-!
# What an event does to each box

Most events change the boxes of the handle one by one, each in a way that does not depend on the
others. A relation between a box and what it becomes that holds of these changes, and is a
preorder, therefore holds box by box between the handle before an event and the handle after it.
A box that is not there yet reads as an empty one, so that every address has a box.
-/
namespace GbfrLan.Party
open Lib

/-- A preorder on boxes that contains what the shim does to one of them, apart from registering
a remote and sending. -/
structure BoxRel (R : Network → Network → Prop) : Prop where
  refl : ∀ n, R n n
  trans : ∀ {n n₁ n₂}, R n n₁ → R n₁ n₂ → R n n₂
  fresh : ∀ id user, R (Network.new "" none) (Network.new id user)
  connect : ∀ n, R n { n with connectCompleted := true }
  endpoint : ∀ n user, R n { n with localEndpoint := true, localUser := user }
  type10 : ∀ n, R n { n with type10Delivered := true }
  type12 : ∀ n, R n { n with type12Delivered := true }
  noteHold : ∀ n now, R n (n.noteHold now).1
  receive : ∀ n p srcIp srcPort, R n (n.receive p srcIp srcPort).1
  waiting : ∀ n rest, R n { n with pendingRx := rest }
  onMessage : ∀ n f now, R n (n.onMessage f now).1
  service : ∀ n now, R n (n.reliableService now).1
  leave : ∀ n, R n n.leave

namespace Handle

/-- The box at an address. -/
def box (h : Handle) (net : ℕ) : Network := (h.boxes.get? net).getD (Network.new "" none)

/-- The relation holds box by box. -/
def Boxwise (R : Network → Network → Prop) (h h' : Handle) : Prop :=
  ∀ net, R (h.box net) (h'.box net)

variable {R : Network → Network → Prop} {h h₁ h₂ : Handle} {net : ℕ} {n n' : Network}

theorem box_eq (hget : h.boxes.get? net = some n) : h.box net = n := by
  rw [box, hget]
  rfl

theorem registered_iff (r : Remote) :
    h.Registered r ↔ (h.box r.1).remotes.contains r.2 = true := by
  unfold Registered
  cases hget : h.boxes.get? r.1 with
  | some n => simp [box, hget]
  | none => simp [box, hget, Network.new, OrdMap.contains]

/-- What `ShimEvent`s leave to their own lemmas: new remotes and sends. -/
def boxwise : ShimEvent → Bool
  | .ensureRemote _ _ _ _ _ => false
  | .drainPeer _ _ => false
  | .send _ _ _ _ _ => false
  | _ => true

section
variable (hR : BoxRel R)
include hR

theorem Boxwise.refl (h : Handle) : h.Boxwise R h := fun net => hR.refl (h.box net)

theorem Boxwise.trans (ha : h.Boxwise R h₁) (hb : h₁.Boxwise R h₂) : h.Boxwise R h₂ :=
  fun net => hR.trans (ha net) (hb net)

theorem Boxwise.of_boxes (hboxes : h₁.boxes = h.boxes) : h.Boxwise R h₁ := by
  intro net
  rw [box, box, hboxes]
  exact hR.refl _

theorem Boxwise.modifyBox (h : Handle) (net : ℕ) {f : Network → Network} (hf : ∀ n, R n (f n)) :
    h.Boxwise R (h.modifyBox net f) := by
  intro k
  unfold box
  rw [get?_modifyBox]
  split_ifs
  · cases h.boxes.get? k with
    | none => exact hR.refl _
    | some n => exact hf n
  · exact hR.refl _

theorem Boxwise.setBox (hget : h.boxes.get? net = some n) (hn : R n n') :
    h.Boxwise R { h with boxes := h.boxes.insert net n' } := by
  intro k
  by_cases hnet : k = net
  · subst hnet
    simpa [box, hget] using hn
  · simpa [box, hnet] using hR.refl (h.box k)

theorem Boxwise.foldl_modifyBox (nets : List ℕ) (h : Handle) {f : Network → Network}
    (hf : ∀ n, R n (f n)) : h.Boxwise R (nets.foldl (fun h net => h.modifyBox net f) h) := by
  induction nets generalizing h with
  | nil => exact .refl hR h
  | cons net nets ih => exact .trans hR (.modifyBox hR h net hf) (ih (h.modifyBox net f))

theorem Boxwise.queueSc (hk : h.Boxwise R h₁) (sc : Option StateChange) :
    h.Boxwise R (h₁.queueSc sc) :=
  .trans hR hk (.of_boxes hR (h₁.queueSc_boxes sc))

theorem startProcessing_boxwise (h : Handle) (now : ℕ) : h.Boxwise R (h.startProcessing now) := by
  unfold startProcessing
  split_ifs
  · exact .refl hR h
  · have hnote : h.Boxwise R (h.noteType12Hold now).1 :=
      .foldl_modifyBox hR h.networks h fun n => hR.noteHold n now
    exact .trans hR hnote (.of_boxes hR rfl)

theorem finishProcessing_boxwise (h : Handle) (count : ℕ)
    (changes : Option (List (Option StateChange))) :
    h.Boxwise R (h.finishProcessing count changes) := by
  unfold finishProcessing
  cases changes with
  | none => exact .refl hR h
  | some changes =>
    simp only
    split_ifs
    · exact .refl hR h
    · have hmark : h.Boxwise R (h.markDelivered (returned count changes)) :=
        .trans hR (.foldl_modifyBox hR _ h hR.type10) (.foldl_modifyBox hR _ _ hR.type12)
      exact .trans hR hmark (.of_boxes hR rfl)

theorem deliverReliable_boxwise (h : Handle) (net : ℕ) (f : PendingRx) (now : ℕ) :
    h.Boxwise R (h.deliverReliable net f now) := by
  intro k
  unfold box
  rw [deliverReliable_boxes]
  split_ifs
  · cases h.boxes.get? k with
    | none => exact hR.refl _
    | some n => exact hR.onMessage n f now
  · exact hR.refl _

theorem recv_boxwise (h : Handle) (net : ℕ) (p : Packet) (srcIp : String) (srcPort : UInt16)
    (now : ℕ) : h.Boxwise R (h.recv net p srcIp srcPort now) := by
  unfold recv
  split
  · exact .refl hR h
  · rename_i n hget
    have hset : h.Boxwise R { h with boxes := h.boxes.insert net (n.receive p srcIp srcPort).1 } :=
      .setBox hR hget (hR.receive n p srcIp srcPort)
    simp only
    split_ifs
    · exact .refl hR h
    · split
      · exact .trans hR hset (deliverReliable_boxwise hR _ net _ now)
      · exact hset

theorem replay_boxwise (h : Handle) (net now : ℕ) : h.Boxwise R (h.replay net now) := by
  unfold replay
  split
  · exact .refl hR h
  · rename_i f n' hnext
    obtain ⟨n, hget, hframe⟩ := Option.bind_eq_some_iff.mp hnext
    have hn : R n n' := by
      unfold Network.nextFrame at hframe
      split at hframe
      · cases hframe
      · split_ifs at hframe
        cases hframe
        exact hR.waiting n _
    exact .trans hR (.setBox hR hget hn) (deliverReliable_boxwise hR _ net f now)

theorem emitConnectCompleted_boxwise (h : Handle) (net : ℕ) :
    h.Boxwise R (h.emitConnectCompleted net) := by
  rw [emitConnectCompleted_eq]
  split_ifs
  · exact .queueSc hR (.modifyBox hR h net hR.connect) _
  · exact .refl hR h

/-- The new box stands where there was none. -/
theorem addBox_boxwise (hn : h.Numbered) (id : String) (user : Option String) :
    h.Boxwise R (h.addBox id user) := by
  intro k
  by_cases hk : k = h.nextEpoch
  · have hnone : h.boxes.get? k = none := by
      cases hget : h.boxes.get? k with
      | none => rfl
      | some n => exact absurd (hn k n hget) (by omega)
    have hold : h.box k = Network.new "" none := by rw [box, hnone]; rfl
    have hnew : (h.addBox id user).box k = Network.new id user := by simp [box, addBox, hk]
    rw [hold, hnew]
    exact hR.fresh id user
  · have hsame : (h.addBox id user).box k = h.box k := by simp [box, addBox, hk]
    rw [hsame]
    exact hR.refl _

theorem leaveNetwork_boxwise (h : Handle) (net : ℕ) : h.Boxwise R (h.leaveNetwork net) := by
  have hqueue : h.Boxwise R (h.queueSc (some (controlSc 19 net none))) :=
    .queueSc hR (.refl hR h) _
  set h₁ := h.queueSc (some (controlSc 19 net none)) with hh₁
  have hleave : h₁.Boxwise R
      (if h₁.networks.contains net then h₁.modifyBox net Network.leave else h₁) := by
    split_ifs
    · exact .modifyBox hR h₁ net hR.leave
    · exact .refl hR h₁
  exact .trans hR (.trans hR hqueue hleave) (.of_boxes hR rfl)

theorem step_boxwise (hn : h.Numbered) {e : ShimEvent} (he : boxwise e = true) :
    h.Boxwise R (h.step e) := by
  cases e with
  | queueSc sc => exact .queueSc hR (.refl hR h) (some sc)
  | start now => exact startProcessing_boxwise hR h now
  | finish count changes => exact finishProcessing_boxwise hR h count changes
  | connect id user =>
    show h.Boxwise R (h.connectNetwork id user)
    unfold connectNetwork
    split
    · exact emitConnectCompleted_boxwise hR h _
    · exact .trans hR (addBox_boxwise hR hn id user) (emitConnectCompleted_boxwise hR _ _)
  | createNetwork id user =>
    exact .queueSc hR (addBox_boxwise hR hn id user) (some ⟨2, none, none, 0, []⟩)
  | authenticate net =>
    have hlist : h.Boxwise R (if h.networks.contains net then h
        else { h with networks := h.networks ++ [net] }) := by
      split_ifs
      · exact .refl hR h
      · exact .of_boxes hR rfl
    exact .queueSc hR hlist (some (controlSc 4 net none))
  | createEndpoint net user =>
    exact .queueSc hR (.modifyBox hR h net fun n => hR.endpoint n user)
      (some (controlSc 10 net none))
  | leave net => exact leaveNetwork_boxwise hR h net
  | ensureRemote net eid ip udpPort member => cases he
  | drainPeer net member => cases he
  | recv net p srcIp srcPort now => exact recv_boxwise hR h net p srcIp srcPort now
  | replay net now => exact replay_boxwise hR h net now
  | send net kind payload options now => cases he
  | service net now => exact .modifyBox hR h net fun n => hR.service n now

end

end Handle

end GbfrLan.Party
