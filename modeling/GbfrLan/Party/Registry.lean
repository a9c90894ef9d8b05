import GbfrLan.Party.Boxes

/-!
# The registration of remotes

A remote is found by the peer poll, by a candidate from the wire or by a datagram of a known
peer, in any order and at any address, and every path ends in `ensureRemote`. This module says
what its gates keep over every run: the bounds on the remotes and on the candidates, one
announcement for each remote, and an endpoint that stays where it was allocated.
-/
namespace GbfrLan.Party
open Lib

namespace Network

/-- The candidates from the wire: few, and each entity once. -/
structure PeersOk (n : Network) : Prop where
  short : n.pendingPeers.length ≤ pendingPeerCap
  distinct : (n.pendingPeers.map Prod.fst).Nodup

/-- The same remotes, and still an orderly list of candidates. -/
structure Kin (n n' : Network) : Prop where
  remotes : n.SameRemotes n'
  peers : n.PeersOk → n'.PeersOk

theorem Kin.refl (n : Network) : n.Kin n := ⟨fun _ => rfl, fun h => h⟩

theorem Kin.trans {n n₁ n₂ : Network} (h : n.Kin n₁) (h' : n₁.Kin n₂) : n.Kin n₂ :=
  ⟨h.remotes.trans h'.remotes, fun hp => h'.peers (h.peers hp)⟩

/-- The list of candidates is the old one. -/
theorem Kin.of_peers {n n' : Network} (hs : n.SameRemotes n')
    (hp : n'.pendingPeers = n.pendingPeers) : n.Kin n' :=
  ⟨hs, fun h => ⟨by rw [hp]; exact h.short, by rw [hp]; exact h.distinct⟩⟩

theorem SameRemotes.size_le {n n' : Network} (h : n.SameRemotes n') :
    n'.remotes.size ≤ n.remotes.size := by
  have hsub : n'.remotes.keys ⊆ n.remotes.keys := by
    intro eid hmem
    obtain ⟨e, he, rfl⟩ := List.mem_map.mp hmem
    have hold : n.remotes.contains e.1 = true := by
      rw [← h e.1]
      exact (n'.remotes.contains_iff e.1).mpr ⟨e.2, (n'.remotes.mem_entries_iff e.1 e.2).mp he⟩
    obtain ⟨v, hv⟩ := (n.remotes.contains_iff e.1).mp hold
    exact List.mem_map.mpr ⟨(e.1, v), (n.remotes.mem_entries_iff e.1 v).mpr hv, rfl⟩
  have hlen := (n'.remotes.keys_nodup.subperm hsub).length_le
  simpa [OrdMap.keys, OrdMap.size] using hlen

variable (n : Network)

theorem modifyRemote_pendingPeers (eid : String) (f : Endpoint → Endpoint) :
    (n.modifyRemote eid f).pendingPeers = n.pendingPeers := by
  unfold modifyRemote
  split <;> rfl

theorem modifyRemote_kin (eid : String) (f : Endpoint → Endpoint) :
    n.Kin (n.modifyRemote eid f) :=
  .of_peers (n.modifyRemote_sameRemotes eid f) (n.modifyRemote_pendingPeers eid f)

/-- A new candidate is queued only under the bound and only once. -/
theorem queuePendingPeer_kin (eid ip : String) (udpPort : UInt16) :
    n.Kin (n.queuePendingPeer eid ip udpPort) := by
  unfold queuePendingPeer
  split_ifs with hany hcap
  · exact .refl n
  · exact .refl n
  · refine ⟨fun _ => rfl, fun h => ⟨?_, ?_⟩⟩
    · simp only [List.length_append, List.length_singleton]
      omega
    · have hnew : eid ∉ n.pendingPeers.map Prod.fst := by
        intro hmem
        obtain ⟨x, hx, hxe⟩ := List.mem_map.mp hmem
        exact hany (List.any_eq_true.mpr ⟨x, hx, by simp [hxe]⟩)
      rw [List.map_append, List.nodup_append]
      refine ⟨h.distinct, by simp, ?_⟩
      intro a ha b hb hab
      obtain rfl : b = eid := by simpa using hb
      exact hnew (hab ▸ ha)

/-- The oldest candidate is taken off. -/
theorem popPeer_kin {x : String × String × UInt16} {rest : List (String × String × UInt16)}
    (hpeers : n.pendingPeers = x :: rest) : n.Kin { n with pendingPeers := rest } := by
  refine ⟨fun _ => rfl, fun h => ⟨?_, ?_⟩⟩
  · have := h.short
    rw [hpeers, List.length_cons] at this
    show rest.length ≤ pendingPeerCap
    omega
  · have := h.distinct
    rw [hpeers, List.map_cons, List.nodup_cons] at this
    exact this.2

theorem noteSource_kin (eid srcIp : String) (srcPort : UInt16) :
    n.Kin (n.noteSource eid srcIp srcPort) := by
  unfold noteSource
  split_ifs with hon hknown
  · rcases n.ensureRemote_cases eid srcIp srcPort false with heq | heq | ⟨hnone, -⟩
    · rw [heq]
      exact .refl n
    · rw [heq]
      exact n.modifyRemote_kin eid _
    · rw [OrdMap.contains, hnone] at hknown
      cases hknown
  · exact n.queuePendingPeer_kin eid srcIp srcPort
  · exact .refl n

theorem applyAck_kin (eid : String) (ack : UInt32) : n.Kin (n.applyAck eid ack) := by
  unfold applyAck
  split_ifs
  · exact n.modifyRemote_kin eid _
  · exact .refl n

theorem receive_kin (p : Packet) (srcIp : String) (srcPort : UInt16) :
    n.Kin (n.receive p srcIp srcPort).1 := by
  have hnoted : n.Kin ((n.noteSource p.entity srcIp srcPort).applyAck p.entity p.ack) :=
    (n.noteSource_kin p.entity srcIp srcPort).trans (applyAck_kin _ _ _)
  obtain ⟨poll, heq | ⟨-, heq⟩ | ⟨-, heq⟩ | ⟨-, -, heq⟩⟩ := n.receive_cases p srcIp srcPort
  all_goals
    rw [heq]
    exact hnoted.trans (.of_peers (fun _ => rfl) rfl)

theorem onMessage_kin (f : PendingRx) (now : ℕ) : n.Kin (n.onMessage f now).1 := by
  unfold onMessage
  split
  · exact n.modifyRemote_kin f.entity _
  · exact .refl n

theorem sendUdpAll_kin (kind : UInt8) (payload : Bytes) (options : UInt32) (now : ℕ) :
    n.Kin (n.sendUdpAll kind payload options now).1 := by
  refine .of_peers (n.sendUdpAll_sameRemotes kind payload options now) ?_
  unfold sendUdpAll
  split_ifs <;> rfl

theorem reliableService_kin (now : ℕ) : n.Kin (n.reliableService now).1 := by
  refine .of_peers (n.reliableService_sameRemotes now) ?_
  unfold reliableService
  split_ifs <;> rfl

theorem noteHold_kin (now : ℕ) : n.Kin (n.noteHold now).1 := by
  refine .of_peers (n.noteHold_sameRemotes now) ?_
  unfold noteHold
  split_ifs <;> rfl

theorem leave_kin : n.Kin n.leave := .of_peers (n.contains_mapVals _) rfl

/-- The gates that a new remote has passed. -/
structure Admits (n : Network) (eid : String) : Prop where
  named : eid ≠ ""
  connected : n.connectCompleted = true
  other : eid ≠ n.localEntity
  endpoint : n.localEndpoint = true
  type10 : n.type10Delivered = true
  unknown : n.remotes.contains eid = false
  room : n.remotes.size < remoteCap

/-- The box has one remote more. -/
structure Grows (n : Network) (eid : String) (n' : Network) : Prop where
  admits : n.Admits eid
  remotes : ∀ id, n'.remotes.contains id = true ↔ n.remotes.contains id = true ∨ id = eid
  size : n'.remotes.size = n.remotes.size + 1
  peers : n.PeersOk → n'.PeersOk

theorem ensureRemote_kin {eid ip : String} {udpPort : UInt16} {member : Bool}
    (h : (n.ensureRemote eid ip udpPort member).2 = false) :
    n.Kin (n.ensureRemote eid ip udpPort member).1 := by
  rcases n.ensureRemote_cases eid ip udpPort member with heq | heq | ⟨-, heq⟩
  · rw [heq]
    exact .refl n
  · rw [heq]
    exact n.modifyRemote_kin eid _
  · rw [heq] at h
    cases h

/-- An endpoint is created behind every gate, with the game's row for its entity. -/
theorem ensureRemote_created {eid ip : String} {udpPort : UInt16} {member : Bool}
    (h : (n.ensureRemote eid ip udpPort member).2 = true) : n.Admits eid ∧ member = true ∧
      (n.ensureRemote eid ip udpPort member).1 =
        { n with remotes := n.remotes.insert eid (Endpoint.new ip udpPort) } := by
  cases hget : n.remotes.get? eid with
  | some e =>
    simp only [ensureRemote, hget] at h
    split_ifs at h
  | none =>
    simp only [ensureRemote, hget] at h ⊢
    split_ifs at h ⊢ with hname hconn hown hgate hmem hcap
    refine ⟨⟨?_, ?_, ?_, ?_, ?_, ?_, ?_⟩, ?_, rfl⟩
    · simpa using hname
    · simpa using hconn
    · simpa using hown
    · simp only [Bool.or_eq_true, Bool.not_eq_true', not_or, Bool.not_eq_false] at hgate
      exact hgate.1
    · simp only [Bool.or_eq_true, Bool.not_eq_true', not_or, Bool.not_eq_false] at hgate
      exact hgate.2
    · rw [OrdMap.contains, hget]
      rfl
    · omega
    · simpa using hmem

theorem ensureRemote_grows {eid ip : String} {udpPort : UInt16} {member : Bool}
    (h : (n.ensureRemote eid ip udpPort member).2 = true) :
    n.Grows eid (n.ensureRemote eid ip udpPort member).1 := by
  obtain ⟨hadmits, -, heq⟩ := n.ensureRemote_created h
  have hnone : n.remotes.get? eid = none := by
    simpa [OrdMap.contains] using hadmits.unknown
  rw [heq]
  refine ⟨hadmits, fun id => ?_, OrdMap.size_insert_of_none _ hnone, fun hp => ⟨hp.short, hp.distinct⟩⟩
  by_cases hid : id = eid
  · simp [OrdMap.contains, hid]
  · simp [OrdMap.contains, hid]

/-- Taking a candidate off first makes no difference. -/
theorem Grows.of_popped {n n' : Network} {eid : String} {rest : List (String × String × UInt16)}
    (hpop : n.Kin { n with pendingPeers := rest })
    (h : ({ n with pendingPeers := rest } : Network).Grows eid n') : n.Grows eid n' where
  admits := ⟨h.admits.named, h.admits.connected, h.admits.other, h.admits.endpoint,
    h.admits.type10, h.admits.unknown, h.admits.room⟩
  remotes := h.remotes
  size := h.size
  peers hp := h.peers (hpop.peers hp)

theorem boxRel_kin : BoxRel Kin where
  refl := Kin.refl
  trans := Kin.trans
  fresh _ _ := .of_peers (fun _ => rfl) rfl
  connect _ := .of_peers (fun _ => rfl) rfl
  endpoint _ _ := .of_peers (fun _ => rfl) rfl
  type10 _ := .of_peers (fun _ => rfl) rfl
  type12 _ := .of_peers (fun _ => rfl) rfl
  noteHold := noteHold_kin
  receive := receive_kin
  waiting _ _ := .of_peers (fun _ => rfl) rfl
  onMessage := onMessage_kin
  service := reliableService_kin
  leave := leave_kin

end Network

namespace Handle

variable {h h₁ h₂ : Handle} {net : ℕ} {n n' : Network}

/-! ### The event that creates an endpoint -/

/-- The remote for which `ensureRemote` creates an endpoint. -/
def ensures (h : Handle) (net : ℕ) (eid ip : String) (udpPort : UInt16) (member : Bool) :
    Option Remote :=
  (h.boxes.get? net).bind fun n =>
    if (n.ensureRemote eid ip udpPort member).2 then some (net, eid) else none

/-- The remote for which an event creates an endpoint. -/
def creates (h : Handle) : ShimEvent → Option Remote
  | .ensureRemote net eid ip udpPort member => h.ensures net eid ip udpPort member
  | .drainPeer net member =>
      match h.boxes.get? net with
      | none => none
      | some n =>
          match n.pendingPeers with
          | [] => none
          | (eid, ip, udpPort) :: rest =>
              { h with boxes := h.boxes.insert net { n with pendingPeers := rest } }.ensures net
                eid ip udpPort member
  | _ => none

/-- At most one box has a new remote, and it is the one that was created. -/
structure Evolves (h h' : Handle) (made : Option Remote) : Prop where
  grows : ∀ net eid, made = some (net, eid) → (h.box net).Grows eid (h'.box net)
  kin : ∀ net, (∀ eid, made ≠ some (net, eid)) → (h.box net).Kin (h'.box net)

theorem Evolves.of_kin (hk : h.Boxwise Network.Kin h₁) : h.Evolves h₁ none :=
  ⟨fun _ _ hmade => absurd hmade (by simp), fun net _ => hk net⟩

theorem Evolves.refl (h : Handle) : h.Evolves h none := .of_kin (.refl Network.boxRel_kin h)

theorem Evolves.registered {made : Option Remote} (he : h.Evolves h₁ made) (r : Remote) :
    h₁.Registered r ↔ h.Registered r ∨ made = some r := by
  obtain ⟨net, eid⟩ := r
  rw [registered_iff, registered_iff]
  by_cases hmade : ∃ id, made = some (net, id)
  · obtain ⟨id, rfl⟩ := hmade
    have hpair : some (net, id) = some (net, eid) ↔ eid = id := by
      rw [Option.some.injEq, Prod.mk.injEq]
      exact ⟨fun h => h.2.symm, fun h => ⟨rfl, h.symm⟩⟩
    rw [(he.grows net id rfl).remotes eid, hpair]
  · have hother : ∀ id, made ≠ some (net, id) := fun id hid => hmade ⟨id, hid⟩
    rw [(he.kin net hother).remotes eid]
    simp [hother eid]

/-- The bounds on the remotes and the candidates of every box. -/
structure Within (h : Handle) : Prop where
  remotes : ∀ net, (h.box net).remotes.size ≤ remoteCap
  peers : ∀ net, (h.box net).PeersOk

theorem Evolves.within {made : Option Remote} (he : h.Evolves h₁ made) (hw : h.Within) :
    h₁.Within := by
  constructor
  · intro net
    by_cases hmade : ∃ eid, made = some (net, eid)
    · obtain ⟨eid, heid⟩ := hmade
      have hgrows := he.grows net eid heid
      have hroom := hgrows.admits.room
      rw [hgrows.size]
      omega
    · have hkin := he.kin net fun eid heid => hmade ⟨eid, heid⟩
      exact hkin.remotes.size_le.trans (hw.remotes net)
  · intro net
    by_cases hmade : ∃ eid, made = some (net, eid)
    · obtain ⟨eid, heid⟩ := hmade
      exact (he.grows net eid heid).peers (hw.peers net)
    · exact (he.kin net fun eid heid => hmade ⟨eid, heid⟩).peers (hw.peers net)

theorem ensureRemote_evolves (h : Handle) (net : ℕ) (eid ip : String) (udpPort : UInt16)
    (member : Bool) : h.Evolves (h.ensureRemote net eid ip udpPort member)
      (h.ensures net eid ip udpPort member) := by
  cases hget : h.boxes.get? net with
  | none =>
    have hsame : h.ensureRemote net eid ip udpPort member = h := by simp [ensureRemote, hget]
    have hmade : h.ensures net eid ip udpPort member = none := by simp [ensures, hget]
    rw [hsame, hmade]
    exact .refl h
  | some n =>
    cases hc : (n.ensureRemote eid ip udpPort member).2 with
    | false =>
      have hstep : h.ensureRemote net eid ip udpPort member =
          { h with boxes := h.boxes.insert net (n.ensureRemote eid ip udpPort member).1 } := by
        simp [ensureRemote, hget, hc]
      have hmade : h.ensures net eid ip udpPort member = none := by simp [ensures, hget, hc]
      rw [hstep, hmade]
      exact .of_kin (.setBox Network.boxRel_kin hget (n.ensureRemote_kin hc))
    | true =>
      have hmade : h.ensures net eid ip udpPort member = some (net, eid) := by
        simp [ensures, hget, hc]
      have hboxes : (h.ensureRemote net eid ip udpPort member).boxes =
          h.boxes.insert net (n.ensureRemote eid ip udpPort member).1 := by
        simp [ensureRemote, hget, hc]
      rw [hmade]
      constructor
      · intro net' eid' hsame
        obtain ⟨rfl, rfl⟩ : net = net' ∧ eid = eid' := by simpa using hsame
        have hnew : (h.ensureRemote net eid ip udpPort member).box net =
            (n.ensureRemote eid ip udpPort member).1 := box_eq (by simp [hboxes])
        rw [hnew, box_eq hget]
        exact n.ensureRemote_grows hc
      · intro net' hother
        have hnet : net' ≠ net := fun hnet => hother eid (by rw [hnet])
        have hsame : (h.ensureRemote net eid ip udpPort member).box net' = h.box net' := by
          simp [box, hboxes, hnet]
        rw [hsame]
        exact .refl _

theorem drainPeer_evolves (h : Handle) (net : ℕ) (member : Bool) :
    h.Evolves (h.drainPeer net member) (h.creates (.drainPeer net member)) := by
  cases hget : h.boxes.get? net with
  | none =>
    have hsame : h.drainPeer net member = h := by simp [drainPeer, hget]
    have hmade : h.creates (.drainPeer net member) = none := by simp [creates, hget]
    rw [hsame, hmade]
    exact .refl h
  | some n =>
    cases hpeers : n.pendingPeers with
    | nil =>
      have hsame : h.drainPeer net member = h := by simp [drainPeer, hget, hpeers]
      have hmade : h.creates (.drainPeer net member) = none := by simp [creates, hget, hpeers]
      rw [hsame, hmade]
      exact .refl h
    | cons x rest =>
      obtain ⟨eid, ip, udpPort⟩ := x
      have hpop : n.Kin { n with pendingPeers := rest } := n.popPeer_kin hpeers
      set h₁ : Handle := { h with boxes := h.boxes.insert net { n with pendingPeers := rest } } with hh₁
      have hstep : h.drainPeer net member = h₁.ensureRemote net eid ip udpPort member := by
        simp [drainPeer, hget, hpeers, hh₁]
      have hmade : h.creates (.drainPeer net member) = h₁.ensures net eid ip udpPort member := by
        simp [creates, hget, hpeers, hh₁]
      have hkin : h.Boxwise Network.Kin h₁ := .setBox Network.boxRel_kin hget hpop
      have hevolves := h₁.ensureRemote_evolves net eid ip udpPort member
      rw [hstep, hmade]
      constructor
      · intro net' eid' heid
        have hnet : net' = net := by
          unfold ensures at heid
          obtain ⟨m, -, hm⟩ := Option.bind_eq_some_iff.mp heid
          split_ifs at hm
          simpa using (congrArg Prod.fst (Option.some.inj hm)).symm
        subst hnet
        have hbox : h₁.box net' = { n with pendingPeers := rest } := box_eq (by simp [hh₁])
        have hgrows := hevolves.grows net' eid' heid
        rw [hbox] at hgrows
        rw [box_eq hget]
        exact .of_popped hpop hgrows
      · intro net' hother
        exact (hkin net').trans (hevolves.kin net' hother)

/-- One event: nothing about the remotes, or the one new remote it creates. -/
theorem step_evolves (hn : h.Numbered) (e : ShimEvent) : h.Evolves (h.step e) (h.creates e) := by
  have hrest (he : boxwise e = true) (hmade : h.creates e = none) :
      h.Evolves (h.step e) (h.creates e) := by
    rw [hmade]
    exact .of_kin (step_boxwise Network.boxRel_kin hn he)
  cases e with
  | ensureRemote net eid ip udpPort member => exact h.ensureRemote_evolves net eid ip udpPort member
  | drainPeer net member => exact h.drainPeer_evolves net member
  | send net kind payload options now =>
    exact .of_kin (.modifyBox Network.boxRel_kin h net fun n =>
      n.sendUdpAll_kin kind payload options now)
  | _ => exact hrest rfl rfl

end Handle

/-- The shim with its title, and the address of the endpoint under each key of `remotes`. An
insert of `ensure_remote` writes the address of a new allocation over whatever is there. -/
structure Registry where
  titled : Titled
  pointers : Remote → Option ℕ
  allocated : ℕ

namespace Registry

def fresh : Registry := ⟨Titled.fresh, fun _ => none, 0⟩

def step (s : Registry) (e : ShimEvent) : Registry :=
  match s.titled.handle.creates e with
  | some r => ⟨s.titled.step e, Function.update s.pointers r (some s.allocated), s.allocated + 1⟩
  | none => ⟨s.titled.step e, s.pointers, s.allocated⟩

/-- How many type-12 changes for a remote were queued so far. -/
def announcements (s : Registry) (r : Remote) : ℕ :=
  s.titled.stream.countP fun sc => decide (sc.Announces r)

@[simp] theorem step_titled (s : Registry) (e : ShimEvent) :
    (s.step e).titled = s.titled.step e := by
  unfold step
  split <;> rfl

structure Sound (s : Registry) : Prop where
  titled : s.titled.Sound
  within : s.titled.handle.Within
  pointed : ∀ r, (s.pointers r).isSome = true ↔ s.titled.handle.Registered r

theorem sound_fresh : Sound fresh where
  titled := Titled.sound_fresh
  within :=
    { remotes := fun _ => Nat.zero_le _
      peers := fun _ => ⟨Nat.zero_le _, List.nodup_nil⟩ }
  pointed r := by simp [fresh, Titled.fresh, Handle.new, Handle.Registered]

variable {s : Registry}

theorem Sound.evolves (hs : s.Sound) (e : ShimEvent) :
    s.titled.handle.Evolves (s.titled.step e).handle (s.titled.handle.creates e) :=
  Handle.step_evolves hs.titled.numbered e

/-- An endpoint is created only for a remote that has none. -/
theorem Sound.pointer_none (hs : s.Sound) {e : ShimEvent} {r : Remote}
    (hr : s.titled.handle.creates e = some r) : s.pointers r = none := by
  have hunknown := ((hs.evolves e).grows r.1 r.2 hr).admits.unknown
  have hnot : ¬s.titled.handle.Registered r := by
    rw [Handle.registered_iff, hunknown]
    simp
  rw [← hs.pointed r] at hnot
  simpa using hnot

theorem Sound.step (hs : s.Sound) {e : ShimEvent} (he : Handle.FromShim e) : (s.step e).Sound := by
  refine ⟨?_, ?_, fun r => ?_⟩
  · rw [step_titled]
    exact hs.titled.step he
  · rw [step_titled]
    exact (hs.evolves e).within hs.within
  · rw [step_titled, (hs.evolves e).registered r, ← hs.pointed r]
    unfold Registry.step
    cases hmade : s.titled.handle.creates e with
    | none => simp
    | some r' =>
      by_cases hr : r = r'
      · simp [hr]
      · simp [hr, Ne.symm hr]

theorem Sound.run (hs : s.Sound) {es : List ShimEvent} (hes : ∀ e ∈ es, Handle.FromShim e) :
    (Lib.run Registry.step s es).Sound :=
  run_invariant_mem (fun _ _ h he => h.step he) hs hes

theorem Sound.pointer_step (hs : s.Sound) (e : ShimEvent) {r : Remote} {p : ℕ}
    (hp : s.pointers r = some p) : (s.step e).pointers r = some p := by
  unfold Registry.step
  cases hmade : s.titled.handle.creates e with
  | none => exact hp
  | some r' =>
    have hne : r ≠ r' := by
      rintro rfl
      rw [hs.pointer_none hmade] at hp
      cases hp
    simpa [hne] using hp

theorem Sound.pointer_run (hs : s.Sound) {es : List ShimEvent}
    (hes : ∀ e ∈ es, Handle.FromShim e) {r : Remote} {p : ℕ} (hp : s.pointers r = some p) :
    (Lib.run Registry.step s es).pointers r = some p := by
  induction es generalizing s with
  | nil => exact hp
  | cons e es ih =>
    obtain ⟨he, hrest⟩ := List.forall_mem_cons.mp hes
    exact ih (hs.step he) hrest (hs.pointer_step e hp)

/-- In an ordered stream a remote is announced once if at all. -/
theorem countP_announces {l : List StateChange} (hl : l.Pairwise StateChange.Follows)
    {r : Remote} (hr : ∃ sc ∈ l, sc.Announces r) :
    l.countP (fun sc => decide (sc.Announces r)) = 1 := by
  obtain ⟨sc, hsc, hann⟩ := hr
  obtain ⟨pre, post, rfl⟩ := List.append_of_mem hsc
  obtain ⟨-, hrest, hcross⟩ := List.pairwise_append.mp hl
  have hpre : pre.countP (fun sc => decide (sc.Announces r)) = 0 := by
    rw [List.countP_eq_zero]
    intro x hx
    simpa using (hcross x hx sc (by simp) r hann).1
  have hpost : post.countP (fun sc => decide (sc.Announces r)) = 0 := by
    rw [List.countP_eq_zero]
    intro y hy
    simp only [decide_eq_true_eq]
    intro hy'
    exact ((List.pairwise_cons.mp hrest).1 y hy r hy').1 hann
  simp [hpre, hpost, hann]

theorem Sound.announced (hs : s.Sound) {r : Remote} (hr : s.titled.handle.Registered r) :
    s.announcements r = 1 :=
  countP_announces hs.titled.order ((hs.titled.registered r).mp hr)

theorem Sound.unannounced (hs : s.Sound) {r : Remote} (hr : ¬s.titled.handle.Registered r) :
    s.announcements r = 0 := by
  rw [announcements, List.countP_eq_zero]
  intro sc hsc
  simp only [decide_eq_true_eq]
  exact fun hann => hr ((hs.titled.registered r).mpr ⟨sc, hsc, hann⟩)

/-- A new announcement has passed the gates of its box. -/
theorem Sound.announced_step (hs : s.Sound) {e : ShimEvent} (he : Handle.FromShim e) {r : Remote}
    (hr : (s.step e).announcements r ≠ s.announcements r) :
    ∃ n, s.titled.handle.boxes.get? r.1 = some n ∧ n.Admits r.2 := by
  have hnew : s.titled.handle.creates e = some r := by
    have hreg := (hs.evolves e).registered r
    have hnext : (s.step e).titled.handle = (s.titled.step e).handle := by rw [step_titled]
    by_contra hnot
    rw [or_iff_left hnot] at hreg
    by_cases hold : s.titled.handle.Registered r
    · exact hr (((hs.step he).announced (hnext ▸ hreg.mpr hold)).trans (hs.announced hold).symm)
    · have hnone : ¬(s.step e).titled.handle.Registered r := by
        rw [hnext, hreg]
        exact hold
      exact hr (((hs.step he).unannounced hnone).trans (hs.unannounced hold).symm)
  have hadmits := ((hs.evolves e).grows r.1 r.2 hnew).admits
  cases hget : s.titled.handle.boxes.get? r.1 with
  | some n => exact ⟨n, rfl, Handle.box_eq hget ▸ hadmits⟩
  | none =>
    have hconn := hadmits.connected
    simp [Handle.box, hget, Network.new] at hconn

/-- In every state of every run: a box has at most 8 remotes and at most 16 candidates with
distinct entities; a remote that is registered was announced by one type-12 change and every other
entity by none; its endpoint is where it was allocated and stays there in every continuation; and
an announcement is queued only for an entity that is not the local one of its box, and only behind
the type-10 change. -/
theorem remote_registration (es : List ShimEvent) (hes : ∀ e ∈ es, Handle.FromShim e) :
    let s := run step fresh es
    (∀ net n, s.titled.handle.boxes.get? net = some n → n.remotes.size ≤ 8 ∧
      n.pendingPeers.length ≤ 16 ∧ (n.pendingPeers.map Prod.fst).Nodup) ∧
    (∀ r, s.titled.handle.Registered r → s.announcements r = 1 ∧ ∃ p, s.pointers r = some p ∧
      ∀ fs, (∀ e ∈ fs, Handle.FromShim e) → (run step s fs).pointers r = some p) ∧
    (∀ r, ¬s.titled.handle.Registered r → s.announcements r = 0) ∧
    ∀ e, Handle.FromShim e → ∀ r, (s.step e).announcements r ≠ s.announcements r →
      ∃ n, s.titled.handle.boxes.get? r.1 = some n ∧ r.2 ≠ n.localEntity ∧
        n.type10Delivered = true := by
  intro s
  have hs : s.Sound := sound_fresh.run hes
  refine ⟨fun net n hget => ?_, fun r hr => ?_, fun r hr => hs.unannounced hr,
    fun e he r hr => ?_⟩
  · have hsize := hs.within.remotes net
    have hpeers := hs.within.peers net
    rw [Handle.box_eq hget] at hsize hpeers
    exact ⟨hsize, hpeers.short, hpeers.distinct⟩
  · obtain ⟨p, hp⟩ := Option.isSome_iff_exists.mp ((hs.pointed r).mpr hr)
    exact ⟨hs.announced hr, p, hp, fun fs hfs => hs.pointer_run hfs hp⟩
  · obtain ⟨n, hget, hadmits⟩ := hs.announced_step he hr
    exact ⟨n, hget, hadmits.other, hadmits.type10⟩

theorem remote_registration_twoRemotes :
    let s := run step fresh Titled.twoRemotes
    s.titled.handle.Registered (1, "other") ∧ s.announcements (1, "other") = 1 := by
  intro s
  have hr : s.titled.handle.Registered (1, "other") := by
    rw [Handle.registered_iff]
    decide +kernel
  exact ⟨hr, ((remote_registration Titled.twoRemotes (by decide)).2.1 (1, "other") hr).1⟩

end Registry

end GbfrLan.Party
