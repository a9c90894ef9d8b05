import GbfrLan.Party.Boxes
import GbfrLan.Party.Broadcast

/-!
# Send order across the transport handover

`PartyEndpointSendMessage` queues its message for the transport thread while that thread is up,
and sends inline once it is down. The numbers of a message are given when it is sent, not when
the game calls, so the order of the calls survives exactly as long as nothing is sent past a
message that still waits in the outbox.

The outbox mutex and the handle mutex are taken for a batch and for its jobs, while a call takes
neither for an inline send; so the batch that a consumer has popped is a state of its own, and
calls may come between its jobs.
-/
namespace GbfrLan.Party
open Lib

/-- The two sequence spaces of a pairing. -/
inductive Space where
  | guaranteed
  | bestEffort
  deriving DecidableEq, Repr

/-- The space in which a message is numbered; the others carry no number. -/
def spaceOf (options : UInt32) : Option Space :=
  if guaranteed options then some .guaranteed
  else if sequential options then some .bestEffort
  else none

namespace Sender

/-- The next number of a space. -/
def next (s : Sender) : Space → UInt32
  | .guaranteed => s.nextGseq
  | .bestEffort => s.nextBseq

theorem send_next (s : Sender) (payload : Bytes) (options : UInt32) (nowMs : ℕ) (sp : Space) :
    (s.send payload options nowMs).1.next sp =
      if spaceOf options = some sp then s.next sp + 1 else s.next sp := by
  unfold send spaceOf
  simp only [partyReliable, Bool.not_true, Bool.false_eq_true, if_false]
  split_ifs <;> cases sp <;> simp_all [next]

theorem send_seq (s : Sender) (payload : Bytes) {options : UInt32} (nowMs : ℕ) {sp : Space}
    (hsp : spaceOf options = some sp) : (s.send payload options nowMs).2.seq = s.next sp := by
  unfold spaceOf at hsp
  unfold send
  simp only [partyReliable, Bool.not_true, Bool.false_eq_true, if_false]
  split_ifs at hsp ⊢
  · obtain rfl : Space.guaranteed = sp := Option.some.inj hsp
    rfl
  · obtain rfl : Space.bestEffort = sp := Option.some.inj hsp
    rfl

end Sender

namespace Network

/-- The number that the next message to a remote gets; a remote that is not there yet starts
at one. -/
def nextNumber (n : Network) (eid : String) (sp : Space) : UInt32 :=
  ((n.remotes.get? eid).map fun e => e.tx.next sp).getD 1

/-- No number is given and none taken back, as long as the socket is open. -/
def KeepsNumbers (n n' : Network) : Prop :=
  n'.udp = true → n.udp = true ∧ ∀ eid sp, n'.nextNumber eid sp = n.nextNumber eid sp

theorem KeepsNumbers.of_remotes {n n' : Network} (hudp : n'.udp = n.udp)
    (hr : n'.remotes = n.remotes) : n.KeepsNumbers n' := by
  intro h
  refine ⟨hudp ▸ h, fun eid sp => ?_⟩
  rw [nextNumber, nextNumber, hr]

variable (n : Network)

theorem KeepsNumbers.refl : n.KeepsNumbers n := .of_remotes rfl rfl

theorem KeepsNumbers.trans {n n₁ n₂ : Network} (h : n.KeepsNumbers n₁) (h' : n₁.KeepsNumbers n₂) :
    n.KeepsNumbers n₂ := by
  intro hudp
  obtain ⟨hudp₁, hnum₁⟩ := h' hudp
  obtain ⟨hudp₀, hnum₀⟩ := h hudp₁
  exact ⟨hudp₀, fun eid sp => (hnum₁ eid sp).trans (hnum₀ eid sp)⟩

theorem modifyRemote_keepsNumbers (eid : String) {f : Endpoint → Endpoint}
    (hf : ∀ e sp, (f e).tx.next sp = e.tx.next sp) : n.KeepsNumbers (n.modifyRemote eid f) := by
  intro hudp
  refine ⟨?_, fun id sp => ?_⟩
  · unfold modifyRemote at hudp
    split at hudp <;> exact hudp
  · unfold nextNumber
    rw [get?_modifyRemote]
    split_ifs
    · cases n.remotes.get? id with
      | none => rfl
      | some e => exact hf e sp
    · rfl

theorem ensureRemote_keepsNumbers (eid ip : String) (udpPort : UInt16) (member : Bool) :
    n.KeepsNumbers (n.ensureRemote eid ip udpPort member).1 := by
  rcases n.ensureRemote_cases eid ip udpPort member with heq | heq | ⟨hnone, heq⟩
  · rw [heq]
    exact .refl n
  · rw [heq]
    exact n.modifyRemote_keepsNumbers eid fun _ _ => rfl
  · rw [heq]
    intro hudp
    refine ⟨hudp, fun id sp => ?_⟩
    by_cases hid : id = eid
    · -- A new endpoint starts where an absent one is said to start.
      subst hid
      cases sp <;> simp [nextNumber, hnone, Endpoint.new, Sender.new, Sender.next]
    · simp [nextNumber, hid]

theorem noteSource_keepsNumbers (eid srcIp : String) (srcPort : UInt16) :
    n.KeepsNumbers (n.noteSource eid srcIp srcPort) := by
  unfold noteSource
  split_ifs
  · exact n.ensureRemote_keepsNumbers eid srcIp srcPort false
  · unfold queuePendingPeer
    split_ifs <;> exact .of_remotes rfl rfl
  · exact .refl n

theorem applyAck_keepsNumbers (eid : String) (ack : UInt32) :
    n.KeepsNumbers (n.applyAck eid ack) := by
  unfold applyAck
  split_ifs
  · exact n.modifyRemote_keepsNumbers eid fun _ sp => by cases sp <;> rfl
  · exact .refl n

theorem receive_keepsNumbers (p : Packet) (srcIp : String) (srcPort : UInt16) :
    n.KeepsNumbers (n.receive p srcIp srcPort).1 := by
  have hnoted : n.KeepsNumbers ((n.noteSource p.entity srcIp srcPort).applyAck p.entity p.ack) :=
    (n.noteSource_keepsNumbers p.entity srcIp srcPort).trans (applyAck_keepsNumbers _ _ _)
  obtain ⟨poll, heq | ⟨-, heq⟩ | ⟨-, heq⟩ | ⟨-, -, heq⟩⟩ := n.receive_cases p srcIp srcPort
  all_goals
    rw [heq]
    exact hnoted.trans (.of_remotes rfl rfl)

theorem onMessage_keepsNumbers (f : PendingRx) (now : ℕ) :
    n.KeepsNumbers (n.onMessage f now).1 := by
  unfold onMessage
  split
  · exact n.modifyRemote_keepsNumbers f.entity fun _ _ => rfl
  · exact .refl n

theorem service_next (e : Endpoint) (entity : String) (now : ℕ) (sp : Space) :
    (e.service entity now).1.tx.next sp = e.tx.next sp := by
  have hdue : (e.tx.due now).1.next sp = e.tx.next sp := by
    unfold Sender.due
    split_ifs <;> cases sp <;> rfl
  exact hdue

theorem reliableService_keepsNumbers (now : ℕ) : n.KeepsNumbers (n.reliableService now).1 := by
  unfold reliableService
  split_ifs with hudp
  · exact .refl n
  · intro h
    refine ⟨h, fun eid sp => ?_⟩
    unfold nextNumber
    rw [OrdMap.get?_mapVals]
    cases n.remotes.get? eid with
    | none => rfl
    | some e =>
      simp only [Option.map_some, Option.getD_some]
      split_ifs
      · exact service_next e n.localEntity now sp
      · rfl

theorem noteHold_keepsNumbers (now : ℕ) : n.KeepsNumbers (n.noteHold now).1 := by
  unfold noteHold
  split_ifs <;> exact .of_remotes rfl rfl

theorem boxRel_keepsNumbers : BoxRel KeepsNumbers where
  refl := KeepsNumbers.refl
  trans := KeepsNumbers.trans
  fresh _ _ := .of_remotes rfl rfl
  connect _ := .of_remotes rfl rfl
  endpoint _ _ := .of_remotes rfl rfl
  type10 _ := .of_remotes rfl rfl
  type12 _ := .of_remotes rfl rfl
  noteHold := noteHold_keepsNumbers
  receive := receive_keepsNumbers
  waiting _ _ := .of_remotes rfl rfl
  onMessage := onMessage_keepsNumbers
  service := reliableService_keepsNumbers
  -- The socket is closed, so nothing is said about the numbers of a box that was left.
  leave _ h := by cases h

end Network

namespace Handle

variable {h : Handle}

/-- Whether an event sends to the remotes. -/
def isSend : ShimEvent → Bool
  | .send _ _ _ _ _ => true
  | _ => false

theorem ensureRemote_keepsNumbers (h : Handle) (net : ℕ) (eid ip : String) (udpPort : UInt16)
    (member : Bool) : h.Boxwise Network.KeepsNumbers (h.ensureRemote net eid ip udpPort member) := by
  have hset : h.Boxwise Network.KeepsNumbers
      (h.modifyBox net fun n => (n.ensureRemote eid ip udpPort member).1) :=
    .modifyBox Network.boxRel_keepsNumbers h net fun n =>
      n.ensureRemote_keepsNumbers eid ip udpPort member
  rw [ensureRemote_eq]
  split_ifs
  · exact .queueSc Network.boxRel_keepsNumbers hset _
  · exact hset

theorem step_keepsNumbers (hn : h.Numbered) {e : ShimEvent} (he : isSend e = false) :
    h.Boxwise Network.KeepsNumbers (h.step e) := by
  have hrest (hb : boxwise e = true) : h.Boxwise Network.KeepsNumbers (h.step e) :=
    step_boxwise Network.boxRel_keepsNumbers hn hb
  cases e with
  | ensureRemote net eid ip udpPort member =>
    exact h.ensureRemote_keepsNumbers net eid ip udpPort member
  | drainPeer net member =>
    show h.Boxwise Network.KeepsNumbers (h.drainPeer net member)
    unfold drainPeer
    split
    · exact .refl Network.boxRel_keepsNumbers h
    · rename_i n hget
      split
      · exact .refl Network.boxRel_keepsNumbers h
      · rename_i eid ip udpPort rest _
        have hpop : n.KeepsNumbers { n with pendingPeers := rest } := .of_remotes rfl rfl
        exact .trans Network.boxRel_keepsNumbers
          (.setBox Network.boxRel_keepsNumbers hget hpop)
          (ensureRemote_keepsNumbers _ net eid ip udpPort member)
  | send net kind payload options now => cases he
  | _ => exact hrest rfl

end Handle

/-- One queued send. `call` says which call of the game it comes from, and is 0 for a HELLO; the
fields that only the diagnostics read are left out. -/
structure OutJob where
  net : ℕ
  kind : UInt8
  options : UInt32
  payload : Bytes
  call : ℕ
  deriving DecidableEq, Repr

/-- The job is a message of a network in a space. -/
def OutJob.isFor (net : ℕ) (sp : Space) (j : OutJob) : Bool :=
  decide (j.net = net ∧ j.kind = kindMsg ∧ spaceOf j.options = some sp)

/-- A message as it left for one remote. -/
structure Sent where
  call : ℕ
  remote : Remote
  options : UInt32
  seq : UInt32
  deriving DecidableEq, Repr

def outboxBatch : ℕ := 128

/-- The handle with the transport flag, the outbox, the batch that a consumer has popped, the
number of calls so far and the messages that have left. -/
structure Handover where
  handle : Handle
  up : Bool
  outbox : List OutJob
  taken : List OutJob
  calls : ℕ
  sent : List Sent

/-- `call` and `hello` are late when they loaded the flag before it fell. `take` and `takeFor` pop
jobs, as `service_outbox` of either consumer and as `drain_outbox_for` before a leave; they hold
the handle mutex until the popped jobs are processed. `down` is the end of the transport thread,
which may take its batch with it. -/
inductive HandoverEvent where
  | call (net : ℕ) (payload : Bytes) (options : UInt32) (late : Bool) (now : ℕ)
  | hello (net : ℕ) (late : Bool) (now : ℕ)
  | take
  | takeFor (net : ℕ)
  | process (now : ℕ)
  | down (inBatch : Bool)
  | other (e : ShimEvent) (he : Handle.isSend e = false)

namespace Handover

def fresh (up : Bool) : Handover := ⟨Handle.new, up, [], [], 0, []⟩

/-- The messages that a send makes leave. -/
def leaving (s : Handover) (j : OutJob) (now : ℕ) : List Sent :=
  match s.handle.boxes.get? j.net with
  | none => []
  | some n =>
      if j.kind == kindMsg then
        (n.sendUdpAll j.kind j.payload j.options now).2.map fun x =>
          ⟨j.call, (j.net, x.1), j.options, x.2.seq⟩
      else []

/-- `process_out_job`, and the inline path of the two senders. -/
def processOutJob (s : Handover) (j : OutJob) (now : ℕ) : Handover :=
  { s with
    handle := s.handle.modifyBox j.net fun n => (n.sendUdpAll j.kind j.payload j.options now).1
    sent := s.sent ++ s.leaving j now }

/-- Queue a job, or send it at once without a live consumer. -/
def dispatch (s : Handover) (j : OutJob) (late : Bool) (now : ℕ) : Handover :=
  if s.up || late then { s with outbox := s.outbox ++ [j] } else s.processOutJob j now

def step (s : Handover) : HandoverEvent → Handover
  | .call net payload options late now =>
      { s with calls := s.calls + 1 }.dispatch ⟨net, kindMsg, options, payload, s.calls⟩ late now
  | .hello net late now => s.dispatch ⟨net, kindHello, 0, [], 0⟩ late now
  | .take =>
      if s.taken.isEmpty then
        { s with taken := s.outbox.take outboxBatch, outbox := s.outbox.drop outboxBatch }
      else s
  | .takeFor net =>
      if s.taken.isEmpty then
        { s with
          taken := s.outbox.filter fun j => j.net == net
          outbox := s.outbox.filter fun j => j.net != net }
      else s
  | .process now =>
      match s.taken with
      | [] => s
      | j :: rest => { s with taken := rest }.processOutJob j now
  | .down inBatch => { s with up := false, taken := if inBatch then [] else s.taken }
  | .other e _ => { s with handle := s.handle.step e }

/-- The messages that a remote was sent in one space, in the order of their sending. -/
def numbered (s : Handover) (r : Remote) (sp : Space) : List Sent :=
  s.sent.filter fun x => decide (x.remote = r ∧ spaceOf x.options = some sp)

/-- The messages of a network and a space that were called for and not sent. -/
def waiting (s : Handover) (net : ℕ) (sp : Space) : List OutJob :=
  (s.taken ++ s.outbox).filter (OutJob.isFor net sp)

/-- Nothing is sent past a message that waits: a call that finds the transport down finds no
message of its network and its space in the outbox or in a popped batch. -/
def Clear (s : Handover) : HandoverEvent → Prop
  | .call net _ options late _ =>
      (s.up || late) = true ∨ ∀ sp ∈ spaceOf options, s.waiting net sp = []
  | _ => True

instance (s : Handover) : ∀ e, Decidable (s.Clear e)
  | .call net _ options late _ => inferInstanceAs
      (Decidable ((s.up || late) = true ∨ ∀ sp ∈ spaceOf options, s.waiting net sp = []))
  | .hello _ _ _ | .take | .takeFor _ | .process _ | .down _ | .other _ _ =>
      inferInstanceAs (Decidable True)

end Handover

/-! ### One send -/

namespace Network

variable (n : Network) (kind : UInt8) (payload : Bytes) (options : UInt32) (now : ℕ)

theorem sendUdpAll_udp : (n.sendUdpAll kind payload options now).1.udp = n.udp := by
  unfold sendUdpAll
  split_ifs <;> rfl

/-- The packets of one remote. -/
theorem sendUdpAll_filter (eid : String) :
    (n.sendUdpAll kind payload options now).2.filter (fun x => decide (x.1 = eid)) =
      (((n.remotes.get? eid).filter fun e => n.udp && e.hasAddr).map fun e =>
        (eid, (e.sendTo n.localEntity kind payload options now).2)).toList := by
  unfold sendUdpAll
  cases hudp : n.udp with
  | false =>
    cases n.remotes.get? eid <;> simp
  | true =>
    simp only [Bool.not_true, Bool.false_eq_true, if_false, Bool.true_and]
    rw [List.filter_map, List.filter_filter]
    have hswap : (n.remotes.entries.filter fun x =>
        ((fun x : String × Packet => decide (x.1 = eid)) ∘ fun x : String × Endpoint =>
          (x.1, (x.2.sendTo n.localEntity kind payload options now).2)) x && x.2.hasAddr) =
        (n.remotes.entries.filter fun x => decide (x.1 = eid)).filter fun x => x.2.hasAddr := by
      rw [List.filter_filter]
      congr 1
      funext x
      exact Bool.and_comm _ _
    rw [hswap, OrdMap.filter_key]
    cases n.remotes.get? eid with
    | none => rfl
    | some e => cases haddr : e.hasAddr <;> simp [haddr, Option.filter]

/-- A remote takes a number exactly when its packet carries it. -/
theorem sendUdpAll_nextNumber (eid : String) (sp : Space) :
    (n.sendUdpAll kind payload options now).1.nextNumber eid sp =
      if kind = kindMsg ∧ spaceOf options = some sp ∧
          ((n.remotes.get? eid).filter fun e => n.udp && e.hasAddr).isSome = true
      then n.nextNumber eid sp + 1 else n.nextNumber eid sp := by
  cases hudp : n.udp with
  | false =>
    have hsame : (n.sendUdpAll kind payload options now).1 = n := by simp [sendUdpAll, hudp]
    rw [hsame]
    cases n.remotes.get? eid <;> simp [Option.filter]
  | true =>
    unfold nextNumber
    rw [get?_sendUdpAll hudp]
    cases hget : n.remotes.get? eid with
    | none => simp [Option.filter]
    | some e =>
      cases haddr : e.hasAddr with
      | false => simp [haddr, Option.filter]
      | true =>
        by_cases hk : kind = kindMsg
        · subst hk
          simp [haddr, Option.filter, Endpoint.sendTo, Sender.send_next]
        · simp [haddr, Option.filter, Endpoint.sendTo, hk]

end Network

namespace Handover

variable {s : Handover}

theorem numbered_append (s : Handover) (j : OutJob) (now : ℕ) (r : Remote) (sp : Space) :
    (s.processOutJob j now).numbered r sp = s.numbered r sp ++
      (s.leaving j now).filter fun x => decide (x.remote = r ∧ spaceOf x.options = some sp) :=
  List.filter_append _ _

/-- The messages of one remote and space among those that a send makes leave. -/
theorem leaving_filter {j : OutJob} {n : Network} (hget : s.handle.boxes.get? j.net = some n)
    (now : ℕ) (eid : String) (sp : Space) :
    (s.leaving j now).filter
        (fun x => decide (x.remote = (j.net, eid) ∧ spaceOf x.options = some sp)) =
      if j.kind = kindMsg ∧ spaceOf j.options = some sp ∧
          ((n.remotes.get? eid).filter fun e => n.udp && e.hasAddr).isSome = true
      then [⟨j.call, (j.net, eid), j.options, n.nextNumber eid sp⟩] else [] := by
  unfold leaving
  rw [hget]
  by_cases hk : j.kind = kindMsg
  · by_cases hsp : spaceOf j.options = some sp
    · have hmap : (fun x : Sent => decide (x.remote = (j.net, eid) ∧ spaceOf x.options = some sp)) ∘
          (fun x : String × Packet => (⟨j.call, (j.net, x.1), j.options, x.2.seq⟩ : Sent)) =
          fun x => decide (x.1 = eid) := by
        funext x
        simp [hsp]
      simp only [hk, beq_self_eq_true, if_true, List.filter_map, hmap, hsp, true_and]
      rw [n.sendUdpAll_filter]
      cases he : (n.remotes.get? eid).filter fun e => n.udp && e.hasAddr with
      | none => rfl
      | some e =>
        -- The packet carries the next number of the endpoint.
        have hmem : n.remotes.get? eid = some e := (Option.filter_eq_some_iff.mp he).1
        simp [Endpoint.sendTo, Network.nextNumber, hmem, Sender.send_seq _ _ _ hsp]
    · have hnone : ∀ x ∈ (if (j.kind == kindMsg) = true then
          (n.sendUdpAll j.kind j.payload j.options now).2.map fun x =>
            (⟨j.call, (j.net, x.1), j.options, x.2.seq⟩ : Sent) else []),
          ¬(decide (x.remote = (j.net, eid) ∧ spaceOf x.options = some sp) = true) := by
        intro x hx
        rw [if_pos (by simp [hk])] at hx
        obtain ⟨y, -, rfl⟩ := List.mem_map.mp hx
        simp [hsp]
      simp only [hsp, false_and, and_false, if_false]
      exact List.filter_eq_nil_iff.mpr hnone
  · simp [hk]

/-- What one send does to the record of a remote in a space: nothing, or one more message under
the next number. -/
theorem processOutJob_cases (s : Handover) (j : OutJob) (now : ℕ) (r : Remote) (sp : Space) :
    let s' := s.processOutJob j now
    (s'.handle.box r.1).udp = (s.handle.box r.1).udp ∧
    ((s'.numbered r sp = s.numbered r sp ∧ (s'.handle.box r.1).nextNumber r.2 sp =
        (s.handle.box r.1).nextNumber r.2 sp) ∨
      (j.isFor r.1 sp = true ∧ (s.handle.box r.1).udp = true ∧
        s'.numbered r sp = s.numbered r sp ++
          [⟨j.call, r, j.options, (s.handle.box r.1).nextNumber r.2 sp⟩] ∧
        (s'.handle.box r.1).nextNumber r.2 sp = (s.handle.box r.1).nextNumber r.2 sp + 1)) := by
  intro s'
  obtain ⟨net, eid⟩ := r
  have hbox (k : ℕ) : (s'.handle.boxes.get? k) = if k = j.net then
      (s.handle.boxes.get? k).map fun n => (n.sendUdpAll j.kind j.payload j.options now).1
      else s.handle.boxes.get? k := Handle.get?_modifyBox _ _ _ k
  have hnum := s.numbered_append j now (net, eid) sp
  by_cases hnet : net = j.net
  · subst hnet
    cases hget : s.handle.boxes.get? j.net with
    | none =>
      have hsame : s'.handle.box j.net = s.handle.box j.net := by simp [Handle.box, hbox, hget]
      have hleave : s.leaving j now = [] := by simp [leaving, hget]
      rw [hleave, List.filter_nil, List.append_nil] at hnum
      rw [hsame]
      exact ⟨rfl, Or.inl ⟨hnum, rfl⟩⟩
    | some n =>
      have hnew : s'.handle.box j.net = (n.sendUdpAll j.kind j.payload j.options now).1 := by
        simp [Handle.box, hbox, hget]
      rw [leaving_filter hget] at hnum
      rw [hnew, Handle.box_eq hget, n.sendUdpAll_udp, n.sendUdpAll_nextNumber]
      refine ⟨rfl, ?_⟩
      split_ifs at hnum ⊢ with htakes
      · obtain ⟨hk, hsp, hpresent⟩ := htakes
        have hudp : n.udp = true := by
          obtain ⟨e, he⟩ := Option.isSome_iff_exists.mp hpresent
          have := (Option.filter_eq_some_iff.mp he).2
          simp only [Bool.and_eq_true] at this
          exact this.1
        exact Or.inr ⟨by simp [OutJob.isFor, hk, hsp], hudp, hnum, rfl⟩
      · rw [List.append_nil] at hnum
        exact Or.inl ⟨hnum, rfl⟩
  · have hsame : s'.handle.box net = s.handle.box net := by simp [Handle.box, hbox, hnet]
    have hleave : (s.leaving j now).filter
        (fun x => decide (x.remote = (net, eid) ∧ spaceOf x.options = some sp)) = [] := by
      rw [List.filter_eq_nil_iff]
      intro x hx
      unfold leaving at hx
      split at hx
      · cases hx
      · split_ifs at hx
        · obtain ⟨y, -, rfl⟩ := List.mem_map.mp hx
          simp [Ne.symm hnet]
        · cases hx
    rw [hleave, List.append_nil] at hnum
    rw [hsame]
    exact ⟨rfl, Or.inl ⟨hnum, rfl⟩⟩

/-! ### The order of the calls -/

/-- The calls of the numbered messages, then those of the waiting ones, then the next call. -/
structure Sound (s : Handover) : Prop where
  boxes : s.handle.Numbered
  order : ∀ r sp, ((s.numbered r sp).map Sent.call ++ (s.waiting r.1 sp).map OutJob.call ++
    [s.calls]).Pairwise (· < ·)
  next : ∀ r sp, (s.handle.box r.1).udp = true →
    (s.handle.box r.1).nextNumber r.2 sp = UInt32.ofNat ((s.numbered r sp).length + 1)
  numbers : ∀ r sp k x, (s.numbered r sp)[k]? = some x → x.seq = UInt32.ofNat (k + 1)

theorem sound_fresh (up : Bool) : Sound (fresh up) where
  boxes _ _ hget := by cases hget
  order r sp := by simp [fresh, numbered, waiting]
  next r sp _ := by simp [fresh, numbered, Handle.box, Handle.new, Network.nextNumber, Network.new]
  numbers r sp k x hx := by simp [fresh, numbered] at hx

/-- The outbox and the batch change, and the waiting messages of each space with them. -/
theorem Sound.requeue (hs : s.Sound) {up : Bool} {outbox taken : List OutJob}
    (hw : ∀ net sp, ((taken ++ outbox).filter (OutJob.isFor net sp)).Sublist (s.waiting net sp)) :
    Sound { s with up := up, outbox := outbox, taken := taken } where
  boxes := hs.boxes
  order r sp := by
    refine (hs.order r sp).sublist ?_
    exact ((List.Sublist.refl _).append ((hw r.1 sp).map OutJob.call)).append (.refl _)
  next := hs.next
  numbers := hs.numbers

theorem pairwise_lt_append_singleton {l : List ℕ} {a : ℕ} :
    (l ++ [a]).Pairwise (· < ·) ↔ l.Pairwise (· < ·) ∧ ∀ x ∈ l, x < a := by
  simp [List.pairwise_append]

/-- A call takes its index. -/
theorem Sound.count (hs : s.Sound) : Sound { s with calls := s.calls + 1 } where
  boxes := hs.boxes
  order r sp := by
    have hold := pairwise_lt_append_singleton.mp (hs.order r sp)
    refine pairwise_lt_append_singleton.mpr ⟨hold.1, fun x hx => ?_⟩
    exact (hold.2 x hx).trans (Nat.lt_succ_self _)
  next := hs.next
  numbers := hs.numbers

/-- A message may be sent when its call lies between the numbered and the waiting ones. -/
theorem Sound.processOutJob (hs : s.Sound) {j : OutJob} (now : ℕ)
    (hj : ∀ r sp, j.isFor r.1 sp = true → ((s.numbered r sp).map Sent.call ++ [j.call] ++
      (s.waiting r.1 sp).map OutJob.call ++ [s.calls]).Pairwise (· < ·)) :
    (s.processOutJob j now).Sound where
  boxes := (Handle.Alike.modifyBox s.handle j.net fun n =>
    n.sendUdpAll_sameRemotes j.kind j.payload j.options now).numbered hs.boxes
  order r sp := by
    obtain ⟨-, ⟨hnum, -⟩ | ⟨hfor, -, hnum, -⟩⟩ := s.processOutJob_cases j now r sp
    · rw [hnum]
      exact hs.order r sp
    · rw [hnum, List.map_append]
      exact hj r sp hfor
  next r sp hudp := by
    obtain ⟨hsame, ⟨hnum, hnext⟩ | ⟨-, -, hnum, hnext⟩⟩ := s.processOutJob_cases j now r sp
    · rw [hnum, hnext]
      exact hs.next r sp (hsame ▸ hudp)
    · rw [hnum, hnext, hs.next r sp (hsame ▸ hudp), List.length_append, List.length_singleton]
      exact (UInt32.ofNat_add _ 1).symm
  numbers r sp k x hx := by
    obtain ⟨-, ⟨hnum, -⟩ | ⟨-, hudp, hnum, -⟩⟩ := s.processOutJob_cases j now r sp
    · rw [hnum] at hx
      exact hs.numbers r sp k x hx
    · rw [hnum, List.getElem?_append] at hx
      split_ifs at hx with hlt
      · exact hs.numbers r sp k x hx
      · -- The new message stands behind all the others.
        obtain ⟨hk, hlast⟩ := List.getElem?_eq_some_iff.mp hx
        have hend : k - (s.numbered r sp).length < 1 := hk
        rw [← hlast, List.getElem_singleton, hs.next r sp hudp]
        show UInt32.ofNat ((s.numbered r sp).length + 1) = UInt32.ofNat (k + 1)
        congr 1
        omega

theorem waiting_append (s : Handover) (j : OutJob) (net : ℕ) (sp : Space) :
    (s.taken ++ (s.outbox ++ [j])).filter (OutJob.isFor net sp) =
      s.waiting net sp ++ [j].filter (OutJob.isFor net sp) := by
  rw [← List.append_assoc, List.filter_append, waiting]

/-- A message is queued behind everything that was called for before. -/
theorem Sound.enqueue_call (hs : s.Sound) {j : OutJob} (hj : j.call = s.calls) :
    Sound { s with calls := s.calls + 1, outbox := s.outbox ++ [j] } where
  boxes := hs.boxes
  order r sp := by
    have hold := hs.order r sp
    show ((s.numbered r sp).map Sent.call ++ ((s.taken ++ (s.outbox ++ [j])).filter
      (OutJob.isFor r.1 sp)).map OutJob.call ++ [s.calls + 1]).Pairwise (· < ·)
    rw [waiting_append]
    cases hfor : j.isFor r.1 sp with
    | false =>
      simp only [List.filter_cons_of_neg (by simp [hfor] : ¬j.isFor r.1 sp = true), List.filter_nil,
        List.append_nil]
      exact hs.count.order r sp
    | true =>
      rw [List.filter_cons_of_pos hfor, List.filter_nil, List.map_append, List.map_singleton, hj,
        ← List.append_assoc]
      refine pairwise_lt_append_singleton.mpr ⟨hold, fun x hx => ?_⟩
      have hlast := pairwise_lt_append_singleton.mp hold
      rcases List.mem_append.mp hx with hx | hx
      · exact (hlast.2 x hx).trans (Nat.lt_succ_self _)
      · rw [List.mem_singleton.mp hx]
        exact Nat.lt_succ_self _
  next := hs.next
  numbers := hs.numbers

theorem Sound.call (hs : s.Sound) (net : ℕ) (payload : Bytes) (options : UInt32) (late : Bool)
    (now : ℕ) (hclear : s.Clear (.call net payload options late now)) :
    (s.step (.call net payload options late now)).Sound := by
  show (dispatch _ _ late now).Sound
  unfold dispatch
  split_ifs with hup
  · exact hs.enqueue_call rfl
  · refine hs.count.processOutJob now fun r sp hfor => ?_
    obtain ⟨hnet, -, hsp⟩ := of_decide_eq_true hfor
    have hempty : s.waiting r.1 sp = [] := hnet ▸ (hclear.resolve_left hup) sp hsp
    have hold := hs.order r sp
    have hempty' : ({ s with calls := s.calls + 1 } : Handover).waiting r.1 sp = [] := hempty
    rw [hempty, List.map_nil, List.append_nil] at hold
    rw [hempty', List.map_nil, List.append_nil]
    refine pairwise_lt_append_singleton.mpr ⟨hold, fun x hx => ?_⟩
    have hlast := pairwise_lt_append_singleton.mp hold
    rcases List.mem_append.mp hx with hx | hx
    · exact (hlast.2 x hx).trans (Nat.lt_succ_self _)
    · rw [List.mem_singleton.mp hx]
      exact Nat.lt_succ_self _

theorem hello_isFor (net k : ℕ) (sp : Space) :
    OutJob.isFor k sp ⟨net, kindHello, 0, [], 0⟩ = false := by
  simp [OutJob.isFor, kindHello, kindMsg]

theorem Sound.hello (hs : s.Sound) (net : ℕ) (late : Bool) (now : ℕ) :
    (s.step (.hello net late now)).Sound := by
  show (s.dispatch _ late now).Sound
  unfold dispatch
  split_ifs
  · refine hs.requeue fun k sp => ?_
    rw [waiting_append, List.filter_cons_of_neg (by simp [hello_isFor]), List.filter_nil,
      List.append_nil]
  · refine hs.processOutJob now fun r sp hfor => ?_
    rw [hello_isFor] at hfor
    cases hfor

theorem Sound.process (hs : s.Sound) (now : ℕ) : (s.step (.process now)).Sound := by
  show Sound (match s.taken with | [] => s | j :: rest => { s with taken := rest }.processOutJob j now)
  cases htaken : s.taken with
  | nil => exact hs
  | cons j rest =>
    have hrest : Sound { s with taken := rest } := hs.requeue fun net sp => by
      rw [waiting, htaken]
      exact ((List.sublist_cons_self j rest).append_right s.outbox).filter _
    refine hrest.processOutJob now fun r sp hfor => ?_
    have hold := hs.order r sp
    rw [waiting, htaken, List.cons_append, List.filter_cons_of_pos hfor, List.map_cons] at hold
    simpa [waiting, numbered] using hold

theorem Sound.take (hs : s.Sound) : (s.step .take).Sound := by
  show Sound (if s.taken.isEmpty then _ else s)
  split_ifs with hempty
  · refine hs.requeue fun net sp => ?_
    have hnil : s.taken = [] := List.isEmpty_iff.mp hempty
    rw [List.take_append_drop, waiting, hnil, List.nil_append]
  · exact hs

theorem Sound.takeFor (hs : s.Sound) (net : ℕ) : (s.step (.takeFor net)).Sound := by
  show Sound (if s.taken.isEmpty then _ else s)
  split_ifs with hempty
  · refine hs.requeue fun k sp => ?_
    have hnil : s.taken = [] := List.isEmpty_iff.mp hempty
    rw [waiting, hnil, List.nil_append, List.filter_append, List.filter_filter, List.filter_filter]
    -- The jobs of one network are all popped or all left.
    by_cases hk : k = net
    · have hleft : s.outbox.filter (fun j => j.isFor k sp && j.net != net) = [] := by
        rw [List.filter_eq_nil_iff]
        intro j _ hj
        simp only [OutJob.isFor, Bool.and_eq_true, decide_eq_true_eq, bne_iff_ne] at hj
        exact hj.2 (hj.1.1.trans hk)
      rw [hleft, List.append_nil]
      exact List.monotone_filter_right _ fun j hj => (Bool.and_eq_true_iff.mp hj).1
    · have hpopped : s.outbox.filter (fun j => j.isFor k sp && j.net == net) = [] := by
        rw [List.filter_eq_nil_iff]
        intro j _ hj
        simp only [OutJob.isFor, Bool.and_eq_true, decide_eq_true_eq, beq_iff_eq] at hj
        exact hk (hj.1.1.symm.trans hj.2)
      rw [hpopped, List.nil_append]
      exact List.monotone_filter_right _ fun j hj => (Bool.and_eq_true_iff.mp hj).1
  · exact hs

theorem Sound.other (hs : s.Sound) {e : ShimEvent} (he : Handle.isSend e = false) :
    (s.step (.other e he)).Sound where
  boxes := hs.boxes.step e
  order := hs.order
  next r sp hudp := by
    obtain ⟨hold, hnum⟩ := Handle.step_keepsNumbers hs.boxes he r.1 hudp
    exact (hnum r.2 sp).trans (hs.next r sp hold)
  numbers := hs.numbers

theorem Sound.step (hs : s.Sound) {e : HandoverEvent} (hclear : s.Clear e) : (s.step e).Sound := by
  cases e with
  | call net payload options late now => exact hs.call net payload options late now hclear
  | hello net late now => exact hs.hello net late now
  | take => exact hs.take
  | takeFor net => exact hs.takeFor net
  | process now => exact hs.process now
  | down inBatch =>
    refine hs.requeue fun net sp => ?_
    cases inBatch with
    | false => exact .refl _
    | true => exact (List.sublist_append_right s.taken s.outbox).filter _
  | other e he => exact hs.other he

/-- Numbers follow calls, up to the wrap of the 32-bit counter. -/
theorem Sound.seq_lt (hs : s.Sound) {r : Remote} {sp : Space} {x y : Sent}
    (hx : x ∈ s.numbered r sp) (hy : y ∈ s.numbered r sp) (hcall : x.call < y.call)
    (hlen : (s.numbered r sp).length < 2 ^ 32) : x.seq < y.seq := by
  obtain ⟨i, hi, hxi⟩ := List.getElem_of_mem hx
  obtain ⟨k, hk, hyk⟩ := List.getElem_of_mem hy
  have horder : ((s.numbered r sp).map Sent.call).Pairwise (· < ·) :=
    (hs.order r sp).sublist ((List.sublist_append_left _ _).trans (List.sublist_append_left _ _))
  rw [List.pairwise_map, List.pairwise_iff_getElem] at horder
  have hik : i < k := by
    by_contra hnot
    rcases Nat.lt_or_eq_of_le (Nat.le_of_not_lt hnot) with hlt | heq
    · have := horder k i hk hi hlt
      rw [hxi, hyk] at this
      omega
    · subst heq
      obtain rfl : x = y := hxi.symm.trans hyk
      exact lt_irrefl _ hcall
  have hxs := hs.numbers r sp i x (List.getElem?_eq_some_iff.mpr ⟨hi, hxi⟩)
  have hys := hs.numbers r sp k y (List.getElem?_eq_some_iff.mpr ⟨hk, hyk⟩)
  rw [hxs, hys, UInt32.lt_iff_toNat_lt, UInt32.toNat_ofNat', UInt32.toNat_ofNat',
    Nat.mod_eq_of_lt (by omega), Nat.mod_eq_of_lt (by omega)]
  omega

/-- In a run in which nothing is sent past a waiting message of its network and space, whichever
steps drain the outbox and wherever the transport goes down: every remote is sent the messages of
a space in the order of the calls, the k-th of them under the number k, and so a later call never
gets a smaller number as long as the counter of the space does not wrap. -/
theorem numbered_in_call_order (up : Bool) (es : List HandoverEvent)
    (hclear : Along step Clear (fresh up) es) (r : Remote) (sp : Space) :
    let s := run step (fresh up) es
    (s.numbered r sp).Pairwise (fun x y => x.call < y.call) ∧
      (∀ k x, (s.numbered r sp)[k]? = some x → x.seq = UInt32.ofNat (k + 1)) ∧
      ∀ x ∈ s.numbered r sp, ∀ y ∈ s.numbered r sp, x.call < y.call →
        (s.numbered r sp).length < 2 ^ 32 → x.seq < y.seq := by
  intro s
  have hs : s.Sound := run_invariant (fun _ _ h hc => h.step hc) (sound_fresh up) hclear
  refine ⟨?_, hs.numbers r sp, fun x hx y hy hcall hlen => hs.seq_lt hx hy hcall hlen⟩
  have horder : ((s.numbered r sp).map Sent.call).Pairwise (· < ·) :=
    (hs.order r sp).sublist ((List.sublist_append_left _ _).trans (List.sublist_append_left _ _))
  exact List.pairwise_map.mp horder

/-- The game meets the guest. -/
def meeting : List HandoverEvent :=
  [.other (.connect "lan" (some "host")) rfl, .other (.createEndpoint 1 (some "host")) rfl,
    .other (.start 0) rfl,
    .other (.finish 2 (some [some (controlSc 3 1 none), some (controlSc 10 1 none)])) rfl,
    .other (.ensureRemote 1 "guest" "10.0.0.2" 27015 true) rfl]

/-- Two messages, with the outbox drained before the second, which finds the transport down. -/
def drainedHandover : List HandoverEvent :=
  [.call 1 [7] 3 false 1, .take, .process 2, .down false, .call 1 [8] 3 false 3]

theorem numbered_in_call_order_drained :
    let s := run step (fresh true) (meeting ++ drainedHandover)
    s.numbered (1, "guest") .guaranteed = [⟨0, (1, "guest"), 3, 1⟩, ⟨1, (1, "guest"), 3, 2⟩] ∧
      (s.numbered (1, "guest") .guaranteed).Pairwise fun x y => x.call < y.call := by
  refine ⟨by decide +kernel, ?_⟩
  exact (numbered_in_call_order true (meeting ++ drainedHandover) (by decide +kernel) (1, "guest")
    .guaranteed).1

/-- The same two messages, with the first one still in the outbox when the transport goes down. -/
def queuedHandover : List HandoverEvent :=
  [.call 1 [7] 3 false 1, .down false, .call 1 [8] 3 false 2, .take, .process 3]

/-- The guest is there with its address all the time, and the second call gets the smaller
number. -/
theorem queuedHandover_overtakes :
    let s₀ := run step (fresh true) meeting
    (∀ k ≤ 5, ((run step s₀ (queuedHandover.take k)).handle.boxes.get? 1).any (fun n =>
      n.udp && (n.remotes.get? "guest").any Endpoint.hasAddr) = true) ∧
    (run step s₀ queuedHandover).numbered (1, "guest") .guaranteed =
      [⟨1, (1, "guest"), 3, 1⟩, ⟨0, (1, "guest"), 3, 2⟩] := by
  decide +kernel

end Handover

end GbfrLan.Party
