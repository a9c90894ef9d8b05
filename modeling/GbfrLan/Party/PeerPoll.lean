import GbfrLan.Party.BrokerQueue
import GbfrLan.Party.Shim

/-!
# Peer polls

A network box asks the broker thread for the members of its network. The thread keeps the
answer under the epoch of the box until the tick applies it, so requests, answers and boxes
have lives of their own: a box may be left and taken back, a poll that takes too long is
followed by another one, and an answer may be replaced or swept before it is applied.

The tick, the title and the threads of the broker take turns in any order. `running` holds
the tasks that were taken from the queue and have not answered; with no live broker thread
the caller takes and runs them itself, and a thread that died leaves its task there.
-/
namespace GbfrLan.Party
open Lib Broker

/-- One row of a peer list. -/
structure PeerEntry where
  entity : String
  ip : String
  udpPort : UInt16
  deriving DecidableEq, Repr

structure PeerPollResult where
  seq : ℕ
  members : List PeerEntry
  deriving DecidableEq, Repr

def peerPollTimeoutMs : ℕ := 10000

/-- How often a box refreshes its registration. -/
def keepAliveMs : ℕ := 10000

/-- What a network box keeps about its polls; its `poll_epoch` is the name of the box. -/
structure PollState where
  inflight : Bool
  sentAt : ℕ
  appliedSeq : ℕ
  lastRegister : ℕ
  deriving DecidableEq, Repr

def PollState.new (now : ℕ) : PollState := ⟨false, now, 0, now⟩

structure Polling where
  handle : Handle
  polls : OrdMap ℕ PollState
  queue : List BrokerTask
  running : List BrokerTask
  results : OrdMap ℕ PeerPollResult
  /-- `PEER_RESULTS_PENDING`. -/
  resultsPending : ℕ
  nextPollSeq : ℕ

def Polling.new : Polling := ⟨Handle.new, OrdMap.empty, [], [], OrdMap.empty, 0, 1⟩

/-- A loopback address is replaced by the one that the descriptor advertises. -/
def rewritePeerIp (raw : String) (advert : Option String) : String :=
  if isLoopbackIp raw then advert.getD raw else raw

namespace Polling

/-- The title's calls and the transport; a new box starts without a poll. -/
def shim (s : Polling) (e : ShimEvent) (now : ℕ) : Polling :=
  let handle := s.handle.step e
  { s with
    handle := handle
    polls := if handle.nextEpoch = s.handle.nextEpoch then s.polls
      else s.polls.insert s.handle.nextEpoch (PollState.new now) }

/-- The registration that a poll renews when it is due. -/
def keepAlive (s : Polling) (n : Network) (p : PollState) (now : ℕ) (udpPort : UInt16) :
    PollState × List BrokerTask :=
  if keepAliveMs ≤ now - p.lastRegister then
    ({ p with lastRegister := now },
      if n.localEntity.isEmpty then s.queue
      else dispatchBroker s.queue (.register n.id n.localEntity udpPort true))
  else (p, s.queue)

/-- `poll_peers_request`, with the number of the poll that it sends. A poll that has been out
for too long is given up. -/
def pollPeersRequest (s : Polling) (net now : ℕ) (udpPort : UInt16) : Polling × Option ℕ :=
  match s.handle.boxes.get? net, s.polls.get? net with
  | some n, some p =>
      if !n.connectCompleted then (s, none)
      else
        let (p, queue) := s.keepAlive n p now udpPort
        if p.inflight && decide (now - p.sentAt < peerPollTimeoutMs) then
          ({ s with polls := s.polls.insert net p, queue := queue }, none)
        else
          ({ s with
              polls := s.polls.insert net { p with inflight := true, sentAt := now }
              queue := dispatchBroker queue (.pollPeers n.id net s.nextPollSeq)
              nextPollSeq := s.nextPollSeq + 1 }, some s.nextPollSeq)
  | _, _ => (s, none)

/-- A task is taken from the queue. -/
def takeTask (s : Polling) : Polling :=
  match s.queue with
  | [] => s
  | t :: queue => { s with queue := queue, running := s.running ++ [t] }

/-- The answer of a running task; `members` is what was read in it. -/
def answered (s : Polling) (i : ℕ) (members : List PeerEntry) : Option (ℕ × PeerPollResult) :=
  match s.running[i]? with
  | some (.pollPeers _ epoch seq) => some (epoch, ⟨seq, members⟩)
  | _ => none

/-- `broker_run` to its end: the answer of a poll is stored. -/
def finishTask (s : Polling) (i : ℕ) (members : List PeerEntry) : Polling :=
  let results := match s.answered i members with
    | some (epoch, r) => s.results.insert epoch r
    | none => s.results
  { s with
    running := s.running.eraseIdx i
    results := results
    resultsPending := if (s.answered i members).isSome then results.size else s.resultsPending }

def dropStalePeerResults (s : Polling) (live : List ℕ) : Polling :=
  let results := s.results.filter fun epoch _ => live.contains epoch
  { s with
    results := results
    resultsPending := if results.size ≠ s.results.size then results.size else s.resultsPending }

/-- The result that `poll_peers_apply` takes for a box. -/
def taken (s : Polling) (net : ℕ) : Option PeerPollResult :=
  match s.handle.boxes.get? net, s.polls.get? net with
  | some n, some _ => if n.connectCompleted then s.results.get? net else none
  | _, _ => none

/-- What it does with it: an older answer than the last one is dropped. -/
def applied (s : Polling) (net : ℕ) : Option PeerPollResult :=
  (s.taken net).filter fun r => decide (((s.polls.get? net).map PollState.appliedSeq).getD 0 < r.seq)

/-- `poll_peers_apply`; `advert` is the address in the descriptor of the box and `answers` what
the member list of the game says to each row. -/
def pollPeersApply (s : Polling) (net : ℕ) (advert : Option String) (answers : ℕ → Bool) : Polling :=
  match s.taken net with
  | none => s
  | some r =>
      let results := s.results.erase net
      let p := (s.polls.get? net).getD (PollState.new 0)
      let s := { s with results := results, resultsPending := results.size }
      if r.seq ≤ p.appliedSeq then
        { s with polls := s.polls.insert net { p with inflight := false } }
      else
        { s with
          polls := s.polls.insert net { p with inflight := false, appliedSeq := r.seq }
          handle := r.members.zipIdx.foldl (fun h m =>
            h.ensureRemote net m.1.entity (rewritePeerIp m.1.ip advert) m.1.udpPort (answers m.2))
            s.handle }

end Polling

inductive PollEvent where
  | shim (e : ShimEvent) (now : ℕ)
  | request (net now : ℕ) (udpPort : UInt16)
  | register (networkId entity : String) (udpPort : UInt16) (quiet : Bool)
  | leave (networkId entity : String)
  | take
  | finish (i : ℕ) (members : List PeerEntry)
  | sweep (live : List ℕ)
  | apply (net : ℕ) (advert : Option String) (answers : ℕ → Bool)

def Polling.step (s : Polling) : PollEvent → Polling
  | .shim e now => s.shim e now
  | .request net now udpPort => (s.pollPeersRequest net now udpPort).1
  | .register nid ent udpPort quiet =>
      { s with queue := dispatchBroker s.queue (.register nid ent udpPort quiet) }
  | .leave nid ent => { s with queue := dispatchBroker s.queue (.leave nid ent) }
  | .take => s.takeTask
  | .finish i members => s.finishTask i members
  | .sweep live => s.dropStalePeerResults live
  | .apply net advert answers => s.pollPeersApply net advert answers

/-! ### Epochs -/

namespace Handle

variable (h : Handle)

@[simp] theorem queueSc_nextEpoch (sc : Option StateChange) :
    (h.queueSc sc).nextEpoch = h.nextEpoch := by
  unfold queueSc pendingCapDrop push
  split
  · rfl
  · simp only
    split_ifs <;> rfl

@[simp] theorem modifyBox_nextEpoch (net : ℕ) (f : Network → Network) :
    (h.modifyBox net f).nextEpoch = h.nextEpoch := by
  unfold modifyBox
  split <;> rfl

theorem foldl_nextEpoch {A : Type} (xs : List A) {f : Handle → A → Handle}
    (hf : ∀ h x, (f h x).nextEpoch = h.nextEpoch) : (xs.foldl f h).nextEpoch = h.nextEpoch := by
  induction xs generalizing h with
  | nil => rfl
  | cons x xs ih => rw [List.foldl_cons, ih, hf]

@[simp] theorem deliverReliable_nextEpoch (net : ℕ) (f : PendingRx) (now : ℕ) :
    (h.deliverReliable net f now).nextEpoch = h.nextEpoch := by
  unfold deliverReliable
  split
  · rfl
  · refine foldl_nextEpoch _ _ fun h m => ?_
    unfold deliverType21 pendingCapDrop
    split_ifs <;> simp

@[simp] theorem ensureRemote_nextEpoch (net : ℕ) (eid ip : String) (udpPort : UInt16)
    (member : Bool) : (h.ensureRemote net eid ip udpPort member).nextEpoch = h.nextEpoch := by
  unfold ensureRemote
  split
  · rfl
  · simp only
    split_ifs <;> simp

@[simp] theorem emitConnectCompleted_nextEpoch (net : ℕ) :
    (h.emitConnectCompleted net).nextEpoch = h.nextEpoch := by
  unfold emitConnectCompleted
  split
  · rfl
  · split_ifs <;> simp

theorem startProcessing_nextEpoch (now : ℕ) : (h.startProcessing now).nextEpoch = h.nextEpoch := by
  unfold startProcessing
  split_ifs
  · rfl
  · exact foldl_nextEpoch _ _ fun h net => by simp

theorem finishProcessing_nextEpoch (count : ℕ) (changes : Option (List (Option StateChange))) :
    (h.finishProcessing count changes).nextEpoch = h.nextEpoch := by
  unfold finishProcessing
  split
  · rfl
  · split_ifs
    · rfl
    · show (h.markDelivered _).nextEpoch = _
      unfold markDelivered
      simp only
      rw [foldl_nextEpoch _ _ fun h net => by simp, foldl_nextEpoch _ _ fun h net => by simp]

/-- Epochs are handed out in order. -/
theorem nextEpoch_le_step (e : ShimEvent) : h.nextEpoch ≤ (h.step e).nextEpoch := by
  cases e with
  | queueSc sc => exact (h.queueSc_nextEpoch _).ge
  | start now => exact (h.startProcessing_nextEpoch now).ge
  | finish count changes => exact (h.finishProcessing_nextEpoch count changes).ge
  | connect id user =>
    simp only [Handle.step, connectNetwork]
    split
    · simp
    · simp [addBox]
  | createNetwork id user => simp [Handle.step, createNewNetwork, addBox]
  | authenticate net =>
    simp only [Handle.step, authenticateLocalUser]
    split_ifs <;> simp
  | createEndpoint net user => simp [Handle.step, createEndpoint]
  | leave net =>
    simp only [Handle.step, leaveNetwork]
    split_ifs <;> simp
  | ensureRemote net eid ip udpPort member => simp [Handle.step]
  | drainPeer net member =>
    simp only [Handle.step, drainPeer]
    split
    · rfl
    · split <;> simp
  | recv net p srcIp srcPort now =>
    simp only [Handle.step, recv]
    split
    · rfl
    · split_ifs
      · rfl
      · split <;> simp
  | replay net now =>
    simp only [Handle.step, replay]
    split <;> simp
  | send net kind payload options now => simp [Handle.step]
  | service net now => simp [Handle.step]

end Handle

/-- A run with what happened in it: the polls sent, each with its box, the results stored, each
under its epoch, and the results applied, each with the box it was applied to. -/
structure PollRun where
  state : Polling
  requested : List (ℕ × ℕ)
  stored : List (ℕ × PeerPollResult)
  applied : List (ℕ × PeerPollResult)

namespace PollRun

def fresh : PollRun := ⟨Polling.new, [], [], []⟩

def step (s : PollRun) (e : PollEvent) : PollRun where
  state := s.state.step e
  requested := s.requested ++ match e with
    | .request net now udpPort =>
        ((s.state.pollPeersRequest net now udpPort).2.map fun seq => (net, seq)).toList
    | _ => []
  stored := s.stored ++ match e with
    | .finish i members => (s.state.answered i members).toList
    | _ => []
  applied := s.applied ++ match e with
    | .apply net _ _ => ((s.state.applied net).map fun r => (net, r)).toList
    | _ => []

/-- The poll of a task, with its box. -/
def ask : BrokerTask → Option (ℕ × ℕ)
  | .pollPeers _ epoch seq => some (epoch, seq)
  | _ => none

/-- What holds in every state: whatever is on its way, stored or applied was asked for by its
box, numbers grow with the polls, and a box has applied none above its mark. -/
structure Sound (s : PollRun) : Prop where
  ordered : s.requested.Pairwise fun a b => a.2 < b.2
  below : ∀ x ∈ s.requested, x.2 < s.state.nextPollSeq
  tasks : ∀ t ∈ s.state.queue ++ s.state.running, ∀ x ∈ ask t, x ∈ s.requested
  kept : ∀ x ∈ s.stored, (x.1, x.2.seq) ∈ s.requested
  results : ∀ epoch r, s.state.results.get? epoch = some r → (epoch, r) ∈ s.stored
  home : ∀ x ∈ s.applied, x ∈ s.stored
  mark : ∀ x ∈ s.applied, ∃ p, s.state.polls.get? x.1 = some p ∧ x.2.seq ≤ p.appliedSeq
  boxes : ∀ net p, s.state.polls.get? net = some p → net < s.state.handle.nextEpoch
  increasing : s.applied.Pairwise fun a b => a.1 = b.1 → a.2.seq < b.2.seq
  pending : s.state.resultsPending = s.state.results.size

theorem sound_fresh : fresh.Sound where
  ordered := List.Pairwise.nil
  below := by simp [fresh]
  tasks := by simp [fresh, Polling.new]
  kept := by simp [fresh]
  results := by simp [fresh, Polling.new]
  home := by simp [fresh]
  mark := by simp [fresh]
  boxes := by simp [fresh, Polling.new]
  increasing := List.Pairwise.nil
  pending := rfl

/-- A dispatch adds no poll but the one dispatched. -/
theorem ask_dispatchBroker {q : List BrokerTask} {t u : BrokerTask} (hu : u ∈ dispatchBroker q t)
    {x : ℕ × ℕ} (hx : x ∈ ask u) : u ∈ q ∨ u = t := by
  unfold dispatchBroker at hu
  split at hu
  · split_ifs at hu
    · rcases mem_modifyFirst hu with hold | ⟨v, hv, -, rfl⟩
      · exact Or.inl hold
      · -- A refreshed task is a registration.
        cases v with
        | register n e p q => cases hx
        | leave n e => cases hx
        | pollPeers n e q => exact Or.inl hv
    · rcases List.mem_append.mp hu with hold | hnew
      · exact Or.inl (List.mem_of_mem_eraseP hold)
      · exact Or.inr (List.mem_singleton.mp hnew)
    · rcases List.mem_append.mp hu with hold | hnew
      · exact Or.inl hold
      · exact Or.inr (List.mem_singleton.mp hnew)
  · rcases List.mem_append.mp hu with hold | hnew
    · exact Or.inl hold
    · exact Or.inr (List.mem_singleton.mp hnew)

section
variable {s : PollRun}

/-- A change of the state that stores, takes and marks nothing but what the logs have. -/
theorem Sound.keep (hs : s.Sound) {st : Polling}
    (hseq : s.state.nextPollSeq ≤ st.nextPollSeq)
    (htasks : ∀ t ∈ st.queue ++ st.running, ∀ x ∈ ask t,
      t ∈ s.state.queue ++ s.state.running ∨ x ∈ s.requested)
    (hresults : ∀ epoch r, st.results.get? epoch = some r →
      s.state.results.get? epoch = some r ∨ (epoch, r) ∈ s.stored)
    (hpolls : ∀ net p, s.state.polls.get? net = some p →
      ∃ p', st.polls.get? net = some p' ∧ p.appliedSeq ≤ p'.appliedSeq)
    (hboxes : ∀ net p, st.polls.get? net = some p → net < st.handle.nextEpoch)
    (hpending : st.resultsPending = st.results.size) : Sound { s with state := st } where
  ordered := hs.ordered
  below x hx := (hs.below x hx).trans_le hseq
  tasks t ht x hx := (htasks t ht x hx).elim (fun hold => hs.tasks t hold x hx) id
  kept := hs.kept
  results epoch r hr := (hresults epoch r hr).elim (hs.results epoch r) id
  home := hs.home
  mark x hx := by
    obtain ⟨p, hp, hle⟩ := hs.mark x hx
    obtain ⟨p', hp', hle'⟩ := hpolls x.1 p hp
    exact ⟨p', hp', hle.trans hle'⟩
  boxes := hboxes
  increasing := hs.increasing
  pending := hpending

/-- The poll state of a box is replaced by one with no lower mark. -/
theorem polls_insert {polls : OrdMap ℕ PollState} {net : ℕ} {p q : PollState}
    (hp : polls.get? net = some p) (hle : p.appliedSeq ≤ q.appliedSeq) (net' : ℕ) (p' : PollState)
    (hp' : polls.get? net' = some p') :
    ∃ q', (polls.insert net q).get? net' = some q' ∧ p'.appliedSeq ≤ q'.appliedSeq := by
  rw [OrdMap.get?_insert]
  split_ifs with heq
  · subst heq
    rw [hp] at hp'
    cases hp'
    exact ⟨q, rfl, hle⟩
  · exact ⟨p', hp', le_refl _⟩

theorem Sound.boxes_insert (hs : s.Sound) {net : ℕ} {p : PollState}
    (hp : s.state.polls.get? net = some p) (q : PollState) (net' : ℕ) (p' : PollState)
    (hp' : (s.state.polls.insert net q).get? net' = some p') :
    net' < s.state.handle.nextEpoch := by
  rw [OrdMap.get?_insert] at hp'
  split_ifs at hp' with heq
  · rw [heq]
    exact hs.boxes net p hp
  · exact hs.boxes net' p' hp'

theorem Sound.shim (hs : s.Sound) (e : ShimEvent) (now : ℕ) :
    Sound { s with state := s.state.shim e now } := by
  have hle := s.state.handle.nextEpoch_le_step e
  refine hs.keep (le_refl _) (fun t ht x _ => Or.inl ht) (fun _ _ => Or.inl) ?_ ?_ hs.pending
  · intro net p hp
    unfold Polling.shim
    simp only
    split_ifs with heq
    · exact ⟨p, hp, le_refl _⟩
    · have hne : net ≠ s.state.handle.nextEpoch := (hs.boxes net p hp).ne
      exact ⟨p, by rw [OrdMap.get?_insert, if_neg hne, hp], le_refl _⟩
  · intro net p hp
    unfold Polling.shim at hp ⊢
    simp only at hp ⊢
    split_ifs at hp with heq
    · exact (hs.boxes net p hp).trans_le hle
    · rw [OrdMap.get?_insert] at hp
      split_ifs at hp with hnet
      · omega
      · exact (hs.boxes net p hp).trans_le hle

/-- A task that is no poll is dispatched. -/
theorem Sound.dispatch (hs : s.Sound) {t : BrokerTask} (ht : ask t = none) :
    Sound { s with state := { s.state with queue := dispatchBroker s.state.queue t } } := by
  refine hs.keep (le_refl _) ?_ (fun _ _ => Or.inl) (fun _ p hp => ⟨p, hp, le_refl _⟩) hs.boxes
    hs.pending
  intro u hu x hx
  rcases List.mem_append.mp hu with hq | hr
  · rcases ask_dispatchBroker hq hx with hold | rfl
    · exact Or.inl (List.mem_append_left _ hold)
    · rw [ht] at hx
      cases hx
  · exact Or.inl (List.mem_append_right _ hr)

theorem Sound.take (hs : s.Sound) : Sound { s with state := s.state.takeTask } := by
  unfold Polling.takeTask
  split
  · exact hs
  · rename_i t queue hq
    refine hs.keep (le_refl _) ?_ (fun _ _ => Or.inl) (fun _ p hp => ⟨p, hp, le_refl _⟩) hs.boxes
      hs.pending
    intro u hu x _
    left
    rw [hq]
    simp only [List.mem_append, List.mem_cons] at hu ⊢
    tauto

theorem Sound.sweep (hs : s.Sound) (live : List ℕ) :
    Sound { s with state := s.state.dropStalePeerResults live } := by
  refine hs.keep (le_refl _) (fun t ht x _ => Or.inl ht) ?_ (fun _ p hp => ⟨p, hp, le_refl _⟩)
    hs.boxes ?_
  · intro epoch r hr
    rw [Polling.dropStalePeerResults, OrdMap.get?_filter, Option.filter_eq_some_iff] at hr
    exact Or.inl hr.1
  · unfold Polling.dropStalePeerResults
    simp only
    split_ifs with hsize
    · rfl
    · push Not at hsize
      rw [hsize]
      exact hs.pending

/-- The answer of a running poll is stored under the box that asked. -/
theorem Sound.finish (hs : s.Sound) (i : ℕ) (members : List PeerEntry) :
    Sound (s.step (.finish i members)) := by
  have hasked : ∀ x ∈ s.state.answered i members, (x.1, x.2.seq) ∈ s.requested := by
    intro x hx
    unfold Polling.answered at hx
    split at hx
    · rename_i nid epoch seq hget
      cases hx
      exact hs.tasks _ (List.mem_append_right _ (List.mem_of_getElem? hget)) _ rfl
    · cases hx
  have hlog : Sound { s with stored := s.stored ++ (s.state.answered i members).toList } := by
    refine { hs with kept := ?_, results := ?_, home := ?_ }
    · intro x hx
      rcases List.mem_append.mp hx with hold | hnew
      · exact hs.kept x hold
      · exact hasked x (Option.mem_toList.mp hnew)
    · intro epoch r hr
      exact List.mem_append_left _ (hs.results epoch r hr)
    · intro x hx
      exact List.mem_append_left _ (hs.home x hx)
  have hstate : s.step (.finish i members) =
      { s with
        stored := s.stored ++ (s.state.answered i members).toList
        state := s.state.finishTask i members } := by
    simp [step, Polling.step]
  rw [hstate]
  refine hlog.keep (le_refl _) ?_ ?_ (fun _ p hp => ⟨p, hp, le_refl _⟩) hs.boxes ?_
  · intro t ht x _
    left
    rcases List.mem_append.mp ht with hq | hr
    · exact List.mem_append_left _ hq
    · exact List.mem_append_right _ (List.mem_of_mem_eraseIdx hr)
  · intro epoch r hr
    simp only [Polling.finishTask] at hr
    split at hr
    · rename_i epoch' r' hans
      rw [OrdMap.get?_insert] at hr
      split_ifs at hr with heq
      · cases hr
        right
        rw [heq, hans]
        exact List.mem_append_right _ (List.mem_singleton_self _)
      · exact Or.inl hr
    · exact Or.inl hr
  · unfold Polling.finishTask
    cases hans : s.state.answered i members with
    | none => simpa [hans] using hs.pending
    | some x => simp

/-- A keep-alive registration is no poll and leaves the mark of its box. -/
theorem keepAlive_spec {st : Polling} {n : Network} {p q : PollState} {now : ℕ} {udpPort : UInt16}
    {queue : List BrokerTask} (h : st.keepAlive n p now udpPort = (q, queue)) :
    p.appliedSeq = q.appliedSeq ∧ ∀ t ∈ queue, ∀ x ∈ ask t, t ∈ st.queue := by
  unfold Polling.keepAlive at h
  split_ifs at h
  · cases h
    exact ⟨rfl, fun t ht x _ => ht⟩
  · cases h
    refine ⟨rfl, fun t ht x hx => ?_⟩
    rcases ask_dispatchBroker ht hx with hold | rfl
    · exact hold
    · cases hx
  · cases h
    exact ⟨rfl, fun t ht x _ => ht⟩

/-- Everything a request can do: nothing, a keep-alive, or a keep-alive and a poll. -/
theorem pollPeersRequest_cases (st : Polling) (net now : ℕ) (udpPort : UInt16) :
    st.pollPeersRequest net now udpPort = (st, none) ∨
      ∃ n p q queue, st.polls.get? net = some p ∧ st.keepAlive n p now udpPort = (q, queue) ∧
        (st.pollPeersRequest net now udpPort =
            ({ st with polls := st.polls.insert net q, queue := queue }, none) ∨
          st.pollPeersRequest net now udpPort =
            ({ st with
                polls := st.polls.insert net { q with inflight := true, sentAt := now }
                queue := dispatchBroker queue (.pollPeers n.id net st.nextPollSeq)
                nextPollSeq := st.nextPollSeq + 1 }, some st.nextPollSeq)) := by
  unfold Polling.pollPeersRequest
  split
  · rename_i n p hbox hp
    by_cases hcc : n.connectCompleted = true
    · rcases hkeep : st.keepAlive n p now udpPort with ⟨q, queue⟩
      refine Or.inr ⟨n, p, q, queue, hp, hkeep, ?_⟩
      simp only [hcc, Bool.not_true, Bool.false_eq_true, if_false]
      split_ifs
      · exact Or.inl rfl
      · exact Or.inr rfl
    · simp [hcc]
  · exact Or.inl rfl

/-- A new poll takes the next number. -/
theorem Sound.ask (hs : s.Sound) (net : ℕ) :
    Sound { s with
      requested := s.requested ++ [(net, s.state.nextPollSeq)]
      state := { s.state with nextPollSeq := s.state.nextPollSeq + 1 } } := by
  refine { hs with ordered := ?_, below := ?_, tasks := ?_, kept := ?_ }
  · rw [List.pairwise_append]
    refine ⟨hs.ordered, List.pairwise_singleton _ _, fun a ha b hb => ?_⟩
    rw [List.mem_singleton.mp hb]
    exact hs.below a ha
  · intro x hx
    rcases List.mem_append.mp hx with hold | hnew
    · exact (hs.below x hold).trans (Nat.lt_succ_self _)
    · rw [List.mem_singleton.mp hnew]
      exact Nat.lt_succ_self _
  · intro t ht x hx
    exact List.mem_append_left _ (hs.tasks t ht x hx)
  · intro x hx
    exact List.mem_append_left _ (hs.kept x hx)

theorem Sound.request (hs : s.Sound) (net now : ℕ) (udpPort : UInt16) :
    Sound (s.step (.request net now udpPort)) := by
  have hstate : s.step (.request net now udpPort) =
      { s with
        requested := s.requested ++
          ((s.state.pollPeersRequest net now udpPort).2.map fun seq => (net, seq)).toList
        state := (s.state.pollPeersRequest net now udpPort).1 } := by
    simp [step, Polling.step]
  rw [hstate]
  rcases pollPeersRequest_cases s.state net now udpPort with
    heq | ⟨n, p, q, queue, hp, hkeep, heq | heq⟩
  · simpa [heq] using hs
  · obtain ⟨hmark, hqueue⟩ := keepAlive_spec hkeep
    rw [heq]
    simp only [Option.map_none, Option.toList_none, List.append_nil]
    refine hs.keep (le_refl _) ?_ (fun _ _ => Or.inl) (polls_insert hp hmark.le)
      (hs.boxes_insert hp _) hs.pending
    intro t ht x hx
    left
    rcases List.mem_append.mp ht with hq | hr
    · exact List.mem_append_left _ (hqueue t hq x hx)
    · exact List.mem_append_right _ hr
  · obtain ⟨hmark, hqueue⟩ := keepAlive_spec hkeep
    rw [heq]
    simp only [Option.map_some, Option.toList_some]
    refine (hs.ask net).keep (le_refl _) ?_ (fun _ _ => Or.inl) (polls_insert hp hmark.le)
      (hs.boxes_insert hp _) hs.pending
    intro t ht x hx
    rcases List.mem_append.mp ht with hq | hr
    · have hq' : t ∈ dispatchBroker queue (.pollPeers n.id net s.state.nextPollSeq) := hq
      rcases ask_dispatchBroker hq' hx with hold | rfl
      · exact Or.inl (List.mem_append_left _ (hqueue t hold x hx))
      · right
        cases hx
        exact List.mem_append_right _ (List.mem_singleton_self _)
    · exact Or.inl (List.mem_append_right _ hr)

/-- Everything an application can do: nothing, drop an old result, or apply a newer one. -/
theorem pollPeersApply_cases (st : Polling) (net : ℕ) (advert : Option String)
    (answers : ℕ → Bool) :
    (st.pollPeersApply net advert answers = st ∧ st.applied net = none) ∨
      ∃ r p, st.results.get? net = some r ∧ st.polls.get? net = some p ∧
        ((st.applied net = none ∧ st.pollPeersApply net advert answers =
            { st with
              results := st.results.erase net
              resultsPending := (st.results.erase net).size
              polls := st.polls.insert net { p with inflight := false } }) ∨
          (st.applied net = some r ∧ p.appliedSeq < r.seq ∧ ∃ h : Handle,
            h.nextEpoch = st.handle.nextEpoch ∧ st.pollPeersApply net advert answers =
              { st with
                results := st.results.erase net
                resultsPending := (st.results.erase net).size
                polls := st.polls.insert net { p with inflight := false, appliedSeq := r.seq }
                handle := h })) := by
  cases ht : st.taken net with
  | none => exact Or.inl ⟨by simp [Polling.pollPeersApply, ht], by simp [Polling.applied, ht]⟩
  | some r =>
    have htaken := ht
    unfold Polling.taken at htaken
    split at htaken
    · rename_i n p hbox hp
      split_ifs at htaken with hcc
      refine Or.inr ⟨r, p, htaken, hp, ?_⟩
      by_cases hle : r.seq ≤ p.appliedSeq
      · left
        simp [Polling.applied, Polling.pollPeersApply, ht, hp, hle]
      · right
        refine ⟨by simpa [Polling.applied, ht, hp] using hle, by omega,
          r.members.zipIdx.foldl (fun h m => h.ensureRemote net m.1.entity
            (rewritePeerIp m.1.ip advert) m.1.udpPort (answers m.2)) st.handle, ?_, ?_⟩
        · exact Handle.foldl_nextEpoch _ _ fun h m => by simp
        · simp [Polling.pollPeersApply, ht, hp, hle]
    · cases htaken

theorem Sound.apply (hs : s.Sound) (net : ℕ) (advert : Option String) (answers : ℕ → Bool) :
    Sound (s.step (.apply net advert answers)) := by
  have hstate : s.step (.apply net advert answers) =
      { s with
        applied := s.applied ++ ((s.state.applied net).map fun r => (net, r)).toList
        state := s.state.pollPeersApply net advert answers } := by
    simp [step, Polling.step]
  have hresults : ∀ epoch r, (s.state.results.erase net).get? epoch = some r →
      s.state.results.get? epoch = some r ∨ (epoch, r) ∈ s.stored := by
    intro epoch r hr
    rw [OrdMap.get?_erase] at hr
    split_ifs at hr
    exact Or.inl hr
  rw [hstate]
  rcases pollPeersApply_cases s.state net advert answers with
    ⟨heq, hnone⟩ | ⟨r, p, hr, hp, ⟨hnone, heq⟩ | ⟨hsome, hlt, h, hepoch, heq⟩⟩
  · simpa [heq, hnone] using hs
  · rw [heq, hnone]
    simp only [Option.map_none, Option.toList_none, List.append_nil]
    exact hs.keep (le_refl _) (fun t ht x _ => Or.inl ht) hresults (polls_insert hp (le_refl _))
      (hs.boxes_insert hp _) rfl
  · rw [heq, hsome]
    have hkeep : Sound { s with state := { s.state with
        results := s.state.results.erase net
        resultsPending := (s.state.results.erase net).size
        polls := s.state.polls.insert net { p with inflight := false, appliedSeq := r.seq }
        handle := h } } :=
      hs.keep (le_refl _) (fun t ht x _ => Or.inl ht) hresults (polls_insert hp hlt.le)
        (fun net' p' hp' => hepoch ▸ hs.boxes_insert hp _ net' p' hp') rfl
    refine { hkeep with home := ?_, mark := ?_, increasing := ?_ }
    · intro x hx
      rcases List.mem_append.mp hx with hold | hnew
      · exact hs.home x hold
      · rw [List.mem_singleton.mp hnew]
        exact hs.results net r hr
    · intro x hx
      rcases List.mem_append.mp hx with hold | hnew
      · exact hkeep.mark x hold
      · rw [List.mem_singleton.mp hnew]
        exact ⟨_, by rw [OrdMap.get?_insert, if_pos rfl], le_refl _⟩
    · show List.Pairwise _ (s.applied ++ [(net, r)])
      rw [List.pairwise_append]
      refine ⟨hs.increasing, List.pairwise_singleton _ _, fun a ha b hb hbox => ?_⟩
      obtain rfl := List.mem_singleton.mp hb
      obtain ⟨q, hq, hle⟩ := hs.mark a ha
      rw [hbox, hp] at hq
      cases hq
      exact hle.trans_lt hlt

theorem Sound.step (hs : s.Sound) (e : PollEvent) : (s.step e).Sound := by
  have hquiet {st : Polling} (h : Sound { s with state := st }) (heq : s.state.step e = st)
      (hlogs : s.step e = { s with state := s.state.step e }) : (s.step e).Sound := by
    rw [hlogs, heq]
    exact h
  cases e with
  | shim e now => exact hquiet (hs.shim e now) rfl (by simp [PollRun.step])
  | request net now udpPort => exact hs.request net now udpPort
  | register nid ent udpPort quiet =>
    exact hquiet (hs.dispatch (t := .register nid ent udpPort quiet) rfl) rfl
      (by simp [PollRun.step])
  | leave nid ent =>
    exact hquiet (hs.dispatch (t := .leave nid ent) rfl) rfl (by simp [PollRun.step])
  | take => exact hquiet hs.take rfl (by simp [PollRun.step])
  | finish i members => exact hs.finish i members
  | sweep live => exact hquiet (hs.sweep live) rfl (by simp [PollRun.step])
  | apply net advert answers => exact hs.apply net advert answers

end

/-- Whatever the order of the title's calls, the polls, their answers, the sweeps and the
applications: a result that is applied was stored for that box and its poll was sent by that box
alone, no result is applied twice, the numbers that a box applies grow, and the counter of stored
results is right. -/
theorem results_go_home (es : List PollEvent) :
    (∀ x ∈ (run step fresh es).applied, x ∈ (run step fresh es).stored ∧
      ∀ net, (net, x.2.seq) ∈ (run step fresh es).requested ↔ net = x.1) ∧
    ((run step fresh es).applied.map fun x => x.2.seq).Nodup ∧
    ((run step fresh es).applied.Pairwise fun a b => a.1 = b.1 → a.2.seq < b.2.seq) ∧
    (run step fresh es).state.resultsPending = (run step fresh es).state.results.size := by
  have hs : (run step fresh es).Sound := run_invariant_all (fun _ e h => h.step e) sound_fresh es
  set s := run step fresh es
  have hone : ∀ a ∈ s.requested, ∀ b ∈ s.requested, a.2 = b.2 → a = b := by
    intro a ha b hb heq
    by_contra hne
    rcases List.pairwise_iff_getElem.mp hs.ordered with hord
    obtain ⟨i, hi, rfl⟩ := List.getElem_of_mem ha
    obtain ⟨j, hj, rfl⟩ := List.getElem_of_mem hb
    rcases Nat.lt_trichotomy i j with hij | rfl | hij
    · exact absurd heq (hord i j hi hj hij).ne
    · exact hne rfl
    · exact absurd heq.symm (hord j i hj hi hij).ne
  have hasked : ∀ x ∈ s.applied, (x.1, x.2.seq) ∈ s.requested :=
    fun x hx => hs.kept x (hs.home x hx)
  refine ⟨fun x hx => ⟨hs.home x hx, fun net => ⟨fun hnet => ?_, ?_⟩⟩, ?_, hs.increasing, hs.pending⟩
  · exact congrArg Prod.fst (hone _ hnet _ (hasked x hx) rfl)
  · rintro rfl
    exact hasked x hx
  · rw [List.Nodup, List.pairwise_map]
    refine hs.increasing.imp_of_mem fun ha hb hlt heq => ?_
    have hbox := congrArg Prod.fst (hone _ (hasked _ ha) _ (hasked _ hb) heq)
    exact absurd heq (hlt hbox).ne

end PollRun

end GbfrLan.Party
