import GbfrLan.Broker.Membership
import GbfrLan.Lib.Run
import GbfrLan.Playfab.Update

/-!
# Leaving a lobby

One client with its broker, and a history: which handle entered which lobby, and which
handles the title has left. A leave takes the lobby id from the handle at the call, and a
create or join that finds its handle left does nothing. So a leave works when the handle has
its id by then, and the player stays listed when the create or join is still on its way.
-/
namespace GbfrLan.Playfab
open Lib Json

/-- The handle that a job fills in. -/
def Job.target : Job → Option ℕ
  | .create j => some j.lobby
  | .join j => some j.lobby
  | _ => none

/-- Where the request of a job goes. -/
def Job.route : Job → Broker.Route
  | .create _ => .createLobby
  | .join _ => .joinLobby
  | .find _ => .findLobbies
  | .leave _ => .leaveLobby
  | .post _ => .updateLobby

theorem Job.route_path (job : Job) : Broker.route job.path = some job.route := by
  have hcreate : Broker.route "/Lobby/CreateAndJoinLobby" = some .createLobby := by decide +kernel
  have hjoin : Broker.route "/Lobby/JoinLobby" = some .joinLobby := by decide +kernel
  have hfind : Broker.route "/Lobby/FindLobbies" = some .findLobbies := by decide +kernel
  have hleave : Broker.route "/Lobby/LeaveLobby" = some .leaveLobby := by decide +kernel
  cases job with
  | create j => exact hcreate
  | join j => exact hjoin
  | find body => exact hfind
  | leave j => exact hleave
  | post j => exact World.route_updateLobby

namespace Worker

/-- The job whose request is on its way. -/
def sent : Worker → List Job
  | .sending job => [job]
  | _ => []

def isIdle : Worker → Bool
  | .idle => true
  | _ => false

theorem eq_idle_of_isIdle {w : Worker} (h : w.isIdle = true) : w = .idle := by
  cases w with
  | idle => rfl
  | _ => cases h

/-- The handle whose create or join the worker has in hand. -/
def targets : Worker → List ℕ
  | .sending job => job.target.toList
  | .answered job _ => job.target.toList
  | .fetching j _ => [j.lobby]
  | .fetched j _ => [j.lobby]
  | _ => []

end Worker

namespace Client

/-- Jobs whose request has not been served. -/
def unsent (c : Client) : List Job := c.worker.sent ++ c.queue

/-- The handles whose create or join is not finished. -/
def unsettled (c : Client) : List ℕ := c.worker.targets ++ c.queue.filterMap Job.target

/-- The entity that a leave names. -/
def leaveEntity (c : Client) (l : Lobby) : String :=
  if c.localEntity.isEmpty then l.owner.id else c.localEntity

/-- No session of the broker gives the token to somebody else. -/
def ActsAs (c : Client) (app : Broker.App) (me : String) : Prop :=
  ∀ p ∈ Broker.headerSession app c.headers
    ["x-entitytoken", "x-authorization", "x-authentication"], p.entityId = me

instance (c : Client) (app : Broker.App) (me : String) : Decidable (c.ActsAs app me) :=
  inferInstanceAs (Decidable (∀ p ∈ Broker.headerSession app c.headers _, p.entityId = me))

end Client

structure Session where
  app : Broker.App
  client : Client
  /-- Handles with the lobbies that they created or joined. -/
  entered : List (ℕ × String)
  /-- Handles that the title has left. -/
  leaves : List ℕ

namespace Session

inductive Step where
  | client (e : Event)
  /-- A request from elsewhere. -/
  | outside (r : Broker.Request)

/-- What a served create or join adds to the history. -/
def entry (before after : Client) : List (ℕ × String) :=
  match before.worker, after.worker with
  | .sending job, .answered _ reply =>
      (job.target.bind fun h =>
        (reply.bind Broker.Response.enteredId).map fun id => (h, id)).toList
  | _, _ => []

def departure : Event → List ℕ
  | .call (.leave h) => [h]
  | _ => []

section
variable (host : Broker.Host) (readFloat : List Char → Option UInt64)

def step (s : Session) : Step → Session
  | .client e =>
      let (app, c) := s.client.step host readFloat s.app e
      { app := app
        client := c
        entered := s.entered ++ entry s.client c
        leaves := s.leaves ++ departure e }
  | .outside r => { s with app := (Broker.handlePlayfab host s.app r).1 }

/-- Every request of the client is served and answered, and a handle is left only after its
create or join has given it its id, or has come to nothing. Nobody else enters a lobby as the
local player. -/
def Careful (me : String) (s : Session) : Step → Prop
  | .client (.call (.leave h)) =>
      h ∉ s.client.unsettled ∧ (s.client.handles[h]?).isSome = true ∧
        ∀ l ∈ s.client.handles[h]?, s.client.leaveEntity l = me ∧
          ∀ e ∈ s.entered, e.1 = h → l.id = e.2
  | .client (.call _) => True
  | .client (.work _ o) => o = .served ∧
      match s.client.worker with
      | .sending (.leave _) => s.client.ActsAs s.app me
      | .sending (.post j) => j.post.lobby.Plain
      | _ => True
  | .outside r => ∀ id ∈ (Broker.handlePlayfab host s.app r).1.lobbies.keys,
      Broker.Listed (Broker.handlePlayfab host s.app r).1 me id → Broker.Listed s.app me id

instance (me : String) (s : Session) (e : Step) : Decidable (s.Careful host me e) := by
  unfold Careful
  split
  · exact inferInstance
  · exact inferInstance
  · refine @instDecidableAnd _ _ inferInstance ?_
    split <;> exact inferInstance
  · exact inferInstance

end

/-- What holds in a careful run: a lobby that lists the player has a handle that is not left,
or a leave on its way. -/
structure Sound (me : String) (s : Session) : Prop where
  ok : s.app.Ok
  plain : ∀ k, (s.app.lobbies.get? k).isSome = true → Read.Plain k
  bounded : ∀ h ∈ s.leaves, h < s.client.handles.length
  unsettled : ∀ h ∈ s.client.unsettled, h ∉ s.leaves
  own : ∀ j, Job.leave j ∈ s.client.unsent → j.entityId = me
  covered : ∀ id, Broker.Listed s.app me id →
    (∃ h, (h, id) ∈ s.entered ∧ h ∉ s.leaves) ∨
      ∃ j, Job.leave j ∈ s.client.unsent ∧ j.lobbyId = id

end Session

/-! ### What the worker leaves alone -/

namespace Client

/-- The same jobs and as many handles. -/
structure Keeps (c c' : Client) : Prop where
  queue : c'.queue = c.queue
  worker : c'.worker = c.worker
  handles : c'.handles.length = c.handles.length

variable (c : Client) (h : ℕ) (l : Lobby) (reply : Option Broker.Response) (host : Broker.Host)

theorem Keeps.refl : c.Keeps c := ⟨rfl, rfl, rfl⟩

theorem Keeps.trans {c c₁ c₂ : Client} (h : c.Keeps c₁) (h' : c₁.Keeps c₂) : c.Keeps c₂ :=
  ⟨h'.queue.trans h.queue, h'.worker.trans h.worker, h'.handles.trans h.handles⟩

theorem setLobby_keeps : c.Keeps (c.setLobby h l) := ⟨rfl, rfl, List.length_set⟩

theorem untrack_keeps : c.Keeps (c.untrack h) := ⟨rfl, rfl, rfl⟩

theorem fail_keeps : c.Keeps (c.fail h) := by
  unfold fail
  split
  · exact .refl c
  · exact (c.setLobby_keeps h _).trans (untrack_keeps _ h)

theorem failJoin_keeps (job : JoinJob) : c.Keeps (c.failJoin job) := by
  unfold failJoin
  split_ifs
  · exact c.fail_keeps job.lobby
  · exact .refl c

theorem runCreate_keeps (job : CreateJob) : c.Keeps (c.runCreate host job reply) := by
  unfold runCreate
  split
  · exact .refl c
  · split_ifs
    · exact .refl c
    · split
      · exact c.fail_keeps job.lobby
      · split_ifs
        · exact c.fail_keeps job.lobby
        · exact c.setLobby_keeps job.lobby _

theorem completeJoin_keeps : c.Keeps (c.completeJoin h l) := by
  unfold completeJoin
  split_ifs
  · exact c.setLobby_keeps h _
  · exact (c.setLobby_keeps h l).trans ⟨rfl, rfl, rfl⟩

theorem runJoin_keeps (job : JoinJob) : c.Keeps (c.runJoin host job reply) := by
  unfold runJoin
  split
  · exact c.failJoin_keeps job
  · split
    · exact .refl c
    · split_ifs
      · exact .refl c
      · exact c.completeJoin_keeps job.lobby _

theorem pollLobby_keeps : c.Keeps (c.pollLobby host h reply) := by
  unfold pollLobby
  split_ifs
  · split
    · exact .refl c
    · simp only
      split_ifs
      · exact (c.setLobby_keeps h _).trans (untrack_keeps _ h)
      · exact c.setLobby_keeps h _
  · exact .refl c

/-- A loop keeps what each of its turns keeps. -/
theorem foldl_keeps {f : Client → ℕ → Client} (hf : ∀ (c : Client) h, c.Keeps (f c h))
    (hs : List ℕ) (c : Client) : c.Keeps (hs.foldl f c) := by
  induction hs generalizing c with
  | nil => exact .refl c
  | cons h hs ih => exact (hf c h).trans (ih _)

theorem servicePendingJoins_keeps : c.Keeps c.servicePendingJoins := by
  refine (foldl_keeps (fun c h => ?_) _ c).trans ⟨rfl, rfl, rfl⟩
  split
  · exact c.setLobby_keeps h _
  · exact .refl c

/-- A call of the title: jobs at the end of the queue, and the worker goes on with its own. -/
structure Adds (c c' : Client) (jobs : List Job) : Prop where
  worker : c'.worker = c.worker
  queue : c'.queue = c.queue ++ jobs
  handles : c.handles.length ≤ c'.handles.length

/-- A job that the call can make: a create or join is for a new handle, and a leave has the id
that the handle has now. -/
def Fits (c : Client) (e : Call) : Job → Prop
  | .create j => j.lobby = c.handles.length
  | .join j => j.lobby = c.handles.length
  | .leave j => ∃ h l, e = .leave h ∧ c.handles[h]? = some l ∧ j.lobbyId = l.id ∧
      j.entityId = c.leaveEntity l
  | _ => True

theorem Adds.none {c' : Client} (h : c.Keeps c') (e : Call) :
    ∃ jobs, c.Adds c' jobs ∧ ∀ job ∈ jobs, c.Fits e job :=
  ⟨[], ⟨h.worker, by rw [h.queue, List.append_nil], h.handles.ge⟩, by simp⟩

theorem Adds.one {c' : Client} {job : Job} {e : Call} (h : c.Adds c' [job])
    (hjob : c.Fits e job) : ∃ jobs, c.Adds c' jobs ∧ ∀ job ∈ jobs, c.Fits e job := by
  refine ⟨[job], h, ?_⟩
  intro job' hmem
  rw [List.mem_singleton.mp hmem]
  exact hjob

theorem call_adds (e : Call) :
    ∃ jobs, c.Adds (c.call e) jobs ∧ ∀ job ∈ jobs, c.Fits e job := by
  cases e with
  | initializeMp =>
    refine Adds.none c ?_ _
    show c.Keeps c.initializeMp
    unfold initializeMp
    split_ifs <;> exact ⟨rfl, rfl, rfl⟩
  | uninitializeMp =>
    refine Adds.none c ?_ _
    exact ⟨rfl, rfl, rfl⟩
  | setEntityToken entity token =>
    refine Adds.none c ?_ _
    show c.Keeps (c.setEntityToken entity token)
    unfold setEntityToken
    split_ifs <;> exact ⟨rfl, rfl, rfl⟩
  | createAndJoinLobby creator cfg joinKv order =>
    show ∃ jobs, c.Adds (c.createAndJoinLobby creator cfg joinKv order) jobs ∧ _
    unfold createAndJoinLobby
    split_ifs
    · exact Adds.none c (.refl c) _
    · exact Adds.one c ⟨rfl, rfl, by simp [enqueue, publish]⟩ rfl
  | joinLobby joiner connection joinKv order =>
    show ∃ jobs, c.Adds (c.joinLobby joiner connection joinKv order) jobs ∧ _
    unfold joinLobby
    split_ifs
    · exact Adds.none c (.refl c) _
    · exact Adds.one c ⟨rfl, rfl, by simp [enqueue, publish]⟩ rfl
  | findLobbies body =>
    show ∃ jobs, c.Adds (if c.mp.isNone then c else c.enqueue (.find body)) jobs ∧ _
    split_ifs
    · exact Adds.none c (.refl c) _
    · exact Adds.one c ⟨rfl, rfl, le_rfl⟩ trivial
  | postUpdate h member update memberUpdate order =>
    show ∃ jobs, c.Adds (c.post h member update memberUpdate order) jobs ∧ _
    unfold post
    split
    · exact Adds.none c (.refl c) _
    · split
      · exact Adds.none c (.refl c) _
      · exact Adds.one c ⟨rfl, rfl, by simp [enqueue, setLobby]⟩ trivial
  | leave h =>
    show ∃ jobs, c.Adds (c.leave h) jobs ∧ _
    unfold leave
    split
    · exact Adds.none c (.refl c) _
    · rename_i l hl
      exact Adds.one c ⟨rfl, rfl, by simp [enqueue, untrack, setLobby]⟩
        ⟨h, l, rfl, hl, rfl, rfl⟩

end Client

/-! ### Steps -/

namespace Session

variable {host : Broker.Host} {readFloat : List Char → Option UInt64} {me : String} {s : Session}

/-- A change of the client that loses no leave and starts nothing for a handle that is left. -/
theorem Sound.client (hs : s.Sound me) {c : Client}
    (hhandles : s.client.handles.length ≤ c.handles.length)
    (hsettle : ∀ h ∈ c.unsettled, h ∈ s.client.unsettled ∨ h = s.client.handles.length)
    (hleave : ∀ j, Job.leave j ∈ c.unsent ↔ Job.leave j ∈ s.client.unsent) :
    ({ s with client := c } : Session).Sound me where
  ok := hs.ok
  plain := hs.plain
  bounded h hh := (hs.bounded h hh).trans_le hhandles
  unsettled h hh := by
    rcases hsettle h hh with hold | hnew
    · exact hs.unsettled h hold
    · intro hleft
      have := hs.bounded h hleft
      omega
  own j hj := hs.own j ((hleave j).mp hj)
  covered id hid := by
    rcases hs.covered id hid with hopen | ⟨j, hj, hlobby⟩
    · exact Or.inl hopen
    · exact Or.inr ⟨j, (hleave j).mpr hj, hlobby⟩

theorem entry_of_worker_eq {c c' : Client} (h : c'.worker = c.worker) : entry c c' = [] := by
  unfold entry
  rw [h]
  cases c.worker <;> rfl

/-- A call other than a leave. -/
theorem Sound.call (hs : s.Sound me) {e : Call} (he : ∀ h, e ≠ .leave h) :
    (s.step host readFloat (.client (.call e))).Sound me := by
  obtain ⟨jobs, hadds, hfits⟩ := s.client.call_adds e
  have hdeparture : departure (.call e) = [] := by
    cases e with
    | leave h => exact absurd rfl (he h)
    | _ => rfl
  have hstep : s.step host readFloat (.client (.call e)) =
      { s with client := s.client.call e } := by
    show (⟨s.app, s.client.call e, s.entered ++ entry s.client (s.client.call e),
      s.leaves ++ departure (.call e)⟩ : Session) = _
    rw [entry_of_worker_eq hadds.worker, hdeparture, List.append_nil, List.append_nil]
  rw [hstep]
  apply hs.client hadds.handles
  · intro h hh
    simp only [Client.unsettled, hadds.worker, hadds.queue, List.filterMap_append,
      List.mem_append] at hh ⊢
    rcases hh with hh | hh | hh
    · exact Or.inl (Or.inl hh)
    · exact Or.inl (Or.inr hh)
    · obtain ⟨job, hjob, htarget⟩ := List.mem_filterMap.mp hh
      have hfit := hfits job hjob
      cases job with
      | create j => exact Or.inr ((Option.some.inj htarget).symm.trans hfit)
      | join j => exact Or.inr ((Option.some.inj htarget).symm.trans hfit)
      | _ => cases htarget
  · intro j
    simp only [Client.unsent, hadds.worker, hadds.queue, List.mem_append]
    constructor
    · rintro (hj | hj | hj)
      · exact Or.inl hj
      · exact Or.inr hj
      · obtain ⟨h, -, heq, -⟩ := hfits _ hj
        exact absurd heq (he h)
    · rintro (hj | hj)
      · exact Or.inl hj
      · exact Or.inr (Or.inl hj)

/-- A leave of a handle that has its id. -/
theorem Sound.leave (hs : s.Sound me) {h : ℕ}
    (hc : s.Careful host me (.client (.call (.leave h)))) :
    (s.step host readFloat (.client (.call (.leave h)))).Sound me := by
  obtain ⟨hsettled, hsome, hall⟩ := hc
  obtain ⟨l, hl⟩ := Option.isSome_iff_exists.mp hsome
  obtain ⟨heid, hid⟩ := hall l hl
  set job : LeaveJob := ⟨s.client.generation, l.id, s.client.leaveEntity l, h⟩ with hjob
  set c := s.client.leave h with hc
  have hleave : c = (((s.client.setLobby h { l with left := true }).untrack h).enqueue
      (.leave job)) := by
    rw [hc, Client.leave, hl]
    rfl
  have hworker : c.worker = s.client.worker := by rw [hleave]; rfl
  have hqueue : c.queue = s.client.queue ++ [.leave job] := by rw [hleave]; rfl
  have hhandles : c.handles.length = s.client.handles.length := by
    rw [hleave]
    exact List.length_set
  have hstep : s.step host readFloat (.client (.call (.leave h))) =
      ⟨s.app, c, s.entered, s.leaves ++ [h]⟩ := by
    show (⟨s.app, c, s.entered ++ entry s.client c, s.leaves ++ [h]⟩ : Session) = _
    rw [entry_of_worker_eq hworker, List.append_nil]
  have hunsent (j : LeaveJob) :
      Job.leave j ∈ c.unsent ↔ Job.leave j ∈ s.client.unsent ∨ j = job := by
    simp [Client.unsent, hworker, hqueue, or_assoc]
  rw [hstep]
  constructor
  · exact hs.ok
  · exact hs.plain
  · intro h' hh'
    show h' < c.handles.length
    rw [hhandles]
    rcases List.mem_append.mp hh' with hh' | hh'
    · exact hs.bounded h' hh'
    · rw [List.mem_singleton.mp hh']
      exact (List.getElem?_eq_some_iff.mp hl).1
  · intro h' hh' hleft
    have hold : h' ∈ s.client.unsettled := by
      simpa [Client.unsettled, hworker, hqueue, Job.target] using hh'
    rcases List.mem_append.mp hleft with hleft | hleft
    · exact hs.unsettled h' hold hleft
    · rw [List.mem_singleton.mp hleft] at hold
      exact hsettled hold
  · intro j hj
    rcases (hunsent j).mp hj with hj | rfl
    · exact hs.own j hj
    · exact heid
  · intro id hlisted
    rcases hs.covered id hlisted with ⟨h', hentered, hopen⟩ | ⟨j, hj, hlobby⟩
    · by_cases heq : h' = h
      · -- The handle that kept the lobby is the one that is left: its leave takes over.
        refine Or.inr ⟨job, (hunsent job).mpr (Or.inr rfl), ?_⟩
        exact hid _ hentered heq
      · refine Or.inl ⟨h', hentered, ?_⟩
        rw [List.mem_append, List.mem_singleton]
        exact not_or.mpr ⟨hopen, heq⟩
    · exact Or.inr ⟨j, (hunsent j).mpr (Or.inl hj), hlobby⟩

theorem entry_of_sent_nil {c c' : Client} (h : c.worker.sent = []) : entry c c' = [] := by
  unfold entry
  cases hw : c.worker with
  | sending job => simp [hw, Worker.sent] at h
  | _ => rfl

/-- A turn of the worker in which no request of a job is served. -/
theorem Sound.turn (hs : s.Sound me) {c : Client} (hqueue : c.queue = s.client.queue)
    (hhandles : c.handles.length = s.client.handles.length)
    (hsent : c.worker.sent = s.client.worker.sent)
    (htargets : c.worker.targets ⊆ s.client.worker.targets) :
    ({ s with client := c } : Session).Sound me := by
  apply hs.client hhandles.ge
  · intro h hh
    left
    rw [Client.unsettled, hqueue, List.mem_append] at hh
    rw [Client.unsettled, List.mem_append]
    exact hh.imp_left fun hmem => htargets hmem
  · intro j
    rw [Client.unsent, Client.unsent, hsent, hqueue]

theorem exchange_getLobby (c : Client) (app : Broker.App) (m : Broker.Moment) (o : Outcome)
    (body : List Char) :
    (exchange host app (request readFloat c m "/Lobby/GetLobby" body) o).1 = app := by
  have hroute : Broker.route "/Lobby/GetLobby" = some .getLobby := by decide +kernel
  cases o with
  | lost => rfl
  | served => exact Broker.handlePlayfab_read (Or.inr hroute)
  | unanswered => exact Broker.handlePlayfab_read (Or.inr hroute)

theorem step_work (m : Broker.Moment) (o : Outcome) (h : s.client.worker.sent = []) :
    s.step host readFloat (.client (.work m o)) =
      { s with
        app := (s.client.work host readFloat s.app m o).1
        client := (s.client.work host readFloat s.app m o).2 } := by
  set next := s.client.work host readFloat s.app m o with hnext
  show (⟨next.1, next.2, s.entered ++ entry s.client next.2, s.leaves ++ []⟩ : Session) = _
  rw [entry_of_sent_nil h, List.append_nil, List.append_nil]

/-- The worker between requests of jobs. -/
theorem Sound.work (hs : s.Sound me) (m : Broker.Moment) (o : Outcome)
    (hsent : s.client.worker.sent = []) :
    (s.step host readFloat (.client (.work m o))).Sound me := by
  rw [step_work m o hsent]
  unfold Client.work
  cases hw : s.client.worker with
  | idle =>
    cases hq : s.client.queue with
    | nil => exact hs.turn hq.symm rfl (by rw [hw]; rfl) (List.nil_subset _)
    | cons job queue =>
      show ({ s with client := { s.client with worker := .sending job, queue := queue } } :
        Session).Sound me
      apply hs.client
      · exact le_rfl
      · intro h hh
        left
        have hmem : h ∈ job.target.toList ++ queue.filterMap Job.target := hh
        show h ∈ s.client.worker.targets ++ s.client.queue.filterMap Job.target
        rw [hw, hq, List.filterMap_cons]
        cases htarget : job.target with
        | none => simpa [htarget, Worker.targets] using hmem
        | some h' => simpa [htarget, Worker.targets] using hmem
      · intro j
        show Job.leave j ∈ [job] ++ queue ↔ Job.leave j ∈ s.client.worker.sent ++ s.client.queue
        rw [hw, hq]
        rfl
  | sending job => simp [hw, Worker.sent] at hsent
  | answered job reply =>
    cases job with
    | create j =>
      have hkeeps := s.client.runCreate_keeps reply host j
      exact hs.turn hkeeps.queue hkeeps.handles (by rw [hw]; rfl) (List.nil_subset _)
    | join j =>
      show ({ s with client := s.client.joinAnswered host j reply } : Session).Sound me
      unfold Client.joinAnswered
      simp only
      split
      · have hkeeps := s.client.failJoin_keeps j
        exact hs.turn hkeeps.queue hkeeps.handles (by rw [hw]; rfl) (List.nil_subset _)
      · exact hs.turn rfl rfl (by rw [hw]; rfl) (by rw [hw]; exact List.Subset.refl _)
    | _ => exact hs.turn rfl rfl (by rw [hw]; rfl) (List.nil_subset _)
  | fetching job id =>
    simp only [exchange_getLobby]
    exact hs.turn rfl rfl (by rw [hw]; rfl) (by rw [hw]; exact List.Subset.refl _)
  | fetched job reply =>
    have hkeeps := s.client.runJoin_keeps reply host job
    exact hs.turn hkeeps.queue hkeeps.handles (by rw [hw]; rfl) (List.nil_subset _)
  | polling targets =>
    cases targets with
    | nil =>
      have hkeeps := s.client.servicePendingJoins_keeps
      exact hs.turn hkeeps.queue hkeeps.handles (by rw [hw]; rfl) (List.nil_subset _)
    | cons target targets =>
      simp only [exchange_getLobby]
      exact hs.turn rfl rfl (by rw [hw]; rfl) (List.nil_subset _)
  | polled h reply targets =>
    have hkeeps := s.client.pollLobby_keeps h reply host
    exact hs.turn hkeeps.queue hkeeps.handles (by rw [hw]; rfl) (List.nil_subset _)

/-- The request of a job is served. A lobby that the player is newly listed in is noted with
the handle of the job, and a leave has taken the player out of its lobby. -/
theorem Sound.served (hs : s.Sound me) {job : Job} {app : Broker.App}
    {reply : Option Broker.Response} (hw : s.client.worker = .sending job) (hok : app.Ok)
    (hplain : ∀ k, (app.lobbies.get? k).isSome = true → Read.Plain k)
    (hgain : ∀ id, Broker.Listed app me id → Broker.Listed s.app me id ∨
      ∃ h, job.target = some h ∧ reply.bind Broker.Response.enteredId = some id)
    (hleave : ∀ j, job = .leave j → ¬Broker.Listed app me j.lobbyId) :
    let c := { s.client with worker := .answered job reply }
    (⟨app, c, s.entered ++ entry s.client c, s.leaves⟩ : Session).Sound me := by
  intro c
  have hunsettled : c.unsettled = s.client.unsettled := by
    show job.target.toList ++ _ = _
    rw [Client.unsettled, hw]
    rfl
  have hunsent (j : LeaveJob) : Job.leave j ∈ s.client.unsent ↔ .leave j = job ∨
      Job.leave j ∈ c.unsent := by
    rw [Client.unsent, hw]
    show Job.leave j ∈ [job] ++ s.client.queue ↔ _ ∨ Job.leave j ∈ s.client.queue
    rw [List.mem_append, List.mem_singleton]
  constructor
  · exact hok
  · exact hplain
  · exact hs.bounded
  · intro h hh
    rw [hunsettled] at hh
    exact hs.unsettled h hh
  · intro j hj
    exact hs.own j ((hunsent j).mpr (Or.inr hj))
  · intro id hid
    rcases hgain id hid with hold | ⟨h, htarget, hentered⟩
    · rcases hs.covered id hold with ⟨h, hmem, hopen⟩ | ⟨j, hj, rfl⟩
      · exact Or.inl ⟨h, List.mem_append_left _ hmem, hopen⟩
      · rcases (hunsent j).mp hj with hjob | hqueue
        · exact absurd hid (hleave j hjob.symm)
        · exact Or.inr ⟨j, hqueue, rfl⟩
    · have hopen : h ∉ s.leaves := by
        apply hs.unsettled
        rw [Client.unsettled, hw]
        exact List.mem_append_left _ (by simp [Worker.targets, htarget])
      refine Or.inl ⟨h, List.mem_append_right _ ?_, hopen⟩
      simp [entry, hw, c, htarget, hentered]

theorem plain_madeId {host : Broker.Host} (hex : ∀ t, Read.Plain (host.sha1Hex t)) (t : String) :
    Read.Plain (Broker.madeId host t) := by
  have hchars : ∀ c ∈ (host.sha1Hex t).toList, Read.isPlainChar c = true :=
    List.all_eq_true.mp (hex t)
  show (Broker.madeId host t).toList.all Read.isPlainChar = true
  rw [Broker.madeId, String.toList_append, List.all_append, Bool.and_eq_true, List.all_eq_true,
    List.all_eq_true]
  refine ⟨List.all_eq_true.mp (show "lan-".toList.all Read.isPlainChar = true by decide),
    fun c hc => hchars c ?_⟩
  rw [String.toList_ofList] at hc
  exact List.mem_of_mem_take hc

/-- After any request the ids in the store need no escape. -/
theorem Sound.plain_next (hs : s.Sound me) (hex : ∀ t, Read.Plain (host.sha1Hex t))
    (r : Broker.Request) {k : String}
    (hk : ((Broker.handlePlayfab host s.app r).1.lobbies.get? k).isSome = true) :
    Read.Plain k := by
  rcases Broker.handlePlayfab_stored hs.ok hk with hold | ⟨t, rfl⟩
  · exact hs.plain k hold
  · exact plain_madeId hex t

theorem readBody_leaveBody {id eid : String} (h : Read.Plain id) (heid : eid ≠ "") :
    readBody readFloat (leaveBody id eid) =
      .obj [("LobbyId", .string id), ("EntityId", .string eid)] := by
  have hne : (leaveBody id eid).isEmpty = false := rfl
  rw [readBody, hne, fromSlice_leaveBody h heid]
  rfl

/-- A leave of the player takes the player out of the lobby that it names. -/
theorem not_listed_of_leaveBody (app : Broker.App) {id : String} {r : Broker.Request}
    (hbody : r.body = .obj [("LobbyId", .string id), ("EntityId", .string me)])
    (hacts : ∀ p ∈ Broker.headerSession app r.headers
      ["x-entitytoken", "x-authorization", "x-authentication"], p.entityId = me) :
    ¬Broker.Listed (Broker.handleLeave app r).1 me id := by
  have hlobby : Broker.bodyLobbyId r.body = id := by
    rw [hbody]
    simp [Broker.bodyLobbyId, Broker.bodyStr, jsonStr, Value.get_obj, Entries.get?, Value.asStr]
  have hcaller : Broker.requestEntityId app r.body r.headers = some me := by
    unfold Broker.requestEntityId
    split
    · rename_i p hp
      exact congrArg some (hacts p hp)
    · rw [hbody]
      simp [jsonStr, Value.get_obj, Entries.get?, Value.asStr]
  have hleft := Broker.not_listed_handleLeave app r hcaller
  rwa [hlobby] at hleft

/-- The request of a leave takes the player out of its lobby. -/
theorem Sound.not_listed_leave (hs : s.Sound me) (hme : me ≠ "") {j : LeaveJob}
    (hj : Job.leave j ∈ s.client.unsent) (hacts : s.client.ActsAs s.app me) (m : Broker.Moment) :
    ¬Broker.Listed (Broker.handleLeave s.app (request readFloat s.client m "/Lobby/LeaveLobby"
      (leaveBody j.lobbyId j.entityId))).1 me j.lobbyId := by
  have heid : j.entityId = me := hs.own j hj
  by_cases hplain : Read.Plain j.lobbyId
  · refine not_listed_of_leaveBody s.app ?_ ?_
    · rw [request, heid, readBody_leaveBody hplain hme]
    · rw [request]
      exact hacts
  · -- An id that needs an escape is not in the store.
    intro hlisted
    obtain ⟨l, hl, -⟩ := Broker.listed_of_handleLeave s.app _ hlisted
    exact hplain (hs.plain j.lobbyId (by rw [hl]; rfl))

/-- The worker's request enters the player nowhere but in the lobby that the reply to a create
or join names. -/
theorem listed_of_job {app : Broker.App} (hok : app.Ok) {job : Job} {r : Broker.Request}
    (hpath : r.path = job.path) (hpost : ∀ j, job = .post j → r.body = .obj j.post.entries)
    {id : String} (h : Broker.Listed (Broker.handlePlayfab host app r).1 me id) :
    Broker.Listed app me id ∨ ∃ t resp, job.target = some t ∧
      (Broker.handlePlayfab host app r).2 = some (.response resp) ∧ resp.enteredId = some id := by
  have hroute := job.route_path
  rw [← hpath] at hroute
  cases job with
  | create j =>
    obtain ⟨t, resp, hreply, hid, hmade⟩ := Broker.handleCreate_enters host app r
    rw [Broker.handlePlayfab_create hroute] at h ⊢
    obtain ⟨l, hl, hmem⟩ := h
    rcases hmade id l hl with hnew | hold
    · exact Or.inr ⟨j.lobby, resp, rfl, congrArg some hreply, hnew ▸ hid⟩
    · exact Or.inl ⟨l, hold, hmem⟩
  | join j =>
    rw [Broker.handlePlayfab_join hroute] at h ⊢
    obtain ⟨l, hl, hmem⟩ := h
    rcases Broker.handleJoin_enters host app r hok hl with hold | ⟨-, resp, hreply, hid⟩
    · exact Or.inl ⟨l, hold, hmem⟩
    · exact Or.inr ⟨j.lobby, resp, rfl, congrArg some hreply, hid⟩
  | find body =>
    rw [Broker.handlePlayfab_read (Or.inl hroute)] at h
    exact Or.inl h
  | leave j =>
    rw [Broker.handlePlayfab_leave hroute] at h
    exact Or.inl (Broker.listed_of_handleLeave app r h)
  | post j =>
    rw [Broker.handlePlayfab_update hroute] at h
    have hmembers : r.body.get "Members" = none := by
      rw [hpost j rfl]
      exact j.post.members_entries
    exact Or.inl (Broker.listed_of_handleUpdate hok hmembers h)

/-- The worker serves the request of a job. -/
theorem Sound.send (hs : s.Sound me) (hme : me ≠ "") (hex : ∀ t, Read.Plain (host.sha1Hex t))
    {job : Job} (hw : s.client.worker = .sending job) (m : Broker.Moment)
    (hc : s.Careful host me (.client (.work m .served))) :
    (s.step host readFloat (.client (.work m .served))).Sound me := by
  set r := request readFloat s.client m job.path job.body with hr
  set app := (Broker.handlePlayfab host s.app r).1 with happ
  set reply := (Broker.handlePlayfab host s.app r).2.map answer with hreply
  have hwork : s.client.work host readFloat s.app m .served =
      (app, { s.client with worker := .answered job reply }) :=
    Client.work_sending m .served hw
  have hstep : s.step host readFloat (.client (.work m .served)) =
      ⟨app, { s.client with worker := .answered job reply },
        s.entered ++ entry s.client { s.client with worker := .answered job reply }, s.leaves⟩ := by
    simp only [Session.step, Client.step, hwork, departure, List.append_nil]
  have hpath : r.path = job.path := by rw [hr, request]
  have hleaver (j : LeaveJob) (hjob : job = .leave j) : s.client.ActsAs s.app me := by
    subst hjob
    have hcareful := hc.2
    rwa [hw] at hcareful
  have hplain (j : PostJob) (hjob : job = .post j) : j.post.lobby.Plain := by
    subst hjob
    have hcareful := hc.2
    rwa [hw] at hcareful
  rw [hstep]
  refine hs.served hw (hs.ok.handlePlayfab r) (fun k => hs.plain_next hex r) ?_ ?_
  · intro id hid
    have hpost (j : PostJob) (hjob : job = .post j) : r.body = .obj j.post.entries := by
      have hbody : job.body = j.post.body := by rw [hjob, Job.body]
      rw [hr, request, hbody, World.readBody_postBody (hplain j hjob)]
    rcases listed_of_job hs.ok hpath hpost hid with hold | ⟨t, resp, htarget, hresp, hentered⟩
    · exact Or.inl hold
    · refine Or.inr ⟨t, htarget, ?_⟩
      rw [hreply, hresp]
      exact hentered
  · rintro j rfl
    have hunsent : Job.leave j ∈ s.client.unsent := by
      rw [Client.unsent, hw]
      exact List.mem_cons_self
    rw [happ, Broker.handlePlayfab_leave (hpath ▸ (Job.leave j).route_path)]
    exact hs.not_listed_leave hme hunsent (hleaver j rfl) m

/-- A request from elsewhere that does not enter the player. -/
theorem Sound.outside (hs : s.Sound me) (hex : ∀ t, Read.Plain (host.sha1Hex t))
    {r : Broker.Request} (hc : s.Careful host me (.outside r)) :
    (s.step host readFloat (.outside r)).Sound me where
  ok := hs.ok.handlePlayfab r
  plain _ hk := hs.plain_next hex r hk
  bounded := hs.bounded
  unsettled := hs.unsettled
  own := hs.own
  covered id hid := by
    have hid' := hid
    obtain ⟨l, hl, -⟩ := hid'
    have hkey : id ∈ (Broker.handlePlayfab host s.app r).1.lobbies.keys :=
      OrdMap.mem_keys_iff.mpr ((OrdMap.contains_iff _ id).mpr ⟨l, hl⟩)
    exact hs.covered id (hc id hkey hid)

theorem Sound.step (hs : s.Sound me) (hme : me ≠ "") (hex : ∀ t, Read.Plain (host.sha1Hex t))
    {e : Step} (hc : s.Careful host me e) : (s.step host readFloat e).Sound me := by
  cases e with
  | outside r => exact hs.outside hex hc
  | client e =>
    cases e with
    | call e =>
      cases e with
      | leave h => exact hs.leave hc
      | _ => exact hs.call (by simp)
    | work m o =>
      obtain rfl : o = .served := hc.1
      cases hw : s.client.worker with
      | sending job => exact hs.send hme hex hw m hc
      | _ => exact hs.work m .served (by rw [hw]; rfl)

/-- A client that has not been started, with a broker without lobbies. -/
def start (titleId : String) (maxPlayers : ℤ) (overrideGameMax : Bool) : Session :=
  ⟨Broker.App.new titleId maxPlayers overrideGameMax, Client.new, [], []⟩

theorem sound_start (titleId : String) (maxPlayers : ℤ) (overrideGameMax : Bool) (me : String) :
    (start titleId maxPlayers overrideGameMax).Sound me where
  ok _ _ hl := by cases hl
  plain _ hk := by cases hk
  bounded _ hh := by cases hh
  unsettled _ hh := by cases hh
  own _ hj := by cases hj
  covered _ hid := by
    obtain ⟨l, hl, -⟩ := hid
    cases hl

/-- In every careful run: when no request is left to send, the broker does not list the player
in a lobby whose handles were all left. -/
theorem left_of_careful (host : Broker.Host) (readFloat : List Char → Option UInt64)
    (hex : ∀ t, Read.Plain (host.sha1Hex t)) (titleId : String) (maxPlayers : ℤ)
    (overrideGameMax : Bool) {me : String} (hme : me ≠ "") (steps : List Step)
    (hc : Along (Session.step host readFloat) (Careful host me)
      (start titleId maxPlayers overrideGameMax) steps) :
    let s := run (Session.step host readFloat) (start titleId maxPlayers overrideGameMax) steps
    s.client.queue = [] → s.client.worker = .idle → ∀ h id, (h, id) ∈ s.entered →
      (∀ h', (h', id) ∈ s.entered → h' ∈ s.leaves) → ¬Broker.Listed s.app me id := by
  intro s hqueue hidle h id hentered hleft hlisted
  have hs : s.Sound me := by
    refine run_invariant ?_ (sound_start titleId maxPlayers overrideGameMax me) hc
    exact fun s e hs hc => hs.step hme hex hc
  have hunsent : s.client.unsent = [] := by
    rw [Client.unsent, hqueue, hidle]
    rfl
  rcases hs.covered id hlisted with ⟨h', hmem, hopen⟩ | ⟨j, hj, -⟩
  · exact hopen (hleft h' hmem)
  · rw [hunsent] at hj
    cases hj

/-- Steps of the worker, with every request served. -/
def works (n : ℕ) : List Step :=
  List.replicate n (.client (.work ⟨1767225600, "1767225600.5", []⟩ .served))

/-- The title asks for a lobby. -/
def creating : List Step :=
  let owner : EntityKey := ⟨"owner-1", "title_player_account"⟩
  [.client (.call .initializeMp), .client (.call (.setEntityToken owner "token-0")),
    .client (.call (.createAndJoinLobby owner (some ⟨4, 1, [], []⟩) [] ⟨[], [], []⟩))]

def leaveWhenCreated : List Step := creating ++ works 3 ++ [.client (.call (.leave 0))] ++ works 3

/-- The leave comes before the worker has sent the create. -/
def leaveAtOnce : List Step := creating ++ [.client (.call (.leave 0))] ++ works 6

theorem plain_sha1Hex (t : String) : Read.Plain (Broker.anonymousHost.sha1Hex t) := by
  show Read.Plain (if _ then _ else if _ then _ else _)
  split_ifs <;> decide

/-- These runs against a broker that makes the id `lan-2b05b16a57c6`. -/
def after (steps : List Step) : Session :=
  run (Session.step Broker.anonymousHost fun _ => none) (start "1AC1AD" 8 false) steps

theorem leaveWhenCreated_left :
    (0, "lan-2b05b16a57c6") ∈ (after leaveWhenCreated).entered ∧
      ¬Broker.Listed (after leaveWhenCreated).app "owner-1" "lan-2b05b16a57c6" := by
  have hleft := left_of_careful Broker.anonymousHost (fun _ => none) plain_sha1Hex "1AC1AD" 8 false
    (show "owner-1" ≠ "" by decide) leaveWhenCreated (by decide +kernel)
  obtain ⟨hqueue, hidle, hentered, hleaves⟩ : (after leaveWhenCreated).client.queue.length = 0 ∧
      (after leaveWhenCreated).client.worker.isIdle = true ∧
      (after leaveWhenCreated).entered = [(0, "lan-2b05b16a57c6")] ∧
      (after leaveWhenCreated).leaves = [0] := by decide +kernel
  rw [after] at *
  generalize run _ _ leaveWhenCreated = s at *
  have hmem : (0, "lan-2b05b16a57c6") ∈ s.entered := by
    rw [hentered]
    exact List.mem_cons_self
  refine ⟨hmem, ?_⟩
  refine hleft (List.length_eq_zero_iff.mp hqueue) (Worker.eq_idle_of_isIdle hidle) 0 _ hmem ?_
  intro h' hmem'
  rw [hentered, List.mem_singleton] at hmem'
  rw [hleaves, List.mem_singleton]
  exact congrArg Prod.fst hmem'

/-- Everything is served and the queue runs empty, and the player is still listed. -/
theorem leaveAtOnce_stays :
    (after leaveAtOnce).client.queue.length = 0 ∧
      (after leaveAtOnce).client.worker.isIdle = true ∧
      (after leaveAtOnce).entered = [(0, "lan-2b05b16a57c6")] ∧ (after leaveAtOnce).leaves = [0] ∧
      Broker.Listed (after leaveAtOnce).app "owner-1" "lan-2b05b16a57c6" := by
  decide +kernel

end Session

end GbfrLan.Playfab
