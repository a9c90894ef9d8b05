import GbfrLan.Playfab.Leaving

/-!
# Accepted joins

A join that was accepted is a job, then parked until the host has a network, and ends with
one completion for the title. The worker takes any reply here, whatever broker has sent it.
A poll that finds a lobby gone stops tracking its handle, but a join that is parked for the
handle stays parked, and no completion is queued for it.
-/
namespace GbfrLan.Playfab
open Lib Json

def Job.joinJob : Job → Option JoinJob
  | .join j => some j
  | _ => none

def Job.createJob : Job → Option CreateJob
  | .create j => some j
  | _ => none

namespace Worker

/-- The join that the worker has in hand. -/
def joinJobs : Worker → List JoinJob
  | .sending job => job.joinJob.toList
  | .answered job _ => job.joinJob.toList
  | .fetching j _ => [j]
  | .fetched j _ => [j]
  | _ => []

def createJobs : Worker → List CreateJob
  | .sending job => job.createJob.toList
  | .answered job _ => job.createJob.toList
  | _ => []

end Worker

namespace Client

/-- The joins that are queued or running. -/
def joinJobs (c : Client) : List JoinJob := c.worker.joinJobs ++ c.queue.filterMap Job.joinJob

def createJobs (c : Client) : List CreateJob :=
  c.worker.createJobs ++ c.queue.filterMap Job.createJob

/-- The handles whose join is queued or running. -/
def joining (c : Client) : List ℕ := c.joinJobs.map JoinJob.lobby

def parked (c : Client) : List ℕ := (c.mp.map Mp.pendingJoins).getD []

def tracked (c : Client) : List ℕ := (c.mp.map Mp.lobbies).getD []

/-- A parked join that can be announced. -/
def ready (c : Client) (h : ℕ) : Bool := (c.handles[h]?.map lobbyReadyForGuest).getD false

section
variable (host : Broker.Host)

/-- The id in the reply to a join. -/
def joinedId (reply : Option Broker.Response) : Option String :=
  (reply.filter fun r => r.status == 200).bind fun r =>
    scanStr (Broker.numberText host) r.body "LobbyId"

/-- A step of the worker that takes the given reply where it sends a request. -/
def receive (c : Client) (reply : Option Broker.Response) : Client :=
  match c.worker with
  | .idle =>
      match c.queue with
      | job :: queue => { c with worker := .sending job, queue := queue }
      | [] => { c with worker := .polling c.pollTargets }
  | .sending job => { c with worker := .answered job reply }
  | .answered job reply => c.settle host job reply
  | .fetching job _ => { c with worker := .fetched job reply }
  | .fetched job reply => { c.runJoin host job reply with worker := .idle }
  | .polling [] => { c.servicePendingJoins with worker := .idle }
  | .polling ((h, _) :: targets) => { c with worker := .polled h reply targets }
  | .polled h reply targets => { c.pollLobby host h reply with worker := .polling targets }

/-- The handles for which the step queues a `JoinLobbyCompleted`: the calls of `fail_join`, and
those of `emit_join_completed` at the end of a join and of a round of polls. -/
def joinsCompleted (c : Client) : List ℕ :=
  match c.worker with
  | .answered (.join j) reply =>
      if (joinedId host reply).isNone && c.current j.generation then [j.lobby] else []
  | .fetched j reply =>
      match reply.filter fun r => r.status == 200 with
      | none => if c.current j.generation then [j.lobby] else []
      | some r =>
          match c.handles[j.lobby]? with
          | none => []
          | some l =>
              if !c.current j.generation || l.left then []
              else if lobbyReadyForGuest (applyJoinResponse host l r.body j.joiner j.memberKv) then
                [j.lobby]
              else []
  | .polling [] => (c.parked.filter c.ready).reverse
  | _ => []

/-- Against a broker the reply is the one that the broker sends. -/
theorem work_eq_receive (readFloat : List Char → Option UInt64) (app : Broker.App) (c : Client)
    (m : Broker.Moment) (o : Outcome) :
    ∃ reply, (c.work host readFloat app m o).2 = c.receive host reply := by
  unfold work receive
  cases c.worker with
  | idle =>
    refine ⟨none, ?_⟩
    cases c.queue <;> rfl
  | sending job => exact ⟨_, rfl⟩
  | answered job reply => exact ⟨none, rfl⟩
  | fetching job id => exact ⟨_, rfl⟩
  | fetched job reply => exact ⟨none, rfl⟩
  | polling targets =>
    cases targets with
    | nil => exact ⟨none, rfl⟩
    | cons t targets => exact ⟨_, rfl⟩
  | polled h reply targets => exact ⟨none, rfl⟩

end

end Client

/-- A client with the history of its joins. -/
structure Joining where
  client : Client
  /-- The joins that were accepted: the handle, and the instance of the call. -/
  joins : List (ℕ × ℕ)
  /-- The handles of the completions that were queued. -/
  completed : List ℕ
  /-- Handles that the title has left. -/
  left : List ℕ

namespace Joining

inductive Step where
  | call (e : Call)
  /-- The worker goes on, with the reply to the request that it sends, if it sends one. -/
  | work (reply : Option Broker.Response)

/-- What a call adds to the joins that were accepted. -/
def accepted (c : Client) : Call → List (ℕ × ℕ)
  | .joinLobby .. => if c.mp.isSome then [(c.handles.length, c.generation)] else []
  | _ => []

def departed (c : Client) : Call → List ℕ
  | .leave h => if h < c.handles.length then [h] else []
  | _ => []

section
variable (host : Broker.Host)

def step (s : Joining) : Step → Joining
  | .call e =>
      { client := s.client.call e
        joins := s.joins ++ accepted s.client e
        completed := s.completed
        left := s.left ++ departed s.client e }
  | .work reply =>
      { s with
        client := s.client.receive host reply
        completed := s.completed ++ s.client.joinsCompleted host }

end

def start : Joining := ⟨Client.new, [], [], []⟩

/-- Exactly one of three. -/
def OneOf (p q r : Prop) : Prop := (p ∧ ¬q ∧ ¬r) ∨ (¬p ∧ q ∧ ¬r) ∨ (¬p ∧ ¬q ∧ r)

instance {p q r : Prop} [Decidable p] [Decidable q] [Decidable r] : Decidable (OneOf p q r) :=
  inferInstanceAs (Decidable ((p ∧ ¬q ∧ ¬r) ∨ (¬p ∧ q ∧ ¬r) ∨ (¬p ∧ ¬q ∧ r)))

/-- Each join of the live instance whose handle was not left is a job, or parked and tracked,
or completed once. -/
def Accounted (s : Joining) : Prop :=
  ∀ p ∈ s.joins, s.client.current p.2 = true → p.1 ∉ s.left →
    OneOf (p.1 ∈ s.client.joining) (p.1 ∈ s.client.parked ∧ p.1 ∈ s.client.tracked)
      (s.completed.count p.1 = 1)

instance (s : Joining) : Decidable s.Accounted :=
  inferInstanceAs (Decidable (∀ p ∈ s.joins, s.client.current p.2 = true → p.1 ∉ s.left →
    OneOf (p.1 ∈ s.client.joining) (p.1 ∈ s.client.parked ∧ p.1 ∈ s.client.tracked)
      (s.completed.count p.1 = 1)))

/-- The reply that is applied to a lobby whose join is parked does not say that it is gone. -/
def Kept (s : Joining) : Step → Prop
  | .call _ => True
  | .work _ =>
      match s.client.worker with
      | .polled h (some r) _ => h ∈ s.client.parked → h ∈ s.client.tracked →
          (s.client.handles[h]?.any Client.pollable) = true → r.status = 200
      | _ => True

instance (s : Joining) (e : Step) : Decidable (s.Kept e) := by
  unfold Kept
  split
  · exact inferInstance
  · split <;> exact inferInstance

/-- The handle of a join that is on its way has no id yet, so that no poll looks at it. -/
def Waiting (c : Client) (h : ℕ) : Prop :=
  ∃ l, c.handles[h]? = some l ∧ l.left = false ∧ l.pending = true ∧ l.id = ""

/-- How far a join of the live instance has come. -/
inductive Fate (c : Client) (completed : List ℕ) (h : ℕ) : Prop
  | underway (job : c.joining.count h = 1) (unparked : h ∉ c.parked) (open_ : h ∉ completed)
      (kept : h ∈ c.tracked) (waiting : Waiting c h) : Fate c completed h
  | parked (jobless : h ∉ c.joining) (once : c.parked.count h = 1) (open_ : h ∉ completed)
      (kept : h ∈ c.tracked) : Fate c completed h
  | done (jobless : h ∉ c.joining) (unparked : h ∉ c.parked) (once : completed.count h = 1) :
      Fate c completed h

/-- What holds while no parked join has lost its lobby. -/
structure Sound (s : Joining) : Prop where
  jobs : ∀ j ∈ s.client.joinJobs, (j.lobby, j.generation) ∈ s.joins
  creates : ∀ j ∈ s.client.createJobs, j.lobby < s.client.handles.length ∧
    ∀ p ∈ s.joins, p.1 ≠ j.lobby
  parked : ∀ h ∈ s.client.parked, (h, s.client.generation) ∈ s.joins
  completed : ∀ h ∈ s.completed, h < s.client.handles.length
  joins : ∀ p ∈ s.joins, p.1 < s.client.handles.length ∧ p.2 ≤ s.client.instanceGen
  unique : ∀ h g g', (h, g) ∈ s.joins → (h, g') ∈ s.joins → g = g'
  live : ∀ m ∈ s.client.mp, m.generation ≤ s.client.instanceGen
  left : ∀ h ∈ s.left, h < s.client.handles.length ∧ h ∉ s.client.tracked
  fate : ∀ p ∈ s.joins, s.client.current p.2 = true → p.1 ∉ s.left →
    Fate s.client s.completed p.1

end Joining

/-! ### What a step changes -/

namespace Client

/-- Nothing changes but at one handle. -/
structure Touches (c c' : Client) (t : ℕ) : Prop where
  generation : c'.mp.map Mp.generation = c.mp.map Mp.generation
  instanceGen : c'.instanceGen = c.instanceGen
  handle : ∀ h, h ≠ t → c'.handles[h]? = c.handles[h]?
  parked : ∀ h, h ≠ t → c'.parked.count h = c.parked.count h
  tracked : ∀ h, h ≠ t → (h ∈ c'.tracked ↔ h ∈ c.tracked)
  untracked : t ∈ c'.tracked → t ∈ c.tracked

variable (c : Client) (t : ℕ) (l : Lobby) (reply : Option Broker.Response) (host : Broker.Host)

theorem Touches.refl : c.Touches c t :=
  ⟨rfl, rfl, fun _ _ => rfl, fun _ _ => rfl, fun _ _ => Iff.rfl, id⟩

theorem Touches.trans {c c₁ c₂ : Client} {t : ℕ} (h : c.Touches c₁ t) (h' : c₁.Touches c₂ t) :
    c.Touches c₂ t where
  generation := h'.generation.trans h.generation
  instanceGen := h'.instanceGen.trans h.instanceGen
  handle k hk := (h'.handle k hk).trans (h.handle k hk)
  parked k hk := (h'.parked k hk).trans (h.parked k hk)
  tracked k hk := (h'.tracked k hk).trans (h.tracked k hk)
  untracked ht := h.untracked (h'.untracked ht)

theorem setLobby_touches : c.Touches (c.setLobby t l) t where
  generation := rfl
  instanceGen := rfl
  handle _ hh := List.getElem?_set_ne (Ne.symm hh)
  parked _ _ := rfl
  tracked _ _ := Iff.rfl
  untracked := id

@[simp] theorem parked_setLobby : (c.setLobby t l).parked = c.parked := rfl

@[simp] theorem parked_untrack : (c.untrack t).parked = c.parked := by
  unfold parked untrack
  cases c.mp <;> rfl

@[simp] theorem parked_fail : (c.fail t).parked = c.parked := by
  unfold fail
  split <;> simp

@[simp] theorem parked_failJoin (job : JoinJob) : (c.failJoin job).parked = c.parked := by
  unfold failJoin
  split_ifs <;> simp

@[simp] theorem parked_runCreate (job : CreateJob) :
    (c.runCreate host job reply).parked = c.parked := by
  unfold runCreate
  split
  · rfl
  · split_ifs
    · rfl
    · split
      · exact c.parked_fail job.lobby
      · split_ifs <;> simp

@[simp] theorem parked_pollLobby : (c.pollLobby host t reply).parked = c.parked := by
  unfold pollLobby
  split_ifs
  · split
    · rfl
    · simp only
      split_ifs <;> simp
  · rfl

theorem mem_tracked_untrack {h : ℕ} : h ∈ (c.untrack t).tracked ↔ h ∈ c.tracked ∧ h ≠ t := by
  unfold tracked untrack
  cases c.mp with
  | none => simp
  | some m => simp

theorem untrack_touches : c.Touches (c.untrack t) t where
  generation := by
    unfold untrack
    cases c.mp <;> rfl
  instanceGen := rfl
  handle _ _ := rfl
  parked h _ := by rw [parked_untrack]
  tracked h hh := by
    rw [mem_tracked_untrack]
    exact and_iff_left hh
  untracked ht := ((c.mem_tracked_untrack t).mp ht).1

theorem fail_touches : c.Touches (c.fail t) t := by
  unfold fail
  split
  · exact .refl c t
  · exact (c.setLobby_touches t _).trans (untrack_touches _ t)

theorem failJoin_touches (job : JoinJob) : c.Touches (c.failJoin job) job.lobby := by
  unfold failJoin
  split_ifs
  · exact c.fail_touches job.lobby
  · exact .refl c job.lobby

theorem runCreate_touches (job : CreateJob) :
    c.Touches (c.runCreate host job reply) job.lobby := by
  unfold runCreate
  split
  · exact .refl c job.lobby
  · split_ifs
    · exact .refl c job.lobby
    · split
      · exact c.fail_touches job.lobby
      · split_ifs
        · exact c.fail_touches job.lobby
        · exact c.setLobby_touches job.lobby _

/-- Park a join. -/
def park (c : Client) (h : ℕ) : Client :=
  { c with mp := c.mp.map fun m => { m with pendingJoins := m.pendingJoins ++ [h] } }

theorem parked_park {m : Mp} (hm : c.mp = some m) : (c.park t).parked = c.parked ++ [t] := by
  unfold parked park
  rw [hm]
  rfl

theorem tracked_park : (c.park t).tracked = c.tracked := by
  unfold tracked park
  cases c.mp <;> rfl

theorem park_touches : c.Touches (c.park t) t where
  generation := by
    unfold park
    cases c.mp <;> rfl
  instanceGen := rfl
  handle _ _ := rfl
  parked h hh := by
    cases hm : c.mp with
    | none => simp [parked, park, hm]
    | some m =>
      rw [c.parked_park t hm, List.count_append, List.count_singleton,
        if_neg (by simpa using hh.symm), Nat.add_zero]
  tracked h _ := by rw [tracked_park]
  untracked ht := by rwa [tracked_park] at ht

theorem completeJoin_touches : c.Touches (c.completeJoin t l) t := by
  unfold completeJoin
  split_ifs
  · exact c.setLobby_touches t _
  · exact (c.setLobby_touches t l).trans (park_touches _ t)

theorem runJoin_touches (job : JoinJob) : c.Touches (c.runJoin host job reply) job.lobby := by
  unfold runJoin
  split
  · exact c.failJoin_touches job
  · split
    · exact .refl c job.lobby
    · split_ifs
      · exact .refl c job.lobby
      · exact c.completeJoin_touches job.lobby _

theorem pollLobby_touches : c.Touches (c.pollLobby host t reply) t := by
  unfold pollLobby
  split_ifs
  · split
    · exact .refl c t
    · simp only
      split_ifs
      · exact (c.setLobby_touches t _).trans (untrack_touches _ t)
      · exact c.setLobby_touches t _
  · exact .refl c t

variable {c}

theorem current_iff {g : ℕ} : c.current g = true ↔ c.mp.map Mp.generation = some g := by
  unfold current
  cases c.mp with
  | none => simp
  | some m => simp

theorem Touches.current {c' : Client} {t : ℕ} (h : c.Touches c' t) (g : ℕ) :
    c'.current g = c.current g := by
  rw [Bool.eq_iff_iff, current_iff, current_iff, h.generation]

theorem generation_of_current {g : ℕ} (h : c.current g = true) : c.generation = g := by
  unfold generation
  rw [current_iff.mp h]
  rfl

end Client

namespace Joining

variable {s : Joining} {host : Broker.Host}

/-- A join keeps its place when nothing about its handle has changed. -/
theorem Fate.congr {c c' : Client} {completed completed' : List ℕ} {h : ℕ}
    (hf : Fate c completed h) (hjob : c'.joining.count h = c.joining.count h)
    (hparked : c'.parked.count h = c.parked.count h)
    (hcompleted : completed'.count h = completed.count h)
    (htracked : h ∈ c.tracked → h ∈ c'.tracked) (hwaiting : Waiting c h → Waiting c' h) :
    Fate c' completed' h := by
  cases hf with
  | underway job unparked open_ kept waiting =>
    rw [← List.count_eq_zero] at unparked open_
    refine .underway (hjob.trans job) ?_ ?_ (htracked kept) (hwaiting waiting)
    · rw [← List.count_eq_zero, hparked, unparked]
    · rw [← List.count_eq_zero, hcompleted, open_]
  | parked jobless once open_ kept =>
    rw [← List.count_eq_zero] at jobless open_
    refine .parked ?_ (hparked.trans once) ?_ (htracked kept)
    · rw [← List.count_eq_zero, hjob, jobless]
    · rw [← List.count_eq_zero, hcompleted, open_]
  | done jobless unparked once =>
    rw [← List.count_eq_zero] at jobless unparked
    refine .done ?_ ?_ (hcompleted.trans once)
    · rw [← List.count_eq_zero, hjob, jobless]
    · rw [← List.count_eq_zero, hparked, unparked]

theorem Waiting.congr {c c' : Client} {h : ℕ} (hw : Waiting c h)
    (heq : c'.handles[h]? = c.handles[h]?) : Waiting c' h := by
  obtain ⟨l, hl, hrest⟩ := hw
  exact ⟨l, heq.trans hl, hrest⟩

/-- A step that concerns one handle: what is to be shown is the fate of a join of this handle. -/
theorem Sound.settle (hs : s.Sound) {c' : Client} {t : ℕ} {done out : List ℕ}
    (hlength : c'.handles.length = s.client.handles.length) (htouch : s.client.Touches c' t)
    (hjobs : ∀ j ∈ c'.joinJobs, j ∈ s.client.joinJobs)
    (hcreates : ∀ j ∈ c'.createJobs, j ∈ s.client.createJobs)
    (hcount : ∀ h, h ≠ t → c'.joining.count h = s.client.joining.count h)
    (hdone : ∀ h ∈ done, h = t ∧ t < s.client.handles.length)
    (hout : ∀ h ∈ out, h = t ∧ t < s.client.handles.length ∧ t ∉ c'.tracked)
    (hparked : t ∈ c'.parked → (t, s.client.generation) ∈ s.joins)
    (hfate : ∀ g, (t, g) ∈ s.joins → s.client.current g = true → t ∉ s.left → t ∉ out →
      Fate s.client s.completed t → Fate c' (s.completed ++ done) t) :
    (⟨c', s.joins, s.completed ++ done, s.left ++ out⟩ : Joining).Sound where
  jobs j hj := hs.jobs j (hjobs j hj)
  creates j hj := by
    obtain ⟨hlt, hne⟩ := hs.creates j (hcreates j hj)
    exact ⟨hlength ▸ hlt, hne⟩
  parked h hh := by
    have hgen : c'.generation = s.client.generation := by
      simp only [Client.generation, htouch.generation]
    show (h, c'.generation) ∈ s.joins
    rw [hgen]
    by_cases ht : h = t
    · subst ht
      exact hparked hh
    · refine hs.parked h ?_
      have hpos := List.count_pos_iff.mpr hh
      rwa [htouch.parked h ht, List.count_pos_iff] at hpos
  completed h hh := by
    show h < c'.handles.length
    rw [hlength]
    rcases List.mem_append.mp hh with hold | hnew
    · exact hs.completed h hold
    · obtain ⟨rfl, hlt⟩ := hdone h hnew
      exact hlt
  joins p hp := by
    obtain ⟨hlt, hle⟩ := hs.joins p hp
    exact ⟨hlength ▸ hlt, htouch.instanceGen ▸ hle⟩
  unique := hs.unique
  live m hm := by
    show m.generation ≤ c'.instanceGen
    have hgen := htouch.generation
    rw [show c'.mp = some m from hm] at hgen
    obtain ⟨m₀, hm₀, heq⟩ := Option.map_eq_some_iff.mp hgen.symm
    rw [htouch.instanceGen, ← heq]
    exact hs.live m₀ hm₀
  left h hh := by
    show h < c'.handles.length ∧ h ∉ c'.tracked
    rw [hlength]
    rcases List.mem_append.mp hh with hold | hnew
    · obtain ⟨hlt, hun⟩ := hs.left h hold
      refine ⟨hlt, fun htr => hun ?_⟩
      by_cases ht : h = t
      · subst ht
        exact htouch.untracked htr
      · exact (htouch.tracked h ht).mp htr
    · obtain ⟨rfl, hlt, hun⟩ := hout h hnew
      exact ⟨hlt, hun⟩
  fate p hp hcur hleft := by
    obtain ⟨h, g⟩ := p
    rw [htouch.current] at hcur
    simp only [List.mem_append, not_or] at hleft
    have hold := hs.fate (h, g) hp hcur hleft.1
    by_cases ht : h = t
    · subst ht
      exact hfate g hp hcur hleft.1 hleft.2 hold
    · refine hold.congr (hcount h ht) (htouch.parked h ht) ?_ (htouch.tracked h ht).mpr
        fun hw => hw.congr (htouch.handle h ht)
      have hno : done.count h = 0 := List.count_eq_zero.mpr fun hmem => ht (hdone h hmem).1
      rw [List.count_append, hno, Nat.add_zero]

/-- A step of the worker that only moves a job on, or drops one that is no create or join. -/
theorem Sound.same (hs : s.Sound) {c' : Client} (hmp : c'.mp = s.client.mp)
    (hgen : c'.instanceGen = s.client.instanceGen) (hhandles : c'.handles = s.client.handles)
    (hjoins : c'.joinJobs = s.client.joinJobs) (hcreates : c'.createJobs = s.client.createJobs) :
    ({ s with client := c' } : Joining).Sound := by
  have htracked : c'.tracked = s.client.tracked := by simp only [Client.tracked, hmp]
  have hparked : c'.parked = s.client.parked := by simp only [Client.parked, hmp]
  have hjoining : c'.joining = s.client.joining := by simp only [Client.joining, hjoins]
  have hcurrent (g : ℕ) : c'.current g = s.client.current g := by simp only [Client.current, hmp]
  have hgeneration : c'.generation = s.client.generation := by simp only [Client.generation, hmp]
  constructor
  · simpa only [hjoins] using hs.jobs
  · simpa only [hcreates, hhandles] using hs.creates
  · simpa only [hparked, hgeneration] using hs.parked
  · simpa only [hhandles] using hs.completed
  · simpa only [hhandles, hgen] using hs.joins
  · exact hs.unique
  · simpa only [hmp, hgen] using hs.live
  · simpa only [hhandles, htracked] using hs.left
  · intro p hp hcur hleft
    have hold := hs.fate p hp (hcurrent p.2 ▸ hcur) hleft
    refine hold.congr (by simp only [hjoining]) (by simp only [hparked]) rfl (by simp [htracked])
      fun hw => hw.congr (by rw [hhandles])

/-- The end of a join: it is completed, or parked with its handle still tracked. -/
theorem Sound.finishJoin (hs : s.Sound) {j : JoinJob} {c' : Client} {done : List ℕ}
    (hheld : s.client.worker.joinJobs = [j]) (hkeeps : s.client.Keeps c')
    (htouch : s.client.Touches c' j.lobby) (hdone : ∀ h ∈ done, h = j.lobby)
    (hparked : j.lobby ∈ c'.parked → j.lobby ∈ s.client.parked ∨
      s.client.current j.generation = true)
    (hfate : s.client.current j.generation = true → Waiting s.client j.lobby →
      (c'.parked = s.client.parked ∧ done = [j.lobby]) ∨
        (c'.parked = s.client.parked ++ [j.lobby] ∧ c'.tracked = s.client.tracked ∧ done = [])) :
    (⟨{ c' with worker := .idle }, s.joins, s.completed ++ done, s.left⟩ : Joining).Sound := by
  set rest := s.client.queue.filterMap Job.joinJob with hrest
  have hbefore : s.client.joinJobs = j :: rest := by rw [Client.joinJobs, hheld]; rfl
  have hafter : ({ c' with worker := .idle } : Client).joinJobs = rest := by
    show [] ++ c'.queue.filterMap Job.joinJob = rest
    rw [hkeeps.queue, List.nil_append]
  have hmem : j ∈ s.client.joinJobs := hbefore ▸ List.mem_cons_self
  have hjoin : (j.lobby, j.generation) ∈ s.joins := hs.jobs j hmem
  have hlt : j.lobby < s.client.handles.length := (hs.joins _ hjoin).1
  rw [← List.append_nil s.left]
  refine hs.settle (t := j.lobby) hkeeps.handles ⟨htouch.generation, htouch.instanceGen,
    htouch.handle, htouch.parked, htouch.tracked, htouch.untracked⟩ ?_ ?_ ?_ ?_ (by simp) ?_ ?_
  · intro k hk
    rw [hafter] at hk
    rw [hbefore]
    exact List.mem_cons_of_mem j hk
  · intro k hk
    refine List.mem_append_right _ ?_
    rwa [← hkeeps.queue]
  · intro h hh
    rw [Client.joining, Client.joining, hafter, hbefore, List.map_cons,
      List.count_cons_of_ne (Ne.symm hh)]
  · exact fun h hh => ⟨hdone h hh, hlt⟩
  · intro hh
    rcases hparked hh with hold | hcur
    · exact hs.parked j.lobby hold
    · rw [Client.generation_of_current hcur]
      exact hjoin
  · intro g hg hcur hleft _ hold
    obtain rfl : g = j.generation := hs.unique j.lobby _ _ hg hjoin
    have hin : j.lobby ∈ s.client.joining := List.mem_map_of_mem hmem
    cases hold with
    | underway job unparked open_ kept waiting =>
      have hjobless : j.lobby ∉ rest.map JoinJob.lobby := by
        rw [Client.joining, hbefore, List.map_cons, List.count_cons_self] at job
        exact List.count_eq_zero.mp (by omega)
      have hopen : s.completed.count j.lobby = 0 := List.count_eq_zero.mpr open_
      rcases hfate hcur waiting with ⟨hsame, hnow⟩ | ⟨hadd, htracked, hnone⟩
      · refine .done ?_ ?_ ?_
        · rwa [Client.joining, hafter]
        · rwa [show ({ c' with worker := .idle } : Client).parked = s.client.parked from hsame]
        · rw [hnow, List.count_append, hopen, List.count_singleton_self]
      · refine .parked ?_ ?_ ?_ ?_
        · rwa [Client.joining, hafter]
        · rw [show ({ c' with worker := .idle } : Client).parked = _ from hadd, List.count_append,
            List.count_eq_zero.mpr unparked, List.count_singleton_self]
        · rwa [hnone, List.append_nil]
        · rwa [show ({ c' with worker := .idle } : Client).tracked = s.client.tracked from htracked]
    | parked jobless _ _ _ => exact absurd hin jobless
    | done jobless _ _ => exact absurd hin jobless

/-- The worker has the reply to the first request of a join. -/
theorem Sound.answered (hs : s.Sound) {j : JoinJob} {reply : Option Broker.Response}
    (hw : s.client.worker = .answered (.join j) reply) (r : Option Broker.Response) :
    (s.step host (.work r)).Sound := by
  have hstep : s.step host (.work r) =
      { s with
        client := s.client.joinAnswered host j reply
        completed := s.completed ++ s.client.joinsCompleted host } := by
    simp only [step, Client.receive, hw, Client.settle]
  have hcompleted : s.client.joinsCompleted host =
      if (Client.joinedId host reply).isNone && s.client.current j.generation then [j.lobby]
      else [] := by
    simp only [Client.joinsCompleted, hw]
  rw [hstep, hcompleted]
  cases hid : Client.joinedId host reply with
  | some id =>
    have hanswer : s.client.joinAnswered host j reply =
        { s.client with worker := .fetching j id } := by
      rw [Client.joinedId] at hid
      simp only [Client.joinAnswered, hid]
    rw [hanswer]
    simp only [Option.isNone_some, Bool.false_and, Bool.false_eq_true, if_false, List.append_nil]
    refine hs.same rfl rfl rfl ?_ ?_
    · simp only [Client.joinJobs, hw, Worker.joinJobs, Job.joinJob, Option.toList]
    · simp only [Client.createJobs, hw, Worker.createJobs, Job.createJob, Option.toList]
  | none =>
    have hanswer : s.client.joinAnswered host j reply =
        { s.client.failJoin j with worker := .idle } := by
      rw [Client.joinedId] at hid
      simp only [Client.joinAnswered, hid]
    rw [hanswer]
    refine hs.finishJoin ?_ (s.client.failJoin_keeps j) (s.client.failJoin_touches j) ?_ ?_ ?_
    · rw [hw]
      rfl
    · intro h hh
      split_ifs at hh
      · exact List.mem_singleton.mp hh
      · cases hh
    · intro hh
      rw [Client.parked_failJoin] at hh
      exact Or.inl hh
    · intro hcur _
      refine Or.inl ⟨s.client.parked_failJoin j, ?_⟩
      rw [hcur]
      rfl


theorem mp_of_current {c : Client} {g : ℕ} (h : c.current g = true) :
    ∃ m, c.mp = some m ∧ m.generation = g :=
  Option.map_eq_some_iff.mp (Client.current_iff.mp h)

/-- The ends of a join, with what is queued for the title. -/
theorem runJoin_cases (host : Broker.Host) {c : Client} {j : JoinJob} {reply : Option Broker.Response}
    (hw : c.worker = .fetched j reply) :
    (c.runJoin host j reply = c.failJoin j ∧
      c.joinsCompleted host = if c.current j.generation then [j.lobby] else []) ∨
    (¬(c.current j.generation = true ∧ Waiting c j.lobby) ∧ c.runJoin host j reply = c ∧
      c.joinsCompleted host = []) ∨
    (c.current j.generation = true ∧ ∃ l, c.runJoin host j reply = c.setLobby j.lobby l ∧
      c.joinsCompleted host = [j.lobby]) ∨
    (c.current j.generation = true ∧ ∃ l,
      c.runJoin host j reply = (c.setLobby j.lobby l).park j.lobby ∧
      c.joinsCompleted host = []) := by
  unfold Client.joinsCompleted Client.runJoin
  simp only [hw]
  cases reply.filter fun r => r.status == 200 with
  | none => exact Or.inl ⟨rfl, rfl⟩
  | some r =>
    right
    cases hl : c.handles[j.lobby]? with
    | none =>
      refine Or.inl ⟨?_, rfl, rfl⟩
      rintro ⟨-, l, hl', -⟩
      rw [hl] at hl'
      cases hl'
    | some l =>
      simp only
      by_cases hgone : (!c.current j.generation || l.left) = true
      · rw [if_pos hgone, if_pos hgone]
        refine Or.inl ⟨?_, rfl, rfl⟩
        rintro ⟨hcur, l', hl', hleft, -⟩
        obtain rfl : l = l' := Option.some.inj (hl.symm.trans hl')
        simp [hcur, hleft] at hgone
      · rw [if_neg hgone, if_neg hgone]
        have hcur : c.current j.generation = true := by
          simp only [Bool.or_eq_true, Bool.not_eq_true', not_or, Bool.not_eq_false] at hgone
          exact hgone.1
        unfold Client.completeJoin
        split_ifs
        · exact Or.inr (Or.inl ⟨hcur, _, rfl, rfl⟩)
        · exact Or.inr (Or.inr ⟨hcur, _, rfl, rfl⟩)

/-- The worker has the reply to the second request of a join. -/
theorem Sound.fetched (hs : s.Sound) {j : JoinJob} {reply : Option Broker.Response}
    (hw : s.client.worker = .fetched j reply) (r : Option Broker.Response) :
    (s.step host (.work r)).Sound := by
  have hstep : s.step host (.work r) =
      { s with
        client := { s.client.runJoin host j reply with worker := .idle }
        completed := s.completed ++ s.client.joinsCompleted host } := by
    simp only [step, Client.receive, hw]
  have hheld : s.client.worker.joinJobs = [j] := by rw [hw]; rfl
  have hkeeps := s.client.runJoin_keeps reply host j
  have htouch := s.client.runJoin_touches reply host j
  rw [hstep]
  obtain ⟨hrun, hnow⟩ | ⟨hdead, hrun, hnow⟩ | ⟨hcur, l, hrun, hnow⟩ | ⟨hcur, l, hrun, hnow⟩ :=
    runJoin_cases host hw
  · refine hs.finishJoin hheld hkeeps htouch ?_ ?_ ?_
    · intro h hh
      rw [hnow] at hh
      split_ifs at hh
      · exact List.mem_singleton.mp hh
      · cases hh
    · rw [hrun, Client.parked_failJoin]
      exact Or.inl
    · intro hcur _
      rw [hrun, Client.parked_failJoin, hnow, if_pos hcur]
      exact Or.inl ⟨rfl, rfl⟩
  · refine hs.finishJoin hheld hkeeps htouch ?_ ?_ ?_
    · simp [hnow]
    · rw [hrun]
      exact Or.inl
    · exact fun hcur hwait => absurd ⟨hcur, hwait⟩ hdead
  · refine hs.finishJoin hheld hkeeps htouch ?_ (fun _ => Or.inr hcur) ?_
    · simp [hnow]
    · rw [hrun, hnow]
      exact fun _ _ => Or.inl ⟨rfl, rfl⟩
  · refine hs.finishJoin hheld hkeeps htouch ?_ (fun _ => Or.inr hcur) ?_
    · simp [hnow]
    · obtain ⟨m, hm, -⟩ := mp_of_current hcur
      rw [hrun, hnow]
      exact fun _ _ => Or.inr ⟨(s.client.setLobby j.lobby l).parked_park j.lobby hm,
        Client.tracked_park _ _, rfl⟩

/-- The worker has the reply to a create. -/
theorem Sound.created (hs : s.Sound) {j : CreateJob} {reply : Option Broker.Response}
    (hw : s.client.worker = .answered (.create j) reply) (r : Option Broker.Response) :
    (s.step host (.work r)).Sound := by
  have hkeeps := s.client.runCreate_keeps reply host j
  have htouch := s.client.runCreate_touches reply host j
  have hcompleted : s.client.joinsCompleted host = [] := by
    simp only [Client.joinsCompleted, hw]
  have hstep : s.step host (.work r) =
      ⟨{ s.client.runCreate host j reply with worker := .idle }, s.joins, s.completed ++ [],
        s.left ++ []⟩ := by
    simp only [step, Client.receive, hw, Client.settle, hcompleted, List.append_nil]
  have hjoins : ({ s.client.runCreate host j reply with worker := .idle } : Client).joinJobs =
      s.client.joinJobs := by
    simp only [Client.joinJobs, hkeeps.queue, hw, Worker.joinJobs, Job.joinJob, Option.toList]
  have hmem : j ∈ s.client.createJobs := by
    simp [Client.createJobs, hw, Worker.createJobs, Job.createJob]
  rw [hstep]
  refine hs.settle (t := j.lobby) hkeeps.handles ⟨htouch.generation, htouch.instanceGen,
    htouch.handle, htouch.parked, htouch.tracked, htouch.untracked⟩ ?_ ?_ ?_ (by simp) (by simp) ?_ ?_
  · simp [hjoins]
  · intro k hk
    refine List.mem_append_right _ ?_
    rwa [← hkeeps.queue]
  · intro h _
    rw [Client.joining, hjoins, Client.joining]
  · intro hh
    refine hs.parked j.lobby ?_
    rwa [← s.client.parked_runCreate reply host j]
  · intro g hg
    exact absurd rfl ((hs.creates j hmem).2 _ hg)

/-- The handle is polled: a join that is on its way is not looked at. -/
theorem pollLobby_of_waiting (host : Broker.Host) {c : Client} {h : ℕ}
    (reply : Option Broker.Response) (hw : Waiting c h) : c.pollLobby host h reply = c := by
  obtain ⟨l, hl, hleft, hpending, hid⟩ := hw
  have hskip : Client.pollable l = false := by simp [Client.pollable, hleft, hpending, hid]
  unfold Client.pollLobby
  split_ifs
  · simp [hl, Option.filter, hskip]
  · rfl

/-- A reply that does not say that the lobby is gone keeps the handle tracked. -/
theorem tracked_pollLobby {c : Client} {h : ℕ} {reply : Option Broker.Response}
    (hok : ∀ r ∈ reply, (c.handles[h]?.any Client.pollable) = true → r.status = 200) :
    (c.pollLobby host h reply).tracked = c.tracked := by
  unfold Client.pollLobby
  split_ifs
  · cases hl : c.handles[h]?.filter Client.pollable with
    | none => rfl
    | some l =>
      have hpoll : (c.handles[h]?.any Client.pollable) = true := by
        obtain ⟨hl, hp⟩ := Option.filter_eq_some_iff.mp hl
        rw [hl]
        exact hp
      have hnot : (applyRefresh host l reply).2 = false := by
        unfold applyRefresh
        cases reply with
        | none => rfl
        | some r =>
          simp only [hok r rfl hpoll, ne_eq, not_true_eq_false, if_false]
          split
          · rfl
          · split_ifs <;> rfl
      simp only [hnot, Bool.false_eq_true, if_false]
      rfl
  · rfl

/-- The worker has the reply to a poll. -/
theorem Sound.polled (hs : s.Sound) {h : ℕ} {reply : Option Broker.Response}
    {targets : List (ℕ × String)} (hw : s.client.worker = .polled h reply targets)
    (r : Option Broker.Response) (hk : s.Kept (.work r)) : (s.step host (.work r)).Sound := by
  have hkeeps := s.client.pollLobby_keeps h reply host
  have htouch := s.client.pollLobby_touches h reply host
  have hcompleted : s.client.joinsCompleted host = [] := by
    simp only [Client.joinsCompleted, hw]
  have hstep : s.step host (.work r) =
      ⟨{ s.client.pollLobby host h reply with worker := .polling targets }, s.joins,
        s.completed ++ [], s.left ++ []⟩ := by
    simp only [step, Client.receive, hw, hcompleted, List.append_nil]
  have hjoins : ({ s.client.pollLobby host h reply with worker := .polling targets } :
      Client).joinJobs = s.client.joinJobs := by
    simp only [Client.joinJobs, hkeeps.queue, hw, Worker.joinJobs]
  have hjoining : ({ s.client.pollLobby host h reply with worker := .polling targets } :
      Client).joining = s.client.joining := by
    rw [Client.joining, hjoins, Client.joining]
  rw [hstep]
  refine hs.settle (t := h) hkeeps.handles ⟨htouch.generation, htouch.instanceGen,
    htouch.handle, htouch.parked, htouch.tracked, htouch.untracked⟩ ?_ ?_ ?_ (by simp) (by simp) ?_ ?_
  · simp [hjoins]
  · simp [Client.createJobs, hkeeps.queue, hw, Worker.createJobs]
  · intro k _
    rw [hjoining]
  · intro hh
    refine hs.parked h ?_
    rwa [← s.client.parked_pollLobby h reply host]
  · intro g hg hcur hleft _ hold
    rw [List.append_nil]
    have hparked : ({ s.client.pollLobby host h reply with worker := .polling targets } :
        Client).parked = s.client.parked := s.client.parked_pollLobby h reply host
    cases hold with
    | underway job unparked open_ kept waiting =>
      have hsame := pollLobby_of_waiting host reply waiting
      refine .underway (hjoining ▸ job) (hparked ▸ unparked) open_ ?_ ?_
      · rw [hsame]
        exact kept
      · rw [hsame]
        exact waiting
    | parked jobless once open_ kept =>
      refine .parked (hjoining ▸ jobless) (hparked ▸ once) open_ ?_
      have hin : h ∈ s.client.parked := List.count_pos_iff.mp (by omega)
      have htracked : (s.client.pollLobby host h reply).tracked = s.client.tracked := by
        refine tracked_pollLobby fun r' hr' => ?_
        obtain rfl : reply = some r' := hr'
        unfold Kept at hk
        rw [hw] at hk
        exact hk hin kept
      exact htracked ▸ kept
    | done jobless unparked once => exact .done (hjoining ▸ jobless) (hparked ▸ unparked) once

/-- One join is announced. -/
def announceJoin (c : Client) (h : ℕ) : Client :=
  match c.handles[h]? with
  | some l => c.setLobby h { l with pending := false }
  | none => c

/-- Announcing joins changes their handles only. -/
theorem announceJoin_loop (hs : List ℕ) (c : Client) :
    (hs.foldl announceJoin c).mp = c.mp ∧
      (hs.foldl announceJoin c).instanceGen = c.instanceGen ∧
      ∀ h, h ∉ hs → (hs.foldl announceJoin c).handles[h]? = c.handles[h]? := by
  induction hs generalizing c with
  | nil => exact ⟨rfl, rfl, fun _ _ => rfl⟩
  | cons k hs ih =>
    obtain ⟨hmp, hgen, hrest⟩ := ih (announceJoin c k)
    have hone : (announceJoin c k).mp = c.mp ∧ (announceJoin c k).instanceGen = c.instanceGen ∧
        ∀ h, h ≠ k → (announceJoin c k).handles[h]? = c.handles[h]? := by
      unfold announceJoin
      split
      · exact ⟨rfl, rfl, fun h hh => List.getElem?_set_ne (Ne.symm hh)⟩
      · exact ⟨rfl, rfl, fun _ _ => rfl⟩
    refine ⟨hmp.trans hone.1, hgen.trans hone.2.1, fun h hh => ?_⟩
    obtain ⟨hne, hnot⟩ := not_or.mp (List.mem_cons.not.mp hh)
    exact (hrest h hnot).trans (hone.2.2 h hne)

theorem handle_servicePendingJoins {c : Client} {h : ℕ} (hh : h ∉ c.parked) :
    c.servicePendingJoins.handles[h]? = c.handles[h]? :=
  (announceJoin_loop _ c).2.2 h fun hmem => hh (List.mem_of_mem_filter hmem)

theorem mp_servicePendingJoins (c : Client) :
    c.servicePendingJoins.mp =
      c.mp.map fun m => { m with pendingJoins := m.pendingJoins.filter fun h => !c.ready h } :=
  congrArg (Option.map _) (announceJoin_loop _ c).1

theorem instanceGen_servicePendingJoins (c : Client) :
    c.servicePendingJoins.instanceGen = c.instanceGen := (announceJoin_loop _ c).2.1

/-- The end of a round of polls. -/
theorem Sound.serviced (hs : s.Sound) (hw : s.client.worker = .polling [])
    (r : Option Broker.Response) : (s.step host (.work r)).Sound := by
  set c' : Client := { s.client.servicePendingJoins with worker := .idle } with hc'
  set done := (s.client.parked.filter s.client.ready).reverse with hdone
  have hstep : s.step host (.work r) = ⟨c', s.joins, s.completed ++ done, s.left⟩ := by
    simp only [step, Client.receive, Client.joinsCompleted, hw, hc', hdone]
  have hkeeps := s.client.servicePendingJoins_keeps
  have hlength : c'.handles.length = s.client.handles.length := hkeeps.handles
  have hmp : c'.mp = s.client.mp.map fun m =>
      { m with pendingJoins := m.pendingJoins.filter fun h => !s.client.ready h } :=
    mp_servicePendingJoins s.client
  have hgen : c'.mp.map Mp.generation = s.client.mp.map Mp.generation := by
    rw [hmp]
    cases s.client.mp <;> rfl
  have htracked : c'.tracked = s.client.tracked := by
    rw [Client.tracked, hmp, Client.tracked]
    cases s.client.mp <;> rfl
  have hparked : c'.parked = s.client.parked.filter fun h => !s.client.ready h := by
    rw [Client.parked, hmp, Client.parked]
    cases s.client.mp <;> rfl
  have hinstance : c'.instanceGen = s.client.instanceGen :=
    instanceGen_servicePendingJoins s.client
  have hjoins : c'.joinJobs = s.client.joinJobs := by
    simp only [Client.joinJobs, hc', hkeeps.queue, hw, Worker.joinJobs]
  have hcreates : c'.createJobs = s.client.createJobs := by
    simp only [Client.createJobs, hc', hkeeps.queue, hw, Worker.createJobs]
  have hjoining : c'.joining = s.client.joining := by rw [Client.joining, hjoins, Client.joining]
  rw [hstep]
  refine
    { jobs := hjoins ▸ hs.jobs
      creates := ?_
      parked := ?_
      completed := ?_
      joins := ?_
      unique := hs.unique
      live := ?_
      left := ?_
      fate := ?_ }
  · show ∀ j ∈ c'.createJobs, j.lobby < c'.handles.length ∧ ∀ p ∈ s.joins, p.1 ≠ j.lobby
    rw [hcreates, hlength]
    exact hs.creates
  · intro h hh
    have hgeneration : c'.generation = s.client.generation := by
      simp only [Client.generation, hgen]
    show (h, c'.generation) ∈ s.joins
    rw [hgeneration]
    exact hs.parked h (List.mem_of_mem_filter (hparked ▸ hh))
  · intro h hh
    show h < c'.handles.length
    rw [hlength]
    rcases List.mem_append.mp hh with hold | hnew
    · exact hs.completed h hold
    · exact (hs.joins _ (hs.parked h (List.mem_of_mem_filter (List.mem_reverse.mp hnew)))).1
  · intro p hp
    show p.1 < c'.handles.length ∧ p.2 ≤ c'.instanceGen
    rw [hlength, hinstance]
    exact hs.joins p hp
  · intro m hm
    show m.generation ≤ c'.instanceGen
    rw [hinstance]
    rw [show c'.mp = some m from hm] at hgen
    obtain ⟨m₀, hm₀, heq⟩ := Option.map_eq_some_iff.mp hgen.symm
    rw [← heq]
    exact hs.live m₀ hm₀
  · intro h hh
    show h < c'.handles.length ∧ h ∉ c'.tracked
    rw [hlength, htracked]
    exact hs.left h hh
  · intro p hp hcur hleft
    have hcur' : s.client.current p.2 = true := by
      rw [Client.current_iff, ← hgen, ← Client.current_iff]
      exact hcur
    show Fate c' (s.completed ++ done) p.1
    have hcount : (s.completed ++ done).count p.1 =
        s.completed.count p.1 + (s.client.parked.filter s.client.ready).count p.1 := by
      rw [List.count_append, hdone, List.count_reverse]
    cases hs.fate p hp hcur' hleft with
    | underway job unparked open_ kept waiting =>
      refine .underway (hjoining ▸ job) ?_ ?_ (htracked ▸ kept) ?_
      · rw [hparked]
        exact fun hmem => unparked (List.mem_of_mem_filter hmem)
      · rw [List.mem_append, hdone, List.mem_reverse, not_or]
        exact ⟨open_, fun hmem => unparked (List.mem_of_mem_filter hmem)⟩
      · exact waiting.congr (handle_servicePendingJoins unparked)
    | parked jobless once open_ kept =>
      have hopen := List.count_eq_zero.mpr open_
      by_cases hready : s.client.ready p.1 = true
      · refine .done (hjoining ▸ jobless) ?_ ?_
        · rw [hparked, List.mem_filter]
          simp [hready]
        · rw [hcount, hopen, List.count_filter hready, once]
      · refine .parked (hjoining ▸ jobless) ?_ ?_ (htracked ▸ kept)
        · rw [hparked, List.count_filter (by simpa using hready), once]
        · rw [List.mem_append, hdone, List.mem_reverse, List.mem_filter, not_or]
          exact ⟨open_, fun hmem => hready hmem.2⟩
    | done jobless unparked once =>
      refine .done (hjoining ▸ jobless) ?_ ?_
      · rw [hparked]
        exact fun hmem => unparked (List.mem_of_mem_filter hmem)
      · have hnone : p.1 ∉ s.client.parked.filter s.client.ready :=
          fun hmem => unparked (List.mem_of_mem_filter hmem)
        rw [hcount, once, List.count_eq_zero.mpr hnone]

/-- A step of the worker that completes nothing and only moves a job on. -/
theorem Sound.moved (hs : s.Sound) {r : Option Broker.Response} {w : Worker} {q : List Job}
    (hreceive : s.client.receive host r = { s.client with worker := w, queue := q })
    (hcompleted : s.client.joinsCompleted host = [])
    (hjoins : w.joinJobs ++ q.filterMap Job.joinJob = s.client.joinJobs)
    (hcreates : w.createJobs ++ q.filterMap Job.createJob = s.client.createJobs) :
    (s.step host (.work r)).Sound := by
  have hstep : s.step host (.work r) =
      { s with client := { s.client with worker := w, queue := q } } := by
    simp only [step, hreceive, hcompleted, List.append_nil]
  rw [hstep]
  exact hs.same rfl rfl rfl hjoins hcreates

theorem Sound.work (hs : s.Sound) (r : Option Broker.Response) (hk : s.Kept (.work r)) :
    (s.step host (.work r)).Sound := by
  cases hw : s.client.worker with
  | idle =>
    cases hq : s.client.queue with
    | nil =>
      refine hs.moved (w := .polling s.client.pollTargets) (q := []) ?_ ?_ ?_ ?_
      · simp only [Client.receive, hw, hq]
      · simp only [Client.joinsCompleted, hw]
      · simp only [Client.joinJobs, hw, hq, Worker.joinJobs]
      · simp only [Client.createJobs, hw, hq, Worker.createJobs]
    | cons job queue =>
      refine hs.moved (w := .sending job) (q := queue) ?_ ?_ ?_ ?_
      · simp only [Client.receive, hw, hq]
      · simp only [Client.joinsCompleted, hw]
      · simp only [Client.joinJobs, hw, hq, Worker.joinJobs, List.nil_append]
        cases job <;> rfl
      · simp only [Client.createJobs, hw, hq, Worker.createJobs, List.nil_append]
        cases job <;> rfl
  | sending job =>
    refine hs.moved (w := .answered job r) (q := s.client.queue) ?_ ?_ ?_ ?_
    · simp only [Client.receive, hw]
    · simp only [Client.joinsCompleted, hw]
    · simp only [Client.joinJobs, hw, Worker.joinJobs]
    · simp only [Client.createJobs, hw, Worker.createJobs]
  | answered job reply =>
    have hother (hjoin : job.joinJob = none) (hcreate : job.createJob = none)
        (hsettle : s.client.settle host job reply = { s.client with worker := .idle }) :
        (s.step host (.work r)).Sound := by
      refine hs.moved (w := .idle) (q := s.client.queue) ?_ ?_ ?_ ?_
      · simp only [Client.receive, hw, hsettle]
      · cases job with
        | join j => cases hjoin
        | _ => simp only [Client.joinsCompleted, hw]
      · simp only [Client.joinJobs, hw, Worker.joinJobs, hjoin, Option.toList]
      · simp only [Client.createJobs, hw, Worker.createJobs, hcreate, Option.toList]
    cases job with
    | create j => exact hs.created hw r
    | join j => exact hs.answered hw r
    | _ => exact hother rfl rfl rfl
  | fetching j id =>
    refine hs.moved (w := .fetched j r) (q := s.client.queue) ?_ ?_ ?_ ?_
    · simp only [Client.receive, hw]
    · simp only [Client.joinsCompleted, hw]
    · simp only [Client.joinJobs, hw, Worker.joinJobs]
    · simp only [Client.createJobs, hw, Worker.createJobs]
  | fetched j reply => exact hs.fetched hw r
  | polling targets =>
    cases targets with
    | nil => exact hs.serviced hw r
    | cons t targets =>
      refine hs.moved (w := .polled t.1 r targets) (q := s.client.queue) ?_ ?_ ?_ ?_
      · simp only [Client.receive, hw]
      · simp only [Client.joinsCompleted, hw]
      · simp only [Client.joinJobs, hw, Worker.joinJobs]
      · simp only [Client.createJobs, hw, Worker.createJobs]
  | polled h reply targets => exact hs.polled hw r hk

/-! ### Calls -/

theorem joinJobs_enqueue (c : Client) (job : Job) :
    (c.enqueue job).joinJobs = c.joinJobs ++ job.joinJob.toList := by
  simp only [Client.joinJobs, Client.enqueue, List.filterMap_append, List.append_assoc]
  cases job <;> rfl

theorem createJobs_enqueue (c : Client) (job : Job) :
    (c.enqueue job).createJobs = c.createJobs ++ job.createJob.toList := by
  simp only [Client.createJobs, Client.enqueue, List.filterMap_append, List.append_assoc]
  cases job <;> rfl

/-- Without an instance, or with a new one, no join is waited for. -/
theorem Sound.restart (hs : s.Sound) {mp : Option Mp} {gen : ℕ}
    (hgen : s.client.instanceGen ≤ gen)
    (hmp : ∀ m ∈ mp, s.client.instanceGen < m.generation ∧ m.generation ≤ gen ∧
      m.lobbies = [] ∧ m.pendingJoins = []) :
    ({ s with client := { s.client with mp := mp, instanceGen := gen } } : Joining).Sound where
  jobs := hs.jobs
  creates := hs.creates
  parked h hh := by
    cases mp with
    | none => cases hh
    | some m =>
      rw [Client.parked, Option.map_some, Option.getD_some, (hmp m rfl).2.2.2] at hh
      cases hh
  completed := hs.completed
  joins p hp := ⟨(hs.joins p hp).1, (hs.joins p hp).2.trans hgen⟩
  unique := hs.unique
  live m hm := (hmp m hm).2.1
  left h hh := by
    refine ⟨(hs.left h hh).1, fun htr => ?_⟩
    cases mp with
    | none => cases htr
    | some m =>
      rw [Client.tracked, Option.map_some, Option.getD_some, (hmp m rfl).2.2.1] at htr
      cases htr
  fate p hp hcur _ := by
    obtain ⟨m, hm, heq⟩ := mp_of_current hcur
    have hnew := (hmp m hm).1
    have hold := (hs.joins p hp).2
    omega

/-- A call that works on one handle. -/
theorem Sound.onHandle (hs : s.Sound) {c' : Client} {t : ℕ} {job : Job} {out : List ℕ}
    (hkeeps : s.client.Keeps c') (htouch : s.client.Touches c' t)
    (hparked : c'.parked = s.client.parked) (hjoin : job.joinJob = none)
    (hcreate : job.createJob = none)
    (hout : ∀ h ∈ out, h = t ∧ t < s.client.handles.length ∧ t ∉ c'.tracked)
    (hfate : t ∉ out → c'.tracked = s.client.tracked ∧ (Waiting s.client t → Waiting c' t)) :
    (⟨c'.enqueue job, s.joins, s.completed, s.left ++ out⟩ : Joining).Sound := by
  have hjoins : (c'.enqueue job).joinJobs = s.client.joinJobs := by
    rw [joinJobs_enqueue, hjoin, Option.toList_none, List.append_nil]
    simp only [Client.joinJobs, hkeeps.queue, hkeeps.worker]
  have hcreates : (c'.enqueue job).createJobs = s.client.createJobs := by
    rw [createJobs_enqueue, hcreate, Option.toList_none, List.append_nil]
    simp only [Client.createJobs, hkeeps.queue, hkeeps.worker]
  have hjoining : (c'.enqueue job).joining = s.client.joining := by
    rw [Client.joining, hjoins, Client.joining]
  rw [← List.append_nil s.completed]
  refine hs.settle (t := t) hkeeps.handles ⟨htouch.generation, htouch.instanceGen,
    htouch.handle, htouch.parked, htouch.tracked, htouch.untracked⟩ ?_ ?_ ?_ (by simp) hout ?_ ?_
  · simp [hjoins]
  · simp [hcreates]
  · intro h _
    rw [hjoining]
  · intro hh
    exact hs.parked t (hparked ▸ hh)
  · intro g _ _ _ hnot hold
    obtain ⟨htracked, hwait⟩ := hfate hnot
    refine hold.congr (by rw [hjoining]) (congrArg (List.count t) hparked) (by simp) ?_ hwait
    exact fun ht => htracked ▸ ht

/-- The job of a new handle: a create, or a join that is added to the accepted ones. -/
def Opens (c : Client) (l : Lobby) (job : Job) (new : List (ℕ × ℕ)) : Prop :=
  (job.joinJob = none ∧ new = [] ∧
    ∃ j, job.createJob = some j ∧ j.lobby = c.handles.length) ∨
  (job.createJob = none ∧ new = [(c.handles.length, c.generation)] ∧
    (∃ j, job.joinJob = some j ∧ j.lobby = c.handles.length ∧ j.generation = c.generation) ∧
    l.left = false ∧ l.pending = true ∧ l.id = "")

/-- A call that makes a handle. -/
theorem Sound.publish (hs : s.Sound) {m : Mp} (hm : s.client.mp = some m) {l : Lobby} {job : Job}
    {new : List (ℕ × ℕ)} (hopens : Opens s.client l job new) :
    (⟨(s.client.publish l).enqueue job, s.joins ++ new, s.completed, s.left⟩ : Joining).Sound := by
  set c' := (s.client.publish l).enqueue job with hc'
  set n := s.client.handles.length with hn
  have hlength : c'.handles.length = n + 1 := by simp [hc', Client.enqueue, Client.publish, hn]
  have hmp : c'.mp = some { m with lobbies := m.lobbies ++ [n] } := by
    simp [hc', Client.enqueue, Client.publish, hm, hn]
  have htracked : c'.tracked = s.client.tracked ++ [n] := by
    simp only [Client.tracked, hmp, hm, Option.map_some, Option.getD_some]
  have hparked : c'.parked = s.client.parked := by
    simp only [Client.parked, hmp, hm, Option.map_some, Option.getD_some]
  have hgeneration : c'.generation = s.client.generation := by
    simp only [Client.generation, hmp, hm, Option.map_some, Option.getD_some]
  have hcurrent (g : ℕ) : c'.current g = s.client.current g := by
    simp only [Client.current, hmp, hm, Option.map_some, Option.getD_some]
  have hlive : s.client.generation ≤ s.client.instanceGen := by
    have := hs.live m hm
    simpa only [Client.generation, hm, Option.map_some, Option.getD_some] using this
  have hjoins : c'.joinJobs = s.client.joinJobs ++ job.joinJob.toList :=
    joinJobs_enqueue (s.client.publish l) job
  have hcreates : c'.createJobs = s.client.createJobs ++ job.createJob.toList :=
    createJobs_enqueue (s.client.publish l) job
  have hhandle {h : ℕ} (hlt : h < n) : c'.handles[h]? = s.client.handles[h]? :=
    List.getElem?_append_left hlt
  -- Only the new handle is among the new joins.
  have hnew : ∀ p ∈ new, p = (n, s.client.generation) := by
    rcases hopens with ⟨-, rfl, -⟩ | ⟨-, rfl, -⟩
    · simp
    · exact fun p hp => List.mem_singleton.mp hp
  have hjob : ∀ j ∈ job.joinJob, j.lobby = n ∧ (j.lobby, j.generation) ∈ new := by
    rcases hopens with ⟨hnone, -⟩ | ⟨-, rfl, ⟨j, hj, hlobby, hgen⟩, -⟩
    · simp [hnone]
    · rw [hj]
      rintro _ ⟨⟩
      exact ⟨hlobby, by rw [hlobby, hgen]; exact List.mem_singleton_self _⟩
  refine
    { jobs := ?_
      creates := ?_
      parked := ?_
      completed := ?_
      joins := ?_
      unique := ?_
      live := ?_
      left := ?_
      fate := ?_ }
  · intro j hj
    rw [hjoins, List.mem_append, Option.mem_toList] at hj
    rcases hj with hold | hj
    · exact List.mem_append_left _ (hs.jobs j hold)
    · exact List.mem_append_right _ (hjob j hj).2
  · intro j hj
    show j.lobby < c'.handles.length ∧ ∀ p ∈ s.joins ++ new, p.1 ≠ j.lobby
    rw [hcreates, List.mem_append, Option.mem_toList] at hj
    rw [hlength]
    rcases hj with hold | hj
    · obtain ⟨hlt, hne⟩ := hs.creates j hold
      refine ⟨by omega, fun p hp => ?_⟩
      rcases List.mem_append.mp hp with hp | hp
      · exact hne p hp
      · rw [hnew p hp]
        exact (Nat.ne_of_lt hlt).symm
    · rcases hopens with ⟨-, rfl, j', hj', hlobby⟩ | ⟨hnone, -⟩
      · obtain rfl : j' = j := Option.some.inj (hj'.symm.trans hj)
        rw [List.append_nil]
        refine ⟨by omega, fun p hp => ?_⟩
        have := (hs.joins p hp).1
        omega
      · rw [hnone] at hj
        cases hj
  · intro h hh
    show (h, c'.generation) ∈ s.joins ++ new
    rw [hgeneration]
    exact List.mem_append_left _ (hs.parked h (hparked ▸ hh))
  · intro h hh
    show h < c'.handles.length
    have := hs.completed h hh
    omega
  · intro p hp
    show p.1 < c'.handles.length ∧ p.2 ≤ s.client.instanceGen
    rw [hlength]
    rcases List.mem_append.mp hp with hp | hp
    · have := hs.joins p hp
      omega
    · rw [hnew p hp]
      exact ⟨Nat.lt_succ_self n, hlive⟩
  · have hfresh (g : ℕ) : (n, g) ∉ s.joins := fun hmem => (hs.joins _ hmem).1.false
    intro h g g' hg hg'
    rcases List.mem_append.mp hg with hg | hg <;> rcases List.mem_append.mp hg' with hg' | hg'
    · exact hs.unique h g g' hg hg'
    · obtain rfl : h = n := congrArg Prod.fst (hnew _ hg')
      exact absurd hg (hfresh g)
    · obtain rfl : h = n := congrArg Prod.fst (hnew _ hg)
      exact absurd hg' (hfresh g')
    · exact (congrArg Prod.snd (hnew _ hg)).trans (congrArg Prod.snd (hnew _ hg')).symm
  · intro m' hm'
    obtain rfl : _ = m' := Option.some.inj (hmp.symm.trans hm')
    exact hs.live m hm
  · intro h hh
    show h < c'.handles.length ∧ h ∉ c'.tracked
    obtain ⟨hlt, hun⟩ := hs.left h hh
    rw [hlength, htracked, List.mem_append, List.mem_singleton]
    refine ⟨by omega, ?_⟩
    rintro (htr | rfl)
    · exact hun htr
    · exact hlt.false
  · intro p hp hcur hleft
    show Fate c' s.completed p.1
    rw [hcurrent] at hcur
    rcases List.mem_append.mp hp with hp | hp
    · have hlt := (hs.joins p hp).1
      refine (hs.fate p hp hcur hleft).congr ?_ (by rw [hparked]) rfl ?_
        fun hw => hw.congr (hhandle hlt)
      · rw [Client.joining, hjoins, List.map_append, List.count_append, Client.joining]
        have hno : p.1 ∉ job.joinJob.toList.map JoinJob.lobby := by
          intro hmem
          obtain ⟨j, hj, heq⟩ := List.mem_map.mp hmem
          have := (hjob j (Option.mem_toList.mp hj)).1
          omega
        rw [List.count_eq_zero.mpr hno, Nat.add_zero]
      · intro htr
        rw [htracked]
        exact List.mem_append_left _ htr
    · obtain rfl := hnew p hp
      rcases hopens with ⟨-, rfl, -⟩ | ⟨-, -, ⟨j, hj, hlobby, -⟩, hopen, hpending, hid⟩
      · cases hp
      · refine .underway ?_ ?_ ?_ ?_ ⟨l, ?_, hopen, hpending, hid⟩
        · have hno : n ∉ s.client.joining := by
            intro hmem
            obtain ⟨j', hj', heq⟩ := List.mem_map.mp hmem
            have := (hs.joins _ (hs.jobs j' hj')).1
            simp only at this
            omega
          rw [Client.joining, hjoins, List.map_append, List.count_append, hj]
          rw [Client.joining, ← List.count_eq_zero] at hno
          rw [hno, Nat.zero_add]
          show [j.lobby].count n = 1
          rw [hlobby, ← hn, List.count_singleton_self]
        · rw [hparked]
          exact fun hmem => (hs.joins _ (hs.parked n hmem)).1.false
        · exact fun hmem => (hs.completed n hmem).false
        · rw [htracked]
          simp
        · exact List.getElem?_concat_length

/-- A post keeps the id of the handle and what is known of its create or join. -/
theorem postUpdate_handle {l : Lobby} {member : Option EntityKey} {update : Option DataUpdate}
    {memberUpdate : Option MemberDataUpdate} {localEntity : String} {order : Orders} {p : Post}
    (h : postUpdate l member update memberUpdate localEntity order = some p) :
    p.lobby.id = l.id ∧ p.lobby.pending = l.pending ∧ p.lobby.left = l.left := by
  unfold postUpdate at h
  split_ifs at h
  obtain rfl := Option.some.inj h
  have hmember (l : Lobby) :
      (applyMember l member memberUpdate localEntity).1.id = l.id ∧
        (applyMember l member memberUpdate localEntity).1.pending = l.pending ∧
        (applyMember l member memberUpdate localEntity).1.left = l.left := by
    unfold applyMember
    cases memberUpdate with
    | none => exact ⟨rfl, rfl, rfl⟩
    | some mu =>
      simp only
      split_ifs <;> exact ⟨rfl, rfl, rfl⟩
  cases update with
  | none => exact hmember l
  | some u => exact hmember (u.apply l)

theorem Sound.post (hs : s.Sound) (h : ℕ) (member : Option EntityKey)
    (update : Option DataUpdate) (memberUpdate : Option MemberDataUpdate) (order : Orders) :
    ({ s with client := s.client.post h member update memberUpdate order } : Joining).Sound := by
  unfold Client.post
  split
  · exact hs
  · rename_i l hl
    split
    · exact hs
    · rename_i p hp
      rw [← List.append_nil s.left]
      refine hs.onHandle (t := h) (s.client.setLobby_keeps h p.lobby)
        (s.client.setLobby_touches h p.lobby) rfl rfl rfl (by simp) fun _ => ⟨rfl, ?_⟩
      rintro ⟨l', hl', hleft, hpending, hid⟩
      obtain rfl : l = l' := Option.some.inj (hl.symm.trans hl')
      obtain ⟨hid', hpending', hleft'⟩ := postUpdate_handle hp
      obtain ⟨hlt, -⟩ := List.getElem?_eq_some_iff.mp hl
      exact ⟨p.lobby, List.getElem?_set_self hlt, hleft'.trans hleft, hpending'.trans hpending,
        hid'.trans hid⟩

theorem Sound.leave (hs : s.Sound) (h : ℕ) :
    (s.step host (.call (.leave h))).Sound := by
  show (⟨s.client.leave h, s.joins ++ [], s.completed,
    s.left ++ if h < s.client.handles.length then [h] else []⟩ : Joining).Sound
  rw [List.append_nil]
  unfold Client.leave
  split
  · rename_i hl
    rw [if_neg (Nat.not_lt.mpr (List.getElem?_eq_none_iff.mp hl)), List.append_nil]
    exact hs
  · rename_i l hl
    obtain ⟨hlt, -⟩ := List.getElem?_eq_some_iff.mp hl
    set c := s.client.setLobby h { l with left := true } with hc
    rw [if_pos hlt]
    refine hs.onHandle (t := h) ((s.client.setLobby_keeps h _).trans (c.untrack_keeps h))
      ((s.client.setLobby_touches h _).trans (c.untrack_touches h)) ?_ rfl rfl ?_ ?_
    · rw [Client.parked_untrack, hc, Client.parked_setLobby]
    · intro k hk
      refine ⟨List.mem_singleton.mp hk, hlt, ?_⟩
      rw [Client.mem_tracked_untrack]
      exact fun htr => htr.2 rfl
    · simp

theorem Sound.call (hs : s.Sound) (e : Call) : (s.step host (.call e)).Sound := by
  have hplain (hjoins : accepted s.client e = []) (hleft : departed s.client e = [])
      (hnext : ({ s with client := s.client.call e } : Joining).Sound) :
      (s.step host (.call e)).Sound := by
    have hstep : s.step host (.call e) = { s with client := s.client.call e } := by
      simp only [step, hjoins, hleft, List.append_nil]
    rwa [hstep]
  cases e with
  | initializeMp =>
    refine hplain rfl rfl ?_
    show ({ s with client := s.client.initializeMp } : Joining).Sound
    unfold Client.initializeMp
    split_ifs
    · exact hs
    · refine hs.restart (Nat.le_succ _) ?_
      rintro m ⟨⟩
      exact ⟨Nat.lt_succ_self _, le_rfl, rfl, rfl⟩
  | uninitializeMp =>
    refine hplain rfl rfl ?_
    exact hs.restart le_rfl (by simp)
  | setEntityToken entity token =>
    refine hplain rfl rfl ?_
    show ({ s with client := s.client.setEntityToken entity token } : Joining).Sound
    unfold Client.setEntityToken
    split_ifs
    · exact hs
    · exact hs.same rfl rfl rfl rfl rfl
  | createAndJoinLobby creator cfg joinKv order =>
    refine hplain rfl rfl ?_
    show ({ s with client := s.client.createAndJoinLobby creator cfg joinKv order } : Joining).Sound
    unfold Client.createAndJoinLobby
    cases hm : s.client.mp with
    | none => exact hs
    | some m =>
      rw [← List.append_nil s.joins]
      exact hs.publish hm (Or.inl ⟨rfl, rfl, _, rfl, rfl⟩)
  | joinLobby joiner connection joinKv order =>
    show (⟨s.client.joinLobby joiner connection joinKv order,
      s.joins ++ accepted s.client (.joinLobby joiner connection joinKv order), s.completed,
      s.left ++ []⟩ : Joining).Sound
    rw [List.append_nil]
    unfold Client.joinLobby accepted
    cases hm : s.client.mp with
    | none =>
      simp only [Option.isNone_none, if_true, Option.isSome_none, Bool.false_eq_true, if_false,
        List.append_nil]
      exact hs
    | some m => exact hs.publish hm (Or.inr ⟨rfl, rfl, ⟨_, rfl, rfl, rfl⟩, rfl, rfl, rfl⟩)
  | findLobbies body =>
    refine hplain rfl rfl ?_
    show ({ s with client := if s.client.mp.isNone then s.client
      else s.client.enqueue (.find body) } : Joining).Sound
    split_ifs
    · exact hs
    · refine hs.same rfl rfl rfl ?_ ?_
      · rw [joinJobs_enqueue]
        exact List.append_nil _
      · rw [createJobs_enqueue]
        exact List.append_nil _
  | postUpdate h member update memberUpdate order =>
    exact hplain rfl rfl (hs.post h member update memberUpdate order)
  | leave h => exact hs.leave h

/-- What one step preserves. -/
theorem Sound.step (hs : s.Sound) {e : Step} (hk : s.Kept e) : (s.step host e).Sound := by
  cases e with
  | call e => exact hs.call e
  | work r => exact hs.work r hk

theorem sound_start : start.Sound where
  jobs _ hj := by cases hj
  creates _ hj := by cases hj
  parked _ hh := by cases hh
  completed _ hh := by cases hh
  joins _ hp := by cases hp
  unique _ _ _ hg := by cases hg
  live _ hm := by cases hm
  left _ hh := by cases hh
  fate _ hp := by cases hp

theorem Sound.accounted (hs : s.Sound) : s.Accounted := by
  intro p hp hcur hleft
  cases hs.fate p hp hcur hleft with
  | underway job unparked open_ _ _ =>
    refine Or.inl ⟨List.count_pos_iff.mp (by omega), fun hq => unparked hq.1, ?_⟩
    rw [List.count_eq_zero.mpr open_]
    omega
  | parked jobless once open_ kept =>
    refine Or.inr (Or.inl ⟨jobless, ⟨List.count_pos_iff.mp (by omega), kept⟩, ?_⟩)
    rw [List.count_eq_zero.mpr open_]
    omega
  | done jobless unparked once => exact Or.inr (Or.inr ⟨jobless, fun hq => unparked hq.1, once⟩)

/-- A lobby that is said to be gone is not tracked any more. -/
theorem untracked_pollLobby (host : Broker.Host) {c : Client} {h : ℕ} {r : Broker.Response}
    (htracked : h ∈ c.tracked) (hpoll : (c.handles[h]?.any Client.pollable) = true) (hstatus : r.status ≠ 200) :
    h ∉ (c.pollLobby host h (some r)).tracked := by
  obtain ⟨l, hl, hp⟩ := Option.any_eq_true _ _ |>.mp hpoll
  have hfilter : c.handles[h]?.filter Client.pollable = some l := by
    rw [hl, Option.filter_some, if_pos hp]
  have hcontains : ((c.mp.map fun m => m.lobbies.contains h).getD false) = true := by
    unfold Client.tracked at htracked
    cases hm : c.mp with
    | none =>
      rw [hm] at htracked
      cases htracked
    | some m =>
      rw [hm] at htracked
      exact List.contains_iff_mem.mpr htracked
  unfold Client.pollLobby
  rw [if_pos hcontains, hfilter]
  have hgone : applyRefresh host l (some r) = (l, true) := by
    simp only [applyRefresh, ne_eq, hstatus, not_false_eq_true, if_true]
  simp only [hgone, if_true]
  rw [Client.mem_tracked_untrack]
  exact fun htr => htr.2 rfl

/-- A parked join whose lobby is said to be gone is nowhere any more. -/
theorem Sound.lost (hs : s.Sound) {e : Step} (hk : ¬s.Kept e) : ¬(s.step host e).Accounted := by
  cases e with
  | call e => exact absurd trivial hk
  | work r =>
    cases hw : s.client.worker with
    | polled h reply targets =>
      cases reply with
      | none =>
        refine absurd ?_ hk
        simp [Kept, hw]
      | some reply =>
        have hk' : h ∈ s.client.parked ∧ h ∈ s.client.tracked ∧
            (s.client.handles[h]?.any Client.pollable) = true ∧ reply.status ≠ 200 := by
          unfold Kept at hk
          rw [hw] at hk
          simpa only [Classical.not_imp] using hk
        obtain ⟨hparked, htracked, hpoll, hstatus⟩ := hk'
        have hjoin := hs.parked h hparked
        have hleft : h ∉ s.left := fun hmem => (hs.left h hmem).2 htracked
        have hcur : s.client.current s.client.generation = true := by
          unfold Client.parked at hparked
          cases hm : s.client.mp with
          | none =>
            rw [hm] at hparked
            cases hparked
          | some m => simp [Client.current, Client.generation, hm]
        set c' : Client := { s.client.pollLobby host h (some reply) with worker := .polling targets }
          with hc'
        have hstep : s.step host (.work r) = { s with client := c' } := by
          simp only [Joining.step, Client.receive, Client.joinsCompleted, hw, List.append_nil, hc']
        have hcur' : c'.current s.client.generation = true := by
          rw [← hcur]
          exact (s.client.pollLobby_touches h (some reply) host).current _
        have hjoining : c'.joining = s.client.joining := by
          simp only [Client.joining, Client.joinJobs, hc', hw, Worker.joinJobs,
            (s.client.pollLobby_keeps h (some reply) host).queue]
        have hopen : h ∉ s.client.joining ∧ s.completed.count h = 0 := by
          cases hs.fate _ hjoin hcur hleft with
          | underway _ unparked _ _ _ => exact absurd hparked unparked
          | done _ unparked _ => exact absurd hparked unparked
          | parked jobless _ open_ _ => exact ⟨jobless, List.count_eq_zero.mpr open_⟩
        rw [hstep]
        intro hacc
        rcases hacc _ hjoin hcur' hleft with ⟨hjob, -⟩ | ⟨-, hq, -⟩ | ⟨-, -, hdone⟩
        · exact hopen.1 (hjoining ▸ hjob)
        · exact untracked_pollLobby host htracked hpoll hstatus hq.2
        · have hdone' : s.completed.count h = 1 := hdone
          omega
    | _ =>
      refine absurd ?_ hk
      simp [Kept, hw]

/-- In every run: all states account for all joins exactly when no reply to a poll says that
the lobby of a parked join is gone. -/
theorem accounted_iff_kept (host : Broker.Host) (steps : List Step) :
    (∀ before, before <+: steps → (run (Joining.step host) start before).Accounted) ↔
      Along (Joining.step host) Kept start steps :=
  property_iff_along (fun _ hs => hs.accounted) (fun _ _ hs hk => hs.step hk)
    (fun _ _ hs hk => hs.lost hk) sound_start steps

/-- A join of a lobby whose host has no network yet, up to the first poll. -/
def parkedJoin : List Step :=
  let lobby : Value := .obj [("LobbyId", .string "lan-1")]
  [.call .initializeMp, .call (.joinLobby none "lan.lan-1" [] ⟨[], [], []⟩), .work none,
    .work (some ⟨200, lobby⟩), .work none, .work (some ⟨200, lobby⟩), .work none, .work none]

/-- The host closes the lobby, and the join ends without a completion. -/
theorem parkedJoin_lost :
    let gone : Broker.Response := ⟨404, .obj [("error", .string "LobbyNotFound")]⟩
    ¬(run (Joining.step Broker.anonymousHost) start
      (parkedJoin ++ [.work (some gone), .work none])).Accounted := by
  decide +kernel

end Joining

end GbfrLan.Playfab
