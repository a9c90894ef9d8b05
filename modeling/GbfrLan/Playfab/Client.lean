import GbfrLan.Broker.Playfab
import GbfrLan.Playfab.Lobby

/-!
# The PlayFab shim as a client of the broker

The calls of the title work on the handles and put jobs into a queue. One worker takes the
jobs in order, exchanges a request with the broker and applies the reply; with an empty queue
it polls the lobbies. A step of the worker ends where the title's thread or another client
can come in between: before a request is served, and before its reply is applied.

State changes for the title, logging and the rows of a search are left out.
-/
namespace GbfrLan.Playfab
open Lib Json

structure CreateJob where
  generation : ℕ
  body : List Char
  owner : EntityKey
  lobby : ℕ
  lobbyData : Props
  search : Props

structure JoinJob where
  generation : ℕ
  body : List Char
  joiner : EntityKey
  memberKv : Props
  lobby : ℕ

/-- A leave with the two ids that its body is made of. -/
structure LeaveJob where
  generation : ℕ
  lobbyId : String
  entityId : String
  lobby : ℕ

structure PostJob where
  generation : ℕ
  post : Post
  lobby : ℕ

inductive Job where
  | create (j : CreateJob)
  | join (j : JoinJob)
  | find (body : List Char)
  | leave (j : LeaveJob)
  | post (j : PostJob)

namespace Job

def path : Job → String
  | .create _ => "/Lobby/CreateAndJoinLobby"
  | .join _ => "/Lobby/JoinLobby"
  | .find _ => "/Lobby/FindLobbies"
  | .leave _ => "/Lobby/LeaveLobby"
  | .post _ => "/Lobby/UpdateLobby"

def body : Job → List Char
  | .create j => j.body
  | .join j => j.body
  | .find body => body
  | .leave j => leaveBody j.lobbyId j.entityId
  | .post j => j.post.body

end Job

/-- Where the worker is. -/
inductive Worker where
  | idle
  /-- The request is on its way. -/
  | sending (job : Job)
  /-- The broker has served it. -/
  | answered (job : Job) (reply : Option Broker.Response)
  /-- The second request of a join. -/
  | fetching (job : JoinJob) (id : String)
  | fetched (job : JoinJob) (reply : Option Broker.Response)
  /-- A round of polls: the handles and ids that are left. -/
  | polling (targets : List (ℕ × String))
  | polled (lobby : ℕ) (reply : Option Broker.Response) (targets : List (ℕ × String))

structure Mp where
  generation : ℕ
  lobbies : List ℕ
  /-- Joins that wait for the network of the host. -/
  pendingJoins : List ℕ

structure Client where
  mp : Option Mp
  instanceGen : ℕ
  auth : String
  localEntity : String
  /-- Handles are never freed, so a handle is an index. -/
  handles : List Lobby
  queue : List Job
  worker : Worker

def Client.new : Client := ⟨none, 0, "", "", [], [], .idle⟩

structure CreateConfig where
  maxMemberCount : UInt32
  ownerMigrationPolicy : UInt32
  search : KvList
  lobby : KvList

/-- The calls of the title. -/
inductive Call where
  | initializeMp
  | uninitializeMp
  | setEntityToken (entity : EntityKey) (token : String)
  | createAndJoinLobby (creator : Option EntityKey) (cfg : Option CreateConfig) (joinKv : KvList)
      (order : Orders)
  | joinLobby (joiner : Option EntityKey) (connection : String) (joinKv : KvList) (order : Orders)
  | findLobbies (body : List Char)
  | postUpdate (lobby : ℕ) (member : Option EntityKey) (update : Option DataUpdate)
      (memberUpdate : Option MemberDataUpdate) (order : Orders)
  | leave (lobby : ℕ)

/-- What becomes of a request: served with the reply delivered, lost, or served with the
reply lost. -/
inductive Outcome where
  | served
  | lost
  | unanswered
  deriving DecidableEq

inductive Event where
  | call (c : Call)
  | work (m : Broker.Moment) (o : Outcome)

/-- `intern_entity`. -/
def internEntity (e : Option EntityKey) : EntityKey :=
  let orElse (s d : String) := if s.isEmpty then d else s
  ⟨orElse ((e.map EntityKey.id).getD "") "lan-user",
    orElse ((e.map EntityKey.type).getD "") "title_player_account"⟩

namespace Client

def generation (c : Client) : ℕ := (c.mp.map Mp.generation).getD 0

def enqueue (c : Client) (job : Job) : Client := { c with queue := c.queue ++ [job] }

/-- A new handle, tracked by the instance. -/
def publish (c : Client) (l : Lobby) : Client :=
  { c with
    handles := c.handles ++ [l]
    mp := c.mp.map fun m => { m with lobbies := m.lobbies ++ [c.handles.length] } }

def setLobby (c : Client) (h : ℕ) (l : Lobby) : Client := { c with handles := c.handles.set h l }

def untrack (c : Client) (h : ℕ) : Client :=
  { c with mp := c.mp.map fun m => { m with lobbies := m.lobbies.filter fun p => p != h } }

/-- The job's instance is still the live one. -/
def current (c : Client) (generation : ℕ) : Bool :=
  (c.mp.map fun m => m.generation == generation).getD false

def initializeMp (c : Client) : Client :=
  if c.mp.isSome then c
  else { c with mp := some ⟨c.instanceGen + 1, [], []⟩, instanceGen := c.instanceGen + 1 }

def setEntityToken (c : Client) (entity : EntityKey) (token : String) : Client :=
  if c.mp.isNone ∨ entity.id.isEmpty ∨ entity.type.isEmpty ∨ token.isEmpty then c
  else { c with
    auth := String.ofList (token.toList.filter fun ch => ch != '\r' && ch != '\n')
    localEntity := entity.id }

def createAndJoinLobby (c : Client) (creator : Option EntityKey) (cfg : Option CreateConfig)
    (joinKv : KvList) (order : Orders) : Client :=
  if c.mp.isNone then c
  else
    let maxPlayers := (cfg.map fun g => max 1 (min g.maxMemberCount.toNat 32)).getD 8
    let policy := (cfg.map fun g => min g.ownerMigrationPolicy.toNat 3).getD 0
    let lobbyData := (cfg.map fun g => kvList g.lobby).getD OrdMap.empty
    let search := (cfg.map fun g => kvList g.search).getD OrdMap.empty
    let owner := internEntity creator
    let memberKv := kvList joinKv
    let body := buildCreateBody maxPlayers policy lobbyData search owner.id memberKv order
    let mp := ensureMemberProps (applyProps OrdMap.empty memberKv) owner.id
    let lobby := { newPlaceholder owner with
      members := [owner]
      props := applyProps OrdMap.empty lobbyData
      search := applyProps OrdMap.empty search
      memberProps := OrdMap.empty.insert owner.id mp }
    let job := Job.create ⟨c.generation, body, owner, c.handles.length, lobbyData, search⟩
    (c.publish lobby).enqueue job

def joinLobby (c : Client) (joiner : Option EntityKey) (connection : String) (joinKv : KvList)
    (order : Orders) : Client :=
  if c.mp.isNone then c
  else
    let joiner := internEntity joiner
    let memberKv := kvList joinKv
    let body := buildJoinBody connection joiner.id memberKv order
    let job := Job.join ⟨c.generation, body, joiner, memberKv, c.handles.length⟩
    (c.publish (newPlaceholder joiner)).enqueue job

def post (c : Client) (h : ℕ) (member : Option EntityKey) (update : Option DataUpdate)
    (memberUpdate : Option MemberDataUpdate) (order : Orders) : Client :=
  match c.handles[h]? with
  | none => c
  | some l =>
      match postUpdate l member update memberUpdate c.localEntity order with
      | none => c
      | some p => (c.setLobby h p.lobby).enqueue (.post ⟨c.generation, p, h⟩)

/-- `PFLobbyLeave`: the id is read now, whatever the create or join job will learn. -/
def leave (c : Client) (h : ℕ) : Client :=
  match c.handles[h]? with
  | none => c
  | some l =>
      let eid := if c.localEntity.isEmpty then l.owner.id else c.localEntity
      let job := Job.leave ⟨c.generation, l.id, eid, h⟩
      ((c.setLobby h { l with left := true }).untrack h).enqueue job

def call (c : Client) : Call → Client
  | .initializeMp => c.initializeMp
  | .uninitializeMp => { c with mp := none }
  | .setEntityToken entity token => c.setEntityToken entity token
  | .createAndJoinLobby creator cfg joinKv order => c.createAndJoinLobby creator cfg joinKv order
  | .joinLobby joiner connection joinKv order => c.joinLobby joiner connection joinKv order
  | .findLobbies body => if c.mp.isNone then c else c.enqueue (.find body)
  | .postUpdate h member update memberUpdate order => c.post h member update memberUpdate order
  | .leave h => c.leave h

section
variable (host : Broker.Host)

/-- A create or join that came to nothing. -/
def fail (c : Client) (h : ℕ) : Client :=
  match c.handles[h]? with
  | none => c
  | some l => (c.setLobby h { l with pending := false, left := true }).untrack h

/-- `run_create` behind its request: nothing is done for a handle that was left meanwhile. -/
def runCreate (c : Client) (job : CreateJob) (reply : Option Broker.Response) : Client :=
  match c.handles[job.lobby]? with
  | none => c
  | some l =>
      if !c.current job.generation || l.left then c
      else
        match reply with
        | none => c.fail job.lobby
        | some r =>
            if r.status ≠ 200 ∨ (scanStr (Broker.numberText host) r.body "LobbyId").isNone then
              c.fail job.lobby
            else
              c.setLobby job.lobby
                (applyCreateResponse host l r.body job.owner job.lobbyData job.search)

def failJoin (c : Client) (job : JoinJob) : Client :=
  if c.current job.generation then c.fail job.lobby else c

/-- `run_join` between its two requests. -/
def joinAnswered (c : Client) (job : JoinJob) (reply : Option Broker.Response) : Client :=
  let id := (reply.filter fun r => r.status == 200).bind fun r =>
    scanStr (Broker.numberText host) r.body "LobbyId"
  match id with
  | none => { c.failJoin job with worker := .idle }
  | some id => { c with worker := .fetching job id }

/-- A join that is announced now, or parked until the host has a network. -/
def completeJoin (c : Client) (h : ℕ) (l : Lobby) : Client :=
  if lobbyReadyForGuest l then c.setLobby h { l with pending := false }
  else
    let c := c.setLobby h l
    { c with mp := c.mp.map fun m => { m with pendingJoins := m.pendingJoins ++ [h] } }

/-- `run_join` behind its second request. -/
def runJoin (c : Client) (job : JoinJob) (reply : Option Broker.Response) : Client :=
  match reply.filter fun r => r.status == 200 with
  | none => c.failJoin job
  | some r =>
      match c.handles[job.lobby]? with
      | none => c
      | some l =>
          if !c.current job.generation || l.left then c
          else c.completeJoin job.lobby (applyJoinResponse host l r.body job.joiner job.memberKv)

/-- A tracked handle with something to poll. -/
def pollable (l : Lobby) : Bool := !(l.left || (l.pending && l.id.isEmpty))

def pollTargets (c : Client) : List (ℕ × String) :=
  ((c.mp.map Mp.lobbies).getD []).filterMap fun h =>
    (c.handles[h]?.filter pollable).map fun l => (h, l.id)

/-- `poll_lobby`; a lobby that is gone is disconnected. -/
def pollLobby (c : Client) (h : ℕ) (reply : Option Broker.Response) : Client :=
  if ((c.mp.map fun m => m.lobbies.contains h).getD false) then
    match c.handles[h]?.filter pollable with
    | none => c
    | some l =>
        let (l, gone) := applyRefresh host l reply
        if gone then (c.setLobby h { l with left := true }).untrack h else c.setLobby h l
  else c

/-- Announce the parked joins that are ready. -/
def servicePendingJoins (c : Client) : Client :=
  let parked := (c.mp.map Mp.pendingJoins).getD []
  let ready (h : ℕ) : Bool := (c.handles[h]?.map lobbyReadyForGuest).getD false
  let c := (parked.filter ready).foldl (fun c h =>
    match c.handles[h]? with
    | some l => c.setLobby h { l with pending := false }
    | none => c) c
  { c with mp := c.mp.map fun m => { m with pendingJoins := m.pendingJoins.filter fun h => !ready h } }

/-- What the worker does with an answered job. -/
def settle (c : Client) (job : Job) (reply : Option Broker.Response) : Client :=
  match job with
  | .create j => { c.runCreate host j reply with worker := .idle }
  | .join j => c.joinAnswered host j reply
  | _ => { c with worker := .idle }

end

/-- The header line of the entity token. -/
def headers (c : Client) : Broker.Headers :=
  if c.auth.isEmpty then OrdMap.empty else OrdMap.empty.insert "x-entitytoken" c.auth

end Client

section
variable (host : Broker.Host) (readFloat : List Char → Option UInt64)

/-- The body as the broker takes it: an unreadable text is kept as `_raw`. -/
def readBody (text : List Char) : Value :=
  if text.isEmpty then .obj []
  else (Read.fromSlice readFloat text).getD (.obj [("_raw", .string (String.ofList text))])

/-- The reply on the wire. The rows of a search are not looked at. -/
def answer : Broker.Reply → Broker.Response
  | .response r => r
  | .rows _ => ⟨200, .null⟩

def request (c : Client) (m : Broker.Moment) (path : String) (body : List Char) : Broker.Request :=
  ⟨m, path, readBody readFloat body, c.headers⟩

/-- One exchange with the broker. -/
def exchange (app : Broker.App) (r : Broker.Request) (o : Outcome) :
    Broker.App × Option Broker.Response :=
  match o with
  | .lost => (app, none)
  | .unanswered => ((Broker.handlePlayfab host app r).1, none)
  | .served =>
      let (app, reply) := Broker.handlePlayfab host app r
      (app, reply.map answer)

theorem exchange_app {app : Broker.App} {r : Broker.Request} {o : Outcome} (h : o ≠ .lost) :
    (exchange host app r o).1 = (Broker.handlePlayfab host app r).1 := by
  cases o with
  | lost => exact absurd rfl h
  | served => rfl
  | unanswered => rfl

/-- A step of the worker. -/
def Client.work (app : Broker.App) (c : Client) (m : Broker.Moment) (o : Outcome) :
    Broker.App × Client :=
  match c.worker with
  | .idle =>
      match c.queue with
      | job :: queue => (app, { c with worker := .sending job, queue := queue })
      | [] => (app, { c with worker := .polling c.pollTargets })
  | .sending job =>
      let (app, reply) := exchange host app (request readFloat c m job.path job.body) o
      (app, { c with worker := .answered job reply })
  | .answered job reply => (app, c.settle host job reply)
  | .fetching job id =>
      let (app, reply) := exchange host app (request readFloat c m "/Lobby/GetLobby" (getBody id)) o
      (app, { c with worker := .fetched job reply })
  | .fetched job reply => (app, { c.runJoin host job reply with worker := .idle })
  | .polling [] => (app, { c.servicePendingJoins with worker := .idle })
  | .polling ((h, id) :: targets) =>
      let (app, reply) := exchange host app (request readFloat c m "/Lobby/GetLobby" (getBody id)) o
      (app, { c with worker := .polled h reply targets })
  | .polled h reply targets => (app, { c.pollLobby host h reply with worker := .polling targets })

def Client.step (app : Broker.App) (c : Client) : Event → Broker.App × Client
  | .call e => (app, c.call e)
  | .work m o => c.work host readFloat app m o

variable {host readFloat}

theorem Client.work_sending {app : Broker.App} {c : Client} {job : Job} (m : Broker.Moment)
    (o : Outcome) (h : c.worker = .sending job) :
    c.work host readFloat app m o =
      let (app, reply) := exchange host app (request readFloat c m job.path job.body) o
      (app, { c with worker := .answered job reply }) := by
  unfold Client.work
  rw [h]

end

end GbfrLan.Playfab
