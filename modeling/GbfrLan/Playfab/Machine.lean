import GbfrLan.Lib.Run
import GbfrLan.Playfab.Client
import GbfrLan.Playfab.View

/-!
# The PlayFab shim with its state changes

The calls of the title, the jobs of the worker and its rounds of polls, on whole views and with
everything that is queued for the title. Any reply may come to a request, so requests are left
out. A job changes nothing before its replies are there, so it stands in the queue until then and
is taken in one step; a round of polls lets calls of the title in between two lobbies.
-/
namespace GbfrLan.Playfab
open Lib Json

def ePfLobbyNotFound : UInt32 := 0x89236226
def ePfLobbyNotJoinable : UInt32 := 0x89236227
def ePfLobbyAlreadyMember : UInt32 := 0x89236225
def ePfLobbyFull : UInt32 := 0x89236206
def ePfServiceBadRequest : UInt32 := 0x8923621e
def ePfServiceUnexpected : UInt32 := 0x89236208
def ePfServiceMalformedResponse : UInt32 := 0x89236221
def ePfService4xx : UInt32 := 0x89236409
def ePfService5xx : UInt32 := 0x8923640a

def brokerErrorCode (status : ℕ) (body : List Char) : UInt32 :=
  let names (s : String) : Bool := Text.containsSub s.toList body
  if names "LobbyNotFound" then ePfLobbyNotFound
  else if names "LobbyMemberLimitExceeded" || names "PartyMemberLimitExceeded" then ePfLobbyFull
  else if names "LobbyNotJoinable" then ePfLobbyNotJoinable
  else if names "LobbyPlayerAlreadyJoined" || names "LobbyAlreadyMember" then ePfLobbyAlreadyMember
  else if status = 400 then ePfServiceBadRequest
  else if status = 404 then ePfLobbyNotFound
  else if status = 409 then ePfServiceUnexpected
  else if 500 ≤ status ∧ status < 600 then ePfService5xx
  else if 400 ≤ status ∧ status < 500 then ePfService4xx
  else ePfServiceUnexpected

theorem brokerErrorCode_ne_zero (status : ℕ) (body : List Char) : brokerErrorCode status body ≠ 0 := by
  unfold brokerErrorCode
  extract_lets names
  split_ifs <;> decide

/-- The code of a request that has no answer to read: zero for a 200. -/
def resultCode (status : ℕ) (body : List Char) : UInt32 :=
  if status = 200 then 0 else brokerErrorCode status body

/-! ### Replies on views -/

namespace View

/-- A handle before the service has answered. -/
def newPlaceholder (owner : EntityKey) (maxPlayers : UInt32) (accessPolicy : ℕ) : View where
  toLobby := Playfab.newPlaceholder owner
  connection := ""
  hasOwner := true
  maxPlayers := maxPlayers
  membershipLock := 0
  accessPolicy := accessPolicy
  lockKnown := false
  announced := OrdMap.empty

def applyCreateResponse (v : View) (text : List Char) (owner : EntityKey) (maxPlayers : UInt32)
    (lobbyData search : Props) : View :=
  let answered := jsonMaxPlayers text
  { v with
    id := ((Scan.jsonStr text "LobbyId").map cString).getD v.id
    connection := ((Scan.jsonStr text "ConnectionString").map cString).getD v.connection
    owner := owner
    hasOwner := true
    maxPlayers := if answered < maxPlayers then maxPlayers else answered
    props := applyProps OrdMap.empty lobbyData
    search := applyProps OrdMap.empty search
    pending := false }

/-- `move_lobby_into`: what the completions have recorded stays. -/
def moveLobbyInto (dst fresh : View) : View :=
  { fresh with
    announced := dst.announced, lockKnown := dst.lockKnown, pending := dst.pending, left := dst.left }

def applyJoinResponse (v : View) (text : List Char) (joiner : EntityKey) (memberKv : Props) : View :=
  let v := match lobbyFromJson text with
    | some fresh => moveLobbyInto v fresh
    | none => v
  let members := if v.roster.contains joiner.id then v.members else v.members ++ [joiner]
  let entry := applyProps ((v.memberProps.get? joiner.id).getD OrdMap.empty) memberKv
  { v with
    members := members
    memberProps := v.memberProps.insert joiner.id (ensureMemberProps entry joiner.id) }

/-- The part of `PFLobbyPostUpdate` that the update changes in the view. -/
def applyUpdate (v : View) (u : DataUpdate) : View :=
  { v with
    toLobby := u.apply v.toLobby
    hasOwner := v.hasOwner || u.scalars.owner.isSome
    maxPlayers := u.scalars.maxPlayers.getD v.maxPlayers
    accessPolicy := u.scalars.accessPolicy.getD v.accessPolicy
    membershipLock := u.scalars.membershipLock.getD v.membershipLock }

/-- `PFLobbyPostUpdate` on the view, refused without an update and after a leave. -/
def postUpdate (v : View) (member : Option EntityKey) (update : Option DataUpdate)
    (memberUpdate : Option MemberDataUpdate) (localEntity : String) : Option View :=
  if (update.isNone ∧ memberUpdate.isNone) ∨ v.left then none
  else
    let v := (update.map v.applyUpdate).getD v
    some { v with toLobby := (applyMember v.toLobby member memberUpdate localEntity).1 }

end View

/-! ### The machine -/

namespace Shim

structure CreateJob where
  generation : ℕ
  owner : EntityKey
  lobby : ℕ
  ctx : ℕ
  maxPlayers : UInt32
  lobbyData : Props
  search : Props

structure JoinJob where
  generation : ℕ
  joiner : EntityKey
  memberKv : Props
  lobby : ℕ

structure FindJob where
  generation : ℕ
  entity : EntityKey
  ctx : ℕ

structure LeaveJob where
  generation : ℕ
  lobby : ℕ

structure PostJob where
  generation : ℕ
  lobby : ℕ
  member : Option EntityKey
  ctx : ℕ
  delta : LobbyDelta

inductive Job where
  | create (j : CreateJob)
  | join (j : JoinJob)
  | find (j : FindJob)
  | leave (j : LeaveJob)
  | post (j : PostJob)

/-- A join that waits for the network of the host. The flag `emitted` is never set. -/
structure PendingJoin where
  lobby : ℕ
  joiner : EntityKey

structure Mp where
  generation : ℕ
  lobbies : List ℕ
  pendingJoins : List PendingJoin

end Shim

structure Shim where
  mp : Option Shim.Mp
  instanceGen : ℕ
  localEntity : String
  /-- Handles are never freed, so a handle is an index. -/
  handles : List View
  queue : List Shim.Job
  /-- The lobbies that a round of polls has left, while one is on. -/
  round : Option (List ℕ)
  /-- All changes that were queued for the title. -/
  log : List Change

namespace Shim

def new : Shim := ⟨none, 0, "", [], [], none, []⟩

structure CreateConfig extends Playfab.CreateConfig where
  accessPolicy : UInt32

inductive Call where
  | initializeMp
  | uninitializeMp
  | setEntityToken (entity : EntityKey) (token : String)
  | createAndJoinLobby (creator : Option EntityKey) (cfg : Option CreateConfig) (joinKv : KvList)
      (ctx : ℕ)
  | joinLobby (joiner : Option EntityKey) (joinKv : KvList)
  | findLobbies (entity : Option EntityKey) (ctx : ℕ)
  /-- With the order in which the difference iterates over the member properties. -/
  | postUpdate (lobby : ℕ) (member : Option EntityKey) (update : Option DataUpdate)
      (memberUpdate : Option MemberDataUpdate) (ctx : ℕ) (order : List String)
  | leave (lobby : ℕ)

inductive Event where
  | call (c : Call)
  /-- The worker goes on, with the replies to the requests that it sends, up to two. -/
  | work (order : RefreshOrder) (reply reply' : Reply)

/-! #### Calls -/

def generation (s : Shim) : ℕ := (s.mp.map Mp.generation).getD 0

def current (s : Shim) (generation : ℕ) : Bool :=
  (s.mp.map fun m => m.generation == generation).getD false

def pendingJoins (s : Shim) : List PendingJoin := (s.mp.map Mp.pendingJoins).getD []

/-- The handles with a parked join. -/
def parked (s : Shim) : List ℕ := s.pendingJoins.map PendingJoin.lobby

def tracked (s : Shim) : List ℕ := (s.mp.map Mp.lobbies).getD []

def enqueue (s : Shim) (job : Job) : Shim := { s with queue := s.queue ++ [job] }

def publish (s : Shim) (v : View) : Shim :=
  { s with
    handles := s.handles ++ [v]
    mp := s.mp.map fun m => { m with lobbies := m.lobbies ++ [s.handles.length] } }

def untrack (s : Shim) (h : ℕ) : Shim :=
  { s with mp := s.mp.map fun m => { m with lobbies := m.lobbies.filter fun p => p != h } }

def queueChange (s : Shim) (c : Change) : Shim := { s with log := s.log ++ [c] }

/-- Work on a view with the title's queue at hand. -/
def emit (s : Shim) (h : ℕ) (f : Emitting → Emitting) : Shim :=
  match s.handles[h]? with
  | none => s
  | some v =>
      let t := f ⟨v, s.log⟩
      { s with handles := s.handles.set h t.view, log := t.changes }

/-- Change a view and queue nothing. -/
def update (s : Shim) (h : ℕ) (f : View → View) : Shim :=
  s.emit h fun t => { t with view := f t.view }

def initializeMp (s : Shim) : Shim :=
  if s.mp.isSome then s
  else { s with mp := some ⟨s.instanceGen + 1, [], []⟩, instanceGen := s.instanceGen + 1 }

def setEntityToken (s : Shim) (entity : EntityKey) (token : String) : Shim :=
  if s.mp.isNone ∨ entity.id.isEmpty ∨ entity.type.isEmpty ∨ token.isEmpty then s
  else { s with localEntity := entity.id }

def createAndJoinLobby (s : Shim) (creator : Option EntityKey) (cfg : Option CreateConfig)
    (joinKv : KvList) (ctx : ℕ) : Shim :=
  if s.mp.isNone then s
  else
    let maxPlayers : UInt32 := (cfg.map fun g =>
      if g.maxMemberCount < 1 then 1 else if 32 < g.maxMemberCount then 32 else g.maxMemberCount).getD 8
    let accessPolicy := (cfg.map fun g => min g.accessPolicy.toNat 2).getD 0
    let lobbyData := (cfg.map fun g => kvList g.lobby).getD OrdMap.empty
    let search := (cfg.map fun g => kvList g.search).getD OrdMap.empty
    let owner := internEntity creator
    let mp := ensureMemberProps (applyProps OrdMap.empty (kvList joinKv)) owner.id
    let view := { View.newPlaceholder owner maxPlayers accessPolicy with
      members := [owner]
      props := applyProps OrdMap.empty lobbyData
      search := applyProps OrdMap.empty search
      memberProps := OrdMap.empty.insert owner.id mp }
    (s.publish view).enqueue
      (.create ⟨s.generation, owner, s.handles.length, ctx, maxPlayers, lobbyData, search⟩)

def joinLobby (s : Shim) (joiner : Option EntityKey) (joinKv : KvList) : Shim :=
  if s.mp.isNone then s
  else
    let joiner := internEntity joiner
    (s.publish (View.newPlaceholder joiner 0 0)).enqueue
      (.join ⟨s.generation, joiner, kvList joinKv, s.handles.length⟩)

def findLobbies (s : Shim) (entity : Option EntityKey) (ctx : ℕ) : Shim :=
  if s.mp.isNone then s else s.enqueue (.find ⟨s.generation, internEntity entity, ctx⟩)

def postUpdate (s : Shim) (h : ℕ) (member : Option EntityKey) (update : Option DataUpdate)
    (memberUpdate : Option MemberDataUpdate) (ctx : ℕ) (order : List String) : Shim :=
  match s.handles[h]? with
  | none => s
  | some v =>
      match v.postUpdate member update memberUpdate s.localEntity with
      | none => s
      | some v' =>
          (s.update h fun _ => v').enqueue
            (.post ⟨s.generation, h, member, ctx, diffLobby order v v'⟩)

def leave (s : Shim) (h : ℕ) : Shim :=
  if h < s.handles.length then
    ((s.update h fun v => { v with left := true }).untrack h).enqueue (.leave ⟨s.generation, h⟩)
  else s

def call (s : Shim) : Call → Shim
  | .initializeMp => s.initializeMp
  | .uninitializeMp => { s with mp := none }
  | .setEntityToken entity token => s.setEntityToken entity token
  | .createAndJoinLobby creator cfg joinKv ctx => s.createAndJoinLobby creator cfg joinKv ctx
  | .joinLobby joiner joinKv => s.joinLobby joiner joinKv
  | .findLobbies entity ctx => s.findLobbies entity ctx
  | .postUpdate h member update memberUpdate ctx order =>
      s.postUpdate h member update memberUpdate ctx order
  | .leave h => s.leave h

/-! #### The worker -/

/-- A create or join that came to nothing. -/
def fail (s : Shim) (h : ℕ) (completed : Change) : Shim :=
  ((s.update h fun v => { v with pending := false, left := true }).untrack h).queueChange completed

/-- The status and body of a reply; a missing one has status zero. -/
def answer (r : Reply) : ℕ × List Char := r.getD (0, [])

def runCreate (s : Shim) (job : CreateJob) (r : Reply) : Shim :=
  let (status, text) := answer r
  match s.handles[job.lobby]? with
  | none => s
  | some v =>
      if !s.current job.generation || v.left then s
      else if status ≠ 200 ∨ (Scan.jsonStr text "LobbyId").isNone then
        let code := if status ≠ 200 then brokerErrorCode status text else ePfServiceMalformedResponse
        s.fail job.lobby (.createCompleted code job.ctx job.lobby)
      else
        s.emit job.lobby fun t =>
          let t := { t with view :=
            t.view.applyCreateResponse text job.owner job.maxPlayers job.lobbyData job.search }
          (t.emitMemberAdded job.lobby job.owner).queue (.createCompleted 0 job.ctx job.lobby)

def failJoin (s : Shim) (job : JoinJob) (code : UInt32) : Shim :=
  if s.current job.generation then s.fail job.lobby (.joinCompleted code job.joiner job.lobby) else s

def park (s : Shim) (pj : PendingJoin) : Shim :=
  { s with mp := s.mp.map fun m => { m with pendingJoins := m.pendingJoins ++ [pj] } }

/-- `run_join`, with the replies to the join and to the `GetLobby` behind it. -/
def runJoin (s : Shim) (job : JoinJob) (r r' : Reply) : Shim :=
  let (status, text) := answer r
  let (status', text') := answer r'
  if status ≠ 200 then s.failJoin job (brokerErrorCode status text)
  else if (Scan.jsonStr text "LobbyId").isNone then s.failJoin job ePfServiceMalformedResponse
  else if status' ≠ 200 then s.failJoin job (brokerErrorCode status' text')
  else
    match s.handles[job.lobby]? with
    | none => s
    | some v =>
        if !s.current job.generation || v.left then s
        else
          let v' := v.applyJoinResponse text' job.joiner job.memberKv
          let s := s.update job.lobby fun _ => v'
          if lobbyReadyForGuest v'.toLobby then
            s.emit job.lobby fun t => t.emitJoinCompleted job.lobby job.joiner
          else s.park ⟨job.lobby, job.joiner⟩

def runFind (s : Shim) (job : FindJob) (r : Reply) : Shim :=
  let (status, text) := answer r
  if s.current job.generation then
    s.queueChange (.findCompleted (resultCode status text) job.entity job.ctx)
  else s

def runLeave (s : Shim) (job : LeaveJob) (r : Reply) : Shim :=
  let (status, text) := answer r
  if s.current job.generation then s.queueChange (.leaveCompleted (resultCode status text)) else s

/-- `run_post`: the echo does not ask whether a join is parked. -/
def runPost (s : Shim) (job : PostJob) (r : Reply) : Shim :=
  let (status, text) := answer r
  let code := resultCode status text
  if s.current job.generation then
    let s := s.queueChange (.postCompleted code job.lobby job.member job.ctx)
    if code = 0 ∧ !job.delta.isEmpty then s.emit job.lobby fun t => t.emitUpdated job.lobby job.delta false
    else s
  else s

def runBrokerJob (s : Shim) (job : Job) (r r' : Reply) : Shim :=
  match job with
  | .create j => s.runCreate j r
  | .join j => s.runJoin j r r'
  | .find j => s.runFind j r
  | .leave j => s.runLeave j r
  | .post j => s.runPost j r

def pollable (s : Shim) (h : ℕ) : Bool := (s.handles[h]?.map View.pollable).getD false

/-- One lobby of a round: it may have been left since the round began. -/
def pollLobby (s : Shim) (h : ℕ) (order : RefreshOrder) (r : Reply) : Shim :=
  if s.tracked.contains h && s.pollable h then
    let gone := (s.handles[h]?.map fun v => (v.applyRefresh order r).2.gone).getD false
    let s := s.emit h fun t => (t.pollLobby h order (s.parked.contains h) r).1
    if gone then s.untrack h else s
  else s

def ready (s : Shim) (pj : PendingJoin) : Bool :=
  (s.handles[pj.lobby]?.map fun v => lobbyReadyForGuest v.toLobby).getD false

/-- The parked joins that are ready are completed from the last to the first. -/
def servicePendingJoins (s : Shim) : Shim :=
  let readyJoins := (s.pendingJoins.filter s.ready).reverse
  let left := s.pendingJoins.filter fun pj => !s.ready pj
  let s := { s with mp := s.mp.map fun m => { m with pendingJoins := left } }
  readyJoins.foldl (fun s pj => s.emit pj.lobby fun t => t.emitJoinCompleted pj.lobby pj.joiner) s

/-- The worker takes the next job, and with none left makes a round of polls. -/
def work (s : Shim) (order : RefreshOrder) (r r' : Reply) : Shim :=
  match s.round with
  | none =>
      match s.queue with
      | job :: queue => { s with queue := queue }.runBrokerJob job r r'
      | [] => { s with round := some (s.tracked.filter s.pollable) }
  | some [] => { s.servicePendingJoins with round := none }
  | some (h :: rest) => { s.pollLobby h order r with round := some rest }

def step (s : Shim) : Event → Shim
  | .call c => s.call c
  | .work order r r' => s.work order r r'

end Shim

end GbfrLan.Playfab
