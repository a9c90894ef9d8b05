import GbfrLan.Json.Scanner
import GbfrLan.Lib.Utf8
import GbfrLan.Playfab.Lobby

/-!
# The title's view of a lobby

A view is a handle with all its fields: what `GetLobby` replies are read into, what the getters
answer from, and what the state changes for the title are computed from. Replies are texts here,
read by the scanner of the shims.

Ids of entities stand as `read_cstr` reads them. The member properties are kept under the id as
the reply spells it. Hash maps are iterated in an order that comes with the call, and no
allocation fails.
-/
namespace GbfrLan.Playfab
open Lib Json

/-- The bytes after which `read_cstr` stops. -/
def readCap : ℕ := 4096

/-- `read_cstr` on a C string of this text. -/
def readCstr (s : String) : String := Utf8.decodeLossy ((Utf8.bytes s).take readCap)

/-- What is read from the C string that `intern` makes of a text. -/
def interned (s : String) : String := readCstr (cString s)

def titlePlayer (id : String) : EntityKey := ⟨id, "title_player_account"⟩

structure View extends Lobby where
  connection : String
  /-- The service has reported an owner. -/
  hasOwner : Bool
  maxPlayers : UInt32
  /-- 0 unlocked, 1 locked. -/
  membershipLock : ℤ
  /-- 0 public, 1 friends, 2 private. -/
  accessPolicy : ℕ
  /-- An `Updated` has carried the lock. -/
  lockKnown : Bool
  /-- The ids that were delivered as `MemberAdded`. -/
  announced : OrdMap String Unit

/-- The status and the body of a reply; `none` if there was none. -/
abbrev Reply := Option (ℕ × List Char)

/-- The orders in which a refresh iterates over the announced ids and the member properties. -/
structure RefreshOrder where
  announced : List String
  members : List String

/-! ### Reading a reply -/

def jsonMaxPlayers (blob : List Char) : UInt32 :=
  let n := ((Scan.jsonU32 blob "MaxPlayers").or (Scan.jsonU32 blob "max_member")).getD 8
  if n < 2 then 2 else if 32 < n then 32 else n

def parseMembershipLock (s : String) : ℤ :=
  if Text.lower s.toList = "locked".toList ∨ s = "1" then 1 else 0

def parseAccessPolicy (s : String) : ℕ :=
  let t := Text.lower s.toList
  if t = "friends".toList then 1 else if t = "private".toList then 2 else 0

/-- The text behind the first occurrence of a pattern. -/
def afterFirst (pat : List Char) : List Char → Option (List Char)
  | [] => Text.stripPrefix pat []
  | c :: cs => (Text.stripPrefix pat (c :: cs)).or (afterFirst pat cs)

/-- The last resort for a member's id: what follows the first `"Id":"`, up to a quote. -/
def splitId (m : List Char) : Option String :=
  (afterFirst "\"Id\":\"".toList m).map fun s => String.ofList (s.takeWhile fun c => c != '"')

/-- The id of a member of the reply. -/
def entryId (m : List Char) : Option String :=
  (((Scan.jsonStr m "Id").or (Scan.jsonStr m "id")).or
    (((Scan.jsonObj m "MemberEntity").get? "Id").filter fun s => !s.isEmpty)).or (splitId m)

/-- A member of the reply: its id, and its data completed. -/
def entryOf (m : List Char) : Option (String × Props) :=
  (entryId m).map fun eid =>
    (eid, ensureMemberProps (applyProps OrdMap.empty (Scan.jsonObj m "MemberData")) eid)

namespace View

def lobbyFromJson (text : List Char) : Option View :=
  (Scan.jsonStr text "LobbyId").bind fun id =>
    let conn := (Scan.jsonStr text "ConnectionString").getD ("lan." ++ id)
    let entries := (Scan.jsonArrObjects text "Members").filterMap entryOf
    let ownerId := ((Scan.jsonObj text "Owner").get? "Id").filter fun s => !s.isEmpty
    if '\x00' ∈ id.toList ∨ '\x00' ∈ conn.toList then none
    else some
      { id := id
        connection := conn
        owner := titlePlayer (interned (ownerId.getD "owner"))
        hasOwner := ownerId.isSome
        maxPlayers := jsonMaxPlayers text
        props := applyProps OrdMap.empty (Scan.jsonObj text "LobbyData")
        search := applyProps OrdMap.empty (Scan.jsonObj text "SearchData")
        memberProps := entries.foldl (fun m e => m.insert e.1 e.2) OrdMap.empty
        members := entries.map fun e => titlePlayer (interned e.1)
        membershipLock := ((Scan.jsonStr text "MembershipLock").map parseMembershipLock).getD 0
        accessPolicy := ((Scan.jsonStr text "AccessPolicy").map parseAccessPolicy).getD 0
        lockKnown := false
        announced := OrdMap.empty
        pending := false
        left := false }

/-- The ids on the roster. -/
def roster (v : View) : List String := v.members.map EntityKey.id

end View

/-! ### Differences -/

structure MemberUpdate where
  member : EntityKey
  connectionStatusUpdated : Bool
  propertyKeys : List String
  deriving DecidableEq, Repr

/-- What an `Updated` reports. -/
structure LobbyDelta where
  ownerUpdated : Bool
  maxPlayersUpdated : Bool
  accessPolicyUpdated : Bool
  membershipLockUpdated : Bool
  searchKeys : List String
  lobbyKeys : List String
  memberUpdates : List MemberUpdate
  deriving DecidableEq, Repr

namespace LobbyDelta

/-- `LobbyDelta::default`. -/
def none : LobbyDelta := ⟨false, false, false, false, [], [], []⟩

def isEmpty (d : LobbyDelta) : Bool :=
  !d.ownerUpdated && !d.maxPlayersUpdated && !d.accessPolicyUpdated && !d.membershipLockUpdated &&
    d.searchKeys.isEmpty && d.lobbyKeys.isEmpty && d.memberUpdates.isEmpty

end LobbyDelta

/-- In order and each once. -/
def sortDedup (keys : List String) : List String :=
  (keys.foldl (fun m k => m.insert k ()) (OrdMap.empty : OrdMap String Unit)).keys

def changedKeys (before after : Props) : List String :=
  sortDedup ((after.keys.filter fun k => decide (before.get? k ≠ after.get? k)) ++
    before.keys.filter fun k => !after.contains k)

/-- The update about one member's entry, if there is something to report. -/
def memberUpdateOf (before after : View) (e : String × Props) : Option MemberUpdate :=
  let newMember := !before.memberProps.contains e.1
  let keys := changedKeys ((before.memberProps.get? e.1).getD OrdMap.empty) e.2
  if newMember || !keys.isEmpty then
    some ⟨(after.members.find? fun m => m.id == e.1).getD (titlePlayer (interned e.1)), newMember,
      keys⟩
  else none

/-- `diff_lobby`; a snapshot is the view as it was. -/
def diffLobby (order : List String) (before after : View) : LobbyDelta where
  ownerUpdated := before.hasOwner != after.hasOwner || decide (before.owner ≠ after.owner)
  maxPlayersUpdated := before.maxPlayers != after.maxPlayers
  accessPolicyUpdated := before.accessPolicy != after.accessPolicy
  membershipLockUpdated := before.membershipLock != after.membershipLock
  searchKeys := changedKeys before.search after.search
  lobbyKeys := changedKeys before.props after.props
  memberUpdates := (after.memberProps.iterEntries order).filterMap (memberUpdateOf before after)

/-! ### Refreshing -/

namespace View

/-- What a reply with this content makes of the view. An empty roster does not replace one that
has members. -/
def refreshed (v fresh : View) : View :=
  let v' := { v with
    props := fresh.props
    search := fresh.search
    connection := fresh.connection
    owner := fresh.owner
    hasOwner := fresh.hasOwner
    maxPlayers := fresh.maxPlayers
    accessPolicy := fresh.accessPolicy
    membershipLock := fresh.membershipLock }
  if fresh.members.isEmpty && !v.members.isEmpty then v'
  else { v' with
    members := fresh.members
    memberProps := refreshMemberProps v.memberProps fresh.memberProps }

/-- The announced ids that are not on the roster. -/
def departed (order : List String) (v : View) : List String :=
  ((v.announced.iterEntries order).map Prod.fst).filter fun e => decide (e ∉ v.roster)

/-- What a refresh returns besides the view. -/
structure Refresh where
  departed : List String
  gone : Bool
  delta : LobbyDelta
  deriving DecidableEq, Repr

def applyRefresh (order : RefreshOrder) (v : View) (resp : Reply) : View × Refresh :=
  match resp with
  | none => (v, ⟨[], false, .none⟩)
  | some (status, text) =>
      if status ≠ 200 then (v, ⟨[], true, .none⟩)
      else
        match lobbyFromJson text with
        | none => (v, ⟨[], false, .none⟩)
        | some fresh =>
            let v' := v.refreshed fresh
            (v', ⟨v'.departed order.announced, false, diffLobby order.members v v'⟩)

end View

/-- The lobby is polled: not left, and not a create or join without an answer. -/
def View.pollable (v : View) : Bool := !(v.left || (v.pending && v.id.isEmpty))

/-! ### State changes -/

/-- The records of the title's queue, by their types 0, 1, 2, 4, 6, 7, 8, 10 and 12. A handle is
a number, and so is a context of the title. The rows of a search are left out. -/
inductive Change where
  | createCompleted (code : UInt32) (ctx lobby : ℕ)
  | joinCompleted (code : UInt32) (joiner : EntityKey) (lobby : ℕ)
  | memberAdded (lobby : ℕ) (member : EntityKey)
  | memberRemoved (lobby : ℕ) (member : EntityKey)
  | leaveCompleted (code : UInt32)
  | updated (lobby : ℕ) (delta : LobbyDelta)
  | postCompleted (code : UInt32) (lobby : ℕ) (member : Option EntityKey) (ctx : ℕ)
  | disconnected (lobby : ℕ)
  | findCompleted (code : UInt32) (entity : EntityKey) (ctx : ℕ)
  deriving DecidableEq, Repr

/-- A view while changes are queued for it. -/
structure Emitting where
  view : View
  changes : List Change

namespace Emitting

def queue (s : Emitting) (c : Change) : Emitting := { s with changes := s.changes ++ [c] }

section
variable (h : ℕ)

/-- Ids that are never announced; `"owner"` stands for an owner that is not known. -/
def unnamed (id : String) : Bool := id == "" || id == "owner"

def emitMemberAdded (s : Emitting) (member : EntityKey) : Emitting :=
  if unnamed member.id || s.view.announced.contains member.id then s
  else
    queue { s with view := { s.view with announced := s.view.announced.insert member.id () } }
      (.memberAdded h member)

def announceLobbyMembers (s : Emitting) : Emitting :=
  s.view.members.foldl (emitMemberAdded h) (emitMemberAdded h s s.view.owner)

def emitUpdated (s : Emitting) (delta : LobbyDelta) (forceLock : Bool) : Emitting :=
  let delta := if forceLock || !s.view.lockKnown then { delta with membershipLockUpdated := true }
    else delta
  if delta.isEmpty then s
  else queue { s with view := { s.view with lockKnown := true } } (.updated h delta)

/-- The delta of a completed join: the joiner's properties. -/
def joinDelta (v : View) (joiner : EntityKey) : LobbyDelta :=
  match v.memberProps.get? joiner.id with
  | some mp =>
      if mp.keys.isEmpty then .none else { LobbyDelta.none with memberUpdates := [⟨joiner, true, mp.keys⟩] }
  | none => .none

def emitJoinCompleted (s : Emitting) (joiner : EntityKey) : Emitting :=
  let s := { s with view := { s.view with pending := false } }
  let s := emitMemberAdded h (announceLobbyMembers h s) joiner
  (emitUpdated h s (joinDelta s.view joiner) true).queue (.joinCompleted 0 joiner h)

/-- One turn of the loop over the departed. The id was read before, so interning gives it back. -/
def emitMemberRemoved (s : Emitting) (eid : String) : Emitting :=
  queue { s with view := { s.view with announced := s.view.announced.erase eid } }
    (.memberRemoved h (titlePlayer eid))

/-- `poll_lobby`, without the tracking: the view, and whether the lobby is gone. `parked` says
that a join of the handle waits for its completion. -/
def pollLobby (order : RefreshOrder) (parked : Bool) (s : Emitting) (resp : Reply) :
    Emitting × Bool :=
  let (v, r) := s.view.applyRefresh order resp
  let s := r.departed.foldl (emitMemberRemoved h) { s with view := v }
  if r.gone then (queue { s with view := { s.view with left := true } } (.disconnected h), true)
  else if parked then (s, false)
  else (emitUpdated h (announceLobbyMembers h s) r.delta false, false)

end

end Emitting

/-! ### Getters -/

def ePfLobbyMemberNotInLobby : UInt32 := 0x89236220

namespace View

/-- The check of the member getters: the entity is on the roster or has properties. -/
def knowsMember (v : View) (mid : String) : Bool :=
  mid.isEmpty || v.roster.contains mid || v.memberProps.contains mid

/-- `PFLobbyGetMemberConnectionStatus`: the code, and the status that is written. -/
def getMemberConnectionStatus (v : View) (mid : String) : UInt32 × ℕ :=
  if v.pending then (0, 0)
  else if v.knowsMember mid then (0, 1)
  else (ePfLobbyMemberNotInLobby, 0)

/-- `PFLobbyGetMemberProperty`: the code, and the value that is written, `none` for null. -/
def getMemberProperty (v : View) (mid key : String) : UInt32 × Option String :=
  if v.pending then (0, none)
  else if v.knowsMember mid then (0, (v.memberProps.get? mid).bind fun mp => mp.get? key)
  else (ePfLobbyMemberNotInLobby, none)

end View

end GbfrLan.Playfab
