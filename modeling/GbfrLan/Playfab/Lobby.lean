import GbfrLan.Broker.App
import GbfrLan.Json.Scan

/-!
# Lobby handles of the PlayFab shim

A handle caches a lobby of the broker: its id, once that is known, its owner, its property
bags and its members. This module has the local operations on a handle and the texts of the
requests that are built from one. The fields that only getters and change records read are
left out.

Property lists come as `read_cstr` reads them, a null value as `none`. The order in which a
hash map is written is given with the call.
-/
namespace GbfrLan.Playfab
open Lib Json

structure EntityKey where
  id : String
  type : String
  deriving DecidableEq, Repr

abbrev Props := OrdMap String String

/-- Names and values of a property list of the title. -/
abbrev KvList := List (String × Option String)

structure Lobby where
  id : String
  owner : EntityKey
  props : Props
  search : Props
  memberProps : OrdMap String Props
  members : List EntityKey
  /-- The create or join has not been announced as completed. -/
  pending : Bool
  left : Bool

/-! ### Property bags -/

/-- The count of a list above which it is refused. -/
def maxPairs : ℕ := 32

def kvList (kv : KvList) : Props :=
  if maxPairs < kv.length then OrdMap.empty
  else kv.foldl (fun m e => if e.1.isEmpty then m else m.insert e.1 (e.2.getD "")) OrdMap.empty

/-- One pair of a list that may delete: a null value deletes the key. -/
def splitPair (m : Props × List String) (e : String × Option String) : Props × List String :=
  if e.1.isEmpty then m
  else match e.2 with
    | none => (m.1, m.2 ++ [e.1])
    | some v => (m.1.insert e.1 v, m.2)

/-- The pairs to set and the keys to delete. -/
def kvListSplit (kv : KvList) : Props × List String :=
  if maxPairs < kv.length then (OrdMap.empty, []) else kv.foldl splitPair (OrdMap.empty, [])

/-- A C string; a text with a NUL in it becomes empty. -/
def cString (s : String) : String := if '\x00' ∈ s.toList then "" else s

def applyProps (dst src : Props) : Props :=
  src.entries.foldl (fun m e => m.insert e.1 (cString e.2)) dst

def dropProps (dst : Props) (keys : List String) : Props :=
  keys.foldl (fun m k => m.erase k) dst

/-- Entries for the keys that are missing. -/
def fillGaps (dst src : Props) : Props :=
  src.entries.foldl (fun m e => if m.contains e.1 then m else m.insert e.1 e.2) dst

def numeric (s : String) : Bool := !s.isEmpty && s.toList.all Char.isDigit

def ensureMemberProps (mp : Props) (entityId : String) : Props :=
  let plat := (mp.get? "member_platform").getD ""
  let mp := if plat = "" ∨ plat = "1" then mp.insert "member_platform" "Steam" else mp
  let account := (((mp.get? "member_platform_account_id").filter numeric).or
    (if numeric entityId then some entityId else none)).getD (Broker.decimalAccountId entityId)
  let mp := mp.insert "member_platform_account_id" account
  if mp.contains "member_platform_user_name" then mp
  else mp.insert "member_platform_user_name" "LAN"

/-! ### Request texts -/

def quoted (t : List Char) : List Char := '"' :: t ++ ['"']

/-- `"name":text`; the name is written as it is. -/
def field (name : String) (t : List Char) : List Char := '"' :: name.toList ++ '"' :: ':' :: t

def object (fields : List (List Char)) : List Char := '{' :: Text.commas fields ++ ['}']

/-- A property bag: values are escaped, names are not. -/
def propsJson (m : Props) (order : List String) : List Char :=
  object ((m.iterEntries order).map fun e => field e.1 (quoted (jsonEscape e.2)))

def memberDataJson (entityId : String) (extra : Props) (order : List String) : List Char :=
  propsJson (ensureMemberProps (applyProps OrdMap.empty extra) entityId) order

/-- `q_str_list` in its brackets. -/
def strList (keys : List String) : List Char :=
  '[' :: Text.commas (keys.map fun k => quoted (jsonEscape k)) ++ [']']

def entityJson (id type : String) : List Char :=
  object [field "Id" (quoted (jsonEscape id)), field "Type" (quoted (jsonEscape type))]

/-- The iteration orders of the maps that a request writes. -/
structure Orders where
  props : List String
  search : List String
  member : List String

def buildCreateBody (max ownerMigrationPolicy : ℕ) (lobbyData search : Props) (ownerId : String)
    (memberKv : Props) (order : Orders) : List Char :=
  object ([field "MaxPlayers" (toString max).toList,
    field "OwnerMigrationPolicy" (toString ownerMigrationPolicy).toList,
    field "LobbyData" (propsJson lobbyData order.props),
    field "SearchData" (propsJson search order.search)] ++
    (if ownerId.isEmpty then [] else [field "Owner" (entityJson ownerId "title_player_account")]) ++
    [field "MemberData" (memberDataJson ownerId memberKv order.member)])

def buildJoinBody (conn joinerId : String) (memberKv : Props) (order : Orders) : List Char :=
  object (field "ConnectionString" (quoted (jsonEscape conn)) ::
    if joinerId.isEmpty then []
    else [field "MemberEntity" (entityJson joinerId "title_player_account"),
      field "MemberData" (memberDataJson joinerId memberKv order.member)])

/-- The request of a `GetLobby`; the id is written as it is. -/
def getBody (id : String) : List Char := object [field "LobbyId" (quoted id.toList)]

/-- The request that `PFLobbyLeave` builds. -/
def leaveBody (id eid : String) : List Char :=
  object (field "LobbyId" (quoted id.toList) ::
    if eid.isEmpty then [] else [field "EntityId" (quoted (jsonEscape eid))])

structure PostUpdateScalars where
  owner : Option EntityKey
  maxPlayers : Option UInt32
  accessPolicy : Option ℕ
  membershipLock : Option ℤ

def accessPolicyName (v : ℕ) : String :=
  if v = 1 then "Friends" else if v = 2 then "Private" else "Public"

def memberPropsJsonFor (lobby : Lobby) (eid : String) (order : List String) : Option (List Char) :=
  (lobby.memberProps.get? eid).map fun mp => memberDataJson eid mp order

/-- The member data of an update: that of the target, or that of the local player. -/
def memberFields (lobby : Lobby) (memberTarget : Option String) (localEntity : String)
    (order : List String) : List (List Char) :=
  let target := memberTarget.or (if localEntity.isEmpty then none else some localEntity)
  match target.bind fun eid => (memberPropsJsonFor lobby eid order).map fun s => (eid, s) with
  | none => []
  | some (eid, s) =>
      if memberTarget.isSome then
        [field "MemberData" s, field "MemberEntity" (entityJson eid "title_player_account")]
      else [field "MemberData" s]

/-- The deletions of lobby and search properties. -/
def deleteFields (searchDelete lobbyDelete : List String) : List (List Char) :=
  (if searchDelete.isEmpty then [] else [field "SearchDataToDelete" (strList searchDelete)]) ++
  (if lobbyDelete.isEmpty then [] else [field "LobbyDataToDelete" (strList lobbyDelete)])

def PostUpdateScalars.fields (scalars : PostUpdateScalars) : List (List Char) :=
  (scalars.owner.map fun o => field "Owner" (entityJson o.id o.type)).toList ++
  (scalars.maxPlayers.map fun m => field "MaxPlayers" (toString m.toNat).toList).toList ++
  (scalars.accessPolicy.map fun a =>
    field "AccessPolicy" (quoted (accessPolicyName a).toList)).toList ++
  (scalars.membershipLock.map fun k =>
    field "MembershipLock" (quoted (if k = 1 then "Locked" else "Unlocked").toList)).toList

/-- The deletions of member data. -/
def memberDeleteFields (memberTarget : Option String) (memberDelete : List String) :
    List (List Char) :=
  if memberTarget.isSome ∧ ¬memberDelete.isEmpty then
    [field "MemberDataToDelete" (strList memberDelete)]
  else []

/-- `build_update_body`: the whole bags of the handle, not only what the update names. -/
def buildUpdateBody (lobby : Lobby) (searchDelete lobbyDelete : List String)
    (memberTarget : Option String) (memberDelete : List String) (scalars : PostUpdateScalars)
    (localEntity : String) (order : Orders) : List Char :=
  object ([field "LobbyId" (quoted lobby.id.toList),
    field "LobbyData" (propsJson lobby.props order.props),
    field "SearchData" (propsJson lobby.search order.search)] ++
    memberFields lobby memberTarget localEntity order.member ++
    deleteFields searchDelete lobbyDelete ++ scalars.fields ++
    memberDeleteFields memberTarget memberDelete)

/-! ### Updates -/

/-- `PFLobbyDataUpdate`. -/
structure DataUpdate where
  newOwner : Option EntityKey
  maxMemberCount : Option UInt32
  accessPolicy : Option ℤ
  membershipLock : Option ℤ
  search : KvList
  lobby : KvList

/-- `PFLobbyMemberDataUpdate`. -/
structure MemberDataUpdate where
  member : Option EntityKey
  props : KvList

def DataUpdate.scalars (u : DataUpdate) : PostUpdateScalars where
  owner := u.newOwner.filter fun o => !o.id.isEmpty
  maxPlayers := u.maxMemberCount
  accessPolicy := u.accessPolicy.map Int.toNat
  membershipLock := u.membershipLock

/-- The update on the cached copy. -/
def DataUpdate.apply (u : DataUpdate) (l : Lobby) : Lobby :=
  let (searchSets, searchDel) := kvListSplit u.search
  let (lobbySets, lobbyDel) := kvListSplit u.lobby
  { l with
    search := dropProps (applyProps l.search searchSets) searchDel
    props := dropProps (applyProps l.props lobbySets) lobbyDel
    owner := u.scalars.owner.getD l.owner }

/-- What a post is sent from: the update, and the handle after it was applied there. -/
structure Post where
  update : Option DataUpdate
  lobby : Lobby
  memberTarget : Option String
  memberDelete : List String
  localEntity : String
  order : Orders

namespace Post

def searchDelete (p : Post) : List String :=
  (p.update.map fun u => (kvListSplit u.search).2).getD []

def lobbyDelete (p : Post) : List String :=
  (p.update.map fun u => (kvListSplit u.lobby).2).getD []

def scalars (p : Post) : PostUpdateScalars :=
  (p.update.map DataUpdate.scalars).getD ⟨none, none, none, none⟩

/-- The body of the request, fixed when the post is made. -/
def body (p : Post) : List Char :=
  buildUpdateBody p.lobby p.searchDelete p.lobbyDelete p.memberTarget p.memberDelete p.scalars
    p.localEntity p.order

end Post

/-- The member whose data an update may change: the named one, else the calling one, else the
local player. -/
def postMember (member : Option EntityKey) (mu : MemberDataUpdate) (localEntity : String) : String :=
  let nonempty (e : Option EntityKey) := (e.map EntityKey.id).filter fun s => !s.isEmpty
  ((nonempty mu.member).or (nonempty member)).getD localEntity

/-- The member part of a post: the handle, the target and the keys to delete. -/
def applyMember (l : Lobby) (member : Option EntityKey) (memberUpdate : Option MemberDataUpdate)
    (localEntity : String) : Lobby × Option String × List String :=
  match memberUpdate with
  | none => (l, none, [])
  | some mu =>
      let mid := postMember member mu localEntity
      let (sets, del) := kvListSplit mu.props
      if mid.isEmpty ∨ (sets.entries.isEmpty ∧ del.isEmpty) then (l, none, [])
      else
        let entry := dropProps (applyProps ((l.memberProps.get? mid).getD OrdMap.empty) sets) del
        ({ l with memberProps := l.memberProps.insert mid (ensureMemberProps entry mid) },
          some mid, del)

/-- `PFLobbyPostUpdate` on a handle, refused without an update and after a leave. -/
def postUpdate (l : Lobby) (member : Option EntityKey) (update : Option DataUpdate)
    (memberUpdate : Option MemberDataUpdate) (localEntity : String) (order : Orders) :
    Option Post :=
  if (update.isNone ∧ memberUpdate.isNone) ∨ l.left then none
  else
    let l := (update.map fun u => u.apply l).getD l
    let (l, target, del) := applyMember l member memberUpdate localEntity
    some ⟨update, l, target, del, localEntity, order⟩

/-! ### Replies -/

section
variable (host : Broker.Host)

/-- One member of a `GetLobby` reply. The broker stores members with an `Id`, so the last
resort of the source, a search in the raw text, is not reached. -/
def memberOfJson (m : Value) : Option (EntityKey × Props) :=
  let str := scanStr (Broker.numberText host) m
  let eid := ((str "Id").or (str "id")).or
    (((scanObj (Broker.numberText host) m "MemberEntity").get? "Id").filter fun s => !s.isEmpty)
  eid.map fun eid =>
    let data := applyProps OrdMap.empty (scanObj (Broker.numberText host) m "MemberData")
    (⟨eid, "title_player_account"⟩, ensureMemberProps data eid)

/-- `lobby_from_json`. -/
def lobbyFromJson (text : Value) : Option Lobby :=
  let str := scanStr (Broker.numberText host) text
  let obj := scanObj (Broker.numberText host) text
  (str "LobbyId").bind fun id =>
    let conn := (str "ConnectionString").getD ("lan." ++ id)
    let members := (scanArr text "Members").filterMap (memberOfJson host)
    let owner := (((obj "Owner").get? "Id").filter fun s => !s.isEmpty).getD "owner"
    if '\x00' ∈ id.toList ∨ '\x00' ∈ conn.toList then none
    else some
      { id := id
        owner := ⟨owner, "title_player_account"⟩
        props := applyProps OrdMap.empty (obj "LobbyData")
        search := applyProps OrdMap.empty (obj "SearchData")
        memberProps := members.foldl (fun m e => m.insert e.1.id e.2) OrdMap.empty
        members := members.map Prod.fst
        pending := false
        left := false }

/-- The member data of a refresh: what the broker has, with gaps filled from the handle. -/
def refreshMemberProps (old fresh : OrdMap String Props) : OrdMap String Props :=
  let filled := old.entries.foldl (fun m e =>
    let entry := fillGaps ((m.get? e.1).getD OrdMap.empty) e.2
    m.insert e.1 (ensureMemberProps entry e.1)) fresh
  filled.mapVals fun eid mp => ensureMemberProps mp eid

/-- `apply_refresh`: the handle after a reply, and whether the lobby is gone. -/
def applyRefresh (lobby : Lobby) (resp : Option Broker.Response) : Lobby × Bool :=
  match resp with
  | none => (lobby, false)
  | some r =>
      if r.status ≠ 200 then (lobby, true)
      else
        match lobbyFromJson host r.body with
        | none => (lobby, false)
        | some fresh =>
            let memberProps := refreshMemberProps lobby.memberProps fresh.memberProps
            let lobby' := { lobby with
              props := fresh.props, search := fresh.search, owner := fresh.owner }
            if fresh.members.isEmpty ∧ ¬lobby.members.isEmpty then (lobby', false)
            else ({ lobby' with members := fresh.members, memberProps := memberProps }, false)

/-- A handle before the broker has answered. -/
def newPlaceholder (owner : EntityKey) : Lobby where
  id := ""
  owner := owner
  props := OrdMap.empty
  search := OrdMap.empty
  memberProps := OrdMap.empty
  members := []
  pending := true
  left := false

def applyCreateResponse (lobby : Lobby) (text : Value) (owner : EntityKey)
    (lobbyData search : Props) : Lobby :=
  { lobby with
    id := ((scanStr (Broker.numberText host) text "LobbyId").map cString).getD lobby.id
    owner := owner
    props := applyProps OrdMap.empty lobbyData
    search := applyProps OrdMap.empty search
    pending := false }

def applyJoinResponse (lobby : Lobby) (text : Value) (joiner : EntityKey) (memberKv : Props) :
    Lobby :=
  let lobby := match lobbyFromJson host text with
    | some fresh => { fresh with pending := lobby.pending, left := lobby.left }
    | none => lobby
  let members := if lobby.members.any fun m => m.id == joiner.id then lobby.members
    else lobby.members ++ [joiner]
  let entry := applyProps ((lobby.memberProps.get? joiner.id).getD OrdMap.empty) memberKv
  { lobby with
    members := members
    memberProps := lobby.memberProps.insert joiner.id (ensureMemberProps entry joiner.id) }

/-- The host has published a network that a guest can use. -/
def lobbyReadyForGuest (lobby : Lobby) : Bool :=
  let descOk := ((lobby.props.get? "network_descriptor").map fun s =>
    "LAN1.".toList.isPrefixOf s.toList && decide (5 < s.utf8ByteSize)).getD false
  let invOk := ((lobby.props.get? "invitation_identifier").map fun s =>
    !s.isEmpty && s != "dummy").getD false
  descOk && invOk

end

end GbfrLan.Playfab
