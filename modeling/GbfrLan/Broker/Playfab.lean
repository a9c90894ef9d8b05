import GbfrLan.Broker.App
import GbfrLan.Lib.ModifyFirst

/-!
# The PlayFab requests of the broker

`handlePlayfab` routes a request by its path, as the source does, with the handlers as
functions of their own. A search does not change the state, so its reply is left as the
query.
-/
namespace GbfrLan.Broker
open Lib Json

inductive Route where
  | loginWithSteam
  | getEntityToken
  | createLobby
  | joinLobby
  | findLobbies
  | leaveLobby
  | updateLobby
  | getLobby
  /-- Other client, lobby and authentication calls, answered with an empty object. -/
  | other
  deriving DecidableEq, Repr

/-- The handler that a path selects; the order of the tests is that of the source. -/
def route (path : String) : Option Route :=
  let lower := Text.lower (path.toList.dropWhile (· = '/'))
  let endsWith (s : String) : Bool := s.toList.isSuffixOf lower
  let contains (s : String) : Bool := Text.containsSub s.toList lower
  let startsWith (s : String) : Bool := s.toList.isPrefixOf lower
  if endsWith "client/loginwithsteam" || endsWith "loginwithsteam" then some .loginWithSteam
  else if Text.containsSub "getentitytoken".toList (lower.filter (· ≠ '_')) then
    some .getEntityToken
  else if contains "createandjoinlobby" || endsWith "lobby/createlobby" then some .createLobby
  else if endsWith "lobby/joinlobby" || endsWith "joinlobby" then some .joinLobby
  else if contains "findlobbies" then some .findLobbies
  else if contains "leavelobby" then some .leaveLobby
  else if contains "updatelobby" || contains "postlobby" then some .updateLobby
  else if contains "getlobby" then some .getLobby
  else if startsWith "client/" || startsWith "lobby/" || startsWith "authentication/" then
    some .other
  else none

/-- What a search asks for. -/
structure FindQuery where
  viewer : Option String
  filter : String
  sort : String
  count : Option ℤ
  friendsFilter : Bool

inductive Reply where
  | response (r : Response)
  /-- The rows of this search on the state, which stays as it is. -/
  | rows (q : FindQuery)

structure Request where
  moment : Moment
  path : String
  body : Value
  headers : Headers

def ok (data : Value) : Reply := .response (playfabOk data)

def err (error message : String) : Reply := .response (playfabErr error message)

/-- The first of two spellings of a string field. -/
def bodyStr (body : Value) (key key' : String) : Option String :=
  (jsonStr body key).or (jsonStr body key')

def newMember (eid : String) (entity : Value) (data : Fields) : Value :=
  .obj [("Id", .string eid), ("MemberEntity", entity), ("MemberData", .object data)]

def loginResult (p : Player) : Value :=
  .obj [("SessionTicket", .string p.sessionTicket), ("PlayFabId", .string p.playfabId),
    ("NewlyCreated", .bool true),
    ("SettingsForUser", .obj [("NeedsAttribution", .bool false),
      ("GatherDeviceInfo", .bool false), ("GatherFocusInfo", .bool false)]),
    ("LastLoginTime", .string "2027-01-01T00:00:00.000Z"),
    ("EntityToken", .obj [("EntityToken", .string p.entityToken),
      ("TokenExpiration", .string p.tokenExpiration), ("Entity", entityObj p)]),
    ("TreatmentAssignment", .obj [("Variants", .array []), ("Variables", .array [])])]

/-- Remove every lobby whose owner has this id. -/
def dropOwnerLobbies (app : App) (ownerId : String) : App :=
  if ownerId.isEmpty then app
  else { app with lobbies := app.lobbies.filter fun _ l => lobbyOwnerId l != ownerId }

section
variable (host : Host)

/-- The session of the caller, or a new one for this ticket. -/
def resolvePlayer (app : App) (r : Request) (ticket : String) : App × Player :=
  let found := (requestEntityId app r.body r.headers).bind fun id =>
    (app.sessions.iter r.moment.order).find? fun p => p.entityId == id
  match found with
  | some p => (app, p)
  | none => app.playerFromTicket host ticket

/-- The member entry of a new lobby: the entity and the merged member data. -/
def creatorMember (body : Value) (owner : Value) : Value × Fields :=
  let first := (((body.get "Members").or (body.get "members")).bind Value.asArray).bind List.head?
  let (entity, data) := match first with
    | some m => ((((m.get "MemberEntity").or (m.get "memberEntity"))).getD owner,
        asObjOrEmpty ((m.get "MemberData").or (m.get "memberData")))
    | none => (owner, [])
  (entity, mergeFields data (asObjOrEmpty (body.get "MemberData")))

/-- `create_lobby`: the lobby replaces the ones the player owned. -/
def createLobby (app : App) (m : Moment) (body : Value) (player : Player) : App × Lobby :=
  let digest := host.sha1Hex (m.nowText ++ player.entityId)
  let lobbyId := "lan-" ++ String.ofList (digest.toList.take 12)
  let owner := ((body.get "Owner").or (body.get "owner")).getD (entityObj player)
  let (entity, data) := creatorMember body owner
  let mid := (jsonStr entity "Id").getD player.entityId
  let app := dropOwnerLobbies app player.entityId
  let lobby : Lobby :=
    { id := lobbyId
      connection := "lan." ++ app.titleId ++ "." ++ lobbyId
      owner := owner
      ownerMigrationPolicy := parseOwnerMigrationPolicy body
      maxPlayers := resolveLobbyMax app ((jsonI64 body "MaxPlayers").or (jsonI64 body "maxPlayers"))
      lobbyData := asObjOrEmpty (((body.get "LobbyData").or (body.get "lobbyData")).or
        (body.get "lobbyProperties"))
      searchData := asObjOrEmpty (((body.get "SearchData").or (body.get "searchData")).or
        (body.get "searchProperties"))
      accessPolicy := (jsonStr body "AccessPolicy").getD "Public"
      membershipLock := (bodyStr body "MembershipLock" "membershipLock").getD "Unlocked"
      members := [newMember mid entity (fillMemberData host data mid)]
      created := m.now }
  ({ app with lobbies := app.lobbies.insert lobbyId lobby }, lobby)

def handleCreate (app : App) (r : Request) : App × Reply :=
  let (app, player) := resolvePlayer host app r "anonymous"
  let (app, lobby) := createLobby host app r.moment r.body player
  (app, ok (.obj [("LobbyId", .string lobby.id), ("ConnectionString", .string lobby.connection),
    ("MaxPlayers", integer lobby.maxPlayers)]))

/-- The member data of a join merged into an existing member. -/
def rejoinMember (body : Value) (eid : String) (existing : Value) : Value :=
  let data := mergeFields (asObjOrEmpty (existing.get "MemberData"))
    (asObjOrEmpty (body.get "MemberData"))
  existing.insertField "MemberData" (.object (fillMemberData host data eid))

/-- The lobby after a join, unless it is full. -/
def Lobby.join (lobby : Lobby) (body : Value) (entity : Value) (eid : String) : Option Lobby :=
  if lobby.members.any fun m => memberId m == eid then
    let members := modifyFirst (fun m => memberId m == eid) (rejoinMember host body eid) lobby.members
    some { lobby with members := members }
  else if lobby.maxPlayers ≤ lobby.members.length then none
  else
    let data := fillMemberData host (asObjOrEmpty (body.get "MemberData")) eid
    some { lobby with members := lobby.members ++ [newMember eid entity data] }

def handleJoin (app : App) (r : Request) : App × Reply :=
  let (app, player) := resolvePlayer host app r "anonymous"
  let conn := (bodyStr r.body "ConnectionString" "connectionString").getD ""
  let found := ((app.lobbies.iter r.moment.order).find? fun l => l.connection == conn).map Lobby.id
  match found with
  | none =>
      (app, err "LobbyNotFound"
        (if conn.isEmpty then "Missing connection string" else "Unknown connection string"))
  | some lid =>
      -- The source unwraps this lookup; `lid` is the id of a stored lobby.
      match app.lobbies.get? lid with
      | none => (app, err "LobbyNotFound" "Unknown connection string")
      | some lobby =>
          let entity := (r.body.get "MemberEntity").getD (entityObj player)
          let eid := (jsonStr entity "Id").getD player.entityId
          match lobby.join host r.body entity eid with
          | none => (app, err "LobbyMemberLimitExceeded" "Lobby is full")
          | some lobby =>
              ({ app with lobbies := app.lobbies.insert lid lobby },
                ok (.obj [("LobbyId", .string lobby.id), ("MaxPlayers", integer lobby.maxPlayers)]))

def findQuery (app : App) (r : Request) : FindQuery :=
  { viewer := requestEntityId app r.body r.headers
    filter := (bodyStr r.body "Filter" "filter").getD ""
    sort := (((bodyStr r.body "Sort" "sort").or (bodyStr r.body "OrderBy" "orderBy"))).getD ""
    count := ((jsonI64 r.body "ClientSearchResultCount").or
      (jsonI64 r.body "clientSearchResultCount")).or
        ((r.body.get "Pagination").bind fun p => jsonI64 p "PageSizeRequested")
    friendsFilter := ((r.body.get "FriendsFilter").or (r.body.get "friendsFilter")).isSome }

/-- The owner that an automatic migration picks. -/
def nextOwner (member : Value) : Value :=
  ((member.get "MemberEntity").filter fun v =>
    ((jsonStr v "Id").map fun s => !s.isEmpty).getD false).getD
      (.obj [("Id", .string (memberId member)), ("Type", .string "title_player_account")])

/-- The lobby after a leave; `none` closes it. -/
def Lobby.leave (lobby : Lobby) (pid : Option String) : Option Lobby :=
  let ownerLeft := pid == some (lobbyOwnerId lobby)
  let kept := match pid with
    | some p => lobby.members.filter fun m => memberId m != p
    | none => lobby.members
  -- Meant for an unresolved caller in a one-member lobby.
  let kept := if kept.length = lobby.members.length ∧ lobby.members.length ≤ 1 then [] else kept
  match kept with
  | [] => none
  | next :: _ =>
      let owner :=
        if ownerLeft then
          if lobby.ownerMigrationPolicy = 1 then nextOwner next else .null
        else lobby.owner
      some { lobby with members := kept, owner := owner }

/-- The lobby id of a request. -/
def bodyLobbyId (body : Value) : String := (bodyStr body "LobbyId" "lobbyId").getD ""

def handleLeave (app : App) (r : Request) : App × Reply :=
  let lid := bodyLobbyId r.body
  match app.lobbies.get? lid with
  | none => (app, ok (.obj []))
  | some lobby =>
      let lobbies := app.lobbies.erase lid
      let lobbies := match lobby.leave (requestEntityId app r.body r.headers) with
        | some lobby => lobbies.insert lid lobby
        | none => lobbies
      ({ app with lobbies := lobbies }, ok (.obj []))

/-- Delete keys of the member data of a member. -/
def deleteMemberData (keys : List String) (m : Value) : Value :=
  match (m.get "MemberData").bind Value.asObject with
  | some md => m.insertField "MemberData" (.object (keys.foldl (fun d k => Entries.erase k d) md))
  | none => m

/-- One entry of `Members`: an update of that member, or a new one while there is room. -/
def Lobby.putMember (lobby : Lobby) (mem : Value) : Lobby :=
  let eid := memberId mem
  if eid.isEmpty then lobby
  else
    let data := fillMemberData host (asObjOrEmpty (mem.get "MemberData")) eid
    let entity := (mem.get "MemberEntity").getD
      (.obj [("Id", .string eid), ("Type", .string "title_player_account")])
    if lobby.members.any fun m => memberId m == eid then
      let put (m : Value) : Value :=
        (m.insertField "MemberData" (.object data)).insertField "MemberEntity" entity
      { lobby with members := modifyFirst (fun m => memberId m == eid) put lobby.members }
    else if (lobby.members.length : ℤ) < lobby.maxPlayers then
      { lobby with members := lobby.members ++ [newMember eid entity data] }
    else lobby

/-- The deletions and the scalar fields of an update. -/
def Lobby.updateScalars (lobby : Lobby) (body : Value) : Lobby :=
  let lobby := { lobby with
    searchData := (jsonStrArray body ["SearchDataToDelete", "searchDataToDelete"]).foldl
      (fun d k => Entries.erase k d) lobby.searchData
    lobbyData := (jsonStrArray body ["LobbyDataToDelete", "lobbyDataToDelete"]).foldl
      (fun d k => Entries.erase k d) lobby.lobbyData
    membershipLock := (bodyStr body "MembershipLock" "membershipLock").getD lobby.membershipLock }
  let lobby := match (jsonI64 body "MaxPlayers").or (jsonI64 body "maxPlayers") with
    | some mx => { lobby with maxPlayers := max (clampMaxPlayers mx) lobby.members.length }
    | none => lobby
  { lobby with
    accessPolicy := (bodyStr body "AccessPolicy" "accessPolicy").getD lobby.accessPolicy
    owner := ((body.get "Owner").or (body.get "owner")).getD lobby.owner }

/-- The member whose data an update changes: the entity named as text, or the caller. -/
def memberSetTarget (body : Value) (updater : Option String) : Option String :=
  (jsonStr body "MemberEntity").or updater

def Lobby.deleteMemberData (lobby : Lobby) (body : Value) (target : Option String) : Lobby :=
  match target, jsonStrArray body ["MemberDataToDelete", "memberDataToDelete"] with
  | some t, k :: keys =>
      let delete := Broker.deleteMemberData (k :: keys)
      { lobby with members := modifyFirst (fun m => memberId m == t) delete lobby.members }
  | _, _ => lobby

/-- The key by key merge of lobby and search data. -/
def Lobby.mergeData (lobby : Lobby) (body : Value) : Lobby :=
  { lobby with
    lobbyData := mergeFields lobby.lobbyData
      (asObjOrEmpty ((body.get "LobbyData").or (body.get "lobbyData")))
    searchData := mergeFields lobby.searchData
      (asObjOrEmpty ((body.get "SearchData").or (body.get "searchData"))) }

def Lobby.mergeMemberData (lobby : Lobby) (body : Value) (target : Option String) : Lobby :=
  match (body.get "MemberData").bind Value.asObject, target with
  | some md, some t =>
      let put (m : Value) : Value :=
        let data := mergeFields (asObjOrEmpty (m.get "MemberData")) md
        m.insertField "MemberData" (.object (fillMemberData host data t))
      { lobby with members := modifyFirst (fun m => memberId m == t) put lobby.members }
  | _, _ => lobby

def Lobby.update (lobby : Lobby) (body : Value) (updater : Option String) : Lobby :=
  let target := memberSetTarget body updater
  let lobby := ((lobby.updateScalars body).deleteMemberData body target).mergeData body
  let lobby := lobby.mergeMemberData host body target
  (((body.get "Members").bind Value.asArray).getD []).foldl (Lobby.putMember host) lobby

def handleUpdate (app : App) (r : Request) : App × Reply :=
  let lid := bodyLobbyId r.body
  match app.lobbies.get? lid with
  | none => (app, ok (.obj []))
  | some lobby =>
      ({ app with lobbies :=
          app.lobbies.insert lid (lobby.update host r.body (requestEntityId app r.body r.headers)) },
        ok (.obj []))

def handleGet (app : App) (r : Request) : Reply :=
  match app.lobbies.get? (bodyLobbyId r.body) with
  | some l => ok (lobbyPublic host l)
  | none => err "LobbyNotFound" "Lobby not found"

/-- `handle_playfab`; no reply when the path is not one of its own. -/
def handlePlayfab (app : App) (r : Request) : App × Option Reply :=
  match route r.path with
  | some .loginWithSteam =>
      let (app, p) := app.playerFromTicket host ((bodyStr r.body "SteamTicket" "steamTicket").getD "")
      (app, some (ok (loginResult p)))
  | some .getEntityToken =>
      let (app, p) := resolvePlayer host app r ((jsonStr r.body "SteamTicket").getD "anonymous")
      (app, some (ok (.obj [("EntityToken", .string p.entityToken),
        ("TokenExpiration", .string p.tokenExpiration), ("Entity", entityObj p)])))
  | some .createLobby =>
      let (app, reply) := handleCreate host app r
      (app, some reply)
  | some .joinLobby =>
      let (app, reply) := handleJoin host app r
      (app, some reply)
  | some .findLobbies => (app, some (.rows (findQuery app r)))
  | some .leaveLobby =>
      let (app, reply) := handleLeave app r
      (app, some reply)
  | some .updateLobby =>
      let (app, reply) := handleUpdate host app r
      (app, some reply)
  | some .getLobby => (app, some (handleGet host app r))
  | some .other => (app, some (ok (.obj [])))
  | none => (app, none)

end

end GbfrLan.Broker
