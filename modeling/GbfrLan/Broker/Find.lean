import GbfrLan.Broker.Search
import GbfrLan.Broker.FilterText
import GbfrLan.Broker.Sort
import GbfrLan.Json.Write

/-!
# The search of lobbies

`FindLobbies` with the filter, the sort string and the search data of the source. Its rows are the
lobbies that match, in the order of the sort string with the newest first among equals, and no more
of them than the request asks for.
-/
namespace GbfrLan.Broker
open Lib Json
open Http (trim)
open LobbyFilter (LobbyView SortSpec parseFilter parseSort cmpLobbies sortNumber KeyNumber)

/-! ### Search data -/

section
variable (host : Host) (readFloat : List Char → Option UInt64)

/-- A text without white space around it, unless nothing is left. -/
def trimmed (s : String) : Option String :=
  (some (String.ofList (trim s.toList))).filter fun s => !s.isEmpty

def mapNonempty (map : Fields) (key : String) : Option String :=
  ((Entries.get? key map).bind (valueAsString host)).bind trimmed

def stringKey5LeaderName (raw : String) : Option String :=
  (Read.fromSlice readFloat raw.toList).bind fun v =>
    v.asObject.bind fun obj => mapNonempty host obj "leader_name"

def ownerMemberUserName (lobby : Lobby) : Option String :=
  let oid := lobbyOwnerId lobby
  if oid.isEmpty then none
  else
    lobby.members.findSome? fun m =>
      if memberId m != oid then none
      else
        ((m.get "MemberData").bind Value.asObject).bind fun d =>
          mapNonempty host d "member_platform_user_name"

def lobbyDisplayName (lobby : Lobby) : String :=
  let name := (mapNonempty host lobby.lobbyData "leader_name").or
    ((mapNonempty host lobby.lobbyData "leader_platform_user_name").or (ownerMemberUserName host lobby))
  (name.filter fun s => s != "LAN").getD "LAN"

/-- `serde_json::to_string`. -/
def toJson (v : Value) : String := String.ofList (v.text (numberText host))

/-- The object of a leader that the search reads. -/
def leaderObject (lobby : Lobby) : Value :=
  let leader := lobbyDisplayName host lobby
  let field (key default : String) : String × Value :=
    (key, .string ((mapNonempty host lobby.lobbyData key).getD default))
  .obj [("leader_name", .string leader), field "leader_platform" "1",
    field "leader_platform_account_id" "1", field "leader_platform_user_name" leader]

def ensureSearchLeaderName (sd : Fields) (lobby : Lobby) : Fields :=
  let put (sd : Fields) (v : Value) : Fields := Entries.insert "string_key5" (.string (toJson host v)) sd
  match Entries.get? "string_key5" sd with
  | some (.string s) =>
      if (stringKey5LeaderName host readFloat s).isSome then sd else put sd (leaderObject host lobby)
  | some (.object o) =>
      if (mapNonempty host o "leader_name").isSome then put (Entries.erase "string_key5" sd) (.object o)
      else put sd (leaderObject host lobby)
  | _ => put sd (leaderObject host lobby)

def searchDataForFind (lobby : Lobby) : Fields :=
  let sd := ensureSearchLeaderName host readFloat lobby.searchData lobby
  if Entries.contains "string_key8" sd then sd
  else
    let oid := lobbyOwnerId lobby
    if oid.isEmpty then sd else Entries.insert "string_key8" (.string oid) sd

end

/-! ### The search -/

def lobbyHasEntity (lobby : Lobby) (eid : String) : Bool :=
  if eid.isEmpty then false
  else (lobby.members.any fun m => memberId m == eid) || lobbyOwnerId lobby == eid

section
variable (host : Host) (readFloat : List Char → Option UInt64)

/-- The view of a lobby; only a filter needs to know the viewer's membership. -/
def lobbyView (viewer : Option String) (viewerIsMember : Bool) (lobby : Lobby) : LobbyView :=
  { id := lobby.id
    maxPlayers := F64.ofInt lobby.maxPlayers
    currentMembers := F64.ofInt lobby.members.length
    membershipLock := lobby.membershipLock
    searchData := searchDataForFind host readFloat lobby
    ownerId := lobbyOwnerId lobby
    viewerId := viewer
    viewerIsMember := viewerIsMember
    hasServer := false }

/-- The view of a lobby under the filter of a search. -/
def FindQuery.view (q : FindQuery) (lobby : Lobby) : LobbyView :=
  lobbyView host readFloat q.viewer ((q.viewer.map (lobbyHasEntity lobby)).getD false) lobby

/-- The order of the rows: the sort string, then the newest first. -/
def FindQuery.cmp (q : FindQuery) (a b : Lobby) : Ordering :=
  (cmpLobbies (lobbyView host readFloat q.viewer false a) (lobbyView host readFloat q.viewer false b)
    (parseSort q.sort).1).then (compare b.created a.created)

def finder : Finder where
  searchData := searchDataForFind host readFloat
  selects q l := (parseFilter q.filter).matchesView host (q.view host readFloat l)
  sort q := sortBy (q.cmp host readFloat)
  sort_perm q := sortBy_perm (q.cmp host readFloat)

/-- What the search could not do as it was told. -/
def FindQuery.warnings (q : FindQuery) : List String :=
  (parseFilter q.filter).unsupported ++ (parseSort q.sort).2 ++
    if q.friendsFilter then ["friendsFilter present: broker has no friend graph (fail closed)"] else []

/-- The data of the reply. -/
def findData (app : App) (r : Request) : Value :=
  let warnings := (findQuery app r).warnings
  let data := Value.obj [("Lobbies", .array ((finder host readFloat).rows app r)),
    ("Pagination", .obj [])]
  if warnings.isEmpty then data
  else data.insertField "Warnings" (.array (warnings.map .string))

end

/-- A lobby that is locked from its creation on. -/
def lockedCreate : List Query :=
  [.playfab ⟨⟨1767225600, "1767225600.5", []⟩, "/Lobby/CreateAndJoinLobby",
    .obj [("MembershipLock", .string "Locked")], OrdMap.empty⟩]

/-- A search for everything. -/
def findAll : Request :=
  ⟨⟨1767225600, "1767225600.5", []⟩, "/Lobby/FindLobbies", .obj [], OrdMap.empty⟩

/-- The row of a locked lobby says that it is not. -/
theorem locked_row_differs :
    ¬∀ row ∈ (finder anonymousHost fun _ => none).rows
        ((App.new "1AC1AD" 8 false).after anonymousHost lockedCreate) findAll,
      RowAgrees anonymousHost ((App.new "1AC1AD" 8 false).after anonymousHost lockedCreate) row := by
  intro hall
  set app := (App.new "1AC1AD" 8 false).after anonymousHost lockedCreate with happ
  have hlocks : ((finder anonymousHost fun _ => none).candidates app findAll).map
      Lobby.membershipLock = ["Locked"] := by decide +kernel
  obtain ⟨l, hl, hlock⟩ : ∃ l ∈ (finder anonymousHost fun _ => none).candidates app findAll,
      l.membershipLock = "Locked" := by
    rw [← List.mem_map, hlocks]
    exact List.mem_singleton_self _
  obtain ⟨k, hk⟩ := Finder.mem_candidates _ hl
  have hrow := hall _ (List.mem_map_of_mem hl)
  rw [rowAgrees_iff (App.after_ok _ _ _) hk, hlock] at hrow
  exact absurd hrow (by decide)

end GbfrLan.Broker
