import GbfrLan.Broker.Find
import GbfrLan.Broker.MeshCap

/-!
# The routes of the broker

A request goes to the first service that knows its path: the calls of the publisher, the party, the
PlayFab calls, the health and boot documents, and an answer that looks like success for the rest. Only
the party and the PlayFab calls write the state, so what the broker does to it in a run is what these
two services do with the requests that reach them.
-/
namespace GbfrLan.Broker
open Lib Json

/-- The ports that the broker listens on. -/
structure Ports where
  http : UInt16
  ws : UInt16

/-- A request as it was read from a connection. -/
structure WebRequest where
  moment : Moment
  method : String
  path : String
  headers : Headers
  body : Value

/-- The status, the content type and the bytes of an answer. -/
structure Answer where
  code : UInt16
  ctype : String
  bytes : List UInt8
  deriving DecidableEq

def cygamesOk (data : Value) : Response :=
  ⟨200, .obj [("meta", .obj [("error_code", number 0)]), ("common", .array []), ("data", data),
    ("responseCode", number 0)]⟩

def apiPrefixes : List String := ["/v1/api/index.php/", "/v1/api/", "/index.php/", "/api/"]

/-- The path in front of the query. -/
def beforeQuery (path : List Char) : List Char :=
  ((Text.splitOnce '?' path).map Prod.fst).getD path

/-- The path behind the first of these prefixes that it has. -/
def stripFirst (p : List Char) : List String → List Char
  | [] => p
  | pre :: rest =>
      match Text.stripPrefix pre.toList p with
      | some tail => '/' :: tail.dropWhile (· = '/')
      | none => stripFirst p rest

def stripApiPrefix (path : String) : String :=
  String.ofList (stripFirst (beforeQuery path.toList) apiPrefixes)

/-- The path without the slashes in front. -/
def trimSlashes (path : String) : String := String.ofList (path.toList.dropWhile (· = '/'))

/-- The path that the party service gets. -/
def partyPath (path : String) : String :=
  let party := trimSlashes (stripApiPrefix path)
  match Text.splitOnce '?' path.toList with
  | some (_, q) => if q.isEmpty then "/" ++ party else "/" ++ party ++ "?" ++ String.ofList q
  | none => "/" ++ party

/-- The host of a request without the port, or the fallback. -/
def advertHost (headers : Headers) (fallback : String) : String :=
  let name := (headers.get? "host").map fun h =>
    String.ofList (((Text.splitOnce ':' h.toList).map Prod.fst).getD h.toList)
  (name.filter fun h => !h.isEmpty).getD fallback

def isBootPath (path : String) : Bool :=
  let p := Text.lower path.toList
  ".json".toList.isSuffixOf p || ".dat".toList.isSuffixOf p || ".blob".toList.isSuffixOf p ||
    Text.containsSub "config".toList p

section
variable (host : Host) (ports : Ports)

/-- `handle_cygames`; no reply when the path is not one of its own. -/
def handleCygames (r : WebRequest) : Option Response :=
  let p := trimSlashes (stripApiPrefix r.path)
  let startsWith (s : String) : Bool := s.toList.isPrefixOf p.toList
  if p = "sys/get_terms" ∨ p = "get_terms" then
    some (cygamesOk (.obj [("pp_version", number 1), ("playlog", number 1), ("sc", number 0)]))
  else if p = "sys/get_news" ∨ p = "get_news" then
    some (cygamesOk (.obj [("list_size", number 0), ("list", .array [])]))
  else if p ∈ ["sys/user_auth", "user_auth", "sys/external_user_auth", "external_user_auth"] then
    some (cygamesOk (.obj [
      ("auth_token", .string ("lan-auth." ++
        String.ofList ((host.sha1Hex r.moment.nowText).toList.take 16))),
      ("ws_url", .string ("ws://" ++ advertHost r.headers "127.0.0.1" ++ ":" ++
        toString ports.ws.toNat ++ "/")),
      ("ws_api_key", .string "lan-ws-api-key"), ("cygames_id_linked", .bool false)]))
  else if p = "activity/get_invite_list" ∨ p = "activity/get_presence_list" then
    some (cygamesOk (.obj []))
  else if p = "cygames_id/link_status" ∨ p = "cygames_id/link" ∨ p = "cygames_id/unlink" ∨
      (startsWith "cygames_id/" ∧ p ≠ "cygames_id/check_reward") then
    some (cygamesOk (.obj [("is_pending", .bool false), ("link_status", number 0)]))
  else if p = "cygames_id/check_reward" then
    some (cygamesOk (.obj [("has_link_reward", .bool false), ("has_cross_reward", .bool false)]))
  else if startsWith "playlog" then some (cygamesOk (.obj []))
  else none

def bootConfig (app : App) (r : WebRequest) : Value :=
  let name := advertHost r.headers "127.0.0.1"
  let now := ⌊r.moment.now⌋
  let url (scheme tail : String) (port : UInt16) : Value :=
    .string (scheme ++ name ++ ":" ++ toString port.toNat ++ tail)
  .obj [("PlayfabTitleId", .string app.titleId), ("PlaylogUrl", url "http://" "/playlog" ports.http),
    ("NetworkStatsUrl", url "http://" "/playlog/network-stats" ports.http),
    ("GameapiUrl", url "http://" "" ports.http), ("WebsocketUrl", url "ws://" "/" ports.ws),
    ("CidpUrl", .string "x"), ("CidpOfficialUrl", .string "x"), ("CidpClientId", .string "x"),
    ("PrivacyPolicyUrl", .string "x"), ("SurveyUrl", .string "x"),
    ("ActivateDateSec", integer (now - 86400)), ("DeactivateDateSec", integer (now + 86400 * 3650)),
    ("MatchingSearchWaitTimeMinSec", number 0), ("MatchingSearchWaitTimeMaxSec", number 3600),
    ("MatchingRemainingMaxCounter", number 10), ("MatchingDefaultSearchLimit", number 20),
    ("MatchingEnableFindListSort", number 1), ("SearchWaitTimeMinSec", number 0),
    ("SearchWaitTimeMaxSec", number 3600), ("RemainingMaxCounter", number 10)]

/-- `serde_json::to_vec`. -/
def toVec (v : Value) : List UInt8 := Utf8.bytes (toJson host v)

def Response.answer (r : Response) : Answer := ⟨UInt16.ofNat r.status, "application/json", toVec host r.body⟩

end

/-- The request as the party service gets it. -/
def WebRequest.party (r : WebRequest) : Request := ⟨r.moment, partyPath r.path, r.body, r.headers⟩

/-- The request as the PlayFab service gets it. -/
def WebRequest.playfab (r : WebRequest) : Request :=
  ⟨r.moment, stripApiPrefix r.path, r.body, r.headers⟩

section
variable (host : Host) (readFloat : List Char → Option UInt64) (encodeBlob : Moment → List UInt8 → List UInt8)
  (ports : Ports)

/-- A reply as it is written; the rows of a search are those of the state it was sent to. -/
def Reply.onWire (app : App) (r : Request) : Reply → Response
  | .response reply => reply
  | .rows _ => playfabOk (findData host readFloat app r)

def Reply.answer (app : App) (r : Request) (reply : Reply) : Answer :=
  (reply.onWire host readFloat app r).answer host

/-- `dispatch` behind the services: documents, and an answer for every other call. -/
def answerRest (app : App) (r : WebRequest) : Answer :=
  let stripped := stripApiPrefix r.path
  if r.method = "GET" ∧ (stripped = "/" ∨ stripped = "/health") then
    (⟨200, .obj [("ok", .bool true), ("title", .string app.titleId)]⟩ : Response).answer host
  else if r.method = "GET" ∧ (isBootPath stripped ∨ stripped = "/" ∨ stripped.isEmpty) then
    let raw := toVec host (bootConfig ports app r)
    if ".blob".toList.isSuffixOf stripped.toList then
      ⟨200, "application/octet-stream", encodeBlob r.moment raw⟩
    else ⟨200, "application/json", raw⟩
  else if r.method = "POST" then (playfabOk (.obj [])).answer host
  else (cygamesOk (.obj [])).answer host

/-- `handle_party` behind its test of the path. -/
def dispatchParty (app : App) (r : WebRequest) : App × Option Reply :=
  if "party/".toList.isPrefixOf (trimSlashes (stripApiPrefix r.path)).toList then
    handleParty host app r.party
  else (app, none)

/-- `dispatch` from the PlayFab calls on. -/
def dispatchPlayfab (app : App) (r : WebRequest) : App × Answer :=
  match (handlePlayfab host app r.playfab).2 with
  | some reply => ((handlePlayfab host app r.playfab).1, reply.answer host readFloat app r.playfab)
  | none => (app, answerRest host encodeBlob ports app r)

def dispatch (app : App) (r : WebRequest) : App × Answer :=
  match handleCygames host ports r with
  | some reply => (app, reply.answer host)
  | none =>
      match (dispatchParty host app r).2 with
      | some reply => ((dispatchParty host app r).1, reply.answer host readFloat app r.party)
      | none => dispatchPlayfab host readFloat encodeBlob ports app r

/-! ### What reaches a service -/

/-- The service that a request reaches, and how it gets there. -/
def WebRequest.query (r : WebRequest) : Option Query :=
  if (handleCygames host ports r).isSome then none
  else if "party/".toList.isPrefixOf (trimSlashes (stripApiPrefix r.path)).toList ∧
      (partyRoute (partyPath r.path)).isSome then some (.party r.party)
  else if (route (stripApiPrefix r.path)).isSome then some (.playfab r.playfab)
  else none

theorem handleParty_isSome (app : App) (r : Request) :
    (handleParty host app r).2.isSome = (partyRoute r.path).isSome := by
  unfold handleParty
  cases partyRoute r.path with
  | none => rfl
  | some k => cases k <;> rfl

theorem handlePlayfab_isSome (app : App) (r : Request) :
    (handlePlayfab host app r).2.isSome = (route r.path).isSome := by
  unfold handlePlayfab
  cases route r.path with
  | none => rfl
  | some k => cases k <;> rfl

theorem dispatchPlayfab_state (app : App) (r : WebRequest) :
    (dispatchPlayfab host readFloat encodeBlob ports app r).1 =
      if (route (stripApiPrefix r.path)).isSome then (handlePlayfab host app r.playfab).1 else app := by
  have hsome : _ = (route (stripApiPrefix r.path)).isSome := handlePlayfab_isSome host app r.playfab
  unfold dispatchPlayfab
  rw [← hsome]
  cases (handlePlayfab host app r.playfab).2 with
  | some reply => rfl
  | none => rfl

/-- The state after a request is that after the service it reaches. -/
theorem dispatch_state (app : App) (r : WebRequest) :
    (dispatch host readFloat encodeBlob ports app r).1 =
      (r.query host ports).elim app (App.serve host app) := by
  unfold dispatch WebRequest.query
  cases handleCygames host ports r with
  | some reply => rfl
  | none =>
    have hparty : _ = (partyRoute (partyPath r.path)).isSome := handleParty_isSome host app r.party
    have hrest : (dispatchPlayfab host readFloat encodeBlob ports app r).1 =
        (if (route (stripApiPrefix r.path)).isSome then some (Query.playfab r.playfab) else none).elim app
          (App.serve host app) := by
      rw [dispatchPlayfab_state]
      split_ifs <;> rfl
    simp only [Option.isSome_none, Bool.false_eq_true, if_false]
    by_cases hpre : "party/".toList.isPrefixOf (trimSlashes (stripApiPrefix r.path)).toList = true
    · have hto : dispatchParty host app r = handleParty host app r.party := if_pos hpre
      rw [hto, ← hparty]
      cases (handleParty host app r.party).2 with
      | some reply =>
        rw [if_pos ⟨hpre, rfl⟩]
        rfl
      | none =>
        rw [if_neg fun h => absurd h.2 (by decide)]
        exact hrest
    · have hto : dispatchParty host app r = (app, none) := if_neg hpre
      rw [hto, if_neg fun h => hpre h.1]
      exact hrest

/-- A request that reaches the PlayFab calls is answered by them. -/
theorem dispatch_of_query {app : App} {r : WebRequest}
    (h : r.query host ports = some (.playfab r.playfab)) :
    dispatch host readFloat encodeBlob ports app r = dispatchPlayfab host readFloat encodeBlob ports app r := by
  unfold WebRequest.query at h
  unfold dispatch
  cases hcygames : handleCygames host ports r with
  | some reply => simp [hcygames] at h
  | none =>
    have hnone : (dispatchParty host app r).2 = none := by
      have hparty := handleParty_isSome host app r.party
      unfold dispatchParty
      split_ifs with hpre
      · cases hreply : (handleParty host app r.party).2 with
        | none => rfl
        | some reply =>
          rw [hreply] at hparty
          have hroute : (partyRoute (partyPath r.path)).isSome = true := hparty.symm
          rw [hcygames, if_neg (by simp), if_pos ⟨hpre, hroute⟩] at h
          cases h
      · rfl
    simp only [hnone]

/-- The state after these requests. -/
def dispatchAll (app : App) (rs : List WebRequest) : App :=
  run (fun a r => (dispatch host readFloat encodeBlob ports a r).1) app rs

theorem dispatchAll_eq (app : App) (rs : List WebRequest) :
    dispatchAll host readFloat encodeBlob ports app rs =
      run (App.serve host) app (rs.filterMap (WebRequest.query host ports)) := by
  unfold dispatchAll
  induction rs generalizing app with
  | nil => rfl
  | cons r rs ih =>
    rw [run_cons, ih, dispatch_state, List.filterMap_cons]
    cases r.query host ports with
    | none => rfl
    | some q => rfl

theorem App.PartyOk.serve {app : App} (h : app.PartyOk) (q : Query) : (app.serve host q).PartyOk := by
  cases q with
  | party r => exact h.handleParty r
  | playfab r =>
    intro nid net hnet
    rw [serve_cap]
    have hparty : (app.serve host (.playfab r)).party = app.party := handlePlayfab_party host app r
    rw [hparty] at hnet
    exact h nid net hnet

/-- What the broker does in a run of requests is what the two services do with those that reach
them, so its lobbies and registrations are in order in every state. -/
theorem dispatchAll_serves (titleId : String) (maxPlayers : ℤ) (overrideGameMax : Bool)
    (rs : List WebRequest) :
    let app := App.new titleId maxPlayers overrideGameMax
    let s := dispatchAll host readFloat encodeBlob ports app rs
    s = app.after host (rs.filterMap (WebRequest.query host ports)) ∧ s.Ok ∧ s.PartyOk := by
  intro app s
  have heq : s = app.after host (rs.filterMap (WebRequest.query host ports)) :=
    dispatchAll_eq host readFloat encodeBlob ports app rs
  refine ⟨heq, ?_, ?_⟩
  · rw [heq]
    exact app.after_ok host _
  · rw [heq]
    refine @run_invariant_all _ _ (App.serve host) App.PartyOk (fun a q ha => ha.serve host q) _ ?_ _
    intro nid net hnet
    cases hnet

end

/-! ### Prefixes -/

theorem stripFirst_of_not_prefix {p : List Char} {pres : List String}
    (h : ∀ pre ∈ pres, ¬pre.toList <+: p) : stripFirst p pres = p := by
  induction pres with
  | nil => rfl
  | cons pre pres ih =>
    obtain ⟨hpre, hrest⟩ := List.forall_mem_cons.mp h
    have hnone : Text.stripPrefix pre.toList p = none := by
      cases htail : Text.stripPrefix pre.toList p with
      | none => rfl
      | some tail => exact absurd ⟨tail, (Text.stripPrefix_some_iff.mp htail).symm⟩ hpre
    rw [stripFirst, hnone]
    exact ih hrest

theorem stripPrefix_append (front rest : List Char) :
    Text.stripPrefix front (front ++ rest) = some rest := Text.stripPrefix_some_iff.mpr rfl

theorem dropWhile_slash {cs : List Char} (h : cs.head? ≠ some '/') :
    cs.dropWhile (fun c => decide (c = '/')) = cs := by
  cases cs with
  | nil => rfl
  | cons c cs => rw [List.dropWhile_cons_of_neg (by simpa using h)]

/-- The part of a path behind a prefix: it does not start with a slash, nor with a prefix. -/
structure Plain (rest : List Char) : Prop where
  head : rest.head? ≠ some '/'
  other : ∀ pre ∈ apiPrefixes, ¬pre.toList <+: '/' :: rest

theorem splitOnce_query_append {front : List Char} (h : '?' ∉ front) (rest : List Char) :
    Text.splitOnce '?' (front ++ rest) =
      (Text.splitOnce '?' rest).map fun e => (front ++ e.1, e.2) := by
  induction front with
  | nil => simp
  | cons c front ih =>
    rw [List.mem_cons, not_or] at h
    rw [List.cons_append, Text.splitOnce, if_neg (Ne.symm h.1), ih h.2]
    cases Text.splitOnce '?' rest with
    | none => rfl
    | some e => rfl

theorem beforeQuery_append {front : List Char} (h : '?' ∉ front) (rest : List Char) :
    beforeQuery (front ++ rest) = front ++ beforeQuery rest := by
  unfold beforeQuery
  rw [splitOnce_query_append h]
  cases Text.splitOnce '?' rest with
  | none => rfl
  | some e => rfl

theorem splitOnce_eq_some {sep : Char} {cs a b : List Char} (h : Text.splitOnce sep cs = some (a, b)) :
    cs = a ++ sep :: b := by
  induction cs generalizing a with
  | nil => cases h
  | cons c cs ih =>
    rw [Text.splitOnce] at h
    split_ifs at h with hc
    · cases h
      rw [hc]
      rfl
    · obtain ⟨e, he, heq⟩ := Option.map_eq_some_iff.mp h
      cases heq
      rw [ih he]
      rfl

theorem beforeQuery_prefix (path : List Char) : beforeQuery path <+: path := by
  unfold beforeQuery
  cases h : Text.splitOnce '?' path with
  | none => exact List.prefix_refl _
  | some e => exact ⟨'?' :: e.2, (splitOnce_eq_some h).symm⟩

theorem Plain.beforeQuery {rest : List Char} (h : Plain rest) : Plain (beforeQuery rest) := by
  have hpre := beforeQuery_prefix rest
  constructor
  · intro hhead
    obtain ⟨tail, htail⟩ := hpre
    refine h.head ?_
    rw [← htail, List.head?_append, hhead]
    rfl
  · intro pre hmem hp
    exact h.other pre hmem (hp.trans (List.cons_prefix_cons.mpr ⟨rfl, hpre⟩))

/-- A path under a prefix is stripped to what it is without. -/
theorem stripFirst_prefixed {rest : List Char} (h : Plain rest) {pre : String} (hpre : pre ∈ apiPrefixes) :
    stripFirst (pre.toList ++ rest) apiPrefixes = '/' :: rest := by
  have hdrop := dropWhile_slash h.head
  have hindex : Text.stripPrefix "index.php/".toList rest = none := by
    cases htail : Text.stripPrefix "index.php/".toList rest with
    | none => rfl
    | some tail =>
      refine absurd ⟨tail, ?_⟩ (h.other "/index.php/" (by decide))
      rw [Text.stripPrefix_some_iff.mp htail]
      rfl
  simp only [apiPrefixes, List.mem_cons, List.not_mem_nil, or_false] at hpre
  rcases hpre with rfl | rfl | rfl | rfl
  · simp only [apiPrefixes, stripFirst, stripPrefix_append, hdrop]
  · have hlong : Text.stripPrefix "/v1/api/index.php/".toList ("/v1/api/".toList ++ rest) = none := hindex
    simp only [apiPrefixes, stripFirst, hlong, stripPrefix_append, hdrop]
  · have h1 : Text.stripPrefix "/v1/api/index.php/".toList ("/index.php/".toList ++ rest) = none := rfl
    have h2 : Text.stripPrefix "/v1/api/".toList ("/index.php/".toList ++ rest) = none := rfl
    simp only [apiPrefixes, stripFirst, h1, h2, stripPrefix_append, hdrop]
  · have h1 : Text.stripPrefix "/v1/api/index.php/".toList ("/api/".toList ++ rest) = none := rfl
    have h2 : Text.stripPrefix "/v1/api/".toList ("/api/".toList ++ rest) = none := rfl
    have h3 : Text.stripPrefix "/index.php/".toList ("/api/".toList ++ rest) = none := rfl
    simp only [apiPrefixes, stripFirst, h1, h2, h3, stripPrefix_append, hdrop]

/-- The same call with or without one of the prefixes. -/
inductive SameCall : WebRequest → WebRequest → Prop
  | same (r : WebRequest) : SameCall r r
  | prefixed (r : WebRequest) (pre : String) (rest : List Char) : pre ∈ apiPrefixes → Plain rest →
      r.path = String.ofList ('/' :: rest) →
      SameCall r { r with path := pre ++ String.ofList rest }

theorem query_not_mem_prefix {pre : String} (h : pre ∈ apiPrefixes) : '?' ∉ pre.toList := by
  simp only [apiPrefixes, List.mem_cons, List.not_mem_nil, or_false] at h
  rcases h with rfl | rfl | rfl | rfl <;> decide

theorem SameCall.paths {r r' : WebRequest} (h : SameCall r r') :
    stripApiPrefix r'.path = stripApiPrefix r.path ∧ partyPath r'.path = partyPath r.path := by
  cases h with
  | same => exact ⟨rfl, rfl⟩
  | prefixed pre rest hpre hplain hpath =>
    have hquery := query_not_mem_prefix hpre
    have hslash : '?' ∉ ['/'] := by decide
    have hlist : (pre ++ String.ofList rest).toList = pre.toList ++ rest := by simp
    have hbare : ('/' :: rest : List Char) = ['/'] ++ rest := rfl
    have hstrip : stripApiPrefix (pre ++ String.ofList rest) = stripApiPrefix r.path := by
      have hplain' := hplain.beforeQuery
      have hnone := stripFirst_of_not_prefix hplain'.other
      unfold stripApiPrefix
      rw [hpath, hlist, String.toList_ofList, hbare, beforeQuery_append hquery, beforeQuery_append hslash,
        stripFirst_prefixed hplain' hpre]
      exact congrArg String.ofList hnone.symm
    refine ⟨hstrip, ?_⟩
    unfold partyPath
    rw [hstrip, hpath, hlist, String.toList_ofList, hbare, splitOnce_query_append hquery,
      splitOnce_query_append hslash]
    cases Text.splitOnce '?' rest with
    | none => rfl
    | some e => rfl

section
variable (host : Host) (readFloat : List Char → Option UInt64) (encodeBlob : Moment → List UInt8 → List UInt8)
  (ports : Ports)

theorem SameCall.dispatch {r r' : WebRequest} (h : SameCall r r') (app : App) :
    dispatch host readFloat encodeBlob ports app r' = dispatch host readFloat encodeBlob ports app r := by
  obtain ⟨hstrip, hparty⟩ := h.paths
  cases h with
  | same => rfl
  | prefixed pre rest hpre hplain hpath =>
    have hto : WebRequest.party { r with path := pre ++ String.ofList rest } = r.party := by
      simp only [WebRequest.party, hparty]
    have hto' : WebRequest.playfab { r with path := pre ++ String.ofList rest } = r.playfab := by
      simp only [WebRequest.playfab, hstrip]
    unfold Broker.dispatch dispatchPlayfab dispatchParty handleCygames answerRest
    simp only [hto, hto', hstrip, bootConfig]

/-- The state after these requests, and the answers to them. -/
def serveAll (app : App) : List WebRequest → App × List Answer
  | [] => (app, [])
  | r :: rs =>
      let out := dispatch host readFloat encodeBlob ports app r
      let rest := serveAll out.1 rs
      (rest.1, out.2 :: rest.2)

/-- A call under a prefix does what it does without: in any run, any of the calls may have one of the
prefixes, with the same answers and the same state at the end. -/
theorem serveAll_prefixed (app : App) (rs rs' : List WebRequest) (h : List.Forall₂ SameCall rs rs') :
    serveAll host readFloat encodeBlob ports app rs' = serveAll host readFloat encodeBlob ports app rs := by
  induction h generalizing app with
  | nil => rfl
  | cons hr _ ih => simp only [serveAll, hr.dispatch, ih]

end

/-- A join of the party under a prefix, with a query. -/
def prefixedJoin (path : String) : WebRequest :=
  ⟨⟨0, "0", []⟩, "POST", path, OrdMap.empty, .obj [("entity_id", .string "B")]⟩

theorem prefixedJoin_same :
    let serve := serveAll anonymousHost (fun _ => none) (fun _ raw => raw) ⟨8080, 8081⟩
      (App.new "1AC1AD" 8 true)
    serve [prefixedJoin "/v1/api/party/join?network_id=net"] =
      serve [prefixedJoin "/party/join?network_id=net"] := by
  refine serveAll_prefixed _ _ _ _ _ _ _ (.cons ?_ .nil)
  refine .prefixed (prefixedJoin "/party/join?network_id=net") "/v1/api/"
    "party/join?network_id=net".toList (by decide) ⟨by decide, ?_⟩ rfl
  intro pre hpre
  simp only [apiPrefixes, List.mem_cons, List.not_mem_nil, or_false] at hpre
  rcases hpre with rfl | rfl | rfl | rfl <;> decide

end GbfrLan.Broker
