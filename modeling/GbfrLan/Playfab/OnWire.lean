import GbfrLan.Broker.Connection
import GbfrLan.Playfab.Client

/-!
# A call of the worker on the wire

The worker of the shim writes a request on a fresh connection and reads the answer until the connection
ends. The broker reads the request, dispatches it and writes the answer. However the bytes are split
into reads, the call does to the broker what the abstract exchange does, and comes back with the text
of its reply.
-/
namespace GbfrLan.Playfab
open Lib Json Broker
open Http (Received OneLine requestBytes requestHead authLine readRequest readResponse)

/-! ### What the broker makes of the headers -/

section
variable {host : Host} {r : Request} {headers : Headers}

theorem headerSession_congr {headers' : Headers} {keys : List String}
    (h : ∀ k ∈ keys, headers.get? k = headers'.get? k) (app : App) :
    headerSession app headers keys = headerSession app headers' keys := by
  induction keys with
  | nil => rfl
  | cons k keys ih =>
    rw [headerSession, headerSession, h k List.mem_cons_self,
      ih fun k' hk' => h k' (List.mem_cons_of_mem _ hk')]

/-- The PlayFab calls take nothing but the caller from the headers. -/
theorem handlePlayfab_headers
    (h : ∀ a, requestEntityId a r.body headers = requestEntityId a r.body r.headers) (app : App) :
    handlePlayfab host app { r with headers := headers } = handlePlayfab host app r := by
  have hplayer (a : App) (ticket : String) :
      resolvePlayer host a { r with headers := headers } ticket = resolvePlayer host a r ticket := by
    simp only [resolvePlayer, h]
  have hquery : findQuery app { r with headers := headers } = findQuery app r := by
    simp only [findQuery, h]
  unfold handlePlayfab
  simp only [handleCreate, handleJoin, handleLeave, handleUpdate, handleGet, hplayer, hquery, h]

theorem findData_headers {readFloat : List Char → Option UInt64}
    (h : ∀ a, requestEntityId a r.body headers = requestEntityId a r.body r.headers) (app : App) :
    findData host readFloat app { r with headers := headers } = findData host readFloat app r := by
  have hquery : findQuery app { r with headers := headers } = findQuery app r := by
    simp only [findQuery, h]
  simp only [findData, Finder.rows, Finder.candidates, hquery]

end

/-! ### The calls of the worker -/

/-- The paths that the worker calls. -/
def workerPaths : List String :=
  ["/Lobby/CreateAndJoinLobby", "/Lobby/JoinLobby", "/Lobby/FindLobbies", "/Lobby/LeaveLobby",
    "/Lobby/UpdateLobby", "/Lobby/GetLobby"]

theorem Job.path_mem (j : Job) : j.path ∈ workerPaths := by
  cases j <;> simp [Job.path, workerPaths]

theorem stripApiPrefix_workerPath {path : String} (h : path ∈ workerPaths) :
    stripApiPrefix path = path := by
  simp only [workerPaths, List.mem_cons, List.not_mem_nil, or_false] at h
  rcases h with rfl | rfl | rfl | rfl | rfl | rfl <;> decide +kernel

theorem route_workerPath {path : String} (h : path ∈ workerPaths) : (route path).isSome = true := by
  simp only [workerPaths, List.mem_cons, List.not_mem_nil, or_false] at h
  rcases h with rfl | rfl | rfl | rfl | rfl | rfl <;> decide +kernel

theorem route_find {path : String} (h : path ∈ workerPaths) :
    route path = some .findLobbies ↔ path = "/Lobby/FindLobbies" := by
  simp only [workerPaths, List.mem_cons, List.not_mem_nil, or_false] at h
  rcases h with rfl | rfl | rfl | rfl | rfl | rfl <;> decide +kernel

theorem query_workerPath {host : Host} {ports : Ports} {r : WebRequest} (h : r.path ∈ workerPaths) :
    r.query host ports = some (.playfab r.playfab) := by
  have hnone : handleCygames host ports r = none := by
    unfold handleCygames
    rw [stripApiPrefix_workerPath h]
    simp only [workerPaths, List.mem_cons, List.not_mem_nil, or_false] at h
    rcases h with h | h | h | h | h | h <;> rw [h] <;> rfl
  have hparty : "party/".toList.isPrefixOf (trimSlashes (stripApiPrefix r.path)).toList = false := by
    rw [stripApiPrefix_workerPath h]
    simp only [workerPaths, List.mem_cons, List.not_mem_nil, or_false] at h
    rcases h with h | h | h | h | h | h <;> rw [h] <;> decide
  have hroute : (route (stripApiPrefix r.path)).isSome = true := by
    rw [stripApiPrefix_workerPath h]
    exact route_workerPath h
  rw [WebRequest.query, hnone, if_neg (by decide), if_neg (by rw [hparty]; simp), if_pos hroute]

/-! ### A call on the wire -/

theorem jsonBody_bytes (readFloat : List Char → Option UInt64) (body : List Char) :
    jsonBody readFloat (Utf8.bytes (String.ofList body)) = readBody readFloat body := by
  cases body with
  | nil => rfl
  | cons c cs => rw [jsonBody_text readFloat (List.cons_ne_nil c cs), readBody, if_neg (by simp)]

section
variable {host : Host} {readFloat : List Char → Option UInt64}

/-- A search is answered with rows, and every other call with a response. -/
theorem handlePlayfab_reply {app : App} {r : Request} {reply : Reply}
    (h : (handlePlayfab host app r).2 = some reply) :
    route r.path = some .findLobbies ∧ reply = .rows (findQuery app r) ∨
      route r.path ≠ some .findLobbies ∧ ∃ resp, reply = .response resp ∧ resp.status < 2 ^ 16 := by
  unfold handlePlayfab at h
  split at h
  case h_5 hroute =>
    obtain rfl := Option.some.inj h
    exact .inl ⟨hroute, rfl⟩
  case h_10 => cases h
  all_goals
    rename_i hroute
    refine .inr ⟨by rw [hroute]; decide, ?_⟩
    obtain rfl := Option.some.inj h
  · exact ok_response _
  · exact ok_response _
  · exact ok_response _
  · simp only [handleJoin]
    split
    · exact err_response _ _
    · split
      · exact err_response _ _
      · split
        · exact err_response _ _
        · exact ok_response _
  · simp only [handleLeave]
    split <;> exact ok_response _
  · simp only [handleUpdate]
    split <;> exact ok_response _
  · simp only [handleGet]
    split
    · exact ok_response _
    · exact err_response _ _
  · exact ok_response _

variable {encodeBlob : Moment → List UInt8 → List UInt8} {wsAccept : String → String} {ports : Ports}
  {c : Client} {brokerHost path : String} {port : UInt16} {body : List Char}

/-- The broker takes a call for one of the same caller. -/
theorem requestEntityId_callHeaders {body peerIp : String} (htoken : IsToken c.auth) (app : App)
    (v : Value) : requestEntityId app v (callHeaders brokerHost port path body c.auth peerIp) =
      requestEntityId app v c.headers := by
  have hauth (k : String) (hne : k ≠ "x-entitytoken") : c.headers.get? k = none := by
    unfold Client.headers
    split_ifs
    · rfl
    · rw [OrdMap.get?_insert, if_neg hne]
      rfl
  have htok : c.headers.get? "x-entitytoken" = if c.auth.isEmpty then none else some c.auth := by
    unfold Client.headers
    split_ifs
    · rfl
    · rw [OrdMap.get?_insert, if_pos rfl]
  unfold requestEntityId
  rw [headerSession_congr _ app]
  intro k hk
  simp only [List.mem_cons, List.not_mem_nil, or_false] at hk
  rcases hk with rfl | rfl | rfl
  · rw [get?_callHeaders (by decide), get?_wireHeaders_token htoken, htok]
  · rw [get?_callHeaders (by decide), get?_wireHeaders_none (by decide), hauth _ (by decide)]
  · rw [get?_callHeaders (by decide), get?_wireHeaders_none (by decide), hauth _ (by decide)]

/-- The broker does with a request what the PlayFab calls do with another one of the same caller. -/
theorem dispatch_caller {w : WebRequest} {r : Request} (hpath : w.path ∈ workerPaths)
    (hcall : w.playfab = { r with headers := w.headers })
    (hcaller : ∀ a, requestEntityId a r.body w.headers = requestEntityId a r.body r.headers) (app : App) :
    ∃ reply, (handlePlayfab host app r).2 = some reply ∧
      dispatch host readFloat encodeBlob ports app w =
        ((handlePlayfab host app r).1, reply.answer host readFloat app r) := by
  have hsame : handlePlayfab host app w.playfab = handlePlayfab host app r := by
    rw [hcall]
    exact handlePlayfab_headers hcaller app
  have hrows : findData host readFloat app w.playfab = findData host readFloat app r := by
    rw [hcall]
    exact findData_headers hcaller app
  have hsome : (handlePlayfab host app r).2.isSome = true := by
    rw [← hsame, handlePlayfab_isSome, WebRequest.playfab, stripApiPrefix_workerPath hpath]
    exact route_workerPath hpath
  obtain ⟨reply, hreply⟩ := Option.isSome_iff_exists.mp hsome
  refine ⟨reply, hreply, ?_⟩
  have hanswer : reply.answer host readFloat app w.playfab = reply.answer host readFloat app r := by
    cases reply with
    | response resp => simp only [Reply.answer, Reply.onWire]
    | rows q => simp only [Reply.answer, Reply.onWire, hrows]
  have hto : dispatch host readFloat encodeBlob ports app w =
      dispatchPlayfab host readFloat encodeBlob ports app w :=
    dispatch_of_query host readFloat encodeBlob ports (query_workerPath hpath)
  rw [hto]
  unfold dispatchPlayfab
  rw [hsame, hreply]
  simp only [hanswer]

/-- What the broker does with a call of the worker. -/
theorem dispatch_call {peerIp : String} (hpath : path ∈ workerPaths) (htoken : IsToken c.auth) (app : App)
    (m : Moment) :
    ∃ reply, (handlePlayfab host app (request readFloat c m path body)).2 = some reply ∧
      dispatch host readFloat encodeBlob ports app ⟨m, "POST", path,
          callHeaders brokerHost port path (String.ofList body) c.auth peerIp,
          jsonBody readFloat (Utf8.bytes (String.ofList body))⟩ =
        ((handlePlayfab host app (request readFloat c m path body)).1,
          reply.answer host readFloat app (request readFloat c m path body)) := by
  refine dispatch_caller hpath ?_ (fun a => requestEntityId_callHeaders htoken a _) app
  rw [jsonBody_bytes]
  simp only [WebRequest.playfab, request, stripApiPrefix_workerPath hpath]

theorem workerPath_text (h : path ∈ workerPaths) : path ≠ "" ∧ ∀ c ∈ path.toList, isSpace c = false := by
  simp only [workerPaths, List.mem_cons, List.not_mem_nil, or_false] at h
  rcases h with rfl | rfl | rfl | rfl | rfl | rfl <;>
    exact ⟨by decide, Http.forall_not_of_decide (by decide)⟩

/-- What the worker writes for a call. -/
def callBytes (brokerHost : String) (port : UInt16) (path : String) (body : List Char) (token : String) :
    List UInt8 :=
  requestBytes brokerHost port "POST" path (String.ofList body) ((tokenHeader token).map authLine)

/-- The limits of both sides, and what the broker host and the token have to be for one line each. -/
structure Carried (brokerHost : String) (port : UInt16) (path : String) (body : List Char)
    (token : String) : Prop where
  known : path ∈ workerPaths
  oneLine : OneLine brokerHost.toList
  isToken : IsToken token
  headFits : (requestHead brokerHost port "POST" path (String.ofList body)
    ((tokenHeader token).map authLine)).length ≤ Http.maxHeadBytes
  bodyFits : (Utf8.bytes (String.ofList body)).length ≤ Http.maxBodyBytes

theorem exchange_served (app : App) (r : Request) : exchange host app r .served =
    ((handlePlayfab host app r).1, (handlePlayfab host app r).2.map answer) := rfl

/-- A call is answered by the routes. -/
theorem handleClient_call {app : App} {m : Moment} {peerIp : String} {stream : List Received}
    {text token : String} {reply : Reply} {r : Request}
    (hread : readRequest stream =
      .request "POST" path (wireHeaders brokerHost port path text token) (Utf8.bytes text))
    (hdispatch : dispatch host readFloat encodeBlob ports app ⟨m, "POST", path,
        callHeaders brokerHost port path text token peerIp, jsonBody readFloat (Utf8.bytes text)⟩ =
      ((handlePlayfab host app r).1, reply.answer host readFloat app r)) :
    handleClient host readFloat encodeBlob wsAccept ports app m peerIp stream =
      ((handlePlayfab host app r).1, replyBytes host (reply.onWire host readFloat app r)) := by
  rw [handleClient_routed hread (by decide) hdispatch]
  rfl

/-- What a call comes to: the state and the bytes that the broker leaves, and what is read of them. -/
def CallServed (host : Host) (readFloat : List Char → Option UInt64) (app : App) (r : Request)
    (out : App × List UInt8) : Prop :=
  out.1 = (exchange host app r .served).1 ∧
    ∃ resp : Broker.Response,
      (r.path ≠ "/Lobby/FindLobbies" → (exchange host app r .served).2 = some resp) ∧
      (r.path = "/Lobby/FindLobbies" → resp = playfabOk (findData host readFloat app r)) ∧
      ∀ (chunks : List (List UInt8)) (rest : List Received), (∀ c ∈ chunks, c ≠ []) →
        Http.arrived rest = [] → chunks.flatten = out.2 → out.2.length ≤ Http.maxResponseBytes →
        readResponse Http.maxResponseBytes (chunks.map .data ++ rest) =
          .ok ⟨resp.status, toJson host resp.body⟩

theorem callServed {app : App} {r : Request} {reply : Reply} (hknown : r.path ∈ workerPaths)
    (hreply : (handlePlayfab host app r).2 = some reply) :
    CallServed host readFloat app r
      ((handlePlayfab host app r).1, replyBytes host (reply.onWire host readFloat app r)) := by
  refine ⟨by rw [exchange_served], reply.onWire host readFloat app r, ?_, ?_, ?_⟩
  · intro hnot
    rcases handlePlayfab_reply hreply with ⟨hroute, -⟩ | ⟨-, resp, rfl, -⟩
    · exact absurd ((route_find hknown).mp hroute) hnot
    · rw [exchange_served, hreply, Option.map_some]
      rfl
  · intro hfind
    rcases handlePlayfab_reply hreply with ⟨-, rfl⟩ | ⟨hroute, -⟩
    · rfl
    · exact absurd ((route_find hknown).mpr hfind) hroute
  · intro chunks rest hchunks hrest hflat hsize
    refine readResponse_reply ?_ hchunks hrest hflat hsize
    rcases handlePlayfab_reply hreply with ⟨-, rfl⟩ | ⟨-, resp, rfl, hstatus⟩
    · exact (by decide : 200 < 2 ^ 16)
    · exact hstatus

/-- A call on the wire does to the broker what the exchange does, and its answer is read back as the
text of the reply, however the bytes of both are split into reads. -/
theorem call_on_wire (host : Host) (readFloat : List Char → Option UInt64)
    (encodeBlob : Moment → List UInt8 → List UInt8) (wsAccept : String → String) (ports : Ports) (app : App)
    (c : Client) (m : Moment) (peerIp brokerHost path : String) (port : UInt16) (body : List Char)
    (hcall : Carried brokerHost port path body c.auth) (chunks : List (List UInt8)) (rest : List Received)
    (hchunks : ∀ c ∈ chunks, c ≠ []) (hflat : chunks.flatten = callBytes brokerHost port path body c.auth) :
    CallServed host readFloat app (request readFloat c m path body)
      (handleClient host readFloat encodeBlob wsAccept ports app m peerIp (chunks.map .data ++ rest)) := by
  obtain ⟨hne, hspace⟩ := workerPath_text hcall.known
  have hread : readRequest (chunks.map .data ++ rest) = _ :=
    readRequest_shim (by decide) (List.all_eq_true.mp (by decide)) rest hne hspace hcall.oneLine hcall.isToken hcall.headFits hcall.bodyFits hchunks hflat
  obtain ⟨reply, hreply, hdispatch⟩ := @dispatch_call host readFloat encodeBlob ports c brokerHost path port
    body peerIp hcall.known hcall.isToken app m
  rw [handleClient_call hread hdispatch]
  exact callServed hcall.known hreply

end

/-- A client with a token. -/
def tokenClient : Client := { Client.new with auth := "STUB.abc" }

/-- A leave with a character of two bytes, split inside of it and in the end of its head. -/
def leaveChunks : List (List UInt8) :=
  let bs := callBytes "lan" 8080 "/Lobby/LeaveLobby" "\x7b\"LobbyId\":\"é\"\x7d".toList "STUB.abc"
  [bs.take 145, (bs.drop 145).take 15, bs.drop 160]

theorem leave_on_wire :
    CallServed Broker.anonymousHost (fun _ => none) (App.new "1AC1AD" 8 true)
      (request (fun _ => none) tokenClient ⟨0, "0", []⟩ "/Lobby/LeaveLobby" "\x7b\"LobbyId\":\"é\"\x7d".toList)
      (handleClient Broker.anonymousHost (fun _ => none) (fun _ raw => raw) id ⟨8080, 8081⟩
        (App.new "1AC1AD" 8 true) ⟨0, "0", []⟩ "127.0.0.1" (leaveChunks.map .data ++ [])) := by
  refine call_on_wire _ _ _ _ _ _ tokenClient _ _ "lan" _ 8080 _ ⟨?_, ?_, ⟨?_, ?_⟩, ?_, ?_⟩ _ _ ?_ ?_
  · decide
  · exact .of_decide (by decide)
  · exact .of_decide (by decide)
  · decide
  · decide +kernel
  · decide +kernel
  · decide +kernel
  · decide +kernel

end GbfrLan.Playfab
