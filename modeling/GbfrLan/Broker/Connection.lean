import GbfrLan.Broker.Dispatch
import GbfrLan.Http.Response

/-!
# A connection of the broker

Every shim writes one request on a fresh connection and reads until the connection ends. The broker
reads the request, dispatches it and writes the answer. Whatever the reads are that the bytes arrive
in, the request reaches the routes as the shim has made it.
-/
namespace GbfrLan.Broker
open Lib Json
open Http (Received OneLine IsHeader IsLine requestLines requestBytes requestHead headText headEnd authLine
  putLine readRequest sendHttp readResponse)

/-! ### The broker's side of a connection -/

/-- The JSON of a body; a body that is none is kept as text. -/
def jsonBody (readFloat : List Char → Option UInt64) (body : List UInt8) : Value :=
  if body = [] then .obj []
  else
    let text := Utf8.decodeLossy body
    let parsed := if Utf8.bytes text = body then Read.fromSlice readFloat text.toList else none
    parsed.getD (.obj [("_raw", .string text)])

/-- Some part of the `Upgrade` header is `websocket`. -/
def isWebsocketUpgrade (headers : Headers) : Bool :=
  ((headers.get? "upgrade").map fun s =>
    ((Text.lower s.toList).splitOn ',').any fun p => Http.trim p == "websocket".toList).getD false

/-- What `handle_ws_upgrade` writes before the frames. -/
def wsUpgrade (wsAccept : String → String) (headers : Headers) : List UInt8 :=
  match headers.get? "sec-websocket-key" with
  | none => sendHttp 400 "text/plain" (Utf8.bytes "missing Sec-WebSocket-Key")
  | some key =>
      Utf8.bytes ("HTTP/1.1 101 Switching Protocols\r\nUpgrade: websocket\r\nConnection: Upgrade\r\n" ++
        "Sec-WebSocket-Accept: " ++ wsAccept key ++ "\r\n" ++
        ((headers.get? "sec-websocket-protocol").map fun p =>
          "Sec-WebSocket-Protocol: " ++ p ++ "\r\n").getD "" ++ "\r\n")

/-- The answer to `OPTIONS`. -/
def optionsAnswer : List UInt8 :=
  Utf8.bytes ("HTTP/1.1 204 No Content\r\nAccess-Control-Allow-Origin: *\r\n" ++
    "Access-Control-Allow-Headers: *\r\nAccess-Control-Allow-Methods: GET,POST,PUT,DELETE,OPTIONS\r\n" ++
    "Content-Length: 0\r\n\r\n")

section
variable (host : Host) (readFloat : List Char → Option UInt64) (encodeBlob : Moment → List UInt8 → List UInt8)
  (wsAccept : String → String) (ports : Ports)

/-- `handle_client`: the state behind the connection, and what is written on it. -/
def handleClient (app : App) (m : Moment) (peerIp : String) (stream : List Received) :
    App × List UInt8 :=
  match readRequest stream with
  | .tooLarge => (app, sendHttp 413 "text/plain" (Utf8.bytes "request body too large"))
  | .dropped => (app, [])
  | .request method path headers body =>
      let headers := if headers.contains "x-peer-ip" then headers else headers.insert "x-peer-ip" peerIp
      if isWebsocketUpgrade headers then (app, wsUpgrade wsAccept headers)
      else if method = "OPTIONS" then (app, optionsAnswer)
      else
        let out := dispatch host readFloat encodeBlob ports app
          ⟨m, method, path, headers, jsonBody readFloat body⟩
        (out.1, sendHttp out.2.code out.2.ctype out.2.bytes)

end

/-! ### The headers of a request -/

/-- The name that a line is filed under. -/
def lineName (line : String) : Option String :=
  (Text.splitOnce ':' line.toList).map fun e => String.ofList (Text.lower (Http.trim e.1))

theorem get?_putLine {headers : Headers} {line k v : String} (h : (putLine headers line).get? k = some v) :
    headers.get? k = some v ∨ lineName line = some k := by
  unfold putLine at h
  unfold lineName
  cases hsplit : Text.splitOnce ':' line.toList with
  | none =>
    rw [hsplit] at h
    exact .inl h
  | some e =>
    rw [hsplit] at h
    rw [OrdMap.get?_insert] at h
    split_ifs at h with hk
    · exact .inr (congrArg some hk.symm)
    · exact .inl h

/-- Only the names of the lines are found. -/
theorem get?_foldl_putLine {lines : List String} {headers : Headers} {k v : String}
    (h : (lines.foldl putLine headers).get? k = some v) :
    headers.get? k = some v ∨ ∃ line ∈ lines, lineName line = some k := by
  induction lines generalizing headers with
  | nil => exact .inl h
  | cons line lines ih =>
    rcases ih h with hold | ⟨line', hmem, hname⟩
    · rcases get?_putLine hold with hold | hname
      · exact .inl hold
      · exact .inr ⟨line, List.mem_cons_self, hname⟩
    · exact .inr ⟨line', List.mem_cons_of_mem _ hmem, hname⟩

theorem lineName_append {k : String} (hk : ':' ∉ k.toList) (v : String) :
    lineName (k ++ ": " ++ v) = some (Http.headerName k) := by
  have htext : (k ++ ": " ++ v).toList = k.toList ++ ':' :: (' ' :: v.toList) := by
    simp [String.toList_append]
  rw [lineName, htext, Text.splitOnce_append hk]
  rfl

/-- The header of an entity token, as the client writes it. -/
def tokenHeader (token : String) : Option (String × String) :=
  if token.isEmpty then none else some ("X-EntityToken", token)

/-- A token that a header line can carry. -/
structure IsToken (token : String) : Prop where
  one : OneLine token.toList
  trimmed : Http.trim token.toList = token.toList

theorem IsToken.header {token : String} (h : IsToken token) : ∀ a ∈ tokenHeader token, IsHeader a := by
  intro a ha
  unfold tokenHeader at ha
  split_ifs at ha
  · cases ha
  obtain rfl := Option.some.inj ha
  have hname : OneLine "X-EntityToken".toList := .of_decide (by decide)
  exact ⟨(by decide : ':' ∉ "X-EntityToken".toList), hname, h.one,
    (by decide : Http.headerName "X-EntityToken" ∉
      ["host", "content-type", "content-length", "connection"])⟩

section
variable {brokerHost path body token : String} {port : UInt16}

/-- The headers that the broker finds in a request of the worker. -/
def wireHeaders (brokerHost : String) (port : UInt16) (path body token : String) : Headers :=
  ((requestLines brokerHost port "POST" path body ((tokenHeader token).map authLine)).tail).foldl
    putLine OrdMap.empty

theorem wireHeaders_names {k v : String} (h : (wireHeaders brokerHost port path body token).get? k = some v) :
    k ∈ ["host", "content-type", "content-length", "connection"] ∨
      k = "x-entitytoken" ∧ token.isEmpty = false := by
  rcases get?_foldl_putLine h with hnone | ⟨line, hline, hname⟩
  · cases hnone
  · have hof {k' v' : String} (hk' : ':' ∉ k'.toList) (hname : lineName (k' ++ ": " ++ v') = some k) :
        k = Http.headerName k' :=
      Option.some.inj (hname.symm.trans (lineName_append hk' v'))
    rw [Http.requestLines_eq] at hline
    simp only [List.cons_append, List.nil_append, List.tail_cons, List.mem_cons, List.mem_append,
      List.not_mem_nil, or_false, Option.mem_toList, Option.map_eq_some_iff] at hline
    rcases hline with rfl | rfl | ⟨a, ha, rfl⟩ | rfl | rfl
    · have hline : "Host: " ++ brokerHost ++ ":" ++ toString port.toNat =
          "Host" ++ ": " ++ (brokerHost ++ ":" ++ toString port.toNat) := by
        simp [← String.toList_inj, String.toList_append]
      rw [hline] at hname
      rw [hof (by decide) hname]
      exact .inl (by decide)
    · have hline : "Content-Type: application/json" = "Content-Type" ++ ": " ++ "application/json" := by
        decide
      rw [hline] at hname
      rw [hof (by decide) hname]
      exact .inl (by decide)
    · unfold tokenHeader at ha
      split_ifs at ha with hempty
      obtain rfl := Option.some.inj ha
      have hk : k = Http.headerName "X-EntityToken" := hof (by decide) hname
      rw [hk]
      exact .inr ⟨by decide, by simpa using hempty⟩
    · have hline : "Content-Length: " ++ toString (Utf8.bytes body).length =
          "Content-Length" ++ ": " ++ toString (Utf8.bytes body).length := by simp
      rw [hline] at hname
      rw [hof (by decide) hname]
      exact .inl (by decide)
    · have hline : "Connection: close" = "Connection" ++ ": " ++ "close" := by decide
      rw [hline] at hname
      rw [hof (by decide) hname]
      exact .inl (by decide)

theorem get?_wireHeaders_none {k : String}
    (h : k ∉ ["host", "content-type", "content-length", "connection", "x-entitytoken"]) :
    (wireHeaders brokerHost port path body token).get? k = none := by
  simp only [List.mem_cons, List.not_mem_nil, or_false, not_or] at h
  cases hk : (wireHeaders brokerHost port path body token).get? k with
  | none => rfl
  | some v =>
    rcases wireHeaders_names hk with hmem | ⟨rfl, -⟩
    · simp only [List.mem_cons, List.not_mem_nil, or_false] at hmem
      tauto
    · exact absurd rfl h.2.2.2.2

/-- The token is found as the shim knows it. -/
theorem get?_wireHeaders_token (h : IsToken token) :
    (wireHeaders brokerHost port path body token).get? "x-entitytoken" =
      if token.isEmpty then none else some token := by
  have hhas := @Http.requestLines_headers brokerHost "POST" path body port (tokenHeader token) h.header
  split_ifs with hempty
  · cases hk : (wireHeaders brokerHost port path body token).get? "x-entitytoken" with
    | none => rfl
    | some v =>
      rcases wireHeaders_names hk with hmem | ⟨-, hne⟩
      · exact absurd hmem (by decide)
      · rw [hempty] at hne
        cases hne
  · have hname : Http.headerName "X-EntityToken" = "x-entitytoken" := by decide
    have hauth := hhas.auth ("X-EntityToken", token) (by simp [tokenHeader, hempty])
    rw [h.trimmed, String.ofList_toList, hname] at hauth
    exact hauth

section
variable {method : String} (hm : method ≠ "") (hmethod : ∀ c ∈ method.toList, c.isAlpha = true)
include hm hmethod

/-- The broker reads the request that a shim writes. -/
theorem readRequest_shim {chunks : List (List UInt8)} (rest : List Received)
    (hpath : path ≠ "") (hspace : ∀ c ∈ path.toList, isSpace c = false) (hhost : OneLine brokerHost.toList)
    (htoken : IsToken token)
    (hhead : (requestHead brokerHost port method path body ((tokenHeader token).map authLine)).length ≤
      Http.maxHeadBytes)
    (hbody : (Utf8.bytes body).length ≤ Http.maxBodyBytes) (hchunks : ∀ c ∈ chunks, c ≠ [])
    (hflat : chunks.flatten = requestBytes brokerHost port method path body ((tokenHeader token).map authLine)) :
    readRequest (chunks.map .data ++ rest) =
      .request method path (wireHeaders brokerHost port path body token) (Utf8.bytes body) := by
  have hlines := @Http.requestLines_isLine brokerHost method path body port (tokenHeader token) hm hmethod
    hspace hhost htoken.header
  have hne : requestLines brokerHost port method path body ((tokenHeader token).map authLine) ≠ [] :=
    List.cons_ne_nil _ _
  have hhas := @Http.requestLines_headers brokerHost method path body port (tokenHeader token) htoken.header
  rw [requestHead, Http.headText_append_headEnd hne] at hhead
  rw [requestBytes, requestHead, Http.headText_append_headEnd hne] at hflat
  have hlength : Http.contentLength (wireHeaders brokerHost port path body token) =
      some (Utf8.bytes body).length := by
    have hget : (wireHeaders brokerHost port path body token).get? "content-length" = _ := hhas.length
    rw [Http.contentLength, hget, Option.bind_some, Http.parseU64_toString]
    exact lt_of_le_of_lt hbody (by decide)
  have hparse : Http.parseHead (headText (requestLines brokerHost port method path body
      ((tokenHeader token).map authLine))) =
      some (method, path, wireHeaders brokerHost port path body token) := by
    obtain ⟨words, hwords⟩ := Http.splitWhitespace_requestLine (by simpa using hm : method.toList ≠ [])
      (fun c hc => Http.isSpace_of_isAlpha (hmethod c hc)) (by simpa using hpath : path.toList ≠ []) hspace
      "HTTP/1.1\r".toList
    have htext : (method ++ " " ++ path ++ " HTTP/1.1").toList ++ ['\r'] =
        method.toList ++ ' ' :: (path.toList ++ ' ' :: "HTTP/1.1\r".toList) := by
      simp [String.toList_append]
    rw [← htext] at hwords
    refine (Http.parseHead_headText hlines hwords).trans ?_
    rw [String.ofList_toList, String.ofList_toList]
    rfl
  have htls := @Http.requestLines_head brokerHost method path body port (tokenHeader token) hm hmethod
  exact Http.readRequest_chunks hne hlines hhead htls hparse hlength hbody hchunks hflat rest

end

/-- The headers of a call, as the broker dispatches it. -/
def callHeaders (brokerHost : String) (port : UInt16) (path body token peerIp : String) : Headers :=
  let headers := wireHeaders brokerHost port path body token
  if headers.contains "x-peer-ip" then headers else headers.insert "x-peer-ip" peerIp

theorem get?_callHeaders {k body token peerIp : String} (h : k ≠ "x-peer-ip") :
    (callHeaders brokerHost port path body token peerIp).get? k =
      (wireHeaders brokerHost port path body token).get? k := by
  unfold callHeaders
  simp only
  split_ifs
  · rfl
  · rw [OrdMap.get?_insert, if_neg h]

theorem callHeaders_upgrade {body token peerIp : String} :
    isWebsocketUpgrade (callHeaders brokerHost port path body token peerIp) = false := by
  rw [isWebsocketUpgrade, get?_callHeaders (by decide), get?_wireHeaders_none (by decide)]
  rfl

end

section
variable {host : Host} {readFloat : List Char → Option UInt64}

/-- The JSON of a body that is not empty. -/
theorem jsonBody_text (readFloat : List Char → Option UInt64) {body : List Char} (h : body ≠ []) :
    jsonBody readFloat (Utf8.bytes (String.ofList body)) =
      (Read.fromSlice readFloat body).getD (.obj [("_raw", .string (String.ofList body))]) := by
  have hne : Utf8.bytes (String.ofList body) ≠ [] := by
    intro hnil
    have hread := Utf8.decodeLossy_bytes (String.ofList body)
    rw [hnil] at hread
    have hlist := congrArg String.toList hread
    rw [String.toList_ofList] at hlist
    exact h hlist.symm
  unfold jsonBody
  rw [if_neg hne, Utf8.decodeLossy_bytes]
  simp

theorem jsonBody_nil (readFloat : List Char → Option UInt64) :
    jsonBody readFloat (Utf8.bytes (String.ofList [])) = .obj [] := rfl

/-- A request of a shim gets to the routes. -/
theorem handleClient_routed {encodeBlob : Moment → List UInt8 → List UInt8} {wsAccept : String → String}
    {ports : Ports} {app : App} {m : Moment} {brokerHost method path text token peerIp : String}
    {port : UInt16} {stream : List Received} {out : App × Answer}
    (hread : readRequest stream =
      .request method path (wireHeaders brokerHost port path text token) (Utf8.bytes text))
    (hmethod : method ≠ "OPTIONS")
    (hdispatch : dispatch host readFloat encodeBlob ports app ⟨m, method, path,
        callHeaders brokerHost port path text token peerIp, jsonBody readFloat (Utf8.bytes text)⟩ = out) :
    handleClient host readFloat encodeBlob wsAccept ports app m peerIp stream =
      (out.1, sendHttp out.2.code out.2.ctype out.2.bytes) := by
  have hupgrade := @callHeaders_upgrade brokerHost path port text token peerIp
  unfold callHeaders at hdispatch hupgrade
  unfold handleClient
  rw [hread]
  simp only at hupgrade hdispatch ⊢
  rw [if_neg (by rw [hupgrade]; decide), if_neg hmethod, hdispatch]

theorem ok_response (data : Value) : ∃ resp, ok data = .response resp ∧ resp.status < 2 ^ 16 :=
  ⟨_, rfl, (by decide : 200 < 2 ^ 16)⟩

theorem err_response (error message : String) :
    ∃ resp, err error message = .response resp ∧ resp.status < 2 ^ 16 := by
  refine ⟨_, rfl, ?_⟩
  unfold playfabErr
  split_ifs <;> simp

/-- A reply as the broker writes it. -/
def replyBytes (host : Host) (resp : Response) : List UInt8 :=
  sendHttp (UInt16.ofNat resp.status) "application/json" (toVec host resp.body)

theorem readResponse_reply {resp : Response} (hstatus : resp.status < 2 ^ 16) {n : ℕ}
    {chunks : List (List UInt8)} {rest : List Received} (hchunks : ∀ c ∈ chunks, c ≠ [])
    (hrest : Http.arrived rest = []) (hflat : chunks.flatten = replyBytes host resp)
    (hsize : (replyBytes host resp).length ≤ n) :
    readResponse n (chunks.map .data ++ rest) = .ok ⟨resp.status, toJson host resp.body⟩ := by
  have hctype : OneLine "application/json".toList := .of_decide (by decide)
  have hcode : (UInt16.ofNat resp.status).toNat = resp.status := UInt16.toNat_ofNat_of_lt' hstatus
  rw [Http.readResponse_whole hctype hchunks hrest hflat hsize, hcode, toVec, Utf8.decodeLossy_bytes]

end

end GbfrLan.Broker
