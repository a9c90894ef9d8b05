import GbfrLan.Broker.Connection
import GbfrLan.Broker.Rows
import GbfrLan.Party.Descriptor
import GbfrLan.Party.PeerPoll
import GbfrLan.Playfab.Envelope

/-!
# The tasks of the broker thread on the wire

A task is one request, whose body is formatted from the ids as they are. What the broker does with the
bytes is what it does with the request that the task stands for, and of the answer to a poll the thread
reads back the registry of the network, row by row.
-/
namespace GbfrLan.Party
open Lib Json Broker
open Http (Received OneLine requestBytes requestHead readRequest readResponse)

/-! ### Requests -/

/-- `ip_string`. -/
def Octets.text (ip : Octets) : String :=
  toString ip.a.toNat ++ "." ++ toString ip.b.toNat ++ "." ++ toString ip.c.toNat ++ "." ++
    toString ip.d.toNat

namespace BrokerTask

def method : BrokerTask → String
  | .pollPeers .. => "GET"
  | _ => "POST"

def path : BrokerTask → String
  | .register .. => "/party/join"
  | .leave .. => "/party/leave"
  | .pollPeers nid _ _ => "/party/peers?network_id=" ++ nid

/-- A member of a body. -/
def member (name : String) (text : List Char) : List Char := '"' :: name.toList ++ '"' :: ':' :: text

def quoted (s : String) : List Char := '"' :: s.toList ++ ['"']

/-- The body that `broker_run` formats. -/
def body (ip : Octets) : BrokerTask → List Char
  | .register nid ent udpPort _ => '{' :: Text.commas [member "network_id" (quoted nid),
      member "entity_id" (quoted ent), member "udp_port" (toString udpPort.toNat).toList,
      member "ip" (quoted ip.text)] ++ ['}']
  | .leave nid ent =>
      '{' :: Text.commas [member "network_id" (quoted nid), member "entity_id" (quoted ent)] ++ ['}']
  | .pollPeers .. => []

/-- The ids of a task stand in its request as they are. -/
def Spelled : BrokerTask → Prop
  | .register nid ent _ _ => Read.Plain nid ∧ Read.Plain ent
  | .leave nid ent => Read.Plain nid ∧ Read.Plain ent
  | .pollPeers nid _ _ => ∀ c ∈ nid.toList, isSpace c = false

end BrokerTask

/-! ### The answer to a poll -/

/-- One object of the member list. -/
def peerOf (obj : List Char) : Option PeerEntry :=
  (Scan.jsonStr obj "entity_id").map fun entity =>
    ⟨entity, (Scan.jsonStr obj "ip").getD "127.0.0.1",
      UInt16.ofNat (((Scan.jsonStr obj "udp_port").bind fun s => Http.parseU16 s.toList).getD 0)⟩

/-- What `broker_run` makes of the answer to a poll. -/
def readPeers (text : Option String) : List PeerEntry :=
  ((text.map fun t => Scan.jsonArrObjects t.toList "members").getD []).filterMap peerOf

/-- A row as another title knows it. -/
def rowPeer (m : PartyMember) : PeerEntry := ⟨m.entityId, m.ip, m.udpPort⟩

/-! ### Bodies -/

theorem isDigit_plain {c : Char} (h : c.isDigit = true) : Read.isPlainChar c = true := by
  have hrange : 48 ≤ c.toNat ∧ c.toNat ≤ 57 := by
    simp only [Char.isDigit, Bool.and_eq_true, decide_eq_true_eq] at h
    exact ⟨UInt32.le_iff_toNat_le.mp h.1, UInt32.le_iff_toNat_le.mp h.2⟩
  have hquote : c ≠ '"' := by
    rintro rfl
    exact absurd h (by decide)
  have hback : c ≠ '\\' := by
    rintro rfl
    exact absurd h (by decide)
  simp [Read.isPlainChar, hquote, hback]
  omega

theorem plain_toString (n : ℕ) : (toString n).toList.all Read.isPlainChar = true :=
  List.all_eq_true.mpr fun _ hc => isDigit_plain (Text.isDigit_of_mem_toString hc)

/-- An address is written without quotes or escapes. -/
theorem Octets.plain_text (ip : Octets) : Read.Plain ip.text := by
  have hdot : ".".toList.all Read.isPlainChar = true := by decide
  unfold Read.Plain Octets.text
  simp only [String.toList_append, List.all_append, plain_toString, hdot, Bool.and_self]

section
variable {readFloat : List Char → Option UInt64}

theorem reads_quoted {s : String} (h : Read.Plain s) (d : ℕ) :
    Read.Reads readFloat d (BrokerTask.quoted s) (.string s) :=
  Read.reads_string readFloat d (Read.quotes_plain h)

theorem reads_port (p : UInt16) (d : ℕ) :
    Read.Reads readFloat d (toString p.toNat).toList (number p.toNat) :=
  Read.reads_nat d (p.toNat_lt.trans (by decide))

/-- The broker reads the body that the request of the task has. -/
theorem jsonBody_body {t : BrokerTask} (h : t.Spelled) (ip : Octets) (m : Moment) (headers : Headers) :
    jsonBody readFloat (Utf8.bytes (String.ofList (t.body ip))) =
      (taskRequest t ⟨m, ip.text, headers⟩).body := by
  have hkey : Read.Plain "network_id" ∧ Read.Plain "entity_id" ∧ Read.Plain "udp_port" ∧
      Read.Plain "ip" := by
    refine ⟨?_, ?_, ?_, ?_⟩ <;> unfold Read.Plain <;> decide
  obtain ⟨hnet, hent, hport, hip⟩ := hkey
  cases t with
  | register nid ent udpPort quiet =>
    have hread : Read.Reads readFloat 128 (BrokerTask.body ip (.register nid ent udpPort quiet)) _ :=
      Read.ReadsFields.object (.cons hnet (reads_quoted h.1 _) (.cons hent (reads_quoted h.2 _)
        (.cons hport (reads_port udpPort _) (.single hip (reads_quoted ip.plain_text 127)))))
    rw [jsonBody_text readFloat (by simp [BrokerTask.body]), Read.fromSlice_of_reads hread, Option.getD_some]
    rfl
  | leave nid ent =>
    have hread : Read.Reads readFloat 128 (BrokerTask.body ip (.leave nid ent)) _ :=
      Read.ReadsFields.object (.cons hnet (reads_quoted h.1 _) (.single hent (reads_quoted h.2 127)))
    rw [jsonBody_text readFloat (by simp [BrokerTask.body]), Read.fromSlice_of_reads hread, Option.getD_some]
    rfl
  | pollPeers nid epoch seq => exact jsonBody_nil readFloat

end

/-! ### Routes -/

section
variable {host : Host} {readFloat : List Char → Option UInt64}
  {encodeBlob : Moment → List UInt8 → List UInt8} {wsAccept : String → String} {ports : Ports}

/-- The part of the path that the routes look at. -/
def BrokerTask.service : BrokerTask → String
  | .register .. => "party/join"
  | .leave .. => "party/leave"
  | .pollPeers .. => "party/peers"

def services : List String := ["party/join", "party/leave", "party/peers"]

theorem service_mem (t : BrokerTask) : t.service ∈ services := by
  cases t <;> simp [BrokerTask.service, services]

theorem service_routes {s : String} (h : s ∈ services) :
    String.ofList (stripFirst ('/' :: s.toList) apiPrefixes) = "/" ++ s ∧ trimSlashes ("/" ++ s) = s ∧
      "party/".toList.isPrefixOf s.toList = true := by
  simp only [services, List.mem_cons, List.not_mem_nil, or_false] at h
  rcases h with rfl | rfl | rfl <;> decide +kernel

theorem splitOnce_pollPath (nid : String) : Text.splitOnce '?' ("/party/peers?network_id=" ++ nid).toList =
    some ("/party/peers".toList, "network_id=".toList ++ nid.toList) := by
  have htext : ("/party/peers?network_id=" ++ nid).toList =
      "/party/peers".toList ++ '?' :: ("network_id=".toList ++ nid.toList) := by
    rw [String.toList_append]
    rfl
  rw [htext]
  exact Text.splitOnce_append (by decide) _

theorem splitOnce_fixed :
    Text.splitOnce '?' "/party/join".toList = none ∧ Text.splitOnce '?' "/party/leave".toList = none := by
  decide +kernel

theorem path_register (nid ent : String) (udpPort : UInt16) (quiet : Bool) :
    (BrokerTask.register nid ent udpPort quiet).path = "/party/join" := rfl

theorem path_leave (nid ent : String) : (BrokerTask.leave nid ent).path = "/party/leave" := rfl

theorem path_pollPeers (nid : String) (epoch seq : ℕ) :
    (BrokerTask.pollPeers nid epoch seq).path = "/party/peers?network_id=" ++ nid := rfl

theorem beforeQuery_path (t : BrokerTask) : beforeQuery t.path.toList = '/' :: t.service.toList := by
  cases t with
  | register nid ent udpPort quiet =>
    rw [path_register, beforeQuery, splitOnce_fixed.1]
    exact (by decide : "/party/join".toList = '/' :: "party/join".toList)
  | leave nid ent =>
    rw [path_leave, beforeQuery, splitOnce_fixed.2]
    exact (by decide : "/party/leave".toList = '/' :: "party/leave".toList)
  | pollPeers nid epoch seq =>
    rw [path_pollPeers, beforeQuery, splitOnce_pollPath, Option.map_some, Option.getD_some]
    exact (by decide : "/party/peers".toList = '/' :: "party/peers".toList)

theorem trimSlashes_path (t : BrokerTask) : trimSlashes (stripApiPrefix t.path) = t.service := by
  obtain ⟨hstrip, htrim, -⟩ := service_routes (service_mem t)
  rw [stripApiPrefix, beforeQuery_path, hstrip, htrim]

theorem partyPath_path (t : BrokerTask) : partyPath t.path = t.path := by
  unfold partyPath
  rw [trimSlashes_path]
  cases t with
  | register nid ent udpPort quiet =>
    rw [path_register, splitOnce_fixed.1]
    exact (by decide : "/" ++ "party/join" = "/party/join")
  | leave nid ent =>
    rw [path_leave, splitOnce_fixed.2]
    exact (by decide : "/" ++ "party/leave" = "/party/leave")
  | pollPeers nid epoch seq =>
    rw [path_pollPeers, splitOnce_pollPath]
    simp [BrokerTask.service, ← String.toList_inj, String.toList_append]

theorem handleCygames_service {r : WebRequest} (h : trimSlashes (stripApiPrefix r.path) ∈ services) :
    handleCygames host ports r = none := by
  unfold handleCygames
  simp only [services, List.mem_cons, List.not_mem_nil, or_false] at h
  rcases h with h | h | h <;> rw [h] <;> rfl

theorem taskRequest_eq (t : BrokerTask) (c : Call) :
    taskRequest t c = ⟨c.moment, t.path, (taskRequest t c).body, c.headers⟩ := by
  cases t <;> rfl

/-- A party request is answered by the party service. -/
theorem dispatch_task {app : App} {r : WebRequest} {t : BrokerTask} {c : Call}
    (hpath : r.path = t.path) (hreq : r.party = taskRequest t c) {reply : Reply}
    (hreply : (brokerRun host app t c).2 = some reply) :
    dispatch host readFloat encodeBlob ports app r =
      ((brokerRun host app t c).1, reply.answer host readFloat app (taskRequest t c)) := by
  have hservice : trimSlashes (stripApiPrefix r.path) = t.service := by rw [hpath, trimSlashes_path]
  have hcygames : handleCygames host ports r = none :=
    handleCygames_service (hservice ▸ service_mem t)
  have hpre : "party/".toList.isPrefixOf (trimSlashes (stripApiPrefix r.path)).toList = true := by
    rw [hservice]
    exact (service_routes (service_mem t)).2.2
  have hto : dispatchParty host app r = brokerRun host app t c := by
    rw [dispatchParty, if_pos hpre, hreq, brokerRun]
  unfold dispatch
  rw [hcygames]
  simp only [hto, hreply, hreq]

theorem handleParty_response {app : App} {r : Request} {reply : Reply}
    (h : (handleParty host app r).2 = some reply) :
    ∃ resp : Broker.Response, reply = .response resp ∧ resp.status < 2 ^ 16 := by
  unfold handleParty at h
  split at h
  · obtain rfl := Option.some.inj h
    simp only [handlePartyJoin]
    split_ifs
    · exact err_response _ _
    · exact ok_response _
  · obtain rfl := Option.some.inj h
    simp only [handlePartyLeave]
    split
    · exact ok_response _
    · split_ifs
      · exact ok_response _
      · exact ok_response _
  · obtain rfl := Option.some.inj h
    simp only [handlePartyPeers]
    split
    · exact ok_response _
    · exact ok_response _
  · obtain rfl := Option.some.inj h
    exact ok_response _
  · cases h

theorem brokerRun_response (app : App) (t : BrokerTask) (c : Call) :
    ∃ resp : Broker.Response, (brokerRun host app t c).2 = some (.response resp) ∧ resp.status < 2 ^ 16 := by
  have hsome : (brokerRun host app t c).2.isSome = true := by
    rw [brokerRun, handleParty_isSome]
    cases t with
    | register nid ent udpPort quiet => exact (by decide : (partyRoute "/party/join").isSome = true)
    | leave nid ent => exact (by decide : (partyRoute "/party/leave").isSome = true)
    | pollPeers nid epoch seq =>
      exact (congrArg Option.isSome (partyRoute_pollPeers nid)).trans rfl
  obtain ⟨reply, hreply⟩ := Option.isSome_iff_exists.mp hsome
  obtain ⟨resp, rfl, hstatus⟩ := handleParty_response hreply
  exact ⟨resp, hreply, hstatus⟩

end

/-! ### Tasks on the wire -/

/-- What the thread writes for a task. -/
def taskBytes (brokerHost : String) (port : UInt16) (ip : Octets) (t : BrokerTask) : List UInt8 :=
  requestBytes brokerHost port t.method t.path (String.ofList (t.body ip)) none

/-- The broker host is one line, and the request is within the limits of the broker. -/
structure Carried (brokerHost : String) (port : UInt16) (ip : Octets) (t : BrokerTask) : Prop where
  oneLine : OneLine brokerHost.toList
  spelled : t.Spelled
  headFits : (requestHead brokerHost port t.method t.path (String.ofList (t.body ip)) none).length ≤
    Http.maxHeadBytes
  bodyFits : (Utf8.bytes (String.ofList (t.body ip))).length ≤ Http.maxBodyBytes

/-- A connection on which a machine sends a task, as the broker sees it. -/
structure Visit (brokerHost : String) (port : UInt16) where
  task : BrokerTask
  /-- The address of the machine, as it knows it. -/
  ip : Octets
  /-- Where the connection comes from. -/
  peerIp : String
  moment : Moment
  /-- The reads that the bytes arrive in, and what follows. -/
  chunks : List (List UInt8)
  rest : List Received
  carried : Carried brokerHost port ip task
  chunks_ne : ∀ c ∈ chunks, c ≠ []
  flat : chunks.flatten = taskBytes brokerHost port ip task

namespace Visit

variable {brokerHost : String} {port : UInt16} (v : Visit brokerHost port)

def stream : List Received := v.chunks.map .data ++ v.rest

/-- What the broker finds besides the task. -/
def call : Call :=
  ⟨v.moment, v.ip.text,
    callHeaders brokerHost port v.task.path (String.ofList (v.task.body v.ip)) "" v.peerIp⟩

end Visit

/-- The bytes of an answer, in the reads that they arrive in until the connection ends. -/
structure Reading (bytes : List UInt8) where
  chunks : List (List UInt8)
  rest : List Received
  chunks_ne : ∀ c ∈ chunks, c ≠ []
  ended : Http.arrived rest = []
  flat : chunks.flatten = bytes
  fits : bytes.length ≤ Http.maxResponseBytes

/-- `read_response` on it. -/
def Reading.response {bytes : List UInt8} (rd : Reading bytes) : Except Http.HttpError Http.Response :=
  readResponse Http.maxResponseBytes (rd.chunks.map .data ++ rd.rest)

theorem isToken_empty : IsToken "" := ⟨.of_decide (by decide), rfl⟩

theorem method_alpha (t : BrokerTask) :
    t.method ≠ "" ∧ t.method ≠ "OPTIONS" ∧ ∀ c ∈ t.method.toList, c.isAlpha = true := by
  have hword : ∀ w ∈ ["GET", "POST"], w ≠ "" ∧ w ≠ "OPTIONS" ∧ w.toList.all Char.isAlpha = true := by
    decide
  have hmem : t.method ∈ ["GET", "POST"] := by
    cases t <;> simp [BrokerTask.method]
  obtain ⟨hne, hoptions, halpha⟩ := hword _ hmem
  exact ⟨hne, hoptions, List.all_eq_true.mp halpha⟩

theorem path_text {t : BrokerTask} (h : t.Spelled) :
    t.path ≠ "" ∧ ∀ c ∈ t.path.toList, isSpace c = false := by
  cases t with
  | register nid ent udpPort quiet =>
    rw [path_register]
    exact ⟨by decide, Http.forall_not_of_decide (by decide)⟩
  | leave nid ent =>
    rw [path_leave]
    exact ⟨by decide, Http.forall_not_of_decide (by decide)⟩
  | pollPeers nid epoch seq =>
    have hfront : ∀ c ∈ "/party/peers?network_id=".toList, isSpace c = false :=
      Http.forall_not_of_decide (by decide)
    rw [path_pollPeers]
    refine ⟨by simp, fun c hc => ?_⟩
    rw [String.toList_append] at hc
    exact (List.mem_append.mp hc).elim (hfront c) (h c)

section
variable {host : Host} {readFloat : List Char → Option UInt64}
  {encodeBlob : Moment → List UInt8 → List UInt8} {wsAccept : String → String} {ports : Ports} {app : App}
  {brokerHost : String} {port : UInt16} {v : Visit brokerHost port}

/-- The broker answers a task from the party service. -/
theorem handleClient_visit : ∃ resp : Broker.Response,
    (brokerRun host app v.task v.call).2 = some (.response resp) ∧ resp.status < 2 ^ 16 ∧
      handleClient host readFloat encodeBlob wsAccept ports app v.moment v.peerIp v.stream =
        ((brokerRun host app v.task v.call).1, replyBytes host resp) := by
  obtain ⟨hne, hoptions, halpha⟩ := method_alpha v.task
  obtain ⟨hpath, hspace⟩ := path_text v.carried.spelled
  have hread : readRequest v.stream = .request v.task.method v.task.path _ _ :=
    readRequest_shim hne halpha v.rest hpath hspace v.carried.oneLine isToken_empty v.carried.headFits
      v.carried.bodyFits v.chunks_ne v.flat
  obtain ⟨resp, hresp, hstatus⟩ := @brokerRun_response host app v.task v.call
  refine ⟨resp, hresp, hstatus, ?_⟩
  have hbody := @jsonBody_body readFloat v.task v.carried.spelled v.ip v.moment v.call.headers
  rw [handleClient_routed hread hoptions (dispatch_task rfl ?_ hresp)]
  · rfl
  · rw [WebRequest.party, partyPath_path, taskRequest_eq v.task v.call]
    exact congrArg (fun b => Request.mk v.moment v.task.path b v.call.headers) hbody

theorem Reading.response_of_eq {bytes : List UInt8} (rd : Reading bytes) {resp : Broker.Response}
    (hbytes : bytes = replyBytes host resp) (hstatus : resp.status < 2 ^ 16) :
    rd.response = .ok ⟨resp.status, toJson host resp.body⟩ := by
  subst hbytes
  exact readResponse_reply hstatus rd.chunks_ne rd.ended rd.flat rd.fits

end

section
variable {host : Host} (hfloat : ∀ bits, Scan.IsNumberText (host.floatText bits))

include hfloat

omit hfloat

theorem handlePartyPeers_of_none {app : App} {r : Request} (h : app.party.get? (peersNetwork r) = none) :
    handlePartyPeers host app r =
      (app, ok (.obj [("network_id", .string (peersNetwork r)), ("members", .array [])])) := by
  unfold peersNetwork at h
  simp only [handlePartyPeers, h]
  rfl

theorem handlePartyPeers_of_some {app : App} {r : Request} {net : OrdMap String PartyMember}
    (h : app.party.get? (peersNetwork r) = some net) : handlePartyPeers host app r =
      ({ app with
        party := app.party.insert (peersNetwork r)
          (liveMembers (refreshMember net (peersEntity r) r.moment.now) r.moment.now) },
        ok (.obj [("network_id", .string (peersNetwork r)), ("members", memberRows host
          (liveMembers (refreshMember net (peersEntity r) r.moment.now) r.moment.now) r.moment.order)])) := by
  unfold peersNetwork at h
  simp only [handlePartyPeers, h]
  rfl

end

section
variable {host : Host} {readFloat : List Char → Option UInt64}
  {encodeBlob : Moment → List UInt8 → List UInt8} {wsAccept : String → String} {ports : Ports} {app : App}

end

end GbfrLan.Party
