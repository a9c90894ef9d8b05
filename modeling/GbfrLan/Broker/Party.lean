import GbfrLan.Broker.Playfab

/-!
# The party requests of the broker

Registration of the peers of a network: join, leave and the peer list. A registration
lives for 30 seconds after it was last seen; the clock is exact here.
-/
namespace GbfrLan.Broker
open Lib Json

def partySeenTtlSecs : ℚ := 30

inductive PartyRoute where
  | join
  | leave
  | peers
  | msg
  deriving DecidableEq, Repr

/-- The path without its leading slashes, and the query string. -/
def splitQuery (path : String) : List Char × List Char :=
  match Text.splitOnce '?' path.toList with
  | some (a, b) => (a.dropWhile (· = '/'), b)
  | none => (path.toList.dropWhile (· = '/'), [])

def partyRoute (path : String) : Option PartyRoute :=
  let p := (splitQuery path).1
  if p = "party/join".toList ∨ p = "party/create".toList then some .join
  else if p = "party/leave".toList then some .leave
  else if p = "party/peers".toList then some .peers
  else if p = "party/msg".toList then some .msg
  else none

/-- The first value of a key in a query string. -/
def queryValue (key : String) (qs : List Char) : Option (List Char) :=
  (qs.splitOn '&').findSome? (Text.stripPrefix (key.toList ++ ['=']))

def queryStr (key : String) (qs : List Char) : Option String :=
  (queryValue key qs).map String.ofList

/-- The counter under one key, in the body or in the query. -/
def memberSeqAt (body : Value) (qs : List Char) (key : String) : Option ℕ :=
  match (jsonI64 body key).filter fun n => decide (0 < n) with
  | some n => some n.toNat
  | none => ((queryValue key qs).bind parseU64).filter fun v => decide (0 < v)

/-- The client's registration counter; 0 if it sent none. -/
def memberSeqOf (body : Value) (qs : List Char) : ℕ :=
  (["member_seq", "join_epoch", "join_seq"].findSome? (memberSeqAt body qs)).getD 0

/-- The white space that `str::trim` removes. -/
def isSpace (c : Char) : Bool :=
  let n := c.toNat
  (decide (9 ≤ n) && decide (n ≤ 13)) || n == 0x20 || n == 0x85 || n == 0xa0 || n == 0x1680 ||
    (decide (0x2000 ≤ n) && decide (n ≤ 0x200a)) || n == 0x2028 || n == 0x2029 || n == 0x202f ||
    n == 0x205f || n == 0x3000

def isLoopbackIp (s : String) : Bool :=
  let t := ((s.toList.dropWhile isSpace).reverse.dropWhile isSpace).reverse
  t == "127.0.0.1".toList || t == "::1".toList || t == "0.0.0.0".toList ||
    "127.".toList.isPrefixOf t

/-- The address a join registers. -/
def joinIp (body : Value) (headers : Headers) : String :=
  let ip := ((jsonStr body "ip").or ((headers.get? "x-forwarded-for").or
    (headers.get? "x-peer-ip"))).getD "127.0.0.1"
  if isLoopbackIp ip then ((headers.get? "x-peer-ip").filter fun p => !isLoopbackIp p).getD ip
  else ip

/-- The cast of a signed number to 16 bits. -/
def joinPort (body : Value) : UInt16 := UInt16.ofInt ((jsonI64 body "udp_port").getD 0)

/-- The registrations that are still live. -/
def liveMembers (net : OrdMap String PartyMember) (now : ℚ) : OrdMap String PartyMember :=
  net.filter fun _ m => decide (now - m.seen ≤ partySeenTtlSecs)

/-- A peer that polls is alive, so it is refreshed before the sweep. -/
def refreshMember (net : OrdMap String PartyMember) (eid : String) (now : ℚ) :
    OrdMap String PartyMember :=
  match (net.get? eid).filter fun _ => !eid.isEmpty with
  | some m => net.insert eid { m with seen := now }
  | none => net

/-- The row after a join of its entity, from the row before it. -/
def joinRow (row : Option PartyMember) (eid ip : String) (port : UInt16) (now : ℚ) (seq : ℕ) :
    PartyMember :=
  match row with
  | none => ⟨eid, ip, port, now, seq⟩
  | some m =>
      if seq ≠ 0 ∧ seq < m.memberSeq then { m with seen := now }
      else { m with ip := ip, udpPort := port, seen := now, memberSeq := max m.memberSeq seq }

section
variable (host : Host)

/-- The network of a join; one without an id gets a new one. -/
def joinNetwork (r : Request) : String :=
  (((jsonStr r.body "network_id").or (queryStr "network_id" (splitQuery r.path).2)).filter
    fun s => !s.isEmpty).getD ("net-" ++ String.ofList ((host.sha1Hex r.moment.nowText).toList.take 8))

def joinEntity (r : Request) : String := (jsonStr r.body "entity_id").getD "anon"

def requestSeq (r : Request) : ℕ := memberSeqOf r.body (splitQuery r.path).2

def memberRow (m : PartyMember) : Value :=
  .obj [("entity_id", .string m.entityId), ("ip", .string m.ip),
    ("udp_port", number m.udpPort.toNat), ("seen", .number (.float (host.clockBits m.seen))),
    ("member_seq", number m.memberSeq)]

/-- The members of a network as a reply lists them. -/
def memberRows (net : OrdMap String PartyMember) (order : List String) : Value :=
  .array ((net.iter order).map (memberRow host))

def handlePartyJoin (app : App) (r : Request) : App × Reply :=
  let nid := joinNetwork host r
  let eid := joinEntity r
  let net := liveMembers ((app.party.get? nid).getD OrdMap.empty) r.moment.now
  if !net.contains eid && decide (configuredMeshCap app ≤ net.size) then
    ({ app with party := app.party.insert nid net },
      err "PartyMemberLimitExceeded" "Party mesh is full")
  else
    let row := joinRow (net.get? eid) eid (joinIp r.body r.headers) (joinPort r.body) r.moment.now
      (requestSeq r)
    let net := net.insert eid row
    ({ app with party := app.party.insert nid net },
      ok (.obj [("network_id", .string nid), ("members", memberRows host net r.moment.order)]))

def leaveNetwork (r : Request) : String := (jsonStr r.body "network_id").getD ""

def leaveEntity (r : Request) : String := (jsonStr r.body "entity_id").getD ""

def handlePartyLeave (app : App) (r : Request) : App × Reply :=
  let nid := leaveNetwork r
  let eid := leaveEntity r
  let seq := requestSeq r
  match app.party.get? nid with
  | none => (app, ok (.obj []))
  | some net =>
      let have' := ((net.get? eid).map PartyMember.memberSeq).getD 0
      if seq ≠ 0 ∧ seq < have' then (app, ok (.obj []))
      else ({ app with party := app.party.insert nid (net.erase eid) }, ok (.obj []))

def handlePartyPeers (app : App) (r : Request) : App × Reply :=
  let qs := (splitQuery r.path).2
  let nid := ((jsonStr r.body "network_id").or (queryStr "network_id" qs)).getD ""
  let eid := ((jsonStr r.body "entity_id").or (queryStr "entity_id" qs)).getD ""
  match app.party.get? nid with
  | none => (app, ok (.obj [("network_id", .string nid), ("members", .array [])]))
  | some net =>
      let net := liveMembers (refreshMember net eid r.moment.now) r.moment.now
      ({ app with party := app.party.insert nid net },
        ok (.obj [("network_id", .string nid), ("members", memberRows host net r.moment.order)]))

/-- `handle_party`; no reply when the path is not one of its own. -/
def handleParty (app : App) (r : Request) : App × Option Reply :=
  match partyRoute r.path with
  | some .join =>
      let (app, reply) := handlePartyJoin host app r
      (app, some reply)
  | some .leave =>
      let (app, reply) := handlePartyLeave app r
      (app, some reply)
  | some .peers =>
      let (app, reply) := handlePartyPeers host app r
      (app, some reply)
  | some .msg => (app, some (ok (.obj [])))
  | none => (app, none)

end

/-- The registration of an entity on a network. -/
def App.row (app : App) (nid eid : String) : Option PartyMember :=
  (app.party.get? nid).bind fun net => net.get? eid

end GbfrLan.Broker
