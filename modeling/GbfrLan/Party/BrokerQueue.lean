import GbfrLan.Broker.Registration

/-!
# The broker queue of the Party shim

Registrations, leaves and peer polls wait for the broker thread. A registration that
finds an earlier one of its key in the queue is merged into it, wherever that one stands.
The queue is compared with running every task in the order of dispatch; `effect` is what
a task does to the port registered under one key.
-/
namespace GbfrLan.Party
open Lib Json Broker

inductive BrokerTask where
  | register (networkId entity : String) (udpPort : UInt16) (quiet : Bool)
  | leave (networkId entity : String)
  | pollPeers (networkId : String) (epoch seq : ℕ)
  deriving DecidableEq, Repr

def brokerQueueCap : ℕ := 512

namespace BrokerTask

def isRegister : BrokerTask → Bool
  | .register .. => true
  | _ => false

def registers (nid ent : String) : BrokerTask → Bool
  | .register n e _ _ => n == nid && e == ent
  | _ => false

def leaves (nid ent : String) : BrokerTask → Bool
  | .leave n e => n == nid && e == ent
  | _ => false

/-- The newest registration wins. -/
def refresh (udpPort : UInt16) (quiet : Bool) : BrokerTask → BrokerTask
  | .register n e _ _ => .register n e udpPort quiet
  | t => t

/-- The key of a registration. -/
def key? : BrokerTask → Option (String × String)
  | .register n e _ _ => some (n, e)
  | _ => none

/-- The network id that a task names is not empty. -/
def Named : BrokerTask → Prop
  | .register n _ _ _ => n ≠ ""
  | _ => True

/-- The port registered under a key after the task. -/
def effect (nid ent : String) (v : Option UInt16) : BrokerTask → Option UInt16
  | .register n e p _ => if n = nid ∧ e = ent then some p else v
  | .leave n e => if n = nid ∧ e = ent then none else v
  | .pollPeers .. => v

end BrokerTask

/-- `dispatch_broker` with a live broker thread. -/
def dispatchBroker (q : List BrokerTask) (t : BrokerTask) : List BrokerTask :=
  match t with
  | .register nid ent udpPort quiet =>
      if q.any (BrokerTask.registers nid ent) then
        modifyFirst (BrokerTask.registers nid ent) (BrokerTask.refresh udpPort quiet) q
      else
        (if brokerQueueCap ≤ q.length then q.eraseP BrokerTask.isRegister else q) ++ [t]
  | t => q ++ [t]

/-- What a request of the shim carries besides its task. -/
structure Call where
  moment : Moment
  ip : String
  headers : Headers

def taskRequest (t : BrokerTask) (c : Call) : Request :=
  match t with
  | .register nid ent udpPort _ => ⟨c.moment, "/party/join", .obj [("network_id", .string nid),
      ("entity_id", .string ent), ("udp_port", number udpPort.toNat), ("ip", .string c.ip)],
      c.headers⟩
  | .leave nid ent => ⟨c.moment, "/party/leave",
      .obj [("network_id", .string nid), ("entity_id", .string ent)], c.headers⟩
  | .pollPeers nid _ _ => ⟨c.moment, "/party/peers?network_id=" ++ nid, .obj [], c.headers⟩

/-- `broker_run`: the request of the task at the broker. -/
def brokerRun (host : Host) (app : App) (t : BrokerTask) (c : Call) : App × Option Reply :=
  handleParty host app (taskRequest t c)

/-- The request was answered with status 200. -/
def accepted : Option Reply → Bool
  | some (.response r) => r.status == 200
  | _ => false

/-- The queue, the task the broker thread is running, and the broker. -/
structure BrokerLink where
  queue : List BrokerTask
  inFlight : Option BrokerTask
  app : App

inductive QueueEvent where
  | dispatch (t : BrokerTask)
  /-- Dispatch without a broker thread, once the caller has run what was queued. -/
  | runInline (t : BrokerTask) (c : Call)
  | pop
  | finish (c : Call)

namespace BrokerLink

section
variable (host : Host)

def step (s : BrokerLink) : QueueEvent → BrokerLink
  | .dispatch t => { s with queue := dispatchBroker s.queue t }
  | .runInline t c => { s with app := (brokerRun host s.app t c).1 }
  | .pop =>
      match s.inFlight, s.queue with
      | none, t :: q => { s with queue := q, inFlight := some t }
      | _, _ => s
  | .finish c =>
      match s.inFlight with
      | some t => { s with inFlight := none, app := (brokerRun host s.app t c).1 }
      | none => s

/-- A task runs at the broker within 30 seconds of `t₀`, and the request succeeds. -/
def Runs (t₀ : ℚ) (app : App) (t : BrokerTask) (c : Call) : Prop :=
  (t₀ ≤ c.moment.now ∧ c.moment.now ≤ t₀ + partySeenTtlSecs) ∧ t.Named ∧
    accepted (brokerRun host app t c).2 = true

/-- Requests succeed, no registration lapses, and the queue stays below its bound. -/
def Regular (t₀ : ℚ) (s : BrokerLink) : QueueEvent → Prop
  | .dispatch _ => s.queue.length < brokerQueueCap
  | .runInline t c => s.queue = [] ∧ s.inFlight = none ∧ Runs host t₀ s.app t c
  | .pop => True
  | .finish c => ∀ t ∈ s.inFlight, Runs host t₀ s.app t c

end

/-- A leave of the key waits behind its queued registration. -/
def leaveBehind (nid ent : String) : List BrokerTask → Bool
  | [] => false
  | t :: q =>
      if t.registers nid ent then q.any (BrokerTask.leaves nid ent) else leaveBehind nid ent q

/-- A registration is merged only into one that no leave of its key stands behind. -/
def NoLeaveBehind (s : BrokerLink) : QueueEvent → Prop
  | .dispatch (.register nid ent _ _) => leaveBehind nid ent s.queue = false
  | _ => True

end BrokerLink

/-- The tasks that were dispatched, in order. -/
def dispatched (es : List QueueEvent) : List BrokerTask :=
  es.filterMap fun e => match e with
    | .dispatch t => some t
    | .runInline t _ => some t
    | _ => none

/-- The port that the broker has for an entity, if it is registered. -/
def port (app : App) (nid ent : String) : Option UInt16 :=
  (app.row nid ent).map PartyMember.udpPort

/-- No row was seen last before `t₀`. -/
def Fresh (t₀ : ℚ) (app : App) : Prop :=
  ∀ nid ent m, app.row nid ent = some m → t₀ ≤ m.seen

theorem liveMembers_eq {net : OrdMap String PartyMember} {now : ℚ}
    (h : ∀ k m, net.get? k = some m → now - m.seen ≤ partySeenTtlSecs) :
    liveMembers net now = net := by
  apply OrdMap.ext_get?
  intro k
  unfold liveMembers
  rw [OrdMap.get?_filter]
  cases hm : net.get? k with
  | none => rfl
  | some m => rw [Option.filter_some, if_pos (by simpa using h k m hm)]

theorem row_eq (app : App) (nid ent : String) :
    ((app.party.get? nid).getD OrdMap.empty).get? ent = app.row nid ent := by
  unfold App.row
  cases app.party.get? nid <;> rfl

/-- The rows after one network was written. -/
theorem row_setNet (app : App) (nid : String) (net : OrdMap String PartyMember)
    (nid' ent' : String) :
    App.row { app with party := app.party.insert nid net } nid' ent' =
      if nid' = nid then net.get? ent' else app.row nid' ent' := by
  unfold App.row
  simp only [OrdMap.get?_insert]
  split_ifs <;> rfl

section
variable {host : Host} {app : App} {t₀ : ℚ} {c : Call}

theorem live_of_fresh (hfresh : Fresh t₀ app) (hhigh : c.moment.now ≤ t₀ + partySeenTtlSecs)
    (nid : String) :
    liveMembers ((app.party.get? nid).getD OrdMap.empty) c.moment.now =
      (app.party.get? nid).getD OrdMap.empty := by
  apply liveMembers_eq
  intro k m hm
  rw [row_eq] at hm
  have hseen := hfresh nid k m hm
  linarith

theorem jsonI64_port (udpPort : UInt16) (body : Value)
    (h : body.get "udp_port" = some (number udpPort.toNat)) : joinPort body = udpPort := by
  have hlt := udpPort.toNat_lt
  have hnat : (UInt64.ofNat udpPort.toNat).toNat = udpPort.toNat :=
    UInt64.toNat_ofNat_of_lt' (by simp only [UInt64.size]; omega)
  have hi : jsonI64 body "udp_port" = some (udpPort.toNat : ℤ) := by
    simp only [jsonI64, h, Option.bind_some, number, Value.asI64, Number.asI64, hnat]
    rw [if_pos (by omega)]
    rfl
  rw [joinPort, hi, Option.getD_some, UInt16.ofInt]
  have hmod : ((udpPort.toNat : ℤ) % 2 ^ 16).toNat = udpPort.toNat := by omega
  rw [hmod, UInt16.ofNat_toNat]

/-- A request without a counter in its body and without a query has none. -/
theorem requestSeq_eq_zero {r : Request} (hquery : (splitQuery r.path).2 = [])
    (hbody : ∀ key ∈ ["member_seq", "join_epoch", "join_seq"], r.body.get key = none) :
    requestSeq r = 0 := by
  have hnone : ∀ key ∈ ["member_seq", "join_epoch", "join_seq"],
      memberSeqAt r.body [] key = none := by
    intro key hkey
    have hq : queryValue key [] = none := by
      fin_cases hkey <;> decide
    simp [memberSeqAt, jsonI64, hbody key hkey, hq]
  simp only [requestSeq, memberSeqOf, hquery]
  rw [List.findSome?_eq_none_iff.mpr hnone]
  rfl

/-- What the broker reads in the request of a registration. -/
theorem registerRequest_fields (host : Host) (c : Call) {nid : String} (ent : String)
    (udpPort : UInt16) (quiet : Bool) (hne : nid ≠ "") :
    let r := taskRequest (.register nid ent udpPort quiet) c
    partyRoute r.path = some .join ∧ joinNetwork host r = nid ∧ joinEntity r = ent ∧
      requestSeq r = 0 ∧ joinPort r.body = udpPort := by
  intro r
  have hbody : r.body = .obj [("network_id", .string nid), ("entity_id", .string ent),
    ("udp_port", number udpPort.toNat), ("ip", .string c.ip)] := rfl
  refine ⟨?_, ?_, ?_, ?_, ?_⟩
  · show partyRoute "/party/join" = some .join
    decide
  · have hnid : jsonStr r.body "network_id" = some nid := by
      simp [hbody, Value.obj, jsonStr, Value.asStr]
    have hkeep : (fun s : String => !s.isEmpty) nid = true := by simpa using hne
    rw [joinNetwork, hnid, Option.some_or, Option.filter_some, if_pos hkeep]
    rfl
  · simp [joinEntity, hbody, Value.obj, jsonStr, Value.asStr]
  · apply requestSeq_eq_zero
    · show (splitQuery "/party/join").2 = []
      decide
    · intro key hkey
      fin_cases hkey <;> simp [hbody, Value.obj]
  · apply jsonI64_port
    simp [hbody, Value.obj]

theorem joinRow_port (row : Option PartyMember) (eid ip : String) (udpPort : UInt16) (now : ℚ) :
    (joinRow row eid ip udpPort now 0).udpPort = udpPort := by
  cases row with
  | none => rfl
  | some m => simp [joinRow]

/-- An accepted join was not one member too many. -/
theorem not_refused_of_accepted {r : Request}
    (h : accepted (some (handlePartyJoin host app r).2) = true) :
    (!(joinNet host app r).contains (joinEntity r) &&
      decide (configuredMeshCap app ≤ (joinNet host app r).size)) = false := by
  by_contra hfull
  have hcond := Bool.not_eq_false _ ▸ hfull
  unfold joinNet at hcond
  unfold handlePartyJoin at h
  simp only [hcond, if_true] at h
  revert h
  decide

/-- A successful registration puts its port under its key. -/
theorem brokerRun_register (hfresh : Fresh t₀ app) {nid ent : String} {udpPort : UInt16}
    {quiet : Bool} (hruns : BrokerLink.Runs host t₀ app (.register nid ent udpPort quiet) c) :
    Fresh t₀ (brokerRun host app (.register nid ent udpPort quiet) c).1 ∧
      ∀ nid' ent', port (brokerRun host app (.register nid ent udpPort quiet) c).1 nid' ent' =
        (BrokerTask.register nid ent udpPort quiet).effect nid' ent' (port app nid' ent') := by
  obtain ⟨⟨hlow, hhigh⟩, hnamed, hacc⟩ := hruns
  obtain ⟨hroute, hnet, hent, hseq, hport⟩ :=
    registerRequest_fields host c ent udpPort quiet hnamed
  set r := taskRequest (.register nid ent udpPort quiet) c with hr
  have hnow : r.moment = c.moment := rfl
  have hrun : brokerRun host app (.register nid ent udpPort quiet) c =
      ((handlePartyJoin host app r).1, some (handlePartyJoin host app r).2) := by
    simp only [brokerRun, handleParty, ← hr, hroute]
  have hlive : joinNet host app r = (app.party.get? nid).getD OrdMap.empty := by
    rw [joinNet, hnet, hnow]
    exact live_of_fresh hfresh hhigh nid
  rw [hrun] at hacc ⊢
  have hcap := not_refused_of_accepted hacc
  have hrow : ∀ nid' ent', App.row (handlePartyJoin host app r).1 nid' ent' =
      if nid' = nid ∧ ent' = ent then some (joinRow (app.row nid ent) ent
        (joinIp r.body r.headers) udpPort c.moment.now 0) else app.row nid' ent' := by
    intro nid' ent'
    rw [handlePartyJoin_app hcap, hnet, hent, hseq, hport, hlive, row_setNet, row_eq, hnow,
      OrdMap.get?_insert]
    by_cases hn : nid' = nid
    · subst hn
      by_cases he : ent' = ent
      · simp [he]
      · simp [he, row_eq]
    · simp [hn]
  constructor
  · intro nid' ent' m hm
    rw [hrow] at hm
    split_ifs at hm
    · cases hm
      rw [joinRow_seen]
      exact hlow
    · exact hfresh nid' ent' m hm
  · intro nid' ent'
    simp only [port, hrow, BrokerTask.effect]
    by_cases heq : nid' = nid ∧ ent' = ent
    · rw [if_pos heq, if_pos ⟨heq.1.symm, heq.2.symm⟩, Option.map_some, joinRow_port]
    · rw [if_neg heq, if_neg fun h => heq ⟨h.1.symm, h.2.symm⟩]

/-- A leave removes the row under its key. -/
theorem brokerRun_leave (hfresh : Fresh t₀ app) (nid ent : String) (c : Call) :
    Fresh t₀ (brokerRun host app (.leave nid ent) c).1 ∧
      ∀ nid' ent', port (brokerRun host app (.leave nid ent) c).1 nid' ent' =
        (BrokerTask.leave nid ent).effect nid' ent' (port app nid' ent') := by
  set r := taskRequest (.leave nid ent) c with hr
  have hbody : r.body = .obj [("network_id", .string nid), ("entity_id", .string ent)] := rfl
  have hroute : partyRoute r.path = some .leave := by
    show partyRoute "/party/leave" = some .leave
    decide
  have hnet : leaveNetwork r = nid := by
    simp [leaveNetwork, hbody, Value.obj, jsonStr, Value.asStr]
  have hent : leaveEntity r = ent := by
    simp [leaveEntity, hbody, Value.obj, jsonStr, Value.asStr]
  have hseq : requestSeq r = 0 := by
    apply requestSeq_eq_zero
    · show (splitQuery "/party/leave").2 = []
      decide
    · intro key hkey
      fin_cases hkey <;> simp [hbody, Value.obj]
  have hrow : ∀ nid' ent', App.row (brokerRun host app (.leave nid ent) c).1 nid' ent' =
      if nid' = nid ∧ ent' = ent then none else app.row nid' ent' := by
    intro nid' ent'
    have hrun : (brokerRun host app (.leave nid ent) c).1 = (handlePartyLeave app r).1 := by
      simp only [brokerRun, handleParty, ← hr, hroute]
    rw [hrun, handlePartyLeave]
    simp only [hnet, hent, hseq]
    cases hget : app.party.get? nid with
    | none =>
      by_cases heq : nid' = nid ∧ ent' = ent
      · rw [if_pos heq, heq.1]
        simp [App.row, hget]
      · rw [if_neg heq]
    | some net =>
      simp only [ne_eq, not_true, false_and, if_false, row_setNet, OrdMap.get?_erase]
      by_cases hn : nid' = nid
      · subst hn
        by_cases he : ent' = ent
        · simp [he]
        · simp [he, App.row, hget]
      · simp [hn]
  constructor
  · intro nid' ent' m hm
    rw [hrow] at hm
    split_ifs at hm
    exact hfresh nid' ent' m hm
  · intro nid' ent'
    simp only [port, hrow, BrokerTask.effect]
    by_cases heq : nid' = nid ∧ ent' = ent
    · rw [if_pos heq, if_pos ⟨heq.1.symm, heq.2.symm⟩]
      rfl
    · rw [if_neg heq, if_neg fun h => heq ⟨h.1.symm, h.2.symm⟩]

/-- The path of a poll leads to the peer list, whatever the network id. -/
theorem partyRoute_pollPeers (nid : String) :
    partyRoute ("/party/peers?network_id=" ++ nid) = some .peers := by
  have hlist : ("/party/peers?network_id=" ++ nid).toList =
      "/party/peers".toList ++ '?' :: ("network_id=".toList ++ nid.toList) := by
    rw [String.toList_append]
    rfl
  have hpath : (splitQuery ("/party/peers?network_id=" ++ nid)).1 = "party/peers".toList := by
    rw [splitQuery, hlist]
    rfl
  rw [partyRoute, hpath]
  decide

/-- The peer list refreshes a row and sweeps, but no row is changed otherwise or lapses. -/
theorem handlePartyPeers_port (hfresh : Fresh t₀ app) {r : Request} (hlow : t₀ ≤ r.moment.now)
    (hhigh : r.moment.now ≤ t₀ + partySeenTtlSecs) :
    Fresh t₀ (handlePartyPeers host app r).1 ∧
      ∀ nid ent, port (handlePartyPeers host app r).1 nid ent = port app nid ent := by
  unfold handlePartyPeers
  simp only
  set nid := ((jsonStr r.body "network_id").or (queryStr "network_id" (splitQuery r.path).2)).getD ""
  set eid := ((jsonStr r.body "entity_id").or (queryStr "entity_id" (splitQuery r.path).2)).getD ""
  cases hget : app.party.get? nid with
  | none => exact ⟨hfresh, fun _ _ => rfl⟩
  | some net =>
    simp only
    set net₁ := refreshMember net eid r.moment.now with hnet₁
    have hrow : ∀ k, app.row nid k = net.get? k := by
      intro k
      simp [App.row, hget]
    -- The refreshed map: same ports, and still nothing older than `t₀`.
    have hkeep : ∀ k, (net₁.get? k).map PartyMember.udpPort = (net.get? k).map PartyMember.udpPort ∧
        ∀ m, net₁.get? k = some m → t₀ ≤ m.seen := by
      intro k
      have hold : ∀ m, net.get? k = some m → t₀ ≤ m.seen := by
        intro m hm
        exact hfresh nid k m ((hrow k).trans hm)
      cases hf : (net.get? eid).filter fun _ => !eid.isEmpty with
      | none =>
        rw [hnet₁, refreshMember, hf]
        exact ⟨rfl, hold⟩
      | some m =>
        have hm := (Option.filter_eq_some_iff.mp hf).1
        rw [hnet₁, refreshMember, hf]
        simp only [OrdMap.get?_insert]
        by_cases hk : k = eid
        · subst hk
          simp only [if_true, hm, Option.map_some, true_and, Option.some.injEq]
          rintro m' rfl
          exact hlow
        · rw [if_neg hk]
          exact ⟨rfl, hold⟩
    have hlive : liveMembers net₁ r.moment.now = net₁ := by
      apply liveMembers_eq
      intro k m hm
      have hseen := (hkeep k).2 m hm
      linarith
    rw [hlive]
    constructor
    · intro nid' ent' m hm
      rw [row_setNet] at hm
      split_ifs at hm
      · exact (hkeep ent').2 m hm
      · exact hfresh nid' ent' m hm
    · intro nid' ent'
      rw [port, row_setNet]
      split_ifs with hn
      · rw [(hkeep ent').1, hn, port, hrow]
      · rfl

/-- Every task that succeeds has its effect on the registered ports. -/
theorem brokerRun_port (hfresh : Fresh t₀ app) {t : BrokerTask}
    (hruns : BrokerLink.Runs host t₀ app t c) :
    Fresh t₀ (brokerRun host app t c).1 ∧
      ∀ nid ent, port (brokerRun host app t c).1 nid ent = t.effect nid ent (port app nid ent) := by
  cases t with
  | register nid ent udpPort quiet => exact brokerRun_register hfresh hruns
  | leave nid ent => exact brokerRun_leave hfresh nid ent c
  | pollPeers nid epoch seq =>
    have hrun : (brokerRun host app (.pollPeers nid epoch seq) c).1 =
        (handlePartyPeers host app (taskRequest (.pollPeers nid epoch seq) c)).1 := by
      have hroute := partyRoute_pollPeers nid
      simp only [brokerRun, handleParty, taskRequest, hroute]
    rw [hrun]
    exact handlePartyPeers_port hfresh hruns.1.1 hruns.1.2

end

/-- The tasks in a list, run one after the other, as they act on one key. -/
def effects (nid ent : String) (v : Option UInt16) (ts : List BrokerTask) : Option UInt16 :=
  ts.foldl (fun v t => t.effect nid ent v) v

theorem effects_append (nid ent : String) (v : Option UInt16) (ts us : List BrokerTask) :
    effects nid ent v (ts ++ us) = effects nid ent (effects nid ent v ts) us :=
  List.foldl_append

/-- Tasks that neither register nor leave a key do nothing to it. -/
theorem effects_idle {nid ent : String} {ts : List BrokerTask}
    (hreg : ∀ t ∈ ts, t.key? ≠ some (nid, ent))
    (hleave : ∀ t ∈ ts, t.leaves nid ent = false) (v : Option UInt16) :
    effects nid ent v ts = v := by
  induction ts with
  | nil => rfl
  | cons t ts ih =>
    have hone : t.effect nid ent v = v := by
      cases t with
      | register n e p q =>
        have hk := hreg _ (List.mem_cons_self ..)
        simp only [BrokerTask.key?, ne_eq, Option.some.injEq, Prod.mk.injEq] at hk
        simp [BrokerTask.effect, hk]
      | leave n e =>
        have hl := hleave _ (List.mem_cons_self ..)
        have hne : ¬ (n = nid ∧ e = ent) := by
          simpa [BrokerTask.leaves] using hl
        simp [BrokerTask.effect, hne]
      | pollPeers n e s => rfl
    show effects nid ent (t.effect nid ent v) ts = v
    rw [hone]
    exact ih (fun t' h => hreg t' (List.mem_cons_of_mem _ h))
      fun t' h => hleave t' (List.mem_cons_of_mem _ h)

/-- Merging into the queued registration has the effect of one more task, as long as no
leave of the key stands behind it and the queue has one registration of a key. -/
theorem effects_refresh {nid ent : String} (udpPort : UInt16) (quiet : Bool)
    {q : List BrokerTask} (hany : q.any (BrokerTask.registers nid ent) = true)
    (hbehind : BrokerLink.leaveBehind nid ent q = false)
    (hsingle : (q.filterMap BrokerTask.key?).Nodup) (nid' ent' : String) (v : Option UInt16) :
    effects nid' ent' v (modifyFirst (BrokerTask.registers nid ent)
        (BrokerTask.refresh udpPort quiet) q) =
      (BrokerTask.register nid ent udpPort quiet).effect nid' ent' (effects nid' ent' v q) := by
  induction q generalizing v with
  | nil => cases hany
  | cons t q ih =>
    by_cases ht : t.registers nid ent = true
    · cases t with
      | leave n e => cases ht
      | pollPeers n e s => cases ht
      | register n e p qt =>
        obtain ⟨rfl, rfl⟩ : n = nid ∧ e = ent := by simpa [BrokerTask.registers] using ht
        have hnl : ∀ t ∈ q, t.leaves n e = false := by
          rw [BrokerLink.leaveBehind, if_pos ht] at hbehind
          simpa using hbehind
        have hnr : ∀ t ∈ q, t.key? ≠ some (n, e) := by
          intro t htq hk
          have hcons : ((n, e) :: q.filterMap BrokerTask.key?).Nodup := hsingle
          exact (List.nodup_cons.mp hcons).1 (List.mem_filterMap.mpr ⟨t, htq, hk⟩)
        rw [modifyFirst, if_pos ht]
        show effects nid' ent' ((BrokerTask.register n e udpPort quiet).effect nid' ent' v) q =
          (BrokerTask.register n e udpPort quiet).effect nid' ent'
            (effects nid' ent' ((BrokerTask.register n e p qt).effect nid' ent' v) q)
        by_cases heq : n = nid' ∧ e = ent'
        · obtain ⟨rfl, rfl⟩ := heq
          simp only [BrokerTask.effect, and_self, if_true]
          exact effects_idle hnr hnl _
        · simp only [BrokerTask.effect, heq, if_false]
    · have hrest : q.any (BrokerTask.registers nid ent) = true := by
        simpa [ht] using hany
      have hbehind' : BrokerLink.leaveBehind nid ent q = false := by
        rwa [BrokerLink.leaveBehind, if_neg ht] at hbehind
      have hsingle' : (q.filterMap BrokerTask.key?).Nodup := by
        refine hsingle.sublist ?_
        exact (List.sublist_cons_self t q).filterMap _
      rw [modifyFirst, if_neg ht]
      exact ih hrest hbehind' hsingle' (t.effect nid' ent' v)

/-- The queue keeps one registration of a key. -/
theorem dispatchBroker_single {q : List BrokerTask} (t : BrokerTask)
    (h : (q.filterMap BrokerTask.key?).Nodup) :
    ((dispatchBroker q t).filterMap BrokerTask.key?).Nodup := by
  have hother : ∀ t : BrokerTask, t.key? = none →
      ((q ++ [t]).filterMap BrokerTask.key?).Nodup := by
    intro t ht
    rw [List.filterMap_append, List.filterMap_cons_none ht, List.filterMap_nil, List.append_nil]
    exact h
  cases t with
  | leave n e => exact hother _ rfl
  | pollPeers n e s => exact hother _ rfl
  | register n e p qt =>
    unfold dispatchBroker
    simp only
    by_cases hany : q.any (BrokerTask.registers n e) = true
    · rw [if_pos hany]
      have hkeys : ∀ q : List BrokerTask,
          (modifyFirst (BrokerTask.registers n e) (BrokerTask.refresh p qt) q).filterMap
            BrokerTask.key? = q.filterMap BrokerTask.key? := by
        intro q
        induction q with
        | nil => rfl
        | cons t q ih =>
          unfold modifyFirst
          split_ifs
          · cases t <;> rfl
          · rw [List.filterMap_cons, ih, ← List.filterMap_cons]
      rw [hkeys]
      exact h
    · rw [if_neg hany, List.filterMap_append]
      apply List.Nodup.append
      · split_ifs
        · exact h.sublist (List.eraseP_sublist.filterMap _)
        · exact h
      · simp [BrokerTask.key?]
      · intro k hk hk'
        have hkey : k = (n, e) := by simpa [BrokerTask.key?] using hk'
        subst hkey
        have hsub : (n, e) ∈ q.filterMap BrokerTask.key? := by
          split_ifs at hk
          · exact (List.eraseP_sublist.filterMap _).subset hk
          · exact hk
        obtain ⟨t, ht, hkt⟩ := List.mem_filterMap.mp hsub
        apply hany
        refine List.any_eq_true.mpr ⟨t, ht, ?_⟩
        cases t with
        | register n' e' p' q' => simpa [BrokerTask.key?, BrokerTask.registers] using hkt
        | leave n' e' => cases hkt
        | pollPeers n' e' s' => cases hkt

/-- Below the bound, a dispatch has the effect of one more task. -/
theorem effects_dispatchBroker {q : List BrokerTask} {t : BrokerTask}
    (hcap : q.length < brokerQueueCap) (hsingle : (q.filterMap BrokerTask.key?).Nodup)
    (hbehind : ∀ nid ent p qt, t = .register nid ent p qt →
      BrokerLink.leaveBehind nid ent q = false) (nid ent : String) (v : Option UInt16) :
    effects nid ent v (dispatchBroker q t) = t.effect nid ent (effects nid ent v q) := by
  cases t with
  | leave n e => exact effects_append nid ent v q _
  | pollPeers n e s => exact effects_append nid ent v q _
  | register n e p qt =>
    unfold dispatchBroker
    simp only
    by_cases hany : q.any (BrokerTask.registers n e) = true
    · rw [if_pos hany]
      exact effects_refresh p qt hany (hbehind n e p qt rfl) hsingle nid ent v
    · rw [if_neg hany, if_neg (by omega)]
      exact effects_append nid ent v q _

namespace BrokerLink

/-- What the broker holds, with what still waits, is what the dispatched tasks make of
the start. -/
structure InOrder (t₀ : ℚ) (app₀ : App) (done : List BrokerTask) (s : BrokerLink) : Prop where
  fresh : Fresh t₀ s.app
  single : (s.queue.filterMap BrokerTask.key?).Nodup
  ports : ∀ nid ent, effects nid ent (port s.app nid ent) (s.inFlight.toList ++ s.queue) =
    effects nid ent (port app₀ nid ent) done

variable {host : Host} {t₀ : ℚ} {app₀ : App} {done : List BrokerTask} {s : BrokerLink}

theorem InOrder.step (h : InOrder t₀ app₀ done s) {e : QueueEvent} (hreg : Regular host t₀ s e)
    (hleave : s.NoLeaveBehind e) : InOrder t₀ app₀ (done ++ dispatched [e]) (s.step host e) := by
  cases e with
  | dispatch t =>
    refine ⟨h.fresh, dispatchBroker_single t h.single, ?_⟩
    intro nid ent
    have hbehind : ∀ n e p qt, t = .register n e p qt → leaveBehind n e s.queue = false := by
      rintro n e p qt rfl
      exact hleave
    show effects nid ent (port s.app nid ent) (s.inFlight.toList ++ dispatchBroker s.queue t) =
      effects nid ent (port app₀ nid ent) (done ++ [t])
    rw [effects_append, effects_dispatchBroker hreg h.single hbehind, ← effects_append, h.ports,
      effects_append]
    rfl
  | runInline t c =>
    obtain ⟨hq, hf, hruns⟩ := hreg
    obtain ⟨hfresh, hport⟩ := brokerRun_port h.fresh hruns
    refine ⟨hfresh, h.single, ?_⟩
    intro nid ent
    have hports := h.ports nid ent
    rw [hq, hf] at hports
    show effects nid ent (port (brokerRun host s.app t c).1 nid ent)
      (s.inFlight.toList ++ s.queue) = effects nid ent _ (done ++ [t])
    rw [hq, hf, hport, effects_append nid ent _ done, ← hports]
    rfl
  | pop =>
    have hdone : done ++ dispatched [.pop] = done := List.append_nil done
    rw [hdone]
    unfold BrokerLink.step
    cases hf : s.inFlight with
    | some t => exact h
    | none =>
      cases hq : s.queue with
      | nil => exact h
      | cons t q =>
        refine ⟨h.fresh, ?_, ?_⟩
        · have hsingle := h.single
          rw [hq] at hsingle
          exact hsingle.sublist ((List.sublist_cons_self t q).filterMap _)
        · intro nid ent
          have hports := h.ports nid ent
          rw [hf, hq] at hports
          exact hports
  | finish c =>
    have hdone : done ++ dispatched [.finish c] = done := List.append_nil done
    rw [hdone]
    unfold BrokerLink.step
    cases hf : s.inFlight with
    | none =>
      simp only
      exact h
    | some t =>
      obtain ⟨hfresh, hport⟩ := brokerRun_port h.fresh (hreg t hf)
      refine ⟨hfresh, h.single, ?_⟩
      intro nid ent
      have hports := h.ports nid ent
      rw [hf] at hports
      show effects nid ent (port (brokerRun host s.app t c).1 nid ent) s.queue = _
      rw [hport]
      exact hports

theorem InOrder.run {es : List QueueEvent} (h : InOrder t₀ app₀ done s)
    (hrun : Along (BrokerLink.step host) (fun s e => Regular host t₀ s e ∧ s.NoLeaveBehind e) s es) :
    InOrder t₀ app₀ (done ++ dispatched es) (Lib.run (BrokerLink.step host) s es) := by
  induction es generalizing s done with
  | nil =>
    have hdone : done ++ dispatched [] = done := List.append_nil done
    rw [hdone]
    exact h
  | cons e es ih =>
    obtain ⟨⟨hreg, hleave⟩, hrest⟩ := hrun
    have hstep := ih (h.step hreg hleave) hrest
    have hsplit : done ++ dispatched (e :: es) = done ++ dispatched [e] ++ dispatched es := by
      rw [List.append_assoc, dispatched, dispatched, dispatched, ← List.filterMap_append]
      rfl
    rw [hsplit]
    exact hstep

end BrokerLink

instance decidableNamed : ∀ t : BrokerTask, Decidable t.Named
  | .register n _ _ _ => inferInstanceAs (Decidable (n ≠ ""))
  | .leave .. => isTrue trivial
  | .pollPeers .. => isTrue trivial

instance decidableRuns (host : Host) (t₀ : ℚ) (app : App) (t : BrokerTask) (c : Call) :
    Decidable (BrokerLink.Runs host t₀ app t c) :=
  inferInstanceAs (Decidable ((t₀ ≤ c.moment.now ∧ c.moment.now ≤ t₀ + partySeenTtlSecs) ∧
    t.Named ∧ accepted (brokerRun host app t c).2 = true))

instance decidableRegular (host : Host) (t₀ : ℚ) (s : BrokerLink) :
    ∀ e, Decidable (BrokerLink.Regular host t₀ s e)
  | .dispatch _ => inferInstanceAs (Decidable (s.queue.length < brokerQueueCap))
  | .runInline t c => inferInstanceAs
      (Decidable (s.queue = [] ∧ s.inFlight = none ∧ BrokerLink.Runs host t₀ s.app t c))
  | .pop => isTrue trivial
  | .finish c => inferInstanceAs (Decidable (∀ t ∈ s.inFlight, BrokerLink.Runs host t₀ s.app t c))

instance decidableNoLeaveBehind (s : BrokerLink) : ∀ e, Decidable (s.NoLeaveBehind e)
  | .dispatch (.register nid ent _ _) =>
      inferInstanceAs (Decidable (BrokerLink.leaveBehind nid ent s.queue = false))
  | .dispatch (.leave ..) => isTrue trivial
  | .dispatch (.pollPeers ..) => isTrue trivial
  | .runInline .. => isTrue trivial
  | .pop => isTrue trivial
  | .finish _ => isTrue trivial

end GbfrLan.Party
