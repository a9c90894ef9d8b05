import GbfrLan.Party.TaskWire

/-!
# Discovery

A title registers itself and asks who else is registered. While nobody joins or leaves in the name of an
entity, and until its registration lapses, every poll of its network finds it under the address that it
registered, whatever the broker serves in between; and a box that applies the answer sends there.
-/
namespace GbfrLan.Party
open Lib Json Broker

/-! ### A registration in a run -/

/-- A join or a leave of this entity on this network. -/
def Edits (host : Host) (nid eid : String) (r : Request) : Prop :=
  partyRoute r.path = some .join ∧ joinNetwork host r = nid ∧ joinEntity r = eid ∨
    partyRoute r.path = some .leave ∧ leaveNetwork r = nid ∧ leaveEntity r = eid

/-- The peer is registered on the network, and was seen at `t₀` or later. -/
def RegisteredAt (t₀ : ℚ) (nid : String) (e : PeerEntry) (app : App) : Prop :=
  ∃ m, app.row nid e.entity = some m ∧ t₀ ≤ m.seen ∧ rowPeer m = e

/-- The address under which the broker registers a title. -/
def registeredIp (c : Call) : String :=
  if isLoopbackIp c.ip then ((c.headers.get? "x-peer-ip").filter fun p => !isLoopbackIp p).getD c.ip
  else c.ip

section
variable {host : Host} {app : App} {t₀ : ℚ} {nid : String} {e : PeerEntry}

theorem rowPeer_joinRow {row : Option PartyMember} {eid : String} (h : ∀ m, row = some m → m.entityId = eid)
    (ip : String) (port : UInt16) (now : ℚ) : rowPeer (joinRow row eid ip port now 0) = ⟨eid, ip, port⟩ := by
  cases row with
  | none => rfl
  | some m => simp [joinRow, rowPeer, h m rfl]

/-- A registration that succeeds is found in the registry. -/
theorem registeredAt_register (happ : app.PartyOk) {ent : String} {udpPort : UInt16} {quiet : Bool} {c : Call} (hnamed : nid ≠ "")
    (hacc : accepted (brokerRun host app (.register nid ent udpPort quiet) c).2 = true) :
    RegisteredAt c.moment.now nid ⟨ent, registeredIp c, udpPort⟩
      (brokerRun host app (.register nid ent udpPort quiet) c).1 := by
  obtain ⟨hroute, hnet, hent, hseq, hport⟩ := registerRequest_fields host c ent udpPort quiet hnamed
  have hip : joinIp (taskRequest (.register nid ent udpPort quiet) c).body
      (taskRequest (.register nid ent udpPort quiet) c).headers = registeredIp c := by
    have hget : jsonStr (taskRequest (.register nid ent udpPort quiet) c).body "ip" = some c.ip := by
      simp [taskRequest, Value.obj, jsonStr, Value.asStr]
    simp only [joinIp, hget, Option.some_or, Option.getD_some]
    rfl
  have hnow : (taskRequest (.register nid ent udpPort quiet) c).moment = c.moment := rfl
  generalize hr : taskRequest (.register nid ent udpPort quiet) c = r at hroute hnet hent hseq hport hip hnow
  have hrun : brokerRun host app (.register nid ent udpPort quiet) c =
      ((handlePartyJoin host app r).1, some (handlePartyJoin host app r).2) := by
    rw [brokerRun, hr, handleParty_join hroute]
  rw [hrun] at hacc ⊢
  have hcap := not_refused_of_accepted hacc
  have hjoin := @App.PartyOk.joinNet host app happ r
  refine ⟨_, ?_, (joinRow_seen _ _ _ _ _ _).ge,
    rowPeer_joinRow (hjoin.keyed ent) (registeredIp c) udpPort c.moment.now⟩
  rw [handlePartyJoin_app hcap, hnet, hent, hseq, hport, hip, hnow, row_setNet, if_pos rfl,
    OrdMap.get?_insert, if_pos rfl]

/-- A party request that is no edit of its row leaves a registration alone while it has not lapsed. -/
theorem RegisteredAt.handleParty (h : RegisteredAt t₀ nid e app) {r : Request} (hlow : t₀ ≤ r.moment.now)
    (hhigh : r.moment.now ≤ t₀ + partySeenTtlSecs) (hother : ¬Edits host nid e.entity r) :
    RegisteredAt t₀ nid e (handleParty host app r).1 := by
  obtain ⟨m, hrow, hseen, haddr⟩ := h
  have hlive : r.moment.now - partySeenTtlSecs ≤ m.seen := by linarith
  have hkeep : ∀ {app' : App}, app'.row nid e.entity = some m → RegisteredAt t₀ nid e app' :=
    fun hrow' => ⟨m, hrow', hseen, haddr⟩
  have hsame := hkeep hrow
  cases hroute : partyRoute r.path with
  | none => simpa only [Broker.handleParty, hroute] using hsame
  | some route =>
    cases route with
    | join =>
      rw [handleParty_join hroute]
      by_cases hfull : Full host app r
      · rw [handlePartyJoin_of_full hfull]
        refine hkeep ?_
        rw [row_setNet]
        split_ifs with hn
        · exact get?_joinNet.mpr ⟨hn ▸ hrow, hlive⟩
        · exact hrow
      · rw [handlePartyJoin_of_room hfull]
        refine hkeep ?_
        rw [row_setNet]
        split_ifs with hn
        · have hne : e.entity ≠ joinEntity r := fun heq => hother (.inl ⟨hroute, hn.symm, heq.symm⟩)
          rw [OrdMap.get?_insert, if_neg hne]
          exact get?_joinNet.mpr ⟨hn ▸ hrow, hlive⟩
        · exact hrow
    | leave =>
      simp only [Broker.handleParty, hroute, handlePartyLeave]
      cases hget : app.party.get? (leaveNetwork r) with
      | none => exact hsame
      | some net =>
        simp only
        split_ifs
        · exact hsame
        · refine hkeep ?_
          rw [row_setNet]
          split_ifs with hn
          · have hne : e.entity ≠ leaveEntity r := fun heq => hother (.inr ⟨hroute, hn.symm, heq.symm⟩)
            rw [hn, App.row, hget, Option.bind_some] at hrow
            rw [OrdMap.get?_erase, if_neg hne]
            exact hrow
          · exact hrow
    | peers =>
      rw [handleParty_peers hroute]
      cases hget : app.party.get? (peersNetwork r) with
      | none =>
        rw [handlePartyPeers_of_none hget]
        exact hsame
      | some net =>
        rw [handlePartyPeers_of_some hget]
        by_cases hn : nid = peersNetwork r
        · rw [hn, App.row, hget, Option.bind_some] at hrow
          -- a row that the poll refreshes is seen at its time
          rcases get?_refresh net (peersEntity r) r.moment.now e.entity with hold | ⟨m₀, hm₀, hnew⟩
          · refine hkeep ?_
            rw [row_setNet, if_pos hn]
            exact (get?_live _ _).mpr ⟨hold.trans hrow, hlive⟩
          · rw [hrow, Option.some.injEq] at hm₀
            refine ⟨{ m₀ with seen := r.moment.now }, ?_, hlow, hm₀ ▸ haddr⟩
            rw [row_setNet, if_pos hn]
            refine (get?_live _ _).mpr ⟨hnew, ?_⟩
            unfold partySeenTtlSecs
            simp only
            linarith
        · refine hkeep ?_
          rw [row_setNet]
          exact (if_neg hn).trans hrow
    | msg => simpa only [Broker.handleParty, hroute] using hsame

section
variable {readFloat : List Char → Option UInt64} {encodeBlob : Moment → List UInt8 → List UInt8} {ports : Ports}

theorem RegisteredAt.serve_party (h : RegisteredAt t₀ nid e app) {r : Request}
    (htime : t₀ ≤ r.moment.now ∧ r.moment.now ≤ t₀ + partySeenTtlSecs)
    (hother : ¬Edits host nid e.entity r) : RegisteredAt t₀ nid e (app.serve host (.party r)) :=
  h.handleParty htime.1 htime.2 hother

/-- The PlayFab calls leave the registry alone. -/
theorem RegisteredAt.serve_playfab (h : RegisteredAt t₀ nid e app) (r : Request) :
    RegisteredAt t₀ nid e (app.serve host (.playfab r)) := by
  obtain ⟨m, hrow, haddr⟩ := h
  have hparty : (app.serve host (.playfab r)).party = app.party := handlePlayfab_party host app r
  refine ⟨m, ?_, haddr⟩
  rw [App.row, hparty]
  exact hrow

theorem RegisteredAt.dispatch (h : RegisteredAt t₀ nid e app) {r : WebRequest}
    (htime : t₀ ≤ r.moment.now ∧ r.moment.now ≤ t₀ + partySeenTtlSecs)
    (hother : ¬Edits host nid e.entity r.party) :
    RegisteredAt t₀ nid e (dispatch host readFloat encodeBlob ports app r).1 := by
  have hparty : RegisteredAt t₀ nid e (app.serve host (.party r.party)) := h.serve_party htime hother
  have hplayfab := @RegisteredAt.serve_playfab host app t₀ nid e h r.playfab
  rw [dispatch_state]
  unfold WebRequest.query
  split_ifs
  · exact h
  · rw [Option.elim_some]
    exact hparty
  · rw [Option.elim_some]
    exact hplayfab
  · exact h

theorem RegisteredAt.dispatchAll (h : RegisteredAt t₀ nid e app) {rs : List WebRequest}
    (hrs : ∀ r ∈ rs, (t₀ ≤ r.moment.now ∧ r.moment.now ≤ t₀ + partySeenTtlSecs) ∧
      ¬Edits host nid e.entity r.party) :
    RegisteredAt t₀ nid e (dispatchAll host readFloat encodeBlob ports app rs) := by
  unfold Broker.dispatchAll
  exact run_invariant_mem (fun _ r h hr => h.dispatch hr.1 hr.2) h hrs

end

end

/-! ### Polls of others -/

/-- The address under which the broker registers the machine of a visit. -/
def Visit.seenIp {brokerHost : String} {port : UInt16} (v : Visit brokerHost port) : String :=
  if isLoopbackIp v.ip.text && !isLoopbackIp v.peerIp then v.peerIp else v.ip.text

theorem Visit.registeredIp_call {brokerHost : String} {port : UInt16} (v : Visit brokerHost port) :
    registeredIp v.call = v.seenIp := by
  have hpeer : v.call.headers.get? "x-peer-ip" = some v.peerIp := by
    have hnone := @get?_wireHeaders_none brokerHost v.task.path (String.ofList (v.task.body v.ip)) ""
      port "x-peer-ip" (by decide)
    rw [Visit.call, callHeaders]
    simp only [OrdMap.contains, hnone, Option.isSome_none, Bool.false_eq_true, if_false]
    rw [OrdMap.get?_insert, if_pos rfl]
  rw [registeredIp, Visit.seenIp, hpeer]
  by_cases hpeerIp : isLoopbackIp v.peerIp = true
  · simp [hpeerIp, Visit.call, Option.filter_some]
  · simp [hpeerIp, Visit.call, Option.filter_some]

/-- What is read of these bytes has the peer, and no other one for its entity. -/
def Finds (e : PeerEntry) (bytes : List UInt8) : Prop :=
  ∀ rd : Reading bytes, ∃ text, rd.response = .ok ⟨200, text⟩ ∧ e ∈ readPeers (some text) ∧
    ∀ e' ∈ readPeers (some text), e'.entity = e.entity → e' = e

/-- A registration that is answered with success, as the broker leaves it. -/
theorem Visit.registered {host : Host} {readFloat : List Char → Option UInt64}
    {encodeBlob : Moment → List UInt8 → List UInt8} {wsAccept : String → String} {ports : Ports} {app : App}
    (happ : app.PartyOk) {brokerHost : String} {port : UInt16} (v : Visit brokerHost port)
    {nid ent : String} {udpPort : UInt16} {quiet : Bool} (hjoin : v.task = .register nid ent udpPort quiet)
    (hnamed : nid ≠ "") {joined : App × List UInt8}
    (hjoined : handleClient host readFloat encodeBlob wsAccept ports app v.moment v.peerIp v.stream = joined)
    (rd : Reading joined.2) {text : String} (hok : rd.response = .ok ⟨200, text⟩) :
    joined.1.PartyOk ∧ RegisteredAt v.moment.now nid ⟨ent, v.seenIp, udpPort⟩ joined.1 := by
  obtain ⟨resp, hresp, hstatus, hout⟩ :=
    @handleClient_visit host readFloat encodeBlob wsAccept ports app brokerHost port v
  rw [hjoined, hjoin] at hout
  rw [hjoin] at hresp
  have hbytes : joined.2 = replyBytes host resp := by rw [hout]
  have hread := rd.response_of_eq hbytes hstatus
  rw [hok, Except.ok.injEq, Http.Response.mk.injEq] at hread
  have hacc : accepted (brokerRun host app (.register nid ent udpPort quiet) v.call).2 = true := by
    rw [hresp, accepted, ← hread.1]
    rfl
  have hreg := registeredAt_register happ hnamed hacc
  rw [v.registeredIp_call] at hreg
  rw [hout]
  exact ⟨happ.handleParty _, hreg⟩

end GbfrLan.Party
