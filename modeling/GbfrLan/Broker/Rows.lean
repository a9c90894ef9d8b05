import GbfrLan.Broker.Frame

/-!
# The registry of the party networks

A network is swept when a request touches it, and only then. Whatever the requests and their
times, it never has more rows than the cap, each row is filed under its entity, and what a reply
lists is exactly what is live.
-/
namespace GbfrLan.Broker
open Lib Json

section
variable (host : Host) (app : App) (r : Request)

def peersNetwork : String :=
  ((jsonStr r.body "network_id").or (queryStr "network_id" (splitQuery r.path).2)).getD ""

def peersEntity : String :=
  ((jsonStr r.body "entity_id").or (queryStr "entity_id" (splitQuery r.path).2)).getD ""

/-- The row that a join puts. -/
def joinedRow : PartyMember :=
  joinRow ((joinNet host app r).get? (joinEntity r)) (joinEntity r) (joinIp r.body r.headers)
    (joinPort r.body) r.moment.now (requestSeq r)

/-- A join is refused. -/
def Full : Prop :=
  (joinNet host app r).get? (joinEntity r) = none ∧
    configuredMeshCap app ≤ ((joinNet host app r).size : ℤ)

/-- Everything a party request can make of the network under an id. -/
inductive NetBecomes (nid : String) : OrdMap String PartyMember → Prop where
  | kept {net : OrdMap String PartyMember} (h : app.party.get? nid = some net) : NetBecomes nid net
  | refused (hroute : partyRoute r.path = some .join) (hnid : nid = joinNetwork host r)
      (hfull : Full host app r) : NetBecomes nid (joinNet host app r)
  | joined (hroute : partyRoute r.path = some .join) (hnid : nid = joinNetwork host r)
      (hroom : ¬Full host app r) :
      NetBecomes nid ((joinNet host app r).insert (joinEntity r) (joinedRow host app r))
  | left {net : OrdMap String PartyMember} (h : app.party.get? nid = some net) (eid : String) :
      NetBecomes nid (net.erase eid)
  | polled {net : OrdMap String PartyMember} (h : app.party.get? nid = some net)
      (hroute : partyRoute r.path = some .peers) (hnid : nid = peersNetwork r) :
      NetBecomes nid
        (liveMembers (refreshMember net (peersEntity r) r.moment.now) r.moment.now)

end

section
variable {host : Host} {app : App} {r : Request}

theorem full_iff : (!(joinNet host app r).contains (joinEntity r) &&
    decide (configuredMeshCap app ≤ (joinNet host app r).size)) = true ↔ Full host app r := by
  rw [Bool.and_eq_true, decide_eq_true_eq, Bool.not_eq_true', OrdMap.contains,
    Option.isSome_eq_false_iff, Option.isNone_iff_eq_none]
  rfl

theorem handlePartyJoin_of_full (h : Full host app r) : handlePartyJoin host app r =
    ({ app with party := app.party.insert (joinNetwork host r) (joinNet host app r) },
      err "PartyMemberLimitExceeded" "Party mesh is full") := by
  have hfull := full_iff.mpr h
  unfold joinNet at hfull
  unfold handlePartyJoin
  simp only [hfull, if_true]
  rfl

theorem handlePartyJoin_of_room (h : ¬Full host app r) : handlePartyJoin host app r =
    ({ app with
      party := app.party.insert (joinNetwork host r)
        ((joinNet host app r).insert (joinEntity r) (joinedRow host app r)) },
      ok (.obj [("network_id", .string (joinNetwork host r)), ("members", memberRows host
        ((joinNet host app r).insert (joinEntity r) (joinedRow host app r)) r.moment.order)])) := by
  have hroom := mt full_iff.mp h
  rw [Bool.not_eq_true] at hroom
  unfold joinNet at hroom
  unfold handlePartyJoin
  simp only [hroom, Bool.false_eq_true, if_false]
  rfl

theorem handleParty_becomes {nid : String} {net' : OrdMap String PartyMember}
    (h : (handleParty host app r).1.party.get? nid = some net') : NetBecomes host app r nid net' := by
  unfold handleParty at h
  split at h
  · rename_i hroute
    by_cases hfull : Full host app r
    · rw [handlePartyJoin_of_full hfull] at h
      simp only [OrdMap.get?_insert] at h
      split_ifs at h with hnid
      · cases h
        exact .refused hroute hnid hfull
      · exact .kept h
    · rw [handlePartyJoin_of_room hfull] at h
      simp only [OrdMap.get?_insert] at h
      split_ifs at h with hnid
      · cases h
        exact .joined hroute hnid hfull
      · exact .kept h
  · simp only [handlePartyLeave] at h
    split at h
    · exact .kept h
    · rename_i net hnet
      split_ifs at h
      · exact .kept h
      · simp only [OrdMap.get?_insert] at h
        split_ifs at h with hnid
        · cases h
          exact .left (hnid ▸ hnet) _
        · exact .kept h
  · rename_i hroute
    simp only [handlePartyPeers] at h
    split at h
    · exact .kept h
    · rename_i net hnet
      simp only [OrdMap.get?_insert] at h
      split_ifs at h with hnid
      · cases h
        exact .polled (hnid ▸ hnet) hroute hnid
      · exact .kept h
  · exact .kept h
  · exact .kept h

end

/-! ### The invariant -/

theorem get?_live (net : OrdMap String PartyMember) (now : ℚ) {eid : String} {m : PartyMember} :
    (liveMembers net now).get? eid = some m ↔
      net.get? eid = some m ∧ now - partySeenTtlSecs ≤ m.seen := by
  rw [liveMembers, OrdMap.get?_filter, Option.filter_eq_some_iff, decide_eq_true_eq,
    sub_le_comm]

theorem size_live_le (net : OrdMap String PartyMember) (now : ℚ) :
    (liveMembers net now).size ≤ net.size := List.length_filter_le _ _

/-- A refresh changes at most the time of a row that is there. -/
theorem get?_refresh (net : OrdMap String PartyMember) (eid : String) (now : ℚ) (eid' : String) :
    (refreshMember net eid now).get? eid' = net.get? eid' ∨
      ∃ m, net.get? eid' = some m ∧ (refreshMember net eid now).get? eid' = some { m with seen := now } := by
  unfold refreshMember
  split
  · rename_i m hm
    have hget := (Option.filter_eq_some_iff.mp hm).1
    rw [OrdMap.get?_insert]
    split_ifs with heq
    · exact .inr ⟨m, heq ▸ hget, rfl⟩
    · exact .inl rfl
  · exact .inl rfl

theorem size_refresh (net : OrdMap String PartyMember) (eid : String) (now : ℚ) :
    (refreshMember net eid now).size = net.size := by
  unfold refreshMember
  split
  · rename_i m hm
    exact OrdMap.size_insert_of_some _ (Option.filter_eq_some_iff.mp hm).1
  · rfl

/-- A network within the cap, with each row under its own entity. -/
structure NetOk (cap : ℤ) (net : OrdMap String PartyMember) : Prop where
  size : (net.size : ℤ) ≤ cap
  keyed : ∀ eid m, net.get? eid = some m → m.entityId = eid

def App.PartyOk (app : App) : Prop :=
  ∀ nid net, app.party.get? nid = some net → NetOk (configuredMeshCap app) net

namespace NetOk

variable {cap : ℤ} {net : OrdMap String PartyMember}

theorem empty (hcap : 0 ≤ cap) : NetOk cap OrdMap.empty :=
  ⟨by simpa using hcap, fun eid m h => by cases h⟩

theorem live (h : NetOk cap net) (now : ℚ) : NetOk cap (liveMembers net now) where
  size := by
    have hle := size_live_le net now
    have hsize := h.size
    omega
  keyed eid m hm := h.keyed eid m ((get?_live net now).mp hm).1

theorem refresh (h : NetOk cap net) (eid : String) (now : ℚ) : NetOk cap (refreshMember net eid now) where
  size := by
    rw [size_refresh]
    exact h.size
  keyed eid' m hm := by
    rcases get?_refresh net eid now eid' with hsame | ⟨m₀, hm₀, hnew⟩
    · exact h.keyed eid' m (hsame ▸ hm)
    · rw [hnew, Option.some.injEq] at hm
      rw [← hm]
      exact h.keyed eid' m₀ hm₀

theorem erase (h : NetOk cap net) (eid : String) : NetOk cap (net.erase eid) where
  size := by
    have hle := OrdMap.size_erase_le net eid
    have hsize := h.size
    omega
  keyed eid' m hm := by
    rw [OrdMap.get?_erase] at hm
    split_ifs at hm
    exact h.keyed eid' m hm

/-- A row for an entity that is there, or for a new one while there is room. -/
theorem insert (h : NetOk cap net) {eid : String} {m : PartyMember} (hm : m.entityId = eid)
    (hroom : ¬(net.get? eid = none ∧ cap ≤ (net.size : ℤ))) : NetOk cap (net.insert eid m) where
  size := by
    have hsize := h.size
    cases hget : net.get? eid with
    | some old =>
      rw [OrdMap.size_insert_of_some m hget]
      exact hsize
    | none =>
      rw [OrdMap.size_insert_of_none m hget]
      have hlt : ¬cap ≤ (net.size : ℤ) := fun hle => hroom ⟨hget, hle⟩
      push_cast
      omega
  keyed eid' m' hm' := by
    rw [OrdMap.get?_insert] at hm'
    split_ifs at hm' with heq
    · cases hm'
      rw [hm, heq]
    · exact h.keyed eid' m' hm'

end NetOk

theorem joinRow_entityId {row : Option PartyMember} {eid : String}
    (h : ∀ m, row = some m → m.entityId = eid) (ip : String) (port : UInt16) (now : ℚ) (seq : ℕ) :
    (joinRow row eid ip port now seq).entityId = eid := by
  cases row with
  | none => rfl
  | some m =>
    simp only [joinRow]
    split_ifs <;> exact h m rfl

section
variable {host : Host} {app : App}

theorem App.PartyOk.joinNet (h : app.PartyOk) (r : Request) :
    NetOk (configuredMeshCap app) (joinNet host app r) := by
  apply NetOk.live
  cases hnet : app.party.get? (joinNetwork host r) with
  | none =>
    have hcap := (clampMaxPlayers_range app.maxPlayers).1
    exact .empty (by unfold configuredMeshCap; omega)
  | some net => exact h _ net hnet

theorem handleParty_cap (host : Host) (app : App) (r : Request) :
    configuredMeshCap (handleParty host app r).1 = configuredMeshCap app := by
  unfold handleParty
  split
  · simp only [handlePartyJoin]
    split_ifs <;> rfl
  · simp only [handlePartyLeave]
    split
    · rfl
    · split_ifs <;> rfl
  · simp only [handlePartyPeers]
    split <;> rfl
  · rfl
  · rfl

theorem App.PartyOk.handleParty (h : app.PartyOk) (r : Request) : (handleParty host app r).1.PartyOk := by
  intro nid net' hnet'
  rw [handleParty_cap]
  cases handleParty_becomes hnet' with
  | kept hnet => exact h nid net' hnet
  | refused => exact h.joinNet r
  | joined _ _ hroom =>
    have hjoin := @App.PartyOk.joinNet host app h r
    exact hjoin.insert (joinRow_entityId (hjoin.keyed _) _ _ _ _) hroom
  | left hnet eid => exact (h nid _ hnet).erase eid
  | polled hnet => exact ((h nid _ hnet).refresh _ _).live _

end

/-! ### Replies and counters -/

/-- A join finds a row of its network expired and removes it. -/
def Swept (host : Host) (r : Request) (nid : String) (m : PartyMember) : Prop :=
  partyRoute r.path = some .join ∧ joinNetwork host r = nid ∧ m.seen < r.moment.now - partySeenTtlSecs

/-- What the members in the reply to a request are: live at its time, with everyone among them who
was live on the network before it, and everyone who is on it afterwards. -/
structure Lists (host : Host) (app : App) (r : Request) (nid : String) (ms : List PartyMember) : Prop where
  reply : (handleParty host app r).2 = some (ok (.obj [("network_id", .string nid),
    ("members", .array (ms.map (memberRow host)))]))
  live : ∀ m ∈ ms, r.moment.now - partySeenTtlSecs ≤ m.seen
  before : ∀ eid m, app.row nid eid = some m → r.moment.now - partySeenTtlSecs ≤ m.seen →
    ∃ m' ∈ ms, m'.entityId = eid
  after : ∀ eid m, (handleParty host app r).1.row nid eid = some m → m ∈ ms

/-- What a party request does in a state of the registry. -/
structure KeepsRegistry (host : Host) (app : App) (r : Request) : Prop where
  seq : ∀ nid eid m m', app.row nid eid = some m → (handleParty host app r).1.row nid eid = some m' →
    ¬Swept host r nid m → m.memberSeq ≤ m'.memberSeq
  join : partyRoute r.path = some .join → (∃ reply, (handleParty host app r).2 = some reply ∧ reply.IsError) ∨
    ∃ ms, Lists host app r (joinNetwork host r) ms ∧
      ∃ m ∈ ms, m.entityId = joinEntity r ∧ m.seen = r.moment.now
  peers : partyRoute r.path = some .peers → ∃ ms, Lists host app r (peersNetwork r) ms

section
variable {host : Host} {app : App} {r : Request}

theorem row_eq_some {nid eid : String} {m : PartyMember} (h : app.row nid eid = some m) :
    ∃ net, app.party.get? nid = some net ∧ net.get? eid = some m := Option.bind_eq_some_iff.mp h

theorem joinRow_memberSeq_le (m : PartyMember) (eid ip : String) (port : UInt16) (now : ℚ) (seq : ℕ) :
    m.memberSeq ≤ (joinRow (some m) eid ip port now seq).memberSeq := by
  simp only [joinRow]
  split_ifs
  · exact le_refl _
  · exact le_max_left _ _

theorem get?_joinNet {eid : String} {m : PartyMember} : (joinNet host app r).get? eid = some m ↔
    app.row (joinNetwork host r) eid = some m ∧ r.moment.now - partySeenTtlSecs ≤ m.seen := by
  rw [joinNet, get?_live]
  unfold App.row
  cases app.party.get? (joinNetwork host r) <;> rfl

/-- The counter of a row does not go down while the row is there. -/
theorem memberSeq_le {nid eid : String} {m m' : PartyMember} (h : app.row nid eid = some m)
    (h' : (handleParty host app r).1.row nid eid = some m') (hswept : ¬Swept host r nid m) :
    m.memberSeq ≤ m'.memberSeq := by
  obtain ⟨net, hnet, hm⟩ := row_eq_some h
  obtain ⟨net', hnet', hm'⟩ := row_eq_some h'
  -- rows of the network that a join has swept
  have hkept : partyRoute r.path = some .join → nid = joinNetwork host r →
      (joinNet host app r).get? eid = some m := by
    intro hroute hnid
    refine get?_joinNet.mpr ⟨hnid ▸ h, ?_⟩
    by_contra hold
    exact hswept ⟨hroute, hnid.symm, not_le.mp hold⟩
  cases handleParty_becomes hnet' with
  | kept hsame =>
    rw [hnet, Option.some.injEq] at hsame
    rw [hsame, hm', Option.some.injEq] at hm
    rw [hm]
  | refused hroute hnid =>
    rw [hkept hroute hnid, Option.some.injEq] at hm'
    rw [hm']
  | joined hroute hnid =>
    have hlive := hkept hroute hnid
    rw [OrdMap.get?_insert] at hm'
    split_ifs at hm' with heq
    · cases hm'
      rw [joinedRow, ← heq, hlive]
      exact joinRow_memberSeq_le m _ _ _ _ _
    · rw [hlive, Option.some.injEq] at hm'
      rw [hm']
  | left hsame e =>
    rw [hnet, Option.some.injEq] at hsame
    rw [OrdMap.get?_erase] at hm'
    split_ifs at hm'
    rw [← hsame, hm, Option.some.injEq] at hm'
    rw [hm']
  | polled hsame =>
    rw [hnet, Option.some.injEq] at hsame
    rw [get?_live, ← hsame] at hm'
    rcases get?_refresh net (peersEntity r) r.moment.now eid with hold | ⟨m₀, hm₀, hnew⟩
    · rw [hold, hm, Option.some.injEq] at hm'
      rw [hm'.1]
    · rw [hm, Option.some.injEq] at hm₀
      rw [hnew, Option.some.injEq] at hm'
      rw [← hm'.1, hm₀]

theorem handleParty_join (hroute : partyRoute r.path = some .join) : handleParty host app r =
    ((handlePartyJoin host app r).1, some (handlePartyJoin host app r).2) := by
  simp only [handleParty, hroute]

theorem handleParty_peers (hroute : partyRoute r.path = some .peers) : handleParty host app r =
    ((handlePartyPeers host app r).1, some (handlePartyPeers host app r).2) := by
  simp only [handleParty, hroute]

/-- The reply to a join that has room. -/
theorem lists_join (h : app.PartyOk) (hroute : partyRoute r.path = some .join)
    (hroom : ¬Full host app r) : ∃ ms, Lists host app r (joinNetwork host r) ms ∧
      ∃ m ∈ ms, m.entityId = joinEntity r ∧ m.seen = r.moment.now := by
  have hjoin := @App.PartyOk.joinNet host app h r
  set net := (joinNet host app r).insert (joinEntity r) (joinedRow host app r) with hnet
  have hid : (joinedRow host app r).entityId = joinEntity r :=
    joinRow_entityId (hjoin.keyed _) _ _ _ _
  have hseen : (joinedRow host app r).seen = r.moment.now := joinRow_seen _ _ _ _ _ _
  have hget : ∀ eid, net.get? eid =
      if eid = joinEntity r then some (joinedRow host app r) else (joinNet host app r).get? eid :=
    fun eid => OrdMap.get?_insert _ _ _ _
  refine ⟨net.iter r.moment.order, ⟨?_, ?_, ?_, ?_⟩, joinedRow host app r, ?_, hid, hseen⟩
  · rw [handleParty_join hroute, handlePartyJoin_of_room hroom]
    rfl
  · intro m hm
    obtain ⟨eid, hm⟩ := OrdMap.mem_iter_iff.mp hm
    rw [hget] at hm
    split_ifs at hm
    · cases hm
      rw [hseen]
      unfold partySeenTtlSecs
      linarith
    · exact (get?_joinNet.mp hm).2
  · intro eid m hm hlive
    by_cases heq : eid = joinEntity r
    · refine ⟨joinedRow host app r, OrdMap.mem_iter_iff.mpr ⟨eid, ?_⟩, heq ▸ hid⟩
      rw [hget, if_pos heq]
    · have hlive' := get?_joinNet.mpr ⟨hm, hlive⟩
      refine ⟨m, OrdMap.mem_iter_iff.mpr ⟨eid, ?_⟩, hjoin.keyed eid m hlive'⟩
      rw [hget, if_neg heq, hlive']
  · intro eid m hm
    rw [handleParty_join hroute, handlePartyJoin_of_room hroom, row_insert] at hm
    exact OrdMap.mem_iter_iff.mpr ⟨eid, hm⟩
  · refine OrdMap.mem_iter_iff.mpr ⟨joinEntity r, ?_⟩
    rw [hget, if_pos rfl]

/-- The reply to a poll. -/
theorem lists_peers (h : app.PartyOk) (hroute : partyRoute r.path = some .peers) :
    ∃ ms, Lists host app r (peersNetwork r) ms := by
  cases hnet : app.party.get? (peersNetwork r) with
  | none =>
    have hnone : handlePartyPeers host app r =
        (app, ok (.obj [("network_id", .string (peersNetwork r)), ("members", .array [])])) := by
      unfold peersNetwork at hnet
      simp only [handlePartyPeers, hnet]
      rfl
    have hrow : ∀ eid, app.row (peersNetwork r) eid = none := by
      intro eid
      rw [App.row, hnet]
      rfl
    refine ⟨[], ?_, fun m hm => ?_, fun eid m hm => ?_, fun eid m hm => ?_⟩
    · rw [handleParty_peers hroute, hnone]
      rfl
    · cases hm
    · rw [hrow] at hm
      cases hm
    · rw [handleParty_peers hroute, hnone, hrow] at hm
      cases hm
  | some net =>
    set net' := liveMembers (refreshMember net (peersEntity r) r.moment.now) r.moment.now with hnet'
    have hsome : handlePartyPeers host app r =
        ({ app with party := app.party.insert (peersNetwork r) net' },
          ok (.obj [("network_id", .string (peersNetwork r)),
            ("members", memberRows host net' r.moment.order)])) := by
      unfold peersNetwork at hnet
      simp only [handlePartyPeers, hnet]
      rfl
    have hok := (h _ net hnet).refresh (peersEntity r) r.moment.now
    refine ⟨net'.iter r.moment.order, ?_, ?_, ?_, ?_⟩
    · rw [handleParty_peers hroute, hsome]
      rfl
    · intro m hm
      obtain ⟨eid, hm⟩ := OrdMap.mem_iter_iff.mp hm
      exact ((get?_live _ _).mp hm).2
    · intro eid m hm hlive
      rw [App.row, hnet, Option.bind_some] at hm
      rcases get?_refresh net (peersEntity r) r.moment.now eid with hold | ⟨m₀, hm₀, hnew⟩
      · have hm' := hold.trans hm
        exact ⟨m, OrdMap.mem_iter_iff.mpr ⟨eid, (get?_live _ _).mpr ⟨hm', hlive⟩⟩, hok.keyed eid m hm'⟩
      · refine ⟨_, OrdMap.mem_iter_iff.mpr ⟨eid, (get?_live _ _).mpr ⟨hnew, ?_⟩⟩, hok.keyed eid _ hnew⟩
        change _ ≤ r.moment.now
        unfold partySeenTtlSecs
        linarith
    · intro eid m hm
      rw [handleParty_peers hroute, hsome, row_insert] at hm
      exact OrdMap.mem_iter_iff.mpr ⟨eid, hm⟩

end

/-- Whatever party requests a broker without networks has had, at whatever times, every network has at
most as many rows as the cap, each under its own entity; and whatever request comes next, no counter
goes down while its row is there, and the reply to a join or a poll lists everyone who is live and
nobody else, the one who has joined among them. -/
theorem party_registry (host : Host) (app : App) (rs : List Request) (r : Request) :
    let s := run (fun a r => (handleParty host a r).1) { app with party := OrdMap.empty } rs
    s.PartyOk ∧ configuredMeshCap s = configuredMeshCap app ∧ KeepsRegistry host s r := by
  intro s
  have hempty : App.PartyOk { app with party := OrdMap.empty } := by
    intro nid net hnet
    cases hnet
  have hstep : ∀ (a : App) (r : Request), (a.PartyOk ∧ configuredMeshCap a = configuredMeshCap app) →
      ((handleParty host a r).1.PartyOk ∧
        configuredMeshCap (handleParty host a r).1 = configuredMeshCap app) := by
    rintro a r ⟨hok, hcap⟩
    exact ⟨hok.handleParty r, (handleParty_cap host a r).trans hcap⟩
  obtain ⟨hok, hcap⟩ : s.PartyOk ∧ configuredMeshCap s = configuredMeshCap app :=
    run_invariant_all hstep ⟨hempty, rfl⟩ rs
  refine ⟨hok, hcap, fun nid eid m m' => memberSeq_le, fun hroute => ?_, lists_peers hok⟩
  by_cases hfull : Full host s r
  · refine .inl ⟨err "PartyMemberLimitExceeded" "Party mesh is full", ?_, ?_⟩
    · rw [handleParty_join hroute, handlePartyJoin_of_full hfull]
    · simp [Reply.IsError, err, playfabErr]
  · exact .inr (lists_join hok hroute hfull)

end GbfrLan.Broker
