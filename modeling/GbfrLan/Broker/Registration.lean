import GbfrLan.Broker.LobbyStore
import GbfrLan.Broker.Party
import GbfrLan.Lib.Run
import GbfrLan.Lib.Versioned

/-!
# Reordered registrations

For one entity on one network, joins and leaves that carry a counter act on its row as
puts and deletes on a slot under version numbers. The row keeps the counter, so a leave
forgets it, and an older join that arrives afterwards registers the entity again.
-/
namespace GbfrLan.Broker
open Lib Json

/-- A row as a slot: the address under the registration counter. -/
def App.slot (app : App) (nid eid : String) : Slot (String × UInt16) :=
  (app.row nid eid).map fun m => ((m.ip, m.udpPort), m.memberSeq)

/-- The registrations of others on a network. -/
def App.others (app : App) (nid eid : String) : ℕ :=
  (((app.party.get? nid).getD OrdMap.empty).erase eid).size

theorem row_insert (app : App) (nid eid : String) (net : OrdMap String PartyMember) :
    App.row { app with party := app.party.insert nid net } nid eid = net.get? eid := by
  simp [App.row]

theorem others_insert (app : App) (nid eid : String) (net : OrdMap String PartyMember) :
    App.others { app with party := app.party.insert nid net } nid eid = (net.erase eid).size := by
  simp [App.others]

theorem erase_insert (m : OrdMap String PartyMember) (k : String) (v : PartyMember) :
    (m.insert k v).erase k = m.erase k := by
  apply OrdMap.ext_get?
  intro k'
  simp only [OrdMap.get?_erase, OrdMap.get?_insert]
  split_ifs <;> rfl

theorem size_erase_liveMembers (net : OrdMap String PartyMember) (now : ℚ) (eid : String) :
    ((liveMembers net now).erase eid).size ≤ (net.erase eid).size := by
  apply List.Sublist.length_le
  apply List.Sublist.filter
  exact List.filter_sublist

theorem erase_of_not_contains {m : OrdMap String PartyMember} {k : String}
    (h : m.contains k = false) : m.erase k = m := by
  apply OrdMap.ext_get?
  intro k'
  rw [OrdMap.get?_erase]
  split_ifs with heq
  · subst heq
    exact (Option.not_isSome_iff_eq_none.mp (by simpa [OrdMap.contains] using h)).symm
  · rfl

/-- A live row stays through the sweep. -/
theorem get?_liveMembers (app : App) (nid eid : String) (now : ℚ)
    (hlive : ∀ m ∈ app.row nid eid, now - m.seen ≤ partySeenTtlSecs) :
    (liveMembers ((app.party.get? nid).getD OrdMap.empty) now).get? eid = app.row nid eid := by
  have hrow : ((app.party.get? nid).getD OrdMap.empty).get? eid = app.row nid eid := by
    unfold App.row
    cases app.party.get? nid <;> rfl
  unfold liveMembers
  rw [OrdMap.get?_filter, hrow]
  cases hm : app.row nid eid with
  | none => rfl
  | some m =>
    rw [Option.filter_some, if_pos (by simpa using hlive m hm)]

section
variable {host : Host} {r : Request} {nid eid : String}

/-- The live rows of the network of a join. -/
def joinNet (host : Host) (app : App) (r : Request) : OrdMap String PartyMember :=
  liveMembers ((app.party.get? (joinNetwork host r)).getD OrdMap.empty) r.moment.now

/-- A join that is not one member too many puts the row of its entity. -/
theorem handlePartyJoin_app {app : App}
    (hcap : (!(joinNet host app r).contains (joinEntity r) &&
      decide (configuredMeshCap app ≤ (joinNet host app r).size)) = false) :
    (handlePartyJoin host app r).1 = { app with
      party := app.party.insert (joinNetwork host r) ((joinNet host app r).insert (joinEntity r)
        (joinRow ((joinNet host app r).get? (joinEntity r)) (joinEntity r)
          (joinIp r.body r.headers) (joinPort r.body) r.moment.now (requestSeq r))) } := by
  unfold joinNet at hcap
  unfold handlePartyJoin
  simp only [hcap, Bool.false_eq_true, if_false]
  rfl

/-- What a join does to the row of its entity while it is live and the mesh has room. -/
theorem handlePartyJoin_row {app : App} (hn : joinNetwork host r = nid) (he : joinEntity r = eid)
    (hlive : ∀ m ∈ app.row nid eid, r.moment.now - m.seen ≤ partySeenTtlSecs)
    (hroom : (app.others nid eid : ℤ) < configuredMeshCap app) :
    (handlePartyJoin host app r).1.row nid eid =
        some (joinRow (app.row nid eid) eid (joinIp r.body r.headers) (joinPort r.body)
          r.moment.now (requestSeq r)) ∧
      (handlePartyJoin host app r).1.others nid eid ≤ app.others nid eid ∧
      configuredMeshCap (handlePartyJoin host app r).1 = configuredMeshCap app := by
  have hget : (joinNet host app r).get? eid = app.row nid eid := by
    rw [joinNet, hn]
    exact get?_liveMembers app nid eid r.moment.now hlive
  have hsize : ((joinNet host app r).erase eid).size ≤ app.others nid eid := by
    rw [joinNet, hn]
    exact size_erase_liveMembers _ _ _
  have hcap : (!(joinNet host app r).contains (joinEntity r) &&
      decide (configuredMeshCap app ≤ (joinNet host app r).size)) = false := by
    rw [he]
    cases hc : (joinNet host app r).contains eid with
    | true => rfl
    | false =>
      rw [erase_of_not_contains hc] at hsize
      simp only [Bool.not_false, Bool.true_and, decide_eq_false_iff_not, not_le]
      omega
  rw [handlePartyJoin_app hcap, hn, he, row_insert, others_insert, OrdMap.get?_insert, if_pos rfl,
    erase_insert, hget]
  exact ⟨rfl, hsize, rfl⟩

/-- What a leave does to the row of its entity. -/
theorem handlePartyLeave_row (app : App) (hn : leaveNetwork r = nid) (he : leaveEntity r = eid) :
    (handlePartyLeave app r).1.row nid eid =
        (app.row nid eid).filter (fun m => decide (requestSeq r ≠ 0 ∧ requestSeq r < m.memberSeq)) ∧
      (handlePartyLeave app r).1.others nid eid ≤ app.others nid eid ∧
      configuredMeshCap (handlePartyLeave app r).1 = configuredMeshCap app := by
  unfold handlePartyLeave
  simp only [hn, he]
  cases hnet : app.party.get? nid with
  | none =>
    have hrow : app.row nid eid = none := by simp [App.row, hnet]
    exact ⟨by simp [hrow], le_refl _, rfl⟩
  | some net =>
    have hrow : app.row nid eid = net.get? eid := by simp [App.row, hnet]
    simp only
    split_ifs with hstale
    · refine ⟨?_, le_refl _, rfl⟩
      rw [hrow]
      cases hm : net.get? eid with
      | none => rfl
      | some m =>
        rw [hm] at hstale
        have hkeep : requestSeq r ≠ 0 ∧ requestSeq r < m.memberSeq := hstale
        rw [Option.filter_some, if_pos (by simpa using hkeep)]
    · refine ⟨?_, ?_, rfl⟩
      · rw [row_insert, OrdMap.get?_erase, if_pos rfl, hrow]
        cases hm : net.get? eid with
        | none => rfl
        | some m =>
          rw [hm] at hstale
          have hdrop : ¬ (requestSeq r ≠ 0 ∧ requestSeq r < m.memberSeq) := hstale
          rw [Option.filter_some, if_neg (by simpa using hdrop)]
      · rw [others_insert]
        have hold : app.others nid eid = (net.erase eid).size := by simp [App.others, hnet]
        rw [hold]
        exact OrdMap.size_erase_le _ _

end

/-- A join or a leave of this entity on this network, with a counter. -/
def Concerns (host : Host) (nid eid : String) (r : Request) : Prop :=
  0 < requestSeq r ∧
    ((partyRoute r.path = some .join ∧ joinNetwork host r = nid ∧ joinEntity r = eid) ∨
      (partyRoute r.path = some .leave ∧ leaveNetwork r = nid ∧ leaveEntity r = eid))

/-- The edit that a join or a leave makes. -/
def edit (r : Request) : Edit (String × UInt16) :=
  if partyRoute r.path = some .leave then .delete (requestSeq r)
  else .put (requestSeq r) (joinIp r.body r.headers, joinPort r.body)

theorem edit_version (r : Request) : (edit r).version = requestSeq r := by
  unfold edit
  split_ifs <;> rfl

/-- The row is not older than `t₀`, and the mesh has room for the entity. -/
structure Ready (t₀ : ℚ) (nid eid : String) (app : App) : Prop where
  room : (app.others nid eid : ℤ) < configuredMeshCap app
  seen : ∀ m ∈ app.row nid eid, t₀ ≤ m.seen

theorem slot_joinRow (row : Option PartyMember) (eid ip : String) (port : UInt16) (now : ℚ)
    {seq : ℕ} (hseq : 0 < seq) :
    some (((joinRow row eid ip port now seq).ip, (joinRow row eid ip port now seq).udpPort),
      (joinRow row eid ip port now seq).memberSeq) =
        Edit.apply (row.map fun m => ((m.ip, m.udpPort), m.memberSeq)) (.put seq (ip, port)) := by
  cases row with
  | none => rfl
  | some m =>
    simp only [joinRow, Option.map_some, Edit.apply]
    by_cases hlt : seq < m.memberSeq
    · rw [if_pos ⟨by omega, hlt⟩, if_pos hlt]
    · rw [if_neg (fun h => hlt h.2), if_neg hlt]
      simp only [Option.some.injEq, Prod.mk.injEq, true_and]
      omega

theorem joinRow_seen (row : Option PartyMember) (eid ip : String) (port : UInt16) (now : ℚ)
    (seq : ℕ) : (joinRow row eid ip port now seq).seen = now := by
  unfold joinRow
  split
  · rfl
  · split_ifs <;> rfl

/-- One request edits the slot. -/
theorem handleParty_slot {host : Host} {app : App} {r : Request} {nid eid : String} {t₀ : ℚ}
    (hready : Ready t₀ nid eid app) (hr : Concerns host nid eid r)
    (hlow : t₀ ≤ r.moment.now) (hhigh : r.moment.now ≤ t₀ + partySeenTtlSecs) :
    Ready t₀ nid eid (handleParty host app r).1 ∧
      (handleParty host app r).1.slot nid eid = Edit.apply (app.slot nid eid) (edit r) := by
  obtain ⟨hseq, ⟨hroute, hn, he⟩ | ⟨hroute, hn, he⟩⟩ := hr
  · have hstep : (handleParty host app r).1 = (handlePartyJoin host app r).1 := by
      simp only [handleParty, hroute]
    have hlive : ∀ m ∈ app.row nid eid, r.moment.now - m.seen ≤ partySeenTtlSecs := by
      intro m hm
      have hseen := hready.seen m hm
      linarith
    obtain ⟨hrow, hothers, hcap⟩ := handlePartyJoin_row hn he hlive hready.room
    rw [hstep]
    refine ⟨⟨?_, ?_⟩, ?_⟩
    · have hroom := hready.room
      rw [hcap]
      omega
    · intro m hm
      rw [hrow] at hm
      cases hm
      rw [joinRow_seen]
      exact hlow
    · have hput : edit r = .put (requestSeq r) (joinIp r.body r.headers, joinPort r.body) := by
        simp [edit, hroute]
      rw [hput, App.slot, App.slot, hrow, Option.map_some]
      exact slot_joinRow _ _ _ _ _ hseq
  · have hstep : (handleParty host app r).1 = (handlePartyLeave app r).1 := by
      simp only [handleParty, hroute]
    obtain ⟨hrow, hothers, hcap⟩ := handlePartyLeave_row app hn he
    rw [hstep]
    refine ⟨⟨?_, ?_⟩, ?_⟩
    · have hroom := hready.room
      rw [hcap]
      omega
    · intro m hm
      rw [hrow, Option.mem_def, Option.filter_eq_some_iff] at hm
      exact hready.seen m hm.1
    · have hdel : edit r = .delete (requestSeq r) := by simp [edit, hroute]
      rw [hdel, App.slot, App.slot, hrow]
      cases app.row nid eid with
      | none => rfl
      | some m =>
        simp only [Option.filter_some, Option.map_some, Edit.apply]
        by_cases hlt : requestSeq r < m.memberSeq
        · rw [if_pos (by simp [hlt]; omega), if_pos hlt]
          rfl
        · rw [if_neg (by simp [hlt]), if_neg hlt]
          rfl

/-- A run of requests edits the slot one after the other. -/
theorem run_slot {host : Host} {nid eid : String} {t₀ : ℚ} {rs : List Request} {app : App}
    (hready : Ready t₀ nid eid app) (hrs : ∀ r ∈ rs, Concerns host nid eid r)
    (htime : ∀ r ∈ rs, t₀ ≤ r.moment.now ∧ r.moment.now ≤ t₀ + partySeenTtlSecs) :
    (run (fun a r => (handleParty host a r).1) app rs).slot nid eid =
      (rs.map edit).foldl Edit.apply (app.slot nid eid) := by
  induction rs generalizing app with
  | nil => rfl
  | cons r rs ih =>
    obtain ⟨hlow, hhigh⟩ := htime r (List.mem_cons_self ..)
    obtain ⟨hready', hslot⟩ :=
      handleParty_slot hready (hrs r (List.mem_cons_self ..)) hlow hhigh
    rw [run_cons, ih hready' (fun r' h => hrs r' (List.mem_cons_of_mem _ h))
      fun r' h => htime r' (List.mem_cons_of_mem _ h), hslot]
    rfl

/-- Joins and leaves of one entity on one network, processed within the lifetime of a row
and with room in the mesh, give the row that the order of their counters gives exactly
when the newest of them (or the row there before) is a registration, or every join, and
the row there before, is followed by a leave that is not older. -/
theorem reordered_row_iff (host : Host) (app : App) (nid eid : String) (t₀ : ℚ)
    (rs sorted : List Request) (hperm : rs.Perm sorted)
    (hsorted : sorted.Pairwise fun a b => requestSeq a < requestSeq b)
    (hrs : ∀ r ∈ rs, Concerns host nid eid r)
    (htime : ∀ r ∈ rs, t₀ ≤ r.moment.now ∧ r.moment.now ≤ t₀ + partySeenTtlSecs)
    (hready : Ready t₀ nid eid app) :
    (run (fun a r => (handleParty host a r).1) app rs).slot nid eid =
        (run (fun a r => (handleParty host a r).1) app sorted).slot nid eid ↔
      Edit.OrderSafe (app.slot nid eid) (rs.map edit) := by
  rw [run_slot hready hrs htime, run_slot hready (fun r h => hrs r (hperm.mem_iff.mpr h))
    fun r h => htime r (hperm.mem_iff.mpr h)]
  apply Edit.foldl_eq_sorted_iff _ (hperm.map edit)
  rw [List.pairwise_map]
  simpa only [edit_version] using hsorted

instance decidableConcerns (host : Host) (nid eid : String) (r : Request) :
    Decidable (Concerns host nid eid r) :=
  inferInstanceAs (Decidable (0 < requestSeq r ∧
    ((partyRoute r.path = some .join ∧ joinNetwork host r = nid ∧ joinEntity r = eid) ∨
      (partyRoute r.path = some .leave ∧ leaveNetwork r = nid ∧ leaveEntity r = eid))))

/-- A join or a leave of a guest; the counter is also the clock. -/
def guestRequest (path : String) (seq : ℕ) : Request :=
  ⟨⟨seq, toString seq, []⟩, path, .obj [("network_id", .string "net-1"),
    ("entity_id", .string "guest"), ("ip", .string "10.0.0.2"), ("udp_port", number 27015),
    ("member_seq", number seq)], OrdMap.empty⟩

/-- With a join as the newest request, older ones may arrive after it. -/
theorem reordered_row_newest_join :
    (run (fun a r => (handleParty anonymousHost a r).1) (App.new "1AC1AD" 8 false)
        [guestRequest "/party/join" 3, guestRequest "/party/join" 1,
          guestRequest "/party/leave" 2]).slot "net-1" "guest" =
      (run (fun a r => (handleParty anonymousHost a r).1) (App.new "1AC1AD" 8 false)
        [guestRequest "/party/join" 1, guestRequest "/party/leave" 2,
          guestRequest "/party/join" 3]).slot "net-1" "guest" := by
  apply (reordered_row_iff anonymousHost (App.new "1AC1AD" 8 false) "net-1" "guest" 0
    [guestRequest "/party/join" 3, guestRequest "/party/join" 1, guestRequest "/party/leave" 2]
    [guestRequest "/party/join" 1, guestRequest "/party/leave" 2, guestRequest "/party/join" 3]
    ?_ (by decide +kernel) (by decide +kernel) (by decide +kernel) ?_).mpr
  · exact .inl (.inr ⟨3, ("10.0.0.2", 27015), by decide +kernel, by decide +kernel,
      by decide +kernel⟩)
  · show ([guestRequest "/party/join" 3] ++ [guestRequest "/party/join" 1,
      guestRequest "/party/leave" 2]).Perm _
    exact List.perm_append_comm
  · exact ⟨by decide +kernel, by decide +kernel⟩

/-- A join that arrives after the leave that supersedes it registers the guest again. -/
theorem late_join_resurrects :
    (run (fun a r => (handleParty anonymousHost a r).1) (App.new "1AC1AD" 8 false)
        [guestRequest "/party/leave" 2, guestRequest "/party/join" 1]).slot "net-1" "guest" ≠
      (run (fun a r => (handleParty anonymousHost a r).1) (App.new "1AC1AD" 8 false)
        [guestRequest "/party/join" 1, guestRequest "/party/leave" 2]).slot "net-1" "guest" := by
  decide +kernel

end GbfrLan.Broker
