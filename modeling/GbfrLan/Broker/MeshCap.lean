import GbfrLan.Broker.Rows
import GbfrLan.Broker.Shape

/-!
# The maximum of a lobby and the cap of its network

The cap of a network is the configured maximum. A lobby has the maximum that its create asked
for, unless that is overridden, and any that a later update asks for. So a lobby can take more
players than its network, and it does exactly when a request asks for more than is configured.
-/
namespace GbfrLan.Broker
open Lib Json

/-! ### Players of one network -/

/-- Only these are registered on a network. -/
def OnlyPlayers (nid : String) (players : List String) (app : App) : Prop :=
  ∀ eid m, app.row nid eid = some m → eid ∈ players

/-- A request that registers nobody else there. -/
def JoinsAsPlayer (host : Host) (nid : String) (players : List String) (r : Request) : Prop :=
  partyRoute r.path = some .join → joinNetwork host r = nid → joinEntity r ∈ players

/-- When players, as many as this, and no others join a network, none of them is ever refused. -/
def AdmitsAll (host : Host) (app : App) (n : ℤ) : Prop :=
  ∀ (players : List String) (nid : String) (rs : List Request) (r : Request),
    (players.length : ℤ) ≤ n → OnlyPlayers nid players app →
    (∀ r' ∈ rs, JoinsAsPlayer host nid players r') →
    joinNetwork host r = nid → joinEntity r ∈ players →
    ¬(handlePartyJoin host (run (fun a r => (handleParty host a r).1) app rs) r).2.IsError

section
variable {host : Host} {app : App} {nid : String} {players : List String}

theorem OnlyPlayers.handleParty (h : OnlyPlayers nid players app) {r : Request}
    (hr : JoinsAsPlayer host nid players r) : OnlyPlayers nid players (handleParty host app r).1 := by
  intro eid m hm
  obtain ⟨net', hnet', hm⟩ := row_eq_some hm
  have hrow : ∀ {net : OrdMap String PartyMember} {m : PartyMember}, app.party.get? nid = some net →
      net.get? eid = some m → eid ∈ players := by
    intro net m hnet hm
    refine h eid m ?_
    rw [App.row, hnet]
    exact hm
  cases handleParty_becomes hnet' with
  | kept hnet => exact hrow hnet hm
  | refused _ hnid => exact h eid m (hnid ▸ (get?_joinNet.mp hm).1)
  | joined hroute hnid =>
    rw [OrdMap.get?_insert] at hm
    split_ifs at hm with heq
    · rw [heq]
      exact hr hroute hnid.symm
    · exact h eid m (hnid ▸ (get?_joinNet.mp hm).1)
  | left hnet e =>
    rw [OrdMap.get?_erase] at hm
    split_ifs at hm
    exact hrow hnet hm
  | polled hnet =>
    rcases get?_refresh _ (peersEntity r) r.moment.now eid with hold | ⟨m₀, hm₀, -⟩
    · exact hrow hnet (hold ▸ ((get?_live _ _).mp hm).1)
    · exact hrow hnet hm₀

/-- A player that is not on the network yet finds room. -/
theorem OnlyPlayers.not_full (h : OnlyPlayers nid players app) {r : Request}
    (hcap : (players.length : ℤ) ≤ configuredMeshCap app) (hnid : joinNetwork host r = nid)
    (hplayer : joinEntity r ∈ players) : ¬Full host app r := by
  rintro ⟨hnew, hfull⟩
  set net := joinNet host app r with hnet
  have hsub : joinEntity r :: net.keys ⊆ players := by
    intro eid heid
    rcases List.mem_cons.mp heid with rfl | heid
    · exact hplayer
    · obtain ⟨e, he, rfl⟩ := List.mem_map.mp heid
      have hget : net.get? e.1 = some e.2 := (OrdMap.mem_entries_iff net e.1 e.2).mp he
      exact h e.1 e.2 (hnid ▸ (get?_joinNet.mp hget).1)
  have hnodup : (joinEntity r :: net.keys).Nodup := by
    refine List.nodup_cons.mpr ⟨fun hmem => ?_, net.keys_nodup⟩
    obtain ⟨e, he, heq⟩ := List.mem_map.mp hmem
    have hget : net.get? e.1 = some e.2 := (OrdMap.mem_entries_iff net e.1 e.2).mp he
    rw [heq, hnew] at hget
    cases hget
  have hlength := (hnodup.subperm hsub).length_le
  have hkeys : net.keys.length = net.size := List.length_map _
  rw [List.length_cons, hkeys] at hlength
  omega

theorem admitsAll_of_le {n : ℤ} (h : n ≤ configuredMeshCap app) : AdmitsAll host app n := by
  intro players nid rs r hlength honly hjoins hnid hplayer
  have hstep : ∀ (a : App) (r : Request),
      (OnlyPlayers nid players a ∧ configuredMeshCap a = configuredMeshCap app) →
      JoinsAsPlayer host nid players r → (OnlyPlayers nid players (handleParty host a r).1 ∧
        configuredMeshCap (handleParty host a r).1 = configuredMeshCap app) := by
    rintro a r ⟨ha, hcap⟩ hr
    exact ⟨ha.handleParty hr, (handleParty_cap host a r).trans hcap⟩
  obtain ⟨hrun, hcap⟩ := run_invariant_mem hstep ⟨honly, rfl⟩ hjoins
  have hroom := hrun.not_full (by omega) hnid hplayer
  rw [handlePartyJoin_of_room hroom]
  simp [Reply.IsError, ok, playfabOk]

end

/-! ### Maxima of lobbies -/

/-- The maximum that a create or an update asks for. -/
def requestedMax (body : Value) : Option ℤ := (jsonI64 body "MaxPlayers").or (jsonI64 body "maxPlayers")

/-- No lobby takes more players than a network, and as many as it takes can join one. -/
def MeshFits (host : Host) (app : App) : Prop :=
  ∀ k l, app.lobbies.get? k = some l →
    l.maxPlayers ≤ configuredMeshCap app ∧ AdmitsAll host app l.maxPlayers

/-- A request that does not ask for more than is configured: a create is overridden or asks for no
more, and an update of a lobby that is there asks for no more. -/
def WithinCap (app : App) : Query → Prop
  | .playfab r =>
      (route r.path = some .createLobby → app.overrideGameMax = true ∨
        ∀ n, requestedMax r.body = some n → clampMaxPlayers n ≤ configuredMeshCap app) ∧
      (route r.path = some .updateLobby → (app.lobbies.get? (bodyLobbyId r.body)).isSome = true →
        ∀ n, requestedMax r.body = some n → clampMaxPlayers n ≤ configuredMeshCap app)
  | .party _ => True

/-- No lobby takes more players than a network. -/
def App.Capped (app : App) : Prop :=
  ∀ k l, app.lobbies.get? k = some l → l.maxPlayers ≤ configuredMeshCap app

theorem meshFits_iff {host : Host} {app : App} : MeshFits host app ↔ app.Capped := by
  constructor
  · exact fun h k l hl => (h k l hl).1
  · exact fun h k l hl => ⟨h k l hl, admitsAll_of_le (h k l hl)⟩

theorem join_maxPlayers {host : Host} {l l' : Lobby} {body entity : Value} {eid : String}
    (h : l.join host body entity eid = some l') : l'.maxPlayers = l.maxPlayers := by
  unfold Lobby.join at h
  split_ifs at h
  · cases h
    rfl
  · cases h
    rfl

theorem leave_maxPlayers {l l' : Lobby} {pid : Option String} (h : l.leave pid = some l') :
    l'.maxPlayers = l.maxPlayers := by
  unfold Lobby.leave at h
  simp only at h
  split at h
  · cases h
  · cases h
    rfl

theorem putMember_maxPlayers (host : Host) (l : Lobby) (mem : Value) :
    (l.putMember host mem).maxPlayers = l.maxPlayers := by
  unfold Lobby.putMember
  simp only
  split_ifs <;> rfl

theorem update_maxPlayers (host : Host) (l : Lobby) (body : Value) (updater : Option String) :
    (l.update host body updater).maxPlayers = match requestedMax body with
      | some n => max (clampMaxPlayers n) l.members.length
      | none => l.maxPlayers := by
  have hfold : ∀ (mems : List Value) (l : Lobby),
      (mems.foldl (Lobby.putMember host) l).maxPlayers = l.maxPlayers := by
    intro mems
    induction mems with
    | nil => exact fun l => rfl
    | cons mem mems ih =>
      intro l
      rw [List.foldl_cons, ih, putMember_maxPlayers]
  have hmerge : ∀ (l : Lobby) (target : Option String),
      (l.mergeMemberData host body target).maxPlayers = l.maxPlayers := by
    intro l target
    unfold Lobby.mergeMemberData
    split <;> rfl
  have hdelete : ∀ (l : Lobby) (target : Option String),
      (l.deleteMemberData body target).maxPlayers = l.maxPlayers := by
    intro l target
    unfold Lobby.deleteMemberData
    split <;> rfl
  unfold Lobby.update
  simp only
  rw [hfold, hmerge]
  change (Lobby.deleteMemberData _ body _).maxPlayers = _
  rw [hdelete]
  unfold Lobby.updateScalars requestedMax
  cases (jsonI64 body "MaxPlayers").or (jsonI64 body "maxPlayers") <;> rfl

theorem resolvePlayer_config (host : Host) (app : App) (r : Request) (ticket : String) :
    (resolvePlayer host app r ticket).1.maxPlayers = app.maxPlayers ∧
      (resolvePlayer host app r ticket).1.overrideGameMax = app.overrideGameMax := by
  unfold resolvePlayer
  simp only
  split <;> exact ⟨rfl, rfl⟩

theorem dropOwnerLobbies_config (app : App) (ownerId : String) :
    (dropOwnerLobbies app ownerId).maxPlayers = app.maxPlayers ∧
      (dropOwnerLobbies app ownerId).overrideGameMax = app.overrideGameMax := by
  unfold dropOwnerLobbies
  split_ifs <;> exact ⟨rfl, rfl⟩

/-- The maximum of a lobby that is made. -/
theorem created_maxPlayers (host : Host) (app : App) (r : Request) :
    (createLobby host (resolvePlayer host app r "anonymous").1 r.moment r.body
      (resolvePlayer host app r "anonymous").2).2.maxPlayers =
        if app.overrideGameMax then configuredMeshCap app
        else ((requestedMax r.body).map clampMaxPlayers).getD (configuredMeshCap app) := by
  set p := resolvePlayer host app r "anonymous" with hp
  obtain ⟨hmax, hover⟩ := resolvePlayer_config host app r "anonymous"
  obtain ⟨hmax', hover'⟩ := dropOwnerLobbies_config p.1 p.2.entityId
  change resolveLobbyMax (dropOwnerLobbies p.1 p.2.entityId) (requestedMax r.body) = _
  unfold resolveLobbyMax configuredMeshCap
  rw [hmax', hover', hmax, hover]

theorem serve_cap (host : Host) (app : App) (q : Query) :
    configuredMeshCap (app.serve host q) = configuredMeshCap app := by
  cases q with
  | party r => exact handleParty_cap host app r
  | playfab r =>
    obtain ⟨hmax, -⟩ := resolvePlayer_config host app r "anonymous"
    change configuredMeshCap (handlePlayfab host app r).1 = _
    unfold configuredMeshCap
    congr 1
    unfold handlePlayfab
    split
    · rfl
    · exact (resolvePlayer_config host app r _).1
    · change (dropOwnerLobbies (resolvePlayer host app r "anonymous").1 _).maxPlayers = _
      rw [(dropOwnerLobbies_config _ _).1]
      exact hmax
    · simp only [handleJoin]
      split
      · exact hmax
      · split
        · exact hmax
        · split <;> exact hmax
    · rfl
    · simp only [handleLeave]
      split <;> rfl
    · simp only [handleUpdate]
      split <;> rfl
    · rfl
    · rfl
    · rfl

/-- A step keeps every lobby within the cap exactly when it asks for no more. -/
theorem capped_serve_iff {host : Host} {app : App} (hok : app.Ok) (h : app.Capped) (q : Query) :
    (app.serve host q).Capped ↔ WithinCap app q := by
  cases q with
  | party r =>
    obtain ⟨hl, -, -⟩ := handleParty_lobbies host app r
    refine ⟨fun _ => trivial, fun _ k l hk => ?_⟩
    rw [serve_cap]
    exact h k l (hl ▸ hk)
  | playfab r =>
    constructor
    · intro hnext
      refine ⟨fun hroute => ?_, fun hroute hthere n hn => ?_⟩
      · by_contra hnot
        push Not at hnot
        obtain ⟨hover, n, hn, hlt⟩ := hnot
        have hmade : (handlePlayfab host app r).1.lobbies.get? (createdId host app r) = some
            (createLobby host (resolvePlayer host app r "anonymous").1 r.moment r.body
              (resolvePlayer host app r "anonymous").2).2 := by
          rw [handlePlayfab_create hroute]
          exact (OrdMap.get?_insert ..).trans (if_pos rfl)
        have hle := hnext _ _ hmade
        rw [serve_cap, created_maxPlayers, if_neg hover, hn] at hle
        exact absurd hle (not_le.mpr hlt)
      · obtain ⟨l, hl⟩ := Option.isSome_iff_exists.mp hthere
        have hput : (handlePlayfab host app r).1.lobbies.get? (bodyLobbyId r.body) =
            some (l.update host r.body (requestEntityId app r.body r.headers)) := by
          rw [handlePlayfab_update hroute, handleUpdate_get?, if_pos rfl, hl]
          rfl
        have hle := hnext _ _ hput
        rw [serve_cap, update_maxPlayers, hn] at hle
        exact (le_max_left _ _).trans hle
    · rintro ⟨hcreate, hupdate⟩ k l' hk
      rw [serve_cap]
      cases handlePlayfab_becomes host app r hk with
      | kept hl => exact h k l' hl
      | joined hl _ hjoin =>
        rw [join_maxPlayers hjoin]
        exact h k _ hl
      | left hl hleave =>
        rw [leave_maxPlayers hleave]
        exact h k _ hl
      | updated hl hroute hid =>
        rw [update_maxPlayers]
        cases hn : requestedMax r.body with
        | none => exact h k _ hl
        | some n =>
          have hthere : (app.lobbies.get? (bodyLobbyId r.body)).isSome = true := by
            rw [← hid, hl]
            rfl
          exact max_le (hupdate hroute hthere n hn) ((hok k _ hl).room.trans (h k _ hl))
      | created hroute =>
        rw [created_maxPlayers]
        split_ifs with hover
        · exact le_refl _
        · cases hn : requestedMax r.body with
          | none => exact le_refl _
          | some n => exact (hcreate hroute).resolve_left hover n hn

theorem App.Ok.serve {host : Host} {app : App} (h : app.Ok) (q : Query) : (app.serve host q).Ok := by
  cases q with
  | playfab r => exact h.handlePlayfab r
  | party r =>
    obtain ⟨hl, -, ht⟩ := handleParty_lobbies host app r
    exact h.congr hl ht

/-- A state that is well formed and within the cap. -/
structure App.Fits (app : App) : Prop where
  ok : app.Ok
  capped : app.Capped

/-- In every state of a run every lobby has at most as many players as a network, so that they can all
join one, exactly when no request of the run asks for more than is configured. -/
theorem meshFits_iff_withinCap (host : Host) (app : App) (qs : List Query) :
    (∀ fs, fs <+: qs → MeshFits host (app.after host fs)) ↔
      Along (App.serve host) WithinCap { app with lobbies := OrdMap.empty } qs := by
  have hempty : ({ app with lobbies := OrdMap.empty } : App).Fits := by
    constructor <;>
    · intro k l hk
      cases hk
  have hgood : ∀ a : App, a.Fits → MeshFits host a := fun a ha => meshFits_iff.mpr ha.capped
  refine property_iff_along hgood (fun a q ha hq => ⟨ha.ok.serve q, ?_⟩)
    (fun a q ha hq hfits => hq ?_) hempty qs
  · exact (capped_serve_iff ha.ok ha.capped q).mpr hq
  · exact (capped_serve_iff ha.ok ha.capped q).mp (meshFits_iff.mp hfits)

/-- A broker that is configured for two makes a lobby for four. -/
def wideCreate : List Query :=
  [.playfab ⟨⟨1767225600, "1767225600.5", []⟩, "/Lobby/CreateAndJoinLobby",
    .obj [("MaxPlayers", number 4)], OrdMap.empty⟩]

/-- Without the override a create is served more players than the network takes, and with it an
update is. -/
theorem lobby_exceeds_mesh :
    ¬MeshFits anonymousHost ((App.new "1AC1AD" 2 false).after anonymousHost wideCreate) ∧
      ¬MeshFits anonymousHost ((App.new "1AC1AD" 2 true).after anonymousHost (wideCreate ++
        [.playfab ⟨⟨1767225600, "1767225600.5", []⟩, "/Lobby/UpdateLobby",
          .obj [("LobbyId", .string "lan-2b05b16a57c6"), ("MaxPlayers", number 4)], OrdMap.empty⟩])) := by
  have hwide : ∀ app : App, (app.lobbies.get? "lan-2b05b16a57c6").map Lobby.maxPlayers = some 4 →
      configuredMeshCap app = 2 → ¬MeshFits anonymousHost app := by
    intro app hmax hcap hfits
    obtain ⟨l, hl, hfour⟩ := Option.map_eq_some_iff.mp hmax
    have hle := (hfits _ l hl).1
    rw [hfour, hcap] at hle
    exact absurd hle (by decide)
  exact ⟨hwide _ (by decide +kernel) (by decide +kernel), hwide _ (by decide +kernel) (by decide +kernel)⟩

end GbfrLan.Broker
