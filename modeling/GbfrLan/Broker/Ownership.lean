import GbfrLan.Broker.Frame

/-!
# One lobby for each owner

A create drops the lobbies of the player that it is made for, and stores the owner that its body
names. The two differ when the body names an owner that no session has: then the lobbies of that
owner stay beside the new one.
-/
namespace GbfrLan.Broker
open Lib Json

section
variable (host : Host) (app : App) (r : Request)

/-- The owner of the lobby that a create makes. -/
def createdOwner : Value :=
  ((r.body.get "Owner").or (r.body.get "owner")).getD (entityObj (resolvedPlayer host app r))

/-- The id of an owner, which may be a text itself. -/
def ownerText (owner : Value) : String := (jsonStr owner "Id").getD (owner.asStr.getD "")

/-- After a create: the new lobby is stored, and no other has its owner, unless that is none. -/
def SoleOwner : Prop :=
  ∃ l, (handleCreate host app r).1.lobbies.get? (createdId host app r) = some l ∧
    ∀ k l', k ≠ createdId host app r → (handleCreate host app r).1.lobbies.get? k = some l' →
      lobbyOwnerId l = "" ∨ lobbyOwnerId l' ≠ lobbyOwnerId l

theorem handleCreate_created : ∃ l,
    (handleCreate host app r).1.lobbies.get? (createdId host app r) = some l ∧
      lobbyOwnerId l = ownerText (createdOwner host app r) := by
  refine ⟨(createLobby host (resolvePlayer host app r "anonymous").1 r.moment r.body
    (resolvePlayer host app r "anonymous").2).2, ?_, rfl⟩
  exact (OrdMap.get?_insert ..).trans (if_pos rfl)

/-- The lobbies under other ids: those that the player did not own. -/
theorem handleCreate_others {k : String} (hk : k ≠ createdId host app r) :
    (handleCreate host app r).1.lobbies.get? k = (app.lobbies.get? k).filter fun l =>
      (resolvedPlayer host app r).entityId.isEmpty ||
        lobbyOwnerId l != (resolvedPlayer host app r).entityId := by
  obtain ⟨hl, -⟩ := resolvePlayer_frame host app r "anonymous"
  set p := resolvePlayer host app r "anonymous" with hp
  have hinsert : (handleCreate host app r).1.lobbies.get? k =
      ((dropOwnerLobbies p.1 p.2.entityId).lobbies.insert (createdId host app r) _).get? k := rfl
  have hplayer : resolvedPlayer host app r = p.2 := rfl
  rw [hinsert, OrdMap.get?_insert, if_neg hk, hplayer]
  unfold dropOwnerLobbies
  split_ifs with hempty
  · rw [hl, hempty]
    cases app.lobbies.get? k <;> rfl
  · rw [Bool.not_eq_true] at hempty
    rw [OrdMap.get?_filter, hl, hempty]
    rfl

/-- After a create no other lobby has the owner of the new one, exactly when that owner is none, is
the player of the request, or owned no other lobby before. -/
theorem create_soleOwner_iff : SoleOwner host app r ↔
    ownerText (createdOwner host app r) = "" ∨
      ownerText (createdOwner host app r) = (resolvedPlayer host app r).entityId ∨
      ∀ k l, k ≠ createdId host app r → app.lobbies.get? k = some l →
        lobbyOwnerId l ≠ ownerText (createdOwner host app r) := by
  obtain ⟨l, hl, howner⟩ := handleCreate_created host app r
  set owner := ownerText (createdOwner host app r) with howner'
  constructor
  · rintro ⟨l₁, hl₁, hsole⟩
    rw [hl, Option.some.injEq] at hl₁
    subst hl₁
    by_contra hnot
    push Not at hnot
    obtain ⟨hsome, hother, k, l', hk, hget, hsame⟩ := hnot
    have hkept : (handleCreate host app r).1.lobbies.get? k = some l' := by
      rw [handleCreate_others host app r hk, hget, Option.filter_some, if_pos]
      simp [hsame, hother]
    rcases hsole k l' hk hkept with hnone | hne
    · exact hsome (howner ▸ hnone)
    · exact hne (hsame.trans howner.symm)
  · intro h
    refine ⟨l, hl, fun k l' hk hget => ?_⟩
    rw [handleCreate_others host app r hk, Option.filter_eq_some_iff] at hget
    obtain ⟨hget, hkept⟩ := hget
    rw [howner]
    rcases h with hnone | hplayer | hothers
    · exact .inl hnone
    · rw [Bool.or_eq_true, bne_iff_ne, ← hplayer] at hkept
      rcases hkept with hempty | hne
      · exact .inl (String.isEmpty_iff.mp hempty)
      · exact .inr hne
    · exact .inr (hothers k l' hk hget)

end

/-- SHA-1 where an anonymous client makes a lobby, and another one a second later. -/
def twiceHost : Host :=
  { anonymousHost with
    sha1Hex := fun s =>
      if s = "1767225601.5a07e41cf7143288d" then "eeed64b3ea0a6706a46aca211feff35be7b590c8"
      else anonymousHost.sha1Hex s }

/-- A client without a session makes a lobby that a named host owns. -/
def hostedCreate (now : ℚ) (nowText : String) : Request :=
  ⟨⟨now, nowText, []⟩, "/Lobby/CreateAndJoinLobby",
    .obj [("Owner", .obj [("Id", .string "host")])], OrdMap.empty⟩

/-- The host that makes its lobby again has two of them. -/
theorem create_keeps_stale_lobby : ¬SoleOwner twiceHost
    (handleCreate twiceHost (App.new "1AC1AD" 8 false) (hostedCreate 1767225600 "1767225600.5")).1
    (hostedCreate 1767225601 "1767225601.5") := by
  set first := hostedCreate 1767225600 "1767225600.5" with hfirst
  set second := hostedCreate 1767225601 "1767225601.5" with hsecond
  set app := (handleCreate twiceHost (App.new "1AC1AD" 8 false) first).1 with happ
  have hid : createdId twiceHost app second = "lan-eeed64b3ea0a" := by decide +kernel
  have hnew : (((handleCreate twiceHost app second).1.lobbies.get? "lan-eeed64b3ea0a").map
      lobbyOwnerId) = some "host" := by decide +kernel
  have hold : (((handleCreate twiceHost app second).1.lobbies.get? "lan-2b05b16a57c6").map
      lobbyOwnerId) = some "host" := by decide +kernel
  obtain ⟨l', hl', howner'⟩ := Option.map_eq_some_iff.mp hold
  rintro ⟨l, hl, hsole⟩
  rw [hid] at hl hsole
  rw [hl, Option.map_some, Option.some.injEq] at hnew
  rcases hsole "lan-2b05b16a57c6" l' (by decide) hl' with hnone | hne
  · rw [hnew] at hnone
    exact absurd hnone (by decide)
  · exact hne (howner'.trans hnew.symm)

end GbfrLan.Broker
