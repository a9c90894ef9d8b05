import GbfrLan.Broker.Membership
import GbfrLan.Broker.Registration

/-!
# What a request may change

Both services work on one state. A request reads the lobby or the network that it names and
writes that one back; a create also drops the lobbies that its player owned, and a party
request sweeps lapsed rows of its network. Everything else stays as it is, whatever the path,
the body and the headers are.
-/
namespace GbfrLan.Broker
open Lib Json

/-- A request to one of the two services. -/
inductive Query where
  | playfab (r : Request)
  | party (r : Request)

def App.serve (host : Host) (app : App) : Query → App
  | .playfab r => (handlePlayfab host app r).1
  | .party r => (handleParty host app r).1

/-- The state after these requests to a broker that started without lobbies. -/
def App.after (host : Host) (app : App) (qs : List Query) : App :=
  run (App.serve host) { app with lobbies := OrdMap.empty } qs

/-- The reply has an error status. -/
def Reply.IsError : Reply → Prop
  | .response r => r.status ≠ 200
  | .rows _ => False

/-- The connection string that a join names. -/
def joinConnection (r : Request) : String :=
  (bodyStr r.body "ConnectionString" "connectionString").getD ""

/-- The player that a create or join acts for. -/
def resolvedPlayer (host : Host) (app : App) (r : Request) : Player :=
  (resolvePlayer host app r "anonymous").2

/-- The id of the lobby that a create makes. -/
def createdId (host : Host) (app : App) (r : Request) : String :=
  madeId host (r.moment.nowText ++ (resolvedPlayer host app r).entityId)

/-- The network that a party request names. -/
def partyNetwork (host : Host) (r : Request) : Option String :=
  match partyRoute r.path with
  | some .join => some (joinNetwork host r)
  | some .leave => some (leaveNetwork r)
  | some .peers =>
      some (((jsonStr r.body "network_id").or (queryStr "network_id" (splitQuery r.path).2)).getD "")
  | _ => none

section
variable {host : Host} {app : App} {r : Request}

/-! ### PlayFab requests -/

theorem resolvePlayer_party (host : Host) (app : App) (r : Request) (ticket : String) :
    (resolvePlayer host app r ticket).1.party = app.party := by
  unfold resolvePlayer
  simp only
  split <;> rfl

theorem dropOwnerLobbies_party (app : App) (ownerId : String) :
    (dropOwnerLobbies app ownerId).party = app.party := by
  unfold dropOwnerLobbies
  split_ifs <;> rfl

/-- A lobby of another owner survives the drop. -/
theorem get?_dropOwnerLobbies {ownerId k : String}
    (h : ∀ l, app.lobbies.get? k = some l → lobbyOwnerId l ≠ ownerId) :
    (dropOwnerLobbies app ownerId).lobbies.get? k = app.lobbies.get? k := by
  unfold dropOwnerLobbies
  split_ifs
  · rfl
  · rw [OrdMap.get?_filter]
    cases hl : app.lobbies.get? k with
    | none => rfl
    | some l => rw [Option.filter_some, if_pos (by simpa using h l hl)]

theorem handleCreate_get? {k : String} (hk : k ≠ createdId host app r)
    (howner : ∀ l, app.lobbies.get? k = some l →
      lobbyOwnerId l ≠ (resolvedPlayer host app r).entityId) :
    (handleCreate host app r).1.lobbies.get? k = app.lobbies.get? k := by
  obtain ⟨hl, -⟩ := resolvePlayer_frame host app r "anonymous"
  set p := resolvePlayer host app r "anonymous" with hp
  have hinsert : (handleCreate host app r).1.lobbies.get? k =
      ((dropOwnerLobbies p.1 p.2.entityId).lobbies.insert (createdId host app r) _).get? k := rfl
  rw [hinsert, OrdMap.get?_insert, if_neg hk, get?_dropOwnerLobbies, hl]
  rw [hl]
  exact howner

/-- Everything a join can do: refuse, or write the lobby of its connection string. -/
theorem handleJoin_cases (h : app.Ok) (host : Host) (r : Request) :
    ((handleJoin host app r).1.lobbies = app.lobbies ∧ (handleJoin host app r).2.IsError) ∨
      ∃ l l' data, app.lobbies.get? l.id = some l ∧ l.connection = joinConnection r ∧
        (handleJoin host app r).1.lobbies = app.lobbies.insert l.id l' ∧
        (handleJoin host app r).2 = ok data := by
  obtain ⟨hl, ht⟩ := resolvePlayer_frame host app r "anonymous"
  have hres : (resolvePlayer host app r "anonymous").1.Ok := h.congr hl ht
  unfold handleJoin
  simp only
  split
  · exact Or.inl ⟨hl, by simp [Reply.IsError, err, playfabErr]⟩
  · rename_i lid hfound
    obtain ⟨l₀, hl₀, rfl⟩ := Option.map_eq_some_iff.mp hfound
    obtain ⟨k, hk⟩ := OrdMap.mem_iter (List.mem_of_find?_eq_some hl₀)
    have hid : l₀.id = k := (hres k l₀ hk).id
    have hconn : l₀.connection = joinConnection r := by
      simpa [joinConnection] using List.find?_some hl₀
    rw [hid, hk]
    simp only
    split
    · exact Or.inl ⟨hl, by simp [Reply.IsError, err, playfabErr]⟩
    · rename_i l' hjoin
      refine Or.inr ⟨l₀, l', _, ?_, hconn, ?_, rfl⟩
      · rw [hid, ← hl, hk]
      · simp only [hl, hid]

theorem handleJoin_get? (h : app.Ok) {k : String}
    (hk : (app.lobbies.get? k).map Lobby.connection ≠ some (joinConnection r)) :
    (handleJoin host app r).1.lobbies.get? k = app.lobbies.get? k := by
  rcases handleJoin_cases h host r with ⟨heq, -⟩ | ⟨l, l', -, hget, hconn, heq, -⟩
  · rw [heq]
  · rw [heq, OrdMap.get?_insert]
    split_ifs with hkey
    · refine absurd ?_ hk
      rw [hkey, hget, Option.map_some, hconn]
    · rfl

theorem handleLeave_other {k : String} (hk : k ≠ bodyLobbyId r.body) :
    (handleLeave app r).1.lobbies.get? k = app.lobbies.get? k := by
  unfold handleLeave
  simp only
  split
  · rfl
  · split
    · rw [OrdMap.get?_insert, if_neg hk, OrdMap.get?_erase, if_neg hk]
    · rw [OrdMap.get?_erase, if_neg hk]

theorem handleLeave_reply (app : App) (r : Request) : (handleLeave app r).2 = ok (.obj []) := by
  unfold handleLeave
  simp only
  split <;> rfl

theorem handleUpdate_reply (host : Host) (app : App) (r : Request) :
    (handleUpdate host app r).2 = ok (.obj []) := by
  unfold handleUpdate
  simp only
  split <;> rfl

theorem handlePlayfab_party (host : Host) (app : App) (r : Request) :
    (handlePlayfab host app r).1.party = app.party := by
  have hres := resolvePlayer_party host app r "anonymous"
  unfold handlePlayfab
  split
  · rfl
  · exact resolvePlayer_party host app r _
  · show (dropOwnerLobbies (resolvePlayer host app r "anonymous").1 _).party = _
    rw [dropOwnerLobbies_party]
    exact hres
  · simp only [handleJoin]
    split
    · exact hres
    · split
      · exact hres
      · split <;> exact hres
  · rfl
  · simp only [handleLeave]
    split <;> rfl
  · simp only [handleUpdate]
    split <;> rfl
  · rfl
  · rfl
  · rfl

/-- An error of a PlayFab request comes with the lobbies as they were. -/
theorem handlePlayfab_error (h : app.Ok) (host : Host) (r : Request) {reply : Reply}
    (hreply : (handlePlayfab host app r).2 = some reply) (herr : reply.IsError) :
    (handlePlayfab host app r).1.lobbies = app.lobbies := by
  have hok {data : Value} (heq : ok data = reply) : False := by
    subst heq
    exact herr rfl
  unfold handlePlayfab at hreply ⊢
  split at hreply
  · exact (hok (Option.some_inj.mp hreply)).elim
  · exact (hok (Option.some_inj.mp hreply)).elim
  · exact (hok (Option.some_inj.mp hreply)).elim
  · rcases handleJoin_cases h host r with ⟨heq, -⟩ | ⟨-, -, data, -, -, -, hok'⟩
    · exact heq
    · exact (hok (hok'.symm.trans (Option.some_inj.mp hreply))).elim
  · rfl
  · exact (hok ((handleLeave_reply app r).symm.trans (Option.some_inj.mp hreply))).elim
  · exact (hok ((handleUpdate_reply host app r).symm.trans (Option.some_inj.mp hreply))).elim
  · rfl
  · rfl
  · cases hreply

/-! ### Party requests -/

theorem handleParty_lobbies (host : Host) (app : App) (r : Request) :
    (handleParty host app r).1.lobbies = app.lobbies ∧
      (handleParty host app r).1.sessions = app.sessions ∧
      (handleParty host app r).1.titleId = app.titleId := by
  unfold handleParty
  split
  · simp only [handlePartyJoin]
    split_ifs <;> exact ⟨rfl, rfl, rfl⟩
  · simp only [handlePartyLeave]
    split
    · exact ⟨rfl, rfl, rfl⟩
    · split_ifs <;> exact ⟨rfl, rfl, rfl⟩
  · simp only [handlePartyPeers]
    split <;> exact ⟨rfl, rfl, rfl⟩
  · exact ⟨rfl, rfl, rfl⟩
  · exact ⟨rfl, rfl, rfl⟩

theorem handleParty_other {nid : String} (hne : partyNetwork host r ≠ some nid) :
    (handleParty host app r).1.party.get? nid = app.party.get? nid := by
  unfold partyNetwork at hne
  unfold handleParty
  split at hne
  · rename_i hroute
    have hne' : nid ≠ joinNetwork host r := fun heq => hne (by rw [heq])
    simp only [hroute, handlePartyJoin]
    split_ifs <;> exact (OrdMap.get?_insert ..).trans (if_neg hne')
  · rename_i hroute
    have hne' : nid ≠ leaveNetwork r := fun heq => hne (by rw [heq])
    simp only [hroute, handlePartyLeave]
    split
    · rfl
    · split_ifs
      · rfl
      · exact (OrdMap.get?_insert ..).trans (if_neg hne')
  · rename_i hroute
    simp only [hroute, handlePartyPeers]
    split
    · rfl
    · refine (OrdMap.get?_insert ..).trans (if_neg ?_)
      exact fun heq => hne (by rw [heq])
  · split
    · simp_all
    · simp_all
    · simp_all
    · rfl
    · rfl

/-- A refused join finds its network full, and leaves it with the rows that are live. -/
theorem handlePartyJoin_refused (herr : (handlePartyJoin host app r).2.IsError) :
    (handlePartyJoin host app r).1.party.get? (joinNetwork host r) =
      (app.party.get? (joinNetwork host r)).map fun net => liveMembers net r.moment.now := by
  have hcap : 2 ≤ configuredMeshCap app := (clampMaxPlayers_range app.maxPlayers).1
  unfold handlePartyJoin at herr ⊢
  simp only at herr ⊢
  split_ifs at herr ⊢ with hfull
  · rw [OrdMap.get?_insert, if_pos rfl]
    cases hnet : app.party.get? (joinNetwork host r) with
    | some net => rfl
    | none =>
      -- An absent network is empty, and an empty one is not full.
      simp only [hnet, Option.getD_none, Bool.and_eq_true, decide_eq_true_eq] at hfull
      have hsize : (liveMembers OrdMap.empty r.moment.now).size = 0 := rfl
      rw [hsize] at hfull
      omega
  · exact absurd rfl herr

/-! ### All requests -/

/-- A request touches only what it names. -/
structure TouchesNamed (host : Host) (app : App) (r : Request) : Prop where
  read : route r.path = some .getLobby ∨ route r.path = some .findLobbies →
    (handlePlayfab host app r).1.lobbies = app.lobbies
  refused : ∀ reply, (handlePlayfab host app r).2 = some reply → reply.IsError →
    (handlePlayfab host app r).1.lobbies = app.lobbies
  join : route r.path = some .joinLobby → ∀ k,
    (app.lobbies.get? k).map Lobby.connection ≠ some (joinConnection r) →
      (handlePlayfab host app r).1.lobbies.get? k = app.lobbies.get? k
  leave : route r.path = some .leaveLobby ∨ route r.path = some .updateLobby → ∀ k,
    k ≠ bodyLobbyId r.body → (handlePlayfab host app r).1.lobbies.get? k = app.lobbies.get? k
  create : route r.path = some .createLobby → ∀ k, k ≠ createdId host app r →
    (∀ l, app.lobbies.get? k = some l → lobbyOwnerId l ≠ (resolvedPlayer host app r).entityId) →
      (handlePlayfab host app r).1.lobbies.get? k = app.lobbies.get? k
  party : (handlePlayfab host app r).1.party = app.party
  lobbies : (handleParty host app r).1.lobbies = app.lobbies
  sessions : (handleParty host app r).1.sessions = app.sessions
  networks : ∀ nid, partyNetwork host r ≠ some nid →
    (handleParty host app r).1.party.get? nid = app.party.get? nid
  full : partyRoute r.path = some .join → ∀ reply,
    (handleParty host app r).2 = some reply → reply.IsError →
      (handleParty host app r).1.party.get? (joinNetwork host r) =
        (app.party.get? (joinNetwork host r)).map fun net => liveMembers net r.moment.now

end

theorem App.after_ok (host : Host) (app : App) (qs : List Query) : (app.after host qs).Ok := by
  have hempty : ({ app with lobbies := OrdMap.empty } : App).Ok := by
    intro k l hk
    cases hk
  refine run_invariant_all (fun a q ha => ?_) hempty qs
  cases q with
  | playfab r => exact ha.handlePlayfab r
  | party r =>
    obtain ⟨hl, -, ht⟩ := handleParty_lobbies host a r
    exact ha.congr hl ht

/-- In every state that a broker reaches, a request to either service leaves alone what it does
not name: reads and refusals change no lobby; a join, a leave and an update change none but the
one of their connection string or id; a create none but its own and those of its player; neither
service changes the tables of the other; and a party request changes no network but its own,
which a refusal only sweeps. -/
theorem request_touches_named (host : Host) (app : App) (qs : List Query) (r : Request) :
    TouchesNamed host (app.after host qs) r := by
  have hok := app.after_ok host qs
  set s := app.after host qs
  refine
    { read := ?_, refused := ?_, join := ?_, leave := ?_, create := ?_,
      party := handlePlayfab_party host s r, lobbies := (handleParty_lobbies host s r).1,
      sessions := (handleParty_lobbies host s r).2.1,
      networks := fun nid hne => handleParty_other hne, full := ?_ }
  · intro hroute
    rw [handlePlayfab_read hroute.symm]
  · intro reply hreply herr
    exact handlePlayfab_error hok host r hreply herr
  · intro hroute k hk
    rw [handlePlayfab_join hroute]
    exact handleJoin_get? hok hk
  · rintro (hroute | hroute) k hk
    · simp only [handlePlayfab, hroute]
      exact handleLeave_other hk
    · rw [handlePlayfab_update hroute, handleUpdate_get?, if_neg hk]
  · intro hroute k hk howner
    rw [handlePlayfab_create hroute]
    exact handleCreate_get? hk howner
  · intro hroute reply hreply herr
    have hparty : handleParty host s r =
        ((handlePartyJoin host s r).1, some (handlePartyJoin host s r).2) := by
      simp only [handleParty, hroute]
    rw [hparty] at hreply ⊢
    rw [← Option.some_inj.mp hreply] at herr
    exact handlePartyJoin_refused herr

end GbfrLan.Broker
