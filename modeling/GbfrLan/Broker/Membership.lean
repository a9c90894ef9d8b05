import GbfrLan.Broker.Leave
import GbfrLan.Broker.LobbyStore
import GbfrLan.Broker.Update

/-!
# Who is listed in which lobby

A request enters its caller into one lobby at most, and then the reply names that lobby. A
leave only takes members out. An update without a `Members` field keeps the members' ids.
-/
namespace GbfrLan.Broker
open Lib Json

/-- The entity is a member of the lobby. -/
def Listed (app : App) (e id : String) : Prop :=
  ∃ l, app.lobbies.get? id = some l ∧ l.hasMember e = true

instance (app : App) (e id : String) : Decidable (Listed app e id) :=
  decidable_of_iff ((app.lobbies.get? id).any (fun l => l.hasMember e) = true) (by
    unfold Listed
    cases app.lobbies.get? id <;> simp)

/-- The lobby that an accepted create or join names in its reply. -/
def Response.enteredId (r : Response) : Option String :=
  if r.status = 200 then (r.body.get "data").bind fun d => jsonStr d "LobbyId" else none

theorem enteredId_playfabOk (data : Value) :
    (playfabOk data).enteredId = jsonStr data "LobbyId" := by
  simp [Response.enteredId, playfabOk, Value.get_obj, Entries.get?]

/-- The ids that `create_lobby` makes. -/
def madeId (host : Host) (s : String) : String :=
  "lan-" ++ String.ofList ((host.sha1Hex s).toList.take 12)

section
variable (host : Host) (app : App) (r : Request)

theorem dropOwnerLobbies_get? {ownerId k : String} {l : Lobby}
    (h : (dropOwnerLobbies app ownerId).lobbies.get? k = some l) :
    app.lobbies.get? k = some l := by
  unfold dropOwnerLobbies at h
  split_ifs at h
  · exact h
  · simp only [OrdMap.get?_filter, Option.filter_eq_some_iff] at h
    exact h.1

/-- A create makes one lobby, the one in its reply. -/
theorem handleCreate_enters : ∃ (s : String) (resp : Response),
    (handleCreate host app r).2 = .response resp ∧ resp.enteredId = some (madeId host s) ∧
      ∀ k l, (handleCreate host app r).1.lobbies.get? k = some l →
        k = madeId host s ∨ app.lobbies.get? k = some l := by
  obtain ⟨hl, -⟩ := resolvePlayer_frame host app r "anonymous"
  set p := resolvePlayer host app r "anonymous" with hp
  refine ⟨r.moment.nowText ++ p.2.entityId, _, rfl, ?_, ?_⟩
  · rw [enteredId_playfabOk]
    simp [jsonStr, Value.get_obj, Entries.get?, Value.asStr]
    rfl
  · intro k l hk
    have hk' : (((dropOwnerLobbies p.1 p.2.entityId).lobbies.insert
        (madeId host (r.moment.nowText ++ p.2.entityId)) _).get? k) = some l := hk
    rw [OrdMap.get?_insert] at hk'
    split_ifs at hk' with heq
    · exact Or.inl heq
    · rw [← hl]
      exact Or.inr (dropOwnerLobbies_get? p.1 hk')

/-- A join changes one stored lobby, the one in its reply. -/
theorem handleJoin_enters (h : app.Ok) {k : String} {l : Lobby}
    (hk : (handleJoin host app r).1.lobbies.get? k = some l) :
    app.lobbies.get? k = some l ∨ ((app.lobbies.get? k).isSome = true ∧
      ∃ resp : Response, (handleJoin host app r).2 = .response resp ∧
        resp.enteredId = some k) := by
  obtain ⟨hl, ht⟩ := resolvePlayer_frame host app r "anonymous"
  have hres : (resolvePlayer host app r "anonymous").1.Ok := h.congr hl ht
  rw [← hl]
  revert hk
  unfold handleJoin
  simp only
  split
  · exact fun hk => Or.inl hk
  · rename_i lid _
    split
    · exact fun hk => Or.inl hk
    · rename_i lobby hget
      split
      · exact fun hk => Or.inl hk
      · rename_i lobby' hjoin
        intro hk
        rw [OrdMap.get?_insert] at hk
        split_ifs at hk with heq
        · have hid : lobby'.id = lid := ((hres lid lobby hget).join hjoin).id
          refine Or.inr ⟨by rw [heq, hget]; rfl, _, rfl, ?_⟩
          rw [enteredId_playfabOk, heq, ← hid]
          simp [jsonStr, Value.get_obj, Entries.get?, Value.asStr]
        · exact Or.inl hk

theorem Lobby.leave_members {l l' : Lobby} {pid : Option String} (h : l.leave pid = some l') :
    l'.members ⊆ l.members := by
  unfold Lobby.leave at h
  simp only at h
  split at h
  · cases h
  · cases h
    simp only
    split_ifs
    · exact List.nil_subset _
    · cases pid with
      | none => exact List.Subset.refl _
      | some p => exact fun m hm => List.mem_of_mem_filter hm

/-- A leave keeps a lobby with some of its members. -/
theorem handleLeave_members {k : String} {l' : Lobby}
    (h : (handleLeave app r).1.lobbies.get? k = some l') :
    ∃ l, app.lobbies.get? k = some l ∧ l'.members ⊆ l.members := by
  unfold handleLeave at h
  simp only at h
  split at h
  · exact ⟨l', h, List.Subset.refl _⟩
  · rename_i l hl
    cases hleave : l.leave (requestEntityId app r.body r.headers) with
    | none =>
      simp only [hleave, OrdMap.get?_erase] at h
      split_ifs at h
      exact ⟨l', h, List.Subset.refl _⟩
    | some l₁ =>
      simp only [hleave, OrdMap.get?_insert, OrdMap.get?_erase] at h
      split_ifs at h with heq
      · cases h
        exact ⟨l, heq ▸ hl, Lobby.leave_members hleave⟩
      · exact ⟨l', h, List.Subset.refl _⟩

/-- A leave enters nobody. -/
theorem listed_of_handleLeave {e id : String} (h : Listed (handleLeave app r).1 e id) :
    Listed app e id := by
  obtain ⟨l', hget, hmem⟩ := h
  obtain ⟨l, hl, hsub⟩ := handleLeave_members app r hget
  obtain ⟨m, hm, hid⟩ := List.any_eq_true.mp hmem
  exact ⟨l, hl, List.any_eq_true.mpr ⟨m, hsub hm, hid⟩⟩

/-- After a leave its caller is not listed. -/
theorem not_listed_handleLeave {e : String}
    (he : requestEntityId app r.body r.headers = some e) :
    ¬Listed (handleLeave app r).1 e (bodyLobbyId r.body) := by
  rintro ⟨l', hget, hmem⟩
  rw [handleLeave_get? he, if_pos rfl] at hget
  obtain ⟨l, -, hl⟩ := Option.bind_eq_some_iff.mp hget
  split_ifs at hl
  cases hl
  rw [Lobby.hasMember_without] at hmem
  cases hmem

end

/-- Editing members without touching their ids. -/
theorem Lobby.hasMember_modifyFirst {l : Lobby} {p : Value → Bool} {f : Value → Value}
    (hnamed : ∀ m ∈ l.members, (jsonStr m "Id").isSome = true)
    (hf : ∀ m, jsonStr (f m) "Id" = jsonStr m "Id") (e : String) :
    ({ l with members := modifyFirst p f l.members } : Lobby).hasMember e = l.hasMember e := by
  have hid : ∀ m ∈ l.members, memberId (f m) = memberId m := by
    intro m hm
    obtain ⟨s, hs⟩ := Option.isSome_iff_exists.mp (hnamed m hm)
    rw [memberId_of_id hs, memberId_of_id ((hf m).trans hs)]
  have hmap := congrArg (fun ids => ids.any fun i => i == e) (map_modifyFirst hid (p := p))
  simpa [Lobby.hasMember, List.any_map, Function.comp_def] using hmap

theorem Lobby.Ok.hasMember_update {title k : String} {l : Lobby} (h : l.Ok title k) (host : Host)
    {body : Value} (hbody : body.get "Members" = none) (updater : Option String) (e : String) :
    (l.update host body updater).hasMember e = l.hasMember e := by
  set target := memberSetTarget body updater with htarget
  set l₁ := l.updateScalars body with hl₁
  set l₂ := (l₁.deleteMemberData body target).mergeData body with hl₂
  have h₁ : l₁.Ok title k := h.updateScalars body
  have h₂ : l₂.Ok title k := (h₁.deleteMemberData body target).mergeData body
  have hupdate : l.update host body updater = l₂.mergeMemberData host body target := by
    simp [Lobby.update, hbody, hl₂, hl₁, htarget]
  calc (l.update host body updater).hasMember e
      = (l₂.mergeMemberData host body target).hasMember e := by rw [hupdate]
    _ = l₂.hasMember e := by
        unfold Lobby.mergeMemberData
        split
        · exact Lobby.hasMember_modifyFirst h₂.named
            (fun m => jsonStr_insertField (by decide) _ _) e
        · rfl
    _ = l₁.hasMember e := by
        rw [hl₂]
        unfold Lobby.deleteMemberData
        split
        · exact Lobby.hasMember_modifyFirst h₁.named (jsonStr_deleteMemberData _) e
        · rfl
    _ = l.hasMember e := by
        rw [hl₁]
        unfold Lobby.updateScalars
        simp only
        split <;> rfl

/-- An update without a `Members` field enters nobody. -/
theorem listed_of_handleUpdate {host : Host} {app : App} (hok : app.Ok) {r : Request}
    (hbody : r.body.get "Members" = none) {e id : String}
    (h : Listed (handleUpdate host app r).1 e id) : Listed app e id := by
  obtain ⟨l', hget, hmem⟩ := h
  rw [handleUpdate_get?] at hget
  split_ifs at hget
  · obtain ⟨l, hl, rfl⟩ := Option.map_eq_some_iff.mp hget
    rw [(hok id l hl).hasMember_update host hbody] at hmem
    exact ⟨l, hl, hmem⟩
  · exact ⟨l', hget, hmem⟩

/-! ### Requests -/

section
variable {host : Host} {app : App} {r : Request}

theorem handlePlayfab_create (hr : route r.path = some .createLobby) :
    handlePlayfab host app r =
      ((handleCreate host app r).1, some (handleCreate host app r).2) := by
  simp only [handlePlayfab, hr]

theorem handlePlayfab_join (hr : route r.path = some .joinLobby) :
    handlePlayfab host app r = ((handleJoin host app r).1, some (handleJoin host app r).2) := by
  simp only [handlePlayfab, hr]

/-- Searches and lookups leave the broker as it is. -/
theorem handlePlayfab_read (hr : route r.path = some .findLobbies ∨ route r.path = some .getLobby) :
    (handlePlayfab host app r).1 = app := by
  rcases hr with hr | hr <;> simp only [handlePlayfab, hr]

/-- A lobby id in the store was there before or has just been made. -/
theorem handlePlayfab_stored (hok : app.Ok) {k : String}
    (h : ((handlePlayfab host app r).1.lobbies.get? k).isSome = true) :
    (app.lobbies.get? k).isSome = true ∨ ∃ s, k = madeId host s := by
  obtain ⟨l, hl⟩ := Option.isSome_iff_exists.mp h
  have hkept {app' : App} (hl : app'.lobbies.get? k = some l) (h : app'.lobbies = app.lobbies) :
      (app.lobbies.get? k).isSome = true := by rw [← h, hl]; rfl
  unfold handlePlayfab at hl
  split at hl
  · exact Or.inl (hkept hl rfl)
  · exact Or.inl (hkept hl (resolvePlayer_frame _ _ _ _).1)
  · obtain ⟨s, -, -, -, hmade⟩ := handleCreate_enters host app r
    rcases hmade k l hl with hk | hk
    · exact Or.inr ⟨s, hk⟩
    · exact Or.inl (by rw [hk]; rfl)
  · rcases handleJoin_enters host app r hok hl with hk | ⟨hk, -⟩
    · exact Or.inl (by rw [hk]; rfl)
    · exact Or.inl hk
  · exact Or.inl (hkept hl rfl)
  · obtain ⟨l₀, hl₀, -⟩ := handleLeave_members app r hl
    exact Or.inl (by rw [hl₀]; rfl)
  · rw [handleUpdate_get?] at hl
    split_ifs at hl
    · obtain ⟨l₀, hl₀, -⟩ := Option.map_eq_some_iff.mp hl
      exact Or.inl (by rw [hl₀]; rfl)
    · exact Or.inl (by rw [hl]; rfl)
  · exact Or.inl (hkept hl rfl)
  · exact Or.inl (hkept hl rfl)
  · exact Or.inl (hkept hl rfl)

end

end GbfrLan.Broker
