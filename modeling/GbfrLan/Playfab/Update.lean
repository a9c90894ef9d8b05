import GbfrLan.Broker.LobbyStore
import GbfrLan.Broker.Update
import GbfrLan.Lib.Run
import GbfrLan.Playfab.Body
import GbfrLan.Playfab.Client

/-!
# Posts of many clients on one broker

Every client works on its own copies of the lobbies, and a post carries the whole bags of
such a copy. What the broker merges is therefore more than the keys that the update names.
A post changes only those keys exactly when each other key of the copy is on the broker with
the same value at the moment the post is served.
-/
namespace GbfrLan.Playfab
open Lib Json

/-! ### The fields of a post -/

theorem get?_reverse_of_keys {es : List (String × Value)} {k : String} {ks : List String}
    (h : ∀ e ∈ es, e.1 ∈ ks) (hk : k ∉ ks) : Entries.get? k es.reverse = none := by
  rw [Entries.get?_eq_none_iff]
  rintro e he rfl
  exact hk (h e (List.mem_reverse.mp he))

theorem memberEntries_keys (l : Lobby) (target : Option String) (localEntity : String)
    (order : List String) :
    ∀ e ∈ memberEntries l target localEntity order, e.1 ∈ ["MemberData", "MemberEntity"] := by
  unfold memberEntries
  simp only
  split
  · simp
  · split_ifs <;> simp

theorem deleteEntries_keys (searchDelete lobbyDelete : List String) :
    ∀ e ∈ deleteEntries searchDelete lobbyDelete,
      e.1 ∈ ["SearchDataToDelete", "LobbyDataToDelete"] := by
  unfold deleteEntries
  split_ifs <;> simp

theorem scalarEntries_keys (scalars : PostUpdateScalars) :
    ∀ e ∈ scalars.entries, e.1 ∈ ["Owner", "MaxPlayers", "AccessPolicy", "MembershipLock"] := by
  intro e he
  simp only [PostUpdateScalars.entries, List.mem_append, Option.mem_toList,
    Option.map_eq_some_iff] at he
  rcases he with ((⟨_, -, rfl⟩ | ⟨_, -, rfl⟩) | ⟨_, -, rfl⟩) | ⟨_, -, rfl⟩ <;> simp

theorem memberDeleteEntries_keys (target : Option String) (keys : List String) :
    ∀ e ∈ memberDeleteEntries target keys, e.1 ∈ ["MemberDataToDelete"] := by
  unfold memberDeleteEntries
  split_ifs <;> simp

namespace Post

/-- The lobby property keys that the update of the post sets or deletes. -/
def lobbyKeys (p : Post) : List String := (p.update.map fun u => u.lobby.map Prod.fst).getD []

/-- The search property keys that the update of the post sets or deletes. -/
def searchKeys (p : Post) : List String := (p.update.map fun u => u.search.map Prod.fst).getD []

/-- The names of the fields that say nothing about the two bags. -/
def otherNames : List String :=
  ["MemberData", "MemberEntity", "Owner", "MaxPlayers", "AccessPolicy", "MembershipLock",
    "MemberDataToDelete"]

theorem get_entries (p : Post) {k : String} (hk : k ∉ otherNames) :
    (Value.obj p.entries).get k =
      (Entries.get? k (deleteEntries p.searchDelete p.lobbyDelete).reverse).or
        (Entries.get? k [("SearchData", propsValue p.lobby.search p.order.search),
          ("LobbyData", propsValue p.lobby.props p.order.props),
          ("LobbyId", .string p.lobby.id)]) := by
  have hnot {ks : List String} (h : ks ⊆ otherNames) : k ∉ ks := fun hmem => hk (h hmem)
  have hmem := get?_reverse_of_keys
    (memberEntries_keys p.lobby p.memberTarget p.localEntity p.order.member) (hnot (by decide))
  have hscal := get?_reverse_of_keys (scalarEntries_keys p.scalars) (hnot (by decide))
  have hdel := get?_reverse_of_keys
    (memberDeleteEntries_keys p.memberTarget p.memberDelete) (hnot (by decide))
  rw [Value.get_obj, entries, List.reverse_append, List.reverse_append, List.reverse_append,
    List.reverse_append, Entries.get?_append, Entries.get?_append, Entries.get?_append,
    Entries.get?_append, hmem, hscal, hdel]
  simp

theorem get_of_ne (p : Post) {k : String} (hk : k ∉ otherNames)
    (hdel : k ∉ ["SearchDataToDelete", "LobbyDataToDelete"]) :
    (Value.obj p.entries).get k =
      Entries.get? k [("SearchData", propsValue p.lobby.search p.order.search),
        ("LobbyData", propsValue p.lobby.props p.order.props), ("LobbyId", .string p.lobby.id)] := by
  rw [p.get_entries hk,
    get?_reverse_of_keys (deleteEntries_keys p.searchDelete p.lobbyDelete) hdel, Option.none_or]

theorem bodyLobbyId_entries (p : Post) : Broker.bodyLobbyId (.obj p.entries) = p.lobby.id := by
  have hget := p.get_of_ne (k := "LobbyId") (by decide) (by decide)
  simp [Entries.get?] at hget
  simp [Broker.bodyLobbyId, Broker.bodyStr, jsonStr, hget, Value.asStr]

theorem lobbyData_entries (p : Post) :
    ((Value.obj p.entries).get "LobbyData").or ((Value.obj p.entries).get "lobbyData") =
      some (propsValue p.lobby.props p.order.props) := by
  rw [p.get_of_ne (by decide) (by decide)]
  simp [Entries.get?]

theorem searchData_entries (p : Post) :
    ((Value.obj p.entries).get "SearchData").or ((Value.obj p.entries).get "searchData") =
      some (propsValue p.lobby.search p.order.search) := by
  rw [p.get_of_ne (by decide) (by decide)]
  simp [Entries.get?]

theorem members_entries (p : Post) : (Value.obj p.entries).get "Members" = none := by
  rw [p.get_of_ne (by decide) (by decide)]
  simp [Entries.get?]

theorem filterMap_asStr (keys : List String) :
    (keys.map Value.string).filterMap Value.asStr = keys := by
  rw [List.filterMap_map]
  exact List.filterMap_some

/-- A list of keys to delete, written only when there are some. -/
theorem jsonStrArray_of_get {v : Value} {key key' : String} {keys : List String}
    (hget : v.get key = if keys.isEmpty then none else some (strListValue keys))
    (hget' : v.get key' = none) : jsonStrArray v [key, key'] = keys := by
  cases keys with
  | nil =>
    have hnone : v.get key = none := by simpa using hget
    simp [jsonStrArray, hnone, hget']
  | cons k ks =>
    have hsome : v.get key = some (strListValue (k :: ks)) := by simpa using hget
    simp only [jsonStrArray, hsome, Option.bind_some, strListValue, Value.asArray]
    exact filterMap_asStr (k :: ks)

theorem lobbyDataToDelete_entries (p : Post) :
    jsonStrArray (.obj p.entries) ["LobbyDataToDelete", "lobbyDataToDelete"] = p.lobbyDelete := by
  apply jsonStrArray_of_get
  · rw [p.get_entries (by decide), deleteEntries]
    split_ifs <;> simp [Entries.get?]
  · rw [p.get_of_ne (by decide) (by decide)]
    simp [Entries.get?]

theorem searchDataToDelete_entries (p : Post) :
    jsonStrArray (.obj p.entries) ["SearchDataToDelete", "searchDataToDelete"] =
      p.searchDelete := by
  apply jsonStrArray_of_get
  · rw [p.get_entries (by decide), deleteEntries]
    split_ifs <;> simp [Entries.get?]
  · rw [p.get_of_ne (by decide) (by decide)]
    simp [Entries.get?]

theorem foldl_splitPair_keys {kv : KvList} {m : Props × List String} {k : String}
    (h : k ∈ (kv.foldl splitPair m).2) : k ∈ m.2 ∨ k ∈ kv.map Prod.fst := by
  induction kv generalizing m with
  | nil => exact Or.inl h
  | cons e kv ih =>
    rcases ih h with hm | hkv
    · unfold splitPair at hm
      split_ifs at hm
      · exact Or.inl hm
      · split at hm
        · rcases List.mem_append.mp hm with hm | hm
          · exact Or.inl hm
          · right
            rw [List.mem_singleton.mp hm]
            exact List.mem_cons_self
        · exact Or.inl hm
    · exact Or.inr (List.mem_cons_of_mem _ hkv)

/-- Only named keys are deleted. -/
theorem kvListSplit_keys {kv : KvList} {k : String} (h : k ∈ (kvListSplit kv).2) :
    k ∈ kv.map Prod.fst := by
  unfold kvListSplit at h
  split_ifs at h
  · cases h
  · rcases foldl_splitPair_keys h with hnil | hkv
    · cases hnil
    · exact hkv

theorem lobbyDelete_subset (p : Post) : p.lobbyDelete ⊆ p.lobbyKeys := by
  intro k hk
  unfold lobbyDelete at hk
  unfold lobbyKeys
  cases hu : p.update with
  | none => simp [hu] at hk
  | some u =>
    rw [hu] at hk
    exact kvListSplit_keys hk

theorem searchDelete_subset (p : Post) : p.searchDelete ⊆ p.searchKeys := by
  intro k hk
  unfold searchDelete at hk
  unfold searchKeys
  cases hu : p.update with
  | none => simp [hu] at hk
  | some u =>
    rw [hu] at hk
    exact kvListSplit_keys hk

end Post

/-! ### A post on the broker -/

theorem get?_propsValue (m : Props) (order : List String) (k : String) :
    Entries.get? k (Broker.asObjOrEmpty (some (propsValue m order))) =
      (m.get? k).map .string :=
  get_propsValue m order k

theorem keysNodup_propsValue (m : Props) (order : List String) :
    Broker.KeysNodup (Broker.asObjOrEmpty (some (propsValue m order))) := by
  unfold Broker.KeysNodup List.Nodup
  rw [List.pairwise_map]
  have hsorted := OrdMap.sorted_foldl_insert
    ((m.iterEntries order).map fun e => (e.1, Value.string e.2)) [] List.Pairwise.nil
  exact hsorted.imp fun h => ne_of_lt h

/-- A post on the lobby data of its lobby. -/
theorem Post.get?_lobbyData (host : Broker.Host) (p : Post) (l : Broker.Lobby)
    (updater : Option String) (k : String) :
    Entries.get? k (l.update host (.obj p.entries) updater).lobbyData =
      ((p.lobby.props.get? k).map .string).or
        (if k ∈ p.lobbyDelete then none else Entries.get? k l.lobbyData) := by
  rw [(l.update_data host _ updater).1, p.lobbyDataToDelete_entries, p.lobbyData_entries,
    Broker.get?_mergeFields k (keysNodup_propsValue _ _), get?_propsValue,
    Entries.get?_foldl_erase]

theorem Post.get?_searchData (host : Broker.Host) (p : Post) (l : Broker.Lobby)
    (updater : Option String) (k : String) :
    Entries.get? k (l.update host (.obj p.entries) updater).searchData =
      ((p.lobby.search.get? k).map .string).or
        (if k ∈ p.searchDelete then none else Entries.get? k l.searchData) := by
  rw [(l.update_data host _ updater).2, p.searchDataToDelete_entries, p.searchData_entries,
    Broker.get?_mergeFields k (keysNodup_propsValue _ _), get?_propsValue,
    Entries.get?_foldl_erase]

/-- Every key of the copy that is not named has its value in the bag of the broker. -/
def Current (copy : Props) (named : List String) (bag : Fields) : Prop :=
  ∀ e ∈ copy.entries, e.1 ∉ named → (Entries.get? e.1 bag).bind Value.asStr = some e.2

instance (copy : Props) (named : List String) (bag : Fields) :
    Decidable (Current copy named bag) :=
  inferInstanceAs (Decidable (∀ e ∈ copy.entries, _ → _))

theorem bind_asStr_eq_some {o : Option Value} {s : String} :
    o.bind Value.asStr = some s ↔ o = some (.string s) := by
  constructor
  · intro h
    obtain ⟨v, rfl, hv⟩ := Option.bind_eq_some_iff.mp h
    cases v with
    | string t => simpa [Value.asStr] using hv
    | _ => simp [Value.asStr] at hv
  · rintro rfl
    rfl

/-- The merge leaves the other keys alone exactly when the copy is current on them. -/
theorem unchanged_iff_current {copy : Props} {named deleted : List String} {bag : Fields}
    (hdel : deleted ⊆ named) :
    (∀ k ∉ named, ((copy.get? k).map Value.string).or
        (if k ∈ deleted then none else Entries.get? k bag) = Entries.get? k bag) ↔
      Current copy named bag := by
  constructor
  · intro h e he hk
    have hcopy : copy.get? e.1 = some e.2 := (OrdMap.mem_entries_iff copy e.1 e.2).mp he
    have hbag := h e.1 hk
    rw [hcopy] at hbag
    exact bind_asStr_eq_some.mpr hbag.symm
  · intro h k hk
    have hnot : k ∉ deleted := fun hmem => hk (hdel hmem)
    rw [if_neg hnot]
    cases hcopy : copy.get? k with
    | none => rfl
    | some v =>
      have hbag := h (k, v) ((OrdMap.mem_entries_iff copy k v).mpr hcopy) hk
      rw [bind_asStr_eq_some.mp hbag]
      rfl

/-- An entry of the lobby data of a lobby. -/
def lobbyEntry (app : Broker.App) (id k : String) : Option Value :=
  (app.lobbies.get? id).bind fun l => Entries.get? k l.lobbyData

/-- An entry of the search data of a lobby. -/
def searchEntry (app : Broker.App) (id k : String) : Option Value :=
  (app.lobbies.get? id).bind fun l => Entries.get? k l.searchData

namespace Post

/-- Between the two states only entries under keys that the post names have changed. -/
def OnlyNamed (p : Post) (app app' : Broker.App) : Prop :=
  ∀ id, (∀ k ∉ p.lobbyKeys, lobbyEntry app' id k = lobbyEntry app id k) ∧
    ∀ k ∉ p.searchKeys, searchEntry app' id k = searchEntry app id k

/-- The copy that the post was made from is current on the keys that the post does not name. -/
def Fresh (p : Post) (app : Broker.App) : Prop :=
  ∀ l ∈ app.lobbies.get? p.lobby.id,
    Current p.lobby.props p.lobbyKeys l.lobbyData ∧ Current p.lobby.search p.searchKeys l.searchData

instance (p : Post) (app : Broker.App) : Decidable (p.Fresh app) :=
  inferInstanceAs (Decidable (∀ l ∈ app.lobbies.get? p.lobby.id,
    Current p.lobby.props p.lobbyKeys l.lobbyData ∧
      Current p.lobby.search p.searchKeys l.searchData))

/-- Serving the request of a post. -/
theorem onlyNamed_iff_fresh (host : Broker.Host) (p : Post) (app : Broker.App)
    {r : Broker.Request} (hbody : r.body = .obj p.entries) :
    p.OnlyNamed app (Broker.handleUpdate host app r).1 ↔ p.Fresh app := by
  have hget (id : String) := Broker.handleUpdate_get? host app r id
  rw [hbody, p.bodyLobbyId_entries] at hget
  constructor
  · intro h l hl
    obtain ⟨hlobby, hsearch⟩ := h p.lobby.id
    simp only [lobbyEntry, searchEntry, hget, if_true, Option.mem_def.mp hl, Option.map_some,
      Option.bind_some, get?_lobbyData, get?_searchData] at hlobby hsearch
    exact ⟨(unchanged_iff_current p.lobbyDelete_subset).mp hlobby,
      (unchanged_iff_current p.searchDelete_subset).mp hsearch⟩
  · intro h id
    unfold lobbyEntry searchEntry
    rw [hget]
    by_cases hid : id = p.lobby.id
    · subst hid
      rw [if_pos rfl]
      cases hl : app.lobbies.get? p.lobby.id with
      | none => exact ⟨fun _ _ => rfl, fun _ _ => rfl⟩
      | some l =>
        obtain ⟨hlobby, hsearch⟩ := h l hl
        simp only [Option.map_some, Option.bind_some, get?_lobbyData, get?_searchData]
        exact ⟨(unchanged_iff_current p.lobbyDelete_subset).mpr hlobby,
          (unchanged_iff_current p.searchDelete_subset).mpr hsearch⟩
    · rw [if_neg hid]
      exact ⟨fun _ _ => rfl, fun _ _ => rfl⟩

end Post

/-! ### Runs -/

/-- Clients that share a broker. -/
structure World where
  app : Broker.App
  clients : ℕ → Client

namespace World

/-- A step of one client, or a request from elsewhere. -/
inductive Step where
  | client (i : ℕ) (e : Event)
  | outside (r : Broker.Request)

section
variable (host : Broker.Host) (readFloat : List Char → Option UInt64)

def step (w : World) : Step → World
  | .client i e =>
      let (app, c) := (w.clients i).step host readFloat w.app e
      ⟨app, Function.update w.clients i c⟩
  | .outside r => { w with app := (Broker.handlePlayfab host w.app r).1 }

end

/-- The post that the broker serves in this step. -/
def posting (w : World) : Step → Option Post
  | .client i (.work _ o) =>
      match (w.clients i).worker with
      | .sending (.post j) => if o = .lost then none else some j.post
      | _ => none
  | _ => none

section
variable (host : Broker.Host) (readFloat : List Char → Option UInt64)

/-- The names in the copy behind a served post need no escape. -/
def PlainPost (w : World) (s : Step) : Prop := ∀ p ∈ w.posting s, p.lobby.Plain

/-- A served post finds its copy current on the keys that it does not name. -/
def FreshPost (w : World) (s : Step) : Prop := ∀ p ∈ w.posting s, p.Fresh w.app

instance (w : World) (s : Step) : Decidable (w.PlainPost s) :=
  inferInstanceAs (Decidable (∀ p ∈ w.posting s, p.lobby.Plain))

instance (w : World) (s : Step) : Decidable (w.FreshPost s) :=
  inferInstanceAs (Decidable (∀ p ∈ w.posting s, p.Fresh w.app))

/-- A served post changes only what it names. -/
def NamedPost (w : World) (s : Step) : Prop :=
  ∀ p ∈ w.posting s, p.OnlyNamed w.app (w.step host readFloat s).app

variable {host readFloat}

theorem readBody_postBody {p : Post} (h : p.lobby.Plain) :
    readBody readFloat p.body = .obj p.entries := by
  have hne : p.body.isEmpty = false := rfl
  rw [readBody, hne, fromSlice_postBody h]
  rfl

theorem route_updateLobby : Broker.route "/Lobby/UpdateLobby" = some .updateLobby := by
  decide +kernel

variable (host readFloat)

/-- What a served post does to the broker. -/
theorem step_of_posting {w : World} {s : Step} {p : Post} (hp : w.posting s = some p)
    (hplain : p.lobby.Plain) : ∃ r : Broker.Request, r.body = .obj p.entries ∧
      (w.step host readFloat s).app = (Broker.handleUpdate host w.app r).1 := by
  unfold posting at hp
  split at hp
  · rename_i i m o
    split at hp
    · rename_i j hworker
      split_ifs at hp with ho
      obtain rfl := Option.some.inj hp
      set r := request readFloat (w.clients i) m "/Lobby/UpdateLobby" j.post.body with hr
      have hbody : r.body = .obj j.post.entries := by
        rw [hr, request, readBody_postBody hplain]
      refine ⟨r, hbody, ?_⟩
      show ((w.clients i).work host readFloat w.app m o).1 = _
      have hserved : (Broker.handlePlayfab host w.app r).1 = (Broker.handleUpdate host w.app r).1 :=
        @Broker.handlePlayfab_update host w.app r route_updateLobby
      rw [Client.work_sending m o hworker, ← hserved]
      exact exchange_app host ho
    · cases hp
  · cases hp

/-- In every run in which the names of posts need no escape: each post changes only the keys
that it names exactly when each post finds its copy current on all other keys. -/
theorem namedPosts_iff_freshPosts (w : World) (ss : List Step)
    (hplain : Along (step host readFloat) PlainPost w ss) :
    Along (step host readFloat) (NamedPost host readFloat) w ss ↔
      Along (step host readFloat) FreshPost w ss := by
  refine along_congr (fun w s hs => ?_) hplain
  refine forall₂_congr fun p hp => ?_
  obtain ⟨r, hbody, happ⟩ := step_of_posting host readFloat hp (hs p hp)
  rw [happ]
  exact p.onlyNamed_iff_fresh host w.app hbody

end

/-- One key of the lobby data set through the first handle of a client. -/
def setKey (i : ℕ) (k v : String) : Step :=
  let update : DataUpdate := ⟨none, none, none, none, [], [(k, some v)]⟩
  .client i (.call (.postUpdate 0 none (some update) none ⟨[], [], []⟩))

/-- Steps of the worker of a client, with every request served. -/
def works (i n : ℕ) : List Step :=
  List.replicate n (.client i (.work ⟨1767225600, "1767225600.5", []⟩ .served))

/-- A client makes a lobby with the property `a`, and another client joins it. -/
def sharedLobby : List Step :=
  let order : Orders := ⟨[], [], []⟩
  let owner : EntityKey := ⟨"owner-1", "title_player_account"⟩
  let guest : EntityKey := ⟨"guest-1", "title_player_account"⟩
  [.client 0 (.call .initializeMp), .client 0 (.call (.setEntityToken owner "token-0")),
    .client 0 (.call (.createAndJoinLobby owner (some ⟨4, 1, [], [("a", some "1")]⟩) [] order))] ++
  works 0 3 ++
  [.client 1 (.call .initializeMp), .client 1 (.call (.setEntityToken guest "token-1")),
    .client 1 (.call (.joinLobby guest "lan.1AC1AD.lan-2b05b16a57c6" [] order))] ++
  works 1 5

/-- The guest sets `a` to a new value. -/
def guestSets : List Step := sharedLobby ++ [setKey 1 "a" "2"] ++ works 1 3

/-- A broker without lobbies and clients that have not been started. -/
def start : World := ⟨Broker.App.new "1AC1AD" 8 false, fun _ => Client.new⟩

/-- The owner polls before it sets another key. -/
def pollThenPost : List Step := guestSets ++ works 0 4 ++ [setKey 0 "b" "x"] ++ works 0 3

/-- The owner sets another key from its old copy; the request is on its way. -/
def postFromOldCopy : List Step := guestSets ++ [setKey 0 "b" "x"] ++ works 0 1

/-- The text of an entry of the lobby data in these runs. -/
def lobbyText (w : World) (k : String) : Option String :=
  (lobbyEntry w.app "lan-2b05b16a57c6" k).bind Value.asStr

theorem pollThenPost_namedPosts :
    let step := step Broker.anonymousHost fun _ => none
    Along step (NamedPost Broker.anonymousHost fun _ => none) start pollThenPost ∧
      (run step start pollThenPost).lobbyText "a" = some "2" ∧
      (run step start pollThenPost).lobbyText "b" = some "x" := by
  intro step
  -- One evaluation of the run for all four facts.
  obtain ⟨hplain, hfresh, ha, hb⟩ : Along step PlainPost start pollThenPost ∧
      Along step FreshPost start pollThenPost ∧
      (run step start pollThenPost).lobbyText "a" = some "2" ∧
      (run step start pollThenPost).lobbyText "b" = some "x" := by decide +kernel
  exact ⟨(namedPosts_iff_freshPosts _ _ start pollThenPost hplain).mpr hfresh, ha, hb⟩

theorem oldCopy_reverts_key :
    let step := step Broker.anonymousHost fun _ => none
    let w := run step start postFromOldCopy
    let serve := Step.client 0 (.work ⟨1767225600, "1767225600.5", []⟩ .served)
    ¬Along step (NamedPost Broker.anonymousHost fun _ => none) start (postFromOldCopy ++ [serve]) ∧
      (w.posting serve).map Post.lobbyKeys = some ["b"] ∧
      w.lobbyText "a" = some "2" ∧ (step w serve).lobbyText "a" = some "1" := by
  intro step w serve
  obtain ⟨hkeys, hbefore, hafter⟩ : (w.posting serve).map Post.lobbyKeys = some ["b"] ∧
      w.lobbyText "a" = some "2" ∧ (step w serve).lobbyText "a" = some "1" := by decide +kernel
  refine ⟨?_, hkeys, hbefore, hafter⟩
  intro hrun
  obtain ⟨p, hp, hnames⟩ := Option.map_eq_some_iff.mp hkeys
  have hnamed := ((along_append _ _ _ _ _).mp hrun).2.1 p hp
  have hsame := (hnamed "lan-2b05b16a57c6").1 "a" (by rw [hnames]; decide)
  have htext : (step w serve).lobbyText "a" = w.lobbyText "a" :=
    congrArg (fun o => o.bind Value.asStr) hsame
  have htwo : some "1" = some "2" := hafter.symm.trans (htext.trans hbefore)
  exact absurd htwo (by decide)

end World

end GbfrLan.Playfab
