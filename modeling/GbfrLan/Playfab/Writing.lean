import GbfrLan.Lib.WriteThrough
import GbfrLan.Playfab.Posting

/-!
# The last word of a single writer

All posts to a lobby go through one handle. Each carries the whole bags of the handle, so a
post also writes keys that it does not name, with the values that the copy has for them. The
reply to a poll replaces the copy. When it was made before a post has reached the broker, the
copy goes back to older values, and the next post writes them again. Without such a reply the
broker ends with the last word on every key.
-/
namespace GbfrLan.Playfab
open Lib Json

/-- A list of a post as an update of a bag. -/
def listUpdate (kv : KvList) : Update String Value := fun k => (outcome kv k).map wanted

/-- A bag of a handle. -/
def propsBag (m : Props) : Bag String Value := fun k => (m.get? k).map Value.string

namespace Post

/-- What serving the post does to the lobby data. -/
def lobbyEffect (p : Post) (b : Bag String Value) : Bag String Value := fun k =>
  (propsBag p.lobby.props k).or (if k ∈ p.lobbyDelete then none else b k)

def searchEffect (p : Post) (b : Bag String Value) : Bag String Value := fun k =>
  (propsBag p.lobby.search k).or (if k ∈ p.searchDelete then none else b k)

end Post

section
variable {l : Lobby} {member : Option EntityKey} {update : Option DataUpdate}
  {memberUpdate : Option MemberDataUpdate} {localEntity : String} {order : Orders} {p : Post}

theorem propsBag_applyList (m : Props) {kv : KvList} (h : kv.Fits) :
    propsBag (applyList m kv) = (listUpdate kv).override (propsBag m) := by
  funext k
  show ((applyList m kv).get? k).map Value.string =
    ((outcome kv k).map wanted).getD ((m.get? k).map Value.string)
  rw [get?_applyList m h]
  cases outcome kv k with
  | none => rfl
  | some o => cases o <;> rfl

/-- A post writes its lists, and carries the copy that it was made from. -/
theorem lobbyEffect_of_post
    (h : postUpdate l member update memberUpdate localEntity order = some p)
    (hfits : (lobbyList update).Fits) :
    p.lobbyEffect = (listUpdate (lobbyList update)).through (propsBag l.props) := by
  obtain ⟨hprops, -, hdelete, -, -⟩ := postUpdate_bags h
  funext b k
  unfold Post.lobbyEffect
  rw [hprops, hdelete]
  exact merged_applyList l.props hfits (b k) k

theorem searchEffect_of_post
    (h : postUpdate l member update memberUpdate localEntity order = some p)
    (hfits : (searchList update).Fits) :
    p.searchEffect = (listUpdate (searchList update)).through (propsBag l.search) := by
  obtain ⟨-, hsearch, -, hdelete, -⟩ := postUpdate_bags h
  funext b k
  unfold Post.searchEffect
  rw [hsearch, hdelete]
  exact merged_applyList l.search hfits (b k) k

end

/-! ### What a poll reads -/

/-- `json_obj` finds the two bags of the lobby in the reply. It looks for a name at any depth,
so another object of that name in front of a bag would be taken for it. -/
def ReadsBags (host : Broker.Host) (r : Broker.Response) : Prop :=
  ∀ key ∈ ["LobbyData", "SearchData"],
    ∀ e ∈ (scanObj (Broker.numberText host) r.body key).entries,
      ((((r.body.get "data").bind fun d => d.get key).bind fun bag => bag.get e.1).bind
        (scalarText (Broker.numberText host))) = some e.2

instance (host : Broker.Host) (r : Broker.Response) : Decidable (ReadsBags host r) :=
  inferInstanceAs (Decidable (∀ key ∈ ["LobbyData", "SearchData"],
    ∀ e ∈ (scanObj (Broker.numberText host) r.body key).entries, _ = some e.2))

/-- The reply has the two bags of a lobby of the broker. -/
def Shows (r : Broker.Response) (app : Broker.App) (id : String) : Prop :=
  ∀ k, (((r.body.get "data").bind fun d => d.get "LobbyData").bind fun bag => bag.get k) =
      lobbyEntry app id k ∧
    (((r.body.get "data").bind fun d => d.get "SearchData").bind fun bag => bag.get k) =
      searchEntry app id k

/-- A value that was read for a key with the last word `o` is this one. -/
theorem read_lastWord {host : Broker.Host} {r : Broker.Response} {key : String}
    (hreads : ReadsBags host r) (hkey : key ∈ ["LobbyData", "SearchData"]) {kvs : List KvList}
    {k : String} {v : Value} {o : Option Value}
    (hv : propsBag (applyProps OrdMap.empty (scanObj (Broker.numberText host) r.body key)) k =
      some v)
    (ho : Update.lastWord (kvs.map listUpdate) k = some o)
    (hbag : (((r.body.get "data").bind fun d => d.get key).bind fun bag => bag.get k) = o) :
    o = some v := by
  unfold propsBag at hv
  rw [get?_applyProps, OrdMap.get?_empty, Option.or_none, Option.map_map] at hv
  obtain ⟨t, ht, hvt⟩ := Option.map_eq_some_iff.mp hv
  have hread := hreads key hkey (k, t) ((OrdMap.mem_entries_iff _ k t).mpr ht)
  simp only [hbag] at hread
  obtain ⟨u, hu, huo⟩ := List.exists_of_findSome?_eq_some ho
  obtain ⟨kv, -, rfl⟩ := List.mem_map.mp (List.mem_reverse.mp hu)
  obtain ⟨w, -, hw⟩ := Option.map_eq_some_iff.mp huo
  cases w with
  | none =>
    subst hw
    cases hread
  | some w =>
    subst hw
    have htext : t = cString w := (Option.some.inj hread).symm
    rw [← hvt, htext]
    exact congrArg (fun s => some (Value.string s)) (cString_cString w).symm

/-! ### Runs -/

/-- The two bags of the lobby are the same, or there is none before and after. -/
def SameBags (app app' : Broker.App) (id : String) : Prop :=
  (app'.lobbies.get? id).map (fun l => (l.lobbyData, l.searchData)) =
    (app.lobbies.get? id).map fun l => (l.lobbyData, l.searchData)

instance (app app' : Broker.App) (id : String) : Decidable (SameBags app app' id) :=
  inferInstanceAs (Decidable (_ = _))

theorem SameBags.entries {app app' : Broker.App} {id : String} (h : SameBags app app' id) :
    lobbyEntry app' id = lobbyEntry app id ∧ searchEntry app' id = searchEntry app id := by
  have hlobby (app : Broker.App) (k : String) : lobbyEntry app id k =
      ((app.lobbies.get? id).map fun l => (l.lobbyData, l.searchData)).bind
        fun bags => Entries.get? k bags.1 := by
    unfold lobbyEntry
    cases app.lobbies.get? id <;> rfl
  have hsearch (app : Broker.App) (k : String) : searchEntry app id k =
      ((app.lobbies.get? id).map fun l => (l.lobbyData, l.searchData)).bind
        fun bags => Entries.get? k bags.2 := by
    unfold searchEntry
    cases app.lobbies.get? id <;> rfl
  constructor
  · funext k
    rw [hlobby, hlobby, h]
  · funext k
    rw [hsearch, hsearch, h]

theorem Shows.congr {r : Broker.Response} {app app' : Broker.App} {id : String}
    (h : Shows r app id) (hsame : SameBags app app' id) : Shows r app' id := by
  obtain ⟨hlobby, hsearch⟩ := hsame.entries
  intro k
  rw [hlobby, hsearch]
  exact h k

namespace Client

/-- The posts through a handle that have not been served. -/
def jobsOf (c : Client) (h : ℕ) : List PostJob := c.postJobs.filter fun j => j.lobby == h

def lobbyId (c : Client) (h : ℕ) : String := ((c.copy h).map Prod.fst).getD ""

def lobbyCopy (c : Client) (h : ℕ) : Bag String Value := fun k =>
  (c.copy h).bind fun t => propsBag t.2.1 k

def searchCopy (c : Client) (h : ℕ) : Bag String Value := fun k =>
  (c.copy h).bind fun t => propsBag t.2.2 k

end Client

/-- The polls that are left in a round. -/
def Worker.pollList : Worker → List (ℕ × String)
  | .polling targets => targets
  | .polled _ _ targets => targets
  | _ => []

namespace Posting

/-- The posts through a handle, in order. -/
def posted (s : Posting) (h : ℕ) : List Asked := s.asked.filter fun a => a.lobby == h

def lobbyWrites (s : Posting) (h : ℕ) : List (Update String Value) :=
  ((s.posted h).map fun a => lobbyList a.update).map listUpdate

def searchWrites (s : Posting) (h : ℕ) : List (Update String Value) :=
  ((s.posted h).map fun a => searchList a.update).map listUpdate

section
variable (host : Broker.Host) (readFloat : List Char → Option UInt64) (h : ℕ)

/-- The posts to the lobby of the handle go through the handle and succeed, each made when the
handle had its id, with lists and names that are taken as they are. From the first one on
nothing else changes the bags of the lobby, and a reply to a poll is applied only while none
of the posts is on its way. -/
def OneWriter (s : Posting) : Step → Prop
  | .client (.call e) => ∀ a ∈ accepted s.client e, a.lobby = h →
      s.client.Settled h ∧ (lobbyList a.update).Fits ∧ (searchList a.update).Fits ∧
        Read.Plain (s.client.lobbyId h)
  | .client (.work m o) =>
      match s.client.worker with
      | .sending job =>
          if (job.postJob.any fun j => j.lobby == h) = true then
            o = .served ∧ ∀ j ∈ job.postJob, j.post.lobby.Plain ∧
              (s.app.lobbies.get? j.post.lobby.id).isSome = true
          else s.posted h ≠ [] →
            SameBags s.app (s.client.work host readFloat s.app m o).1 (s.client.lobbyId h)
      | .polled t (some r) _ => t = h → r.status = 200 → s.posted h ≠ [] →
          s.client.jobsOf h = [] ∧ ReadsBags host r
      | _ => True
  | .others app => s.posted h ≠ [] → SameBags s.app app (s.client.lobbyId h)

instance (s : Posting) : ∀ e, Decidable (s.OneWriter host readFloat h e)
  | .client (.call e) => inferInstanceAs (Decidable (∀ a ∈ accepted s.client e, _))
  | .client (.work m o) => by
    unfold OneWriter
    exact match s.client.worker with
      | .sending _ | .polled _ (some _) _ => inferInstance
      | .idle | .answered _ _ | .fetching _ _ | .fetched _ _ | .polling _ | .polled _ none _ =>
          inferInstanceAs (Decidable True)
  | .others _ => inferInstanceAs (Decidable (_ → _))

end

/-- What holds in a run with one writer. -/
structure Kept (h : ℕ) (s : Posting) : Prop where
  unposted : s.posted h = [] → s.client.jobsOf h = []
  settled : s.posted h ≠ [] → s.client.Settled h ∧ Read.Plain (s.client.lobbyId h)
  jobs : ∀ j ∈ s.client.jobsOf h, j.post.lobby.id = s.client.lobbyId h
  lobby : Tracks (s.lobbyWrites h) (s.client.lobbyCopy h)
    ((s.client.jobsOf h).map fun j => j.post.lobbyEffect) (lobbyEntry s.app (s.client.lobbyId h))
  search : Tracks (s.searchWrites h) (s.client.searchCopy h)
    ((s.client.jobsOf h).map fun j => j.post.searchEffect)
    (searchEntry s.app (s.client.lobbyId h))
  targets : ∀ id, (h, id) ∈ s.client.worker.pollList →
    s.client.Settled h ∧ s.client.lobbyId h = id
  polled : ∀ r ts, s.client.worker = .polled h (some r) ts → r.status = 200 →
    s.posted h ≠ [] → s.client.jobsOf h = [] → Shows r s.app (s.client.lobbyId h)

variable {host : Broker.Host} {readFloat : List Char → Option UInt64} {h : ℕ} {s : Posting}

/-- A step that leaves the copy, the posts on their way and the bags alone. -/
theorem Kept.frame (hk : s.Kept h) (s' : Posting) (hposted : s'.posted h = s.posted h)
    (hjobs : s'.client.jobsOf h = s.client.jobsOf h)
    (hsettled : s.client.Settled h → s'.client.Settled h)
    (hcopy : s.posted h ≠ [] → s.client.Settled h → s'.client.copy h = s.client.copy h)
    (hbags : s.posted h ≠ [] → SameBags s.app s'.app (s.client.lobbyId h))
    (htargets : ∀ id, (h, id) ∈ s'.client.worker.pollList →
      s'.client.Settled h ∧ s'.client.lobbyId h = id)
    (hpolled : ∀ r ts, s'.client.worker = .polled h (some r) ts → r.status = 200 →
      s.posted h ≠ [] → s.client.jobsOf h = [] → Shows r s'.app (s.client.lobbyId h)) :
    s'.Kept h := by
  have hlobby : s'.lobbyWrites h = s.lobbyWrites h := by simp only [lobbyWrites, hposted]
  have hsearch : s'.searchWrites h = s.searchWrites h := by simp only [searchWrites, hposted]
  by_cases hnone : s.posted h = []
  · have hempty : s.client.jobsOf h = [] := hk.unposted hnone
    have hlobby' : s'.lobbyWrites h = [] := by rw [hlobby, lobbyWrites, hnone]; rfl
    have hsearch' : s'.searchWrites h = [] := by rw [hsearch, searchWrites, hnone]; rfl
    constructor
    · exact fun _ => hjobs.trans hempty
    · exact fun hp => absurd (hposted.trans hnone) hp
    · rw [hjobs, hempty]
      exact fun j hj => by cases hj
    · rw [hlobby', hjobs, hempty]
      exact .start _ _
    · rw [hsearch', hjobs, hempty]
      exact .start _ _
    · exact htargets
    · exact fun _ _ _ _ hp => absurd (hposted.trans hnone) hp
  · obtain ⟨hset, hplain⟩ := hk.settled hnone
    have hsame := hcopy hnone hset
    have hid : s'.client.lobbyId h = s.client.lobbyId h := by simp only [Client.lobbyId, hsame]
    have hlcopy : s'.client.lobbyCopy h = s.client.lobbyCopy h := by
      unfold Client.lobbyCopy
      rw [hsame]
    have hscopy : s'.client.searchCopy h = s.client.searchCopy h := by
      unfold Client.searchCopy
      rw [hsame]
    obtain ⟨hlbag, hsbag⟩ := (hbags hnone).entries
    constructor
    · exact fun hp => absurd (hposted.symm.trans hp) hnone
    · rw [hid]
      exact fun _ => ⟨hsettled hset, hplain⟩
    · rw [hjobs, hid]
      exact hk.jobs
    · rw [hlobby, hlcopy, hjobs, hid, hlbag]
      exact hk.lobby
    · rw [hsearch, hscopy, hjobs, hid, hsbag]
      exact hk.search
    · exact htargets
    · rw [hid, hposted, hjobs]
      exact hpolled

theorem SameBags.refl (app : Broker.App) (id : String) : SameBags app app id := rfl

/-- A call that does not post through the handle. -/
theorem Kept.otherCall (hk : s.Kept h) {e : Call} (hposts : ∀ a ∈ accepted s.client e, a.lobby ≠ h)
    (hjobs : (s.client.call e).jobsOf h = s.client.jobsOf h)
    (hcopy : s.client.Settled h → (s.client.call e).copy h = s.client.copy h) :
    (s.step host readFloat (.client (.call e))).Kept h := by
  have hworker : (s.client.call e).worker = s.client.worker := by
    obtain ⟨jobs, hadds, -⟩ := s.client.call_adds e
    exact hadds.worker
  refine hk.frame (s.step host readFloat (.client (.call e))) ?_ hjobs
    (fun hset => s.client.settled_call hset e) (fun _ => hcopy) (fun _ => SameBags.refl _ _) ?_ ?_
  · show (s.asked ++ accepted s.client e).filter _ = s.asked.filter _
    have hno : (accepted s.client e).filter (fun a => a.lobby == h) = [] := by
      rw [List.filter_eq_nil_iff]
      intro a ha
      simpa using hposts a ha
    rw [List.filter_append, hno, List.append_nil]
  · intro id hid
    have hid' : (h, id) ∈ s.client.worker.pollList := hworker ▸ hid
    obtain ⟨hset, hlobby⟩ := hk.targets id hid'
    refine ⟨s.client.settled_call hset e, ?_⟩
    show (((s.client.call e).copy h).map Prod.fst).getD "" = id
    rw [hcopy hset]
    exact hlobby
  · intro r ts hw hstatus hp hnone
    exact hk.polled r ts (hworker ▸ hw) hstatus hp hnone

/-- A post through the handle. -/
theorem Kept.post (hk : s.Kept h) {e : Call} {l : Lobby} {member : Option EntityKey}
    {update : Option DataUpdate} {memberUpdate : Option MemberDataUpdate} {order : Orders}
    {p : Post} (hl : s.client.handles[h]? = some l)
    (hp : postUpdate l member update memberUpdate s.client.localEntity order = some p)
    (hone : accepted s.client e = [⟨h, member, update, memberUpdate, s.client.localEntity⟩])
    (hcall : s.client.call e =
      (s.client.setLobby h p.lobby).enqueue (.post ⟨s.client.generation, p, h⟩))
    (hset : s.client.Settled h) (hlist : (lobbyList update).Fits)
    (hlist' : (searchList update).Fits) (hplain : Read.Plain (s.client.lobbyId h)) :
    (s.step host readFloat (.client (.call e))).Kept h := by
  set s' := s.step host readFloat (.client (.call e)) with hs'
  set j : PostJob := ⟨s.client.generation, p, h⟩ with hj
  obtain ⟨hprops, hsearch, -⟩ := postUpdate_bags hp
  have hpid : p.lobby.id = l.id := (Joining.postUpdate_handle hp).1
  have hclient : s'.client = s.client.call e := rfl
  have hworker : s'.client.worker = s.client.worker := by
    obtain ⟨jobs, hadds, -⟩ := s.client.call_adds e
    exact hadds.worker
  have hcopy : s.client.copy h = some (l.id, l.props, l.search) := by
    unfold Client.copy
    rw [hl]
    rfl
  have hcopy' : s'.client.copy h = some (l.id, p.lobby.props, p.lobby.search) := by
    rw [hclient, hcall]
    show (s.client.handles.set h p.lobby)[h]?.map _ = _
    rw [List.getElem?_set_self hset.1, ← hpid]
    rfl
  have hid : s'.client.lobbyId h = s.client.lobbyId h := by
    simp only [Client.lobbyId, hcopy, hcopy', Option.map_some]
  have hpost : p.lobby.id = s.client.lobbyId h := by
    rw [hpid, Client.lobbyId, hcopy]
    rfl
  have hjobs : s'.client.jobsOf h = s.client.jobsOf h ++ [j] := by
    have hposts : s'.client.postJobs = s.client.postJobs ++ [j] := by
      rw [hclient, hcall, postJobs_enqueue]
      rfl
    rw [Client.jobsOf, hposts, List.filter_append, List.filter_singleton]
    simp [hj, Client.jobsOf]
  have hposted : s'.posted h =
      s.posted h ++ [⟨h, member, update, memberUpdate, s.client.localEntity⟩] := by
    show (s.asked ++ accepted s.client e).filter _ = _
    rw [hone, List.filter_append, List.filter_singleton]
    simp [posted]
  have hlcopy : s'.client.lobbyCopy h =
      (listUpdate (lobbyList update)).override (s.client.lobbyCopy h) := by
    have hbefore : s.client.lobbyCopy h = propsBag l.props := by
      unfold Client.lobbyCopy
      rw [hcopy]
      rfl
    rw [hbefore, ← propsBag_applyList l.props hlist, ← hprops]
    unfold Client.lobbyCopy
    rw [hcopy']
    rfl
  have hscopy : s'.client.searchCopy h =
      (listUpdate (searchList update)).override (s.client.searchCopy h) := by
    have hbefore : s.client.searchCopy h = propsBag l.search := by
      unfold Client.searchCopy
      rw [hcopy]
      rfl
    rw [hbefore, ← propsBag_applyList l.search hlist', ← hsearch]
    unfold Client.searchCopy
    rw [hcopy']
    rfl
  have hne : s'.client.jobsOf h ≠ [] := by
    rw [hjobs]
    simp
  constructor
  · rw [hposted]
    simp
  · rw [hid]
    exact fun _ => ⟨s.client.settled_call hset e, hplain⟩
  · rw [hjobs, hid]
    intro j' hj'
    rcases List.mem_append.mp hj' with hold | hnew
    · exact hk.jobs j' hold
    · rw [List.mem_singleton.mp hnew]
      exact hpost
  · have hwrite := hk.lobby.write (listUpdate (lobbyList update))
    have heffect : (listUpdate (lobbyList update)).through (s.client.lobbyCopy h) =
        p.lobbyEffect := by
      rw [lobbyEffect_of_post hp hlist]
      congr 1
      unfold Client.lobbyCopy
      rw [hcopy]
      rfl
    rw [heffect] at hwrite
    rw [hlcopy, hid, hjobs, List.map_append, lobbyWrites, hposted, List.map_append,
      List.map_append]
    exact hwrite
  · have hwrite := hk.search.write (listUpdate (searchList update))
    have heffect : (listUpdate (searchList update)).through (s.client.searchCopy h) =
        p.searchEffect := by
      rw [searchEffect_of_post hp hlist']
      congr 1
      unfold Client.searchCopy
      rw [hcopy]
      rfl
    rw [heffect] at hwrite
    rw [hscopy, hid, hjobs, List.map_append, searchWrites, hposted, List.map_append,
      List.map_append]
    exact hwrite
  · intro id hmem
    rw [hworker] at hmem
    obtain ⟨-, hlobby⟩ := hk.targets id hmem
    exact ⟨s.client.settled_call hset e, hid.trans hlobby⟩
  · exact fun _ _ _ _ _ hempty => absurd hempty hne

theorem Kept.call (hk : s.Kept h) {e : Call}
    (hc : s.OneWriter host readFloat h (.client (.call e))) :
    (s.step host readFloat (.client (.call e))).Kept h := by
  rcases call_cases s.client e with ⟨hnone, hposts, hcopy⟩ |
    ⟨t, member, update, memberUpdate, order, l, p, -, hl, hp, hone, hcall⟩
  · refine hk.otherCall (by simp [hnone]) ?_ fun hset => hcopy h hset.1
    rw [Client.jobsOf, hposts, Client.jobsOf]
  · by_cases ht : t = h
    · subst ht
      obtain ⟨hset, hlist, hlist', hplain⟩ := hc _ (by rw [hone]; exact List.mem_singleton_self _) rfl
      exact hk.post hl hp hone hcall hset hlist hlist' hplain
    · refine hk.otherCall ?_ ?_ ?_
      · rw [hone]
        intro a ha
        rw [List.mem_singleton.mp ha]
        exact ht
      · rw [hcall, Client.jobsOf, postJobs_enqueue, List.filter_append]
        show s.client.postJobs.filter _ ++ [PostJob.mk _ _ t].filter _ = _
        have hno : (t == h) = false := by simpa using ht
        simp [hno, Client.jobsOf]
      · intro _
        rw [hcall]
        exact s.client.copy_setLobby_of_ne (Ne.symm ht) p.lobby

theorem step_work (host : Broker.Host) (readFloat : List Char → Option UInt64) (s : Posting)
    (m : Broker.Moment) (o : Outcome) :
    (s.step host readFloat (.client (.work m o))).app =
        (s.client.work host readFloat s.app m o).1 ∧
      (s.step host readFloat (.client (.work m o))).client =
        (s.client.work host readFloat s.app m o).2 ∧
      (s.step host readFloat (.client (.work m o))).asked = s.asked := by
  unfold Posting.step
  simp only
  split <;> exact ⟨rfl, rfl, rfl⟩

/-- The polls of a round are those that were left, or those of a new round, for which no create
or join is on its way. -/
theorem pollList_receive {c : Client} {reply : Option Broker.Response} {t : ℕ × String}
    (ht : t ∈ (c.receive host reply).worker.pollList) :
    t ∈ c.worker.pollList ∨ (c.unsettled = [] ∧ t ∈ c.pollTargets) := by
  unfold Client.receive at ht
  cases hw : c.worker with
  | idle =>
    rw [hw] at ht
    cases hq : c.queue with
    | nil =>
      rw [hq] at ht
      refine Or.inr ⟨?_, ht⟩
      rw [Client.unsettled, hw, hq]
      rfl
    | cons job queue =>
      rw [hq] at ht
      cases ht
  | answered job reply' =>
    rw [hw] at ht
    cases job with
    | join j =>
      have hjoin : t ∈ (c.joinAnswered host j reply').worker.pollList := ht
      unfold Client.joinAnswered at hjoin
      simp only at hjoin
      split at hjoin <;> cases hjoin
    | _ => cases ht
  | polling targets =>
    rw [hw] at ht
    cases targets with
    | nil => cases ht
    | cons t' targets => exact Or.inl (List.mem_cons_of_mem _ ht)
  | polled t' reply' targets =>
    rw [hw] at ht
    exact Or.inl ht
  | _ =>
    rw [hw] at ht
    cases ht

theorem mem_pollTargets {c : Client} {t : ℕ} {id : String} (ht : (t, id) ∈ c.pollTargets) :
    t < c.handles.length ∧ c.lobbyId t = id := by
  obtain ⟨t', -, hfound⟩ := List.mem_filterMap.mp ht
  obtain ⟨l, hl, heq⟩ := Option.map_eq_some_iff.mp hfound
  obtain ⟨rfl, rfl⟩ := Prod.mk.inj heq
  obtain ⟨hl, -⟩ := Option.filter_eq_some_iff.mp hl
  refine ⟨(List.getElem?_eq_some_iff.mp hl).1, ?_⟩
  rw [Client.lobbyId, Client.copy, hl]
  rfl

/-- The worker, when it neither serves a post through the handle nor applies a poll of it. -/
theorem Kept.turn (hk : s.Kept h) (m : Broker.Moment) (o : Outcome)
    (hsend : ∀ job, s.client.worker = .sending job → ∀ j ∈ job.postJob, j.lobby ≠ h)
    (hpoll : ∀ r ts, s.client.worker ≠ .polled h r ts)
    (hbags : s.posted h ≠ [] →
      SameBags s.app (s.client.work host readFloat s.app m o).1 (s.client.lobbyId h))
    (hshows : ∀ r ts, (s.client.work host readFloat s.app m o).2.worker = .polled h (some r) ts →
      r.status = 200 → s.posted h ≠ [] →
        Shows r (s.client.work host readFloat s.app m o).1 (s.client.lobbyId h)) :
    (s.step host readFloat (.client (.work m o))).Kept h := by
  obtain ⟨happ, hclient, hasked⟩ := step_work host readFloat s m o
  obtain ⟨reply, hreceive⟩ := Client.work_eq_receive host readFloat s.app s.client m o
  have hnext := hclient.trans hreceive
  refine hk.frame _ ?_ ?_ ?_ ?_ ?_ ?_ ?_
  · simp only [posted, hasked]
  · rw [hnext, Client.jobsOf, Client.postJobs, Client.unsent_receive]
    cases hw : s.client.worker with
    | sending job =>
      show ((s.client.unsent.tail).filterMap Job.postJob).filter _ = _
      rw [Client.jobsOf, Client.postJobs, Client.unsent, hw]
      show (s.client.queue.filterMap Job.postJob).filter _ =
        ((job :: s.client.queue).filterMap Job.postJob).filter _
      rw [List.filterMap_cons]
      cases hjob : job.postJob with
      | none => rfl
      | some j =>
        have hne : (j.lobby == h) = false := by simpa using hsend job hw j hjob
        simp [hne]
    | _ => rfl
  · intro hset
    rw [hnext]
    exact Client.settled_receive host reply hset
  · intro _ hset
    rw [hnext]
    exact Client.copy_receive host reply hset hpoll
  · rw [happ]
    exact hbags
  · intro id hmem
    rw [hnext] at hmem ⊢
    rcases pollList_receive hmem with hold | ⟨hunsettled, htarget⟩
    · obtain ⟨hset, hid⟩ := hk.targets id hold
      refine ⟨Client.settled_receive host reply hset, ?_⟩
      rw [Client.lobbyId, Client.copy_receive host reply hset hpoll]
      exact hid
    · obtain ⟨hlt, hid⟩ := mem_pollTargets htarget
      have hset : s.client.Settled h := ⟨hlt, by rw [hunsettled]; simp⟩
      refine ⟨Client.settled_receive host reply hset, ?_⟩
      rw [Client.lobbyId, Client.copy_receive host reply hset hpoll]
      exact hid
  · intro r ts hw hstatus hp _
    rw [happ]
    exact hshows r ts (hclient ▸ hw) hstatus hp

/-- The bags of the broker after a post to the lobby. -/
theorem entries_handleUpdate (host : Broker.Host) {app : Broker.App} {r : Broker.Request}
    {p : Post} (hbody : r.body = .obj p.entries)
    (hheld : (app.lobbies.get? p.lobby.id).isSome = true) :
    lobbyEntry (Broker.handleUpdate host app r).1 p.lobby.id =
        p.lobbyEffect (lobbyEntry app p.lobby.id) ∧
      searchEntry (Broker.handleUpdate host app r).1 p.lobby.id =
        p.searchEffect (searchEntry app p.lobby.id) := by
  obtain ⟨bl, hbl⟩ := Option.isSome_iff_exists.mp hheld
  have hget := Broker.handleUpdate_get? host app r p.lobby.id
  rw [hbody, p.bodyLobbyId_entries, if_pos rfl, hbl, Option.map_some] at hget
  constructor
  · funext k
    show (Option.bind _ _) = _
    rw [hget, Option.bind_some, Post.get?_lobbyData, Post.lobbyEffect, lobbyEntry, hbl]
    rfl
  · funext k
    show (Option.bind _ _) = _
    rw [hget, Option.bind_some, Post.get?_searchData, Post.searchEffect, searchEntry, hbl]
    rfl

/-- The broker serves a post through the handle. -/
theorem Kept.serve (hk : s.Kept h) {j : PostJob} (hw : s.client.worker = .sending (.post j))
    (hj : j.lobby = h) (m : Broker.Moment) (hplain : j.post.lobby.Plain)
    (hheld : (s.app.lobbies.get? j.post.lobby.id).isSome = true) :
    (s.step host readFloat (.client (.work m .served))).Kept h := by
  set s' := s.step host readFloat (.client (.work m .served)) with hs'
  set r := request readFloat s.client m "/Lobby/UpdateLobby" j.post.body with hr
  obtain ⟨happ, hclient, hasked⟩ := step_work host readFloat s m .served
  rw [← hs', Client.work_sending m .served hw] at happ hclient
  rw [← hs'] at hasked
  have hbody : r.body = .obj j.post.entries := by
    rw [hr, request, World.readBody_postBody hplain]
  have hupdate : (Broker.handlePlayfab host s.app r).1 = (Broker.handleUpdate host s.app r).1 :=
    Broker.handlePlayfab_update World.route_updateLobby
  have happ' : s'.app = (Broker.handleUpdate host s.app r).1 := by
    rw [← hupdate]
    exact happ.trans (exchange_app host (by decide))
  have hjobs : s.client.jobsOf h = j :: s'.client.jobsOf h := by
    rw [hclient]
    show ((s.client.unsent.filterMap Job.postJob).filter _) = j :: _
    rw [Client.unsent, hw]
    simp [Worker.sent, Job.postJob, hj, Client.jobsOf, Client.postJobs, Client.unsent]
  have hposted : s'.posted h = s.posted h := by simp only [posted, hasked]
  have hcopy : s'.client.copy h = s.client.copy h := by
    rw [hclient]
    rfl
  have hid : s'.client.lobbyId h = s.client.lobbyId h := by simp only [Client.lobbyId, hcopy]
  have hjid : j.post.lobby.id = s.client.lobbyId h :=
    hk.jobs j (by rw [hjobs]; exact List.mem_cons_self)
  obtain ⟨hlbag, hsbag⟩ := entries_handleUpdate host hbody hheld
  rw [← happ', hjid] at hlbag hsbag
  have hlcopy : s'.client.lobbyCopy h = s.client.lobbyCopy h := by
    unfold Client.lobbyCopy
    rw [hcopy]
  have hscopy : s'.client.searchCopy h = s.client.searchCopy h := by
    unfold Client.searchCopy
    rw [hcopy]
  have hnone : s.posted h ≠ [] := by
    intro hempty
    have := hk.unposted hempty
    rw [hjobs] at this
    cases this
  obtain ⟨hset, hpid⟩ := hk.settled hnone
  have hset' : s'.client.Settled h := by
    obtain ⟨reply, hreceive⟩ := Client.work_eq_receive host readFloat s.app s.client m .served
    rw [(step_work host readFloat s m .served).2.1, hreceive]
    exact Client.settled_receive host reply hset
  constructor
  · exact fun hempty => absurd (hposted.symm.trans hempty) hnone
  · rw [hid]
    exact fun _ => ⟨hset', hpid⟩
  · rw [hid]
    exact fun j' hj' => hk.jobs j' (by rw [hjobs]; exact List.mem_cons_of_mem _ hj')
  · have htracks := hk.lobby
    rw [hjobs, List.map_cons] at htracks
    rw [hlcopy, hid, hlbag, lobbyWrites, hposted]
    exact htracks.serve
  · have htracks := hk.search
    rw [hjobs, List.map_cons] at htracks
    rw [hscopy, hid, hsbag, searchWrites, hposted]
    exact htracks.serve
  · rw [hclient]
    exact fun id hmem => by cases hmem
  · rw [hclient]
    exact fun r ts hworker => by cases hworker

theorem lobbyFromJson_bags {text : Value} {fresh : Lobby}
    (h : lobbyFromJson host text = some fresh) :
    fresh.props = applyProps OrdMap.empty (scanObj (Broker.numberText host) text "LobbyData") ∧
      fresh.search =
        applyProps OrdMap.empty (scanObj (Broker.numberText host) text "SearchData") := by
  unfold lobbyFromJson at h
  obtain ⟨id, -, hid⟩ := Option.bind_eq_some_iff.mp h
  simp only at hid
  split_ifs at hid
  obtain rfl := Option.some.inj hid
  exact ⟨rfl, rfl⟩

/-- The reply to a poll is applied to the handle. -/
theorem Kept.refreshed (hk : s.Kept h) {reply : Option Broker.Response}
    {ts : List (ℕ × String)} (hw : s.client.worker = .polled h reply ts) (m : Broker.Moment)
    (o : Outcome) (hc : s.OneWriter host readFloat h (.client (.work m o))) :
    (s.step host readFloat (.client (.work m o))).Kept h := by
  set s' := s.step host readFloat (.client (.work m o)) with hs'
  obtain ⟨happ, hclient, hasked⟩ := step_work host readFloat s m o
  have hwork : s.client.work host readFloat s.app m o =
      (s.app, { s.client.pollLobby host h reply with worker := .polling ts }) := by
    unfold Client.work
    rw [hw]
  have hreceive : s.client.receive host none =
      { s.client.pollLobby host h reply with worker := .polling ts } := by
    unfold Client.receive
    rw [hw]
  rw [← hs', hwork] at happ hclient
  rw [← hs'] at hasked
  rw [← hreceive] at hclient
  have hposted : s'.posted h = s.posted h := by simp only [posted, hasked]
  have hjobs : s'.client.jobsOf h = s.client.jobsOf h := by
    rw [hclient, Client.jobsOf, Client.postJobs, Client.unsent_receive, hw]
    rfl
  have hsettled (hset : s.client.Settled h) : s'.client.Settled h := by
    rw [hclient]
    exact Client.settled_receive host none hset
  have hid (hset : s.client.Settled h) : s'.client.lobbyId h = s.client.lobbyId h := by
    rw [hclient, Client.lobbyId, Client.id_receive host none hset]
    rfl
  have htargets (id : String) (hmem : (h, id) ∈ s'.client.worker.pollList) :
      s'.client.Settled h ∧ s'.client.lobbyId h = id := by
    rw [hclient, hreceive] at hmem
    obtain ⟨hset, hlobby⟩ := hk.targets id (by rw [hw]; exact hmem)
    exact ⟨hsettled hset, (hid hset).trans hlobby⟩
  have hframe (hcopy : s.posted h ≠ [] → s.client.Settled h →
      s'.client.copy h = s.client.copy h) : s'.Kept h := by
    refine hk.frame s' hposted hjobs hsettled hcopy (fun _ => ?_) htargets ?_
    · rw [happ]
      exact SameBags.refl _ _
    · intro r ts' hworker
      rw [hclient, hreceive] at hworker
      cases hworker
  have hnext : s'.client.copy h = (s.client.pollLobby host h reply).copy h := by
    rw [hclient, hreceive]
    rfl
  rcases Client.copy_pollLobby host reply s.client h with hsame |
    ⟨r, l, fresh, hr, hstatus, hl, hfresh, hcopy⟩
  · exact hframe fun _ _ => hnext.trans hsame
  · by_cases hnone : s.posted h = []
    · exact hframe fun hp => absurd hnone hp
    · subst hr
      have hcond : s.client.jobsOf h = [] ∧ ReadsBags host r := by
        unfold OneWriter at hc
        rw [hw] at hc
        exact hc rfl hstatus hnone
      obtain ⟨hempty, hreads⟩ := hcond
      have hshows := hk.polled r ts hw hstatus hnone hempty
      obtain ⟨hset, hplain⟩ := hk.settled hnone
      obtain ⟨hprops, hsearch⟩ := lobbyFromJson_bags hfresh
      have hlcopy : s'.client.lobbyCopy h = propsBag fresh.props := by
        unfold Client.lobbyCopy
        rw [hnext, hcopy]
        rfl
      have hscopy : s'.client.searchCopy h = propsBag fresh.search := by
        unfold Client.searchCopy
        rw [hnext, hcopy]
        rfl
      constructor
      · exact fun hp => absurd (hposted.symm.trans hp) hnone
      · rw [hid hset]
        exact fun _ => ⟨hsettled hset, hplain⟩
      · rw [hjobs, hempty]
        exact fun j hj => by cases hj
      · have htracks := hk.lobby
        rw [hempty] at htracks
        rw [hjobs, hempty, hid hset, happ, lobbyWrites, hposted, hlcopy, hprops]
        exact htracks.refresh fun k v w hv hword hbag =>
          read_lastWord hreads (by decide) hv hword ((hshows k).1.trans hbag)
      · have htracks := hk.search
        rw [hempty] at htracks
        rw [hjobs, hempty, hid hset, happ, searchWrites, hposted, hscopy, hsearch]
        exact htracks.refresh fun k v w hv hword hbag =>
          read_lastWord hreads (by decide) hv hword ((hshows k).2.trans hbag)
      · exact htargets
      · intro r' ts' hworker
        rw [hclient, hreceive] at hworker
        cases hworker

/-- The broker reads the request of a poll with a plain id as this id. -/
theorem readBody_getBody {id : String} (h : Read.Plain id) :
    readBody readFloat (getBody id) = .obj [("LobbyId", .string id)] := by
  have hread : Read.fromSlice readFloat (getBody id) = some (.obj [("LobbyId", .string id)]) := by
    apply Read.fromSlice_of_reads
    exact Read.ReadsFields.object (.single (by decide) (reads_plain h))
  have hne : (getBody id).isEmpty = false := rfl
  rw [readBody, hne, hread]
  rfl

/-- A reply to a poll that is no error shows the lobby as the broker has it. -/
theorem shows_getLobby {c : Client} {app : Broker.App} {m : Broker.Moment} {o : Outcome}
    {id : String} {r : Broker.Response} (hplain : Read.Plain id)
    (hreply : (exchange host app (request readFloat c m "/Lobby/GetLobby" (getBody id)) o).2 =
      some r) (hstatus : r.status = 200) : Shows r app id := by
  set q := request readFloat c m "/Lobby/GetLobby" (getBody id) with hq
  have hroute : Broker.route q.path = some .getLobby := by
    show Broker.route "/Lobby/GetLobby" = _
    decide +kernel
  have hid : Broker.bodyLobbyId q.body = id := by
    rw [hq, request, readBody_getBody hplain]
    simp [Broker.bodyLobbyId, Broker.bodyStr, jsonStr, Value.get_obj, Entries.get?, Value.asStr]
  have hserved : (Broker.handleGet host app q : Broker.Reply) = .response r := by
    cases o with
    | lost => cases hreply
    | unanswered => cases hreply
    | served =>
      have hanswer : ((Broker.handlePlayfab host app q).2.map answer) = some r := hreply
      simp only [Broker.handlePlayfab, hroute, Option.map_some, Option.some.injEq] at hanswer
      unfold Broker.handleGet at hanswer ⊢
      split at hanswer
      · exact congrArg Broker.Reply.response hanswer
      · exact congrArg Broker.Reply.response hanswer
  unfold Broker.handleGet at hserved
  rw [hid] at hserved
  cases hl : app.lobbies.get? id with
  | none =>
    rw [hl] at hserved
    have hr : Broker.playfabErr "LobbyNotFound" "Lobby not found" = r := by
      simpa [Broker.err] using hserved
    rw [← hr] at hstatus
    cases hstatus
  | some l =>
    rw [hl] at hserved
    have hr : Broker.playfabOk (Broker.lobbyPublic host l) = r := by
      simpa [Broker.ok] using hserved
    have hdata : r.body.get "data" = some (Broker.lobbyPublic host l) := by
      rw [← hr]
      simp [Broker.playfabOk, Value.get_obj, Entries.get?]
    have hlobby : (Broker.lobbyPublic host l).get "LobbyData" = some (.object l.lobbyData) := by
      simp [Broker.lobbyPublic, Value.get_obj, Entries.get?]
    have hsearch : (Broker.lobbyPublic host l).get "SearchData" = some (.object l.searchData) := by
      simp [Broker.lobbyPublic, Value.get_obj, Entries.get?]
    intro k
    rw [hdata, Option.bind_some, Option.bind_some, hlobby, hsearch, lobbyEntry, searchEntry, hl]
    exact ⟨rfl, rfl⟩

/-- Only the request of a job can change the broker. -/
theorem app_work {c : Client} {app : Broker.App} {m : Broker.Moment} {o : Outcome}
    (hw : ∀ job, c.worker ≠ .sending job) : (c.work host readFloat app m o).1 = app := by
  unfold Client.work
  cases hworker : c.worker with
  | idle => cases c.queue <;> rfl
  | sending job => exact absurd hworker (hw job)
  | answered job reply => rfl
  | fetching j id => exact Session.exchange_getLobby c app m o (getBody id)
  | fetched j reply => rfl
  | polling targets =>
    cases targets with
    | nil => rfl
    | cons t targets => exact Session.exchange_getLobby c app m o (getBody t.2)
  | polled t reply targets => rfl

/-- The worker has the reply to a poll only behind its request. -/
theorem polled_receive {c : Client} {reply r : Option Broker.Response} {t : ℕ}
    {ts : List (ℕ × String)} (hw : (c.receive host reply).worker = .polled t r ts) :
    ∃ id, c.worker = .polling ((t, id) :: ts) := by
  unfold Client.receive at hw
  cases hworker : c.worker with
  | idle =>
    rw [hworker] at hw
    cases hq : c.queue <;> rw [hq] at hw <;> cases hw
  | answered job reply' =>
    rw [hworker] at hw
    cases job with
    | join j =>
      have hjoin : (c.joinAnswered host j reply').worker = .polled t r ts := hw
      unfold Client.joinAnswered at hjoin
      simp only at hjoin
      split at hjoin <;> cases hjoin
    | _ => cases hw
  | polling targets =>
    rw [hworker] at hw
    cases targets with
    | nil => cases hw
    | cons t' targets =>
      obtain ⟨t', id⟩ := t'
      cases hw
      exact ⟨id, rfl⟩
  | _ =>
    rw [hworker] at hw
    cases hw

/-- The reply to a poll of the handle shows its lobby. -/
theorem Kept.shows (hk : s.Kept h) {m : Broker.Moment} {o : Outcome} {r : Broker.Response}
    {ts : List (ℕ × String)}
    (hw : (s.client.work host readFloat s.app m o).2.worker = .polled h (some r) ts)
    (hstatus : r.status = 200) (hp : s.posted h ≠ []) :
    Shows r (s.client.work host readFloat s.app m o).1 (s.client.lobbyId h) := by
  obtain ⟨reply, hreceive⟩ := Client.work_eq_receive host readFloat s.app s.client m o
  obtain ⟨id, hpolling⟩ := polled_receive (hreceive ▸ hw)
  have hid : s.client.lobbyId h = id := (hk.targets id (by rw [hpolling]; exact List.mem_cons_self)).2
  have hplain := (hk.settled hp).2
  rw [app_work (by rw [hpolling]; simp)]
  have hwork : (s.client.work host readFloat s.app m o).2.worker =
      .polled h (exchange host s.app
        (request readFloat s.client m "/Lobby/GetLobby" (getBody id)) o).2 ts := by
    unfold Client.work
    rw [hpolling]
  rw [hwork] at hw
  rw [hid] at hplain ⊢
  exact shows_getLobby hplain (Worker.polled.inj hw).2.1 hstatus

theorem Kept.work (hk : s.Kept h) {m : Broker.Moment} {o : Outcome}
    (hc : s.OneWriter host readFloat h (.client (.work m o))) :
    (s.step host readFloat (.client (.work m o))).Kept h := by
  have hidle (hsend : ∀ job, s.client.worker ≠ .sending job)
      (hpoll : ∀ r ts, s.client.worker ≠ .polled h r ts) :
      (s.step host readFloat (.client (.work m o))).Kept h := by
    refine hk.turn m o (fun job hw => absurd hw (hsend job)) hpoll (fun _ => ?_)
      fun r ts hw hstatus hp => hk.shows hw hstatus hp
    rw [app_work hsend]
    exact SameBags.refl _ _
  cases hw : s.client.worker with
  | sending job =>
    unfold OneWriter at hc
    rw [hw] at hc
    simp only at hc
    split_ifs at hc with hown
    · obtain ⟨j, hj, hlobby⟩ := Option.any_eq_true _ _ |>.mp hown
      obtain ⟨rfl, hserved⟩ := hc
      obtain ⟨hplain, hheld⟩ := hserved j hj
      cases job with
      | post j' =>
        obtain rfl : j' = j := Option.some.inj hj
        exact hk.serve hw (by simpa using hlobby) m hplain hheld
      | _ => cases hj
    · refine hk.turn m o ?_ (by simp [hw]) hc fun r ts hworker hstatus hp =>
        hk.shows hworker hstatus hp
      intro job' hw' j hj heq
      obtain rfl : job = job' := Worker.sending.inj (hw.symm.trans hw')
      refine hown (Option.any_eq_true _ _ |>.mpr ⟨j, hj, ?_⟩)
      simpa using heq
  | polled t reply ts =>
    by_cases ht : t = h
    · subst ht
      exact hk.refreshed hw m o hc
    · exact hidle (by simp [hw]) (by simp [hw, ht])
  | _ => exact hidle (by simp [hw]) (by simp [hw])

/-- What one step preserves. -/
theorem Kept.step (hk : s.Kept h) {e : Step} (hc : s.OneWriter host readFloat h e) :
    (s.step host readFloat e).Kept h := by
  cases e with
  | others app =>
    exact hk.frame _ rfl rfl (fun hset => hset) (fun _ _ => rfl) hc hk.targets
      fun r ts hw hstatus hp hempty => (hk.polled r ts hw hstatus hp hempty).congr (hc hp)
  | client e =>
    cases e with
    | call e => exact hk.call hc
    | work m o => exact hk.work hc

/-- One key of the lobby data set through the first handle. -/
def setKey (k v : String) : Step :=
  let update : DataUpdate := ⟨none, none, none, none, [], [(k, some v)]⟩
  .client (.call (.postUpdate 0 none (some update) none ⟨[], [], []⟩))

end Posting

end GbfrLan.Playfab
