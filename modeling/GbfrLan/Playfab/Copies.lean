import GbfrLan.Playfab.Joining

/-!
# Handles behind their create or join

A handle whose create or join is finished keeps its id. Its two bags change only with a post
through the handle and with a poll of its lobby. This module has also what a property list of
the title asks for, key by key, and what becomes of that in the bags of the handle and of the
broker.
-/
namespace GbfrLan.Playfab
open Lib Json

/-! ### What a property list asks for -/

/-- What a property list says about a key. A pair without a value deletes the key, whatever
else the list says about it; of several values the last one counts. -/
def outcome (kv : KvList) (k : String) : Option (Option String) :=
  if (k, none) ∈ kv then some none
  else (kv.reverse.findSome? fun e => if e.1 = k then e.2 else none).map some

/-- A list that is taken as it is: not too long, and without empty names. -/
def KvList.Fits (kv : KvList) : Prop := kv.length ≤ maxPairs ∧ ∀ e ∈ kv, e.1 ≠ ""

instance (kv : KvList) : Decidable kv.Fits :=
  inferInstanceAs (Decidable (kv.length ≤ maxPairs ∧ ∀ e ∈ kv, e.1 ≠ ""))

theorem mem_foldl_splitPair {kv : KvList} (hne : ∀ e ∈ kv, e.1 ≠ "") (m : Props × List String)
    (k : String) : k ∈ (kv.foldl splitPair m).2 ↔ k ∈ m.2 ∨ (k, none) ∈ kv := by
  induction kv generalizing m with
  | nil => simp
  | cons e kv ih =>
    obtain ⟨name, value⟩ := e
    have hname : name.isEmpty = false := by
      have := hne _ List.mem_cons_self
      simpa using this
    rw [List.foldl_cons, ih fun e he => hne e (List.mem_cons_of_mem _ he)]
    cases value with
    | none =>
      simp [splitPair, hname, or_assoc]
    | some v =>
      simp only [splitPair, hname, Bool.false_eq_true, if_false, List.mem_cons, Prod.mk.injEq,
        reduceCtorEq, and_false, false_or]

theorem get?_foldl_splitPair {kv : KvList} (hne : ∀ e ∈ kv, e.1 ≠ "") (m : Props × List String)
    (k : String) :
    (kv.foldl splitPair m).1.get? k =
      (kv.reverse.findSome? fun e => if e.1 = k then e.2 else none).or (m.1.get? k) := by
  induction kv generalizing m with
  | nil => simp
  | cons e kv ih =>
    obtain ⟨name, value⟩ := e
    have hname : name.isEmpty = false := by
      have := hne _ List.mem_cons_self
      simpa using this
    rw [List.foldl_cons, ih fun e he => hne e (List.mem_cons_of_mem _ he), List.reverse_cons,
      List.findSome?_append, Option.or_assoc]
    congr 1
    cases value with
    | none => simp [splitPair, hname]
    | some v =>
      by_cases hk : name = k
      · subst hk
        simp [splitPair, hname]
      · simp [splitPair, hname, hk, Ne.symm hk]

theorem get?_applyProps (dst src : Props) (k : String) :
    (applyProps dst src).get? k = ((src.get? k).map cString).or (dst.get? k) := by
  have hfold (es : Entries String String) (m : Props) :
      (es.foldl (fun m e => m.insert e.1 (cString e.2)) m).get? k =
        ((Entries.get? k es.reverse).map cString).or (m.get? k) := by
    induction es generalizing m with
    | nil => rfl
    | cons e es ih =>
      rw [List.foldl_cons, ih, List.reverse_cons, Entries.get?_append, Option.map_or,
        Option.or_assoc, OrdMap.get?_insert]
      congr 1
      by_cases hk : k = e.1
      · simp [Entries.get?, hk]
      · simp [Entries.get?, hk]
  have hnodup : (src.entries.reverse.map Prod.fst).Nodup := by
    rw [List.map_reverse, List.nodup_reverse]
    exact src.keys_nodup
  rw [applyProps, hfold, Entries.get?_perm hnodup (List.reverse_perm _)]
  rfl

theorem get?_dropProps (dst : Props) (keys : List String) (k : String) :
    (dropProps dst keys).get? k = if k ∈ keys then none else dst.get? k := by
  unfold dropProps
  induction keys generalizing dst with
  | nil => simp
  | cons key keys ih =>
    rw [List.foldl_cons, ih, OrdMap.get?_erase]
    by_cases hmem : k ∈ keys
    · simp [hmem]
    · by_cases hk : k = key
      · simp [hk]
      · simp [hmem, hk]

/-- A bag after a list that may delete. -/
def applyList (dst : Props) (kv : KvList) : Props :=
  dropProps (applyProps dst (kvListSplit kv).1) (kvListSplit kv).2

theorem mem_kvListSplit {kv : KvList} (h : kv.Fits) (k : String) :
    k ∈ (kvListSplit kv).2 ↔ outcome kv k = some none := by
  unfold kvListSplit outcome
  rw [if_neg (Nat.not_lt.mpr h.1), mem_foldl_splitPair h.2]
  split_ifs with hdel
  · simp [hdel]
  · simp only [List.not_mem_nil, hdel, or_self, false_iff]
    cases kv.reverse.findSome? fun e => if e.1 = k then e.2 else none <;> simp

/-- Key by key, the bag has what the list asks for, and keeps the rest. -/
theorem get?_applyList (dst : Props) {kv : KvList} (h : kv.Fits) (k : String) :
    (applyList dst kv).get? k = ((outcome kv k).map (Option.map cString)).getD (dst.get? k) := by
  unfold applyList
  rw [get?_dropProps, get?_applyProps]
  by_cases hdel : k ∈ (kvListSplit kv).2
  · rw [if_pos hdel, (mem_kvListSplit h k).mp hdel]
    rfl
  · have hnot : (k, none) ∉ kv := by
      intro hmem
      refine hdel ((mem_kvListSplit h k).mpr ?_)
      rw [outcome, if_pos hmem]
    rw [if_neg hdel, outcome, if_neg hnot, kvListSplit, if_neg (Nat.not_lt.mpr h.1),
      get?_foldl_splitPair h.2, OrdMap.get?_empty, Option.or_none]
    cases kv.reverse.findSome? fun e => if e.1 = k then e.2 else none <;> rfl

theorem cString_cString (s : String) : cString (cString s) = cString s := by
  unfold cString
  split_ifs <;> rfl

/-- What a list does to a bag that is merged from the copy after the list: the keys of the list
get what it asks for, and the others the value of the copy, if it has one. -/
theorem merged_applyList (dst : Props) {kv : KvList} (h : kv.Fits) (bag : Option Value)
    (k : String) :
    (((applyList dst kv).get? k).map Value.string).or
        (if k ∈ (kvListSplit kv).2 then none else bag) =
      ((outcome kv k).map (Option.map fun v => Value.string (cString v))).getD
        (((dst.get? k).map Value.string).or bag) := by
  rw [get?_applyList dst h]
  cases ho : outcome kv k with
  | none =>
    rw [if_neg fun hdel => by rw [(mem_kvListSplit h k).mp hdel] at ho; cases ho]
    rfl
  | some o =>
    cases o with
    | none =>
      rw [if_pos ((mem_kvListSplit h k).mpr ho)]
      rfl
    | some v => rfl

/-! ### A post that the title has made -/

/-- The lists of an update; without one they are empty. -/
def lobbyList (update : Option DataUpdate) : KvList := (update.map DataUpdate.lobby).getD []

def searchList (update : Option DataUpdate) : KvList := (update.map DataUpdate.search).getD []

section
variable {l : Lobby} {member : Option EntityKey} {update : Option DataUpdate}
  {memberUpdate : Option MemberDataUpdate} {localEntity : String} {order : Orders} {p : Post}

theorem applyMember_bags (l : Lobby) (member : Option EntityKey)
    (memberUpdate : Option MemberDataUpdate) (localEntity : String) :
    (applyMember l member memberUpdate localEntity).1.props = l.props ∧
      (applyMember l member memberUpdate localEntity).1.search = l.search := by
  unfold applyMember
  cases memberUpdate with
  | none => exact ⟨rfl, rfl⟩
  | some mu =>
    simp only
    split_ifs <;> exact ⟨rfl, rfl⟩

/-- The two bags that a post carries, and its deletions. -/
theorem postUpdate_bags
    (h : postUpdate l member update memberUpdate localEntity order = some p) :
    p.lobby.props = applyList l.props (lobbyList update) ∧
      p.lobby.search = applyList l.search (searchList update) ∧
      p.lobbyDelete = (kvListSplit (lobbyList update)).2 ∧
      p.searchDelete = (kvListSplit (searchList update)).2 ∧ p.update = update := by
  unfold postUpdate at h
  split_ifs at h
  obtain rfl := Option.some.inj h
  cases update with
  | none =>
    obtain ⟨hprops, hsearch⟩ := applyMember_bags l member memberUpdate localEntity
    exact ⟨hprops, hsearch, rfl, rfl, rfl⟩
  | some u =>
    obtain ⟨hprops, hsearch⟩ := applyMember_bags (u.apply l) member memberUpdate localEntity
    exact ⟨hprops, hsearch, rfl, rfl, rfl⟩

/-- The bags of the broker's lobby after a post. -/
theorem lobbyData_of_post
    (h : postUpdate l member update memberUpdate localEntity order = some p)
    (hfits : (lobbyList update).Fits) (host : Broker.Host) (bl : Broker.Lobby)
    (updater : Option String) (k : String) :
    Entries.get? k (bl.update host (.obj p.entries) updater).lobbyData =
      ((outcome (lobbyList update) k).map (Option.map fun v => Value.string (cString v))).getD
        (((l.props.get? k).map Value.string).or (Entries.get? k bl.lobbyData)) := by
  obtain ⟨hprops, -, hdelete, -, -⟩ := postUpdate_bags h
  rw [Post.get?_lobbyData, hprops, hdelete]
  exact merged_applyList l.props hfits _ k

theorem searchData_of_post
    (h : postUpdate l member update memberUpdate localEntity order = some p)
    (hfits : (searchList update).Fits) (host : Broker.Host) (bl : Broker.Lobby)
    (updater : Option String) (k : String) :
    Entries.get? k (bl.update host (.obj p.entries) updater).searchData =
      ((outcome (searchList update) k).map (Option.map fun v => Value.string (cString v))).getD
        (((l.search.get? k).map Value.string).or (Entries.get? k bl.searchData)) := by
  obtain ⟨-, hsearch, -, hdelete, -⟩ := postUpdate_bags h
  rw [Post.get?_searchData, hsearch, hdelete]
  exact merged_applyList l.search hfits _ k

end

/-! ### Steps of the client -/

namespace Client

/-- What a handle knows of its lobby: the id and the two bags. -/
def copy (c : Client) (h : ℕ) : Option (String × Props × Props) :=
  c.handles[h]?.map fun l => (l.id, l.props, l.search)

/-- The create or join of the handle is finished. -/
def Settled (c : Client) (h : ℕ) : Prop := h < c.handles.length ∧ h ∉ c.unsettled

instance (c : Client) (h : ℕ) : Decidable (c.Settled h) :=
  inferInstanceAs (Decidable (h < c.handles.length ∧ h ∉ c.unsettled))

theorem Touches.copy {c c' : Client} {t h : ℕ} (ht : c.Touches c' t) (hne : h ≠ t) :
    c'.copy h = c.copy h := by
  unfold Client.copy
  rw [ht.handle h hne]

theorem announceJoin_loop_copy (hs : List ℕ) (c : Client) (h : ℕ) :
    (hs.foldl Joining.announceJoin c).copy h = c.copy h := by
  induction hs generalizing c with
  | nil => rfl
  | cons k hs ih =>
    rw [List.foldl_cons, ih]
    unfold Joining.announceJoin
    split
    · rename_i l hl
      unfold copy setLobby
      by_cases hk : k = h
      · subst hk
        obtain ⟨hlt, -⟩ := List.getElem?_eq_some_iff.mp hl
        rw [List.getElem?_set_self hlt, hl]
        rfl
      · rw [List.getElem?_set_ne hk]
    · rfl

variable (host : Broker.Host) (reply : Option Broker.Response) {c : Client} {h : ℕ}

/-- The bags of a handle after a reply: the old ones, or those that were read in it. -/
theorem applyRefresh_bags (l : Lobby) :
    (applyRefresh host l reply).1.id = l.id ∧
      (((applyRefresh host l reply).1.props = l.props ∧
          (applyRefresh host l reply).1.search = l.search) ∨
        ∃ r fresh, reply = some r ∧ r.status = 200 ∧ lobbyFromJson host r.body = some fresh ∧
          (applyRefresh host l reply).1.props = fresh.props ∧
          (applyRefresh host l reply).1.search = fresh.search) := by
  unfold applyRefresh
  cases reply with
  | none => exact ⟨rfl, Or.inl ⟨rfl, rfl⟩⟩
  | some r =>
    by_cases hstatus : r.status = 200
    · simp only [hstatus, ne_eq, not_true_eq_false, if_false]
      cases hfresh : lobbyFromJson host r.body with
      | none => exact ⟨rfl, Or.inl ⟨rfl, rfl⟩⟩
      | some fresh =>
        simp only
        split_ifs <;> exact ⟨rfl, Or.inr ⟨r, fresh, rfl, hstatus, hfresh, rfl, rfl⟩⟩
    · dsimp only
      rw [if_pos hstatus]
      exact ⟨rfl, Or.inl ⟨rfl, rfl⟩⟩

/-- What the reply to a poll does to the copy of the handle. -/
theorem copy_pollLobby (c : Client) (h : ℕ) :
    (c.pollLobby host h reply).copy h = c.copy h ∨
      ∃ r l fresh, reply = some r ∧ r.status = 200 ∧ c.handles[h]? = some l ∧
        lobbyFromJson host r.body = some fresh ∧
        (c.pollLobby host h reply).copy h = some (l.id, fresh.props, fresh.search) := by
  unfold pollLobby
  split_ifs
  · cases hfound : c.handles[h]?.filter pollable with
    | none => exact Or.inl rfl
    | some l =>
      obtain ⟨hl, -⟩ := Option.filter_eq_some_iff.mp hfound
      obtain ⟨hlt, -⟩ := List.getElem?_eq_some_iff.mp hl
      set l' := (applyRefresh host l reply).1 with hl'
      have hcopy : (if (applyRefresh host l reply).2 then
          (c.setLobby h { l' with left := true }).untrack h else c.setLobby h l').copy h =
          some (l'.id, l'.props, l'.search) := by
        split_ifs
        all_goals
          show (c.handles.set h _)[h]?.map _ = _
          rw [List.getElem?_set_self hlt]
          rfl
      obtain ⟨hid, hold | ⟨r, fresh, hr, hstatus, hfresh, hprops, hsearch⟩⟩ :=
        applyRefresh_bags host reply l
      · refine Or.inl (hcopy.trans ?_)
        rw [hid, hold.1, hold.2, copy, hl]
        rfl
      · refine Or.inr ⟨r, l, fresh, hr, hstatus, hl, hfresh, hcopy.trans ?_⟩
        rw [hid, hprops, hsearch]
  · exact Or.inl rfl

/-- A step of the worker leaves the copy of a settled handle alone, unless it applies the reply
to a poll of its lobby. -/
theorem copy_receive (hs : c.Settled h) (hpoll : ∀ r ts, c.worker ≠ .polled h r ts) :
    (c.receive host reply).copy h = c.copy h := by
  have htarget {t : ℕ} (ht : t ∈ c.worker.targets) : h ≠ t := by
    rintro rfl
    exact hs.2 (List.mem_append_left _ ht)
  unfold receive
  cases hw : c.worker with
  | idle => cases c.queue <;> rfl
  | sending job => rfl
  | answered job reply =>
    cases job with
    | create j =>
      have hne : h ≠ j.lobby := htarget (by rw [hw]; exact List.mem_singleton_self _)
      exact (c.runCreate_touches reply host j).copy hne
    | join j =>
      have hne : h ≠ j.lobby := htarget (by rw [hw]; exact List.mem_singleton_self _)
      show (c.joinAnswered host j reply).copy h = c.copy h
      unfold joinAnswered
      simp only
      split
      · exact (c.failJoin_touches j).copy hne
      · rfl
    | _ => rfl
  | fetching j id => rfl
  | fetched j reply =>
    have hne : h ≠ j.lobby := htarget (by rw [hw]; exact List.mem_singleton_self _)
    exact (c.runJoin_touches reply host j).copy hne
  | polling targets =>
    cases targets with
    | nil => exact announceJoin_loop_copy _ c h
    | cons t targets => rfl
  | polled t reply targets =>
    have hne : h ≠ t := by
      rintro rfl
      exact hpoll _ _ hw
    exact (c.pollLobby_touches t reply host).copy hne

/-- A settled handle keeps its id. -/
theorem id_receive (hs : c.Settled h) :
    ((c.receive host reply).copy h).map Prod.fst = (c.copy h).map Prod.fst := by
  by_cases hpoll : ∀ r ts, c.worker ≠ .polled h r ts
  · rw [copy_receive host reply hs hpoll]
  · push Not at hpoll
    obtain ⟨r, ts, hw⟩ := hpoll
    have hnext : (c.receive host reply).copy h = (c.pollLobby host h r).copy h := by
      unfold receive
      rw [hw]
      rfl
    rw [hnext]
    rcases copy_pollLobby host r c h with hsame | ⟨-, l, fresh, -, -, hl, -, hcopy⟩
    · rw [hsame]
    · rw [hcopy, copy, hl]
      rfl

/-- The worker starts no create or join, and makes no handles. -/
theorem settled_receive (hs : c.Settled h) : (c.receive host reply).Settled h := by
  have hturn {c' : Client} (hkeeps : c'.queue = c.queue)
      (hlength : c'.handles.length = c.handles.length)
      (hsub : c'.worker.targets ⊆ c.worker.targets) : c'.Settled h := by
    refine ⟨hlength ▸ hs.1, fun hmem => hs.2 ?_⟩
    rw [unsettled, hkeeps, List.mem_append] at hmem
    rw [unsettled, List.mem_append]
    exact hmem.imp_left fun ht => hsub ht
  unfold receive
  cases hw : c.worker with
  | idle =>
    cases hq : c.queue with
    | nil => exact hturn hq.symm rfl (List.nil_subset _)
    | cons job queue =>
      refine ⟨hs.1, fun hmem => hs.2 ?_⟩
      have hnext : h ∈ job.target.toList ++ queue.filterMap Job.target := hmem
      rw [unsettled, hw, hq, List.filterMap_cons]
      cases htarget : job.target with
      | none => simpa [htarget, Worker.targets] using hnext
      | some t => simpa [htarget, Worker.targets] using hnext
  | sending job => exact hturn rfl rfl (by rw [hw]; exact List.Subset.refl _)
  | answered job reply =>
    cases job with
    | create j =>
      have hkeeps := c.runCreate_keeps reply host j
      exact hturn hkeeps.queue hkeeps.handles (List.nil_subset _)
    | join j =>
      show (c.joinAnswered host j reply).Settled h
      unfold joinAnswered
      simp only
      split
      · have hkeeps := c.failJoin_keeps j
        exact hturn hkeeps.queue hkeeps.handles (List.nil_subset _)
      · exact hturn rfl rfl (by rw [hw]; exact List.Subset.refl _)
    | _ => exact hturn rfl rfl (List.nil_subset _)
  | fetching j id => exact hturn rfl rfl (by rw [hw]; exact List.Subset.refl _)
  | fetched j reply =>
    have hkeeps := c.runJoin_keeps reply host j
    exact hturn hkeeps.queue hkeeps.handles (List.nil_subset _)
  | polling targets =>
    cases targets with
    | nil =>
      have hkeeps := c.servicePendingJoins_keeps
      exact hturn hkeeps.queue hkeeps.handles (List.nil_subset _)
    | cons t targets => exact hturn rfl rfl (List.nil_subset _)
  | polled t reply targets =>
    have hkeeps := c.pollLobby_keeps t reply host
    exact hturn hkeeps.queue hkeeps.handles (List.nil_subset _)

/-- The worker takes the requests of the jobs in order. -/
theorem unsent_receive (c : Client) :
    (c.receive host reply).unsent =
      match c.worker with
      | .sending _ => c.unsent.tail
      | _ => c.unsent := by
  unfold receive
  cases hw : c.worker with
  | idle => cases hq : c.queue <;> simp [unsent, hw, hq, Worker.sent]
  | sending job => simp [unsent, hw, Worker.sent]
  | answered job reply =>
    cases job with
    | create j => simp [settle, unsent, hw, Worker.sent, (c.runCreate_keeps reply host j).queue]
    | join j =>
      show (c.joinAnswered host j reply).unsent = c.unsent
      unfold joinAnswered
      simp only
      split
      · simp [unsent, hw, Worker.sent, (c.failJoin_keeps j).queue]
      · simp [unsent, hw, Worker.sent]
    | _ => simp [settle, unsent, hw, Worker.sent]
  | fetching j id => simp [unsent, hw, Worker.sent]
  | fetched j reply => simp [unsent, hw, Worker.sent, (c.runJoin_keeps reply host j).queue]
  | polling targets =>
    cases targets with
    | nil => simp [unsent, hw, Worker.sent, c.servicePendingJoins_keeps.queue]
    | cons t targets => simp [unsent, hw, Worker.sent]
  | polled t reply targets => simp [unsent, hw, Worker.sent, (c.pollLobby_keeps t reply host).queue]

variable (c)

/-- A call of the title keeps a settled handle settled. -/
theorem settled_call (hs : c.Settled h) (e : Call) : (c.call e).Settled h := by
  obtain ⟨jobs, hadds, hfits⟩ := c.call_adds e
  refine ⟨hs.1.trans_le hadds.handles, fun hmem => ?_⟩
  rw [unsettled, hadds.worker, hadds.queue, List.filterMap_append, ← List.append_assoc,
    List.mem_append] at hmem
  rcases hmem with hold | hnew
  · exact hs.2 hold
  · obtain ⟨job, hjob, htarget⟩ := List.mem_filterMap.mp hnew
    have hfit := hfits job hjob
    have hlt := hs.1
    cases job with
    | create j =>
      have hlobby : j.lobby = h := Option.some.inj htarget
      have hfresh : j.lobby = c.handles.length := hfit
      omega
    | join j =>
      have hlobby : j.lobby = h := Option.some.inj htarget
      have hfresh : j.lobby = c.handles.length := hfit
      omega
    | _ => cases htarget

theorem copy_setLobby_of_ne {t : ℕ} (hne : h ≠ t) (l : Lobby) : (c.setLobby t l).copy h = c.copy h :=
  (c.setLobby_touches t l).copy hne

/-- A call leaves the copy of a handle alone, unless it posts through the handle. -/
theorem copy_call (hlt : h < c.handles.length) {e : Call}
    (hpost : ∀ member update memberUpdate order,
      e ≠ .postUpdate h member update memberUpdate order) : (c.call e).copy h = c.copy h := by
  have hpublish (l : Lobby) (job : Job) : ((c.publish l).enqueue job).copy h = c.copy h := by
    show (c.handles ++ [l])[h]?.map _ = c.handles[h]?.map _
    rw [List.getElem?_append_left hlt]
  cases e with
  | initializeMp =>
    show c.initializeMp.copy h = _
    unfold initializeMp
    split_ifs <;> rfl
  | uninitializeMp => rfl
  | setEntityToken entity token =>
    show (c.setEntityToken entity token).copy h = _
    unfold setEntityToken
    split_ifs <;> rfl
  | createAndJoinLobby creator cfg joinKv order =>
    show (c.createAndJoinLobby creator cfg joinKv order).copy h = _
    unfold createAndJoinLobby
    split_ifs
    · rfl
    · exact hpublish _ _
  | joinLobby joiner connection joinKv order =>
    show (c.joinLobby joiner connection joinKv order).copy h = _
    unfold joinLobby
    split_ifs
    · rfl
    · exact hpublish _ _
  | findLobbies body =>
    show (if c.mp.isNone then c else c.enqueue (.find body)).copy h = _
    split_ifs <;> rfl
  | postUpdate t member update memberUpdate order =>
    have hne : h ≠ t := by
      rintro rfl
      exact hpost _ _ _ _ rfl
    show (c.post t member update memberUpdate order).copy h = _
    unfold post
    split
    · rfl
    · split
      · rfl
      · exact c.copy_setLobby_of_ne hne _
  | leave t =>
    show (c.leave t).copy h = _
    unfold leave
    split
    · rfl
    · rename_i l hl
      show (c.setLobby t { l with left := true }).copy h = _
      by_cases hne : h = t
      · subst hne
        show (c.handles.set h _)[h]?.map _ = c.handles[h]?.map _
        rw [List.getElem?_set_self hlt, hl]
        rfl
      · exact c.copy_setLobby_of_ne hne _

end Client

end GbfrLan.Playfab
