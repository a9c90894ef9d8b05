import GbfrLan.Playfab.Machine
import GbfrLan.Playfab.Polling

/-!
# The order of the state changes of a lobby

The first changes of a joined handle are the members, an `Updated` with the lock, and the
completion; those of a created one are its owner and the completion. Polls wait for a parked join,
and the queue of jobs keeps a post behind the create or join of its handle. The echo of a post does
not look for a parked join: it puts an `Updated` in front of the completion. Without such an echo
the order holds in every run.
-/
namespace GbfrLan.Playfab
open Lib Json

/-- A change that may not come before the completion of the handle. -/
def Disturbs (h : ℕ) : Change → Prop
  | .updated h' _ => h' = h
  | .memberRemoved h' _ => h' = h
  | _ => False

def Quiet (h : ℕ) (cs : List Change) : Prop := ∀ c ∈ cs, ¬Disturbs h c

theorem Quiet.append {h : ℕ} {cs cs' : List Change} (hc : Quiet h cs) (hc' : Quiet h cs') :
    Quiet h (cs ++ cs') := by
  intro c hmem
  rcases List.mem_append.mp hmem with hmem | hmem
  · exact hc c hmem
  · exact hc' c hmem

theorem quiet_nil (h : ℕ) : Quiet h [] := fun _ hc => absurd hc List.not_mem_nil

theorem quiet_singleton {h : ℕ} {c : Change} (hc : ¬Disturbs h c) : Quiet h [c] := by
  intro c' hmem
  rw [List.mem_singleton.mp hmem]
  exact hc

/-- The completion of a create or join that was successful. -/
def Completes : Change → Prop
  | .createCompleted code _ _ => code = 0
  | .joinCompleted code _ _ => code = 0
  | _ => False

/-- Only this handle is disturbed. -/
def QuietBut (h : ℕ) (cs : List Change) : Prop := ∀ h', h' ≠ h → Quiet h' cs

theorem QuietBut.append {h : ℕ} {cs cs' : List Change} (hc : QuietBut h cs)
    (hc' : QuietBut h cs') : QuietBut h (cs ++ cs') := fun h' hne =>
  (hc h' hne).append (hc' h' hne)

/-! ### What the emitters queue -/

namespace Emitting

variable (h : ℕ)

/-- Some `MemberAdded` are queued, among them one for each id that was announced. -/
def Announces (t t' : Emitting) : Prop :=
  ∃ l, t'.changes = t.changes ++ l ∧ (∀ c ∈ l, ∃ m, c = Change.memberAdded h m) ∧
    ∀ e, t'.view.announced.contains e = true →
      t.view.announced.contains e = true ∨ ∃ m, Change.memberAdded h m ∈ l ∧ m.id = e

variable {h}

theorem Announces.trans {t t' t'' : Emitting} (h₁ : Announces h t t') (h₂ : Announces h t' t'') :
    Announces h t t'' := by
  obtain ⟨l₁, heq₁, hadded₁, hnew₁⟩ := h₁
  obtain ⟨l₂, heq₂, hadded₂, hnew₂⟩ := h₂
  refine ⟨l₁ ++ l₂, by rw [heq₂, heq₁, List.append_assoc], ?_, ?_⟩
  · intro c hc
    rcases List.mem_append.mp hc with hc | hc
    · exact hadded₁ c hc
    · exact hadded₂ c hc
  · intro e he
    rcases hnew₂ e he with he | ⟨m, hm, hid⟩
    · rcases hnew₁ e he with he | ⟨m, hm, hid⟩
      · exact .inl he
      · exact .inr ⟨m, List.mem_append_left _ hm, hid⟩
    · exact .inr ⟨m, List.mem_append_right _ hm, hid⟩

theorem Announces.refl (t : Emitting) : Announces h t t :=
  ⟨[], (List.append_nil _).symm, fun _ hc => absurd hc List.not_mem_nil, fun _ he => .inl he⟩

variable (h)

theorem emitMemberAdded_announces (t : Emitting) (m : EntityKey) :
    Announces h t (emitMemberAdded h t m) := by
  have hcontains := contains_emitMemberAdded h t m
  unfold emitMemberAdded at hcontains ⊢
  split_ifs at hcontains ⊢ with hskip
  · exact .refl t
  · refine ⟨[.memberAdded h m], rfl, ?_, ?_⟩
    · intro c hc
      exact ⟨m, List.mem_singleton.mp hc⟩
    · intro e he
      rcases (hcontains e).mp he with he | ⟨-, rfl⟩
      · exact .inl he
      · exact .inr ⟨m, List.mem_singleton_self _, rfl⟩

theorem announceLobbyMembers_announces (t : Emitting) :
    Announces h t (announceLobbyMembers h t) := by
  have hfold : ∀ (ms : List EntityKey) (t : Emitting),
      Announces h t (ms.foldl (emitMemberAdded h) t) := by
    intro ms
    induction ms with
    | nil => exact fun t => .refl t
    | cons m ms ih => exact fun t => (emitMemberAdded_announces h t m).trans (ih _)
  exact (emitMemberAdded_announces h t _).trans (hfold _ _)

/-- The changes that are queued disturb no other handle, and complete nothing. -/
def Keeps (t t' : Emitting) : Prop :=
  ∃ l, t'.changes = t.changes ++ l ∧ QuietBut h l ∧ ∀ c ∈ l, ¬Completes c

variable {h}

theorem Keeps.trans {t t' t'' : Emitting} (h₁ : Keeps h t t') (h₂ : Keeps h t' t'') :
    Keeps h t t'' := by
  obtain ⟨l₁, heq₁, hl₁, hc₁⟩ := h₁
  obtain ⟨l₂, heq₂, hl₂, hc₂⟩ := h₂
  refine ⟨l₁ ++ l₂, by rw [heq₂, heq₁, List.append_assoc], hl₁.append hl₂, fun c hc => ?_⟩
  rcases List.mem_append.mp hc with hc | hc
  · exact hc₁ c hc
  · exact hc₂ c hc

theorem Keeps.of_eq {t t' : Emitting} (heq : t'.changes = t.changes) : Keeps h t t' :=
  ⟨[], by rw [heq, List.append_nil], fun h' _ => quiet_nil h', fun _ hc =>
    absurd hc List.not_mem_nil⟩

theorem Keeps.queue {t t' : Emitting} (heq : t'.changes = t.changes) {c : Change}
    (hc : ∀ h', h' ≠ h → ¬Disturbs h' c) (hcompletes : ¬Completes c) : Keeps h t (t'.queue c) := by
  refine ⟨[c], by rw [Emitting.queue, heq], fun h' hne => quiet_singleton (hc h' hne), ?_⟩
  intro c' hc'
  rw [List.mem_singleton.mp hc']
  exact hcompletes

theorem Announces.keeps {t t' : Emitting} (ha : Announces h t t') : Keeps h t t' := by
  obtain ⟨l, heq, hadded, -⟩ := ha
  refine ⟨l, heq, fun h' _ c hc => ?_, fun c hc => ?_⟩
  · obtain ⟨m, rfl⟩ := hadded c hc
    exact id
  · obtain ⟨m, rfl⟩ := hadded c hc
    exact id

variable (h)

theorem emitUpdated_keeps (t : Emitting) (d : LobbyDelta) (force : Bool) :
    Keeps h t (emitUpdated h t d force) := by
  unfold emitUpdated
  extract_lets d'
  split_ifs
  · exact .of_eq rfl
  · exact .queue rfl (fun h' hne heq => hne heq.symm) id

theorem pollLobby_keeps (order : RefreshOrder) (parked : Bool) (t : Emitting) (r : Reply) :
    Keeps h t (pollLobby h order parked t r).1 := by
  unfold pollLobby
  generalize t.view.applyRefresh order r = res
  obtain ⟨v, res⟩ := res
  have hremoved : Keeps h t (res.departed.foldl (emitMemberRemoved h) { t with view := v }) := by
    refine ⟨_, foldl_emitMemberRemoved_changes h { t with view := v } res.departed, ?_, ?_⟩
    · intro h' hne c hc
      obtain ⟨e, -, rfl⟩ := List.mem_map.mp hc
      exact fun heq => hne heq.symm
    · intro c hc
      obtain ⟨e, -, rfl⟩ := List.mem_map.mp hc
      exact id
  simp only
  split_ifs
  · exact hremoved.trans (.queue rfl (fun h' _ => id) id)
  · exact hremoved
  · exact (hremoved.trans (announceLobbyMembers_announces h _).keeps).trans (emitUpdated_keeps h _ _ _)

/-- What the completion of a join queues for a handle that nobody was announced for. -/
theorem emitJoinCompleted_changes (t : Emitting) (joiner : EntityKey) :
    ∃ adds d, (emitJoinCompleted h t joiner).changes =
        t.changes ++ adds ++ [.updated h d, .joinCompleted 0 joiner h] ∧
      (∀ c ∈ adds, ∃ m, c = Change.memberAdded h m) ∧ d.membershipLockUpdated = true ∧
      ∀ e, unnamed e = false → e = t.view.owner.id ∨ e ∈ t.view.roster →
        t.view.announced.contains e = true ∨ ∃ m, Change.memberAdded h m ∈ adds ∧ m.id = e := by
  set t₀ : Emitting := { t with view := { t.view with pending := false } } with ht₀
  set t₁ := emitMemberAdded h (announceLobbyMembers h t₀) joiner with ht₁
  obtain ⟨adds, hadds, hadded, hnew⟩ : Announces h t₀ t₁ :=
    (announceLobbyMembers_announces h t₀).trans (emitMemberAdded_announces h _ joiner)
  set d : LobbyDelta := { joinDelta t₁.view joiner with membershipLockUpdated := true } with hd
  have hempty : d.isEmpty = false := by simp [hd, LobbyDelta.isEmpty]
  refine ⟨adds, d, ?_, hadded, rfl, ?_⟩
  · change ((emitUpdated h t₁ (joinDelta t₁.view joiner) true).queue _).changes = _
    unfold emitUpdated
    simp only [Bool.true_or, if_true]
    rw [if_neg (by rw [← hd, hempty]; decide)]
    simp only [queue, hadds, List.append_assoc]
    rfl
  · intro e hnamed hwho
    have hcontains : t₁.view.announced.contains e = true := by
      rw [ht₁, contains_emitMemberAdded, contains_announceLobbyMembers]
      exact .inl (.inr ⟨hnamed, hwho⟩)
    exact hnew e hcontains

/-- The completion of a join changes nothing else in the view. -/
theorem emitJoinCompleted_view (t : Emitting) (joiner : EntityKey) :
    ∃ announced, (emitJoinCompleted h t joiner).view =
      { t.view with pending := false, lockKnown := true, announced := announced } := by
  set t₀ : Emitting := { t with view := { t.view with pending := false } } with ht₀
  set t₁ := emitMemberAdded h (announceLobbyMembers h t₀) joiner with ht₁
  have honly : OnlyAnnounced t₀.view t₁.view :=
    (announceLobbyMembers_only h t₀).trans (emitMemberAdded_only h _ joiner)
  refine ⟨t₁.view.announced, ?_⟩
  change (emitUpdated h t₁ (joinDelta t₁.view joiner) true).view = _
  rw [emitUpdated_view]
  rw [OnlyAnnounced] at honly
  rw [honly]

/-- A poll while a join is parked and nobody is announced queues at most a `Disconnected`. -/
theorem pollLobby_parked {t : Emitting} (hnone : ∀ e, t.view.announced.contains e = false)
    (order : RefreshOrder) (r : Reply) :
    (∀ e, (pollLobby h order true t r).1.view.announced.contains e = false) ∧
      ∃ l, (pollLobby h order true t r).1.changes = t.changes ++ l ∧ ∀ h', Quiet h' l := by
  obtain ⟨-, hin⟩ := applyRefresh_departed order t.view r
  have hannounced := applyRefresh_announced order t.view r
  have hdeparted : (t.view.applyRefresh order r).2.departed = [] := by
    rw [List.eq_nil_iff_forall_not_mem]
    intro e he
    exact absurd ((hnone e).symm.trans (hin e he)) (by decide)
  unfold pollLobby
  generalize t.view.applyRefresh order r = res at *
  obtain ⟨v, res⟩ := res
  simp only at hannounced hdeparted ⊢
  rw [hdeparted, List.foldl_nil]
  split_ifs
  · refine ⟨fun e => ?_, [.disconnected h], rfl, fun h' => quiet_singleton id⟩
    change v.announced.contains e = false
    rw [hannounced]
    exact hnone e
  · refine ⟨fun e => ?_, [], (List.append_nil _).symm, quiet_nil⟩
    change v.announced.contains e = false
    rw [hannounced]
    exact hnone e

end Emitting

/-! ### Handles before their completion -/

namespace Shim

/-- The handle that a create or join is about. -/
def Job.opens : Job → Option ℕ
  | .create j => some j.lobby
  | .join j => some j.lobby
  | _ => none

def Job.posts : Job → Option ℕ
  | .post j => some j.lobby
  | _ => none

/-- The handles whose create or join is in the queue. -/
def opening (s : Shim) : List ℕ := s.queue.filterMap Job.opens

/-- Nothing was announced for the handle, and nothing that may not come before its completion. -/
structure Calm (s : Shim) (h : ℕ) : Prop where
  quiet : Quiet h s.log
  unannounced : ∀ v, s.handles[h]? = some v → ∀ e, v.announced.contains e = false

/-- The handle has no answer, so that no poll looks at it. -/
def Unanswered (s : Shim) (h : ℕ) : Prop :=
  ∀ v, s.handles[h]? = some v → v.pending = true ∧ v.id = ""

/-- What holds while no echo has overtaken a completion. -/
structure Sound (s : Shim) : Prop where
  fresh : ∀ h, s.handles.length ≤ h → Quiet h s.log
  opens : ∀ h ∈ s.opening, h < s.handles.length
  posts : ∀ job ∈ s.queue, ∀ h, job.posts = some h → h < s.handles.length
  once : s.opening.Nodup
  apart : ∀ h ∈ s.opening, h ∉ s.parked
  parkedOnce : s.parked.Nodup
  parked : ∀ h ∈ s.parked, h < s.handles.length
  /-- A post stands behind the create or join of its handle. -/
  behind : s.queue.Pairwise fun a b => ∀ h, a.posts = some h → b.opens ≠ some h
  calm : ∀ h, h ∈ s.opening ∨ h ∈ s.parked → s.Calm h
  unanswered : ∀ h ∈ s.opening, s.Unanswered h

/-- Nothing changes but at one handle, and what is queued disturbs no other one. -/
structure Only (s s' : Shim) (h : ℕ) : Prop where
  length : s'.handles.length = s.handles.length
  handle : ∀ h', h' ≠ h → s'.handles[h']? = s.handles[h']?
  queue : s'.queue = s.queue
  parked : s'.parked = s.parked
  log : ∃ l, s'.log = s.log ++ l ∧ QuietBut h l

theorem Only.refl (s : Shim) (h : ℕ) : Only s s h :=
  ⟨rfl, fun _ _ => rfl, rfl, rfl, [], (List.append_nil _).symm, fun h' _ => quiet_nil h'⟩

theorem Only.trans {s s' s'' : Shim} {h : ℕ} (h₁ : Only s s' h) (h₂ : Only s' s'' h) :
    Only s s'' h where
  length := h₂.length.trans h₁.length
  handle h' hne := (h₂.handle h' hne).trans (h₁.handle h' hne)
  queue := h₂.queue.trans h₁.queue
  parked := h₂.parked.trans h₁.parked
  log := by
    obtain ⟨l₁, heq₁, hl₁⟩ := h₁.log
    obtain ⟨l₂, heq₂, hl₂⟩ := h₂.log
    exact ⟨l₁ ++ l₂, by rw [heq₂, heq₁, List.append_assoc], hl₁.append hl₂⟩

theorem Only.calm {s s' : Shim} {h h' : ℕ} (ho : Only s s' h) (hne : h' ≠ h) (hc : s.Calm h') :
    s'.Calm h' := by
  obtain ⟨l, heq, hl⟩ := ho.log
  refine ⟨heq ▸ hc.quiet.append (hl h' hne), fun v hv => ?_⟩
  rw [ho.handle h' hne] at hv
  exact hc.unannounced v hv

variable {s s' : Shim} {h : ℕ}

theorem Sound.only (hs : s.Sound) (ho : Only s s' h) (hlt : h < s.handles.length)
    (hcalm : h ∈ s.opening ∨ h ∈ s.parked → s'.Calm h)
    (hopen : h ∈ s.opening → s'.Unanswered h) : s'.Sound := by
  have hopening : s'.opening = s.opening := by rw [opening, opening, ho.queue]
  obtain ⟨l, heq, hl⟩ := ho.log
  refine ⟨?_, ?_, ?_, ?_, ?_, ?_, ?_, ?_, ?_, ?_⟩
  · intro h' hle
    rw [ho.length] at hle
    rw [heq]
    exact (hs.fresh h' hle).append (hl h' (by omega))
  · rw [hopening, ho.length]
    exact hs.opens
  · rw [ho.queue, ho.length]
    exact hs.posts
  · rw [hopening]
    exact hs.once
  · rw [hopening, ho.parked]
    exact hs.apart
  · rw [ho.parked]
    exact hs.parkedOnce
  · rw [ho.parked, ho.length]
    exact hs.parked
  · rw [ho.queue]
    exact hs.behind
  · intro h' hwait
    rw [hopening, ho.parked] at hwait
    by_cases hne : h' = h
    · rw [hne] at hwait ⊢
      exact hcalm hwait
    · exact ho.calm hne (hs.calm h' hwait)
  · intro h' hwait
    rw [hopening] at hwait
    by_cases hne : h' = h
    · rw [hne] at hwait ⊢
      exact hopen hwait
    · intro v hv
      rw [ho.handle h' hne] at hv
      exact hs.unanswered h' hwait v hv

/-- Changes that disturb nobody. -/
theorem Sound.queueChange (hs : s.Sound) {c : Change} (hc : ∀ h, ¬Disturbs h c) :
    (s.queueChange c).Sound where
  fresh h hle := (hs.fresh h hle).append (quiet_singleton (hc h))
  opens := hs.opens
  posts := hs.posts
  once := hs.once
  apart := hs.apart
  parkedOnce := hs.parkedOnce
  parked := hs.parked
  behind := hs.behind
  calm h hwait := ⟨(hs.calm h hwait).quiet.append (quiet_singleton (hc h)),
    (hs.calm h hwait).unannounced⟩
  unanswered := hs.unanswered

theorem Sound.pop (hs : s.Sound) {job : Job} {queue : List Job} (hq : s.queue = job :: queue) :
    Sound { s with queue := queue } := by
  have hsub : queue.Sublist s.queue := hq ▸ List.sublist_cons_self job queue
  have hopening : (queue.filterMap Job.opens).Sublist s.opening := hsub.filterMap _
  exact {
    fresh := hs.fresh
    opens := fun h hh => hs.opens h (hopening.subset hh)
    posts := fun j hj => hs.posts j (hsub.subset hj)
    once := hs.once.sublist hopening
    apart := fun h hh => hs.apart h (hopening.subset hh)
    parkedOnce := hs.parkedOnce
    parked := hs.parked
    behind := hs.behind.sublist hsub
    calm := fun h hh =>
      have hcalm := hs.calm h (hh.imp (fun hh => hopening.subset hh) id)
      ⟨hcalm.quiet, hcalm.unannounced⟩
    unanswered := fun h hh => hs.unanswered h (hopening.subset hh) }

/-- What is known of the handle of a create or join that is taken from the queue. -/
theorem Sound.head_opens (hs : s.Sound) {job : Job} {queue : List Job} (hq : s.queue = job :: queue)
    (hh : job.opens = some h) :
    h < s.handles.length ∧ h ∉ queue.filterMap Job.opens ∧ h ∉ s.parked ∧ s.Calm h := by
  have hopening : s.opening = h :: queue.filterMap Job.opens := by
    rw [opening, hq, List.filterMap_cons, hh]
  have hmem : h ∈ s.opening := by
    rw [hopening]
    exact List.mem_cons_self
  have honce := hs.once
  rw [hopening, List.nodup_cons] at honce
  exact ⟨hs.opens h hmem, honce.1, hs.apart h hmem, hs.calm h (.inl hmem)⟩

theorem Sound.head_posts (hs : s.Sound) {job : Job} {queue : List Job} (hq : s.queue = job :: queue)
    (hh : job.posts = some h) : h < s.handles.length ∧ h ∉ queue.filterMap Job.opens := by
  refine ⟨hs.posts job (hq ▸ List.mem_cons_self) h hh, fun hmem => ?_⟩
  obtain ⟨b, hb, hopens⟩ := List.mem_filterMap.mp hmem
  have hbehind := hs.behind
  rw [hq, List.pairwise_cons] at hbehind
  exact hbehind.1 b hb h hh hopens

/-! ### Single operations -/

theorem emit_of_none {f : Emitting → Emitting} (hv : s.handles[h]? = none) : s.emit h f = s := by
  unfold emit
  rw [hv]

theorem emit_of_some {f : Emitting → Emitting} {v : View} (hv : s.handles[h]? = some v) :
    s.emit h f =
      { s with handles := s.handles.set h (f ⟨v, s.log⟩).view, log := (f ⟨v, s.log⟩).changes } := by
  unfold emit
  rw [hv]

theorem emit_handle {f : Emitting → Emitting} {v : View} (hv : s.handles[h]? = some v) :
    (s.emit h f).handles[h]? = some (f ⟨v, s.log⟩).view := by
  obtain ⟨hlt, -⟩ := List.getElem?_eq_some_iff.mp hv
  rw [emit_of_some hv]
  exact List.getElem?_set_self hlt

theorem emit_only {f : Emitting → Emitting}
    (hf : ∀ t, ∃ l, (f t).changes = t.changes ++ l ∧ QuietBut h l) : Only s (s.emit h f) h := by
  cases hv : s.handles[h]? with
  | none =>
    rw [emit_of_none hv]
    exact .refl s h
  | some v =>
    rw [emit_of_some hv]
    refine ⟨List.length_set, fun h' hne => ?_, rfl, rfl, hf _⟩
    exact List.getElem?_set_ne (Ne.symm hne)

theorem update_only (f : View → View) : Only s (s.update h f) h :=
  emit_only fun _ => ⟨[], (List.append_nil _).symm, fun h' _ => quiet_nil h'⟩

theorem parked_untrack : (s.untrack h).parked = s.parked := by
  unfold parked pendingJoins untrack
  cases s.mp <;> rfl

theorem untrack_only : Only s (s.untrack h) h :=
  ⟨rfl, fun _ _ => rfl, rfl, parked_untrack, [], (List.append_nil _).symm, fun h' _ => quiet_nil h'⟩

theorem queueChange_only {c : Change} (hc : ∀ h', h' ≠ h → ¬Disturbs h' c) :
    Only s (s.queueChange c) h :=
  ⟨rfl, fun _ _ => rfl, rfl, rfl, [c], rfl, fun h' hne => quiet_singleton (hc h' hne)⟩

theorem fail_only {c : Change} (hc : ∀ h', h' ≠ h → ¬Disturbs h' c) : Only s (s.fail h c) h :=
  ((update_only _).trans untrack_only).trans (queueChange_only hc)

/-! ### Calls -/

/-- A view that differs in nothing that the invariant looks at. -/
theorem Sound.update (hs : s.Sound) {v : View} (hv : s.handles[h]? = some v) {f : View → View}
    (hf : (f v).announced = v.announced ∧ (f v).pending = v.pending ∧ (f v).id = v.id) :
    (s.update h f).Sound := by
  obtain ⟨hlt, -⟩ := List.getElem?_eq_some_iff.mp hv
  have hhandle : (s.update h f).handles[h]? = some (f v) := emit_handle hv
  have hlog : (s.update h f).log = s.log := by
    rw [Shim.update, emit_of_some hv]
  refine hs.only (update_only f) hlt (fun hwait => ⟨?_, fun v' hv' => ?_⟩) (fun hopen v' hv' => ?_)
  · rw [hlog]
    exact (hs.calm h hwait).quiet
  · rw [hhandle, Option.some.injEq] at hv'
    rw [← hv', hf.1]
    exact (hs.calm h hwait).unannounced v hv
  · rw [hhandle, Option.some.injEq] at hv'
    rw [← hv', hf.2.1, hf.2.2]
    exact hs.unanswered h hopen v hv

theorem Sound.enqueue (hs : s.Sound) {job : Job} (hopens : job.opens = none)
    (hposts : ∀ h, job.posts = some h → h < s.handles.length) : (s.enqueue job).Sound := by
  have hopening : (s.enqueue job).opening = s.opening := by
    unfold opening Shim.enqueue
    rw [List.filterMap_append, List.filterMap_cons, hopens, List.filterMap_nil, List.append_nil]
  refine ⟨hs.fresh, ?_, ?_, ?_, ?_, hs.parkedOnce, hs.parked, ?_, ?_, ?_⟩
  · rw [hopening]
    exact hs.opens
  · intro j hj
    rcases List.mem_append.mp hj with hj | hj
    · exact hs.posts j hj
    · rw [List.mem_singleton.mp hj]
      exact hposts
  · rw [hopening]
    exact hs.once
  · rw [hopening]
    exact hs.apart
  · refine List.pairwise_append.mpr ⟨hs.behind, List.pairwise_singleton _ _, ?_⟩
    intro a _ b hb h _
    rw [List.mem_singleton.mp hb, hopens]
    exact fun hnone => by cases hnone
  · rw [hopening]
    exact fun h hwait => ⟨(hs.calm h hwait).quiet, (hs.calm h hwait).unannounced⟩
  · rw [hopening]
    exact hs.unanswered

theorem parked_publish (v : View) : (s.publish v).parked = s.parked := by
  unfold parked pendingJoins publish
  cases s.mp <;> rfl

/-- A new handle with its create or join. -/
theorem Sound.publish (hs : s.Sound) {v : View} {job : Job} (hopens : job.opens = some s.handles.length)
    (hposts : job.posts = none) (hnone : ∀ e, v.announced.contains e = false)
    (hpending : v.pending = true) (hid : v.id = "") : ((s.publish v).enqueue job).Sound := by
  set n := s.handles.length with hn
  have hopening : ((s.publish v).enqueue job).opening = s.opening ++ [n] := by
    unfold opening Shim.enqueue
    rw [List.filterMap_append, List.filterMap_cons, hopens, List.filterMap_nil]
    rfl
  have hparked : ((s.publish v).enqueue job).parked = s.parked := parked_publish v
  have hlength : ((s.publish v).enqueue job).handles.length = n + 1 := by
    change (s.handles ++ [v]).length = _
    rw [List.length_append, List.length_singleton]
  have hold : ∀ h, h < n → ((s.publish v).enqueue job).handles[h]? = s.handles[h]? := fun h hlt =>
    List.getElem?_append_left hlt
  have hnew : ((s.publish v).enqueue job).handles[n]? = some v := List.getElem?_concat_length
  have hunopened : n ∉ s.opening := fun hmem => lt_irrefl _ (hs.opens n hmem)
  refine ⟨?_, ?_, ?_, ?_, ?_, ?_, ?_, ?_, ?_, ?_⟩
  · intro h hle
    rw [hlength] at hle
    exact hs.fresh h (by omega)
  · intro h hmem
    rw [hlength]
    rw [hopening, List.mem_append, List.mem_singleton] at hmem
    rcases hmem with hmem | rfl
    · have := hs.opens h hmem
      omega
    · omega
  · intro j hj h hpost
    rw [hlength]
    rcases List.mem_append.mp hj with hj | hj
    · have := hs.posts j hj h hpost
      omega
    · rw [List.mem_singleton.mp hj, hposts] at hpost
      cases hpost
  · rw [hopening]
    refine List.Nodup.append hs.once (List.nodup_singleton n) ?_
    intro h hmem hmem'
    rw [List.mem_singleton.mp hmem'] at hmem
    exact hunopened hmem
  · intro h hmem
    rw [hparked]
    rw [hopening, List.mem_append, List.mem_singleton] at hmem
    rcases hmem with hmem | rfl
    · exact hs.apart h hmem
    · exact fun hpark => lt_irrefl _ (hs.parked _ hpark)
  · rw [hparked]
    exact hs.parkedOnce
  · intro h hpark
    rw [hparked] at hpark
    have := hs.parked h hpark
    rw [hlength]
    omega
  · refine List.pairwise_append.mpr ⟨hs.behind, List.pairwise_singleton _ _, ?_⟩
    intro a ha b hb h hpost
    rw [List.mem_singleton.mp hb, hopens, ne_eq, Option.some.injEq]
    have := hs.posts a ha h hpost
    omega
  · intro h hwait
    rw [hopening, hparked, List.mem_append, List.mem_singleton] at hwait
    by_cases hne : h = n
    · rw [hne]
      refine ⟨hs.fresh n le_rfl, fun v' hv' => ?_⟩
      rw [hnew, Option.some.injEq] at hv'
      exact hv' ▸ hnone
    · have hwait' : h ∈ s.opening ∨ h ∈ s.parked := by tauto
      have hlt : h < n := hwait'.elim (hs.opens h) (hs.parked h)
      refine ⟨(hs.calm h hwait').quiet, fun v' hv' => ?_⟩
      rw [hold h hlt] at hv'
      exact (hs.calm h hwait').unannounced v' hv'
  · intro h hmem v' hv'
    rw [hopening, List.mem_append, List.mem_singleton] at hmem
    rcases hmem with hmem | rfl
    · rw [hold h (hs.opens h hmem)] at hv'
      exact hs.unanswered h hmem v' hv'
    · rw [hnew, Option.some.injEq] at hv'
      exact hv' ▸ ⟨hpending, hid⟩

/-- The parked joins of another instance are gone. -/
theorem Sound.unpark (hs : s.Sound) {s' : Shim} (hhandles : s'.handles = s.handles)
    (hqueue : s'.queue = s.queue) (hlog : s'.log = s.log) (hparked : s'.parked.Sublist s.parked) :
    s'.Sound := by
  have hopening : s'.opening = s.opening := by rw [opening, opening, hqueue]
  refine ⟨?_, ?_, ?_, ?_, ?_, ?_, ?_, ?_, ?_, ?_⟩
  · rw [hhandles, hlog]
    exact hs.fresh
  · rw [hopening, hhandles]
    exact hs.opens
  · rw [hqueue, hhandles]
    exact hs.posts
  · rw [hopening]
    exact hs.once
  · rw [hopening]
    exact fun h hh hp => hs.apart h hh (hparked.subset hp)
  · exact hs.parkedOnce.sublist hparked
  · rw [hhandles]
    exact fun h hp => hs.parked h (hparked.subset hp)
  · rw [hqueue]
    exact hs.behind
  · intro h hwait
    rw [hopening] at hwait
    have hcalm := hs.calm h (hwait.imp id fun hp => hparked.subset hp)
    exact ⟨hlog ▸ hcalm.quiet, hhandles ▸ hcalm.unannounced⟩
  · intro h hh
    rw [hopening] at hh
    intro v hv
    rw [hhandles] at hv
    exact hs.unanswered h hh v hv

theorem Sound.untrack (hs : s.Sound) (h : ℕ) : (s.untrack h).Sound := by
  refine hs.unpark rfl rfl rfl ?_
  rw [parked_untrack]

theorem applyMember_fields (l : Lobby) (member : Option EntityKey)
    (memberUpdate : Option MemberDataUpdate) (localEntity : String) :
    (applyMember l member memberUpdate localEntity).1.pending = l.pending ∧
      (applyMember l member memberUpdate localEntity).1.id = l.id := by
  unfold applyMember
  cases memberUpdate with
  | none => exact ⟨rfl, rfl⟩
  | some mu =>
    simp only
    split_ifs <;> exact ⟨rfl, rfl⟩

theorem postUpdate_fields {v v' : View} {member : Option EntityKey} {update : Option DataUpdate}
    {memberUpdate : Option MemberDataUpdate} {localEntity : String}
    (hv : v.postUpdate member update memberUpdate localEntity = some v') :
    v'.announced = v.announced ∧ v'.pending = v.pending ∧ v'.id = v.id := by
  unfold View.postUpdate at hv
  split_ifs at hv
  rw [Option.some.injEq] at hv
  subst hv
  cases update with
  | none => exact ⟨rfl, applyMember_fields _ _ _ _⟩
  | some u => exact ⟨rfl, applyMember_fields _ _ _ _⟩

/-- Calls keep the invariant. -/
theorem Sound.call (hs : s.Sound) (c : Call) : (s.call c).Sound := by
  cases c with
  | initializeMp =>
    unfold Shim.call initializeMp
    simp only
    split_ifs
    · exact hs
    · exact hs.unpark rfl rfl rfl (List.nil_sublist _)
  | uninitializeMp => exact hs.unpark rfl rfl rfl (List.nil_sublist _)
  | setEntityToken entity token =>
    unfold Shim.call setEntityToken
    simp only
    split_ifs
    · exact hs
    · exact hs.unpark rfl rfl rfl (List.Sublist.refl _)
  | createAndJoinLobby creator cfg joinKv ctx =>
    unfold Shim.call createAndJoinLobby
    simp only
    split_ifs
    · exact hs
    · exact hs.publish rfl rfl (fun _ => rfl) rfl rfl
  | joinLobby joiner joinKv =>
    unfold Shim.call joinLobby
    simp only
    split_ifs
    · exact hs
    · exact hs.publish rfl rfl (fun _ => rfl) rfl rfl
  | findLobbies entity ctx =>
    unfold Shim.call findLobbies
    simp only
    split_ifs
    · exact hs
    · exact hs.enqueue rfl fun h hh => by cases hh
  | postUpdate t member update memberUpdate ctx order =>
    unfold Shim.call Shim.postUpdate
    simp only
    split
    · exact hs
    · rename_i v hv
      obtain ⟨hlt, -⟩ := List.getElem?_eq_some_iff.mp hv
      split
      · exact hs
      · rename_i v' hv'
        refine (hs.update hv (postUpdate_fields hv')).enqueue rfl fun h hh => ?_
        cases hh
        rw [(update_only (h := t) _).length]
        exact hlt
  | leave t =>
    unfold Shim.call leave
    simp only
    split_ifs with hlt
    · have hv := List.getElem?_eq_getElem hlt
      have hleft := hs.update (f := fun v => { v with left := true }) hv ⟨rfl, rfl, rfl⟩
      exact (hleft.untrack t).enqueue rfl fun h hh => by cases hh
    · exact hs

/-! ### The worker -/

/-- No create or join is completed. -/
def Silent (s s' : Shim) : Prop := ∃ l, s'.log = s.log ++ l ∧ ∀ c ∈ l, ¬Completes c

theorem silent_of_eq (hlog : s'.log = s.log) : Silent s s' :=
  ⟨[], by rw [hlog, List.append_nil], fun _ hc => absurd hc List.not_mem_nil⟩

theorem silent_queueChange {c : Change} (hlog : s'.log = s.log) (hc : ¬Completes c) :
    Silent s (s'.queueChange c) := by
  refine ⟨[c], by rw [Shim.queueChange, hlog], fun c' hc' => ?_⟩
  rw [List.mem_singleton.mp hc']
  exact hc

theorem Silent.trans {s'' : Shim} (h₁ : Silent s s') (h₂ : Silent s' s'') : Silent s s'' := by
  obtain ⟨l₁, heq₁, hl₁⟩ := h₁
  obtain ⟨l₂, heq₂, hl₂⟩ := h₂
  refine ⟨l₁ ++ l₂, by rw [heq₂, heq₁, List.append_assoc], fun c hc => ?_⟩
  rcases List.mem_append.mp hc with hc | hc
  · exact hl₁ c hc
  · exact hl₂ c hc

theorem update_log (f : View → View) : (s.update h f).log = s.log := by
  unfold Shim.update emit
  split <;> rfl

theorem emit_silent {f : Emitting → Emitting} (hf : ∀ t, Emitting.Keeps h t (f t)) :
    Silent s (s.emit h f) := by
  cases hv : s.handles[h]? with
  | none =>
    rw [emit_of_none hv]
    exact silent_of_eq rfl
  | some v =>
    rw [emit_of_some hv]
    obtain ⟨l, heq, -, hl⟩ := hf ⟨v, s.log⟩
    exact ⟨l, heq, hl⟩

theorem emit_only_keeps {f : Emitting → Emitting} (hf : ∀ t, Emitting.Keeps h t (f t)) :
    Only s (s.emit h f) h :=
  emit_only fun t =>
    have ⟨l, heq, hl, _⟩ := hf t
    ⟨l, heq, hl⟩

theorem fail_silent {c : Change} (hc : ¬Completes c) : Silent s (s.fail h c) :=
  silent_queueChange (update_log _) hc

/-- What `run_create` does to the title's queue when the service has accepted the create. -/
def createdView (v : View) (job : CreateJob) (text : List Char) : View :=
  v.applyCreateResponse text job.owner job.maxPlayers job.lobbyData job.search

/-- `run_create` completes nothing, or it is accepted. -/
theorem runCreate_cases (job : CreateJob) (r : Reply) :
    Only s (s.runCreate job r) job.lobby ∧
      (Silent s (s.runCreate job r) ∨
        ∃ v, s.handles[job.lobby]? = some v ∧ s.current job.generation = true ∧ v.left = false ∧
          (answer r).1 = 200 ∧ (Scan.jsonStr (answer r).2 "LobbyId").isSome = true ∧
          s.runCreate job r = s.emit job.lobby fun t =>
            (Emitting.emitMemberAdded job.lobby
              { t with view := createdView t.view job (answer r).2 } job.owner).queue
                (.createCompleted 0 job.ctx job.lobby)) := by
  unfold runCreate
  generalize answer r = a
  obtain ⟨status, text⟩ := a
  simp only
  split
  · exact ⟨.refl s _, .inl (silent_of_eq rfl)⟩
  · rename_i v hv
    split_ifs with hskip hrejected hstatus
    · exact ⟨.refl s _, .inl (silent_of_eq rfl)⟩
    · exact ⟨fail_only fun _ _ => id, .inl (fail_silent (brokerErrorCode_ne_zero status text))⟩
    · have hmalformed : ePfServiceMalformedResponse ≠ 0 := by decide
      exact ⟨fail_only fun _ _ => id, .inl (fail_silent hmalformed)⟩
    · simp only [Bool.or_eq_true, Bool.not_eq_true', not_or, Bool.not_eq_false,
        Bool.not_eq_true] at hskip
      push Not at hrejected
      refine ⟨emit_only fun t => ?_, .inr ⟨v, hv, hskip.1, hskip.2, hrejected.1, ?_, rfl⟩⟩
      · obtain ⟨l, heq, hl, -⟩ := (Emitting.emitMemberAdded_announces job.lobby
          { t with view := createdView t.view job text } job.owner).keeps
        refine ⟨l ++ [.createCompleted 0 job.ctx job.lobby], ?_,
          hl.append fun h' _ => quiet_singleton id⟩
        rw [← List.append_assoc]
        exact congrArg (· ++ [Change.createCompleted 0 job.ctx job.lobby]) heq
      · simpa [Option.isSome_iff_ne_none] using hrejected.2

/-- The replies accept a join whose handle is still wanted: the view before it. -/
structure Accepted (s : Shim) (job : JoinJob) (r r' : Reply) (v : View) : Prop where
  handle : s.handles[job.lobby]? = some v
  current : s.current job.generation = true
  wanted : v.left = false
  joined : (answer r).1 = 200
  named : (Scan.jsonStr (answer r).2 "LobbyId").isSome = true
  got : (answer r').1 = 200

/-- The view of an accepted join. -/
def joinedView (v : View) (job : JoinJob) (r' : Reply) : View :=
  v.applyJoinResponse (answer r').2 job.joiner job.memberKv

theorem failJoin_only {job : JoinJob} (code : UInt32) : Only s (s.failJoin job code) job.lobby := by
  unfold failJoin
  split_ifs
  · exact fail_only fun _ _ => id
  · exact .refl s _

theorem failJoin_silent {job : JoinJob} {code : UInt32} (hcode : code ≠ 0) :
    Silent s (s.failJoin job code) := by
  unfold failJoin
  split_ifs
  · exact fail_silent hcode
  · exact silent_of_eq rfl

/-- `run_join` comes to nothing, or the join is accepted: completed at once, or parked. -/
theorem runJoin_cases (job : JoinJob) (r r' : Reply) :
    (Only s (s.runJoin job r r') job.lobby ∧ Silent s (s.runJoin job r r')) ∨
      ∃ v, s.Accepted job r r' v ∧
        if lobbyReadyForGuest (joinedView v job r').toLobby then
          s.runJoin job r r' = (s.update job.lobby fun _ => joinedView v job r').emit job.lobby
            fun t => t.emitJoinCompleted job.lobby job.joiner
        else
          s.runJoin job r r' =
            (s.update job.lobby fun _ => joinedView v job r').park ⟨job.lobby, job.joiner⟩ := by
  by_cases hstatus : (answer r).1 = 200
  · by_cases hid : (Scan.jsonStr (answer r).2 "LobbyId").isSome = true
    · by_cases hgot : (answer r').1 = 200
      · have hid' : (Scan.jsonStr (answer r).2 "LobbyId").isNone = false := by
          simpa [Option.isSome_iff_ne_none, Option.isNone_iff_eq_none] using hid
        cases hv : s.handles[job.lobby]? with
        | none =>
          left
          have heq : s.runJoin job r r' = s := by
            simp [runJoin, hstatus, hid', hgot, hv]
          rw [heq]
          exact ⟨.refl s _, silent_of_eq rfl⟩
        | some v =>
          by_cases hskip : (!s.current job.generation || v.left) = true
          · left
            have heq : s.runJoin job r r' = s := by
              simp only [runJoin, hstatus, hid', hgot, hv, hskip]
              simp
            rw [heq]
            exact ⟨.refl s _, silent_of_eq rfl⟩
          · right
            have heq : s.runJoin job r r' =
                if lobbyReadyForGuest (joinedView v job r').toLobby then
                  (s.update job.lobby fun _ => joinedView v job r').emit job.lobby
                    fun t => t.emitJoinCompleted job.lobby job.joiner
                else (s.update job.lobby fun _ => joinedView v job r').park
                  ⟨job.lobby, job.joiner⟩ := by
              simp only [runJoin, hstatus, hid', hgot, hv, hskip, joinedView]
              rfl
            simp only [Bool.or_eq_true, Bool.not_eq_true', not_or, Bool.not_eq_false,
              Bool.not_eq_true] at hskip
            refine ⟨v, ⟨hv, hskip.1, hskip.2, hstatus, hid, hgot⟩, ?_⟩
            rw [heq]
            split_ifs <;> rfl
      · left
        have heq : s.runJoin job r r' = s.failJoin job (brokerErrorCode (answer r').1 (answer r').2) := by
          simp [runJoin, hstatus, hgot, Option.isSome_iff_ne_none.mp hid]
        rw [heq]
        exact ⟨failJoin_only _, failJoin_silent (brokerErrorCode_ne_zero _ _)⟩
    · left
      have heq : s.runJoin job r r' = s.failJoin job ePfServiceMalformedResponse := by
        simp only [Bool.not_eq_true, Option.isSome_eq_false_iff, Option.isNone_iff_eq_none] at hid
        simp [runJoin, hstatus, hid]
      rw [heq]
      exact ⟨failJoin_only _, failJoin_silent (by decide)⟩
  · left
    have heq : s.runJoin job r r' = s.failJoin job (brokerErrorCode (answer r).1 (answer r).2) := by
      simp [runJoin, hstatus]
    rw [heq]
    exact ⟨failJoin_only _, failJoin_silent (brokerErrorCode_ne_zero _ _)⟩

theorem joinedView_announced (v : View) (job : JoinJob) (r' : Reply) :
    (joinedView v job r').announced = v.announced := by
  unfold joinedView View.applyJoinResponse
  cases View.lobbyFromJson (answer r').2 <;> rfl

theorem parked_park (hmp : s.mp.isSome = true) (pj : PendingJoin) :
    (s.park pj).parked = s.parked ++ [pj.lobby] := by
  obtain ⟨m, hm⟩ := Option.isSome_iff_exists.mp hmp
  unfold parked pendingJoins park
  rw [hm]
  exact List.map_append

theorem Sound.park (hs : s.Sound) (hmp : s.mp.isSome = true) {pj : PendingJoin}
    (hlt : pj.lobby < s.handles.length) (hopen : pj.lobby ∉ s.opening) (hpark : pj.lobby ∉ s.parked)
    (hcalm : s.Calm pj.lobby) : (s.park pj).Sound := by
  have hparked := parked_park hmp pj
  refine ⟨hs.fresh, hs.opens, hs.posts, hs.once, ?_, ?_, ?_, hs.behind, ?_, hs.unanswered⟩
  · intro h hh
    rw [hparked, List.mem_append, List.mem_singleton]
    rintro (hp | rfl)
    · exact hs.apart h hh hp
    · exact hopen hh
  · rw [hparked]
    refine List.Nodup.append hs.parkedOnce (List.nodup_singleton _) ?_
    intro h hp hp'
    rw [List.mem_singleton.mp hp'] at hp
    exact hpark hp
  · intro h hp
    rw [hparked, List.mem_append, List.mem_singleton] at hp
    rcases hp with hp | rfl
    · exact hs.parked h hp
    · exact hlt
  · intro h hwait
    rw [hparked, List.mem_append, List.mem_singleton] at hwait
    by_cases hne : h = pj.lobby
    · rw [hne]
      exact ⟨hcalm.quiet, hcalm.unannounced⟩
    · have hcalm' := hs.calm h (by tauto)
      exact ⟨hcalm'.quiet, hcalm'.unannounced⟩

/-- A handle that waits for nothing may be changed at will. -/
theorem Sound.only_settled (hs : s.Sound) (ho : Only s s' h) (hlt : h < s.handles.length)
    (hopen : h ∉ s.opening) (hpark : h ∉ s.parked) : s'.Sound :=
  hs.only ho hlt (fun hwait => absurd hwait (not_or.mpr ⟨hopen, hpark⟩))
    fun hmem => absurd hmem hopen

theorem emitJoinCompleted_quietBut (t : Emitting) (joiner : EntityKey) :
    ∃ l, (t.emitJoinCompleted h joiner).changes = t.changes ++ l ∧ QuietBut h l := by
  obtain ⟨adds, d, heq, hadds, -, -⟩ := Emitting.emitJoinCompleted_changes h t joiner
  refine ⟨adds ++ [.updated h d, .joinCompleted 0 joiner h], by rw [heq, List.append_assoc], ?_⟩
  intro h' hne c hc
  rcases List.mem_append.mp hc with hc | hc
  · obtain ⟨m, rfl⟩ := hadds c hc
    exact id
  · rcases List.mem_cons.mp hc with rfl | hc
    · exact fun heq => hne heq.symm
    · rw [List.mem_singleton.mp hc]
      exact id

/-- The create or join of the queue's head. -/
theorem Sound.runJoin (hs : s.Sound) {job : JoinJob} (hlt : job.lobby < s.handles.length)
    (hopen : job.lobby ∉ s.opening) (hpark : job.lobby ∉ s.parked) (hcalm : s.Calm job.lobby)
    (r r' : Reply) : (s.runJoin job r r').Sound := by
  rcases s.runJoin_cases job r r' with ⟨honly, -⟩ | ⟨v, hacc, hcases⟩
  · exact hs.only_settled honly hlt hopen hpark
  · have hupdate : Only s (s.update job.lobby fun _ => joinedView v job r') job.lobby := update_only _
    have hs₁ := hs.only_settled hupdate hlt hopen hpark
    have hlt₁ := hlt
    rw [← hupdate.length] at hlt₁
    have hopen₁ : job.lobby ∉ (s.update job.lobby fun _ => joinedView v job r').opening := by
      rw [opening, hupdate.queue]
      exact hopen
    have hpark₁ := hpark
    rw [← hupdate.parked] at hpark₁
    split_ifs at hcases with hready
    · rw [hcases]
      exact hs₁.only_settled (emit_only fun t => emitJoinCompleted_quietBut t job.joiner) hlt₁ hopen₁
        hpark₁
    · rw [hcases]
      refine hs₁.park ?_ hlt₁ hopen₁ hpark₁ ⟨?_, fun v' hv' => ?_⟩
      · have hcurrent := hacc.current
        unfold Shim.current at hcurrent
        unfold Shim.update emit
        rw [hacc.handle]
        cases hmp : s.mp with
        | none => simp [hmp] at hcurrent
        | some m => rfl
      · rw [update_log]
        exact hcalm.quiet
      · rw [Shim.update, emit_handle hacc.handle, Option.some.injEq] at hv'
        rw [← hv', joinedView_announced]
        exact hcalm.unannounced v hacc.handle

/-- The echo of a post, on a handle that waits for no completion. -/
theorem runPost_cases (job : PostJob) (r : Reply) :
    Only s (s.runPost job r) job.lobby ∧ Silent s (s.runPost job r) ∧
      ((s.current job.generation = true ∧ (answer r).1 = 200 ∧ job.delta.isEmpty = false) ∨
        s.runPost job r = s ∨
        ∃ code, s.runPost job r =
          s.queueChange (.postCompleted code job.lobby job.member job.ctx)) := by
  unfold runPost
  generalize answer r = a
  obtain ⟨status, text⟩ := a
  simp only
  split_ifs with hcurrent hecho
  · have hpost : Only s (s.queueChange (.postCompleted (resultCode status text) job.lobby job.member
        job.ctx)) job.lobby := queueChange_only fun _ _ => id
    have hsilent : Silent s (s.queueChange (.postCompleted (resultCode status text) job.lobby
        job.member job.ctx)) := silent_queueChange rfl id
    have hkeeps := fun t => Emitting.emitUpdated_keeps job.lobby t job.delta false
    refine ⟨hpost.trans (emit_only_keeps hkeeps), hsilent.trans (emit_silent hkeeps),
      .inl ⟨hcurrent, ?_, ?_⟩⟩
    · by_contra hstatus
      have hcode := hecho.1
      rw [resultCode, if_neg hstatus] at hcode
      exact brokerErrorCode_ne_zero status text hcode
    · simpa using hecho.2
  · exact ⟨queueChange_only fun _ _ => id, silent_queueChange rfl id, .inr (.inr ⟨_, rfl⟩)⟩
  · exact ⟨.refl s _, silent_of_eq rfl, .inr (.inl rfl)⟩

theorem Sound.runPost (hs : s.Sound) {job : PostJob} (hlt : job.lobby < s.handles.length)
    (hopen : job.lobby ∉ s.opening) {r : Reply}
    (hecho : s.current job.generation = true → (answer r).1 = 200 → job.delta.isEmpty = false →
      job.lobby ∉ s.parked) : (s.runPost job r).Sound := by
  obtain ⟨honly, -, hcases⟩ := s.runPost_cases job r
  rcases hcases with ⟨hcurrent, hstatus, hdelta⟩ | heq | ⟨code, heq⟩
  · exact hs.only_settled honly hlt hopen (hecho hcurrent hstatus hdelta)
  · rwa [heq]
  · rw [heq]
    exact hs.queueChange fun _ => id

/-- A poll of a handle with a parked join leaves it calm. -/
theorem Sound.pollLobby (hs : s.Sound) (h : ℕ) (order : RefreshOrder) (r : Reply) :
    (s.pollLobby h order r).Sound := by
  unfold Shim.pollLobby
  split_ifs with hpoll
  · rw [Bool.and_eq_true] at hpoll
    have hpollable := hpoll.2
    unfold Shim.pollable at hpollable
    cases hv : s.handles[h]? with
    | none => simp [hv] at hpollable
    | some v =>
      rw [hv, Option.map_some, Option.getD_some] at hpollable
      obtain ⟨hlt, -⟩ := List.getElem?_eq_some_iff.mp hv
      have hopen : h ∉ s.opening := by
        intro hmem
        obtain ⟨hpending, hid⟩ := hs.unanswered h hmem v hv
        simp [View.pollable, hpending, hid] at hpollable
      have hkeeps := fun t => Emitting.pollLobby_keeps h order (s.parked.contains h) t r
      have honly : Only s (s.emit h fun t => (t.pollLobby h order (s.parked.contains h) r).1) h :=
        emit_only_keeps hkeeps
      have hemit : (s.emit h fun t => (t.pollLobby h order (s.parked.contains h) r).1).Sound := by
        refine hs.only honly hlt (fun hwait => ?_) fun hmem => absurd hmem hopen
        have hpark : h ∈ s.parked := hwait.resolve_left hopen
        have hcalm := hs.calm h hwait
        have hcontains : s.parked.contains h = true := List.contains_iff_mem.mpr hpark
        obtain ⟨hnone, l, hchanges, hquiet⟩ := Emitting.pollLobby_parked h
          (t := ⟨v, s.log⟩) (hcalm.unannounced v hv) order r
        refine ⟨?_, fun v' hv' => ?_⟩
        · rw [emit_of_some hv, hcontains]
          rw [hchanges]
          exact hcalm.quiet.append (hquiet h)
        · rw [emit_handle hv, Option.some.injEq, hcontains] at hv'
          rw [← hv']
          exact hnone
      extract_lets gone s₁
      split_ifs
      · exact hemit.untrack h
      · exact hemit
  · exact hs

theorem pollLobby_silent (h : ℕ) (order : RefreshOrder) (r : Reply) :
    Silent s (s.pollLobby h order r) := by
  have hkeeps := fun t => Emitting.pollLobby_keeps h order (s.parked.contains h) t r
  unfold Shim.pollLobby
  split_ifs
  · extract_lets gone s₁
    split_ifs
    · exact (emit_silent hkeeps).trans (silent_of_eq rfl)
    · exact emit_silent hkeeps
  · exact silent_of_eq rfl

/-- One completion of a parked join. -/
def complete (s : Shim) (pj : PendingJoin) : Shim :=
  s.emit pj.lobby fun t => t.emitJoinCompleted pj.lobby pj.joiner

theorem complete_only (pj : PendingJoin) : Only s (s.complete pj) pj.lobby :=
  emit_only fun t => emitJoinCompleted_quietBut t pj.joiner

/-- The shim without the joins that are about to be completed. -/
def unparked (s : Shim) : Shim :=
  { s with mp := s.mp.map fun m =>
      { m with pendingJoins := s.pendingJoins.filter fun pj => !s.ready pj } }

theorem servicePendingJoins_eq :
    s.servicePendingJoins = ((s.pendingJoins.filter s.ready).reverse).foldl complete s.unparked := rfl

theorem parked_unparked :
    s.unparked.parked = (s.pendingJoins.filter fun pj => !s.ready pj).map PendingJoin.lobby := by
  unfold unparked parked pendingJoins
  cases s.mp <;> rfl

theorem ready_not_parked (hs : s.Sound) {pj : PendingJoin} (hpj : pj ∈ s.pendingJoins)
    (hready : s.ready pj = true) : pj.lobby ∉ s.unparked.parked := by
  rw [parked_unparked, List.mem_map]
  rintro ⟨pj', hpj', heq⟩
  rw [List.mem_filter] at hpj'
  have hsame : pj' = pj := List.inj_on_of_nodup_map hs.parkedOnce hpj'.1 hpj heq
  rw [hsame, hready] at hpj'
  simp at hpj'

end Shim

/-! ### The order of a completion -/

/-- The owner, where one is known, and the members. -/
def View.Known (v : View) (id : String) : Prop :=
  (v.hasOwner = true ∧ id = v.owner.id) ∨ id ∈ v.roster

/-- The members, an `Updated` with the lock and the completion stand in this order, with nothing
in front of them that may not come before. -/
def JoinGroup (h : ℕ) (joiner : EntityKey) (known : String → Prop) (new : List Change) : Prop :=
  ∃ pre adds d post, new = pre ++ adds ++ [.updated h d, .joinCompleted 0 joiner h] ++ post ∧
    Quiet h pre ∧ (∀ c ∈ adds, ∃ m, c = Change.memberAdded h m) ∧ d.membershipLockUpdated = true ∧
    ∀ id, known id → ∃ m, Change.memberAdded h m ∈ adds ∧ m.id = id

def CreateGroup (h ctx : ℕ) (owner : EntityKey) (new : List Change) : Prop :=
  ∃ pre post, new = pre ++ [.memberAdded h owner, .createCompleted 0 ctx h] ++ post ∧ Quiet h pre

theorem JoinGroup.append_left {h : ℕ} {joiner : EntityKey} {known : String → Prop}
    {new old : List Change} (hg : JoinGroup h joiner known new) (hold : Quiet h old) :
    JoinGroup h joiner known (old ++ new) := by
  obtain ⟨pre, adds, d, post, rfl, hpre, hrest⟩ := hg
  exact ⟨old ++ pre, adds, d, post, by simp only [List.append_assoc], hold.append hpre, hrest⟩

theorem JoinGroup.append_right {h : ℕ} {joiner : EntityKey} {known : String → Prop}
    {new : List Change} (hg : JoinGroup h joiner known new) (more : List Change) :
    JoinGroup h joiner known (new ++ more) := by
  obtain ⟨pre, adds, d, post, rfl, hrest⟩ := hg
  exact ⟨pre, adds, d, post ++ more, by simp only [List.append_assoc], hrest⟩

namespace Shim

variable {s s' : Shim} {h : ℕ}

/-- What was queued by a step, in relation to what was queued before. -/
structure Ordered (s s' : Shim) (new : List Change) : Prop where
  log : s'.log = s.log ++ new
  joined : ∀ h joiner, .joinCompleted 0 joiner h ∈ new →
    ∃ v, s'.handles[h]? = some v ∧ Quiet h s.log ∧ JoinGroup h joiner v.Known new
  created : ∀ h ctx, .createCompleted 0 ctx h ∈ new →
    ∃ v, s'.handles[h]? = some v ∧ Quiet h s.log ∧ CreateGroup h ctx v.owner new

/-- The step completes the join of this handle, with this view. -/
def Completing (s : Shim) (e : Event) (h : ℕ) (v : View) : Prop :=
  match e, s.round, s.queue with
  | .work _ r r', none, .join job :: _ =>
      job.lobby = h ∧ ∃ v₀, s.Accepted job r r' v₀ ∧ v = joinedView v₀ job r' ∧
        lobbyReadyForGuest v.toLobby = true
  | .work .., some [], _ =>
      ∃ pj ∈ s.pendingJoins, pj.lobby = h ∧ s.ready pj = true ∧ s.handles[h]? = some v
  | _, _, _ => False

/-- The step completes a create of this owner. -/
def Creating (s : Shim) (e : Event) (owner : EntityKey) : Prop :=
  match e, s.round, s.queue with
  | .work _ r _, none, .create job :: _ =>
      owner = job.owner ∧ (answer r).1 = 200 ∧
        (Scan.jsonStr (answer r).2 "LobbyId").isSome = true ∧ s.current job.generation = true ∧
        ∃ v, s.handles[job.lobby]? = some v ∧ v.left = false
  | _, _, _ => False

/-- The step echoes a post to this handle: the service has accepted it, and it changed something. -/
def Echoes (s : Shim) (e : Event) (h : ℕ) : Prop :=
  match e, s.round, s.queue with
  | .work _ r _, none, .post job :: _ =>
      job.lobby = h ∧ s.current job.generation = true ∧ (answer r).1 = 200 ∧
        job.delta.isEmpty = false
  | _, _, _ => False

/-- No echo goes to a handle with a parked join, and whoever is known at a completion has a name
that can be announced. -/
structure InOrder (s : Shim) (e : Event) : Prop where
  echo : ∀ h, s.Echoes e h → h ∉ s.parked
  joined : ∀ h v, s.Completing e h v → ∀ id, v.Known id → Emitting.unnamed id = false
  created : ∀ owner, s.Creating e owner → Emitting.unnamed owner.id = false

theorem complete_group {pj : PendingJoin} {v : View} (hv : s.handles[pj.lobby]? = some v)
    (hnone : ∀ e, v.announced.contains e = false)
    (hnamed : ∀ id, v.Known id → Emitting.unnamed id = false) :
    ∃ v' l, (s.complete pj).handles[pj.lobby]? = some v' ∧ (s.complete pj).log = s.log ++ l ∧
      JoinGroup pj.lobby pj.joiner v'.Known l := by
  obtain ⟨adds, d, hchanges, hadds, hlock, hknown⟩ :=
    Emitting.emitJoinCompleted_changes pj.lobby ⟨v, s.log⟩ pj.joiner
  obtain ⟨announced, hview⟩ := Emitting.emitJoinCompleted_view pj.lobby ⟨v, s.log⟩ pj.joiner
  refine ⟨_, adds ++ [.updated pj.lobby d, .joinCompleted 0 pj.joiner pj.lobby], emit_handle hv, ?_, ?_⟩
  · rw [complete, emit_of_some hv, ← List.append_assoc]
    exact hchanges
  · refine ⟨[], adds, d, [], by rw [List.nil_append, List.append_nil], quiet_nil _, hadds, hlock, ?_⟩
    intro id hid
    rw [hview] at hid
    have hwho : id = v.owner.id ∨ id ∈ v.roster := hid.imp_left And.right
    rcases hknown id (hnamed id hid) hwho with hin | hadded
    · exact absurd ((hnone id).symm.trans hin) (by decide)
    · exact hadded

theorem complete_log (pj : PendingJoin) :
    ∃ l, (s.complete pj).log = s.log ++ l ∧ QuietBut pj.lobby l ∧
      ∀ c ∈ l, Completes c → c = .joinCompleted 0 pj.joiner pj.lobby := by
  cases hv : s.handles[pj.lobby]? with
  | none =>
    rw [complete, emit_of_none hv]
    exact ⟨[], (List.append_nil _).symm, fun h' _ => quiet_nil h', fun _ hc =>
      absurd hc List.not_mem_nil⟩
  | some v =>
    obtain ⟨adds, d, hchanges, hadds, -, -⟩ :=
      Emitting.emitJoinCompleted_changes pj.lobby ⟨v, s.log⟩ pj.joiner
    obtain ⟨l, hl, hquiet⟩ := @emitJoinCompleted_quietBut pj.lobby ⟨v, s.log⟩ pj.joiner
    refine ⟨l, by rw [complete, emit_of_some hv]; exact hl, hquiet, fun c hc hcompletes => ?_⟩
    rw [hl, List.append_assoc] at hchanges
    rw [List.append_cancel_left hchanges] at hc
    rcases List.mem_append.mp hc with hc | hc
    · obtain ⟨m, rfl⟩ := hadds c hc
      cases hcompletes
    · rcases List.mem_cons.mp hc with rfl | hc
      · cases hcompletes
      · exact List.mem_singleton.mp hc

/-- The completions of a round, one behind the other. -/
structure Completions (s s' : Shim) (pjs : List PendingJoin) (l : List Change) : Prop where
  log : s'.log = s.log ++ l
  others : ∀ h, h ∉ pjs.map PendingJoin.lobby → Quiet h l ∧ s'.handles[h]? = s.handles[h]?
  only : ∀ c ∈ l, Completes c → ∃ pj ∈ pjs, c = .joinCompleted 0 pj.joiner pj.lobby
  groups : ∀ pj ∈ pjs, ∀ v, s.handles[pj.lobby]? = some v →
    (∀ e, v.announced.contains e = false) → (∀ id, v.Known id → Emitting.unnamed id = false) →
    ∃ v', s'.handles[pj.lobby]? = some v' ∧ JoinGroup pj.lobby pj.joiner v'.Known l

theorem foldl_complete (pjs : List PendingJoin) (hpjs : (pjs.map PendingJoin.lobby).Nodup) :
    ∃ l, Completions s (pjs.foldl complete s) pjs l := by
  induction pjs generalizing s with
  | nil =>
    refine ⟨[], (List.append_nil _).symm, fun h _ => ⟨quiet_nil h, rfl⟩, ?_, ?_⟩
    · exact fun _ hc => absurd hc List.not_mem_nil
    · exact fun _ hpj => absurd hpj List.not_mem_nil
  | cons pj pjs ih =>
    rw [List.map_cons, List.nodup_cons] at hpjs
    obtain ⟨l₁, hlog₁, hquiet₁, honly₁⟩ := s.complete_log pj
    obtain ⟨l₂, hrest⟩ := @ih (s.complete pj) hpjs.2
    have hhandle := (complete_only (s := s) pj).handle
    refine ⟨l₁ ++ l₂, ?_, ?_, ?_, ?_⟩
    · rw [List.foldl_cons, hrest.log, hlog₁, List.append_assoc]
    · intro h hh
      rw [List.map_cons, List.mem_cons, not_or] at hh
      obtain ⟨hquiet₂, hsame⟩ := hrest.others h hh.2
      refine ⟨(hquiet₁ h hh.1).append hquiet₂, ?_⟩
      rw [List.foldl_cons, hsame, hhandle h hh.1]
    · intro c hc hcompletes
      rcases List.mem_append.mp hc with hc | hc
      · exact ⟨pj, List.mem_cons_self, honly₁ c hc hcompletes⟩
      · obtain ⟨pj', hpj', heq⟩ := hrest.only c hc hcompletes
        exact ⟨pj', List.mem_cons_of_mem _ hpj', heq⟩
    · intro pj' hpj' v hv hnone hnamed
      rw [List.foldl_cons]
      rcases List.mem_cons.mp hpj' with rfl | hpj'
      · obtain ⟨v', l, hv', hlog, hgroup⟩ := complete_group hv hnone hnamed
        rw [hlog₁] at hlog
        rw [List.append_cancel_left hlog]
        refine ⟨v', ?_, hgroup.append_right l₂⟩
        rw [(hrest.others _ hpjs.1).2, hv']
      · have hne : pj'.lobby ≠ pj.lobby := by
          intro heq
          exact hpjs.1 (heq ▸ List.mem_map_of_mem hpj')
        rw [← hhandle _ hne] at hv
        obtain ⟨v', hv', hgroup⟩ := hrest.groups pj' hpj' v hv hnone hnamed
        exact ⟨v', hv', hgroup.append_left (hquiet₁ _ hne)⟩

theorem Sound.foldl_complete {pjs : List PendingJoin} (hs : s.Sound)
    (hpjs : ∀ pj ∈ pjs, pj.lobby < s.handles.length ∧ pj.lobby ∉ s.opening ∧ pj.lobby ∉ s.parked) :
    (pjs.foldl complete s).Sound := by
  induction pjs generalizing s with
  | nil => exact hs
  | cons pj pjs ih =>
    obtain ⟨hlt, hopen, hpark⟩ := hpjs pj List.mem_cons_self
    have honly : Only s (s.complete pj) pj.lobby := complete_only pj
    have hopening : (s.complete pj).opening = s.opening := by rw [opening, opening, honly.queue]
    refine ih (hs.only_settled honly hlt hopen hpark) fun pj' hpj' => ?_
    rw [honly.length, hopening, honly.parked]
    exact hpjs pj' (List.mem_cons_of_mem _ hpj')

/-- What is known of the joins that a round completes. -/
theorem mem_ready_joins {pj : PendingJoin}
    (hpj : pj ∈ (s.pendingJoins.filter s.ready).reverse) :
    pj ∈ s.pendingJoins ∧ s.ready pj = true ∧ pj.lobby ∈ s.parked := by
  rw [List.mem_reverse, List.mem_filter] at hpj
  exact ⟨hpj.1, hpj.2, List.mem_map_of_mem hpj.1⟩

theorem Sound.servicePendingJoins (hs : s.Sound) : s.servicePendingJoins.Sound := by
  rw [servicePendingJoins_eq]
  have hsub : s.unparked.parked.Sublist s.parked := by
    rw [parked_unparked]
    exact List.filter_sublist.map _
  have hunparked : s.unparked.Sound := hs.unpark rfl rfl rfl hsub
  refine hunparked.foldl_complete fun pj hpj => ?_
  obtain ⟨hmem, hready, hpark⟩ := mem_ready_joins hpj
  exact ⟨hs.parked _ hpark, fun hopen => hs.apart _ hopen hpark, ready_not_parked hs hmem hready⟩

theorem Ordered.of_silent (hsilent : Silent s s') : Ordered s s' (s'.log.drop s.log.length) := by
  obtain ⟨l, heq, hl⟩ := hsilent
  rw [heq, List.drop_left]
  exact ⟨heq, fun h joiner hc => absurd rfl (hl _ hc), fun h ctx hc => absurd rfl (hl _ hc)⟩

theorem ordered_servicePendingJoins (hs : s.Sound)
    (hnamed : ∀ pj ∈ s.pendingJoins, s.ready pj = true → ∀ v, s.handles[pj.lobby]? = some v →
      ∀ id, v.Known id → Emitting.unnamed id = false) :
    Ordered s s.servicePendingJoins (s.servicePendingJoins.log.drop s.log.length) := by
  have hnodup : (((s.pendingJoins.filter s.ready).reverse).map PendingJoin.lobby).Nodup := by
    rw [List.map_reverse, List.nodup_reverse]
    exact hs.parkedOnce.sublist (List.filter_sublist.map _)
  obtain ⟨l, hall⟩ := @foldl_complete s.unparked _ hnodup
  rw [servicePendingJoins_eq, hall.log]
  change Ordered s _ ((s.log ++ l).drop s.log.length)
  rw [List.drop_left]
  refine ⟨hall.log, fun h joiner hc => ?_, fun h ctx hc => ?_⟩
  · obtain ⟨pj, hpj, heq⟩ := hall.only _ hc rfl
    cases heq
    obtain ⟨hmem, hready, hpark⟩ := mem_ready_joins hpj
    have hcalm := hs.calm _ (.inr hpark)
    obtain ⟨v, hv⟩ : ∃ v, s.handles[pj.lobby]? = some v :=
      ⟨_, List.getElem?_eq_getElem (hs.parked _ hpark)⟩
    obtain ⟨v', hv', hgroup⟩ := hall.groups pj hpj v hv (hcalm.unannounced v hv)
      (hnamed pj hmem hready v hv)
    exact ⟨v', hv', hcalm.quiet, hgroup⟩
  · obtain ⟨pj, -, heq⟩ := hall.only _ hc rfl
    cases heq

theorem Ordered.of_log {s₀ : Shim} {new : List Change} (ho : Ordered s₀ s' new)
    (hlog : s₀.log = s.log) : Ordered s s' new := by
  refine ⟨hlog ▸ ho.log, fun h joiner hc => ?_, fun h ctx hc => ?_⟩
  · rw [← hlog]
    exact ho.joined h joiner hc
  · rw [← hlog]
    exact ho.created h ctx hc

theorem ordered_runJoin {job : JoinJob} (hcalm : s.Calm job.lobby) {r r' : Reply}
    (hnamed : ∀ v, s.Accepted job r r' v → lobbyReadyForGuest (joinedView v job r').toLobby = true →
      ∀ id, (joinedView v job r').Known id → Emitting.unnamed id = false) :
    Ordered s (s.runJoin job r r') ((s.runJoin job r r').log.drop s.log.length) := by
  rcases s.runJoin_cases job r r' with ⟨-, hsilent⟩ | ⟨v, hacc, hcases⟩
  · exact .of_silent hsilent
  · set s₁ := s.update job.lobby fun _ => joinedView v job r' with hs₁
    have hlog : s₁.log = s.log := update_log _
    split_ifs at hcases with hready
    · have hv : s₁.handles[job.lobby]? = some (joinedView v job r') := emit_handle hacc.handle
      have hnone : ∀ e, (joinedView v job r').announced.contains e = false := by
        rw [joinedView_announced]
        exact hcalm.unannounced v hacc.handle
      obtain ⟨v', l, hv', hlog', hgroup⟩ := @complete_group s₁ ⟨job.lobby, job.joiner⟩ _ hv hnone
        (hnamed v hacc hready)
      obtain ⟨l', hlog'', -, honly⟩ := s₁.complete_log ⟨job.lobby, job.joiner⟩
      rw [hlog''] at hlog'
      obtain rfl := List.append_cancel_left hlog'
      rw [hcases]
      change Ordered s (s₁.complete ⟨job.lobby, job.joiner⟩)
        ((s₁.complete ⟨job.lobby, job.joiner⟩).log.drop s.log.length)
      rw [hlog'', hlog, List.drop_left]
      refine ⟨hlog ▸ hlog'', fun h joiner hc => ?_, fun h ctx hc => ?_⟩
      · cases honly _ hc rfl
        exact ⟨v', hv', hcalm.quiet, hgroup⟩
      · cases honly _ hc rfl
    · rw [hcases]
      exact .of_silent (silent_of_eq hlog)

theorem ordered_runCreate {job : CreateJob} (hcalm : s.Calm job.lobby) {r : Reply}
    (hnamed : (answer r).1 = 200 → (Scan.jsonStr (answer r).2 "LobbyId").isSome = true →
      s.current job.generation = true →
      (∃ v, s.handles[job.lobby]? = some v ∧ v.left = false) →
      Emitting.unnamed job.owner.id = false) :
    Ordered s (s.runCreate job r) ((s.runCreate job r).log.drop s.log.length) := by
  rcases (s.runCreate_cases job r).2 with hsilent | ⟨v, hv, hcurrent, hleft, hstatus, hid, heq⟩
  · exact .of_silent hsilent
  · have hname := hnamed hstatus hid hcurrent ⟨v, hv, hleft⟩
    have hnone : (createdView v job (answer r).2).announced.contains job.owner.id = false :=
      hcalm.unannounced v hv _
    have hnew : (s.runCreate job r).log = s.log ++
        [.memberAdded job.lobby job.owner, .createCompleted 0 job.ctx job.lobby] := by
      rw [heq, emit_of_some hv]
      unfold Emitting.emitMemberAdded
      rw [if_neg (by simp only [hname, hnone, Bool.or_self]; decide)]
      exact List.append_assoc _ _ _
    have hview : (s.runCreate job r).handles[job.lobby]? = some
        { createdView v job (answer r).2 with
          announced := (createdView v job (answer r).2).announced.insert job.owner.id () } := by
      rw [heq, emit_handle hv]
      unfold Emitting.emitMemberAdded
      rw [if_neg (by simp only [hname, hnone, Bool.or_self]; decide)]
      rfl
    rw [hnew, List.drop_left]
    refine ⟨hnew, fun h joiner hc => ?_, fun h ctx hc => ?_⟩
    · simp at hc
    · simp only [List.mem_cons, List.not_mem_nil, or_false, reduceCtorEq, false_or,
        Change.createCompleted.injEq] at hc
      obtain ⟨-, rfl, rfl⟩ := hc
      refine ⟨_, hview, hcalm.quiet, [], [], rfl, quiet_nil _⟩

theorem Ordered.of_handles {s'' : Shim} {new : List Change} (ho : Ordered s s' new)
    (hhandles : s''.handles = s'.handles) (hlog : s''.log = s'.log) : Ordered s s'' new := by
  refine ⟨hlog.trans ho.log, fun h joiner hc => ?_, fun h ctx hc => ?_⟩
  · rw [hhandles]
    exact ho.joined h joiner hc
  · rw [hhandles]
    exact ho.created h ctx hc

/-- A round has nothing to do with the invariant. -/
theorem Sound.round (hs : s.Sound) (round : Option (List ℕ)) : Sound { s with round := round } :=
  hs.unpark rfl rfl rfl (List.Sublist.refl _)

/-- The job at the head of the queue keeps the invariant, and what it queues is in order. -/
theorem runBrokerJob_sound (hs : s.Sound) {order : RefreshOrder} {r r' : Reply}
    (hin : s.InOrder (.work order r r')) (hround : s.round = none) {job : Job} {queue : List Job}
    (hqueue : s.queue = job :: queue) {s₀ : Shim} (hs₀ : s₀ = { s with queue := queue }) :
    (s₀.runBrokerJob job r r').Sound ∧
      Ordered s₀ (s₀.runBrokerJob job r r') ((s₀.runBrokerJob job r r').log.drop s₀.log.length) := by
  have hecho := hin.echo
  have hjoined := hin.joined
  have hcreated := hin.created
  unfold Echoes at hecho
  unfold Completing at hjoined
  unfold Creating at hcreated
  rw [hround, hqueue] at hecho hjoined hcreated
  have hpop : s₀.Sound := hs₀ ▸ hs.pop hqueue
  have hhandles : s₀.handles = s.handles := by rw [hs₀]
  have hcurrent : ∀ g, s₀.current g = s.current g := fun g => by rw [hs₀]; rfl
  cases job with
  | create job =>
    obtain ⟨hlt, hopen, hpark, hcalm⟩ := hs.head_opens hqueue rfl
    have hcalm₀ : s₀.Calm job.lobby := hs₀ ▸ ⟨hcalm.quiet, hcalm.unannounced⟩
    constructor
    · refine hpop.only_settled (s₀.runCreate_cases job r).1 (hhandles ▸ hlt) ?_ ?_
      · rw [hs₀]
        exact hopen
      · rw [hs₀]
        exact hpark
    · refine ordered_runCreate hcalm₀ fun hstatus hid hcur hv => ?_
      rw [hcurrent] at hcur
      rw [hhandles] at hv
      exact hcreated job.owner ⟨rfl, hstatus, hid, hcur, hv⟩
  | join job =>
    obtain ⟨hlt, hopen, hpark, hcalm⟩ := hs.head_opens hqueue rfl
    have hcalm₀ : s₀.Calm job.lobby := hs₀ ▸ ⟨hcalm.quiet, hcalm.unannounced⟩
    constructor
    · refine hpop.runJoin (hhandles ▸ hlt) ?_ ?_ hcalm₀ r r'
      · rw [hs₀]
        exact hopen
      · rw [hs₀]
        exact hpark
    · refine ordered_runJoin hcalm₀ fun v hacc hready => ?_
      have hacc' : s.Accepted job r r' v :=
        ⟨hhandles ▸ hacc.handle, (hcurrent _).symm.trans hacc.current, hacc.wanted, hacc.joined,
          hacc.named, hacc.got⟩
      exact hjoined job.lobby _ ⟨rfl, v, hacc', rfl, hready⟩
  | find job =>
    have hrun : (s₀.runFind job r).Sound ∧ Silent s₀ (s₀.runFind job r) := by
      unfold runFind
      simp only
      split_ifs
      · exact ⟨hpop.queueChange fun _ => id, silent_queueChange rfl id⟩
      · exact ⟨hpop, silent_of_eq rfl⟩
    exact ⟨hrun.1, .of_silent hrun.2⟩
  | leave job =>
    have hrun : (s₀.runLeave job r).Sound ∧ Silent s₀ (s₀.runLeave job r) := by
      unfold runLeave
      simp only
      split_ifs
      · exact ⟨hpop.queueChange fun _ => id, silent_queueChange rfl id⟩
      · exact ⟨hpop, silent_of_eq rfl⟩
    exact ⟨hrun.1, .of_silent hrun.2⟩
  | post job =>
    obtain ⟨hlt, hopen⟩ := hs.head_posts hqueue rfl
    constructor
    · refine hpop.runPost (hhandles ▸ hlt) ?_ fun hcur hstatus hdelta => ?_
      · rw [hs₀]
        exact hopen
      · rw [hcurrent] at hcur
        rw [hs₀]
        exact hecho job.lobby ⟨rfl, hcur, hstatus, hdelta⟩
    · exact .of_silent (s₀.runPost_cases job r).2.1

/-- A step of the worker keeps the invariant, and what it queues is in order. -/
theorem work_sound (hs : s.Sound) {order : RefreshOrder} {r r' : Reply}
    (hin : s.InOrder (.work order r r')) :
    (s.work order r r').Sound ∧
      Ordered s (s.work order r r') ((s.work order r r').log.drop s.log.length) := by
  unfold work
  cases hround : s.round with
  | some targets =>
    cases targets with
    | nil =>
      have hjoined := hin.joined
      unfold Completing at hjoined
      rw [hround] at hjoined
      have hordered := ordered_servicePendingJoins hs fun pj hpj hready v hv =>
        hjoined pj.lobby v ⟨pj, hpj, rfl, hready, hv⟩
      exact ⟨hs.servicePendingJoins.round none, hordered.of_handles rfl rfl⟩
    | cons t rest =>
      have hsilent : Silent s { s.pollLobby t order r with round := some rest } :=
        (pollLobby_silent t order r).trans (silent_of_eq rfl)
      exact ⟨(hs.pollLobby t order r).round (some rest), .of_silent hsilent⟩
  | none =>
    cases hqueue : s.queue with
    | nil =>
      simp only
      have hsound := hs.round (some (s.tracked.filter s.pollable))
      rw [hqueue] at hsound
      exact ⟨hsound, .of_silent (silent_of_eq rfl)⟩
    | cons job queue =>
      obtain ⟨hsound, hordered⟩ := runBrokerJob_sound hs hin hround hqueue rfl
      rw [hround] at hsound hordered
      exact ⟨hsound, hordered.of_log rfl⟩

theorem call_log (c : Call) : (s.call c).log = s.log := by
  cases c <;> unfold Shim.call
  case initializeMp =>
    unfold initializeMp
    simp only
    split_ifs <;> rfl
  case uninitializeMp => rfl
  case setEntityToken entity token =>
    unfold setEntityToken
    simp only
    split_ifs <;> rfl
  case createAndJoinLobby creator cfg joinKv ctx =>
    unfold createAndJoinLobby
    simp only
    split_ifs <;> rfl
  case joinLobby joiner joinKv =>
    unfold joinLobby
    simp only
    split_ifs <;> rfl
  case findLobbies entity ctx =>
    unfold findLobbies
    simp only
    split_ifs <;> rfl
  case postUpdate t member update memberUpdate ctx order =>
    unfold Shim.postUpdate
    simp only
    split
    · rfl
    · split
      · rfl
      · exact update_log _
  case leave t =>
    unfold leave
    simp only
    split_ifs
    · exact update_log _
    · rfl

theorem step_sound (hs : s.Sound) {e : Event} (hin : s.InOrder e) :
    (s.step e).Sound ∧ Ordered s (s.step e) ((s.step e).log.drop s.log.length) := by
  cases e with
  | call c => exact ⟨hs.call c, .of_silent (silent_of_eq (call_log c))⟩
  | work order r r' => exact work_sound hs hin

theorem sound_new : Shim.new.Sound where
  fresh h _ := quiet_nil h
  opens _ hh := absurd hh List.not_mem_nil
  posts _ hj := absurd hj List.not_mem_nil
  once := List.nodup_nil
  apart _ hh := absurd hh List.not_mem_nil
  parkedOnce := List.nodup_nil
  parked _ hp := absurd hp List.not_mem_nil
  behind := List.Pairwise.nil
  calm _ hwait := hwait.elim (fun hh => absurd hh List.not_mem_nil) fun hp =>
    absurd hp List.not_mem_nil
  unanswered _ hh := absurd hh List.not_mem_nil

/-- In a run without an echo to a parked join, and with names that can be announced, whatever
completes a create or join comes in the documented order. -/
theorem completions_in_order (es : List Event) (e : Event)
    (hrun : Along Shim.step InOrder Shim.new (es ++ [e])) :
    ∃ new, Ordered (run Shim.step Shim.new es) (run Shim.step Shim.new (es ++ [e])) new := by
  rw [along_append] at hrun
  have hsound : (run Shim.step Shim.new es).Sound :=
    @run_invariant _ _ Shim.step InOrder Sound (fun _ _ hs hin => (step_sound hs hin).1) _ _ sound_new
      hrun.1
  rw [run_append]
  exact ⟨_, (step_sound hsound hrun.2.1).2⟩

/-- Replies to a join: the join itself, and a lobby whose host has a network or has none yet. -/
def acceptedText : List Char := "\x7b\"LobbyId\":\"L\"\x7d".toList
def waitingText : List Char :=
  "\x7b\"LobbyId\":\"L\",\"Members\":[\x7b\"Id\":\"g\"\x7d],\"Owner\":\x7b\"Id\":\"h\"\x7d\x7d".toList
def readyText : List Char :=
  ("\x7b\"LobbyData\":\x7b\"invitation_identifier\":\"i\",\"network_descriptor\":\"LAN1.n\"\x7d," ++
    "\"LobbyId\":\"L\",\"Members\":[\x7b\"Id\":\"g\"\x7d],\"Owner\":\x7b\"Id\":\"h\"\x7d\x7d").toList

def guest : EntityKey := titlePlayer "g"

def ok (text : List Char) : Reply := some (200, text)

def joinCalls : List Event := [.call .initializeMp, .call (.joinLobby (some guest) [])]

/-- The join is accepted, and the host has its network. -/
def joinWork : Event := .work ⟨[], []⟩ (ok acceptedText) (ok readyText)

theorem inOrder_join {job : JoinJob} {queue : List Job} (hround : s.round = none)
    (hqueue : s.queue = .join job :: queue) {order : RefreshOrder} {r r' : Reply}
    (hnamed : ∀ v, s.handles[job.lobby]? = some v → ∀ id, (joinedView v job r').Known id →
      Emitting.unnamed id = false) : s.InOrder (.work order r r') := by
  refine ⟨fun h hecho => ?_, fun h v hcompleting => ?_, fun owner hcreating => ?_⟩
  · unfold Echoes at hecho
    rw [hround, hqueue] at hecho
    exact hecho.elim
  · unfold Completing at hcompleting
    rw [hround, hqueue] at hcompleting
    obtain ⟨-, v₀, hacc, rfl, -⟩ := hcompleting
    exact hnamed v₀ hacc.handle
  · unfold Creating at hcreating
    rw [hround, hqueue] at hcreating
    exact hcreating.elim

theorem inOrder_call (c : Call) : s.InOrder (.call c) :=
  ⟨fun _ hh => hh.elim, fun _ _ hh => hh.elim, fun _ hh => hh.elim⟩

theorem completions_in_order_join : Along Shim.step InOrder Shim.new (joinCalls ++ [joinWork]) ∧
    .joinCompleted 0 guest 0 ∈ (run Shim.step Shim.new (joinCalls ++ [joinWork])).log ∧
    ∃ new, Ordered (run Shim.step Shim.new joinCalls) (run Shim.step Shim.new (joinCalls ++ [joinWork]))
      new := by
  have hnamed : (joinedView (View.newPlaceholder guest 0 0) ⟨1, guest, kvList [], 0⟩
      (ok readyText)).owner.id = "h" ∧
      (joinedView (View.newPlaceholder guest 0 0) ⟨1, guest, kvList [], 0⟩
        (ok readyText)).roster = ["g"] := by
    decide +kernel
  have hguest : internEntity (some guest) = guest := by decide +kernel
  have hrun : Along Shim.step InOrder Shim.new (joinCalls ++ [joinWork]) := by
    refine ⟨inOrder_call _, inOrder_call _, ?_, trivial⟩
    refine @inOrder_join _ ⟨1, internEntity (some guest), kvList [], 0⟩ [] rfl rfl _ _ _ ?_
    intro v hv id hknown
    have hv₀ : View.newPlaceholder (internEntity (some guest)) 0 0 = v := Option.some.inj hv
    rw [← hv₀, hguest] at hknown
    rcases hknown with ⟨-, hid⟩ | hid
    · rw [hid, hnamed.1]
      rfl
    · rw [hnamed.2] at hid
      rw [List.mem_singleton.mp hid]
      rfl
  exact ⟨hrun, by decide +kernel, completions_in_order joinCalls joinWork hrun⟩

/-- The title writes a property while its join is parked, and a poll brings the network. -/
def echoCalls : List Event :=
  joinCalls ++
    [.work ⟨[], []⟩ (ok acceptedText) (ok waitingText),
      .call (.postUpdate 0 (some guest) (some ⟨none, none, none, none, [], [("k", some "v")]⟩) none 0 []),
      .work ⟨[], []⟩ (ok []) none, .work ⟨[], []⟩ none none, .work ⟨[], []⟩ (ok readyText) none]

/-- The echo of the post comes before the completion of the join. -/
theorem echo_before_completion : ¬∃ new, Ordered (run Shim.step Shim.new echoCalls)
    (run Shim.step Shim.new (echoCalls ++ [.work ⟨[], []⟩ none none])) new := by
  rintro ⟨new, hordered⟩
  have hlast : (run Shim.step Shim.new (echoCalls ++ [.work ⟨[], []⟩ none none])).log.drop
      (run Shim.step Shim.new echoCalls).log.length = new := by
    rw [hordered.log, List.drop_left]
  have hcompleted : Change.joinCompleted 0 guest 0 ∈
      (run Shim.step Shim.new (echoCalls ++ [.work ⟨[], []⟩ none none])).log.drop
        (run Shim.step Shim.new echoCalls).log.length := by
    decide +kernel
  have hecho : Change.updated 0 ⟨false, false, false, true, [], ["k"], []⟩ ∈
      (run Shim.step Shim.new echoCalls).log := by
    decide +kernel
  rw [hlast] at hcompleted
  obtain ⟨v, -, hquiet, -⟩ := hordered.joined 0 guest hcompleted
  exact hquiet _ hecho rfl

end Shim

end GbfrLan.Playfab
