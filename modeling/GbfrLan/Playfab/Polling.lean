import GbfrLan.Lib.Run
import GbfrLan.Playfab.Diff
import GbfrLan.Playfab.Refresh

/-!
# Rounds of polls

The worker polls a lobby again and again, here one without a parked join. An id is announced when
it is found as the owner or on the roster, and removed when it is announced and not on the roster.
So the two changes alternate for every id. An owner that is not on the roster is announced by each
reply and removed by the next: only with the owner on the roster does a second poll with the same
reply find nothing to do.
-/
namespace GbfrLan.Playfab
open Lib Json

/-- A lobby in the rounds of the worker, with all that was queued for the title. -/
structure Polling extends Emitting where
  tracked : Bool

namespace Polling

/-- What `poll_all_lobbies` does with the reply for a lobby that has no parked join. A lobby that
is gone is not tracked any more. -/
def poll (h : ℕ) (s : Polling) (e : RefreshOrder × Reply) : Polling :=
  if s.tracked && s.view.pollable then
    let (s', gone) := Emitting.pollLobby h e.1 false s.toEmitting e.2
    { s' with tracked := !gone }
  else s

end Polling

/-! ### What the emitters do -/

namespace Emitting

variable (h : ℕ)

/-- Nothing but the announced ids differs. -/
def OnlyAnnounced (v v' : View) : Prop := v' = { v with announced := v'.announced }

theorem OnlyAnnounced.trans {v v' v'' : View} (h₁ : OnlyAnnounced v v') (h₂ : OnlyAnnounced v' v'') :
    OnlyAnnounced v v'' := by
  unfold OnlyAnnounced at *
  rw [h₁] at h₂
  exact h₂

theorem emitMemberAdded_only (s : Emitting) (m : EntityKey) :
    OnlyAnnounced s.view (emitMemberAdded h s m).view := by
  unfold emitMemberAdded
  split_ifs <;> rfl

theorem foldl_emitMemberAdded_only (s : Emitting) (ms : List EntityKey) :
    OnlyAnnounced s.view (ms.foldl (emitMemberAdded h) s).view := by
  induction ms generalizing s with
  | nil => rfl
  | cons m ms ih => exact (emitMemberAdded_only h s m).trans (ih _)

theorem announceLobbyMembers_only (s : Emitting) :
    OnlyAnnounced s.view (announceLobbyMembers h s).view :=
  (emitMemberAdded_only h s s.view.owner).trans (foldl_emitMemberAdded_only h _ s.view.members)

theorem contains_emitMemberAdded (s : Emitting) (m : EntityKey) (e : String) :
    (emitMemberAdded h s m).view.announced.contains e = true ↔
      s.view.announced.contains e = true ∨ unnamed e = false ∧ e = m.id := by
  unfold emitMemberAdded
  split_ifs with hc
  · refine ⟨.inl, ?_⟩
    rintro (hin | ⟨hnamed, rfl⟩)
    · exact hin
    · simpa [hnamed] using hc
  · simp only [Bool.or_eq_true, not_or, Bool.not_eq_true] at hc
    simp only [queue, OrdMap.contains_insert_iff]
    constructor
    · rintro (rfl | hin)
      · exact .inr ⟨hc.1, rfl⟩
      · exact .inl hin
    · rintro (hin | ⟨-, rfl⟩)
      · exact .inr hin
      · exact .inl rfl

theorem contains_foldl_emitMemberAdded (s : Emitting) (ms : List EntityKey) (e : String) :
    (ms.foldl (emitMemberAdded h) s).view.announced.contains e = true ↔
      s.view.announced.contains e = true ∨ unnamed e = false ∧ e ∈ ms.map EntityKey.id := by
  induction ms generalizing s with
  | nil => simp
  | cons m ms ih =>
    rw [List.foldl_cons, ih, contains_emitMemberAdded, List.map_cons, List.mem_cons]
    tauto

/-- Who is announced after the announcement. -/
theorem contains_announceLobbyMembers (s : Emitting) (e : String) :
    (announceLobbyMembers h s).view.announced.contains e = true ↔
      s.view.announced.contains e = true ∨
        unnamed e = false ∧ (e = s.view.owner.id ∨ e ∈ s.view.roster) := by
  unfold announceLobbyMembers
  rw [contains_foldl_emitMemberAdded, contains_emitMemberAdded, View.roster]
  tauto

/-- After an `Updated`, or the lack of one, the lock is known. -/
theorem emitUpdated_view (s : Emitting) (d : LobbyDelta) (force : Bool) :
    (emitUpdated h s d force).view = { s.view with lockKnown := true } := by
  unfold emitUpdated
  extract_lets d'
  split_ifs with hempty
  · have hknown : s.view.lockKnown = true := by
      by_contra hk
      have hd : d' = { d with membershipLockUpdated := true } := by
        unfold d'
        rw [if_pos (by simp [hk])]
      rw [hd] at hempty
      simp [LobbyDelta.isEmpty] at hempty
    rw [← hknown]
  · rfl

theorem contains_foldl_emitMemberRemoved (s : Emitting) (es : List String) (e : String) :
    (es.foldl (emitMemberRemoved h) s).view.announced.contains e = true ↔
      s.view.announced.contains e = true ∧ e ∉ es := by
  induction es generalizing s with
  | nil => simp
  | cons e' es ih =>
    rw [List.foldl_cons, ih, List.mem_cons, not_or]
    simp only [emitMemberRemoved, queue, OrdMap.contains_erase_iff]
    rw [and_comm (a := e ≠ e'), and_assoc]

end Emitting

/-! ### The same reply again -/

/-- The roster of the view after a reply with this content. -/
def View.liveRoster (v fresh : View) : List String :=
  if fresh.members.isEmpty && !v.members.isEmpty then v.roster else fresh.roster

theorem mem_departed {order : List String} {v : View} {e : String} :
    e ∈ v.departed order ↔ v.announced.contains e = true ∧ e ∉ v.roster := by
  unfold View.departed
  rw [List.mem_filter, List.mem_map, decide_eq_true_eq]
  refine and_congr_left fun _ => ⟨?_, ?_⟩
  · rintro ⟨⟨e, u⟩, he, rfl⟩
    simp [OrdMap.contains, OrdMap.mem_iterEntries.mp he]
  · intro hc
    obtain ⟨u, hu⟩ := Option.isSome_iff_exists.mp hc
    exact ⟨(e, u), OrdMap.mem_iterEntries.mpr hu, rfl⟩

namespace Emitting

variable (h : ℕ) (order : RefreshOrder)

/-- Changes were queued behind the old ones, and none of them removes a member. -/
def Adds (s s' : Emitting) : Prop :=
  ∃ l, s'.changes = s.changes ++ l ∧ ∀ h' m, Change.memberRemoved h' m ∉ l

theorem Adds.of_eq {s s' : Emitting} (hs : s'.changes = s.changes) : Adds s s' :=
  ⟨[], by rw [hs, List.append_nil], fun _ _ => List.not_mem_nil⟩

theorem Adds.trans {s s' s'' : Emitting} (h₁ : Adds s s') (h₂ : Adds s' s'') : Adds s s'' := by
  obtain ⟨l₁, heq₁, hl₁⟩ := h₁
  obtain ⟨l₂, heq₂, hl₂⟩ := h₂
  refine ⟨l₁ ++ l₂, by rw [heq₂, heq₁, List.append_assoc], fun h' m hm => ?_⟩
  rcases List.mem_append.mp hm with hm | hm
  · exact hl₁ h' m hm
  · exact hl₂ h' m hm

theorem Adds.queue {s s' : Emitting} (hs : s'.changes = s.changes) {c : Change}
    (hc : ∀ h' m, c ≠ .memberRemoved h' m) : Adds s (s'.queue c) := by
  refine ⟨[c], by rw [Emitting.queue, hs], fun h' m hm => ?_⟩
  exact hc h' m (List.mem_singleton.mp hm).symm

theorem foldl_emitMemberRemoved_changes (s : Emitting) (es : List String) :
    (es.foldl (emitMemberRemoved h) s).changes =
      s.changes ++ es.map fun e => Change.memberRemoved h (titlePlayer e) := by
  induction es generalizing s with
  | nil => exact (List.append_nil _).symm
  | cons e es ih =>
    rw [List.foldl_cons, ih, List.map_cons]
    exact List.append_assoc _ _ _

end Emitting

namespace Polling

variable (h : ℕ)

end Polling

/-- A reply is of no use, says that the lobby is gone, or can be read. -/
theorem reply_cases (r : Reply) :
    ((∀ order (v : View), v.applyRefresh order r = (v, ⟨[], false, .none⟩)) ∧
        ∀ text, r = some (200, text) → View.lobbyFromJson text = none) ∨
      (∃ status text, r = some (status, text) ∧ status ≠ 200) ∨
      ∃ text fresh, r = some (200, text) ∧ View.lobbyFromJson text = some fresh := by
  rcases r with _ | ⟨status, text⟩
  · refine .inl ⟨fun _ _ => rfl, fun text htext => ?_⟩
    cases htext
  · by_cases hstatus : status = 200
    · subst hstatus
      cases hparse : View.lobbyFromJson text with
      | none =>
        refine .inl ⟨fun order v => ?_, fun text' htext => ?_⟩
        · unfold View.applyRefresh
          simp only [ne_eq, not_true, if_false, hparse]
        · cases htext
          exact hparse
      | some fresh => exact .inr (.inr ⟨text, fresh, rfl, hparse⟩)
    · exact .inr (.inl ⟨status, text, rfl, hstatus⟩)

/-- The owner that a reply names is on the roster, or is nobody that would be announced. -/
def OwnerListed (v : View) (r : Reply) : Prop :=
  ∀ text fresh, r = some (200, text) → View.lobbyFromJson text = some fresh →
    Emitting.unnamed fresh.owner.id = true ∨ fresh.owner.id ∈ v.liveRoster fresh

namespace Polling

variable (h : ℕ)

/-- A step of a round that is not skipped meets the condition. -/
def Listed (s : Polling) (e : RefreshOrder × Reply) : Prop :=
  (s.tracked && s.view.pollable) = true → OwnerListed s.view e.2

end Polling

/-! ### Added and removed in turn -/

/-- Whether a change adds (`true`) or removes this id. -/
def memberEvent (h : ℕ) (e : String) : Change → Option Bool
  | .memberAdded h' m => if h' = h ∧ m.id = e then some true else none
  | .memberRemoved h' m => if h' = h ∧ m.id = e then some false else none
  | _ => none

def memberEvents (h : ℕ) (e : String) (cs : List Change) : List Bool :=
  cs.filterMap (memberEvent h e)

/-- The two values in turn, this one first. -/
def Alternates : Bool → List Bool → Prop
  | _, [] => True
  | b, x :: xs => x = b ∧ Alternates (!b) xs

theorem Alternates.append {b x : Bool} {xs : List Bool} (hxs : Alternates b xs)
    (hx : x = (b ^^ decide (xs.length % 2 = 1))) : Alternates b (xs ++ [x]) := by
  induction xs generalizing b with
  | nil => exact ⟨by simpa using hx, trivial⟩
  | cons y ys ih =>
    refine ⟨hxs.1, ih hxs.2 ?_⟩
    rw [List.length_cons] at hx
    rcases Nat.mod_two_eq_zero_or_one ys.length with hmod | hmod
    · rw [hx, hmod, show (ys.length + 1) % 2 = 1 by omega]
      cases b <;> rfl
    · rw [hx, hmod, show (ys.length + 1) % 2 = 0 by omega]
      cases b <;> rfl

namespace Emitting

/-- The changes of each id alternate, and it is announced when it was added last. -/
def Balanced (h : ℕ) (s : Emitting) : Prop :=
  ∀ e, Alternates true (memberEvents h e s.changes) ∧
    (s.view.announced.contains e = true ↔ (memberEvents h e s.changes).length % 2 = 1)

variable {h : ℕ} {s : Emitting}

theorem memberEvents_queue (h : ℕ) (s : Emitting) (c : Change) (e : String) :
    memberEvents h e (s.queue c).changes = memberEvents h e s.changes ++ (memberEvent h e c).toList := by
  unfold memberEvents queue
  rw [List.filterMap_append, List.filterMap_cons, List.filterMap_nil]
  cases memberEvent h e c <;> rfl

/-- A change about no member. -/
theorem Balanced.queue (hs : Balanced h s) {c : Change} (hc : ∀ e, memberEvent h e c = none) :
    Balanced h (s.queue c) := by
  intro e
  rw [memberEvents_queue, hc e, Option.toList_none, List.append_nil]
  exact hs e

theorem Balanced.view (hs : Balanced h s) {v : View} (hv : v.announced = s.view.announced) :
    Balanced h { s with view := v } := by
  intro e
  simp only [hv]
  exact hs e

theorem Balanced.emitMemberAdded (hs : Balanced h s) (m : EntityKey) :
    Balanced h (emitMemberAdded h s m) := by
  intro e
  obtain ⟨halt, hcount⟩ := hs e
  have hcontains := contains_emitMemberAdded h s m e
  unfold Emitting.emitMemberAdded at hcontains ⊢
  split_ifs at hcontains ⊢ with hskip
  · exact hs e
  · simp only [Bool.or_eq_true, not_or, Bool.not_eq_true] at hskip
    rw [memberEvents_queue, memberEvent]
    dsimp only at hcontains ⊢
    by_cases he : m.id = e
    · subst he
      have heven : (memberEvents h m.id s.changes).length % 2 = 0 := by
        rw [hskip.2] at hcount
        simpa using hcount
      rw [if_pos ⟨rfl, rfl⟩]
      refine ⟨halt.append (by rw [heven]; rfl), ?_⟩
      rw [hcontains, List.length_append]
      refine ⟨fun _ => ?_, fun _ => .inr ⟨hskip.1, rfl⟩⟩
      change (_ + 1) % 2 = 1
      omega
    · rw [if_neg (fun hc => he hc.2), Option.toList_none, List.append_nil]
      refine ⟨halt, ?_⟩
      rw [hcontains, ← hcount]
      refine ⟨?_, .inl⟩
      rintro (hin | ⟨-, rfl⟩)
      · exact hin
      · exact absurd rfl he

theorem Balanced.emitMemberRemoved (hs : Balanced h s) {e' : String}
    (hin : s.view.announced.contains e' = true) : Balanced h (emitMemberRemoved h s e') := by
  intro e
  obtain ⟨halt, hcount⟩ := hs e
  have hcontains := contains_foldl_emitMemberRemoved h s [e'] e
  rw [List.foldl_cons, List.foldl_nil] at hcontains
  rw [hcontains]
  unfold Emitting.emitMemberRemoved
  rw [memberEvents_queue, memberEvent]
  dsimp only
  by_cases he : e' = e
  · subst he
    have hodd := hcount.mp hin
    rw [if_pos ⟨rfl, rfl⟩]
    refine ⟨halt.append (by rw [hodd]; rfl), ?_⟩
    rw [List.length_append]
    refine ⟨fun hout => absurd List.mem_cons_self hout.2, fun hmod => ?_⟩
    change (_ + 1) % 2 = 1 at hmod
    omega
  · rw [if_neg (fun hc => he hc.2), Option.toList_none, List.append_nil]
    refine ⟨halt, ?_⟩
    rw [← hcount, List.mem_singleton]
    exact and_iff_left (Ne.symm he)

theorem Balanced.foldl_emitMemberRemoved (hs : Balanced h s) {es : List String} (hes : es.Nodup)
    (hin : ∀ e ∈ es, s.view.announced.contains e = true) :
    Balanced h (es.foldl (Emitting.emitMemberRemoved h) s) := by
  induction es generalizing s with
  | nil => exact hs
  | cons e es ih =>
    rw [List.nodup_cons] at hes
    refine ih (hs.emitMemberRemoved (hin e List.mem_cons_self)) hes.2 ?_
    intro e' he'
    have hcontains := contains_foldl_emitMemberRemoved h s [e] e'
    rw [List.foldl_cons, List.foldl_nil] at hcontains
    rw [hcontains, List.mem_singleton]
    refine ⟨hin e' (List.mem_cons_of_mem _ he'), ?_⟩
    rintro rfl
    exact hes.1 he'

theorem Balanced.announceLobbyMembers (hs : Balanced h s) :
    Balanced h (announceLobbyMembers h s) := by
  have hfold : ∀ (ms : List EntityKey) (s : Emitting), Balanced h s →
      Balanced h (ms.foldl (Emitting.emitMemberAdded h) s) := by
    intro ms
    induction ms with
    | nil => exact fun s hs => hs
    | cons m ms ih => exact fun s hs => ih _ (hs.emitMemberAdded m)
  exact hfold _ _ (hs.emitMemberAdded s.view.owner)

theorem Balanced.emitUpdated (hs : Balanced h s) (d : LobbyDelta) (force : Bool) :
    Balanced h (emitUpdated h s d force) := by
  unfold Emitting.emitUpdated
  extract_lets d'
  split_ifs
  · exact hs
  · have hview : Balanced h { s with view := { s.view with lockKnown := true } } := hs.view rfl
    exact hview.queue fun e => rfl

theorem applyRefresh_announced (order : RefreshOrder) (v : View) (r : Reply) :
    (v.applyRefresh order r).1.announced = v.announced := by
  rcases reply_cases r with ⟨hr, -⟩ | ⟨status, text, rfl, hstatus⟩ | ⟨text, fresh, rfl, hfresh⟩
  · rw [hr]
  · unfold View.applyRefresh
    simp only [ne_eq, hstatus, not_false_eq_true, if_true]
  · rw [applyRefresh_parsed v order hfresh]
    unfold View.refreshed
    simp only
    split_ifs <;> rfl

/-- The ids that a refresh reports as departed are announced, and each is there once. -/
theorem applyRefresh_departed (order : RefreshOrder) (v : View) (r : Reply) :
    (v.applyRefresh order r).2.departed.Nodup ∧
      ∀ e ∈ (v.applyRefresh order r).2.departed, v.announced.contains e = true := by
  have hannounced := applyRefresh_announced order v r
  rcases reply_cases r with ⟨hr, -⟩ | ⟨status, text, rfl, hstatus⟩ | ⟨text, fresh, rfl, hfresh⟩
  · rw [hr]
    exact ⟨List.nodup_nil, fun e he => absurd he List.not_mem_nil⟩
  · unfold View.applyRefresh
    simp only [ne_eq, hstatus, not_false_eq_true, if_true]
    exact ⟨List.nodup_nil, fun e he => absurd he List.not_mem_nil⟩
  · rw [applyRefresh_parsed v order hfresh] at hannounced ⊢
    refine ⟨(OrdMap.keys_iterEntries_nodup _ _).filter _, fun e he => ?_⟩
    rw [← hannounced]
    exact (mem_departed.mp he).1

theorem Balanced.pollLobby (hs : Balanced h s) (order : RefreshOrder) (parked : Bool) (r : Reply) :
    Balanced h (pollLobby h order parked s r).1 := by
  obtain ⟨hnodup, hin⟩ := applyRefresh_departed order s.view r
  have hannounced := applyRefresh_announced order s.view r
  unfold Emitting.pollLobby
  generalize s.view.applyRefresh order r = res at *
  obtain ⟨v, res⟩ := res
  have hview : Balanced h { s with view := v } := hs.view hannounced
  have hin' : ∀ e ∈ res.departed, v.announced.contains e = true := by
    intro e he
    rw [show v.announced = s.view.announced from hannounced]
    exact hin e he
  have hremoved := hview.foldl_emitMemberRemoved hnodup hin'
  simp only
  split_ifs
  · refine Balanced.queue (Balanced.view hremoved ?_) fun e => rfl
    rfl
  · exact hremoved
  · exact hremoved.announceLobbyMembers.emitUpdated res.delta false

end Emitting

namespace Polling

variable {h : ℕ} {s : Polling}

/-- A view that nothing was announced for. -/
def unannounced (v : View) : Polling := ⟨⟨v, []⟩, true⟩

end Polling

end GbfrLan.Playfab
