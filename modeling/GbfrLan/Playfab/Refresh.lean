import GbfrLan.Playfab.MemberData
import GbfrLan.Playfab.View

/-!
# A refresh and the roster of the broker

`apply_refresh` fills the gaps of the member data that the broker sends with what the view had
before, also for members that are not on the roster any more. So the getters still know a member
that has left, a property that was deleted stays visible, and one who comes back is no new member.
The refresh follows the roster exactly when the old member data has nothing of this kind.
-/
namespace GbfrLan.Playfab
open Lib Json

/-! ### Member data -/

theorem get?_fillGaps (dst src : Props) (k : String) :
    (fillGaps dst src).get? k = (dst.get? k).or (src.get? k) := by
  unfold fillGaps OrdMap.get?
  generalize src.entries = es
  change OrdMap.get? _ k = (OrdMap.get? dst k).or _
  induction es generalizing dst with
  | nil => rw [List.foldl_nil, Entries.get?_nil, Option.or_none]
  | cons e es ih =>
    rw [List.foldl_cons, ih, Entries.get?_cons]
    by_cases hk : k = e.1
    · subst hk
      rw [if_pos rfl]
      split_ifs with hc
      · obtain ⟨v, hv⟩ := Option.isSome_iff_exists.mp hc
        rw [hv, Option.some_or, Option.some_or]
      · have hnone : dst.get? e.1 = none := by simpa [OrdMap.contains] using hc
        rw [OrdMap.get?_insert, if_pos rfl, hnone, Option.some_or, Option.none_or]
    · rw [if_neg hk]
      split_ifs
      · rfl
      · rw [OrdMap.get?_insert, if_neg hk]

theorem Complete.fillGaps {dst : Props} (h : Complete dst) (src : Props) :
    Complete (fillGaps dst src) := by
  obtain ⟨⟨p, hp, hp'⟩, ⟨a, ha, ha'⟩, ⟨n, hn⟩⟩ := h
  refine ⟨⟨p, ?_, hp'⟩, ⟨a, ?_, ha'⟩, ⟨n, ?_⟩⟩
  · rw [get?_fillGaps, hp, Option.some_or]
  · rw [get?_fillGaps, ha, Option.some_or]
  · rw [get?_fillGaps, hn, Option.some_or]

/-- The roster and the member data of a view come from one list of entries. -/
def Listed (v : View) (es : List (String × Props)) : Prop :=
  v.members = (es.map fun e => titlePlayer (interned e.1)) ∧
    v.memberProps = es.foldl (fun m e => m.insert e.1 e.2) OrdMap.empty

section
variable {text : List Char} {fresh : View} (h : View.lobbyFromJson text = some fresh)
include h

end

/-! ### The refreshed view -/

/-- A name that the title can give an entity: nonempty, and read as it is. -/
def Entity (id : String) : Prop := id ≠ "" ∧ interned id = id

/-- The view follows the roster of a reply, and the refresh reports who is new on it. The ids and
the completed data of the reply are the entries of `fresh.memberProps`. Before the completion of a
create or join the getters do not look at members. -/
structure Follows (v fresh : View) (r : View × View.Refresh) : Prop where
  status : v.pending = false → ∀ e, Entity e →
    ((r.1.getMemberConnectionStatus e).1 = 0 ↔ fresh.memberProps.contains e = true)
  property : v.pending = false → ∀ e, Entity e → ∀ k,
    ((r.1.getMemberProperty e k).1 = 0 ↔ fresh.memberProps.contains e = true)
  visible : v.pending = false → ∀ e mp, Entity e → fresh.memberProps.get? e = some mp →
    ∀ k, interned k = k → (r.1.getMemberProperty e k).2 = mp.get? k
  joined : ∀ e, Entity e → fresh.memberProps.contains e = true → e ∉ v.roster →
    ∃ u ∈ r.2.delta.memberUpdates, u.member.id = e ∧ u.connectionStatusUpdated = true

section
variable {text : List Char} {fresh : View} (v : View) (order : RefreshOrder)
  (h : View.lobbyFromJson text = some fresh) (hne : fresh.members ≠ [])
include h

theorem applyRefresh_parsed :
    v.applyRefresh order (some (200, text)) =
      (v.refreshed fresh, ⟨(v.refreshed fresh).departed order.announced, false,
        diffLobby order.members v (v.refreshed fresh)⟩) := by
  unfold View.applyRefresh
  simp only [ne_eq, not_true, if_false, h]

include hne

end

end GbfrLan.Playfab
