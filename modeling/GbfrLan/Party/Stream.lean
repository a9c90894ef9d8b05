import GbfrLan.Party.Sending

/-!
# What a receiver has covered

A receiver acknowledges a contiguous stream of guaranteed messages and buffers
what lies ahead of it. `Covers` accounts for both against the messages that
arrived: `covered` are the acknowledged ones in sequence order, `marked` are the
nonsequential ones that were passed on ahead of the stream, and every one of
them occurs in `out`, the messages that left the receiver, once per message.
-/
namespace GbfrLan.Party
open Lib

/-- The contiguous pointer and the buffer of a receiver are the same. -/
def SameStream (r r' : Receiver) : Prop := r'.gNext = r.gNext ∧ r'.gBuf = r.gBuf

/-- A receiver that has covered and buffered nothing. -/
def Unstarted (r : Receiver) : Prop := r.gNext = 1 ∧ r.gBuf = OrdMap.empty

/-- A buffered entry: a sequential payload, or an empty marker of a message that
was already passed on. -/
def Buffered (A : Arrivals) (marked : OrdMap UInt32 RecvMsg) (k options : UInt32)
    (payload : Bytes) : Prop :=
  if sequential options then A.arrived k ⟨payload, options⟩
  else payload = [] ∧ ∃ m, marked.get? k = some m

structure Covers (A : Arrivals) (next : UInt32) (buf : OrdMap UInt32 (UInt32 × Bytes))
    (marked : OrdMap UInt32 RecvMsg) (covered out : List RecvMsg) : Prop where
  next_eq : next = UInt32.ofNat (covered.length + 1)
  arrived : ∀ i m, covered[i]? = some m → A.arrived (UInt32.ofNat (i + 1)) m
  buffered : ∀ k options payload, buf.get? k = some (options, payload) →
    Buffered A marked k options payload
  passed : ∀ k m, marked.get? k = some m → A.arrived k m ∧ sequential m.options = false
  accounted : (covered ++ marked.values).Subperm out

/-- The messages of the guaranteed and sequential mode. -/
def guarSeq (m : RecvMsg) : Bool := guaranteed m.options && sequential m.options

namespace Covers

variable {A : Arrivals} {next : UInt32} {buf : OrdMap UInt32 (UInt32 × Bytes)}
  {marked : OrdMap UInt32 RecvMsg} {covered out : List RecvMsg}

theorem initial (A : Arrivals) : Covers A 1 OrdMap.empty OrdMap.empty [] [] where
  next_eq := rfl
  arrived := by simp
  buffered := by simp
  passed := by simp
  accounted := by simp [OrdMap.values]

theorem mono_out (h : Covers A next buf marked covered out) {out' : List RecvMsg}
    (hout : out.Subperm out') : Covers A next buf marked covered out' :=
  { h with accounted := h.accounted.trans hout }

theorem mono_arrivals (h : Covers A next buf marked covered out) {A' : Arrivals}
    (hA : ∀ k m, A.arrived k m → A'.arrived k m) : Covers A' next buf marked covered out where
  next_eq := h.next_eq
  arrived i m hm := hA _ _ (h.arrived i m hm)
  buffered k options payload hk := by
    have hb := h.buffered k options payload hk
    unfold Buffered at hb ⊢
    split_ifs at hb ⊢ with hs
    · exact hA _ _ hb
    · exact hb
  passed k m hk := ⟨hA _ _ (h.passed k m hk).1, (h.passed k m hk).2⟩
  accounted := h.accounted

/-- The pointer moves over one message that is not (or no longer) marked. -/
theorem cover (h : Covers A next buf marked covered out) (m : RecvMsg)
    (hm : A.arrived next m) (buf' : OrdMap UInt32 (UInt32 × Bytes))
    (hbuf : ∀ k e, buf'.get? k = some e → buf.get? k = some e)
    (marked' : OrdMap UInt32 RecvMsg) (out' : List RecvMsg)
    (hmarked : ∀ k x, marked'.get? k = some x → marked.get? k = some x)
    (hkeep : ∀ k x, marked.get? k = some x → (∃ e, buf'.get? k = some e) →
      marked'.get? k = some x)
    (hacc : (covered ++ m :: marked'.values).Subperm out') :
    Covers A (next + 1) buf' marked' (covered ++ [m]) out' where
  next_eq := by
    rw [h.next_eq, List.length_append, List.length_singleton, UInt32.ofNat_add (covered.length + 1)]
    rfl
  arrived i x hx := by
    by_cases hi : i < covered.length
    · rw [List.getElem?_append_left hi] at hx
      exact h.arrived i x hx
    · rw [List.getElem?_append_right (by omega)] at hx
      have hi' : i - covered.length = 0 := by
        by_contra hne
        rw [List.getElem?_eq_none (by simp; omega)] at hx
        simp at hx
      rw [hi'] at hx
      simp only [List.getElem?_cons_zero, Option.some.injEq] at hx
      subst hx
      have hlen : i = covered.length := by omega
      rw [hlen, ← h.next_eq]
      exact hm
  buffered k options payload hk := by
    have hb := h.buffered k options payload (hbuf k _ hk)
    unfold Buffered at hb ⊢
    split_ifs at hb ⊢ with hs
    · exact hb
    · obtain ⟨hp, x, hx⟩ := hb
      exact ⟨hp, x, hkeep k x hx ⟨_, hk⟩⟩
  passed k x hx := h.passed k x (hmarked k x hx)
  accounted := by simpa using hacc

theorem values_insert_subperm (marked : OrdMap UInt32 RecvMsg) (k : UInt32) (m : RecvMsg) :
    (marked.insert k m).values.Subperm (m :: marked.values) := by
  have hinsert : (marked.insert k m) = (marked.erase k).insert k m := by
    refine OrdMap.ext_get? (fun k' => ?_)
    simp only [OrdMap.get?_insert, OrdMap.get?_erase]
    split_ifs <;> rfl
  have hperm : ((marked.erase k).insert k m).values.Perm (m :: (marked.erase k).values) := by
    have h := OrdMap.insert_perm (m := marked.erase k) (k := k) m (by simp)
    simpa [OrdMap.values] using h.map Prod.snd
  have hsub : (marked.erase k).values.Sublist marked.values :=
    List.filter_sublist.map Prod.snd
  rw [hinsert]
  exact hperm.subperm.trans (hsub.cons_cons m).subperm

theorem values_erase_perm {marked : OrdMap UInt32 RecvMsg} {k : UInt32} {m : RecvMsg}
    (h : marked.get? k = some m) : marked.values.Perm (m :: (marked.erase k).values) := by
  simpa [OrdMap.values] using (OrdMap.erase_perm h).map Prod.snd

/-- One entry is added to the buffer, possibly after the newest one was evicted. -/
theorem store (h : Covers A next buf marked covered out) (seq options : UInt32)
    (payload : Bytes) (buf₀ : OrdMap UInt32 (UInt32 × Bytes)) (marked' : OrdMap UInt32 RecvMsg)
    (hbuf₀ : ∀ k e, buf₀.get? k = some e → buf.get? k = some e)
    (hold : ∀ k x, marked.get? k = some x → ∃ y, marked'.get? k = some y)
    (hnew : Buffered A marked' seq options payload)
    (hpassed : ∀ k m, marked'.get? k = some m → A.arrived k m ∧ sequential m.options = false)
    {out' : List RecvMsg} (hacc : (covered ++ marked'.values).Subperm out') :
    Covers A next (buf₀.insert seq (options, payload)) marked' covered out' where
  next_eq := h.next_eq
  arrived := h.arrived
  buffered k o p hk := by
    rw [OrdMap.get?_insert] at hk
    split_ifs at hk with heq
    · simp only [Option.some.injEq, Prod.mk.injEq] at hk
      obtain ⟨rfl, rfl⟩ := hk
      exact heq ▸ hnew
    · have hb := h.buffered k o p (hbuf₀ k _ hk)
      unfold Buffered at hb ⊢
      split_ifs at hb ⊢ with hs
      · exact hb
      · exact ⟨hb.1, hold k _ hb.2.choose_spec⟩
  passed := hpassed
  accounted := hacc

theorem accounted_snoc (h : Covers A next buf marked covered out) (m : RecvMsg) :
    (covered ++ m :: marked.values).Subperm (out ++ [m]) := by
  have hl : (covered ++ m :: marked.values).Perm (m :: (covered ++ marked.values)) :=
    List.perm_middle
  have hr : (m :: out).Perm (out ++ [m]) := (List.perm_append_singleton m out).symm
  exact hl.subperm.trans (((List.subperm_cons m).mpr h.accounted).trans hr.subperm)

/-- The pointer moves over a sequential message that is released now. -/
theorem deliver (h : Covers A next buf marked covered out) {m : RecvMsg}
    (hm : A.arrived next m) : Covers A (next + 1) buf marked (covered ++ [m]) (out ++ [m]) :=
  h.cover m hm buf (fun _ _ hk => hk) marked _ (fun _ _ hk => hk) (fun _ _ hk _ => hk)
    (h.accounted_snoc m)

/-- The pointer moves over the buffered entry at its position. -/
theorem take (h : Covers A next buf marked covered out) {options : UInt32} {payload : Bytes}
    (hk : buf.get? next = some (options, payload)) :
    ∃ marked' m, Covers A (next + 1) (buf.erase next) marked' (covered ++ [m])
        (out ++ Receiver.release options payload) ∧
      (Receiver.release options payload).filter guarSeq = [m].filter guarSeq ∧
      ∀ x ∈ Receiver.release options payload, Party.guaranteed x.options = true := by
  have hb := h.buffered next options payload hk
  have hbuf : ∀ k e, (buf.erase next).get? k = some e → buf.get? k = some e := by
    intro k e he
    rw [OrdMap.get?_erase] at he
    split_ifs at he
    exact he
  unfold Buffered at hb
  split_ifs at hb with hs
  · have hne : payload.isEmpty = false := by
      cases hp : payload with
      | nil => exact absurd hp (A.nonempty _ _ hb)
      | cons a l => rfl
    have hrel : Receiver.release options payload = [⟨payload, options⟩] := by
      simp [Receiver.release, hne]
    refine ⟨marked, ⟨payload, options⟩, ?_, by rw [hrel], ?_⟩
    · rw [hrel]
      exact h.cover _ hb _ hbuf marked _ (fun _ _ hx => hx) (fun _ _ hx _ => hx)
        (h.accounted_snoc _)
    · intro x hx
      rw [hrel, List.mem_singleton] at hx
      exact hx ▸ A.guaranteed _ _ hb
  · obtain ⟨rfl, m, hm⟩ := hb
    obtain ⟨harr, hnon⟩ := h.passed next m hm
    have hrel : Receiver.release options [] = [] := by simp [Receiver.release]
    refine ⟨marked.erase next, m, ?_, by simp [hrel, guarSeq, hnon], by simp [hrel]⟩
    rw [hrel, List.append_nil]
    refine h.cover m harr _ hbuf (marked.erase next) out ?_ ?_ ?_
    · intro k x hx
      rw [OrdMap.get?_erase] at hx
      split_ifs at hx
      exact hx
    · rintro k x hx ⟨e, he⟩
      rw [OrdMap.get?_erase] at he ⊢
      split_ifs at he ⊢
      exact hx
    · exact ((values_erase_perm hm).append_left covered).symm.subperm.trans h.accounted

/-- The drain loop keeps the account: what it releases in the sequential mode is
what the pointer passed over in that mode. -/
theorem drain (fuel : ℕ) (h : Covers A next buf marked covered out) :
    ∃ marked' ext, Covers A (Receiver.drain fuel next buf).1 (Receiver.drain fuel next buf).2.1
        marked' (covered ++ ext) (out ++ (Receiver.drain fuel next buf).2.2) ∧
      (Receiver.drain fuel next buf).2.2.filter guarSeq = ext.filter guarSeq ∧
      ∀ x ∈ (Receiver.drain fuel next buf).2.2, Party.guaranteed x.options = true := by
  induction fuel generalizing next buf marked covered out with
  | zero => exact ⟨marked, [], by simpa [Receiver.drain] using h, by simp [Receiver.drain]⟩
  | succ fuel ih =>
    cases hk : buf.get? next with
    | none => exact ⟨marked, [], by simpa [Receiver.drain, hk] using h, by simp [Receiver.drain, hk]⟩
    | some e =>
      obtain ⟨options, payload⟩ := e
      obtain ⟨marked₁, m, h₁, hf₁, hg₁⟩ := h.take hk
      obtain ⟨marked₂, ext, h₂, hf₂, hg₂⟩ := ih h₁
      refine ⟨marked₂, m :: ext, ?_, ?_, ?_⟩
      · simpa [Receiver.drain, hk] using h₂
      · have hcons : (m :: ext).filter guarSeq = [m].filter guarSeq ++ ext.filter guarSeq := by
          rw [← List.filter_append]; rfl
        simp only [Receiver.drain, hk, List.filter_append, hf₁, hf₂, hcons]
      · intro x hx
        simp only [Receiver.drain, hk, List.mem_append] at hx
        exact hx.elim (hg₁ x) (hg₂ x)

end Covers

/-- The account of a receiver against the messages that left it. -/
abbrev Receiver.Accounts (A : Arrivals) (r : Receiver) (marked : OrdMap UInt32 RecvMsg)
    (covered out : List RecvMsg) : Prop := Covers A r.gNext r.gBuf marked covered out

namespace Receiver

variable {A : Arrivals} {r : Receiver} {marked : OrdMap UInt32 RecvMsg}
  {covered out : List RecvMsg}

/-- What one call adds: the messages the pointer passed over, with the released
messages of the sequential mode exactly those of that mode, in order. -/
def Extends (A : Arrivals) (r : Receiver) (covered out released : List RecvMsg) : Prop :=
  ∃ marked' ext, r.Accounts A marked' (covered ++ ext) (out ++ released) ∧
    released.filter guarSeq = ext.filter guarSeq ∧
    ∀ x ∈ released, guaranteed x.options = true

@[simp] theorem armAck_gNext (r : Receiver) (options : UInt32) (nowMs : ℕ) :
    (r.armAck options nowMs).gNext = r.gNext := by
  unfold armAck; split_ifs <;> rfl

@[simp] theorem armAck_gBuf (r : Receiver) (options : UInt32) (nowMs : ℕ) :
    (r.armAck options nowMs).gBuf = r.gBuf := by
  unfold armAck; split_ifs <;> rfl

theorem store_gBuf (r : Receiver) (seq options : UInt32) (payload : Bytes) :
    ∃ buf₀ : OrdMap UInt32 (UInt32 × Bytes), (r.store seq options payload).gBuf = buf₀.insert seq (options, payload) ∧
      ∀ k e, buf₀.get? k = some e → r.gBuf.get? k = some e := by
  unfold store
  split
  · rename_i k hk
    refine ⟨r.gBuf.erase k, rfl, ?_⟩
    intro k' e he
    rw [OrdMap.get?_erase] at he
    split_ifs at he
    exact he
  · exact ⟨r.gBuf, rfl, fun _ _ he => he⟩

@[simp] theorem store_gNext (r : Receiver) (seq options : UInt32) (payload : Bytes) :
    (r.store seq options payload).gNext = r.gNext := by
  unfold store; split <;> rfl

theorem advance_extends (h : r.Accounts A marked covered out) :
    Extends A r.advance.1 covered out r.advance.2 :=
  Covers.drain r.gBuf.size h

theorem Extends.prepend {m : RecvMsg} {released : List RecvMsg}
    (h : Extends A r (covered ++ [m]) (out ++ [m]) released)
    (hm : guaranteed m.options = true) : Extends A r covered out (m :: released) := by
  obtain ⟨marked', ext, hacc, hf, hg⟩ := h
  refine ⟨marked', m :: ext, by simpa using hacc, by simp [List.filter_cons, hf], ?_⟩
  intro x hx
  rcases List.mem_cons.mp hx with rfl | hx
  · exact hm
  · exact hg x hx

/-- The guaranteed branch of `onMessage` keeps the account. -/
theorem onGuaranteed_extends (h : r.Accounts A marked covered out) {seq options : UInt32}
    {payload : Bytes} (hm : A.arrived seq ⟨payload, options⟩) :
    Extends A (r.onGuaranteed seq options payload).1 covered out
      (r.onGuaranteed seq options payload).2.released := by
  have hg := A.guaranteed _ _ hm
  have hne : payload.isEmpty = false := by
    cases hp : payload with
    | nil => exact absurd hp (A.nonempty _ _ hm)
    | cons a l => rfl
  unfold onGuaranteed
  split_ifs with hdup hseq hnext
  · exact ⟨marked, [], by simpa [RecvOutcome.released] using h, by simp [RecvOutcome.released]⟩
  · have heq : seq = r.gNext := by simpa using hnext
    have hrel : release options payload = [⟨payload, options⟩] := by simp [release, hne]
    have h' : Accounts A { r with gNext := r.gNext + 1 } marked
        (covered ++ [⟨payload, options⟩]) (out ++ [⟨payload, options⟩]) := h.deliver (heq ▸ hm)
    simpa [RecvOutcome.released, hrel] using (advance_extends h').prepend hg
  · obtain ⟨buf₀, hbuf, hsub⟩ := store_gBuf r seq options payload
    refine ⟨marked, [], ?_, by simp [RecvOutcome.released]⟩
    simp only [Accounts, RecvOutcome.released, List.append_nil, store_gNext, hbuf]
    refine h.store seq options payload buf₀ marked hsub (fun _ x hx => ⟨x, hx⟩) ?_ h.passed
      h.accounted
    simpa [Buffered, hseq] using hm
  · obtain ⟨buf₀, hbuf, hsub⟩ := store_gBuf r seq options []
    have hnon : sequential options = false := by simpa using hseq
    have hmarked : ((covered ++ (marked.insert seq ⟨payload, options⟩).values)).Subperm
        (out ++ [⟨payload, options⟩]) :=
      ((List.subperm_append_left covered).mpr (Covers.values_insert_subperm _ _ _)).trans
        (h.accounted_snoc _)
    have h' : (r.store seq options []).Accounts A (marked.insert seq ⟨payload, options⟩)
        covered (out ++ [⟨payload, options⟩]) := by
      simp only [Accounts, store_gNext, hbuf]
      refine h.store seq options [] buf₀ _ hsub ?_ ?_ ?_ hmarked
      · intro k x hx
        rw [OrdMap.get?_insert]
        split_ifs
        · exact ⟨_, rfl⟩
        · exact ⟨x, hx⟩
      · simp [Buffered, hnon]
      · intro k x hx
        rw [OrdMap.get?_insert] at hx
        split_ifs at hx with heq
        · simp only [Option.some.injEq] at hx
          exact ⟨by rw [heq, ← hx]; exact hm, by rw [← hx]; exact hnon⟩
        · exact h.passed k x hx
    obtain ⟨marked', ext, hacc, hf, hgu⟩ := advance_extends h'
    refine ⟨marked', ext, by simpa [RecvOutcome.released] using hacc, ?_, ?_⟩
    · simp [RecvOutcome.released, guarSeq, hnon, hf]
    · intro x hx
      simp only [RecvOutcome.released, List.mem_cons] at hx
      rcases hx with rfl | hx
      · exact hg
      · exact hgu x hx

/-- A guaranteed message with a nonzero sequence number, through `onMessage`. -/
theorem onMessage_extends (h : r.Accounts A marked covered out) {seq options : UInt32}
    {payload : Bytes} (nowMs : ℕ) (h0 : seq ≠ 0) (hm : A.arrived seq ⟨payload, options⟩) :
    Extends A (r.onMessage seq options payload nowMs).1 covered out
      (r.onMessage seq options payload nowMs).2.released := by
  have hg : guaranteed options = true := A.guaranteed _ _ hm
  have h' : (({ r with lastEvicted := none } : Receiver).armAck options nowMs).Accounts A marked
      covered out := by
    simpa [Accounts] using h
  have heq : r.onMessage seq options payload nowMs =
      (({ r with lastEvicted := none } : Receiver).armAck options nowMs).onGuaranteed
        seq options payload := by
    simp [onMessage, partyReliable, h0, hg]
  rw [heq]
  exact onGuaranteed_extends h' hm

/-- A message outside the guaranteed space moves neither pointer nor buffer and
is released alone or not at all. -/
theorem onMessage_other (r : Receiver) {seq options : UInt32} (payload : Bytes) (nowMs : ℕ)
    (hm : seq = 0 ∨ guaranteed options = false) :
    (r.onMessage seq options payload nowMs).1.gNext = r.gNext ∧
      (r.onMessage seq options payload nowMs).1.gBuf = r.gBuf ∧
      ((r.onMessage seq options payload nowMs).2.released = [] ∨
        (r.onMessage seq options payload nowMs).2.released = [⟨payload, options⟩]) := by
  unfold onMessage
  by_cases h0 : seq = 0
  · simp [h0, RecvOutcome.released]
  · have hg := hm.resolve_left h0
    simp only [partyReliable, h0, hg, beq_iff_eq, Bool.not_true, Bool.false_or, Bool.false_eq_true,
      if_false]
    split_ifs <;> simp [RecvOutcome.released]

end Receiver

end GbfrLan.Party
