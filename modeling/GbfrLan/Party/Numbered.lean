import GbfrLan.Party.Stream

/-!
# Releases with their numbers

`numbered` lists what the guaranteed branch releases together with the sequence
number of each message. `Logs` relates a receiver to a record of such releases:
everything its pointer passed and every marker it keeps is in the record.
-/
namespace GbfrLan.Party
open Lib

namespace Receiver

/-- What the drain loop releases, with numbers. -/
def drainNumbered : ℕ → UInt32 → OrdMap UInt32 (UInt32 × Bytes) → List (UInt32 × RecvMsg)
  | 0, _, _ => []
  | fuel + 1, next, buf =>
      match buf.get? next with
      | none => []
      | some (opts, p) =>
          (release opts p).map (fun m => (next, m)) ++ drainNumbered fuel (next + 1) (buf.erase next)

/-- The receiver discards a guaranteed message with this number as a duplicate. -/
def duplicate (r : Receiver) (seq : UInt32) : Bool :=
  seqLe seq (r.gNext - 1) || r.gBuf.contains seq

/-- What the guaranteed branch releases, with numbers. -/
def numbered (r : Receiver) (seq options : UInt32) (payload : Bytes) : List (UInt32 × RecvMsg) :=
  if r.duplicate seq then []
  else if sequential options then
    if seq == r.gNext then
      (release options payload).map (fun m => (seq, m)) ++
        drainNumbered r.gBuf.size (r.gNext + 1) r.gBuf
    else []
  else
    let r := r.store seq options []
    (seq, ⟨payload, options⟩) :: drainNumbered r.gBuf.size r.gNext r.gBuf

theorem drain_released (fuel : ℕ) (next : UInt32) (buf : OrdMap UInt32 (UInt32 × Bytes)) :
    (drain fuel next buf).2.2 = (drainNumbered fuel next buf).map Prod.snd := by
  induction fuel generalizing next buf with
  | zero => rfl
  | succ fuel ih =>
    unfold drain drainNumbered
    cases hk : buf.get? next with
    | none => rfl
    | some e =>
      simp only [List.map_append, List.map_map, ih]
      congr 1
      exact (List.map_id _).symm

/-- The numbered releases are the releases. -/
theorem onGuaranteed_released (r : Receiver) (seq options : UInt32) (payload : Bytes) :
    (r.onGuaranteed seq options payload).2.released =
      (r.numbered seq options payload).map Prod.snd := by
  unfold onGuaranteed numbered duplicate
  split_ifs
  · rfl
  · simp only [RecvOutcome.released, List.map_append, List.map_map, advance, drain_released]
    congr 1
    exact (List.map_id _).symm
  · rfl
  · simp only [RecvOutcome.released, List.map_cons, advance, drain_released]

/-- The pointer and the buffer against a record of releases: what the pointer passed
is recorded, and a buffered entry is a message to release or the marker of a
recorded one. -/
structure LogsAt (next : UInt32) (buf : OrdMap UInt32 (UInt32 × Bytes)) (sent : List RecvMsg)
    (logged : UInt32 → RecvMsg → Prop) : Prop where
  pos : 0 < next.toNat
  near : next.toNat ≤ sent.length + 1
  passed : ∀ k : UInt32, 0 < k.toNat → k.toNat < next.toNat → ∃ m, logged k m
  marker : ∀ k o, buf.get? k = some (o, []) → ∃ m, logged k m
  message : ∀ k o p, buf.get? k = some (o, p) → p ≠ [] → (arrivalsOf sent).arrived k ⟨p, o⟩

abbrev Logs (r : Receiver) (sent : List RecvMsg) (logged : UInt32 → RecvMsg → Prop) : Prop :=
  LogsAt r.gNext r.gBuf sent logged

namespace LogsAt

variable {next : UInt32} {buf : OrdMap UInt32 (UInt32 × Bytes)} {sent : List RecvMsg}
  {logged logged' : UInt32 → RecvMsg → Prop}

theorem initial (sent : List RecvMsg) (logged : UInt32 → RecvMsg → Prop) :
    LogsAt 1 OrdMap.empty sent logged where
  pos := by decide
  near := by simp
  passed k hpos hlt := by
    have h1 : (1 : UInt32).toNat = 1 := rfl
    omega
  marker := by simp
  message := by simp

theorem mono (h : LogsAt next buf sent logged) (hl : ∀ k m, logged k m → logged' k m) :
    LogsAt next buf sent logged' where
  pos := h.pos
  near := h.near
  passed k hpos hlt := (h.passed k hpos hlt).imp fun m => hl k m
  marker k o hk := (h.marker k o hk).imp fun m => hl k m
  message := h.message

theorem mono_sent (h : LogsAt next buf sent logged) {sent' : List RecvMsg}
    (hs : sent <+: sent') : LogsAt next buf sent' logged where
  pos := h.pos
  near := h.near.trans (Nat.add_le_add_right hs.length_le 1)
  passed := h.passed
  marker := h.marker
  message k o p hk hne := arrivalsOf_mono hs (h.message k o p hk hne)

/-- A smaller buffer. -/
theorem shrink (h : LogsAt next buf sent logged) {buf' : OrdMap UInt32 (UInt32 × Bytes)}
    (hb : ∀ k e, buf'.get? k = some e → buf.get? k = some e) : LogsAt next buf' sent logged where
  pos := h.pos
  near := h.near
  passed := h.passed
  marker k o hk := h.marker k o (hb k _ hk)
  message k o p hk := h.message k o p (hb k _ hk)

/-- The pointer moves over a recorded message. -/
theorem advance (h : LogsAt next buf sent logged) (hlen : sent.length < 2 ^ 31) {m : RecvMsg}
    (hm : logged next m) (hsent : next.toNat ≤ sent.length) :
    LogsAt (next + 1) buf sent logged := by
  have hnum := toNat_add_one (a := next) (by omega)
  constructor
  · omega
  · omega
  · intro k hpos hlt
    by_cases heq : k.toNat = next.toNat
    · exact ⟨m, UInt32.toNat_inj.mp heq ▸ hm⟩
    · exact h.passed k hpos (by omega)
  · exact h.marker
  · exact h.message

theorem get?_erase_some {k k' : UInt32} {e : UInt32 × Bytes}
    (h : (buf.erase k).get? k' = some e) : buf.get? k' = some e := by
  rw [OrdMap.get?_erase] at h
  split_ifs at h
  exact h

/-- The drain loop: with its releases recorded, the pointer and the buffer still match
the record. -/
theorem drain (fuel : ℕ) (h : LogsAt next buf sent logged) (hlen : sent.length < 2 ^ 31)
    (hgen : ∀ k m, logged k m → (arrivalsOf sent).arrived k m)
    (hnew : ∀ x ∈ drainNumbered fuel next buf, logged x.1 x.2) :
    LogsAt (Receiver.drain fuel next buf).1 (Receiver.drain fuel next buf).2.1 sent logged ∧
      next.toNat ≤ (Receiver.drain fuel next buf).1.toNat := by
  induction fuel generalizing next buf with
  | zero => exact ⟨h, le_refl _⟩
  | succ fuel ih =>
    unfold Receiver.drain
    cases hk : buf.get? next with
    | none => exact ⟨h, le_refl _⟩
    | some e =>
      obtain ⟨o, p⟩ := e
      simp only [drainNumbered, hk, List.mem_append] at hnew
      have hm : ∃ m, logged next m := by
        by_cases hp : p = []
        · exact h.marker next o (hp ▸ hk)
        · refine ⟨⟨p, o⟩, hnew (next, ⟨p, o⟩) (.inl ?_)⟩
          cases p with
          | nil => exact absurd rfl hp
          | cons x xs => simp [release]
      obtain ⟨m, hm⟩ := hm
      have hle := (arrived_le_length (hgen next m hm)).2
      have hstep := (h.advance hlen hm hle).shrink fun k e => get?_erase_some (k := next)
      obtain ⟨hdone, hmono⟩ := ih hstep fun x hx => hnew x (.inr hx)
      have hnum := toNat_add_one (a := next) (by omega)
      exact ⟨hdone, by simp only; omega⟩

end LogsAt

theorem drainNumbered_arrived (fuel : ℕ) {next : UInt32} {buf : OrdMap UInt32 (UInt32 × Bytes)}
    {sent : List RecvMsg}
    (h : ∀ k o p, buf.get? k = some (o, p) → p ≠ [] → (arrivalsOf sent).arrived k ⟨p, o⟩) :
    ∀ x ∈ drainNumbered fuel next buf, (arrivalsOf sent).arrived x.1 x.2 := by
  induction fuel generalizing next buf with
  | zero => simp [drainNumbered]
  | succ fuel ih =>
    intro x hx
    unfold drainNumbered at hx
    cases hk : buf.get? next with
    | none => simp [hk] at hx
    | some e =>
      obtain ⟨o, p⟩ := e
      simp only [hk, List.mem_append] at hx
      cases hx with
      | inl hx =>
        unfold release at hx
        split_ifs at hx with hp
        · simp at hx
        · simp only [List.map_cons, List.map_nil, List.mem_singleton] at hx
          rw [hx]
          exact h next o p hk (by simpa using hp)
      | inr hx => exact ih (fun k o p hk => h k o p (LogsAt.get?_erase_some hk)) x hx

variable {r : Receiver} {sent : List RecvMsg} {logged logged' : UInt32 → RecvMsg → Prop}

/-- Releases are messages that were sent. -/
theorem Logs.numbered_arrived (h : r.Logs sent logged) {seq options : UInt32} {payload : Bytes}
    (hm : (arrivalsOf sent).arrived seq ⟨payload, options⟩) :
    ∀ x ∈ r.numbered seq options payload, (arrivalsOf sent).arrived x.1 x.2 := by
  intro x hx
  unfold numbered at hx
  split_ifs at hx
  · cases hx
  · cases List.mem_append.mp hx with
    | inl hx =>
      unfold release at hx
      split_ifs at hx
      · cases hx
      · simp only [List.map_cons, List.map_nil, List.mem_singleton] at hx
        rw [hx]
        exact hm
    | inr hx => exact drainNumbered_arrived _ h.message x hx
  · cases hx
  · cases List.mem_cons.mp hx with
    | inl hx =>
      rw [hx]
      exact hm
    | inr hx =>
      obtain ⟨buf₀, hbuf, hsub⟩ := store_gBuf r seq options []
      refine drainNumbered_arrived _ ?_ x hx
      intro k o p hk hne
      rw [hbuf, OrdMap.get?_insert] at hk
      split_ifs at hk
      · simp only [Option.some.injEq, Prod.mk.injEq] at hk
        exact absurd hk.2.symm hne
      · exact h.message k o p (hsub k _ hk) hne

/-- The guaranteed branch keeps the match once its releases are recorded, and its
pointer does not move back. -/
theorem Logs.onGuaranteed (h : r.Logs sent logged) (hlen : sent.length < 2 ^ 31)
    {seq options : UInt32} {payload : Bytes}
    (hm : (arrivalsOf sent).arrived seq ⟨payload, options⟩)
    (hold : ∀ k m, logged k m → logged' k m)
    (hgen : ∀ k m, logged' k m → (arrivalsOf sent).arrived k m)
    (hnew : ∀ x ∈ r.numbered seq options payload, logged' x.1 x.2) :
    (r.onGuaranteed seq options payload).1.Logs sent logged' ∧
      r.gNext.toNat ≤ (r.onGuaranteed seq options payload).1.gNext.toNat := by
  have h' := h.mono hold
  have hle := (arrived_le_length hm).2
  unfold Receiver.onGuaranteed
  unfold numbered duplicate at hnew
  split_ifs at hnew ⊢ with hdup hseq hnext
  · exact ⟨h', le_refl _⟩
  · have heq : seq = r.gNext := by simpa using hnext
    have hne : payload.isEmpty = false := by
      cases hp : payload with
      | nil => exact absurd hp hm.2.2
      | cons a l => rfl
    have hlog : logged' r.gNext ⟨payload, options⟩ := by
      have hone := hnew (seq, ⟨payload, options⟩) (List.mem_append_left _ (by simp [release, hne]))
      exact heq ▸ hone
    have hgle : r.gNext.toNat ≤ sent.length := heq ▸ hle
    have hstep := LogsAt.advance h' hlen hlog hgle
    obtain ⟨hdone, hmono⟩ := hstep.drain r.gBuf.size hlen hgen
      fun x hx => hnew x (List.mem_append_right _ hx)
    have hnum := toNat_add_one (a := r.gNext) (by omega)
    refine ⟨hdone, ?_⟩
    simp only [Receiver.advance]
    omega
  · obtain ⟨buf₀, hbuf, hsub⟩ := store_gBuf r seq options payload
    have hkeep := h'.shrink hsub
    simp only [Logs, store_gNext, hbuf, le_refl, and_true]
    refine ⟨h'.pos, h'.near, h'.passed, ?_, ?_⟩
    · intro k o hk
      rw [OrdMap.get?_insert] at hk
      split_ifs at hk
      · simp only [Option.some.injEq, Prod.mk.injEq] at hk
        exact absurd hk.2 hm.2.2
      · exact hkeep.marker k o hk
    · intro k o p hk hne
      rw [OrdMap.get?_insert] at hk
      split_ifs at hk with heq
      · simp only [Option.some.injEq, Prod.mk.injEq] at hk
        rw [heq, ← hk.1, ← hk.2]
        exact hm
      · exact hkeep.message k o p hk hne
  · obtain ⟨buf₀, hbuf, hsub⟩ := store_gBuf r seq options []
    have hkeep := h'.shrink hsub
    have hone := hnew (seq, ⟨payload, options⟩) (List.mem_cons_self ..)
    have hstore : (r.store seq options []).Logs sent logged' := by
      simp only [Logs, store_gNext, hbuf]
      refine ⟨h'.pos, h'.near, h'.passed, ?_, ?_⟩
      · intro k o hk
        rw [OrdMap.get?_insert] at hk
        split_ifs at hk with heq
        · exact ⟨_, heq ▸ hone⟩
        · exact hkeep.marker k o hk
      · intro k o p hk hne
        rw [OrdMap.get?_insert] at hk
        split_ifs at hk
        · simp only [Option.some.injEq, Prod.mk.injEq] at hk
          exact absurd hk.2.symm hne
        · exact hkeep.message k o p hk hne
    obtain ⟨hdone, hmono⟩ := LogsAt.drain (r.store seq options []).gBuf.size hstore hlen hgen
      fun x hx => hnew x (List.mem_cons_of_mem _ hx)
    rw [store_gNext] at hmono
    exact ⟨hdone, by simpa only [Receiver.advance, store_gNext] using hmono⟩

/-- The numbered releases depend on the pointer and the buffer only. -/
theorem numbered_congr {r' : Receiver} (h : SameStream r r') (seq options : UInt32)
    (payload : Bytes) : r'.numbered seq options payload = r.numbered seq options payload := by
  obtain ⟨hnext, hbuf⟩ := h
  have hstore : (r'.store seq options []).gBuf = (r.store seq options []).gBuf := by
    unfold store toEvict
    rw [hbuf]
    split <;> rfl
  simp only [numbered, duplicate, hnext, hbuf, store_gNext, hstore]

theorem duplicate_congr {r' : Receiver} (h : SameStream r r') (seq : UInt32) :
    r'.duplicate seq = r.duplicate seq := by
  simp only [duplicate, h.1, h.2]

/-- A guaranteed message with a nonzero number runs through the guaranteed branch of a
receiver with the same stream. -/
theorem onMessage_guaranteed (r : Receiver) {seq options : UInt32} (payload : Bytes) (nowMs : ℕ)
    (h0 : seq ≠ 0) (hg : guaranteed options = true) :
    ∃ r₀ : Receiver, SameStream r r₀ ∧
      r.onMessage seq options payload nowMs = r₀.onGuaranteed seq options payload := by
  refine ⟨({ r with lastEvicted := none } : Receiver).armAck options nowMs, ⟨?_, ?_⟩, ?_⟩
  · rw [armAck_gNext]
  · rw [armAck_gBuf]
  · simp [onMessage, partyReliable, h0, hg]

/-- A duplicate below the pointer is recorded. -/
theorem Logs.logged_of_duplicate (h : r.Logs sent logged) (hlen : sent.length < 2 ^ 31)
    {seq : UInt32} {m : RecvMsg} (hm : (arrivalsOf sent).arrived seq m)
    (hdup : r.duplicate seq = true) : (∃ m, logged seq m) ∨ r.gBuf.contains seq = true := by
  unfold duplicate at hdup
  cases (Bool.or_eq_true _ _).mp hdup with
  | inr hbuf => exact .inr hbuf
  | inl hle =>
    left
    obtain ⟨hpos, hlt⟩ := arrived_le_length hm
    have hnear := h.near
    have hgpos := h.pos
    have hsub := toNat_sub_one hgpos
    rw [seqLe_iff_le (by omega) (by omega)] at hle
    exact h.passed seq hpos (by omega)

theorem drain_get? (fuel : ℕ) {next : UInt32} {buf : OrdMap UInt32 (UInt32 × Bytes)} {k : UInt32}
    {e : UInt32 × Bytes} (h : (drain fuel next buf).2.1.get? k = some e) : buf.get? k = some e := by
  induction fuel generalizing next buf with
  | zero => exact h
  | succ fuel ih =>
    unfold drain at h
    cases hk : buf.get? next with
    | none => simpa [hk] using h
    | some x =>
      simp only [hk] at h
      exact LogsAt.get?_erase_some (ih h)

/-- The guaranteed branch buffers under no number but its own. -/
theorem onGuaranteed_gBuf {seq options k : UInt32} {payload : Bytes} {e : UInt32 × Bytes}
    (h : (r.onGuaranteed seq options payload).1.gBuf.get? k = some e) :
    (k = seq ∧ r.duplicate seq = false) ∨ r.gBuf.contains k = true := by
  have hmem : ∀ e', r.gBuf.get? k = some e' → r.gBuf.contains k = true :=
    fun e' he' => (OrdMap.contains_iff _ _).mpr ⟨e', he'⟩
  unfold onGuaranteed at h
  split_ifs at h with hdup hseq hnext
  · exact .inr (hmem e h)
  · exact .inr (hmem e (drain_get? _ h))
  · have hd : r.duplicate seq = false := by simpa [duplicate] using hdup
    obtain ⟨buf₀, hbuf, hsub⟩ := store_gBuf r seq options payload
    simp only [hbuf, OrdMap.get?_insert] at h
    split_ifs at h with heq
    · exact .inl ⟨heq, hd⟩
    · exact .inr (hmem e (hsub k e h))
  · have hd : r.duplicate seq = false := by simpa [duplicate] using hdup
    have h' := drain_get? _ h
    obtain ⟨buf₀, hbuf, hsub⟩ := store_gBuf r seq options []
    rw [hbuf, OrdMap.get?_insert] at h'
    split_ifs at h' with heq
    · exact .inl ⟨heq, hd⟩
    · exact .inr (hmem e (hsub k e h'))

theorem drainNumbered_key (fuel : ℕ) {next : UInt32} {buf : OrdMap UInt32 (UInt32 × Bytes)} :
    ∀ x ∈ drainNumbered fuel next buf, buf.get? x.1 = some (x.2.options, x.2.payload) ∧
      x.2.payload ≠ [] := by
  induction fuel generalizing next buf with
  | zero => simp [drainNumbered]
  | succ fuel ih =>
    intro x hx
    unfold drainNumbered at hx
    cases hk : buf.get? next with
    | none => simp [hk] at hx
    | some e =>
      obtain ⟨o, p⟩ := e
      simp only [hk, List.mem_append] at hx
      cases hx with
      | inl hx =>
        unfold release at hx
        split_ifs at hx with hp
        · simp at hx
        · simp only [List.map_cons, List.map_nil, List.mem_singleton] at hx
          rw [hx]
          exact ⟨hk, by simpa using hp⟩
      | inr hx =>
        obtain ⟨ho, hne⟩ := ih x hx
        exact ⟨LogsAt.get?_erase_some ho, hne⟩

/-- A release is of the message at hand, which then is no duplicate, or of a buffered
one. -/
theorem numbered_key {seq options : UInt32} {payload : Bytes} :
    ∀ x ∈ r.numbered seq options payload,
      (x.1 = seq ∧ r.duplicate seq = false) ∨ r.gBuf.contains x.1 = true := by
  intro x hx
  unfold numbered at hx
  split_ifs at hx with hdup hseq hnext
  · cases hx
  · cases List.mem_append.mp hx with
    | inl hx =>
      obtain ⟨m, -, rfl⟩ := List.mem_map.mp hx
      exact .inl ⟨rfl, by simpa using hdup⟩
    | inr hx =>
      obtain ⟨ho, -⟩ := drainNumbered_key _ x hx
      exact .inr ((OrdMap.contains_iff _ _).mpr ⟨_, ho⟩)
  · cases hx
  · cases List.mem_cons.mp hx with
    | inl hx =>
      rw [hx]
      exact .inl ⟨rfl, by simpa using hdup⟩
    | inr hx =>
      obtain ⟨ho, hne⟩ := drainNumbered_key _ x hx
      obtain ⟨buf₀, hbuf, hsub⟩ := store_gBuf r seq options []
      rw [hbuf, OrdMap.get?_insert] at ho
      split_ifs at ho
      · simp only [Option.some.injEq, Prod.mk.injEq] at ho
        exact absurd ho.2.symm hne
      · exact .inr ((OrdMap.contains_iff _ _).mpr ⟨_, hsub _ _ ho⟩)

end Receiver

end GbfrLan.Party
