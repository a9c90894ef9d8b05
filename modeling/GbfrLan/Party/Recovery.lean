import GbfrLan.Party.BestEffort
import GbfrLan.Party.Bounds

/-!
# How a pairing recovers, and when it cannot

One round of retransmissions that arrives in order closes every gap of the receiver, whatever else
the network delivers in between. A number that is neither buffered nor sent again is a hole: the
pointer of the receiver stays in front of it for ever.
-/
namespace GbfrLan.Party
open Lib

namespace Receiver

variable {r r' : Receiver} {x : Datagram × ℕ}

theorem Small.of_stream (h : r.Small) (hsame : SameStream r r') (hbest : r'.beLast.toNat < 2 ^ 31) :
    r'.Small := by
  obtain ⟨hnext, hbuf⟩ := hsame
  obtain ⟨⟨hroom, hahead⟩, hpos, hle, hkeys, -⟩ := h
  rw [← hbuf] at hroom hahead hkeys
  rw [← hnext] at hahead hpos hle
  exact ⟨⟨hroom, hahead⟩, hpos, hle, hkeys, hbest⟩

/-- The pointer and the buffer are in order, whatever the best-effort mark is. -/
def Steady (r : Receiver) : Prop := (r.withBest 0 false none).Small

theorem Steady.of_stream (h : r.Steady) (hsame : SameStream r r') : r'.Steady :=
  Small.of_stream h hsame (by decide : (0 : UInt32).toNat < 2 ^ 31)

theorem Small.steady (h : r.Small) : r.Steady :=
  h.of_stream ⟨rfl, rfl⟩ (by decide : (0 : UInt32).toNat < 2 ^ 31)

theorem sameStream_of_core (h : r'.core = r.core) : SameStream r r' :=
  ⟨congrArg Prod.fst h, congrArg (fun c => c.2.1) h⟩

theorem Steady.pos (h : r.Steady) : 1 ≤ r.gNext.toNat := by
  have hsmall : (r.withBest 0 false none).Small := h
  exact hsmall.pos

theorem Steady.ahead (h : r.Steady) {k : UInt32} (hk : r.gBuf.contains k = true) :
    r.gNext.toNat < k.toNat ∧ k.toNat < 2 ^ 31 :=
  ⟨UInt32.lt_iff_toNat_lt.mp (Small.toBounded h |>.ahead k hk), Small.keys h k hk⟩

/-- A datagram that is best-effort, or has a number below `2 ^ 31`. -/
def Numbered (d : Datagram) : Prop :=
  guaranteed d.options = true → 0 < d.seq.toNat ∧ d.seq.toNat < 2 ^ 31

theorem Steady.hear (h : r.Steady) (hx : Numbered x.1) :
    (r.hear x).Steady ∧ r.gNext.toNat ≤ (r.hear x).gNext.toNat := by
  cases hg : guaranteed x.1.options with
  | false =>
    have hsame := sameStream_of_core (r.onMessage_best_core hg x.1.seq x.1.payload x.2)
    exact ⟨h.of_stream hsame, by rw [Receiver.hear, hsame.1]⟩
  | true =>
    have hcore : r.core = (r.withBest 0 false none).core := rfl
    have hsame := sameStream_of_core (onMessage_core hcore hg x.1.seq x.1.payload x.2).1
    obtain ⟨hsmall, honward⟩ := Small.hear h (hx hg).2
    refine ⟨hsmall.steady.of_stream hsame, ?_⟩
    rw [Receiver.hear, hsame.1]
    exact UInt32.le_iff_toNat_le.mp honward.next

/-- The numbers left after a round of the loop. -/
theorem erase_keys {next : UInt32} {buf : OrdMap UInt32 (UInt32 × Bytes)}
    (hlt : next.toNat < 2 ^ 31)
    (hkeys : ∀ k, buf.contains k = true → next.toNat ≤ k.toNat ∧ k.toNat < 2 ^ 31) (k : UInt32)
    (hk : (buf.erase next).contains k = true) :
    (next + 1).toNat ≤ k.toNat ∧ k.toNat < 2 ^ 31 := by
  obtain ⟨hne, hold⟩ := OrdMap.contains_erase_iff.mp hk
  have hne' : k.toNat ≠ next.toNat := fun hsame => hne (UInt32.toNat_inj.mp hsame)
  have hk' := hkeys k hold
  have hnum := toNat_add_one (a := next) (by omega)
  omega

/-- The loop takes out the entry at the pointer first. -/
theorem drain_passes {fuel : ℕ} {next : UInt32} {buf : OrdMap UInt32 (UInt32 × Bytes)}
    (hfuel : buf.size = fuel) (hin : buf.contains next = true)
    (hkeys : ∀ k, buf.contains k = true → next.toNat ≤ k.toNat ∧ k.toNat < 2 ^ 31) :
    next.toNat < (drain fuel next buf).1.toNat ∧ (drain fuel next buf).2.1.size < buf.size := by
  obtain ⟨e, he⟩ := (OrdMap.contains_iff _ _).mp hin
  have hsize := OrdMap.size_erase_of_some he
  obtain ⟨fuel, rfl⟩ : ∃ n, fuel = n + 1 := ⟨(buf.erase next).size, by omega⟩
  have hlt := (hkeys next hin).2
  have hnum := toNat_add_one (a := next) (by omega)
  have hle : (next + 1).toNat ≤ 2 ^ 31 := by omega
  obtain ⟨hmono, -, hrest, -⟩ := drain_bounds fuel (by omega) hle (erase_keys hlt hkeys)
  simp only [drain, he]
  omega

/-- The loop leaves the entries from the final pointer on. -/
theorem drain_keeps (fuel : ℕ) {next : UInt32} {buf : OrdMap UInt32 (UInt32 × Bytes)}
    {k : UInt32} (hfuel : buf.size = fuel) (hnext : next.toNat ≤ 2 ^ 31)
    (hkeys : ∀ k, buf.contains k = true → next.toNat ≤ k.toNat ∧ k.toNat < 2 ^ 31)
    (hk : buf.contains k = true) (hle : (drain fuel next buf).1.toNat ≤ k.toNat) :
    (drain fuel next buf).2.1.contains k = true := by
  induction fuel generalizing next buf with
  | zero => exact hk
  | succ fuel ih =>
    unfold drain at hle ⊢
    cases hget : buf.get? next with
    | none => exact hk
    | some e =>
      rw [hget] at hle
      have hin := hkeys next ((OrdMap.contains_iff _ _).mpr ⟨e, hget⟩)
      have hnum := toNat_add_one (a := next) (by omega)
      have hsize := OrdMap.size_erase_of_some hget
      have hle' : (next + 1).toNat ≤ 2 ^ 31 := by omega
      have hmono := (drain_bounds fuel (by omega) hle' (erase_keys hin.2 hkeys)).1
      refine ih (by omega) hle' (erase_keys hin.2 hkeys) (OrdMap.contains_erase_iff.mpr ⟨?_, hk⟩) hle
      rintro rfl
      simp only at hle
      omega

theorem advance_at (hin : r.gBuf.contains r.gNext = true)
    (hkeys : ∀ k, r.gBuf.contains k = true → r.gNext.toNat ≤ k.toNat ∧ k.toNat < 2 ^ 31) :
    r.gNext.toNat < r.advance.1.gNext.toNat ∧ r.advance.1.gBuf.size < r.gBuf.size ∧
      ∀ k, r.gBuf.contains k = true → r.advance.1.gNext.toNat ≤ k.toNat →
        r.advance.1.gBuf.contains k = true := by
  have hle : r.gNext.toNat ≤ 2 ^ 31 := (hkeys r.gNext hin).2.le
  obtain ⟨hpass, hsize⟩ := drain_passes rfl hin hkeys
  exact ⟨hpass, hsize, fun k hk hout => drain_keeps r.gBuf.size rfl hle hkeys hk hout⟩

/-- The loop does not get past a number that is missing. -/
theorem drain_stops (fuel : ℕ) {next : UInt32} {buf : OrdMap UInt32 (UInt32 × Bytes)} {k : UInt32}
    (hnext : next.toNat ≤ k.toNat) (hk : buf.contains k = false) :
    (drain fuel next buf).1.toNat ≤ k.toNat := by
  induction fuel generalizing next buf with
  | zero => exact hnext
  | succ fuel ih =>
    unfold drain
    cases hget : buf.get? next with
    | none => exact hnext
    | some e =>
      have hne : next ≠ k := by
        rintro rfl
        rw [OrdMap.contains, hget] at hk
        cases hk
      have hne' : next.toNat ≠ k.toNat := fun hsame => hne (UInt32.toNat_inj.mp hsame)
      have hlt := k.toNat_lt
      have hnum := toNat_add_one (a := next) (by omega)
      have hrest : (buf.erase next).contains k = false := by
        rw [← Bool.not_eq_true, OrdMap.contains_erase_iff, hk]
        simp
      exact ih (by omega) hrest

theorem drain_subset (fuel : ℕ) {next : UInt32} {buf : OrdMap UInt32 (UInt32 × Bytes)} {k : UInt32}
    (hk : (drain fuel next buf).2.1.contains k = true) : buf.contains k = true := by
  induction fuel generalizing next buf with
  | zero => exact hk
  | succ fuel ih =>
    unfold drain at hk
    cases hget : buf.get? next with
    | none =>
      rw [hget] at hk
      exact hk
    | some e =>
      rw [hget] at hk
      exact (OrdMap.contains_erase_iff.mp (ih hk)).2

/-- A message at the pointer is passed over. With room in the buffer nothing of it is lost. -/
theorem Steady.onGuaranteed_at (h : r.Steady) (options : UInt32) (payload : Bytes)
    (hlt : r.gNext.toNat < 2 ^ 31) :
    r.gNext.toNat < (r.onGuaranteed r.gNext options payload).1.gNext.toNat ∧
      (r.gBuf.size < oooCap →
        (r.onGuaranteed r.gNext options payload).1.gBuf.size < oooCap ∧
        ∀ k, r.gBuf.contains k = true →
          (r.onGuaranteed r.gNext options payload).1.gNext.toNat ≤ k.toNat →
          (r.onGuaranteed r.gNext options payload).1.gBuf.contains k = true) := by
  have hpos := h.pos
  have hpred := toNat_sub_one (a := r.gNext) (by omega)
  have hnum := toNat_add_one (a := r.gNext) (by omega)
  have hnew : seqLe r.gNext (r.gNext - 1) = false := by
    rw [← Bool.not_eq_true, seqLe_iff_le hlt (by omega)]
    omega
  have hout : r.gBuf.contains r.gNext = false := by
    rw [← Bool.not_eq_true]
    intro hin
    exact lt_irrefl _ (h.ahead hin).1
  have hnone : r.gBuf.get? r.gNext = none := by simpa [OrdMap.contains] using hout
  unfold onGuaranteed
  rw [hnew, hout]
  simp only [Bool.or_self, Bool.false_eq_true, if_false, beq_self_eq_true, if_true]
  split_ifs with hs
  · have hkeys : ∀ k, r.gBuf.contains k = true → (r.gNext + 1).toNat ≤ k.toNat ∧ k.toNat < 2 ^ 31 := by
      intro k hk
      have hk' := h.ahead hk
      omega
    have hnext : (r.gNext + 1).toNat ≤ 2 ^ 31 := by omega
    obtain ⟨hmono, -, hsize, -⟩ := drain_bounds r.gBuf.size rfl hnext hkeys
    refine ⟨?_, fun hroom => ⟨?_, fun k hk hle => ?_⟩⟩
    · simp only [advance]
      omega
    · exact hsize.trans_lt hroom
    · exact drain_keeps r.gBuf.size rfl hnext hkeys hk hle
  · -- the marker is put at the pointer, and the loop starts with it
    obtain ⟨buf₀, hbuf, hsub⟩ := store_gBuf r r.gNext options []
    have hnext := store_gNext r r.gNext options []
    have hin : (r.store r.gNext options []).gBuf.contains (r.store r.gNext options []).gNext = true := by
      rw [hnext, hbuf, OrdMap.contains_insert_iff]
      exact .inl rfl
    have hkeys : ∀ k, (r.store r.gNext options []).gBuf.contains k = true →
        (r.store r.gNext options []).gNext.toNat ≤ k.toNat ∧ k.toNat < 2 ^ 31 := by
      intro k hk
      rw [hnext]
      rcases store_keys hk with rfl | hold
      · exact ⟨le_refl _, hlt⟩
      · exact ⟨(h.ahead hold).1.le, (h.ahead hold).2⟩
    obtain ⟨hpass, hsize, hkept⟩ := advance_at hin hkeys
    rw [hnext] at hpass
    refine ⟨hpass, fun hroom => ?_⟩
    have hstore : (r.store r.gNext options []).gBuf = r.gBuf.insert r.gNext (options, []) := by
      unfold store toEvict
      rw [if_neg (by omega)]
    have hgrown := OrdMap.size_insert_of_none (options, ([] : Bytes)) hnone
    rw [← hstore] at hgrown
    refine ⟨?_, fun k hk hle => hkept k ?_ hle⟩
    · simp only
      omega
    · rw [hstore, OrdMap.contains_insert_iff]
      exact .inr hk

theorem hear_guaranteed (hg : guaranteed x.1.options = true) (hpos : 0 < x.1.seq.toNat) :
    ∃ r' : Receiver, SameStream r r' ∧
      r.hear x = (r'.onGuaranteed x.1.seq x.1.options x.1.payload).1 := by
  have h0 : x.1.seq ≠ 0 := by
    intro h
    rw [h] at hpos
    exact absurd hpos (by decide)
  refine ⟨({ r with lastEvicted := none } : Receiver).armAck x.1.options x.2, ⟨by simp, by simp⟩, ?_⟩
  simp [hear, onMessage, partyReliable, h0, hg]

/-- A guaranteed datagram that is not beyond the pointer is behind it afterwards. -/
theorem Steady.hear_at (h : r.Steady) (hg : guaranteed x.1.options = true) (hx : Numbered x.1)
    (hle : x.1.seq.toNat ≤ r.gNext.toNat) :
    x.1.seq.toNat < (r.hear x).gNext.toNat ∧
      (r.gBuf.size < oooCap → (r.hear x).gBuf.size < oooCap ∧
        ∀ k, r.gBuf.contains k = true → (r.hear x).gNext.toNat ≤ k.toNat →
          (r.hear x).gBuf.contains k = true) := by
  obtain ⟨hpos, hlt⟩ := hx hg
  obtain ⟨r', hsame, heq⟩ := hear_guaranteed (r := r) hg hpos
  have hr' := h.of_stream hsame
  obtain ⟨hnext, hbuf⟩ := hsame
  rw [heq]
  by_cases hat : x.1.seq = r'.gNext
  · rw [hat] at hlt ⊢
    obtain ⟨hpass, hkept⟩ := hr'.onGuaranteed_at x.1.options x.1.payload hlt
    rw [hbuf] at hkept
    exact ⟨hpass, hkept⟩
  · have hne : x.1.seq.toNat ≠ r.gNext.toNat := by
      rw [← hnext]
      exact fun hsame => hat (UInt32.toNat_inj.mp hsame)
    have hpred := toNat_sub_one (a := r'.gNext) (by rw [hnext]; omega)
    have hbound : r.gNext.toNat ≤ 2 ^ 31 := by
      have hsmall : (r.withBest 0 false none).Small := h
      exact hsmall.next
    have hdup : seqLe x.1.seq (r'.gNext - 1) = true := by
      rw [seqLe_iff_le hlt (by rw [hpred, hnext]; omega), hpred, hnext]
      omega
    have hstay : (r'.onGuaranteed x.1.seq x.1.options x.1.payload).1 = r' := by
      simp [onGuaranteed, hdup]
    rw [hstay, hnext, hbuf]
    exact ⟨by omega, fun hroom => ⟨hroom, fun k hk _ => hk⟩⟩

/-- What closes every gap up to `n`: datagrams in the order of their numbers. -/
structure Closing (r : Receiver) (n : ℕ) (cs : List Datagram) : Prop where
  numbered : ∀ c ∈ cs, guaranteed c.options = true ∧ Numbered c
  sorted : cs.Pairwise fun c c' => c.seq.toNat < c'.seq.toNat
  covers : ∀ k, r.gNext.toNat ≤ k → k ≤ n → ∃ c ∈ cs, c.seq.toNat = k

/-- The first of them is not beyond the pointer, unless there is no gap. -/
theorem Closing.head {n : ℕ} {c : Datagram} {cs : List Datagram} (h : r.Closing n (c :: cs))
    (hn : r.gNext.toNat ≤ n) : c.seq.toNat ≤ r.gNext.toNat := by
  obtain ⟨c', hc', heq⟩ := h.covers r.gNext.toNat (le_refl _) hn
  rcases List.mem_cons.mp hc' with rfl | hrest
  · exact heq.le
  · have hlt := (List.pairwise_cons.mp h.sorted).1 c' hrest
    omega

/-- Whatever arrives in between, the pointer is beyond `n` once all of them have arrived in order. -/
theorem Steady.run_closing {n : ℕ} {cs : List Datagram} {xs : List (Datagram × ℕ)} (h : r.Steady)
    (hxs : ∀ x ∈ xs, Numbered x.1) (hsub : cs.Sublist (xs.map Prod.fst)) (hcs : r.Closing n cs) :
    n < (run Receiver.hear r xs).gNext.toNat := by
  induction xs generalizing r cs with
  | nil =>
    obtain rfl := List.sublist_nil.mp hsub
    by_contra hle
    obtain ⟨c, hc, -⟩ := hcs.covers n (by simpa using hle) (le_refl n)
    cases hc
  | cons x xs ih =>
    obtain ⟨hx, hrest⟩ := List.forall_mem_cons.mp hxs
    obtain ⟨hnext, hmono⟩ := h.hear hx
    rw [run_cons]
    rw [List.map_cons] at hsub
    cases hsub with
    | cons _ hsub =>
      refine ih hnext hrest hsub ⟨hcs.numbered, hcs.sorted, fun k hk hn => ?_⟩
      exact hcs.covers k (hmono.trans hk) hn
    | cons_cons _ hsub =>
      rename_i cs
      obtain ⟨hhead, htail⟩ := List.forall_mem_cons.mp hcs.numbered
      refine ih hnext hrest hsub ⟨htail, (List.pairwise_cons.mp hcs.sorted).2, fun k hk hn => ?_⟩
      obtain ⟨c, hc, heq⟩ := hcs.covers k (hmono.trans hk) hn
      rcases List.mem_cons.mp hc with rfl | hc
      · have hle := hcs.head ((hmono.trans hk).trans hn)
        have hpass := (h.hear_at hhead.1 hhead.2 hle).1
        omega
      · exact ⟨c, hc, heq⟩

/-- What closes the gaps that the buffer leaves up to `n`. -/
structure Filling (r : Receiver) (n : ℕ) (cs : List Datagram) : Prop where
  numbered : ∀ c ∈ cs, guaranteed c.options = true ∧ Numbered c
  sorted : cs.Pairwise fun c c' => c.seq.toNat < c'.seq.toNat
  covers : ∀ k : UInt32, r.gNext.toNat ≤ k.toNat → k.toNat ≤ n →
    r.gBuf.contains k = true ∨ ∃ c ∈ cs, c.seq = k

/-- With room in the buffer, what it holds need not be sent again. -/
theorem Steady.run_filling {n : ℕ} {cs : List Datagram} (nowMs : ℕ) (h : r.Steady)
    (hroom : r.gBuf.size < oooCap) (hcs : r.Filling n cs) :
    n < (run Receiver.hear r (cs.map fun c => (c, nowMs))).gNext.toNat := by
  have hnotin : r.gBuf.contains r.gNext ≠ true := fun hin => lt_irrefl _ (h.ahead hin).1
  induction cs generalizing r with
  | nil =>
    by_contra hle
    rcases hcs.covers r.gNext (le_refl _) (by simpa using hle) with hin | ⟨c, hc, -⟩
    · exact hnotin hin
    · cases hc
  | cons c cs ih =>
    obtain ⟨hhead, htail⟩ := List.forall_mem_cons.mp hcs.numbered
    obtain ⟨hfirst, hsorted⟩ := List.pairwise_cons.mp hcs.sorted
    obtain ⟨hnext, hmono⟩ := h.hear (x := (c, nowMs)) hhead.2
    rw [List.map_cons, run_cons]
    by_cases hn : r.gNext.toNat ≤ n
    · have hle : c.seq.toNat ≤ r.gNext.toNat := by
        obtain ⟨c', hc', heq⟩ := (hcs.covers r.gNext (le_refl _) hn).resolve_left hnotin
        rcases List.mem_cons.mp hc' with rfl | hrest
        · rw [heq]
        · have hlt := hfirst c' hrest
          rw [heq] at hlt
          exact hlt.le
      obtain ⟨hpass, hkeep⟩ := h.hear_at (x := (c, nowMs)) hhead.1 hhead.2 hle
      obtain ⟨hroom', hkept⟩ := hkeep hroom
      refine ih hnext hroom' ⟨htail, hsorted, fun k hk hkn => ?_⟩
        (fun hin => lt_irrefl _ (hnext.ahead hin).1)
      rcases hcs.covers k (hmono.trans hk) hkn with hin | ⟨c', hc', heq⟩
      · exact .inl (hkept k hin hk)
      · rcases List.mem_cons.mp hc' with rfl | hrest
        · have hlt : k.toNat < k.toNat := by
            calc k.toNat = c'.seq.toNat := by rw [heq]
              _ < (r.hear (c', nowMs)).gNext.toNat := hpass
              _ ≤ k.toNat := hk
          exact absurd hlt (lt_irrefl _)
        · exact .inr ⟨c', hrest, heq⟩
    · have hnumbered : ∀ x ∈ cs.map fun c => (c, nowMs), Numbered x.1 := by
        intro x hx
        obtain ⟨c', hc', rfl⟩ := List.mem_map.mp hx
        exact (htail c' hc').2
      have hclosed : (r.hear (c, nowMs)).Closing n [] :=
        ⟨by simp, .nil, fun k hk hkn => absurd (hmono.trans (hk.trans hkn)) hn⟩
      exact hnext.run_closing hnumbered (List.nil_sublist _) hclosed

/-- A number that does not arrive stays missing, and the pointer in front of it. -/
theorem hear_missing {k : UInt32} (hx : guaranteed x.1.options = true → x.1.seq ≠ k)
    (hnumbered : Numbered x.1) (hnext : r.gNext.toNat ≤ k.toNat) (hk : r.gBuf.contains k = false) :
    (r.hear x).gNext.toNat ≤ k.toNat ∧ (r.hear x).gBuf.contains k = false := by
  cases hg : guaranteed x.1.options with
  | false =>
    obtain ⟨hnext', hbuf⟩ := sameStream_of_core (r.onMessage_best_core hg x.1.seq x.1.payload x.2)
    rw [Receiver.hear, hnext', hbuf]
    exact ⟨hnext, hk⟩
  | true =>
    obtain ⟨r', ⟨hnext', hbuf⟩, heq⟩ := hear_guaranteed (r := r) hg (hnumbered hg).1
    rw [← hnext'] at hnext
    rw [← hbuf] at hk
    have hstore (payload : Bytes) :
        (r'.store x.1.seq x.1.options payload).gBuf.contains k = false := by
      rw [← Bool.not_eq_true]
      intro hin
      rcases store_keys hin with rfl | hold
      · exact hx hg rfl
      · rw [hk] at hold
        cases hold
    rw [heq]
    unfold onGuaranteed
    split_ifs with hdup hs hat
    · exact ⟨hnext, hk⟩
    · have hne : r'.gNext.toNat ≠ k.toNat := by
        rw [← eq_of_beq hat]
        exact fun hsame => hx hg (UInt32.toNat_inj.mp hsame)
      have hlt := k.toNat_lt
      have hnum := toNat_add_one (a := r'.gNext) (by omega)
      refine ⟨drain_stops _ (by simp only; omega) hk, ?_⟩
      rw [← Bool.not_eq_true] at hk ⊢
      exact fun hin => hk (drain_subset _ hin)
    · exact ⟨by rw [store_gNext]; exact hnext, hstore x.1.payload⟩
    · refine ⟨drain_stops _ (by rw [store_gNext]; exact hnext) (hstore []), ?_⟩
      have hout := hstore []
      rw [← Bool.not_eq_true] at hout ⊢
      exact fun hin => hout (drain_subset _ hin)

end Receiver

namespace Sender

variable {s : Sender} {nowMs : ℕ}

/-- The message of a number is pending, and its next deadline has come with retries left. -/
def Resends (s : Sender) (nowMs : ℕ) (k : UInt32) : Prop :=
  ∃ p, s.pending.get? k = some p ∧ p.gaveUp = false ∧ p.retries < maxRetries ∧
    p.rtoMs ≤ nowMs - p.lastSentMs

/-- The datagrams that `due` puts on the wire. -/
def resent (s : Sender) (nowMs : ℕ) : List Datagram :=
  ((s.due nowMs).2.filter fun x => !x.gaveUp).map Retransmit.datagram

theorem tick_seq {k : UInt32} {p : Pending} {x : Retransmit} (h : (tick nowMs k p).2 = some x) :
    x.seq = k := by
  unfold tick at h
  split_ifs at h <;> simp only [Option.some.injEq] at h <;> rw [← h]

theorem Resends.tick {k : UInt32} {p : Pending} (hgave : p.gaveUp = false)
    (hleft : p.retries < maxRetries) (hdue : p.rtoMs ≤ nowMs - p.lastSentMs) :
    ∃ x, (Sender.tick nowMs k p).2 = some x ∧ x.gaveUp = false := by
  unfold Sender.tick
  rw [hgave, if_neg (by simp), if_neg (by omega), if_neg (by omega)]
  exact ⟨_, rfl, rfl⟩

/-- Every number that resends is among them. -/
theorem Resends.mem {k : UInt32} (h : s.Resends nowMs k) : ∃ d ∈ s.resent nowMs, d.seq = k := by
  obtain ⟨p, hp, hgave, hleft, hdue⟩ := h
  obtain ⟨x, hx, hsent⟩ := Resends.tick (k := k) hgave hleft hdue
  refine ⟨x.datagram, List.mem_map.mpr ⟨x, List.mem_filter.mpr ⟨?_, by simp [hsent]⟩, rfl⟩, tick_seq hx⟩
  simp only [due, partyReliable, Bool.not_true, Bool.false_eq_true, if_false]
  exact List.mem_filterMap.mpr ⟨(k, p), (OrdMap.mem_entries_iff ..).mpr hp, hx⟩

/-- A message with retries left is sent again when its deadline comes. -/
def Live (s : Sender) (k : UInt32) : Prop :=
  ∃ p, s.pending.get? k = some p ∧ p.gaveUp = false ∧ p.retries < maxRetries

/-- Only such messages are among them. -/
theorem live_of_mem {d : Datagram} (h : d ∈ s.resent nowMs) : s.Live d.seq := by
  obtain ⟨x, hx, rfl⟩ := List.mem_map.mp h
  obtain ⟨hdue, hsent⟩ := List.mem_filter.mp hx
  simp only [due, partyReliable, Bool.not_true, Bool.false_eq_true, if_false] at hdue
  obtain ⟨e, he, htick⟩ := List.mem_filterMap.mp hdue
  have hseq : x.datagram.seq = e.1 := tick_seq htick
  refine ⟨e.2, by rw [hseq]; exact (OrdMap.mem_entries_iff ..).mp he, ?_⟩
  unfold Sender.tick at htick
  split_ifs at htick with hgave hearly hspent
  · simp only [Option.some.injEq] at htick
    rw [← htick] at hsent
    cases hsent
  · exact ⟨by simpa using hgave, by omega⟩

/-- No deadline brings a message back that is out of retries. -/
theorem Live.of_due {k : UInt32} (h : (s.due nowMs).1.Live k) : s.Live k := by
  obtain ⟨p, hp, hgave, hleft⟩ := h
  rw [due_get?, Option.map_eq_some_iff] at hp
  obtain ⟨q, hq, rfl⟩ := hp
  refine ⟨q, hq, ?_⟩
  unfold Sender.tick at hgave hleft
  split_ifs at hgave hleft with hold hearly hspent
  · exact ⟨hgave, hleft⟩
  · exact ⟨hgave, hleft⟩
  · exact ⟨hgave, by omega⟩

/-- At some time the deadlines of all of them have come. -/
theorem exists_resends (s : Sender) : ∃ nowMs, ∀ k, s.Live k → s.Resends nowMs k := by
  refine ⟨(s.pending.values.map fun p => p.lastSentMs + p.rtoMs).sum, fun k hk => ?_⟩
  obtain ⟨p, hp, hgave, hleft⟩ := hk
  refine ⟨p, hp, hgave, hleft, ?_⟩
  have hmem : p.lastSentMs + p.rtoMs ∈ s.pending.values.map fun p => p.lastSentMs + p.rtoMs :=
    List.mem_map.mpr ⟨p, List.mem_map.mpr ⟨(k, p), (OrdMap.mem_entries_iff ..).mpr hp, rfl⟩, rfl⟩
  have hle := List.le_sum_of_mem hmem
  omega

/-- They leave in the order of their numbers. -/
theorem resent_sorted (s : Sender) (nowMs : ℕ) :
    (s.resent nowMs).Pairwise fun d d' => d.seq.toNat < d'.seq.toNat := by
  refine List.pairwise_map.mpr (List.Pairwise.filter _ ?_)
  simp only [due, partyReliable, Bool.not_true, Bool.false_eq_true, if_false]
  refine List.pairwise_filterMap.mpr ?_
  refine s.pending.sorted.imp fun hlt x hx y hy => ?_
  have hlt' := UInt32.lt_iff_toNat_lt.mp hlt
  simp only [Retransmit.datagram]
  rw [tick_seq hx, tick_seq hy]
  exact hlt'

end Sender

namespace Link

variable {s : Link}

theorem Sound.numbered (h : Sound s) {d : Datagram} (hd : d ∈ s.wire) : Receiver.Numbered d := by
  intro hg
  obtain ⟨hpos, hle⟩ := arrived_le_length (h.wire d hd hg)
  have hbound := h.tracks.bound
  omega

/-- A sound pairing whose receiver is steady. -/
structure Firm (s : Link) : Prop extends Sound s where
  steady : s.rx.Steady

theorem fresh_firm : Firm fresh := ⟨fresh_sound, Receiver.small_new.steady⟩

theorem Firm.step (h : Firm s) (e : LinkEvent) (he : s.Legal e) : Firm (s.step e) := by
  refine ⟨h.toSound.step e he, ?_⟩
  cases e with
  | deliver d nowMs => exact (h.steady.hear (x := (d, nowMs)) (h.numbered he)).1
  | forcedAck nowMs =>
    obtain ⟨hnext, hbuf, -⟩ := forcedAck_spec s.rx nowMs
    exact h.steady.of_stream ⟨hnext, hbuf⟩
  | send payload options nowMs => exact h.steady
  | due nowMs => exact h.steady
  | ackValue => exact h.steady
  | piggybackAck => exact h.steady.of_stream ⟨rfl, rfl⟩
  | onAck ack => exact h.steady

theorem Firm.run (h : Firm s) {es : List LinkEvent} (hrun : Along Link.step Legal s es) :
    Firm (run Link.step s es) :=
  run_invariant (fun _ e hs he => hs.step e he) h hrun

/-- The pointer counts, and is at most one beyond the messages sent. -/
theorem Firm.gNext_le (h : Firm s) : s.rx.gNext.toNat ≤ s.sent.length + 1 := by
  obtain ⟨marked, covered, hacc, -⟩ := h.stream
  obtain ⟨hpre, hnum⟩ := gNext_toNat h.tracks.bound hacc
  have hle := hpre.length_le
  omega

/-- Nothing is missing once the pointer is beyond the last message sent. -/
theorem Firm.complete (h : Firm s) (hnext : s.sent.length < s.rx.gNext.toNat) :
    s.rx.gNext.toNat = s.sent.length + 1 ∧
      s.released.filter guarSeq = s.sent.filter guarSeq ∧ s.sent.Subperm s.released := by
  obtain ⟨marked, covered, hacc, hf⟩ := h.stream
  obtain ⟨hpre, hnum⟩ := gNext_toNat h.tracks.bound hacc
  have hlen := hpre.length_le
  have hall : covered = s.sent := hpre.eq_of_length (by omega)
  rw [hall] at hf hnum
  refine ⟨hnum, hf, ?_⟩
  rw [← hall]
  exact ((List.sublist_append_left covered marked.values).subperm).trans hacc.accounted

def arriving (xs : List (Datagram × ℕ)) : List LinkEvent :=
  xs.map fun x => LinkEvent.deliver x.1 x.2

theorem run_arriving (s : Link) (xs : List (Datagram × ℕ)) :
    (Lib.run Link.step s (arriving xs)).rx = Lib.run Receiver.hear s.rx xs ∧
      (Lib.run Link.step s (arriving xs)).tx = s.tx ∧
      (Lib.run Link.step s (arriving xs)).sent = s.sent := by
  induction xs generalizing s with
  | nil => exact ⟨rfl, rfl, rfl⟩
  | cons x xs ih => exact ih (s.step (.deliver x.1 x.2))

theorem along_arriving {xs : List (Datagram × ℕ)} (h : ∀ x ∈ xs, x.1 ∈ s.wire) :
    Along Link.step Legal s (arriving xs) := by
  induction xs generalizing s with
  | nil => exact trivial
  | cons x xs ih =>
    obtain ⟨hx, hrest⟩ := List.forall_mem_cons.mp h
    exact ⟨hx, ih hrest⟩

theorem Firm.resent_numbered (h : Firm s) {nowMs : ℕ} {d : Datagram} (hd : d ∈ s.tx.resent nowMs) :
    guaranteed d.options = true ∧ Receiver.Numbered d := by
  obtain ⟨x, hx, rfl⟩ := List.mem_map.mp hd
  obtain ⟨hdue, hsent⟩ := List.mem_filter.mp hx
  obtain ⟨p, hp, hmsg⟩ := Sender.due_retransmit hdue (by simpa using hsent)
  have harr := h.tracks.pending _ p hp
  have hg := (arrivalsOf s.sent).guaranteed _ _ harr
  rw [← hmsg] at hg
  obtain ⟨hpos, hle⟩ := arrived_le_length harr
  have hbound := h.tracks.bound
  exact ⟨hg, fun _ => ⟨hpos, by simp only [Retransmit.datagram]; omega⟩⟩

/-- What `due` sends again closes the gaps of numbers that resend. -/
theorem Firm.closing (h : Firm s) {nowMs n : ℕ} (hn : n ≤ s.sent.length)
    (hlive : ∀ k : UInt32, s.rx.gNext ≤ k → k.toNat ≤ n → s.tx.Resends nowMs k) :
    s.rx.Closing n (s.tx.resent nowMs) where
  numbered _ hd := h.resent_numbered hd
  sorted := s.tx.resent_sorted nowMs
  covers k hk hle := by
    have hbound := h.tracks.bound
    have hnum : (UInt32.ofNat k).toNat = k := UInt32.toNat_ofNat_of_lt' (by simp [UInt32.size]; omega)
    obtain ⟨d, hd, hseq⟩ := (hlive (UInt32.ofNat k) (UInt32.le_iff_toNat_le.mpr (by omega))
      (by omega)).mem
    exact ⟨d, hd, by rw [hseq, hnum]⟩

/-- An ack of everything sent empties the pending map. -/
theorem Firm.onAck_all (h : Firm s) {ack : UInt32} (hack : ack.toNat = s.sent.length) :
    (s.tx.onAck ack).1.pending = OrdMap.empty := by
  have hbehind : ∀ k, s.tx.pending.contains k = true → seqLe k ack = true := by
    intro k hk
    obtain ⟨p, hp⟩ := (OrdMap.contains_iff _ k).mp hk
    have hle := (arrived_le_length (h.tracks.pending k p hp)).2
    have hbound := h.tracks.bound
    exact (seqLe_iff_le (by omega) (by omega)).mpr (by omega)
  have hdrop := (OrdMap.get?_dropWhile_iff (p := fun k => seqLe k ack)).mpr
    fun k _ hk _ _ _ => hbehind k hk
  refine OrdMap.ext_get? fun k => ?_
  rw [OrdMap.get?_empty, Sender.onAck, hdrop k]
  split_ifs with hle
  · rfl
  · by_contra hne
    obtain ⟨p, hp⟩ := Option.ne_none_iff_exists'.mp hne
    exact hle (hbehind k ((OrdMap.contains_iff _ k).mpr ⟨p, hp⟩))

/-- Whatever the network did so far, a round of retransmissions that arrives in order, with any
other datagrams of the wire in between, and the ack of it complete the pairing: provided every
number that the receiver has not covered resends. -/
theorem round_completes (es : List LinkEvent) (hrun : Along Link.step Legal fresh es) (nowMs : ℕ)
    (hlive : ∀ k : UInt32, (Lib.run Link.step fresh es).rx.gNext ≤ k →
      k.toNat ≤ (Lib.run Link.step fresh es).sent.length →
      (Lib.run Link.step fresh es).tx.Resends nowMs k)
    (xs : List (Datagram × ℕ))
    (hxs : ∀ x ∈ xs, x.1 ∈ ((Lib.run Link.step fresh es).step (.due nowMs)).wire)
    (hsub : ((Lib.run Link.step fresh es).tx.resent nowMs).Sublist (xs.map Prod.fst)) :
    let s := Lib.run Link.step fresh es
    let t := (Lib.run Link.step (s.step (.due nowMs)) (arriving xs)).step .ackValue
    let u := t.step (.onAck t.rx.ackValue)
    u.tx.pending = OrdMap.empty ∧ u.rx.gNext.toNat = s.sent.length + 1 ∧
      u.released.filter guarSeq = s.sent.filter guarSeq ∧ s.sent.Subperm u.released := by
  intro s t u
  have hs : Firm s := fresh_firm.run hrun
  have hdue : Firm (s.step (.due nowMs)) := hs.step (.due nowMs) trivial
  have harrived : Firm (Lib.run Link.step (s.step (.due nowMs)) (arriving xs)) :=
    hdue.run (along_arriving hxs)
  have ht : Firm t := harrived.step .ackValue trivial
  obtain ⟨hrx, htx, hsent⟩ := run_arriving (s.step (.due nowMs)) xs
  have hpast : s.sent.length < t.rx.gNext.toNat := by
    have hheard := hs.steady.run_closing (fun x hx => hdue.numbered (hxs x hx)) hsub
      (hs.closing (le_refl _) hlive)
    have hptr : t.rx.gNext = (Lib.run Receiver.hear s.rx xs).gNext := congrArg Receiver.gNext hrx
    rw [hptr]
    exact hheard
  have hsame : t.sent = s.sent := hsent
  obtain ⟨hnum, hrel, hsubperm⟩ := ht.complete (by rw [hsame]; exact hpast)
  rw [hsame] at hnum hrel hsubperm
  have hack : t.rx.ackValue.toNat = t.sent.length := by
    rw [Receiver.ackValue, toNat_sub_one (by omega), hnum, hsame, Nat.add_sub_cancel]
  exact ⟨ht.onAck_all hack, hnum, hrel, hsubperm⟩

/-- Three messages, of which only the last arrives. -/
def lossy : List LinkEvent := [.send [1] 3 0, .send [2] 1 0, .send [3] 3 0, .deliver ⟨3, 3, [3]⟩ 5]

theorem lossy_resends (k : UInt32) (h1 : 1 ≤ k) (h3 : k.toNat ≤ 3) :
    (Lib.run Link.step fresh lossy).tx.Resends 60 k := by
  have hpos := UInt32.le_iff_toNat_le.mp h1
  have hone : (1 : UInt32).toNat = 1 := rfl
  obtain hk | hk | hk : k.toNat = 1 ∨ k.toNat = 2 ∨ k.toNat = 3 := by omega
  · obtain rfl : k = 1 := UInt32.toNat_inj.mp hk
    exact ⟨⟨[1], 3, 0, 0, 0, 60, false⟩, by decide⟩
  · obtain rfl : k = 2 := UInt32.toNat_inj.mp hk
    exact ⟨⟨[2], 1, 0, 0, 0, 60, false⟩, by decide⟩
  · obtain rfl : k = 3 := UInt32.toNat_inj.mp hk
    exact ⟨⟨[3], 3, 0, 0, 0, 60, false⟩, by decide⟩

/-- The round with a datagram overtaking and another one twice. -/
theorem lossy_completes :
    let xs : List (Datagram × ℕ) := [(⟨3, 3, [3]⟩, 61), (⟨1, 3, [1]⟩, 62), (⟨1, 3, [1]⟩, 63),
      (⟨2, 1, [2]⟩, 64), (⟨3, 3, [3]⟩, 65)]
    let t := (Lib.run Link.step ((Lib.run Link.step fresh lossy).step (.due 60)) (arriving xs)).step
      .ackValue
    let u := t.step (.onAck t.rx.ackValue)
    u.tx.pending = OrdMap.empty ∧ u.rx.gNext.toNat = 4 ∧
      u.released.filter guarSeq = [⟨[1], 3⟩, ⟨[3], 3⟩] ∧
      [⟨[1], 3⟩, ⟨[2], 1⟩, ⟨[3], 3⟩].Subperm u.released :=
  round_completes lossy (by decide) 60 (fun k hk hle => lossy_resends k hk hle) _ (by decide)
    (by decide)

/-- A number that was sent, and that nothing will bring to the receiver any more. -/
structure Hole (k : UInt32) (s : Link) : Prop where
  sent : k.toNat ≤ s.sent.length
  next : s.rx.gNext.toNat ≤ k.toNat
  missing : s.rx.gBuf.contains k = false
  wire : ∀ d ∈ s.wire, guaranteed d.options = true → d.seq ≠ k
  silent : ¬s.tx.Live k

theorem Hole.step {k : UInt32} (h : Hole k s) (hs : Firm s) (e : LinkEvent) (he : s.Legal e) :
    Hole k (s.step e) := by
  have hnum := hs.tracks.next
  have hlen := h.sent
  obtain ⟨-, hnext, hmissing, hwire, hsilent⟩ := h
  cases e with
  | send payload options nowMs =>
    cases hg : guaranteed options with
    | true =>
      obtain ⟨-, hout, hget⟩ := Sender.send_guaranteed s.tx payload nowMs hg
      have hne : s.tx.nextGseq ≠ k := by
        rintro rfl
        omega
      refine ⟨by simp [Link.step, hg]; omega, hnext, hmissing, ?_, ?_⟩
      · intro d hd hdg
        simp only [Link.step, hout, List.mem_append, List.mem_singleton] at hd
        rcases hd with hd | rfl
        · exact hwire d hd hdg
        · exact hne
      · rintro ⟨p, hp, hlive⟩
        rcases hget k p hp with ⟨heq, -⟩ | hold
        · exact hne heq.symm
        · exact hsilent ⟨p, hold, hlive⟩
    | false =>
      obtain ⟨-, hpend, hopt, -⟩ := Sender.send_other s.tx payload nowMs hg
      refine ⟨by simp [Link.step, hg]; omega, hnext, hmissing, ?_, ?_⟩
      · intro d hd hdg
        simp only [Link.step, List.mem_append, List.mem_singleton] at hd
        rcases hd with hd | rfl
        · exact hwire d hd hdg
        · have hopt' : ((s.tx.send payload options nowMs).2.datagram).options = options := hopt
          rw [hopt', hg] at hdg
          cases hdg
      · rintro ⟨p, hp, hlive⟩
        have hold : s.tx.pending.get? k = some p := hpend ▸ hp
        exact hsilent ⟨p, hold, hlive⟩
  | due nowMs =>
    refine ⟨hlen, hnext, hmissing, ?_, fun hlive => hsilent hlive.of_due⟩
    intro d hd hdg
    rcases List.mem_append.mp hd with hd | hd
    · exact hwire d hd hdg
    · rintro rfl
      exact hsilent (Sender.live_of_mem hd)
  | deliver d nowMs =>
    obtain ⟨hnext', hmissing'⟩ := Receiver.hear_missing (x := (d, nowMs)) (hwire d he)
      (hs.numbered he) hnext hmissing
    exact ⟨hlen, hnext', hmissing', hwire, hsilent⟩
  | ackValue => exact ⟨hlen, hnext, hmissing, hwire, hsilent⟩
  | piggybackAck => exact ⟨hlen, hnext, hmissing, hwire, hsilent⟩
  | forcedAck nowMs =>
    obtain ⟨hnext', hbuf, -⟩ := forcedAck_spec s.rx nowMs
    refine ⟨hlen, ?_, ?_, hwire, hsilent⟩
    · simp only [Link.step, hnext']
      exact hnext
    · simp only [Link.step, hbuf]
      exact hmissing
  | onAck ack =>
    refine ⟨hlen, hnext, hmissing, hwire, ?_⟩
    rintro ⟨p, hp, hlive⟩
    exact hsilent ⟨p, Sender.onAck_get? hp, hlive⟩

theorem Hole.run {k : UInt32} (h : Hole k s) (hs : Firm s) {es : List LinkEvent}
    (hrun : Along Link.step Legal s es) : Hole k (Lib.run Link.step s es) :=
  (@run_invariant _ _ Link.step Legal (fun s => Hole k s ∧ Firm s)
    (fun _ e hs he => ⟨hs.1.step hs.2 e he, hs.2.step e he⟩) _ _ ⟨h, hs⟩ hrun).1

/-- Every datagram in flight is lost. -/
def cut (s : Link) : Link := { s with wire := [] }

theorem Firm.cut (h : Firm s) : Firm s.cut :=
  ⟨⟨⟨h.tracks, fun _ hd => (List.not_mem_nil hd).elim, h.removed, h.gone, h.once⟩,
    ⟨h.stream, h.acks, h.cleared⟩⟩, h.steady⟩

/-- After everything in flight was lost, the receiver can still get past a message that was sent
exactly when each number up to it is in its buffer or has retries left. -/
theorem prefix_passes_iff (es : List LinkEvent) (hrun : Along Link.step Legal fresh es)
    (hroom : (Lib.run Link.step fresh es).rx.gBuf.size < oooCap) (k : UInt32)
    (hk : k.toNat ≤ (Lib.run Link.step fresh es).sent.length) :
    let s := Lib.run Link.step fresh es
    (∃ fs, Along Link.step Legal s.cut fs ∧
        k.toNat < (Lib.run Link.step s.cut fs).rx.gNext.toNat) ↔
      ∀ j : UInt32, s.rx.gNext ≤ j → j ≤ k → s.rx.gBuf.contains j = true ∨ s.tx.Live j := by
  intro s
  have hs : Firm s := fresh_firm.run hrun
  constructor
  · rintro ⟨fs, hfs, hpast⟩ j hj hjk
    by_contra hnot
    rw [not_or, Bool.not_eq_true] at hnot
    have hjk' := UInt32.le_iff_toNat_le.mp hjk
    have hhole : Hole j s.cut := by
      refine ⟨?_, UInt32.le_iff_toNat_le.mp hj, hnot.1, fun _ hd => (List.not_mem_nil hd).elim, hnot.2⟩
      exact hjk'.trans hk
    have hstay := (hhole.run hs.cut hfs).next
    omega
  · intro hall
    obtain ⟨nowMs, hnow⟩ := s.tx.exists_resends
    have hcut : Firm (s.cut.step (.due nowMs)) := hs.cut.step (.due nowMs) trivial
    have hwire : ∀ d ∈ s.tx.resent nowMs, d ∈ (s.cut.step (.due nowMs)).wire :=
      fun d hd => List.mem_append_right _ hd
    refine ⟨.due nowMs :: arriving ((s.tx.resent nowMs).map fun d => (d, nowMs)), ⟨trivial, ?_⟩, ?_⟩
    · refine along_arriving fun x hx => ?_
      obtain ⟨d, hd, rfl⟩ := List.mem_map.mp hx
      exact hwire d hd
    · rw [run_cons, (run_arriving _ _).1]
      refine hs.steady.run_filling nowMs hroom ⟨fun _ hd => hs.resent_numbered hd,
        s.tx.resent_sorted nowMs, fun j hj hjk => ?_⟩
      exact (hall j (UInt32.le_iff_toNat_le.mpr hj) (UInt32.le_iff_toNat_le.mpr hjk)).imp_right
        fun hlive => (hnow j hlive).mem

/-- The last of the three messages is in the buffer, and the other two have retries left. -/
theorem lossy_passes :
    let s := Lib.run Link.step fresh lossy
    (∃ fs, Along Link.step Legal s.cut fs ∧ 3 < (Lib.run Link.step s.cut fs).rx.gNext.toNat) ∧
      s.rx.gBuf.contains 3 = true := by
  intro s
  refine ⟨(prefix_passes_iff lossy (by decide) (by decide) 3 (by decide)).mpr fun j hj hjk => .inr ?_, by decide⟩
  obtain ⟨p, hp, hgave, hleft, -⟩ := lossy_resends j hj (UInt32.le_iff_toNat_le.mp hjk)
  exact ⟨p, hp, hgave, hleft⟩

end Link

end GbfrLan.Party
