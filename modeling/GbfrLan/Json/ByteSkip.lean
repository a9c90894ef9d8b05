import GbfrLan.Json.ByteString

/-!
# Skipping values in the bytes of a text

`skip_value` in the bytes of a text stops where `Scan.skip` does. A value of `n` characters needs
at most `2 * n + 1` turns, whatever it is; a value that is skipped needs no more turns than it
has characters, so that `Scan.skip` does not depend on its count.
-/
namespace GbfrLan.Json
open Lib Read

namespace Scan

/-- What is left is a shorter end of the text, and so much fuel is enough. -/
structure Consumed (skip : ℕ → List Char → Option (List Char)) (cs rest : List Char) : Prop where
  suffix : rest <:+ cs
  shorter : rest.length < cs.length
  enough : ∀ f, cs.length ≤ f + rest.length → skip f cs = some rest

section

variable {skip skip' : ℕ → List Char → Option (List Char)} {c : Char} {cs cs' rest : List Char}

theorem suffix_of_skipWs (hws : skipWs cs = c :: cs') : c :: cs' <:+ cs :=
  hws ▸ List.dropWhile_suffix _

theorem length_of_skipWs (hws : skipWs cs = c :: cs') : cs'.length < cs.length :=
  (suffix_of_skipWs hws).length_le

/-- One character was what there was to do. -/
theorem Consumed.now (hws : skipWs cs = c :: cs') (hsuffix : rest <:+ cs')
    (hskip : ∀ f, skip (f + 1) cs = some rest) : Consumed skip cs rest where
  suffix := (hsuffix.trans (List.suffix_cons c cs')).trans (suffix_of_skipWs hws)
  shorter := lt_of_le_of_lt hsuffix.length_le (length_of_skipWs hws)
  enough := by
    intro f hf
    have hlen := hsuffix.length_le
    have hlen' := length_of_skipWs hws
    obtain ⟨g, rfl⟩ : ∃ g, f = g + 1 := ⟨f - 1, by omega⟩
    exact hskip g

/-- The rest is done behind one character. -/
theorem Consumed.behind (hws : skipWs cs = c :: cs') (h : Consumed skip' cs' rest)
    (hskip : ∀ f, skip (f + 1) cs = skip' f cs') : Consumed skip cs rest where
  suffix := (h.suffix.trans (List.suffix_cons c cs')).trans (suffix_of_skipWs hws)
  shorter := lt_trans h.shorter (length_of_skipWs hws)
  enough := by
    intro f hf
    have hlen := h.shorter
    have hlen' := length_of_skipWs hws
    obtain ⟨g, rfl⟩ : ∃ g, f = g + 1 := ⟨f - 1, by omega⟩
    rw [hskip]
    exact h.enough g (by omega)

end

theorem strTail_suffix {cs s rest : List Char} (h : strTail cs = some (s, rest)) : rest <:+ cs := by
  obtain ⟨front, rfl, -⟩ := strTail_front h
  exact (List.suffix_cons _ _).trans (List.suffix_append _ _)

theorem token_suffix {c : Char} {cs rest : List Char} (h : token c cs = some rest) :
    c :: rest <:+ cs := by
  obtain ⟨ws, rfl, -⟩ := token_eq_some h
  exact List.suffix_append _ _

/-- Skipping with this fuel. -/
structure Skips (g : ℕ) : Prop where
  value : ∀ {cs rest}, skipValue g cs = some rest → Consumed skipValue cs rest
  members : ∀ {cs rest}, skipMembers g cs = some rest → Consumed skipMembers cs rest
  elements : ∀ {cs rest}, skipElements g cs = some rest → Consumed skipElements cs rest

section

variable {g : ℕ} {cs rest : List Char}

theorem Skips.value_succ (ih : Skips g) (h : skipValue (g + 1) cs = some rest) :
    Consumed skipValue cs rest := by
  rw [skipValue] at h
  cases hws : skipWs cs with
  | nil => simp [hws] at h
  | cons c cs' =>
    simp only [hws] at h
    split_ifs at h with hquote hbrace hbracket hdelim
    · obtain ⟨⟨s, rest⟩, hstr, rfl⟩ := Option.map_eq_some_iff.mp h
      refine .now hws (strTail_suffix hstr) fun f => ?_
      simp only [skipValue, hws, if_pos hquote, hstr, Option.map_some]
    · refine (ih.members h).behind hws fun f => ?_
      simp only [skipValue, hws, if_neg hquote, if_pos hbrace]
    · refine (ih.elements h).behind hws fun f => ?_
      simp only [skipValue, hws, if_neg hquote, if_neg hbrace, if_pos hbracket]
    · cases h
      refine .now hws (List.dropWhile_suffix _) fun f => ?_
      simp only [skipValue, hws, if_neg hquote, if_neg hbrace, if_neg hbracket, if_neg hdelim]

theorem Skips.members_succ (ih : Skips g) (h : skipMembers (g + 1) cs = some rest) :
    Consumed skipMembers cs rest := by
  rw [skipMembers] at h
  cases hws : skipWs cs with
  | nil => simp [hws] at h
  | cons c cs' =>
    simp only [hws] at h
    split_ifs at h with hclose hcomma hquote
    · cases h
      refine .now hws List.suffix_rfl fun f => ?_
      simp only [skipMembers, hws, if_pos hclose]
    · refine (ih.members h).behind hws fun f => ?_
      simp only [skipMembers, hws, if_neg hclose, if_pos hcomma]
    · obtain ⟨⟨k, r₁⟩, hstr, h⟩ := Option.bind_eq_some_iff.mp h
      obtain ⟨r₂, htoken, h⟩ := Option.bind_eq_some_iff.mp h
      change token ':' r₁ = some r₂ at htoken
      obtain ⟨r₃, hvalue, h⟩ := Option.bind_eq_some_iff.mp h
      have hv := ih.value hvalue
      have hm := ih.members h
      have hname := strTail_suffix hstr
      have hcolon := (List.suffix_cons _ _).trans (token_suffix htoken)
      -- each part is shorter than the text behind the white space, so the fuel is enough for both
      have hlen := length_of_skipWs hws
      have hlen₁ := hname.length_le
      have hlen₂ := hcolon.length_le
      have hlen₃ := hv.shorter
      have hlen₄ := hm.shorter
      refine ⟨?_, by omega, fun f hf => ?_⟩
      · exact ((((hm.suffix.trans hv.suffix).trans hcolon).trans hname).trans
          (List.suffix_cons c cs')).trans (suffix_of_skipWs hws)
      · obtain ⟨n, rfl⟩ : ∃ n, f = n + 1 := ⟨f - 1, by omega⟩
        simp only [skipMembers, hws, if_neg hclose, if_neg hcomma, if_pos hquote,
          Option.bind_eq_bind, hstr, Option.bind_some, htoken, hv.enough n (by omega),
          hm.enough n (by omega)]

theorem Skips.elements_succ (ih : Skips g) (h : skipElements (g + 1) cs = some rest) :
    Consumed skipElements cs rest := by
  rw [skipElements] at h
  cases hws : skipWs cs with
  | nil => simp [hws] at h
  | cons c cs' =>
    simp only [hws] at h
    split_ifs at h with hclose hcomma
    · cases h
      refine .now hws List.suffix_rfl fun f => ?_
      simp only [skipElements, hws, if_pos hclose]
    · refine (ih.elements h).behind hws fun f => ?_
      simp only [skipElements, hws, if_neg hclose, if_pos hcomma]
    · obtain ⟨r, hvalue, h⟩ := Option.bind_eq_some_iff.mp h
      have hv := ih.value hvalue
      have he := ih.elements h
      have hlen := (suffix_of_skipWs hws).length_le
      have hlen₁ := hv.shorter
      have hlen₂ := he.shorter
      refine ⟨(he.suffix.trans hv.suffix).trans (suffix_of_skipWs hws), by omega, fun f hf => ?_⟩
      obtain ⟨k, rfl⟩ : ∃ k, f = k + 1 := ⟨f - 1, by omega⟩
      simp only [skipElements, hws, if_neg hclose, if_neg hcomma, Option.bind_eq_bind,
        hv.enough k (by omega), Option.bind_some, he.enough k (by omega)]

end

theorem skips (g : ℕ) : Skips g := by
  induction g with
  | zero => exact ⟨nofun, nofun, nofun⟩
  | succ g ih => exact ⟨ih.value_succ, ih.members_succ, ih.elements_succ⟩

theorem skip_consumed {cs rest : List Char} (h : skip cs = some rest) : Consumed skipValue cs rest :=
  (skips _).value h

theorem strTail_of_skip {cs rest : List Char} (h : skip ('"' :: cs) = some rest) :
    ∃ s, strTail cs = some (s, rest) := by
  have hws : skipWs ('"' :: cs) = '"' :: cs := List.dropWhile_cons_of_neg (by decide)
  rw [skip, skipValue, hws] at h
  simp only [if_true] at h
  obtain ⟨⟨s, rest⟩, hstr, rfl⟩ := Option.map_eq_some_iff.mp h
  exact ⟨s, hstr⟩

/-- As much fuel as the text is long is enough. -/
theorem skipValue_eq_skip {f : ℕ} {cs : List Char} (hf : cs.length ≤ f) : skipValue f cs = skip cs := by
  cases hskip : skip cs with
  | some rest => exact (skip_consumed hskip).enough f (by omega)
  | none =>
    cases hvalue : skipValue f cs with
    | none => rfl
    | some rest =>
      have henough := ((skips f).value hvalue).enough (cs.length + 1) (by omega)
      rw [skip, henough] at hskip
      cases hskip

end Scan

namespace ByteScan

section

variable {b : List UInt8} {i j : ℕ} {c : Char} {cs rest : List Char}

/-- A colon behind white space. -/
theorem At.token (h : At b i cs) {d : Char} (hd : d.toNat < 0x80) :
    (ByteScan.peek b (ByteScan.skipWs b i) ≠ some (byte d) ∧ Read.token d cs = none) ∨
      ∃ rest, ByteScan.peek b (ByteScan.skipWs b i) = some (byte d) ∧ Read.token d cs = some rest ∧
        At b (ByteScan.skipWs b i + 1) rest := by
  have hws := h.skipWs
  rw [ne_eq, hws.peek_iff hd]
  unfold Read.token
  cases hcs : Read.skipWs cs with
  | nil => exact .inl ⟨nofun, rfl⟩
  | cons c rest =>
    rw [hcs] at hws
    simp only [List.head?_cons, Option.some.injEq]
    split_ifs with hc
    · subst hc
      exact .inr ⟨rest, rfl, rfl, hws.next_ascii hd⟩
    · exact .inl ⟨hc, rfl⟩

theorem At.index_lt (h : At b i cs) (h' : At b j rest) (hsuffix : rest <:+ cs)
    (hlen : rest.length < cs.length) : i < j := by
  obtain ⟨front, rfl⟩ := hsuffix
  have hfront : 0 < front.length := by
    rw [List.length_append] at hlen
    omega
  have hle := length_le_encode front
  have htotal := h.length
  have htotal' := h'.length
  rw [encode_append, List.length_append] at htotal
  omega

/-- The scanner on bytes skips with this fuel as the one on characters does. -/
structure SkipsAlike (b : List UInt8) (f : ℕ) : Prop where
  value : ∀ {i cs}, At b i cs → 2 * cs.length + 1 ≤ f →
    Outcome.Agrees (At b) (skipValueLoop b f i) (Scan.skipValue f cs)
  members : ∀ {i cs}, At b i cs → 2 * cs.length + 2 ≤ f →
    Outcome.Agrees (At b) (skipMembers b f i) (Scan.skipMembers f cs)
  elements : ∀ {i cs}, At b i cs → 2 * cs.length + 2 ≤ f →
    Outcome.Agrees (At b) (skipElements b f i) (Scan.skipElements f cs)

variable {f : ℕ}

/-- A number or a literal. -/
theorem literal_agrees (h : At b i (c :: cs)) :
    let stop := runWhile b (fun x => !isDelimiter x) i
    Outcome.Agrees (At b) (if stop = i then .none else .ok stop)
      (if Scan.isDelimiter c then none else some (cs.dropWhile fun c => !Scan.isDelimiter c)) := by
  intro stop
  have hpred : ∀ c, ∀ x ∈ String.utf8EncodeChar c, (!isDelimiter x) = !Scan.isDelimiter c :=
    fun c x hx => congrArg _ (isDelimiter_mem hx)
  obtain ⟨x, hpeek, hhead⟩ := h.peek_cons
  have hx := isDelimiter_mem (List.mem_of_head? hhead)
  by_cases hdelim : Scan.isDelimiter c = true
  · have hstop : stop = i := runWhile_eq_self hpeek (by rw [hx, hdelim]; rfl)
    rw [if_pos hstop, if_pos hdelim]
    exact .none
  · have hrun := h.runWhile hpred
    rw [List.dropWhile_cons_of_pos (by simp only [hdelim, Bool.not_false])] at hrun
    have hsuffix := List.dropWhile_suffix (fun c => !Scan.isDelimiter c) (l := cs)
    have hlt := h.index_lt hrun (hsuffix.trans (List.suffix_cons c cs))
      (Nat.lt_succ_of_le hsuffix.length_le)
    rw [if_neg (Nat.ne_of_gt hlt), if_neg hdelim]
    exact .ok hrun

theorem SkipsAlike.value_succ (ih : SkipsAlike b f) (h : At b i cs)
    (hf : 2 * cs.length + 1 ≤ f + 1) :
    Outcome.Agrees (At b) (skipValueLoop b (f + 1) i) (Scan.skipValue (f + 1) cs) := by
  have hws := h.skipWs
  rw [skipValueLoop, Scan.skipValue]
  cases hcs : Read.skipWs cs with
  | nil =>
    rw [hcs] at hws
    rw [hws.peek_nil]
    exact .none
  | cons c cs' =>
    rw [hcs] at hws
    obtain ⟨x, hpeek, hhead⟩ := hws.peek_cons
    have hlen := Scan.length_of_skipWs hcs
    have hiff (d : Char) (hd : d.toNat < 0x80) : x = byte d ↔ c = d :=
      eq_byte_iff (List.mem_of_head? hhead) hd
    rw [hpeek]
    simp only [hiff '"' (by decide), hiff '\x7b' (by decide), hiff '[' (by decide)]
    by_cases hquote : c = '"'
    · subst hquote
      rw [if_pos rfl, if_pos rfl, Option.map_eq_bind]
      exact (string_agrees hws).bind fun r r' _ hr => .ok hr.2
    rw [if_neg hquote, if_neg hquote]
    by_cases hbrace : c = '\x7b'
    · subst hbrace
      rw [if_pos rfl, if_pos rfl]
      exact ih.members (hws.next_ascii (by decide)) (by omega)
    rw [if_neg hbrace, if_neg hbrace]
    by_cases hbracket : c = '['
    · subst hbracket
      rw [if_pos rfl, if_pos rfl]
      exact ih.elements (hws.next_ascii (by decide)) (by omega)
    rw [if_neg hbracket, if_neg hbracket]
    exact literal_agrees hws

theorem SkipsAlike.members_succ (ih : SkipsAlike b f) (h : At b i cs)
    (hf : 2 * cs.length + 2 ≤ f + 1) :
    Outcome.Agrees (At b) (skipMembers b (f + 1) i) (Scan.skipMembers (f + 1) cs) := by
  have hws := h.skipWs
  rw [skipMembers, Scan.skipMembers]
  cases hcs : Read.skipWs cs with
  | nil =>
    rw [hcs] at hws
    rw [hws.peek_nil]
    exact .none
  | cons c cs' =>
    rw [hcs] at hws
    obtain ⟨x, hpeek, hhead⟩ := hws.peek_cons
    have hlen := Scan.length_of_skipWs hcs
    have hiff (d : Char) (hd : d.toNat < 0x80) : x = byte d ↔ c = d :=
      eq_byte_iff (List.mem_of_head? hhead) hd
    rw [hpeek]
    simp only [hiff '\x7d' (by decide), hiff ',' (by decide)]
    by_cases hclose : c = '\x7d'
    · subst hclose
      rw [if_pos rfl, if_pos rfl]
      exact .ok (hws.next_ascii (by decide))
    rw [if_neg hclose, if_neg hclose]
    by_cases hcomma : c = ','
    · subst hcomma
      rw [if_pos rfl, if_pos rfl]
      exact ih.members (hws.next_ascii (by decide)) (by omega)
    rw [if_neg hcomma, if_neg hcomma]
    by_cases hquote : c = '"'
    · subst hquote
      rw [if_pos rfl]
      refine (string_agrees hws).bind fun r r' hstr hr => ?_
      have hname := Scan.strTail_length hstr
      rcases hr.2.token (show ':'.toNat < 0x80 by decide) with ⟨hnot, hnone⟩ | ⟨rest, hcolon, htoken, hat⟩
      · simp only [if_pos hnot, hnone]
        exact .none
      · have hrest := (Scan.token_suffix htoken).length_le
        rw [List.length_cons] at hrest
        simp only [if_neg (not_not.mpr hcolon), htoken]
        refine (ih.value hat (by omega)).bind fun k rest' hvalue hk => ?_
        have hshorter := ((Scan.skips _).value hvalue).shorter
        exact ih.members hk (by omega)
    · rw [if_neg hquote, string_eq_none hws (by simpa using hquote)]
      exact .none

theorem SkipsAlike.elements_succ (ih : SkipsAlike b f) (h : At b i cs)
    (hf : 2 * cs.length + 2 ≤ f + 1) :
    Outcome.Agrees (At b) (skipElements b (f + 1) i) (Scan.skipElements (f + 1) cs) := by
  have hws := h.skipWs
  rw [skipElements, Scan.skipElements]
  cases hcs : Read.skipWs cs with
  | nil =>
    rw [hcs] at hws
    rw [hws.peek_nil]
    exact .none
  | cons c cs' =>
    rw [hcs] at hws
    obtain ⟨x, hpeek, hhead⟩ := hws.peek_cons
    have hlen := (Scan.suffix_of_skipWs hcs).length_le
    rw [List.length_cons] at hlen
    have hiff (d : Char) (hd : d.toNat < 0x80) : x = byte d ↔ c = d :=
      eq_byte_iff (List.mem_of_head? hhead) hd
    rw [hpeek]
    simp only [hiff ']' (by decide), hiff ',' (by decide)]
    by_cases hclose : c = ']'
    · subst hclose
      rw [if_pos rfl, if_pos rfl]
      exact .ok (hws.next_ascii (by decide))
    rw [if_neg hclose, if_neg hclose]
    by_cases hcomma : c = ','
    · subst hcomma
      rw [if_pos rfl, if_pos rfl]
      exact ih.elements (hws.next_ascii (by decide)) (by omega)
    rw [if_neg hcomma, if_neg hcomma]
    refine (ih.value hws (by rw [List.length_cons]; omega)).bind fun k rest hvalue hk => ?_
    have hshorter := ((Scan.skips _).value hvalue).shorter
    rw [List.length_cons] at hshorter
    exact ih.elements hk (by omega)

end

theorem skipsAlike (b : List UInt8) (f : ℕ) : SkipsAlike b f := by
  induction f with
  | zero => exact ⟨fun _ h => by omega, fun _ h => by omega, fun _ h => by omega⟩
  | succ f ih => exact ⟨ih.value_succ, ih.members_succ, ih.elements_succ⟩

theorem skipValue_agrees {b : List UInt8} {i : ℕ} {cs : List Char} (h : At b i cs) :
    Outcome.Agrees (At b) (skipValue b i) (Scan.skip cs) := by
  have hlen := h.le_length
  have hvalue := (skipsAlike b (2 * b.length + 1)).value h (by omega)
  rwa [Scan.skipValue_eq_skip (by omega)] at hvalue

end ByteScan

end GbfrLan.Json
