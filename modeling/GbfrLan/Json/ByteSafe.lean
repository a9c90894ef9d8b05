import GbfrLan.Json.ByteSkip
import GbfrLan.Json.Scanned

/-!
# The scanner on bytes comes to an end without a panic

The accessors on the bytes of a text return what the accessors on the text do. So no loop is
without an end, every index is in the blob, and every slice is at the boundaries of characters,
whatever the text is.
-/
namespace GbfrLan.Json.ByteScan
open Lib Read

section

variable {b : List UInt8} {i j : ℕ} {c : Char} {cs rest : List Char}

/-! ### Finding a name -/

theorem length_encode_suffix (h : rest <:+ cs) : (encode rest).length ≤ (encode cs).length := by
  obtain ⟨front, rfl⟩ := h
  rw [encode_append, List.length_append]
  exact Nat.le_add_left _ _

/-- Bytes that are no quotes are passed. -/
theorem findLoop_pass (key : String) {n fuel : ℕ}
    (hpass : ∀ k < n, ∃ x, peek b (i + k) = some x ∧ x ≠ byte '"') :
    findLoop b key (fuel + n) i = findLoop b key fuel (i + n) := by
  induction n generalizing i with
  | zero => rfl
  | succ n ih =>
    obtain ⟨x, hpeek, hx⟩ := hpass 0 (Nat.succ_pos n)
    have hpeek' : peek b i = some x := hpeek
    have hrest : ∀ k < n, ∃ x, peek b (i + 1 + k) = some x ∧ x ≠ byte '"' := by
      intro k hk
      have hnext := hpass (k + 1) (by omega)
      rwa [Nat.add_comm k 1, ← Nat.add_assoc] at hnext
    rw [← Nat.add_assoc, findLoop, hpeek']
    simp only [if_neg hx]
    rw [ih hrest]
    congr 1
    omega

theorem At.pass (h : At b i (c :: cs)) (hc : c ≠ '"') :
    ∀ k < (String.utf8EncodeChar c).length, ∃ x, ByteScan.peek b (i + k) = some x ∧ x ≠ byte '"' := by
  intro k hk
  have hget := h.get k
  rw [encode_cons, List.getElem?_append_left hk, List.getElem?_eq_getElem hk] at hget
  refine ⟨_, hget, ?_⟩
  rw [ne_eq, eq_byte_iff (List.getElem_mem hk) (by decide)]
  exact hc

theorem find_quote_none (key : String) (hnone : Scan.strTail cs = none) :
    Scan.findValueStart ('"' :: cs) key = none := by
  rw [Scan.findValueStart, List.length_cons, Scan.findFrom, if_pos rfl, hnone]

theorem findLoop_agrees (key : String) {fuel : ℕ} (h : At b i cs)
    (hfuel : (encode cs).length < fuel) :
    Outcome.Agrees (At b) (findLoop b key fuel i) (Scan.findValueStart cs key) := by
  induction hn : cs.length using Nat.strong_induction_on generalizing i cs fuel with
  | _ n ih =>
  cases cs with
  | nil =>
    obtain ⟨fuel, rfl⟩ : ∃ f, fuel = f + 1 := ⟨fuel - 1, by omega⟩
    rw [findLoop, h.peek_nil, Scan.find_nil]
    exact .none
  | cons c cs =>
    rw [encode_cons, List.length_append] at hfuel
    rw [List.length_cons] at hn
    by_cases hc : c = '"'
    · subst hc
      obtain ⟨fuel, rfl⟩ : ∃ f, fuel = f + 1 := ⟨fuel - 1, by omega⟩
      have hquote := (h.peek_iff (show '"'.toNat < 0x80 by decide)).mpr rfl
      rw [findLoop, hquote]
      simp only [if_true]
      rcases (string_agrees h).elim with ⟨hstring, htail⟩ | ⟨r, r', hstring, htail, hr⟩
      · rw [hstring, find_quote_none key htail]
        exact .none
      · obtain ⟨text, j⟩ := r
        obtain ⟨s, rest⟩ := r'
        obtain ⟨heq, hat⟩ := hr
        simp only at heq hat
        subst heq
        obtain ⟨front, rfl, hfront⟩ := Scan.strTail_front htail
        rw [hstring, Scan.find_string hfront]
        have hkey : String.ofList text = key ↔ text = key.toList := by
          rw [← String.toList_inj, String.toList_ofList]
        simp only [Outcome.ok_bind, hkey]
        have hon : Outcome.Agrees (At b) (findLoop b key fuel (skipWs b j))
            (Scan.findValueStart rest key) := by
          have hsuffix : Read.skipWs rest <:+ rest := List.dropWhile_suffix _
          have hshort := length_encode_suffix (hsuffix.trans
            ((List.suffix_cons '"' rest).trans (List.suffix_append front _)))
          have hlen := hsuffix.length_le
          rw [List.length_append, List.length_cons] at hn
          have hpos := length_encodeChar_pos '"'
          have hrest := ih (Read.skipWs rest).length (by omega) hat.skipWs
            (show _ < fuel by omega) rfl
          rwa [Scan.find_skipWs] at hrest
        rcases hat.token (show ':'.toNat < 0x80 by decide) with
          ⟨hnot, hnone⟩ | ⟨after, hcolon, htoken, hat'⟩
        · rw [if_neg fun h => hnot h.1, hnone, if_neg (by simp)]
          exact hon
        · by_cases htext : text = key.toList
          · rw [if_pos ⟨hcolon, htext⟩, htoken, if_pos ⟨htext, rfl⟩]
            exact .ok hat'.skipWs
          · rw [if_neg fun h => htext h.2, if_neg fun h => htext h.1]
            exact hon
    · obtain ⟨fuel, rfl⟩ : ∃ f, fuel = f + (String.utf8EncodeChar c).length :=
        ⟨fuel - (String.utf8EncodeChar c).length, by omega⟩
      rw [findLoop_pass key (h.pass hc), Scan.find_cons hc]
      exact ih cs.length (by omega) h.next (by omega) rfl

theorem findValueStart_agrees (key : String) (cs : List Char) :
    Outcome.Agrees (At (encode cs)) (findValueStart (encode cs) key) (Scan.findValueStart cs key) :=
  findLoop_agrees key (.zero cs) (Nat.lt_succ_self _)

/-! ### Slices of the text -/

theorem isContinuation_head {x : UInt8} (hx : (String.utf8EncodeChar c).head? = some x) :
    Utf8.isContinuation x = false := by
  have hall : ∀ n : Fin 0x100, utf8Len (UInt8.ofNat n) ≠ 0 →
      Utf8.isContinuation (UInt8.ofNat n) = false := by decide +kernel
  have hbyte := hall ⟨x.toNat, x.toNat_lt⟩
  simp only [UInt8.ofNat_toNat] at hbyte
  have hpos := length_encodeChar_pos c
  rw [← utf8Len_head hx] at hpos
  exact hbyte (Nat.ne_of_gt hpos)

theorem At.isBoundary (h : At b i cs) : ByteScan.isBoundary b i = true := by
  unfold ByteScan.isBoundary
  cases cs with
  | nil =>
    have hpeek : b[i]? = none := h.peek_nil
    have hlen : b.length = i := h.length
    rw [hpeek]
    exact beq_iff_eq.mpr hlen.symm
  | cons c cs =>
    obtain ⟨x, hpeek, hhead⟩ := h.peek_cons
    have hget : b[i]? = some x := hpeek
    rw [hget]
    simp only [isContinuation_head hhead, Bool.not_false, Bool.true_or]

/-- The indices of a text that are no boundaries are inside its characters. -/
theorem isBoundary_eq_false_iff {cs : List Char} {n : ℕ} (h : n ≤ (encode cs).length) :
    isBoundary (encode cs) n = false ↔ Utf8.Inside cs n := by
  constructor
  · intro hno
    refine (Utf8.inside_or_front h).resolve_right ?_
    rintro ⟨front, back, rfl, rfl⟩
    have hat : At (encode (front ++ back)) (Utf8.size front) back := ⟨front, encode_append _ _, rfl⟩
    rw [hat.isBoundary] at hno
    cases hno
  · rintro ⟨front, c, back, rfl, hlow, hhigh⟩
    have hat : At (encode (front ++ c :: back)) (Utf8.size front) (c :: back) :=
      ⟨front, encode_append _ _, rfl⟩
    obtain ⟨j, rfl⟩ := Nat.exists_eq_add_of_lt hlow
    rw [Utf8.size_append, Utf8.size, Utf8.size, List.flatMap_singleton] at hhigh
    have hj : j + 1 < (String.utf8EncodeChar c).length := by omega
    have hget := hat.get (j + 1)
    rw [encode_cons, List.getElem?_append_left hj, List.getElem?_eq_getElem hj] at hget
    have htail : (String.utf8EncodeChar c)[j + 1] ∈ (String.utf8EncodeChar c).tail := by
      have hlt : j < (String.utf8EncodeChar c).tail.length := by
        rw [List.length_tail]
        omega
      rw [← List.getElem_tail (h := hlt)]
      exact List.getElem_mem hlt
    rw [isBoundary, Nat.add_assoc, hget]
    simp [Utf8.isContinuation_of_mem_tail htail]

/-- A slice from the front of a text panics exactly when it ends inside a character. -/
theorem textSlice_front_ok_iff {cs : List Char} {n : ℕ} (h : n ≤ (encode cs).length) :
    (∃ t, ByteScan.textSlice (encode cs) 0 n = .ok t) ↔ ¬Utf8.Inside cs n := by
  have hzero : ByteScan.isBoundary (encode cs) 0 = true := (At.zero cs).isBoundary
  rw [← isBoundary_eq_false_iff h, Bool.not_eq_false, ByteScan.textSlice]
  split_ifs with hends
  · have hslice : slice (encode cs) 0 n = .ok (((encode cs).take n).drop 0) := if_pos ⟨n.zero_le, h⟩
    rw [hslice]
    exact ⟨fun _ => hends.2, fun _ => ⟨_, rfl⟩⟩
  · exact ⟨nofun, fun hend => absurd ⟨hzero, hend⟩ hends⟩

theorem At.textSlice {t : List Char} (h : At b i (t ++ cs)) (h' : At b j cs) :
    ByteScan.textSlice b i j = .ok (String.ofList t) := by
  have hlen := h.length
  rw [encode_append, List.length_append] at hlen
  have hlen' := h'.length
  have hj : j = i + (encode t).length := by omega
  have hread := Utf8.decodeLossy_bytes (String.ofList t)
  rw [Utf8.bytes, String.toList_ofList] at hread
  rw [ByteScan.textSlice, if_pos ⟨h.isBoundary, h'.isBoundary⟩, hj, h.slice]
  exact congrArg Outcome.ok hread

theorem upTo_append_of_suffix (h : rest <:+ cs) : Scan.upTo cs rest ++ rest = cs := by
  obtain ⟨t, rfl⟩ := h
  rw [Scan.upTo_append]

/-! ### Values -/

/-- A value that was found: its kind, its start and its end. -/
structure Spanned (b : List UInt8) (r : Scan.Kind × ℕ × ℕ) (r' : Scan.Kind × List Char × List Char) :
    Prop where
  kind : r.1 = r'.1
  start : At b r.2.1 r'.2.1
  shape : ∃ c cs, r'.2.1 = c :: cs ∧ r'.1 = Scan.kindAt c r'.2.2
  stop : ∃ after, r'.2.1 = r'.2.2 ++ after ∧ At b r.2.2 after

theorem kindAt_cases (c : Char) (raw : List Char) :
    (c = '"' ∧ Scan.kindAt c raw = .str) ∨ (c = '\x7b' ∧ Scan.kindAt c raw = .object) ∨
      (c = '[' ∧ Scan.kindAt c raw = .array) ∨
        (Scan.kindAt c raw = .scalar ∨ Scan.kindAt c raw = .null) := by
  unfold Scan.kindAt
  split_ifs with hquote hbrace hbracket hnull
  · exact .inl ⟨hquote, rfl⟩
  · exact .inr (.inl ⟨hbrace, rfl⟩)
  · exact .inr (.inr (.inl ⟨hbracket, rfl⟩))
  · exact .inr (.inr (.inr (.inr rfl)))
  · exact .inr (.inr (.inr (.inl rfl)))

theorem kindAt_n (raw : List Char) :
    Scan.kindAt 'n' raw = if raw = "null".toList then .null else .scalar := by
  unfold Scan.kindAt
  simp only [show 'n' ≠ '"' by decide, show 'n' ≠ '\x7b' by decide, show 'n' ≠ '[' by decide,
    if_false, true_and]

theorem encode_injective {t t' : List Char} (h : encode t = encode t') : t = t' := by
  have hread := Utf8.decodeLossy_bytes (String.ofList t)
  have hread' := Utf8.decodeLossy_bytes (String.ofList t')
  rw [Utf8.bytes, String.toList_ofList] at hread hread'
  rw [← @String.toList_ofList t, ← @String.toList_ofList t', ← hread, ← hread']
  exact congrArg (fun bs => (Utf8.decodeLossy bs).toList) h

theorem span_agrees (key : String) (cs : List Char) :
    Outcome.Agrees (Spanned (encode cs)) (span (encode cs) key) (Scan.span cs key) := by
  unfold span Scan.span
  rcases (findValueStart_agrees key cs).elim with ⟨hbytes, hchars⟩ | ⟨i, start, hbytes, hchars, hat⟩
  · rw [hbytes, hchars]
    exact .none
  · rw [hbytes, hchars, Outcome.ok_bind]
    cases start with
    | nil =>
      rw [hat.peek_nil]
      exact .none
    | cons c start =>
      obtain ⟨x, hpeek, hhead⟩ := hat.peek_cons
      have hiff (d : Char) (hd : d.toNat < 0x80) : x = byte d ↔ c = d :=
        eq_byte_iff (List.mem_of_head? hhead) hd
      rw [hpeek]
      simp only
      rcases (skipValue_agrees hat).elim with ⟨hskip, hskip'⟩ | ⟨j, after, hskip, hskip', hstop⟩
      · rw [hskip, hskip']
        exact .none
      · have hupTo := upTo_append_of_suffix (Scan.skip_consumed hskip').suffix
        set raw := Scan.upTo (c :: start) after with hraw
        have hat' : At (encode cs) i (raw ++ after) := hupTo ▸ hat
        have hj : j = i + (encode raw).length := by
          have hlen := hat'.length
          have hlen' := hstop.length
          rw [encode_append, List.length_append] at hlen
          omega
        have hspanned (k : Scan.Kind) (hk : k = Scan.kindAt c raw) :
            Outcome.Agrees (Spanned (encode cs)) (.ok (k, i, j))
              (some (Scan.kindAt c raw, c :: start, raw)) :=
          .ok ⟨hk, hat, ⟨c, start, rfl, rfl⟩, ⟨after, hupTo.symm, hstop⟩⟩
        rw [hskip, hskip', Outcome.ok_bind, Option.map_some]
        simp only [hiff 't' (by decide), hiff 'f' (by decide), hiff 'n' (by decide), kindAt,
          hiff '"' (by decide), hiff '\x7b' (by decide), hiff '[' (by decide)]
        by_cases htf : c = 't' ∨ c = 'f'
        · rw [if_pos htf]
          refine hspanned _ ?_
          rcases htf with rfl | rfl
          · rfl
          · rfl
        rw [if_neg htf]
        by_cases hn : c = 'n'
        · have hnull : encode raw = Utf8.bytes "null" ↔ raw = "null".toList :=
            ⟨fun h => encode_injective h, fun h => congrArg encode h⟩
          rw [if_pos hn, hj, hat'.slice, Outcome.ok_bind, ← hj]
          refine hspanned _ ?_
          subst hn
          rw [kindAt_n]
          simp only [hnull]
        · rw [if_neg hn]
          refine hspanned _ ?_
          simp only [Scan.kindAt, hn, false_and, if_false]

/-! ### The accessors -/

theorem jsonStr_agrees (key : String) (cs : List Char) :
    Outcome.Agrees (· = ·) (jsonStr (encode cs) key) (Scan.jsonStr cs key) := by
  refine (span_agrees key cs).bind fun r r' _ hr => ?_
  obtain ⟨kind, i, j⟩ := r
  obtain ⟨kind', start, raw⟩ := r'
  obtain ⟨hkind, hat, ⟨c, tail, hstart, hshape⟩, ⟨after, htext, hstop⟩⟩ := hr
  simp only at hkind hat hstart hshape htext hstop ⊢
  subst hkind
  rcases kindAt_cases c raw with ⟨hc, hk⟩ | ⟨-, hk⟩ | ⟨-, hk⟩ | hk | hk
  · rw [hstart, hc] at hat
    rw [hshape, hk, hstart, List.tail_cons, Option.map_eq_bind]
    exact (string_agrees hat).bind fun r r' _ hr => .ok (congrArg String.ofList hr.1)
  · rw [hshape, hk]
    exact .none
  · rw [hshape, hk]
    exact .none
  · rw [htext] at hat
    rw [hshape, hk, hat.textSlice hstop]
    exact .ok rfl
  · rw [hshape, hk]
    exact .none

theorem ascii_of_isNumeric (h : Scan.isNumeric c = true) : c.toNat < 0x80 := by
  simp only [Scan.isNumeric, Bool.or_eq_true, beq_iff_eq] at h
  rcases h with ((((h | rfl) | rfl) | rfl) | rfl) | rfl
  · simp only [Char.isDigit, Bool.and_eq_true, decide_eq_true_eq, ge_iff_le, UInt32.le_iff_toNat_le] at h
    exact Nat.lt_of_le_of_lt h.2 (by decide)
  all_goals decide

theorem isNumeric_mem {x : UInt8} (hx : x ∈ String.utf8EncodeChar c) :
    isNumeric x = Scan.isNumeric c := by
  by_cases hc : c.toNat < 0x80
  · have hall : ∀ n : Fin 0x80, isNumeric (Char.ofNat n).toUInt8 = Scan.isNumeric (Char.ofNat n) := by
      decide +kernel
    have hascii := hall ⟨c.toNat, hc⟩
    simp only [Char.ofNat_toNat] at hascii
    rw [Utf8.encode_of_ascii hc, List.mem_singleton] at hx
    rw [hx, hascii]
  · have hall : ∀ n : Fin 0x80, isNumeric (UInt8.ofNat (n + 0x80)) = false := by decide +kernel
    have hhigh := Utf8.high_of_mem_encode (not_lt.mp hc) hx
    have hlt := x.toNat_lt
    have hfalse := hall ⟨x.toNat - 0x80, by omega⟩
    simp only [Nat.sub_add_cancel hhigh, UInt8.ofNat_toNat] at hfalse
    rw [hfalse, eq_comm]
    by_contra hnumeric
    rw [Bool.not_eq_false] at hnumeric
    exact hc (ascii_of_isNumeric hnumeric)

theorem all_isNumeric (cs : List Char) : (encode cs).all isNumeric = cs.all Scan.isNumeric := by
  induction cs with
  | nil => rfl
  | cons c cs ih =>
    obtain ⟨x, xs, hx⟩ := List.exists_cons_of_ne_nil
      (List.length_pos_iff.mp (length_encodeChar_pos c))
    have hall : (String.utf8EncodeChar c).all isNumeric = Scan.isNumeric c := by
      rw [Bool.eq_iff_iff, List.all_eq_true]
      constructor
      · intro h
        have hmem : x ∈ String.utf8EncodeChar c := hx ▸ List.mem_cons_self
        exact (isNumeric_mem hmem).symm.trans (h x hmem)
      · exact fun h y hy => (isNumeric_mem hy).trans h
    rw [encode_cons, List.all_append, List.all_cons, ih, hall]

theorem jsonNum_agrees (key : String) (cs : List Char) :
    Outcome.Agrees (· = ·) (jsonNum (encode cs) key) (Scan.jsonNum cs key) := by
  refine (span_agrees key cs).bind fun r r' _ hr => ?_
  obtain ⟨kind, i, j⟩ := r
  obtain ⟨kind', start, raw⟩ := r'
  obtain ⟨hkind, hat, -, ⟨after, htext, hstop⟩⟩ := hr
  simp only at hkind hat htext hstop ⊢
  subst hkind
  rw [htext] at hat
  have hempty : String.ofList raw = "" ↔ raw = [] := by
    rw [← String.toList_inj, String.toList_ofList]
    rfl
  by_cases hk : kind = .scalar
  · rw [if_neg (not_not.mpr hk), if_neg (not_not.mpr hk), hat.textSlice hstop, Outcome.ok_bind,
      Utf8.bytes, String.toList_ofList]
    simp only [hempty, all_isNumeric raw]
    split_ifs
    · exact .none
    · exact .ok rfl
  · rw [if_pos hk, if_pos hk]
    exact .none

/-- What `json_obj` keeps of a value that was skipped and is no container. -/
theorem valueText_eq {start after : List Char} {x : UInt8} (h : At b i (c :: start))
    (hx : (String.utf8EncodeChar c).head? = some x) (hskip : Scan.skip (c :: start) = some after)
    (h' : At b j after) (hc : ¬(c = '\x7b' ∨ c = '[')) :
    ∃ v, valueText b x i j = .ok v ∧ Scan.scalarOf (c :: start) after = some v := by
  have htext := upTo_append_of_suffix (Scan.skip_consumed hskip).suffix
  have hat : At b i (Scan.upTo (c :: start) after ++ after) := by
    rw [htext]
    exact h
  have hquote : x = byte '"' ↔ c = '"' := eq_byte_iff (List.mem_of_head? hx) (by decide)
  have hnull : String.ofList (Scan.upTo (c :: start) after) = "null" ↔
      Scan.upTo (c :: start) after = "null".toList := by
    rw [← String.toList_inj, String.toList_ofList]
  rw [valueText, hat.textSlice h', Outcome.ok_bind, Scan.scalarOf, if_neg hc]
  simp only [hquote, hnull]
  by_cases hq : c = '"'
  · subst hq
    obtain ⟨s, hstr⟩ := Scan.strTail_of_skip hskip
    rcases (string_agrees h).elim with ⟨-, hnone⟩ | ⟨r, r', hstring, hr', hr⟩
    · rw [hstr] at hnone
      cases hnone
    · rw [hstr] at hr'
      cases hr'
      refine ⟨String.ofList s, ?_, ?_⟩
      · rw [if_pos rfl, hstring, Outcome.ok_bind]
        exact congrArg (Outcome.ok ∘ String.ofList) hr.1
      · rw [if_pos rfl, hstr]
        rfl
  · rw [if_neg hq, if_neg hq]
    exact ⟨_, rfl, rfl⟩

theorem keep_some (out : OrdMap String String) (k v : String) :
    Scan.keep out k (some v) = if k ≠ "" ∧ out.size < objectCap then out.insert k v else out := by
  unfold Scan.keep
  simp only [String.isEmpty_iff]
  by_cases hk : k = ""
  · rw [if_pos (.inl hk), if_neg fun h => h.1 hk]
  · by_cases hsize : objectCap ≤ out.size
    · rw [if_pos (.inr hsize), if_neg fun h => Nat.not_lt.mpr hsize h.2]
    · rw [if_neg fun h => h.elim hk hsize, if_pos ⟨hk, Nat.lt_of_not_le hsize⟩]

theorem objLoop_eq {f g : ℕ} {out : OrdMap String String} (h : At b i cs) (hf : cs.length < f)
    (hg : cs.length < g) : objLoop b f i out = .ok (Scan.objLoop g cs out) := by
  induction f generalizing g i cs out with
  | zero => omega
  | succ f ih =>
    obtain ⟨g, rfl⟩ : ∃ n, g = n + 1 := ⟨g - 1, by omega⟩
    have hws := h.skipWs
    rw [objLoop, Scan.objLoop]
    cases hcs : Read.skipWs cs with
    | nil =>
      rw [hcs] at hws
      rw [hws.peek_nil]
    | cons c rest =>
      rw [hcs] at hws
      obtain ⟨x, hpeek, hhead⟩ := hws.peek_cons
      have hlen := Scan.length_of_skipWs hcs
      have hiff (d : Char) (hd : d.toNat < 0x80) : x = byte d ↔ c = d :=
        eq_byte_iff (List.mem_of_head? hhead) hd
      rw [hpeek]
      simp only [hiff '\x7d' (by decide), hiff ',' (by decide)]
      by_cases hclose : c = '\x7d'
      · rw [if_pos hclose, if_pos hclose]
      rw [if_neg hclose, if_neg hclose]
      by_cases hcomma : c = ','
      · subst hcomma
        rw [if_pos rfl, if_pos rfl]
        exact ih (hws.next_ascii (by decide)) (by omega) (by omega)
      rw [if_neg hcomma, if_neg hcomma]
      by_cases hquote : c = '"'
      · subst hquote
        rw [if_pos rfl]
        rcases (string_agrees hws).elim with ⟨hstring, htail⟩ | ⟨r, r', hstring, htail, hr⟩
        · rw [hstring, htail]
          rfl
        obtain ⟨k, n⟩ := r
        obtain ⟨k', rest₁⟩ := r'
        obtain ⟨heq, hat⟩ := hr
        simp only at heq hat
        subst heq
        have hlen₁ := Scan.strTail_length htail
        rw [hstring, htail]
        simp only [Outcome.option_ok, Outcome.ok_bind]
        rcases hat.token (show ':'.toNat < 0x80 by decide) with
          ⟨hnot, hnone⟩ | ⟨rest₂, hcolon, htoken, hat⟩
        · rw [if_pos hnot, hnone]
        have hlen₂ := (Scan.token_suffix htoken).length_le
        rw [List.length_cons] at hlen₂
        simp only [if_neg (not_not.mpr hcolon), htoken]
        have hvalue := hat.skipWs
        have hlen₃ := Scan.length_skipWs_le rest₂
        cases hstart : Read.skipWs rest₂ with
        | nil =>
          rw [hstart] at hvalue
          rw [hvalue.peek_nil]
          rfl
        | cons d start =>
          rw [hstart] at hvalue hlen₃
          obtain ⟨y, hfirst, hy⟩ := hvalue.peek_cons
          have hbyte (e : Char) (he : e.toNat < 0x80) : y = byte e ↔ d = e :=
            eq_byte_iff (List.mem_of_head? hy) he
          rw [hfirst]
          simp only [hbyte '\x7b' (by decide), hbyte '[' (by decide)]
          rcases (skipValue_agrees hvalue).elim with
            ⟨hskip, hskip'⟩ | ⟨stop, after, hskip, hskip', hstop⟩
          · rw [hskip, hskip']
            rfl
          have hlen₄ := (Scan.skip_consumed hskip').shorter
          rw [hskip, hskip']
          simp only [Outcome.option_ok, Outcome.ok_bind]
          by_cases hd : d = '\x7b' ∨ d = '['
          · rw [if_pos hd, Scan.scalarOf, if_pos hd]
            exact ih hstop (by omega) (by omega)
          · obtain ⟨v, hv, hscalar⟩ := valueText_eq hvalue hy hskip' hstop hd
            rw [if_neg hd, hv, hscalar, keep_some]
            exact ih hstop (by omega) (by omega)
      · rw [if_neg hquote, string_eq_none hws (by simpa using hquote)]
        rfl

theorem jsonObj_eq (key : String) (cs : List Char) :
    jsonObj (encode cs) key = .ok (Scan.jsonObj cs key) := by
  unfold jsonObj Scan.jsonObj
  rcases (span_agrees key cs).elim with ⟨hspan, hspan'⟩ | ⟨r, r', hspan, hspan', hr⟩
  · rw [hspan, hspan']
    rfl
  obtain ⟨kind, i, j⟩ := r
  obtain ⟨kind', start, raw⟩ := r'
  obtain ⟨hkind, hat, ⟨c, tail, hstart, hshape⟩, -⟩ := hr
  simp only at hkind hat hstart hshape
  subst hkind
  rw [hspan, hspan']
  simp only [Outcome.option_ok, Outcome.ok_bind]
  rcases kindAt_cases c raw with ⟨-, hk⟩ | ⟨hc, hk⟩ | ⟨-, hk⟩ | hk | hk
  · rw [hshape, hk]
  · rw [hstart, hc] at hat
    have hnext := hat.next_ascii (by decide)
    have hlen := hnext.le_length
    rw [hshape, hk, hstart]
    simp only [List.length_cons, List.tail_cons]
    exact objLoop_eq hnext (by omega) (by omega)
  · rw [hshape, hk]
  · rw [hshape, hk]
  · rw [hshape, hk]

theorem arrLoop_full (g : ℕ) (cs : List Char) : Scan.arrLoop g 0 cs = [] := by
  cases g with
  | zero => rfl
  | succ g => rfl

theorem arrLoop_eq {f g room : ℕ} {out : List String} (h : At b i cs) (hf : cs.length < f)
    (hg : cs.length < g) (hroom : out.length + room = arrayCap) (hpos : 0 < room) :
    arrLoop b f i out = .ok (out ++ (Scan.arrLoop g room cs).map String.ofList) := by
  induction f generalizing g i cs out room with
  | zero => omega
  | succ f ih =>
    obtain ⟨g, rfl⟩ : ∃ n, g = n + 1 := ⟨g - 1, by omega⟩
    obtain ⟨room, rfl⟩ : ∃ n, room = n + 1 := ⟨room - 1, by omega⟩
    have hws := h.skipWs
    rw [arrLoop, Scan.arrLoop]
    cases hcs : Read.skipWs cs with
    | nil =>
      rw [hcs] at hws
      rw [hws.peek_nil, List.map_nil, List.append_nil]
    | cons c rest =>
      rw [hcs] at hws
      obtain ⟨x, hpeek, hhead⟩ := hws.peek_cons
      have hlen := (Scan.suffix_of_skipWs hcs).length_le
      rw [List.length_cons] at hlen
      have hiff (d : Char) (hd : d.toNat < 0x80) : x = byte d ↔ c = d :=
        eq_byte_iff (List.mem_of_head? hhead) hd
      rw [hpeek]
      simp only [hiff ']' (by decide), hiff ',' (by decide)]
      by_cases hclose : c = ']'
      · rw [if_pos hclose, if_pos hclose, List.map_nil, List.append_nil]
      rw [if_neg hclose, if_neg hclose]
      by_cases hcomma : c = ','
      · subst hcomma
        rw [if_pos rfl, if_pos rfl]
        exact ih (hws.next_ascii (by decide)) (by omega) (by omega) hroom hpos
      rw [if_neg hcomma, if_neg hcomma]
      rcases (skipValue_agrees hws).elim with
        ⟨hskip, hskip'⟩ | ⟨stop, after, hskip, hskip', hstop⟩
      · rw [hskip, hskip', List.map_nil, List.append_nil]
        rfl
      have hafter := Scan.skip_consumed hskip'
      have hlen₁ := hafter.shorter
      rw [List.length_cons] at hlen₁
      have hat : At b (skipWs b i) (Scan.upTo (c :: rest) after ++ after) :=
        (upTo_append_of_suffix hafter.suffix).symm ▸ hws
      rw [hskip, hskip']
      simp only [Outcome.option_ok, Outcome.ok_bind, hat.textSlice hstop, List.length_append,
        List.length_singleton, List.map_cons]
      split_ifs with hfull
      · obtain rfl : room = 0 := by omega
        rw [arrLoop_full]
        rfl
      · have hrest := @ih stop after g room (out ++ [String.ofList (Scan.upTo (c :: rest) after)]) hstop
          (by omega) (by omega) (by rw [List.length_append, List.length_singleton]; omega) (by omega)
        rw [hrest, List.append_assoc]
        rfl

theorem jsonArrObjects_eq (key : String) (cs : List Char) :
    jsonArrObjects (encode cs) key = .ok ((Scan.jsonArrObjects cs key).map String.ofList) := by
  unfold jsonArrObjects Scan.jsonArrObjects
  rcases (span_agrees key cs).elim with ⟨hspan, hspan'⟩ | ⟨r, r', hspan, hspan', hr⟩
  · rw [hspan, hspan']
    rfl
  obtain ⟨kind, i, j⟩ := r
  obtain ⟨kind', start, raw⟩ := r'
  obtain ⟨hkind, hat, ⟨c, tail, hstart, hshape⟩, -⟩ := hr
  simp only at hkind hat hstart hshape
  subst hkind
  rw [hspan, hspan']
  simp only [Outcome.option_ok, Outcome.ok_bind]
  rcases kindAt_cases c raw with ⟨-, hk⟩ | ⟨-, hk⟩ | ⟨hc, hk⟩ | hk | hk
  · rw [hshape, hk, List.map_nil]
  · rw [hshape, hk, List.map_nil]
  · rw [hstart, hc] at hat
    have hnext := hat.next_ascii (by decide)
    have hlen := hnext.le_length
    rw [hshape, hk, hstart]
    simp only [List.length_cons, List.tail_cons]
    exact arrLoop_eq hnext (by omega) (by omega) (Nat.zero_add _) (by decide)
  · rw [hshape, hk, List.map_nil]
  · rw [hshape, hk, List.map_nil]

end

/-- The accessors on the bytes of a text are those on the text. -/
theorem accessors_eq (s key : String) :
    jsonStr (Utf8.bytes s) key = Outcome.ofOption (Scan.jsonStr s.toList key) ∧
    jsonNum (Utf8.bytes s) key = Outcome.ofOption (Scan.jsonNum s.toList key) ∧
    jsonObj (Utf8.bytes s) key = .ok (Scan.jsonObj s.toList key) ∧
    jsonArrObjects (Utf8.bytes s) key =
      .ok ((Scan.jsonArrObjects s.toList key).map String.ofList) :=
  ⟨(jsonStr_agrees key s.toList).eq, (jsonNum_agrees key s.toList).eq, jsonObj_eq key s.toList,
    jsonArrObjects_eq key s.toList⟩

/-- Whatever the text is and whatever is looked for, each accessor comes to an end, and neither
indexes outside of the text nor slices it inside a character. -/
theorem accessors_safe (s key : String) :
    (jsonStr (Utf8.bytes s) key).Safe ∧ (jsonNum (Utf8.bytes s) key).Safe ∧
    (jsonObj (Utf8.bytes s) key).Safe ∧ (jsonArrObjects (Utf8.bytes s) key).Safe := by
  refine ⟨(jsonStr_agrees key s.toList).safe, (jsonNum_agrees key s.toList).safe, ?_, ?_⟩
  · rw [Utf8.bytes, jsonObj_eq]
    exact Outcome.safe_ok _
  · rw [Utf8.bytes, jsonArrObjects_eq]
    exact Outcome.safe_ok _

end GbfrLan.Json.ByteScan
