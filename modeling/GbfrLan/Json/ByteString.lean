import GbfrLan.Json.BytePlace
import GbfrLan.Json.Write

/-!
# Strings in the bytes of a text

In the bytes of a text `string` reads what `strTail` reads in the text, and stops at the same
place. `strTail_step` is the turn of its loop on characters: what stands for one character is read
by `strChar`.
-/
namespace GbfrLan.Json.ByteScan
open Lib

/-- The same result, and the index in front of what is left. -/
def SameAt {α : Type} (b : List UInt8) (r : α × ℕ) (r' : α × List Char) : Prop :=
  r.1 = r'.1 ∧ At b r.2 r'.2

/-! ### On characters -/

def hexChars : ℕ → ℕ → List Char → Option (ℕ × List Char)
  | 0, v, cs => some (v, cs)
  | _ + 1, _, [] => none
  | n + 1, v, c :: cs => (Read.hexDigit c).bind fun d => hexChars n (16 * v + d) cs

def lowChars : List Char → Option (ℕ × List Char)
  | s :: u :: cs =>
      if s = '\\' ∧ u = 'u' then
        (hexChars 4 0 cs).bind fun (lo, cs) => if Read.isLowSurrogate lo then some (lo, cs) else none
      else none
  | _ => none

def unicodeChars (cs : List Char) : Option (Char × List Char) :=
  (hexChars 4 0 cs).bind fun (hi, cs) =>
    if Read.isHighSurrogate hi then
      (lowChars cs).bind fun (lo, cs) =>
        some (Char.ofNat (0x10000 + (hi - 0xD800) * 0x400 + (lo - 0xDC00)), cs)
    else if Read.isLowSurrogate hi then none
    else some (Char.ofNat hi, cs)

def escapeChars : List Char → Option (Char × List Char)
  | [] => none
  | e :: cs => if e = 'u' then unicodeChars cs else (Read.shortEscape e).map fun c => (c, cs)

/-- What stands for one character, from its first one on. -/
def strChar (c : Char) (cs : List Char) : Option (Char × List Char) :=
  if c = '\\' then escapeChars cs else some (c, cs)

theorem hexChars_length {n v w : ℕ} {cs rest : List Char} (h : hexChars n v cs = some (w, rest)) :
    cs.length = n + rest.length := by
  induction n generalizing v cs with
  | zero =>
    cases h
    exact (Nat.zero_add _).symm
  | succ n ih =>
    cases cs with
    | nil => cases h
    | cons c cs =>
      obtain ⟨d, -, h⟩ := Option.bind_eq_some_iff.mp h
      rw [List.length_cons, ih h]
      omega

theorem hexChars_lt {n v w : ℕ} {cs rest : List Char} (h : hexChars n v cs = some (w, rest)) :
    w < 16 ^ n * (v + 1) := by
  induction n generalizing v cs with
  | zero =>
    cases h
    omega
  | succ n ih =>
    cases cs with
    | nil => cases h
    | cons c cs =>
      obtain ⟨d, hd, h⟩ := Option.bind_eq_some_iff.mp h
      have hd := Read.hexDigit_lt hd
      calc w < 16 ^ n * (16 * v + d + 1) := ih h
        _ ≤ 16 ^ n * (16 * (v + 1)) := Nat.mul_le_mul_left _ (by omega)
        _ = 16 ^ (n + 1) * (v + 1) := by rw [pow_succ, Nat.mul_assoc]

theorem hexChars_short {n v : ℕ} {cs : List Char} (h : cs.length < n) : hexChars n v cs = none := by
  cases hchars : hexChars n v cs with
  | none => rfl
  | some r =>
    have hlen := @hexChars_length _ _ r.1 _ r.2 hchars
    omega

theorem hexChars_four (x y z w : Char) (cs : List Char) :
    hexChars 4 0 (x :: y :: z :: w :: cs) = (Read.hex4 x y z w).map fun n => (n, cs) := by
  simp only [hexChars, Read.hex4, Nat.mul_zero, Nat.zero_add]
  cases Read.hexDigit x with
  | none => rfl
  | some a =>
    cases Read.hexDigit y with
    | none => rfl
    | some b =>
      cases Read.hexDigit z with
      | none => rfl
      | some c => cases Read.hexDigit w <;> rfl

theorem lowChars_short {cs : List Char} (h : cs.length < 6) : lowChars cs = none := by
  rcases cs with _ | ⟨s, _ | ⟨u, cs⟩⟩
  · rfl
  · rfl
  · rw [lowChars]
    split_ifs with hsu
    · simp only [List.length_cons] at h
      rw [hexChars_short (by omega)]
      rfl
    · rfl

theorem lowChars_six (s u x y z w : Char) (cs : List Char) :
    lowChars (s :: u :: x :: y :: z :: w :: cs) =
      (Read.hex4 x y z w).bind fun lo =>
        if s = '\\' ∧ u = 'u' ∧ Read.isLowSurrogate lo then some (lo, cs) else none := by
  rw [lowChars, hexChars_four]
  cases Read.hex4 x y z w with
  | none => split_ifs <;> rfl
  | some lo =>
    by_cases hsu : s = '\\' ∧ u = 'u'
    · rw [if_pos hsu]
      simp only [Option.map_some, Option.bind_some, hsu.1, hsu.2, true_and]
    · rw [if_neg hsu]
      simp only [Option.bind_some]
      rw [if_neg fun h => hsu ⟨h.1, h.2.1⟩]

/-- The characters of a surrogate pair, of which the first half is known. -/
theorem strTail_high {x y z w : Char} {hi : ℕ} (hhex : Read.hex4 x y z w = some hi)
    (hhigh : Read.isHighSurrogate hi = true) (cs : List Char) :
    Scan.strTail ('\\' :: 'u' :: x :: y :: z :: w :: cs) =
      (lowChars cs).bind fun (lo, cs) => (Scan.strTail cs).map fun (s, rest) =>
        (Char.ofNat (0x10000 + (hi - 0xD800) * 0x400 + (lo - 0xDC00)) :: s, rest) := by
  rw [Scan.strTail.eq_def]
  rcases cs with _ | ⟨s, _ | ⟨u, _ | ⟨x', _ | ⟨y', _ | ⟨z', _ | ⟨w', cs⟩⟩⟩⟩⟩⟩
  case cons.cons.cons.cons.cons.cons =>
    rw [lowChars_six]
    cases hhex' : Read.hex4 x' y' z' w' with
    | none => simp [hhex, hhigh, hhex']
    | some lo =>
      by_cases hlow : s = '\\' ∧ u = 'u' ∧ Read.isLowSurrogate lo = true
      · simp [hhex, hhigh, hhex', hlow]
      · simp [hhex, hhigh, hhex', hlow]
  all_goals
    rw [lowChars_short (by simp)]
    simp [hhex, hhigh]

theorem strTail_unicodeChars (cs : List Char) :
    Scan.strTail ('\\' :: 'u' :: cs) =
      (unicodeChars cs).bind fun (c, cs) => (Scan.strTail cs).map fun (s, rest) => (c :: s, rest) := by
  rw [unicodeChars]
  rcases cs with _ | ⟨x, _ | ⟨y, _ | ⟨z, _ | ⟨w, cs⟩⟩⟩⟩
  case cons.cons.cons.cons =>
    rw [hexChars_four]
    cases hhex : Read.hex4 x y z w with
    | none =>
      rw [Scan.strTail.eq_def]
      simp [hhex]
    | some hi =>
      simp only [Option.map_some, Option.bind_some]
      split_ifs with hhigh hlow
      · rw [strTail_high hhex hhigh]
        cases lowChars cs with
        | none => simp only [Option.bind_none]
        | some r => simp only [Option.bind_some]
      · rw [Scan.strTail.eq_def]
        simp [hhex, hhigh, hlow]
      · exact Scan.strTail_unicode hhex hhigh hlow cs
  all_goals
    rw [Scan.strTail.eq_def]
    simp [hexChars]

theorem strTail_step {c : Char} (hc : c ≠ '"') (cs : List Char) :
    Scan.strTail (c :: cs) =
      (strChar c cs).bind fun (c, cs) => (Scan.strTail cs).map fun (s, rest) => (c :: s, rest) := by
  unfold strChar
  split_ifs with hback
  · subst hback
    cases cs with
    | nil => rfl
    | cons e cs =>
      rw [escapeChars]
      split_ifs with hu
      · rw [hu, strTail_unicodeChars]
      · cases hshort : Read.shortEscape e with
        | none =>
          rw [Scan.strTail.eq_def]
          simp [hu, hshort]
        | some c => exact Scan.strTail_short hshort hu cs
  · exact Scan.strTail_plain hc hback cs

theorem lowChars_length {cs rest : List Char} {lo : ℕ} (h : lowChars cs = some (lo, rest)) :
    rest.length ≤ cs.length := by
  rcases cs with _ | ⟨s, _ | ⟨u, cs⟩⟩
  · cases h
  · cases h
  · rw [lowChars] at h
    split_ifs at h
    obtain ⟨⟨lo', cs'⟩, hhex, h⟩ := Option.bind_eq_some_iff.mp h
    have hlen := hexChars_length hhex
    simp only [Option.ite_none_right_eq_some, Option.some.injEq, Prod.mk.injEq] at h
    obtain ⟨-, -, rfl⟩ := h
    simp only [List.length_cons]
    omega

theorem isLowSurrogate_of_lowChars {cs rest : List Char} {lo : ℕ} (h : lowChars cs = some (lo, rest)) :
    Read.isLowSurrogate lo = true := by
  rcases cs with _ | ⟨s, _ | ⟨u, cs⟩⟩
  · cases h
  · cases h
  · rw [lowChars] at h
    split_ifs at h
    obtain ⟨⟨lo', cs'⟩, -, h⟩ := Option.bind_eq_some_iff.mp h
    simp only [Option.ite_none_right_eq_some, Option.some.injEq, Prod.mk.injEq] at h
    obtain ⟨hlow, rfl, -⟩ := h
    exact hlow

theorem unicodeChars_length {c : Char} {cs rest : List Char} (h : unicodeChars cs = some (c, rest)) :
    rest.length ≤ cs.length := by
  obtain ⟨⟨hi, cs'⟩, hhex, h⟩ := Option.bind_eq_some_iff.mp h
  have hlen := hexChars_length hhex
  simp only at h
  split_ifs at h
  · obtain ⟨⟨lo, cs''⟩, hlow, h⟩ := Option.bind_eq_some_iff.mp h
    have hlow := lowChars_length hlow
    simp only [Option.some.injEq, Prod.mk.injEq] at h
    obtain ⟨-, rfl⟩ := h
    omega
  · cases h
    omega

theorem ascii_of_shortEscape {e c : Char} (h : Read.shortEscape e = some c) : e.toNat < 0x80 := by
  unfold Read.shortEscape at h
  split_ifs at h with hself hb hf hn hr ht
  · rcases hself with rfl | rfl | rfl <;> decide
  · exact hb ▸ (by decide)
  · exact hf ▸ (by decide)
  · exact hn ▸ (by decide)
  · exact hr ▸ (by decide)
  · exact ht ▸ (by decide)

theorem strChar_length {c c' : Char} {cs rest : List Char} (h : strChar c cs = some (c', rest)) :
    rest.length ≤ cs.length := by
  unfold strChar at h
  split_ifs at h
  · cases cs with
    | nil => cases h
    | cons e cs =>
      rw [escapeChars] at h
      rw [List.length_cons]
      split_ifs at h
      · exact Nat.le_succ_of_le (unicodeChars_length h)
      · obtain ⟨_, _, h⟩ := Option.map_eq_some_iff.mp h
        cases h
        exact Nat.le_succ _
  · cases h
    exact le_rfl

/-! ### On bytes -/

theorem hexDigit_mem {c : Char} {x : UInt8} (hx : x ∈ String.utf8EncodeChar c) :
    hexDigit x = Read.hexDigit c := by
  by_cases hc : c.toNat < 0x80
  · have hall : ∀ n : Fin 0x80, hexDigit (Char.ofNat n).toUInt8 = Read.hexDigit (Char.ofNat n) := by
      decide +kernel
    have hascii := hall ⟨c.toNat, hc⟩
    simp only [Char.ofNat_toNat] at hascii
    rw [Utf8.encode_of_ascii hc, List.mem_singleton] at hx
    rw [hx, hascii]
  · have hall : ∀ n : Fin 0x80, hexDigit (UInt8.ofNat (n + 0x80)) = none := by decide +kernel
    have hhigh := Utf8.high_of_mem_encode (not_lt.mp hc) hx
    have hlt := x.toNat_lt
    have hnone := hall ⟨x.toNat - 0x80, by omega⟩
    simp only [Nat.sub_add_cancel hhigh, UInt8.ofNat_toNat] at hnone
    cases hdigit : Read.hexDigit c with
    | none => exact hnone
    | some d => exact absurd (Read.ascii_of_hexDigit hdigit) hc

theorem shortEscape_mem {c : Char} {x : UInt8} (hx : x ∈ String.utf8EncodeChar c) :
    shortEscape x = Read.shortEscape c := by
  have hiff (d : Char) (hd : d.toNat < 0x80) : x = byte d ↔ c = d := eq_byte_iff hx hd
  simp only [shortEscape, hiff '"' (by decide), hiff '\\' (by decide), hiff '/' (by decide),
    hiff 'b' (by decide), hiff 'f' (by decide), hiff 'n' (by decide), hiff 'r' (by decide),
    hiff 't' (by decide)]
  unfold Read.shortEscape
  split_ifs <;> simp_all

/-- The first byte of a character tells how many there are. -/
theorem utf8Len_head {c : Char} {x : UInt8} (hx : (String.utf8EncodeChar c).head? = some x) :
    utf8Len x = (String.utf8EncodeChar c).length := by
  have hvalid : c.val.toNat < 0xd800 ∨ 0xdfff < c.val.toNat ∧ c.val.toNat < 0x110000 := c.valid
  have hone : ∀ k : Fin 0x80, utf8Len (UInt8.ofNat k) = 1 := by decide +kernel
  have htwo : ∀ k : Fin 32, 2 ≤ k.val → utf8Len (UInt8.ofNat (k + 0xc0)) = 2 := by decide +kernel
  have hthree : ∀ k : Fin 16, utf8Len (UInt8.ofNat (k + 0xe0)) = 3 := by decide +kernel
  have hfour : ∀ k : Fin 5, utf8Len (UInt8.ofNat (k + 0xf0)) = 4 := by decide +kernel
  unfold String.utf8EncodeChar at hx ⊢
  simp only at hx ⊢
  generalize c.val.toNat = v at *
  split_ifs at hx ⊢ with h1 h2 h3
  · cases hx
    exact hone ⟨v, by omega⟩
  · cases hx
    exact htwo ⟨v / 64 % 32, by omega⟩ (by simp only; omega)
  · cases hx
    exact hthree ⟨v / 4096 % 16, by omega⟩
  · cases hx
    exact hfour ⟨v / 262144 % 8, by omega⟩

section

variable {b : List UInt8} {i : ℕ} {c : Char} {cs : List Char}

theorem At.index (h : At b i (c :: cs)) :
    ∃ x, ByteScan.index b i = .ok x ∧ x ∈ String.utf8EncodeChar c := by
  obtain ⟨x, hpeek, hhead⟩ := h.peek_cons
  have hget : b[i]? = some x := hpeek
  refine ⟨x, ?_, List.mem_of_head? hhead⟩
  rw [ByteScan.index, hget]

theorem At.le_length (h : At b i cs) : i + cs.length ≤ b.length := by
  have hlen := length_le_encode cs
  rw [h.length]
  omega

theorem hexLoop_agrees {n : ℕ} {v : ℕ} (h : At b i cs) (hlen : i + n ≤ b.length) :
    Outcome.Agrees (SameAt b) (hexLoop b n i v) (hexChars n v cs) := by
  induction n generalizing i v cs with
  | zero => exact .ok ⟨rfl, h⟩
  | succ n ih =>
    cases cs with
    | nil =>
      have hend : b.length = i := h.length
      omega
    | cons c cs =>
      obtain ⟨x, hindex, hx⟩ := h.index
      rw [hexLoop, hindex, Outcome.ok_bind, hexDigit_mem hx, hexChars]
      cases hdigit : Read.hexDigit c with
      | none => exact .none
      | some d =>
        have hd := Read.hexDigit_lt hdigit
        have hor : v <<< 4 ||| d = 16 * v + d := by
          rw [← Nat.shiftLeft_add_eq_or_of_lt hd, Nat.shiftLeft_eq]
          omega
        simp only [Option.bind_some]
        rw [hor]
        exact ih (h.next_ascii (Read.ascii_of_hexDigit hdigit)) (by omega)

theorem hex4_agrees (h : At b i cs) :
    Outcome.Agrees (SameAt b) (hex4 b i) (hexChars 4 0 cs) := by
  unfold hex4
  split_ifs with hlt
  · have hlen := h.le_length
    rw [hexChars_short (by omega)]
    exact .none
  · exact hexLoop_agrees h (by omega)

theorem lowSurrogate_agrees (h : At b i cs) :
    Outcome.Agrees (SameAt b) (lowSurrogate b i) (lowChars cs) := by
  unfold lowSurrogate
  split_ifs with hback hu
  · rcases cs with _ | ⟨s, _ | ⟨u, cs⟩⟩
    · exact .none
    · exact .none
    · have hne : ¬(s = '\\' ∧ u = 'u') := fun hsu =>
        hback ((h.peek_iff (by decide)).mpr (congrArg some hsu.1))
      rw [lowChars, if_neg hne]
      exact .none
  · rw [ne_eq, not_not, h.peek_iff (by decide)] at hback
    obtain ⟨cs, rfl⟩ := List.head?_eq_some_iff.mp hback
    have hnext := h.next_ascii (by decide)
    cases cs with
    | nil => exact .none
    | cons u cs =>
      have hne : ¬('\\' = '\\' ∧ u = 'u') := fun hsu =>
        hu ((hnext.peek_iff (by decide)).mpr (congrArg some hsu.2))
      rw [lowChars, if_neg hne]
      exact .none
  · rw [ne_eq, not_not, h.peek_iff (by decide)] at hback
    obtain ⟨cs, rfl⟩ := List.head?_eq_some_iff.mp hback
    have hnext := h.next_ascii (by decide)
    rw [ne_eq, not_not, hnext.peek_iff (by decide)] at hu
    obtain ⟨cs, rfl⟩ := List.head?_eq_some_iff.mp hu
    rw [lowChars, if_pos ⟨rfl, rfl⟩]
    refine (hex4_agrees (hnext.next_ascii (by decide))).bind fun r r' _ hr => ?_
    obtain ⟨lo, j⟩ := r
    obtain ⟨lo', cs'⟩ := r'
    obtain ⟨heq, hat⟩ := hr
    simp only at heq hat ⊢
    subst heq
    simp only [Read.isLowSurrogate, Bool.and_eq_true, decide_eq_true_eq]
    split_ifs with hlow
    · exact .ok ⟨rfl, hat⟩
    · exact .none

theorem unicodeEscape_agrees (h : At b i cs) :
    Outcome.Agrees (SameAt b) (unicodeEscape b i) (unicodeChars cs) := by
  unfold unicodeEscape unicodeChars
  refine (hex4_agrees h).bind fun r r' hchars hr => ?_
  obtain ⟨hi, j⟩ := r
  obtain ⟨hi', cs'⟩ := r'
  obtain ⟨heq, hat⟩ := hr
  simp only at heq hat ⊢
  subst heq
  have hlt := hexChars_lt hchars
  simp only [Read.isHighSurrogate, Bool.and_eq_true, decide_eq_true_eq]
  split_ifs with hhigh hlow
  · refine (lowSurrogate_agrees hat).bind fun r r' hlow hr => ?_
    obtain ⟨lo, k⟩ := r
    obtain ⟨lo', cs''⟩ := r'
    obtain ⟨heq, hat'⟩ := hr
    simp only at heq hat' ⊢
    subst heq
    have hlo := isLowSurrogate_of_lowChars hlow
    simp only [Read.isLowSurrogate, Bool.and_eq_true, decide_eq_true_eq] at hlo
    rw [fromU32, if_pos (.inr (by rw [Nat.shiftLeft_eq]; omega)), Outcome.ok_bind, Nat.shiftLeft_eq]
    exact .ok ⟨rfl, hat'⟩
  · simp only [Read.isLowSurrogate, Bool.and_eq_true, decide_eq_true_eq] at hlow
    have hinvalid : ¬hi.isValidChar := by
      rintro (hv | hv)
      · omega
      · omega
    rw [fromU32, if_neg hinvalid]
    exact .none
  · simp only [Read.isLowSurrogate, Bool.and_eq_true, decide_eq_true_eq] at hlow
    have hvalid : hi.isValidChar := by
      by_cases hv : hi < 0xd800
      · exact .inl hv
      · exact .inr (by omega)
    rw [fromU32, if_pos hvalid]
    exact .ok ⟨rfl, hat⟩

theorem escape_agrees (h : At b i cs) :
    Outcome.Agrees (SameAt b) (escape b i) (escapeChars cs) := by
  unfold escape
  cases cs with
  | nil =>
    rw [h.peek_nil]
    exact .none
  | cons e cs =>
    obtain ⟨x, hpeek, hhead⟩ := h.peek_cons
    have hx := List.mem_of_head? hhead
    rw [hpeek, escapeChars]
    simp only [eq_byte_iff hx (show 'u'.toNat < 0x80 by decide), shortEscape_mem hx]
    split_ifs with hu
    · subst hu
      exact unicodeEscape_agrees (h.next_ascii (by decide))
    · cases hshort : Read.shortEscape e with
      | none => exact .none
      | some c => exact .ok ⟨rfl, h.next_ascii (ascii_of_shortEscape hshort)⟩

/-- The bytes of a part of the text. -/
theorem At.slice {t : List Char} (h : At b i (t ++ cs)) :
    ByteScan.slice b i (i + (encode t).length) = .ok (encode t) := by
  have hlen := h.length
  rw [encode_append, List.length_append] at hlen
  obtain ⟨front, hb, hi⟩ := h
  rw [ByteScan.slice, if_pos ⟨Nat.le_add_right _ _, by omega⟩, hb, hi, encode_append,
    ← List.append_assoc, ← List.length_append, List.take_left, List.drop_left]

theorem fromUtf8_encode (c : Char) : fromUtf8 (String.utf8EncodeChar c) = .ok c := by
  have hhead := Utf8.head?_encode_append c []
  rw [List.append_nil] at hhead
  rw [fromUtf8, hhead]
  exact if_pos rfl

theorem copied_agrees {x : UInt8} (h : At b i (c :: cs))
    (hx : (String.utf8EncodeChar c).head? = some x) :
    Outcome.Agrees (SameAt b) (copied b x i) (some (c, cs)) := by
  have hpos := length_encodeChar_pos c
  have hlen := h.length
  rw [encode_cons, List.length_append] at hlen
  have hslice := @At.slice b i cs [c] h
  rw [encode, List.flatMap_singleton] at hslice
  unfold copied
  simp only [utf8Len_head hx]
  rw [if_neg (by omega), hslice, Outcome.ok_bind, fromUtf8_encode, Outcome.ok_bind]
  exact .ok ⟨rfl, h.next⟩

/-- One turn of the loop of `string`. -/
theorem char_agrees {x : UInt8} (h : At b i (c :: cs))
    (hx : (String.utf8EncodeChar c).head? = some x) :
    Outcome.Agrees (SameAt b) (if x = byte '\\' then escape b (i + 1) else copied b x i)
      (strChar c cs) := by
  unfold strChar
  simp only [eq_byte_iff (List.mem_of_head? hx) (show '\\'.toNat < 0x80 by decide)]
  split_ifs with hback
  · subst hback
    exact escape_agrees (h.next_ascii (by decide))
  · exact copied_agrees h hx

theorem stringLoop_agrees {fuel : ℕ} {out : List Char} (h : At b i cs) (hfuel : cs.length < fuel) :
    Outcome.Agrees (SameAt b) (stringLoop b fuel i out)
      ((Scan.strTail cs).map fun (s, rest) => (out ++ s, rest)) := by
  induction fuel generalizing i cs out with
  | zero => omega
  | succ fuel ih =>
    rw [stringLoop]
    cases cs with
    | nil =>
      rw [h.peek_nil]
      exact .none
    | cons c cs =>
      obtain ⟨x, hpeek, hhead⟩ := h.peek_cons
      have hquote : x = byte '"' ↔ c = '"' := eq_byte_iff (List.mem_of_head? hhead) (by decide)
      rw [hpeek]
      simp only [hquote]
      by_cases hc : c = '"'
      · subst hc
        rw [if_pos rfl, Scan.strTail_quote]
        exact .ok ⟨(List.append_nil _).symm, h.next_ascii (by decide)⟩
      · have hturn := apply_ite (fun r => r >>= fun r => stringLoop b fuel r.2 (out ++ [r.1]))
          (x = byte '\\') (escape b (i + 1)) (copied b x i)
        rw [if_neg hc, ← hturn, strTail_step hc, Option.map_bind]
        refine (char_agrees h hhead).bind fun r r' hchar hr => ?_
        obtain ⟨c', j⟩ := r
        obtain ⟨c'', cs'⟩ := r'
        obtain ⟨heq, hat⟩ := hr
        simp only at heq hat ⊢
        subst heq
        have hlen := strChar_length hchar
        rw [List.length_cons] at hfuel
        have hrest := @ih j cs' (out ++ [c']) hat (by omega)
        simpa only [Option.map_map, Function.comp_def, List.append_assoc, List.singleton_append]
          using hrest

/-- `string` in front of a quote. -/
theorem string_agrees (h : At b i ('"' :: cs)) :
    Outcome.Agrees (SameAt b) (string b i) (Scan.strTail cs) := by
  have hquote := (h.peek_iff (show '"'.toNat < 0x80 by decide)).mpr rfl
  have hnext := h.next_ascii (by decide)
  have hlen := hnext.le_length
  have hloop := @stringLoop_agrees b (i + 1) cs (b.length + 1) [] hnext (by omega)
  rw [string, if_neg (not_not.mpr hquote)]
  simpa only [List.nil_append, Prod.mk.eta, Option.map_id'] using hloop

theorem string_eq_none (h : At b i cs) (hne : cs.head? ≠ some '"') : string b i = .none := by
  rw [string, if_pos]
  exact fun hquote => hne ((h.peek_iff (by decide)).mp hquote)

end

end GbfrLan.Json.ByteScan
