import GbfrLan.Json.Scanner

/-!
# Texts of values under the scanner

`Value.text` is the compact form in which the broker sends a value. On such a text the scanner of
the shims finds the first member of a name in document order, which is `Value.find`, and skips
values as a whole. `Front` says what stands in front of a value that the scanner finds, so that
the same is known of a text that ends early.
-/
namespace GbfrLan.Json
open Lib Read

/-! ### Writing -/

/-- One character inside a string, as the broker's JSON library writes it. -/
def writeChar (c : Char) : List Char :=
  if c = '"' then ['\\', '"']
  else if c = '\\' then ['\\', '\\']
  else if c = '\x08' then ['\\', 'b']
  else if c = '\x0c' then ['\\', 'f']
  else if c = '\n' then ['\\', 'n']
  else if c = '\r' then ['\\', 'r']
  else if c = '\t' then ['\\', 't']
  else if c.toNat < 0x20 then
    ['\\', 'u', '0', '0', hexChar (c.toNat / 16), hexChar (c.toNat % 16)]
  else [c]

/-- A string from behind its opening quote. -/
def writeTail (s : String) : List Char := s.toList.flatMap writeChar ++ ['"']

def writeString (s : String) : List Char := '"' :: writeTail s

section
variable (numberText : Number → String)

mutual

def Value.text : Value → List Char
  | .null => "null".toList
  | .bool b => (if b then "true" else "false").toList
  | .number n => (numberText n).toList
  | .string s => writeString s
  | .array xs => '[' :: listText xs
  | .object fields => '{' :: fieldsText fields

/-- The elements of an array and its closing bracket. -/
def listText : List Value → List Char
  | [] => [']']
  | x :: xs => Value.text x ++ moreText xs

/-- The elements behind another one. -/
def moreText : List Value → List Char
  | [] => [']']
  | x :: xs => ',' :: (Value.text x ++ moreText xs)

/-- The members of an object and its closing brace. -/
def fieldsText : List (String × Value) → List Char
  | [] => ['}']
  | field :: fields => fieldText field ++ moreFieldsText fields

/-- The members behind another one. -/
def moreFieldsText : List (String × Value) → List Char
  | [] => ['}']
  | field :: fields => ',' :: (fieldText field ++ moreFieldsText fields)

def fieldText : String × Value → List Char
  | (k, v) => writeString k ++ ':' :: Value.text v

end

end

namespace Scan

/-! ### Strings -/

theorem strTail_quote (rest : List Char) : strTail ('"' :: rest) = some ([], rest) := by
  rw [strTail.eq_def]
  simp

theorem strTail_short {e c : Char} (h : shortEscape e = some c) (hu : e ≠ 'u') (cs : List Char) :
    strTail ('\\' :: e :: cs) = (strTail cs).map fun (s, rest) => (c :: s, rest) := by
  rw [strTail.eq_def]
  simp [hu, h]

theorem strTail_plain {c : Char} (hquote : c ≠ '"') (hback : c ≠ '\\') (cs : List Char) :
    strTail (c :: cs) = (strTail cs).map fun (s, rest) => (c :: s, rest) := by
  rw [strTail.eq_def]
  simp only [if_neg hquote, if_neg hback]

theorem strTail_writeChar (c : Char) (cs : List Char) :
    strTail (writeChar c ++ cs) = (strTail cs).map fun (s, rest) => (c :: s, rest) := by
  unfold writeChar
  split_ifs with hquote hback hb hf hn hr ht hlow
  · subst hquote
    exact strTail_short rfl (by decide) cs
  · subst hback
    exact strTail_short rfl (by decide) cs
  · subst hb
    exact strTail_short rfl (by decide) cs
  · subst hf
    exact strTail_short rfl (by decide) cs
  · subst hn
    exact strTail_short rfl (by decide) cs
  · subst hr
    exact strTail_short rfl (by decide) cs
  · subst ht
    exact strTail_short rfl (by decide) cs
  · have hhigh : isHighSurrogate c.toNat = false := by
      simp only [isHighSurrogate, Bool.and_eq_false_iff, decide_eq_false_iff_not]
      omega
    have hlow' : isLowSurrogate c.toNat = false := by
      simp only [isLowSurrogate, Bool.and_eq_false_iff, decide_eq_false_iff_not]
      omega
    have hhex := hex4_control c.toNat hlow
    rw [strTail.eq_def]
    simp [hhex, hhigh, hlow']
  · exact strTail_plain hquote hback cs

/-- What is written is read back. -/
theorem strTail_writeTail (s : String) (rest : List Char) :
    strTail (writeTail s ++ rest) = some (s.toList, rest) := by
  unfold writeTail
  rw [List.append_assoc]
  induction s.toList with
  | nil => exact strTail_quote rest
  | cons c cs ih =>
    rw [List.flatMap_cons, List.append_assoc, strTail_writeChar, ih]
    rfl

theorem strTail_unicode {x y z w : Char} {n : ℕ} (hhex : hex4 x y z w = some n)
    (hhigh : ¬isHighSurrogate n = true) (hlow : ¬isLowSurrogate n = true) (cs : List Char) :
    strTail ('\\' :: 'u' :: x :: y :: z :: w :: cs) =
      (strTail cs).map fun (s, rest) => (Char.ofNat n :: s, rest) := by
  rw [strTail.eq_def]
  simp [hhex, hhigh, hlow]

theorem strTail_pair {x y z w x' y' z' w' : Char} {hi lo : ℕ} (hhex : hex4 x y z w = some hi)
    (hhigh : isHighSurrogate hi = true) (hhex' : hex4 x' y' z' w' = some lo)
    (hlow : isLowSurrogate lo = true) (cs : List Char) :
    strTail ('\\' :: 'u' :: x :: y :: z :: w :: '\\' :: 'u' :: x' :: y' :: z' :: w' :: cs) =
      (strTail cs).map fun (s, rest) =>
        (Char.ofNat (0x10000 + (hi - 0xD800) * 0x400 + (lo - 0xDC00)) :: s, rest) := by
  rw [strTail.eq_def]
  simp [hhex, hhigh, hhex', hlow]

/-- The text in front of a closing quote, and what it stands for. -/
def StrFront (front s : List Char) : Prop :=
  ∀ rest, strTail (front ++ '"' :: rest) = some (s, rest)

/-- A piece that stands for one character. -/
theorem exists_front_append {piece cs s rest : List Char} {c : Char}
    (hpiece : ∀ cs, strTail (piece ++ cs) = (strTail cs).map fun (s, rest) => (c :: s, rest))
    (ih : ∀ {s rest}, strTail cs = some (s, rest) →
      ∃ front, cs = front ++ '"' :: rest ∧ StrFront front s)
    (h : ((strTail cs).map fun (s, rest) => (c :: s, rest)) = some (s, rest)) :
    ∃ front, piece ++ cs = front ++ '"' :: rest ∧ StrFront front s := by
  obtain ⟨⟨t, rest'⟩, ht, heq⟩ := Option.map_eq_some_iff.mp h
  cases heq
  obtain ⟨front, rfl, hfront⟩ := ih ht
  refine ⟨piece ++ front, (List.append_assoc _ _ _).symm, fun rest' => ?_⟩
  rw [List.append_assoc, hpiece, hfront rest']
  rfl

/-- A string that is read ends at a quote, and does not depend on what follows. -/
theorem strTail_front {cs s rest : List Char} (h : strTail cs = some (s, rest)) :
    ∃ front, cs = front ++ '"' :: rest ∧ StrFront front s := by
  fun_induction strTail cs generalizing s rest
  case case2 =>
    cases h
    exact ⟨[], rfl, strTail_quote⟩
  case case6 x y z w hi hhex hhigh b u x' y' z' w' cs lo hhex' hlow c _ ih =>
    obtain ⟨rfl, rfl, hlow⟩ := hlow
    exact @exists_front_append ['\\', 'u', x, y, z, w, '\\', 'u', x', y', z', w'] _ _ _ _
      (strTail_pair hhex hhigh hhex' hlow) ih h
  case case10 x y z w cs n hhex hhigh hlow _ ih =>
    exact @exists_front_append ['\\', 'u', x, y, z, w] _ _ _ _ (strTail_unicode hhex hhigh hlow) ih h
  case case13 e cs hu c hshort _ ih =>
    exact @exists_front_append ['\\', e] _ _ _ _ (strTail_short hshort hu) ih h
  case case14 c cs hquote hback ih =>
    exact @exists_front_append [c] _ _ _ _ (strTail_plain hquote hback) ih h
  all_goals cases h

theorem strTail_length {cs s rest : List Char} (h : strTail cs = some (s, rest)) :
    rest.length < cs.length := by
  obtain ⟨front, rfl, -⟩ := strTail_front h
  rw [List.length_append, List.length_cons]
  omega

/-! ### Finding a name -/

theorem length_skipWs_le (cs : List Char) : (skipWs cs).length ≤ cs.length :=
  (List.dropWhile_sublist _).length_le

/-- The count does not matter from the length of the text on. -/
theorem findFrom_eq (key : String) {f g : ℕ} {cs : List Char} (hf : cs.length ≤ f)
    (hg : cs.length ≤ g) : findFrom key f cs = findFrom key g cs := by
  induction f generalizing g cs with
  | zero =>
    obtain rfl := List.eq_nil_of_length_eq_zero (Nat.le_zero.mp hf)
    cases g <;> rfl
  | succ f ih =>
    cases cs with
    | nil => cases g <;> rfl
    | cons c rest =>
      rw [List.length_cons] at hf hg
      obtain ⟨g, rfl⟩ : ∃ k, g = k + 1 := ⟨g - 1, by omega⟩
      rw [findFrom, findFrom]
      split_ifs with hc
      · cases htail : strTail rest with
        | none => rfl
        | some e =>
          obtain ⟨t, r⟩ := e
          have hlen := strTail_length htail
          have hskip := length_skipWs_le r
          simp only
          rw [@ih g (skipWs r) (by omega) (by omega)]
      · exact ih (by omega) (by omega)

theorem findFrom_of_le (key : String) {f : ℕ} {cs : List Char} (hf : cs.length ≤ f) :
    findFrom key f cs = findValueStart cs key :=
  findFrom_eq key hf le_rfl

theorem find_nil (key : String) : findValueStart [] key = none := rfl

theorem find_cons {c : Char} (hc : c ≠ '"') (cs : List Char) (key : String) :
    findValueStart (c :: cs) key = findValueStart cs key := by
  rw [findValueStart, List.length_cons, findFrom, if_neg hc]
  exact findFrom_of_le key le_rfl

/-- Characters without a quote among them are passed. -/
theorem find_append {t : List Char} (ht : '"' ∉ t) (cs : List Char) (key : String) :
    findValueStart (t ++ cs) key = findValueStart cs key := by
  induction t with
  | nil => rfl
  | cons c t ih =>
    rw [List.mem_cons, not_or] at ht
    rw [List.cons_append, find_cons (Ne.symm ht.1), ih ht.2]

theorem skipWs_eq_append (cs : List Char) : ∃ ws, cs = ws ++ skipWs cs ∧ ∀ c ∈ ws, isWs c = true :=
  ⟨cs.takeWhile isWs, List.takeWhile_append_dropWhile.symm, by
    intro c hc
    exact List.all_eq_true.mp List.all_takeWhile c hc⟩

theorem find_skipWs (cs : List Char) (key : String) :
    findValueStart (skipWs cs) key = findValueStart cs key := by
  obtain ⟨ws, hcs, hws⟩ := skipWs_eq_append cs
  have hquote : '"' ∉ ws := fun hmem => absurd (hws _ hmem) (by decide)
  conv_rhs => rw [hcs]
  exact (find_append hquote _ key).symm

/-- A string: a name that is looked for, or passed. -/
theorem find_string {front s : List Char} (hfront : StrFront front s) (cs : List Char) (key : String) :
    findValueStart ('"' :: (front ++ '"' :: cs)) key =
      if s = key.toList ∧ (token ':' cs).isSome = true then (token ':' cs).map skipWs
      else findValueStart cs key := by
  have hlen : (skipWs cs).length ≤ (front ++ '"' :: cs).length := by
    have := length_skipWs_le cs
    rw [List.length_append, List.length_cons]
    omega
  rw [findValueStart, List.length_cons, findFrom, if_pos rfl, hfront cs]
  simp only [findFrom_of_le key hlen, find_skipWs]
  cases token ':' cs with
  | none => simp
  | some after => simp

/-- Whatever follows this text is where the value of the name is looked for. -/
def Locates (key : String) (front : List Char) : Prop :=
  ∀ cs, findValueStart (front ++ cs) key = some (skipWs cs)

theorem token_eq_some {c : Char} {cs rest : List Char} (h : token c cs = some rest) :
    ∃ ws, cs = ws ++ c :: rest ∧ ∀ c ∈ ws, isWs c = true := by
  obtain ⟨ws, hcs, hws⟩ := skipWs_eq_append cs
  unfold token at h
  split at h
  · cases h
  · rename_i c' rest' hskip
    split_ifs at h with hc
    cases h
    exact ⟨ws, by rw [← hc, ← hskip, ← hcs], hws⟩

theorem token_ws {c : Char} (hc : isWs c = false) {ws : List Char} (hws : ∀ c ∈ ws, isWs c = true)
    (rest : List Char) : token c (ws ++ c :: rest) = some rest := by
  unfold token skipWs
  rw [List.dropWhile_append_of_pos hws, List.dropWhile_cons_of_neg (by simp [hc])]
  simp

/-- Whether a character is next does not depend on what stands behind it. -/
theorem token_isSome_append {c : Char} (hc : isWs c = false) (front rest rest' : List Char) :
    (token c (front ++ c :: rest)).isSome = (token c (front ++ c :: rest')).isSome := by
  induction front with
  | nil => simp [token_self, hc]
  | cons d front ih =>
    by_cases hd : isWs d = true
    · simpa [token, skipWs, hd] using ih
    · simp only [token, skipWs, List.cons_append, hd, Bool.false_eq_true, not_false_eq_true,
        List.dropWhile_cons_of_neg]
      split_ifs <;> rfl

/-- What is found stands behind a text that locates it. -/
theorem exists_locates {key : String} {cs r : List Char} (h : findValueStart cs key = some r) :
    ∃ front rest, cs = front ++ ':' :: rest ∧ r = skipWs rest ∧ Locates key (front ++ [':']) := by
  induction hlen : cs.length using Nat.strong_induction_on generalizing cs with
  | _ n ih =>
  cases cs with
  | nil => cases h
  | cons c cs =>
    rw [List.length_cons] at hlen
    by_cases hc : c = '"'
    · subst hc
      cases htail : strTail cs with
      | none =>
        rw [findValueStart, List.length_cons, findFrom, if_pos rfl, htail] at h
        cases h
      | some e =>
        obtain ⟨s, cs'⟩ := e
        obtain ⟨front, rfl, hfront⟩ := strTail_front htail
        rw [find_string hfront] at h
        split_ifs at h with hname
        · obtain ⟨after, hafter⟩ := Option.isSome_iff_exists.mp hname.2
          obtain ⟨ws, rfl, hws⟩ := token_eq_some hafter
          rw [hafter, Option.map_some, Option.some.injEq] at h
          refine ⟨'"' :: (front ++ '"' :: ws), after, by simp, h.symm, fun cs => ?_⟩
          have htoken : token ':' (ws ++ ':' :: cs) = some cs := token_ws rfl hws cs
          have hshape : '"' :: (front ++ '"' :: ws) ++ [':'] ++ cs =
              '"' :: (front ++ '"' :: (ws ++ ':' :: cs)) := by simp
          rw [hshape, find_string hfront, htoken, if_pos ⟨hname.1, rfl⟩]
          rfl
        · have hlt : cs'.length < n := by
            rw [List.length_append, List.length_cons] at hlen
            omega
          obtain ⟨front', rest, rfl, hr, hlocates⟩ := ih _ hlt h rfl
          refine ⟨'"' :: (front ++ '"' :: front'), rest, by simp, hr, fun cs => ?_⟩
          have hshape : '"' :: (front ++ '"' :: front') ++ [':'] ++ cs =
              '"' :: (front ++ '"' :: (front' ++ ':' :: cs)) := by simp
          have hlocates' := hlocates cs
          rw [List.append_assoc, List.singleton_append] at hlocates'
          rw [hshape, find_string hfront, token_isSome_append rfl front' cs rest, if_neg hname, hlocates']
    · rw [find_cons hc] at h
      obtain ⟨front, rest, rfl, hr, hlocates⟩ := ih _ (by omega) h rfl
      refine ⟨c :: front, rest, rfl, hr, fun cs => ?_⟩
      rw [List.append_assoc, List.cons_append, find_cons hc, ← List.append_assoc]
      exact hlocates cs

theorem lt_length_skipWs_append {c : Char} (hc : isWs c = false) (front cs : List Char) :
    cs.length < (skipWs (front ++ c :: cs)).length := by
  induction front with
  | nil => simp [skipWs, hc]
  | cons d front ih =>
    by_cases hd : isWs d = true
    · simpa [skipWs, hd] using ih
    · simp [skipWs, hd]
      omega

/-- A text locates a name at one place only. -/
theorem Locates.not_longer {key : String} {front more : List Char}
    (h : Locates key (front ++ ':' :: (more ++ [':']))) (h' : Locates key (front ++ [':'])) : False := by
  have hlong := h ['x']
  have hshort := h' (more ++ [':'] ++ ['x'])
  have hsame : front ++ [':'] ++ (more ++ [':'] ++ ['x']) = front ++ ':' :: (more ++ [':']) ++ ['x'] := by
    simp
  rw [hsame, hlong, Option.some.injEq] at hshort
  have hlen := @lt_length_skipWs_append ':' rfl more ['x']
  rw [List.append_assoc, List.singleton_append] at hshort
  rw [← hshort] at hlen
  simp [skipWs, isWs] at hlen

/-- Where a text that was cut, with a mark at its end, holds a character the mark does not, the
whole text holds it as well. -/
theorem prefix_of_cut {c : Char} {front front' rest rest' whole next mark : List Char}
    (htext : whole ++ mark = front' ++ c :: rest') (hmark : c ∉ mark)
    (hbody : whole ++ next = front ++ rest) (hle : whole.length ≤ front.length) :
    ∃ more, front = front' ++ c :: more := by
  have hshort : front'.length < whole.length := by
    by_contra hle
    have hget : (whole ++ mark)[front'.length]? = some c := by
      rw [htext, List.getElem?_append_right le_rfl]
      simp
    rw [List.getElem?_append_right (by omega)] at hget
    exact hmark (List.mem_of_getElem? hget)
  have hpre : front' ++ [c] <+: whole := by
    have hall : front' ++ [c] <+: whole ++ mark := ⟨rest', by rw [htext]; simp⟩
    refine List.prefix_of_prefix_length_le hall (List.prefix_append _ _) ?_
    rw [List.length_append, List.length_singleton]
    omega
  obtain ⟨more, hmore⟩ : front' ++ [c] <+: front := by
    refine List.prefix_of_prefix_length_le (hpre.trans ⟨next, hbody⟩) (List.prefix_append _ _) ?_
    rw [List.length_append, List.length_singleton]
    omega
  exact ⟨more, by rw [← hmore]; simp⟩

/-- A name is not found in a text that ends in front of its value. -/
theorem find_cut {key : String} {front value whole next mark : List Char}
    (hlocates : Locates key (front ++ [':'])) (hbody : whole ++ next = front ++ ':' :: value)
    (hle : whole.length ≤ front.length) (hmark : ':' ∉ mark) :
    findValueStart (whole ++ mark) key = none := by
  by_contra hne
  obtain ⟨r, hr⟩ := Option.ne_none_iff_exists'.mp hne
  obtain ⟨front', rest, htext, -, hlocates'⟩ := exists_locates hr
  obtain ⟨more, rfl⟩ := prefix_of_cut htext hmark hbody hle
  refine @Locates.not_longer key front' more ?_ hlocates'
  simpa using hlocates

/-- A string is not read from a text that ends in front of its closing quote. -/
theorem strTail_cut {front s rest whole next mark : List Char} (hfront : StrFront front s)
    (hbody : whole ++ next = front ++ '"' :: rest) (hle : whole.length ≤ front.length)
    (hmark : '"' ∉ mark) : strTail (whole ++ mark) = none := by
  by_contra hne
  obtain ⟨⟨s', r⟩, hr⟩ := Option.ne_none_iff_exists'.mp hne
  obtain ⟨front', htext, hfront'⟩ := strTail_front hr
  obtain ⟨more, rfl⟩ := prefix_of_cut htext hmark hbody hle
  have hlong := hfront []
  rw [List.append_assoc, List.cons_append, hfront', Option.some.injEq, Prod.mk.injEq] at hlong
  simp at hlong

/-! ### Values that are skipped -/

/-- The texts that a number may have. -/
def IsNumberText (t : String) : Prop :=
  t ≠ "" ∧ ∀ c ∈ t.toList, c.isDigit = true ∨ c ∈ ['+', '-', '.', 'e', 'E']

/-- A text without anything that ends a literal or a C string, or starts a container or a string. -/
structure IsLiteral (t : List Char) : Prop where
  nonempty : t ≠ []
  ascii : ∀ c ∈ t, c.toNat < 0x80
  whole : ∀ c ∈ t, isDelimiter c = false
  plain : ∀ c ∈ t, c ≠ '"' ∧ c ≠ '{' ∧ c ≠ '[' ∧ c ≠ '\x00'

theorem IsNumberText.isLiteral {t : String} (h : IsNumberText t) : IsLiteral t.toList := by
  have hchar : ∀ c, c.isDigit = true ∨ c ∈ ['+', '-', '.', 'e', 'E'] →
      c.toNat < 0x80 ∧ isDelimiter c = false ∧ c ≠ '"' ∧ c ≠ '{' ∧ c ≠ '[' ∧ c ≠ '\x00' := by
    intro c hc
    rcases hc with hc | hc
    · have hne (x : Char) (hx : x.isDigit = false) : c ≠ x := by
        rintro rfl
        simp [hx] at hc
      have hdelim : isDelimiter c = false := by
        simp [isDelimiter, isWs, hne ',' rfl, hne '}' rfl, hne ']' rfl, hne ' ' rfl, hne '\t' rfl,
          hne '\n' rfl, hne '\r' rfl]
      have hascii : c.toNat < 0x80 := by
        have hle : c.toNat ≤ 57 := (Char.isDigit_iff_toNat.mp hc).2
        omega
      exact ⟨hascii, hdelim, hne '"' rfl, hne '{' rfl, hne '[' rfl, hne '\x00' rfl⟩
    · simp only [List.mem_cons, List.not_mem_nil, or_false] at hc
      rcases hc with rfl | rfl | rfl | rfl | rfl <;> decide
  refine ⟨?_, fun c hc => (hchar c (h.2 c hc)).1, fun c hc => (hchar c (h.2 c hc)).2.1,
    fun c hc => (hchar c (h.2 c hc)).2.2⟩
  simpa using h.1

theorem isLiteral_of_isLower {t : List Char} (hne : t ≠ []) (h : t.all (fun c => c.isLower) = true) :
    IsLiteral t := by
  have hchar : ∀ c ∈ t, 97 ≤ c.toNat ∧ c.toNat ≤ 122 := by
    intro c hc
    exact Text.isLower_range (List.all_eq_true.mp h c hc)
  have hother : ∀ c ∈ t, ∀ x : Char, x.toNat < 97 ∨ 122 < x.toNat → c ≠ x := by
    rintro c hc _ hx rfl
    have := hchar c hc
    omega
  refine ⟨hne, fun c hc => ?_, fun c hc => ?_, fun c hc => ?_⟩
  · have := hchar c hc
    omega
  · have hx := hother c hc
    simp [isDelimiter, isWs, hx ',' (by decide), hx '}' (by decide), hx ']' (by decide),
      hx ' ' (by decide), hx '\t' (by decide), hx '\n' (by decide), hx '\r' (by decide)]
  · have hx := hother c hc
    exact ⟨hx '"' (by decide), hx '{' (by decide), hx '[' (by decide), hx '\x00' (by decide)⟩

theorem isLiteral_null : IsLiteral "null".toList :=
  isLiteral_of_isLower (by decide) (by decide)

theorem isLiteral_bool (b : Bool) : IsLiteral (if b then "true" else "false").toList := by
  cases b <;> exact isLiteral_of_isLower (by decide) (by decide)

end Scan

end GbfrLan.Json
