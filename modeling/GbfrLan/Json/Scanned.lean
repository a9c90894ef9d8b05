import GbfrLan.Json.Write

/-!
# The accessors on texts of values

The scanner finds in the text of a value what `Value.find` finds in the value. `Value.locate`
says where: the text up to the value of the first member of that name.
-/
namespace GbfrLan.Json
open Lib Read

section
variable (numberText : Number → String) (key : String)

mutual

/-- The first member of this name: the text in front of its value, and the value. -/
def Value.locate : Value → Option (List Char × Value)
  | .object fields => (locateFields fields).map fun (a, x) => ('{' :: a, x)
  | .array xs => (locateList xs).map fun (a, x) => ('[' :: a, x)
  | _ => none

def locateList : List Value → Option (List Char × Value)
  | [] => none
  | x :: xs => (Value.locate x).or
      ((locateMore xs).map fun (a, y) => (x.text numberText ++ a, y))

def locateMore : List Value → Option (List Char × Value)
  | [] => none
  | x :: xs => ((Value.locate x).or
      ((locateMore xs).map fun (a, y) => (x.text numberText ++ a, y))).map fun (a, y) => (',' :: a, y)

def locateFields : List (String × Value) → Option (List Char × Value)
  | [] => none
  | field :: fields => (locateField field).or
      ((locateMoreFields fields).map fun (a, y) => (fieldText numberText field ++ a, y))

def locateMoreFields : List (String × Value) → Option (List Char × Value)
  | [] => none
  | field :: fields => ((locateField field).or
      ((locateMoreFields fields).map fun (a, y) => (fieldText numberText field ++ a, y))).map
        fun (a, y) => (',' :: a, y)

def locateField : String × Value → Option (List Char × Value)
  | (k, v) => if k = key then some (writeString k ++ [':'], v)
      else (Value.locate v).map fun (a, x) => (writeString k ++ ':' :: a, x)

end

end

namespace Scan

/-- The scanner passes the text, wherever something of this kind follows. -/
def Passes (follows : List Char → Prop) (key : String) (t : List Char) : Prop :=
  ∀ cs, follows cs → findValueStart (t ++ cs) key = findValueStart cs key

/-- What was located in a text is what the scanner finds there. -/
def Located (numberText : Number → String) (follows : List Char → Prop) (key : String)
    (t : List Char) (value : Option Value) : Option (List Char × Value) → Prop
  | some (a, x) => value = some x ∧ (∃ front, a = front ++ [':']) ∧ Locates key a ∧
      ∃ b, Ends b ∧ t = a ++ (x.text numberText ++ b)
  | none => value = none ∧ Passes follows key t

theorem strFront_write (s : String) : StrFront (s.toList.flatMap writeChar) s.toList := by
  intro rest
  have h := strTail_writeTail s rest
  rwa [writeTail, List.append_assoc, List.singleton_append] at h

theorem writeString_append (s : String) (cs : List Char) :
    writeString s ++ cs = '"' :: (s.toList.flatMap writeChar ++ '"' :: cs) := by
  simp [writeString, writeTail]

theorem token_of_ends {cs : List Char} (h : Ends cs) : token ':' cs = none := by
  cases cs with
  | nil => rfl
  | cons c cs => obtain rfl | rfl | rfl := h c rfl <;> rfl

/-- A string that is a value is passed. -/
theorem passes_writeString (key s : String) : Passes Ends key (writeString s) := by
  intro cs hends
  rw [writeString_append, find_string (strFront_write s), token_of_ends hends]
  simp

theorem find_name (key k : String) (cs : List Char) :
    findValueStart (writeString k ++ ':' :: cs) key =
      if k = key then some (skipWs cs) else findValueStart cs key := by
  have htoken : token ':' (':' :: cs) = some cs := rfl
  rw [writeString_append, find_string (strFront_write k), htoken, find_cons (by decide)]
  simp [String.toList_inj]

theorem passes_literal {t : List Char} (h : IsLiteral t) (follows : List Char → Prop) (key : String) :
    Passes follows key t := fun cs _ =>
  find_append (fun hmem => (h.plain _ hmem).1 rfl) cs key

section Located

variable {numberText : Number → String} {key : String} {follows : List Char → Prop}
  {t t' : List Char} {v v' : Option Value} {l l' : Option (List Char × Value)}

/-- Everything may follow a text with its closing brace or bracket. -/
def Any (_ : List Char) : Prop := True

theorem Located.weaken (h : Located numberText Any key t v l) : Located numberText follows key t v l := by
  cases l with
  | none => exact ⟨h.1, fun cs _ => h.2 cs trivial⟩
  | some e => exact h

theorem Located.cons {c : Char} (hc : c ≠ '"') (h : Located numberText follows key t v l) :
    Located numberText follows key (c :: t) v (l.map fun (a, x) => (c :: a, x)) := by
  cases l with
  | none =>
    refine ⟨h.1, fun cs hcs => ?_⟩
    rw [List.cons_append, find_cons hc]
    exact h.2 cs hcs
  | some e =>
    obtain ⟨a, x⟩ := e
    obtain ⟨hv, ⟨front, rfl⟩, hlocates, b, hends, rfl⟩ := h
    refine ⟨hv, ⟨c :: front, rfl⟩, fun cs => ?_, b, hends, rfl⟩
    rw [List.cons_append, find_cons hc]
    exact hlocates cs

theorem ends_append {cs : List Char} (h : Ends cs) (hne : cs ≠ []) (more : List Char) :
    Ends (cs ++ more) := by
  intro c hc
  rw [List.head?_append_of_ne_nil _ hne] at hc
  exact h c hc

/-- A value and the values behind it. -/
theorem Located.append (h : Located numberText Ends key t v l)
    (h' : Located numberText Any key t' v' l') (hends : Ends t') (hne : t' ≠ []) :
    Located numberText Any key (t ++ t') (v.or v') (l.or (l'.map fun (a, x) => (t ++ a, x))) := by
  cases l with
  | some e =>
    obtain ⟨rfl, hfront, hlocates, b, hb, rfl⟩ := h
    refine ⟨rfl, hfront, hlocates, b ++ t', ?_, by simp⟩
    cases b with
    | nil => exact hends
    | cons c b => exact ends_append hb (List.cons_ne_nil c b) t'
  | none =>
    obtain ⟨rfl, hpass⟩ := h
    cases l' with
    | none =>
      refine ⟨h'.1, fun cs _ => ?_⟩
      rw [List.append_assoc, hpass _ (ends_append hends hne cs), h'.2 cs trivial]
    | some e =>
      obtain ⟨a, x⟩ := e
      obtain ⟨hv, ⟨front, rfl⟩, hlocates, b, hb, rfl⟩ := h'
      refine ⟨hv, ⟨t ++ front, by simp⟩, fun cs => ?_, b, hb, by simp⟩
      rw [List.append_assoc, hpass, hlocates]
      -- what is located is not empty, so that it starts as the whole does
      intro c hc
      refine hends c ?_
      cases front with
      | nil => simpa using hc
      | cons d front => simpa using hc

theorem Located.name {k : String} {x : Value}
    (h : Located numberText Ends key (x.text numberText) (x.find key) l) :
    Located numberText Ends key (fieldText numberText (k, x)) (Value.findField key (k, x))
      (if k = key then some (writeString k ++ [':'], x)
        else l.map fun (a, y) => (writeString k ++ ':' :: a, y)) := by
  rw [fieldText, Value.findField]
  split_ifs with hk
  · refine ⟨rfl, ⟨writeString k, rfl⟩, fun cs => ?_, [], fun c hc => by simp at hc, by simp⟩
    rw [List.append_assoc, List.singleton_append, find_name, if_pos hk]
  · cases l with
    | none =>
      refine ⟨h.1, fun cs hcs => ?_⟩
      rw [List.append_assoc, List.cons_append, find_name, if_neg hk]
      exact h.2 cs hcs
    | some e =>
      obtain ⟨a, y⟩ := e
      obtain ⟨hv, ⟨front, rfl⟩, hlocates, b, hb, heq⟩ := h
      refine ⟨hv, ⟨writeString k ++ ':' :: front, by simp⟩, fun cs => ?_, b, hb, ?_⟩
      · have hshape : writeString k ++ ':' :: (front ++ [':']) ++ cs =
            writeString k ++ ':' :: (front ++ [':'] ++ cs) := by simp
        rw [hshape, find_name, if_neg hk]
        exact hlocates cs
      · rw [heq]
        simp

end Located

theorem ends_moreText (numberText : Number → String) (xs : List Value) :
    Ends (moreText numberText xs) ∧ moreText numberText xs ≠ [] := by
  cases xs <;> simp [moreText, Ends]

theorem ends_moreFieldsText (numberText : Number → String) (fields : List (String × Value)) :
    Ends (moreFieldsText numberText fields) ∧ moreFieldsText numberText fields ≠ [] := by
  cases fields <;> simp [moreFieldsText, Ends]

theorem located_close {numberText : Number → String} {key : String} {c : Char} (hc : c ≠ '"') :
    Located numberText Any key [c] none none := by
  refine ⟨rfl, fun cs _ => ?_⟩
  rw [List.singleton_append, find_cons hc]

mutual

theorem locate_located {numberText : Number → String}
    (hnumber : ∀ n, IsNumberText (numberText n)) (key : String) : ∀ v : Value,
    Located numberText Ends key (v.text numberText) (v.find key) (v.locate numberText key)
  | .null => ⟨rfl, passes_literal isLiteral_null _ _⟩
  | .bool b => ⟨rfl, passes_literal (isLiteral_bool b) _ _⟩
  | .number n => ⟨rfl, passes_literal (hnumber n).isLiteral _ _⟩
  | .string s => ⟨rfl, passes_writeString key s⟩
  | .array xs => by
    rw [Value.text, Value.find, Value.locate]
    exact (locateList_located hnumber key xs).weaken.cons (by decide)
  | .object fields => by
    rw [Value.text, Value.find, Value.locate]
    exact (locateFields_located hnumber key fields).weaken.cons (by decide)

theorem locateList_located {numberText : Number → String}
    (hnumber : ∀ n, IsNumberText (numberText n)) (key : String) : ∀ xs : List Value,
    Located numberText Any key (listText numberText xs) (Value.findList key xs)
      (locateList numberText key xs)
  | [] => located_close (by decide)
  | x :: xs => by
    rw [listText, Value.findList, locateList]
    obtain ⟨hends, hne⟩ := ends_moreText numberText xs
    exact (locate_located hnumber key x).append (locateMore_located hnumber key xs) hends hne

theorem locateMore_located {numberText : Number → String}
    (hnumber : ∀ n, IsNumberText (numberText n)) (key : String) : ∀ xs : List Value,
    Located numberText Any key (moreText numberText xs) (Value.findList key xs)
      (locateMore numberText key xs)
  | [] => located_close (by decide)
  | x :: xs => by
    rw [moreText, Value.findList, locateMore]
    obtain ⟨hends, hne⟩ := ends_moreText numberText xs
    exact ((locate_located hnumber key x).append (locateMore_located hnumber key xs) hends hne).cons (by decide)

theorem locateFields_located {numberText : Number → String}
    (hnumber : ∀ n, IsNumberText (numberText n)) (key : String) : ∀ fields : List (String × Value),
    Located numberText Any key (fieldsText numberText fields) (Value.findFields key fields)
      (locateFields numberText key fields)
  | [] => located_close (by decide)
  | field :: fields => by
    rw [fieldsText, Value.findFields, locateFields]
    obtain ⟨hends, hne⟩ := ends_moreFieldsText numberText fields
    exact (locateField_located hnumber key field).append (locateMoreFields_located hnumber key fields) hends hne

theorem locateMoreFields_located {numberText : Number → String}
    (hnumber : ∀ n, IsNumberText (numberText n)) (key : String) : ∀ fields : List (String × Value),
    Located numberText Any key (moreFieldsText numberText fields) (Value.findFields key fields)
      (locateMoreFields numberText key fields)
  | [] => located_close (by decide)
  | field :: fields => by
    rw [moreFieldsText, Value.findFields, locateMoreFields]
    obtain ⟨hends, hne⟩ := ends_moreFieldsText numberText fields
    exact ((locateField_located hnumber key field).append (locateMoreFields_located hnumber key fields) hends hne).cons
      (by decide)

theorem locateField_located {numberText : Number → String}
    (hnumber : ∀ n, IsNumberText (numberText n)) (key : String) : ∀ field : String × Value,
    Located numberText Ends key (fieldText numberText field) (Value.findField key field)
      (locateField numberText key field)
  | (k, x) => by
    rw [locateField]
    exact (locate_located hnumber key x).name

end

/-! ### Reading a value -/

/-- What `json_str` makes of the text from the start of the value on. -/
def strAt : List Char → Option String
  | [] => none
  | c :: rest =>
      (skip (c :: rest)).bind fun after =>
        match kindAt c (upTo (c :: rest) after) with
        | .str => (strTail rest).map fun e => String.ofList e.1
        | .scalar => some (String.ofList (upTo (c :: rest) after))
        | _ => none

theorem jsonStr_eq (blob : List Char) (key : String) :
    jsonStr blob key = (findValueStart blob key).bind strAt := by
  unfold jsonStr span
  cases findValueStart blob key with
  | none => rfl
  | some start =>
    cases start with
    | nil => rfl
    | cons c rest =>
      unfold strAt
      simp only [Option.bind_some]
      cases skip (c :: rest) with
      | none => rfl
      | some after => rfl

theorem strAt_quote (cs : List Char) :
    strAt ('"' :: cs) = (strTail cs).map fun e => String.ofList e.1 := by
  have hskip : skip ('"' :: cs) = (strTail cs).map Prod.snd := by
    simp [skip, skipValue, skipWs, isWs]
  rw [strAt, hskip]
  cases strTail cs with
  | none => rfl
  | some e => simp [kindAt]

theorem strAt_container {c : Char} (hc : c = '{' ∨ c = '[') (cs : List Char) : strAt (c :: cs) = none := by
  rw [strAt]
  cases skip (c :: cs) with
  | none => rfl
  | some after => rcases hc with rfl | rfl <;> simp [kindAt]

/-- The text ends, or something that ends a literal is next. -/
def EndsLiteral (rest : List Char) : Prop := ∀ c ∈ rest.head?, isDelimiter c = true

theorem endsLiteral_of_ends {rest : List Char} (h : Ends rest) : EndsLiteral rest := by
  intro c hc
  obtain rfl | rfl | rfl := h c hc <;> rfl

theorem skipValue_literal {t rest : List Char} (ht : IsLiteral t) (hrest : EndsLiteral rest) (fuel : ℕ) :
    skipValue (fuel + 1) (t ++ rest) = some rest := by
  cases t with
  | nil => exact absurd rfl ht.nonempty
  | cons c t =>
    obtain ⟨hquote, hbrace, hbracket, -⟩ := ht.plain c List.mem_cons_self
    have hdelim := ht.whole c List.mem_cons_self
    have hws : isWs c = false := by
      simp only [isDelimiter, Bool.or_eq_false_iff] at hdelim
      exact hdelim.2
    have hdrop : (t ++ rest).dropWhile (fun c => !isDelimiter c) = rest := by
      rw [List.dropWhile_append_of_pos]
      · cases rest with
        | nil => rfl
        | cons d rest => simp [hrest d rfl]
      · intro d hd
        simp [ht.whole d (List.mem_cons_of_mem _ hd)]
    simp [skipValue, skipWs, hws, hquote, hbrace, hbracket, hdelim, hdrop]

theorem upTo_append (t rest : List Char) : upTo (t ++ rest) rest = t := by
  simp [upTo]

theorem strAt_literal {t rest : List Char} (ht : IsLiteral t) (hrest : EndsLiteral rest) :
    strAt (t ++ rest) = if t = "null".toList then none else some (String.ofList t) := by
  have hskip : skip (t ++ rest) = some rest := skipValue_literal ht hrest _
  cases t with
  | nil => exact absurd rfl ht.nonempty
  | cons c t =>
    obtain ⟨hquote, hbrace, hbracket, -⟩ := ht.plain c List.mem_cons_self
    rw [List.cons_append] at hskip ⊢
    rw [strAt, hskip]
    have hup : upTo (c :: (t ++ rest)) rest = c :: t := upTo_append (c :: t) rest
    simp only [Option.bind_some, hup, kindAt, if_neg hquote, if_neg hbrace, if_neg hbracket]
    by_cases hnull : c :: t = "null".toList
    · have hn : c = 'n' := by
        injection hnull
      rw [if_pos ⟨hn, hnull⟩, if_pos hnull]
    · rw [if_neg fun h => hnull h.2, if_neg hnull]

/-! ### Skipping a value -/

theorem IsLiteral.head {t : List Char} (ht : IsLiteral t) :
    ∃ c t', t = c :: t' ∧ isDelimiter c = false := by
  cases t with
  | nil => exact absurd rfl ht.nonempty
  | cons c t => exact ⟨c, t, rfl, ht.whole c List.mem_cons_self⟩

/-- The first character of a value is none that may stand between values. -/
theorem text_head {numberText : Number → String} (hnumber : ∀ n, IsNumberText (numberText n))
    (x : Value) : ∃ c t, x.text numberText = c :: t ∧ isDelimiter c = false := by
  cases x with
  | null => exact isLiteral_null.head
  | bool b => exact (isLiteral_bool b).head
  | number n => exact (hnumber n).isLiteral.head
  | string s => exact ⟨'"', writeTail s, rfl, rfl⟩
  | array xs => exact ⟨'[', listText numberText xs, rfl, rfl⟩
  | object fields => exact ⟨'{', fieldsText numberText fields, rfl, rfl⟩

theorem isWs_of_isDelimiter {c : Char} (h : isDelimiter c = false) : isWs c = false := by
  simp only [isDelimiter, Bool.or_eq_false_iff] at h
  exact h.2

theorem skipWs_text {numberText : Number → String} (hnumber : ∀ n, IsNumberText (numberText n))
    (x : Value) (rest : List Char) : skipWs (x.text numberText ++ rest) = x.text numberText ++ rest := by
  obtain ⟨c, t, htext, hc⟩ := text_head hnumber x
  rw [htext, List.cons_append, skipWs, List.dropWhile_cons_of_neg]
  simp [isWs_of_isDelimiter hc]

theorem moreText_cons (numberText : Number → String) (x : Value) (xs : List Value) :
    moreText numberText (x :: xs) = ',' :: listText numberText (x :: xs) := by
  rw [moreText, listText]

theorem moreFieldsText_cons (numberText : Number → String) (field : String × Value)
    (fields : List (String × Value)) :
    moreFieldsText numberText (field :: fields) = ',' :: fieldsText numberText (field :: fields) := by
  rw [moreFieldsText, fieldsText]

theorem fieldText_append (numberText : Number → String) (k : String) (x : Value) (rest : List Char) :
    fieldText numberText (k, x) ++ rest =
      '"' :: (writeTail k ++ ':' :: (x.text numberText ++ rest)) := by
  simp [fieldText, writeString]

theorem skipElements_close (fuel : ℕ) (rest : List Char) :
    skipElements (fuel + 1) (']' :: rest) = some rest := by
  simp [skipElements, skipWs, isWs]

theorem skipElements_comma (fuel : ℕ) (cs : List Char) :
    skipElements (fuel + 1) (',' :: cs) = skipElements fuel cs := by
  simp [skipElements, skipWs, isWs]

theorem skipElements_value {c : Char} (hc : isDelimiter c = false) (fuel : ℕ) (cs : List Char) :
    skipElements (fuel + 1) (c :: cs) = (skipValue fuel (c :: cs)).bind (skipElements fuel) := by
  have hws := isWs_of_isDelimiter hc
  simp only [isDelimiter, Bool.or_eq_false_iff, beq_eq_false_iff_ne] at hc
  simp [skipElements, skipWs, hws, hc.1.1.1, hc.1.2, Option.bind_eq_bind]

theorem skipMembers_close (fuel : ℕ) (rest : List Char) :
    skipMembers (fuel + 1) ('}' :: rest) = some rest := by
  simp [skipMembers, skipWs, isWs]

theorem skipMembers_comma (fuel : ℕ) (cs : List Char) :
    skipMembers (fuel + 1) (',' :: cs) = skipMembers fuel cs := by
  simp [skipMembers, skipWs, isWs]

theorem skipMembers_field (numberText : Number → String) (fuel : ℕ) (k : String) (x : Value)
    (rest : List Char) :
    skipMembers (fuel + 1) (fieldText numberText (k, x) ++ rest) =
      (skipValue fuel (x.text numberText ++ rest)).bind (skipMembers fuel) := by
  have htail := strTail_writeTail k (':' :: (x.text numberText ++ rest))
  have htoken : token ':' (':' :: (x.text numberText ++ rest)) = some (x.text numberText ++ rest) := rfl
  rw [fieldText_append]
  simp [skipMembers, skipWs, isWs, htail, htoken, Option.bind_eq_bind]

section
variable {numberText : Number → String}

/-- What is known of the elements is known of them behind another one. -/
theorem skipElements_more {xs : List Value}
    (h : ∀ (fuel : ℕ) (rest : List Char), (listText numberText xs).length < fuel →
      skipElements fuel (listText numberText xs ++ rest) = some rest)
    {fuel : ℕ} (rest : List Char) (hfuel : (moreText numberText xs).length < fuel) :
    skipElements fuel (moreText numberText xs ++ rest) = some rest := by
  cases xs with
  | nil => exact h fuel rest hfuel
  | cons x xs =>
    rw [moreText_cons, List.length_cons] at hfuel
    obtain ⟨fuel, rfl⟩ : ∃ f, fuel = f + 1 := ⟨fuel - 1, by omega⟩
    rw [moreText_cons, List.cons_append, skipElements_comma]
    exact h fuel rest (by omega)

theorem skipMembers_more {fields : List (String × Value)}
    (h : ∀ (fuel : ℕ) (rest : List Char), (fieldsText numberText fields).length < fuel →
      skipMembers fuel (fieldsText numberText fields ++ rest) = some rest)
    {fuel : ℕ} (rest : List Char) (hfuel : (moreFieldsText numberText fields).length < fuel) :
    skipMembers fuel (moreFieldsText numberText fields ++ rest) = some rest := by
  cases fields with
  | nil => exact h fuel rest hfuel
  | cons field fields =>
    rw [moreFieldsText_cons, List.length_cons] at hfuel
    obtain ⟨fuel, rfl⟩ : ∃ f, fuel = f + 1 := ⟨fuel - 1, by omega⟩
    rw [moreFieldsText_cons, List.cons_append, skipMembers_comma]
    exact h fuel rest (by omega)

end

mutual

/-- A value is skipped as a whole. -/
theorem skipValue_text {numberText : Number → String} (hnumber : ∀ n, IsNumberText (numberText n)) :
    ∀ (x : Value) (fuel : ℕ) (rest : List Char), (x.text numberText).length < fuel → Ends rest →
      skipValue fuel (x.text numberText ++ rest) = some rest
  | .null, fuel + 1, rest, _, hrest => skipValue_literal isLiteral_null (endsLiteral_of_ends hrest) fuel
  | .bool b, fuel + 1, rest, _, hrest =>
    skipValue_literal (isLiteral_bool b) (endsLiteral_of_ends hrest) fuel
  | .number n, fuel + 1, rest, _, hrest =>
    skipValue_literal (hnumber n).isLiteral (endsLiteral_of_ends hrest) fuel
  | .string s, fuel + 1, rest, _, _ => by
    have htail := strTail_writeTail s rest
    simp [Value.text, writeString, skipValue, skipWs, isWs, htail]
  | .array xs, fuel + 1, rest, hfuel, _ => by
    rw [Value.text, List.length_cons] at hfuel
    have hskip := skipElements_text hnumber xs fuel rest (by omega)
    simp [Value.text, skipValue, skipWs, isWs, hskip]
  | .object fields, fuel + 1, rest, hfuel, _ => by
    rw [Value.text, List.length_cons] at hfuel
    have hskip := skipMembers_text hnumber fields fuel rest (by omega)
    simp [Value.text, skipValue, skipWs, isWs, hskip]

theorem skipElements_text {numberText : Number → String} (hnumber : ∀ n, IsNumberText (numberText n)) :
    ∀ (xs : List Value) (fuel : ℕ) (rest : List Char), (listText numberText xs).length < fuel →
      skipElements fuel (listText numberText xs ++ rest) = some rest
  | [], fuel + 1, rest, _ => skipElements_close fuel rest
  | x :: xs, fuel + 1, rest, hfuel => by
    obtain ⟨hends, hne⟩ := ends_moreText numberText xs
    have hpos := List.length_pos_iff.mpr hne
    obtain ⟨c, t, htext, hc⟩ := text_head hnumber x
    have hlen : 0 < (x.text numberText).length := by simp [htext]
    rw [listText, List.length_append] at hfuel
    have hvalue := skipValue_text hnumber x fuel (moreText numberText xs ++ rest) (by omega)
      (ends_append hends hne rest)
    rw [htext, List.cons_append] at hvalue
    rw [listText, List.append_assoc, htext, List.cons_append, skipElements_value hc, hvalue,
      Option.bind_some]
    exact skipElements_more (skipElements_text hnumber xs) rest (by omega)

theorem skipMembers_text {numberText : Number → String} (hnumber : ∀ n, IsNumberText (numberText n)) :
    ∀ (fields : List (String × Value)) (fuel : ℕ) (rest : List Char),
      (fieldsText numberText fields).length < fuel →
      skipMembers fuel (fieldsText numberText fields ++ rest) = some rest
  | [], fuel + 1, rest, _ => skipMembers_close fuel rest
  | (k, x) :: fields, fuel + 1, rest, hfuel => by
    obtain ⟨hends, hne⟩ := ends_moreFieldsText numberText fields
    have hpos := List.length_pos_iff.mpr hne
    rw [fieldsText, List.length_append, fieldText, List.length_append, List.length_cons] at hfuel
    have hvalue := skipValue_text hnumber x fuel (moreFieldsText numberText fields ++ rest) (by omega)
      (ends_append hends hne rest)
    rw [fieldsText, List.append_assoc, skipMembers_field, hvalue, Option.bind_some]
    exact skipMembers_more (skipMembers_text hnumber fields) rest (by omega)

end

/-! ### The accessors -/

section
variable {numberText : Number → String} (hnumber : ∀ n, IsNumberText (numberText n))
include hnumber

theorem skip_text (x : Value) {rest : List Char} (hrest : Ends rest) :
    skip (x.text numberText ++ rest) = some rest := by
  refine skipValue_text hnumber x _ rest ?_ hrest
  rw [List.length_append]
  omega

/-- The first value of a name in the text is the one in the value. -/
theorem find_text (v : Value) (key : String) :
    match v.find key with
    | none => findValueStart (v.text numberText) key = none
    | some x => ∃ b, Ends b ∧ findValueStart (v.text numberText) key = some (x.text numberText ++ b) := by
  have hlocated := locate_located hnumber key v
  cases hlocate : v.locate numberText key with
  | none =>
    rw [hlocate] at hlocated
    obtain ⟨hfind, hpass⟩ := hlocated
    rw [hfind]
    have hempty := hpass [] fun c hc => by simp at hc
    rwa [List.append_nil] at hempty
  | some e =>
    obtain ⟨front, x⟩ := e
    rw [hlocate] at hlocated
    obtain ⟨hfind, -, hlocates, b, hb, htext⟩ := hlocated
    rw [hfind]
    refine ⟨b, hb, ?_⟩
    rw [htext, hlocates, skipWs_text hnumber]

theorem numberText_ne_null (n : Number) : (numberText n).toList ≠ "null".toList := by
  intro hnull
  have hmem : 'n' ∈ (numberText n).toList := by
    rw [hnull]
    decide
  rcases (hnumber n).2 'n' hmem with hn | hn <;> simp at hn

/-- The text of a scalar, but nothing for `null`. -/
def strOf (numberText : Number → String) : Value → Option String
  | .null => none
  | x => scalarText numberText x

theorem strAt_text (x : Value) {b : List Char} (hb : Ends b) :
    strAt (x.text numberText ++ b) = strOf numberText x := by
  have hliteral : ∀ {t : List Char}, IsLiteral t → t ≠ "null".toList →
      strAt (t ++ b) = some (String.ofList t) := by
    intro t ht hne
    rw [strAt_literal ht (endsLiteral_of_ends hb), if_neg hne]
  cases x with
  | null => exact strAt_literal isLiteral_null (endsLiteral_of_ends hb)
  | bool v =>
    refine (hliteral (isLiteral_bool v) (by cases v <;> decide)).trans ?_
    rw [String.ofList_toList]
    rfl
  | number n =>
    refine (hliteral (hnumber n).isLiteral (numberText_ne_null hnumber n)).trans ?_
    rw [String.ofList_toList]
    rfl
  | string s =>
    change strAt ('"' :: (writeTail s ++ b)) = some s
    rw [strAt_quote, strTail_writeTail, Option.map_some, String.ofList_toList]
  | array xs => exact strAt_container (.inr rfl) _
  | object fields => exact strAt_container (.inl rfl) _

theorem jsonStr_text (v : Value) (key : String) :
    jsonStr (v.text numberText) key = scanStr numberText v key := by
  have hfind := find_text hnumber v key
  rw [jsonStr_eq, scanStr]
  cases hx : v.find key with
  | none =>
    rw [hx] at hfind
    rw [hfind]
    rfl
  | some x =>
    rw [hx] at hfind
    obtain ⟨b, hb, hfind⟩ := hfind
    rw [hfind, Option.bind_some, strAt_text hnumber x hb]
    cases x <;> rfl

theorem scalarOf_text (x : Value) (rest : List Char) :
    scalarOf (x.text numberText ++ rest) rest = scalarText numberText x := by
  have hliteral : ∀ {t : List Char}, IsLiteral t → t ≠ "null".toList →
      scalarOf (t ++ rest) rest = some (String.ofList t) := by
    intro t ht hne
    obtain ⟨c, t, rfl, -⟩ := ht.head
    obtain ⟨hquote, hbrace, hbracket, -⟩ := ht.plain c List.mem_cons_self
    have hup : upTo (c :: (t ++ rest)) rest = c :: t := upTo_append (c :: t) rest
    simp only [List.cons_append, scalarOf, hquote, hbrace, hbracket, or_self, if_false, hup, if_neg hne]
  cases x with
  | null =>
    have hup : upTo ("null".toList ++ rest) rest = "null".toList := upTo_append _ rest
    change scalarOf ('n' :: ("ull".toList ++ rest)) rest = some ""
    simp only [scalarOf]
    rw [if_neg (by decide), if_neg (by decide)]
    exact congrArg some (if_pos hup)
  | bool v =>
    refine (hliteral (isLiteral_bool v) (by cases v <;> decide)).trans ?_
    rw [String.ofList_toList]
    rfl
  | number n =>
    refine (hliteral (hnumber n).isLiteral (numberText_ne_null hnumber n)).trans ?_
    rw [String.ofList_toList]
    rfl
  | string s =>
    have htail := strTail_writeTail s rest
    simp [Value.text, writeString, scalarOf, htail, scalarText]
  | array xs => simp [Value.text, scalarOf, scalarText]
  | object fields => simp [Value.text, scalarOf, scalarText]

/-- What `json_obj` keeps of the members of an object. -/
def kept (numberText : Number → String) (out : OrdMap String String)
    (fields : List (String × Value)) : OrdMap String String :=
  fields.foldl (fun out e => keep out e.1 (scalarText numberText e.2)) out

theorem objLoop_field (k : String) (x : Value) {rest : List Char} (hrest : Ends rest) (fuel : ℕ)
    (out : OrdMap String String) :
    objLoop (fuel + 1) (fieldText numberText (k, x) ++ rest) out =
      objLoop fuel rest (keep out k (scalarText numberText x)) := by
  have htail := strTail_writeTail k (':' :: (x.text numberText ++ rest))
  have htoken : token ':' (':' :: (x.text numberText ++ rest)) = some (x.text numberText ++ rest) := rfl
  have hskip := skip_text hnumber x hrest
  have hscalar := scalarOf_text hnumber x rest
  have hws := skipWs_text hnumber x rest
  rw [fieldText_append, objLoop]
  simp [skipWs, isWs, htail, htoken]
  rw [← skipWs, hws, hskip]
  simp [hscalar]

omit hnumber in
theorem objLoop_close (fuel : ℕ) (rest : List Char) (out : OrdMap String String) :
    objLoop fuel ('}' :: rest) out = out := by
  cases fuel with
  | zero => rfl
  | succ fuel => simp [objLoop, skipWs, isWs]

omit hnumber in
theorem objLoop_comma (fuel : ℕ) (rest : List Char) (out : OrdMap String String) :
    objLoop (fuel + 1) (',' :: rest) out = objLoop fuel rest out := by
  simp [objLoop, skipWs, isWs]

theorem objLoop_text (fields : List (String × Value)) (fuel : ℕ) (rest : List Char)
    (out : OrdMap String String) (hfuel : (fieldsText numberText fields).length ≤ fuel) :
    objLoop fuel (fieldsText numberText fields ++ rest) out = kept numberText out fields := by
  induction fields generalizing fuel out with
  | nil => exact objLoop_close fuel rest out
  | cons field fields ih =>
    obtain ⟨k, x⟩ := field
    obtain ⟨hends, hne⟩ := ends_moreFieldsText numberText fields
    have hpos := List.length_pos_iff.mpr hne
    have hlen : 1 < (fieldText numberText (k, x)).length := by
      simp [fieldText, writeString, writeTail]
    rw [fieldsText, List.length_append] at hfuel
    obtain ⟨fuel, rfl⟩ : ∃ f, fuel = f + 1 := ⟨fuel - 1, by omega⟩
    rw [fieldsText, List.append_assoc, objLoop_field hnumber k x (ends_append hends hne rest)]
    cases fields with
    | nil => exact objLoop_close fuel rest _
    | cons field fields =>
      rw [moreFieldsText_cons, List.length_cons] at hfuel
      obtain ⟨fuel, rfl⟩ : ∃ f, fuel = f + 1 := ⟨fuel - 1, by omega⟩
      rw [moreFieldsText_cons, List.cons_append, objLoop_comma, ih fuel _ (by omega)]
      rfl

omit hnumber in
theorem arrLoop_close (fuel room : ℕ) (rest : List Char) : arrLoop fuel room (']' :: rest) = [] := by
  cases fuel with
  | zero => rfl
  | succ fuel =>
    cases room with
    | zero => rfl
    | succ room => simp [arrLoop, skipWs, isWs]

omit hnumber in
theorem arrLoop_comma (fuel room : ℕ) (rest : List Char) :
    arrLoop (fuel + 1) room (',' :: rest) = arrLoop fuel room rest := by
  cases room with
  | zero => cases fuel <;> rfl
  | succ room => simp [arrLoop, skipWs, isWs]

theorem arrLoop_value (x : Value) {rest : List Char} (hrest : Ends rest) (fuel room : ℕ) :
    arrLoop (fuel + 1) (room + 1) (x.text numberText ++ rest) =
      x.text numberText :: arrLoop fuel room rest := by
  have hskip := skip_text hnumber x hrest
  have hup := upTo_append (x.text numberText) rest
  have hws := skipWs_text hnumber x rest
  obtain ⟨c, t, htext, hc⟩ := text_head hnumber x
  simp only [isDelimiter, Bool.or_eq_false_iff, beq_eq_false_iff_ne] at hc
  rw [htext, List.cons_append] at hskip hup hws ⊢
  simp only [arrLoop, hws, if_neg hc.1.1.1, if_neg hc.1.2, hskip, hup]

theorem arrLoop_text (xs : List Value) (fuel room : ℕ) (rest : List Char)
    (hfuel : (listText numberText xs).length ≤ fuel) :
    arrLoop fuel room (listText numberText xs ++ rest) =
      (xs.take room).map fun x => x.text numberText := by
  induction xs generalizing fuel room with
  | nil =>
    rw [List.take_nil]
    exact arrLoop_close fuel room rest
  | cons x xs ih =>
    obtain ⟨hends, hne⟩ := ends_moreText numberText xs
    have hpos := List.length_pos_iff.mpr hne
    obtain ⟨c, t, htext, -⟩ := text_head hnumber x
    have hlen : 0 < (x.text numberText).length := by simp [htext]
    rw [listText, List.length_append] at hfuel
    obtain ⟨fuel, rfl⟩ : ∃ f, fuel = f + 1 := ⟨fuel - 1, by omega⟩
    cases room with
    | zero => rfl
    | succ room =>
      rw [listText, List.append_assoc, arrLoop_value hnumber x (ends_append hends hne rest),
        List.take_succ_cons, List.map_cons]
      congr 1
      cases xs with
      | nil =>
        rw [List.take_nil]
        exact arrLoop_close fuel room rest
      | cons y ys =>
        rw [moreText_cons, List.length_cons] at hfuel
        obtain ⟨fuel, rfl⟩ : ∃ f, fuel = f + 1 := ⟨fuel - 1, by omega⟩
        rw [moreText_cons, List.cons_append, arrLoop_comma, ih fuel room (by omega)]

/-- The kind of a value. -/
def kindOf : Value → Kind
  | .null => .null
  | .bool _ => .scalar
  | .number _ => .scalar
  | .string _ => .str
  | .array _ => .array
  | .object _ => .object

theorem kindAt_text (x : Value) {c : Char} {t : List Char} (htext : x.text numberText = c :: t) :
    kindAt c (c :: t) = kindOf x := by
  have hliteral : ∀ {u : List Char}, IsLiteral u → u ≠ "null".toList → u = c :: t →
      kindAt c (c :: t) = .scalar := by
    intro u hu hne heq
    obtain ⟨hquote, hbrace, hbracket, -⟩ := hu.plain c (heq ▸ List.mem_cons_self)
    rw [heq] at hne
    simp only [kindAt, if_neg hquote, if_neg hbrace, if_neg hbracket]
    rw [if_neg fun h => hne h.2]
  cases x with
  | null =>
    have hnull : c :: t = "null".toList := htext.symm
    have hc : c = 'n' := by
      injection hnull
    rw [kindAt, if_neg (by rw [hc]; decide), if_neg (by rw [hc]; decide), if_neg (by rw [hc]; decide),
      if_pos ⟨hc, hnull⟩, kindOf]
  | bool w => exact hliteral (isLiteral_bool w) (by cases w <;> decide) htext
  | number n => exact hliteral (hnumber n).isLiteral (numberText_ne_null hnumber n) htext
  | string s =>
    cases htext
    rfl
  | array xs =>
    cases htext
    rfl
  | object fields =>
    cases htext
    rfl

/-- The value of a name with its kind, and the text from its start on. -/
theorem span_text (v : Value) (key : String) :
    match v.find key with
    | none => span (v.text numberText) key = none
    | some x => ∃ b, span (v.text numberText) key =
        some (kindOf x, x.text numberText ++ b, x.text numberText) := by
  have hfind := find_text hnumber v key
  cases hx : v.find key with
  | none =>
    rw [hx] at hfind
    simp [span, hfind]
  | some x =>
    rw [hx] at hfind
    obtain ⟨b, hb, hfind⟩ := hfind
    have hskip := skip_text hnumber x hb
    have hup := upTo_append (x.text numberText) b
    obtain ⟨c, t, htext, hc⟩ := text_head hnumber x
    have hkind := kindAt_text hnumber x htext
    rw [htext, List.cons_append] at hskip hup hfind
    refine ⟨b, ?_⟩
    simp [span, hfind, hskip, hup, htext, hkind]

theorem jsonObj_text (v : Value) (key : String) :
    jsonObj (v.text numberText) key = scanObj numberText v key := by
  have hspan := span_text hnumber v key
  rw [jsonObj, scanObj]
  cases hx : v.find key with
  | none =>
    rw [hx] at hspan
    rw [hspan]
  | some x =>
    rw [hx] at hspan
    obtain ⟨b, hspan⟩ := hspan
    rw [hspan]
    cases x with
    | object fields =>
      change objLoop _ (fieldsText numberText fields ++ b) OrdMap.empty = _
      rw [objLoop_text hnumber fields _ b _ (by simp [Value.text]; omega)]
      rfl
    | _ => rfl

theorem jsonArrObjects_text (v : Value) (key : String) :
    jsonArrObjects (v.text numberText) key = (scanArr v key).map fun x => x.text numberText := by
  have hspan := span_text hnumber v key
  rw [jsonArrObjects, scanArr]
  cases hx : v.find key with
  | none =>
    rw [hx] at hspan
    rw [hspan]
    rfl
  | some x =>
    rw [hx] at hspan
    obtain ⟨b, hspan⟩ := hspan
    rw [hspan]
    cases x with
    | array xs =>
      change arrLoop _ arrayCap (listText numberText xs ++ b) = _
      rw [arrLoop_text hnumber xs _ _ b (by simp [Value.text]; omega)]
    | _ => rfl

end

end Scan

end GbfrLan.Json
