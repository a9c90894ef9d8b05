import GbfrLan.Json.Value

/-!
# Reading JSON texts

The reader of the broker's JSON library on lists of characters: white space, strings with
their escapes, numbers, and containers down to its depth limit. A repeated key of an object
keeps its last value. A number that is no 64-bit integer goes to `readFloat`, the
conversion of a decimal text to the bits of a double.

`Reads` says that a text is read as a value in front of everything that can follow a value.
Its rules build the meaning of a text from the meaning of its parts.
-/
namespace GbfrLan.Json.Read
open Lib

def isWs (c : Char) : Bool := c == ' ' || c == '\t' || c == '\n' || c == '\r'

def skipWs (cs : List Char) : List Char := cs.dropWhile isWs

/-- White space and then this character. -/
def token (c : Char) (cs : List Char) : Option (List Char) :=
  match skipWs cs with
  | [] => none
  | c' :: rest => if c' = c then some rest else none

def hexDigit (c : Char) : Option ℕ :=
  if '0' ≤ c ∧ c ≤ '9' then some (c.toNat - '0'.toNat)
  else if 'a' ≤ c ∧ c ≤ 'f' then some (c.toNat - 'a'.toNat + 10)
  else if 'A' ≤ c ∧ c ≤ 'F' then some (c.toNat - 'A'.toNat + 10)
  else none

def hex4 (a b c d : Char) : Option ℕ := do
  let a ← hexDigit a
  let b ← hexDigit b
  let c ← hexDigit c
  let d ← hexDigit d
  return 16 * (16 * (16 * a + b) + c) + d

/-- The escapes of one letter. -/
def shortEscape (e : Char) : Option Char :=
  if e = '"' ∨ e = '\\' ∨ e = '/' then some e
  else if e = 'b' then some (Char.ofNat 8)
  else if e = 'f' then some (Char.ofNat 12)
  else if e = 'n' then some '\n'
  else if e = 'r' then some '\r'
  else if e = 't' then some '\t'
  else none

def isHighSurrogate (n : ℕ) : Bool := 0xD800 ≤ n && n < 0xDC00

def isLowSurrogate (n : ℕ) : Bool := 0xDC00 ≤ n && n < 0xE000

/-- A string from behind its opening quote: the decoded text and what follows it. -/
def strTail : List Char → Option (List Char × List Char)
  | [] => none
  | c :: rest =>
      if c = '"' then some ([], rest)
      else if c = '\\' then
        match rest with
        | [] => none
        | e :: rest =>
            if e = 'u' then
              match rest with
              | x :: y :: z :: w :: rest =>
                  match hex4 x y z w with
                  | none => none
                  | some hi =>
                      if isHighSurrogate hi then
                        match rest with
                        | b :: u :: x :: y :: z :: w :: rest =>
                            match hex4 x y z w with
                            | none => none
                            | some lo =>
                                if b = '\\' ∧ u = 'u' ∧ isLowSurrogate lo then
                                  let c := Char.ofNat (0x10000 + (hi - 0xD800) * 0x400 + (lo - 0xDC00))
                                  (strTail rest).map fun (s, rest) => (c :: s, rest)
                                else none
                        | _ => none
                      else if isLowSurrogate hi then none
                      else (strTail rest).map fun (s, rest) => (Char.ofNat hi :: s, rest)
              | _ => none
            else
              match shortEscape e with
              | none => none
              | some c => (strTail rest).map fun (s, rest) => (c :: s, rest)
      else if c.toNat < 0x20 then none
      else (strTail rest).map fun (s, rest) => (c :: s, rest)

/-- The digits at the front, of which there is one at least. -/
def digits (cs : List Char) : Option (List Char × List Char) :=
  match cs.takeWhile Char.isDigit with
  | [] => none
  | ds => some (ds, cs.dropWhile Char.isDigit)

/-- The fraction of a number, if it has one. -/
def fraction : List Char → Option (List Char × List Char)
  | '.' :: cs => (digits cs).map fun (ds, rest) => ('.' :: ds, rest)
  | cs => some ([], cs)

/-- The exponent of a number, if it has one. -/
def exponent : List Char → Option (List Char × List Char)
  | [] => some ([], [])
  | c :: cs =>
      if c = 'e' ∨ c = 'E' then
        match cs with
        | [] => none
        | s :: cs' =>
            if s = '+' ∨ s = '-' then (digits cs').map fun (ds, rest) => (c :: s :: ds, rest)
            else (digits cs).map fun (ds, rest) => (c :: ds, rest)
      else some ([], c :: cs)

section
variable (readFloat : List Char → Option UInt64)

/-- A number without its sign: an integer has no leading zero. -/
def magnitude (neg : Bool) (cs : List Char) : Option (Number × List Char) := do
  let (int, rest) ← digits cs
  if int.head? = some '0' ∧ 1 < int.length then none
  else
    let (frac, rest) ← fraction rest
    let (exp, rest) ← exponent rest
    let n := Nat.ofDigitChars 10 int 0
    let text := (if neg then ['-'] else []) ++ int ++ frac ++ exp
    let float := (readFloat text).map fun bits => (Number.float bits, rest)
    if frac ≠ [] ∨ exp ≠ [] then float
    else if neg then
      if 0 < n ∧ n ≤ 2 ^ 63 then some (.negInt (Int64.ofInt (-n)), rest) else float
    else if n < 2 ^ 64 then some (.posInt (UInt64.ofNat n), rest)
    else float

def number : List Char → Option (Number × List Char)
  | '-' :: cs => magnitude readFloat true cs
  | cs => magnitude readFloat false cs

mutual

/-- A value, with the depth that is left for containers. -/
def value : ℕ → ℕ → List Char → Option (Value × List Char)
  | 0, _, _ => none
  | fuel + 1, depth, cs =>
      match skipWs cs with
      | [] => none
      | c :: rest =>
          if c = '"' then (strTail rest).map fun (s, rest) => (.string (String.ofList s), rest)
          else if c = '{' then
            match depth with
            | depth + 2 =>
                match token '}' rest with
                | some rest => some (.object [], rest)
                | none => (members fuel (depth + 1) [] rest).map fun (m, rest) => (.object m, rest)
            | _ => none
          else if c = '[' then
            match depth with
            | depth + 2 =>
                match token ']' rest with
                | some rest => some (.array [], rest)
                | none => (elements fuel (depth + 1) rest).map fun (xs, rest) => (.array xs, rest)
            | _ => none
          else if c = 'n' then
            (Text.stripPrefix "ull".toList rest).map fun rest => (.null, rest)
          else if c = 't' then
            (Text.stripPrefix "rue".toList rest).map fun rest => (.bool true, rest)
          else if c = 'f' then
            (Text.stripPrefix "alse".toList rest).map fun rest => (.bool false, rest)
          else (number readFloat (c :: rest)).map fun (n, rest) => (.number n, rest)

/-- The members of an object from the next one to the closing brace. -/
def members : ℕ → ℕ → Fields → List Char → Option (Fields × List Char)
  | 0, _, _, _ => none
  | fuel + 1, depth, m, cs => do
      let rest ← token '"' cs
      let (key, rest) ← strTail rest
      let rest ← token ':' rest
      let (v, rest) ← value fuel depth rest
      let m := Entries.insert (String.ofList key) v m
      match token ',' rest with
      | some rest => members fuel depth m rest
      | none => (token '}' rest).map fun rest => (m, rest)

/-- The elements of an array from the next one to the closing bracket. -/
def elements : ℕ → ℕ → List Char → Option (List Value × List Char)
  | 0, _, _ => none
  | fuel + 1, depth, cs => do
      let (v, rest) ← value fuel depth cs
      match token ',' rest with
      | some rest => (elements fuel depth rest).map fun (vs, rest) => (v :: vs, rest)
      | none => (token ']' rest).map fun rest => ([v], rest)

end

/-- `from_slice`: one value and nothing but white space behind it. -/
def fromSlice (cs : List Char) : Option Value :=
  match value readFloat (cs.length + 1) 128 cs with
  | some (v, rest) => if skipWs rest = [] then some v else none
  | none => none

/-! ### Rules -/

@[simp] theorem token_self (c : Char) (rest : List Char) (h : isWs c = false) :
    token c (c :: rest) = some rest := by
  simp [token, skipWs, h]

theorem token_of_ne {c c' : Char} (rest : List Char) (h : isWs c' = false) (hne : c' ≠ c) :
    token c (c' :: rest) = none := by
  simp [token, skipWs, h, hne]

/-- Behind an opening quote the text stands for this string. -/
def Quotes (t : List Char) (s : String) : Prop :=
  ∀ rest, strTail (t ++ '"' :: rest) = some (s.toList, rest)

/-- Characters that a string may hold as they are. -/
def isPlainChar (c : Char) : Bool := c != '"' && c != '\\' && decide (0x20 ≤ c.toNat)

/-- The string needs no escape. -/
def Plain (s : String) : Prop := s.toList.all isPlainChar = true

instance (s : String) : Decidable (Plain s) := inferInstanceAs (Decidable (_ = true))

@[simp] theorem strTail_quote (rest : List Char) : strTail ('"' :: rest) = some ([], rest) := by
  rw [strTail.eq_def]
  simp

theorem strTail_cons_plain {c : Char} (h : isPlainChar c = true) (cs : List Char) :
    strTail (c :: cs) = (strTail cs).map fun (s, rest) => (c :: s, rest) := by
  simp only [isPlainChar, Bool.and_eq_true, bne_iff_ne, ne_eq, decide_eq_true_eq] at h
  obtain ⟨⟨hquote, hback⟩, hctl⟩ := h
  rw [strTail.eq_def]
  simp only [if_neg hquote, if_neg hback, if_neg (Nat.not_lt.mpr hctl)]

theorem quotes_plain {s : String} (h : Plain s) : Quotes s.toList s := by
  intro rest
  unfold Plain at h
  revert h
  induction s.toList with
  | nil => simp
  | cons c cs ih =>
    intro h
    rw [List.all_cons, Bool.and_eq_true] at h
    rw [List.cons_append, strTail_cons_plain h.1, ih h.2]
    rfl

/-- What may stand behind a value. -/
def Ends (rest : List Char) : Prop := ∀ c ∈ rest.head?, c = ',' ∨ c = '}' ∨ c = ']'

/-- Digits are ASCII. -/
theorem ascii_of_hexDigit {c : Char} {d : ℕ} (h : hexDigit c = some d) : c.toNat < 128 := by
  by_contra hlarge
  have hlt (x : Char) (hx : x.toNat < 128) : ¬c ≤ x := fun hle =>
    absurd (UInt32.le_iff_toNat_le.mp (Char.le_def.mp hle)) (by
      have : c.val.toNat = c.toNat := rfl
      have : x.val.toNat = x.toNat := rfl
      omega)
  rw [hexDigit, if_neg fun h => hlt '9' (by decide) h.2,
    if_neg fun h => hlt 'f' (by decide) h.2, if_neg fun h => hlt 'F' (by decide) h.2] at h
  cases h

theorem hexDigit_lt {c : Char} {d : ℕ} (h : hexDigit c = some d) : d < 16 := by
  have hall : ∀ n : Fin 128, ∀ d, hexDigit (Char.ofNat n) = some d → d < 16 := by decide
  have hc := hall ⟨c.toNat, ascii_of_hexDigit h⟩
  simp only [Char.ofNat_toNat] at hc
  exact hc d h

/-- The text is read as the value, with this depth left. -/
def Reads (d : ℕ) (t : List Char) (v : Value) : Prop :=
  ∀ fuel rest, t.length < fuel → Ends rest →
    value readFloat fuel d (t ++ rest) = some (v, rest)

theorem reads_string {t : List Char} {s : String} (d : ℕ) (h : Quotes t s) :
    Reads readFloat d ('"' :: t ++ ['"']) (.string s) := by
  intro fuel rest hfuel _
  cases fuel with
  | zero => omega
  | succ fuel =>
    have hws : skipWs ('"' :: t ++ ['"'] ++ rest) = '"' :: (t ++ '"' :: rest) := by
      simp [skipWs, isWs]
    rw [value, hws]
    simp [h rest]

/-- A member of an object with the meaning of its name and of its value. -/
structure Member (d : ℕ) where
  keyText : List Char
  key : String
  text : List Char
  val : Value
  quotes : Quotes keyText key
  reads : Reads readFloat d text val

variable {readFloat}

/-- The text of the member. -/
def Member.full {d : ℕ} (m : Member readFloat d) : List Char :=
  '"' :: m.keyText ++ '"' :: ':' :: m.text

/-- One turn of the loop over the members. -/
theorem members_member {d : ℕ} (m : Member readFloat d) (acc : Fields) {fuel : ℕ}
    {rest : List Char} (hfuel : m.text.length < fuel) (hends : Ends rest) :
    members readFloat (fuel + 1) d acc (m.full ++ rest) =
      match token ',' rest with
      | some rest => members readFloat fuel d (Entries.insert m.key m.val acc) rest
      | none => (token '}' rest).map fun rest => (Entries.insert m.key m.val acc, rest) := by
  have hkey := m.quotes (':' :: (m.text ++ rest))
  have hval := m.reads fuel rest hfuel hends
  have hquote : isWs '"' = false := by decide
  have hcolon : isWs ':' = false := by decide
  simp only [members, Member.full, List.cons_append, List.append_assoc,
    token_self _ _ hquote, token_self _ _ hcolon, Option.bind_eq_bind, Option.bind_some, hkey, hval,
    String.ofList_toList]

theorem members_reads {d : ℕ} (m : Member readFloat d) (ms : List (Member readFloat d))
    (acc : Fields) (fuel : ℕ) (rest : List Char)
    (hfuel : (m.full ++ ms.flatMap fun m => ',' :: m.full).length < fuel) :
    members readFloat fuel d acc (m.full ++ ((ms.flatMap fun m => ',' :: m.full) ++ '}' :: rest)) =
      some (((m :: ms).map fun m => (m.key, m.val)).foldl (fun f e => Entries.insert e.1 e.2 f) acc,
        rest) := by
  induction ms generalizing m acc fuel with
  | nil =>
    cases fuel with
    | zero => omega
    | succ fuel =>
      have hlen : m.text.length < fuel := by
        simp [Member.full] at hfuel
        omega
      have hends : Ends ('}' :: rest) := by simp [Ends]
      have hcomma : token ',' ('}' :: rest) = none := token_of_ne rest rfl (by decide)
      have hclose : token '}' ('}' :: rest) = some rest := token_self '}' rest rfl
      rw [List.flatMap_nil, List.nil_append, members_member m acc hlen hends, hcomma, hclose]
      rfl
  | cons m' ms ih =>
    cases fuel with
    | zero => omega
    | succ fuel =>
      simp only [List.flatMap_cons, List.cons_append, List.length_append, List.length_cons] at hfuel
      have hlen : m.text.length < fuel := by
        simp only [Member.full, List.length_append, List.length_cons] at hfuel
        omega
      set tail := m'.full ++ ((ms.flatMap fun m => ',' :: m.full) ++ '}' :: rest) with htail
      have hends : Ends (',' :: tail) := by simp [Ends]
      have hcomma : token ',' (',' :: tail) = some tail := token_self ',' tail rfl
      have hshape : ((m' :: ms).flatMap fun m => ',' :: m.full) ++ '}' :: rest = ',' :: tail := by
        simp [htail]
      rw [hshape, members_member m acc hlen hends, hcomma]
      simp only
      rw [htail, ih m' _ fuel (by simp only [List.length_append]; omega)]
      rfl

theorem reads_object {d : ℕ} (ms : List (Member readFloat (d + 1))) :
    Reads readFloat (d + 2) ('{' :: Text.commas (ms.map Member.full) ++ ['}'])
      (.obj (ms.map fun m => (m.key, m.val))) := by
  intro fuel rest hfuel _
  cases fuel with
  | zero => omega
  | succ fuel =>
    have hws (cs : List Char) : skipWs ('{' :: cs) = '{' :: cs := by simp [skipWs, isWs]
    cases ms with
    | nil =>
      have hclose : token '}' ('}' :: rest) = some rest := token_self '}' rest rfl
      simp [value, hws, Text.commas, hclose, Value.obj]
    | cons m ms =>
      have hopen (cs : List Char) : token '}' (m.full ++ cs) = none :=
        token_of_ne _ rfl (by decide)
      have hmembers := members_reads m ms [] fuel rest (by
        simp only [List.map_cons, Text.commas, List.flatMap_map, List.length_append,
          List.length_cons] at hfuel ⊢
        omega)
      simp only [List.map_cons, Text.commas, List.flatMap_map, List.cons_append, List.append_assoc,
        value, hws]
      simp [hopen, hmembers, Value.obj]

variable (readFloat) in
/-- The texts of members stand for these members. -/
def ReadsFields (d : ℕ) (ts : List (List Char)) (es : List (String × Value)) : Prop :=
  ∃ ms : List (Member readFloat d),
    ms.map Member.full = ts ∧ ms.map (fun m => (m.key, m.val)) = es

namespace ReadsFields

variable {d : ℕ} {ts ts' : List (List Char)} {es es' : List (String × Value)}

theorem nil : ReadsFields readFloat d [] [] := ⟨[], rfl, rfl⟩

theorem append (h : ReadsFields readFloat d ts es) (h' : ReadsFields readFloat d ts' es') :
    ReadsFields readFloat d (ts ++ ts') (es ++ es') := by
  obtain ⟨ms, rfl, rfl⟩ := h
  obtain ⟨ms', rfl, rfl⟩ := h'
  exact ⟨ms ++ ms', List.map_append, List.map_append⟩

theorem cons {key : String} {t : List Char} {v : Value} (hkey : Plain key)
    (ht : Reads readFloat d t v) (h : ReadsFields readFloat d ts es) :
    ReadsFields readFloat d (('"' :: key.toList ++ '"' :: ':' :: t) :: ts) ((key, v) :: es) := by
  obtain ⟨ms, rfl, rfl⟩ := h
  exact ⟨⟨key.toList, key, t, v, quotes_plain hkey, ht⟩ :: ms, rfl, rfl⟩

theorem single {key : String} {t : List Char} {v : Value} (hkey : Plain key)
    (ht : Reads readFloat d t v) :
    ReadsFields readFloat d ['"' :: key.toList ++ '"' :: ':' :: t] [(key, v)] :=
  cons hkey ht nil

theorem object (h : ReadsFields readFloat (d + 1) ts es) :
    Reads readFloat (d + 2) ('{' :: Text.commas ts ++ ['}']) (.obj es) := by
  obtain ⟨ms, rfl, rfl⟩ := h
  exact reads_object ms

end ReadsFields

/-- A quoted text with the string it stands for. -/
structure Quoted where
  text : List Char
  str : String
  quotes : Quotes text str

def Quoted.full (q : Quoted) : List Char := '"' :: q.text ++ ['"']

/-- One turn of the loop over the elements. -/
theorem elements_quoted (q : Quoted) (d : ℕ) {fuel : ℕ} {rest : List Char}
    (hfuel : q.full.length < fuel) (hends : Ends rest) :
    elements readFloat (fuel + 1) d (q.full ++ rest) =
      match token ',' rest with
      | some rest =>
          (elements readFloat fuel d rest).map fun (vs, rest) => (.string q.str :: vs, rest)
      | none => (token ']' rest).map fun rest => ([.string q.str], rest) := by
  have hval := reads_string readFloat d q.quotes fuel rest hfuel hends
  simp only [elements, Quoted.full, Option.bind_eq_bind, Option.bind_some, hval]

theorem elements_reads (q : Quoted) (qs : List Quoted) (d fuel : ℕ) (rest : List Char)
    (hfuel : (q.full ++ qs.flatMap fun q => ',' :: q.full).length + 1 < fuel) :
    elements readFloat fuel d (q.full ++ ((qs.flatMap fun q => ',' :: q.full) ++ ']' :: rest)) =
      some ((q :: qs).map fun q => .string q.str, rest) := by
  induction qs generalizing q fuel with
  | nil =>
    cases fuel with
    | zero => omega
    | succ fuel =>
      simp only [List.flatMap_nil, List.append_nil] at hfuel
      have hends : Ends (']' :: rest) := by simp [Ends]
      have hcomma : token ',' (']' :: rest) = none := token_of_ne rest rfl (by decide)
      have hclose : token ']' (']' :: rest) = some rest := token_self ']' rest rfl
      rw [List.flatMap_nil, List.nil_append, elements_quoted q d (by omega) hends, hcomma, hclose]
      rfl
  | cons q' qs ih =>
    cases fuel with
    | zero => omega
    | succ fuel =>
      simp only [List.flatMap_cons, List.cons_append, List.length_append, List.length_cons] at hfuel
      set tail := q'.full ++ ((qs.flatMap fun q => ',' :: q.full) ++ ']' :: rest) with htail
      have hends : Ends (',' :: tail) := by simp [Ends]
      have hcomma : token ',' (',' :: tail) = some tail := token_self ',' tail rfl
      have hshape : ((q' :: qs).flatMap fun q => ',' :: q.full) ++ ']' :: rest = ',' :: tail := by
        simp [htail]
      rw [hshape, elements_quoted q d (by omega) hends, hcomma]
      simp only
      rw [htail, ih q' fuel (by simp only [List.length_append]; omega)]
      rfl

theorem reads_strings {d : ℕ} (qs : List Quoted) :
    Reads readFloat (d + 2) ('[' :: Text.commas (qs.map Quoted.full) ++ [']'])
      (.array (qs.map fun q => .string q.str)) := by
  intro fuel rest hfuel _
  cases fuel with
  | zero => omega
  | succ fuel =>
    have hws (cs : List Char) : skipWs ('[' :: cs) = '[' :: cs := by simp [skipWs, isWs]
    cases qs with
    | nil =>
      have hclose : token ']' (']' :: rest) = some rest := token_self ']' rest rfl
      simp [value, hws, Text.commas, hclose]
    | cons q qs =>
      have hopen (cs : List Char) : token ']' (q.full ++ cs) = none :=
        token_of_ne _ rfl (by decide)
      have helements : elements readFloat fuel (d + 1) _ = _ := elements_reads q qs (d + 1) fuel rest (by
        simp only [List.map_cons, Text.commas, List.flatMap_map, List.length_append,
          List.length_cons, List.length_nil] at hfuel ⊢
        omega)
      simp only [List.map_cons, Text.commas, List.flatMap_map, List.cons_append, List.append_assoc,
        value, hws]
      simp [hopen, helements]

/-! ### Decimal numbers -/

theorem toDigits_head_ne_zero {n : ℕ} (h : 0 < n) : (Nat.toDigits 10 n).head? ≠ some '0' := by
  induction n using Nat.strong_induction_on with
  | _ n ih =>
    rw [Nat.toDigits_eq_if (by omega)]
    split_ifs with hlt
    · interval_cases n <;> decide
    · have hdiv : 0 < n / 10 := by omega
      rw [List.head?_append_of_ne_nil _ Nat.toDigits_ne_nil]
      exact ih (n / 10) (by omega) hdiv

theorem takeWhile_digits {ds rest : List Char} (hds : ∀ c ∈ ds, c.isDigit = true)
    (hrest : ∀ c ∈ rest.head?, c.isDigit = false) :
    (ds ++ rest).takeWhile Char.isDigit = ds ∧ (ds ++ rest).dropWhile Char.isDigit = rest := by
  rw [List.takeWhile_append_of_pos hds, List.dropWhile_append_of_pos hds]
  cases rest with
  | nil => simp
  | cons c rest =>
    have hc : c.isDigit = false := hrest c rfl
    simp [hc]

theorem Ends.not_digit {rest : List Char} (h : Ends rest) :
    ∀ c ∈ rest.head?, c.isDigit = false := by
  intro c hc
  obtain rfl | rfl | rfl := h c hc <;> rfl

theorem magnitude_toDigits {n : ℕ} (hn : n < 2 ^ 64) {rest : List Char} (h : Ends rest) :
    magnitude readFloat false (Nat.toDigits 10 n ++ rest) =
      some (.posInt (UInt64.ofNat n), rest) := by
  have hds : ∀ c ∈ Nat.toDigits 10 n, c.isDigit = true := fun c hc =>
    Nat.isDigit_of_mem_toDigits (by omega) (by omega) hc
  obtain ⟨htake, hdrop⟩ := takeWhile_digits hds h.not_digit
  have hdigits : digits (Nat.toDigits 10 n ++ rest) = some (Nat.toDigits 10 n, rest) := by
    unfold digits
    rw [htake, hdrop]
    cases hd : Nat.toDigits 10 n with
    | nil => exact absurd hd Nat.toDigits_ne_nil
    | cons c ds => rfl
  have hzero : ¬((Nat.toDigits 10 n).head? = some '0' ∧ 1 < (Nat.toDigits 10 n).length) := by
    rintro ⟨hhead, hlen⟩
    rcases Nat.eq_zero_or_pos n with rfl | hpos
    · simp at hlen
    · exact toDigits_head_ne_zero hpos hhead
  have hfrac : fraction rest = some ([], rest) := by
    cases rest with
    | nil => rfl
    | cons c rest => obtain rfl | rfl | rfl := h c rfl <;> rfl
  have hexp : exponent rest = some ([], rest) := by
    cases rest with
    | nil => rfl
    | cons c rest => obtain rfl | rfl | rfl := h c rfl <;> rfl
  simp [magnitude, hdigits, hzero, hfrac, hexp]
  omega

theorem reads_nat (d : ℕ) {n : ℕ} (hn : n < 2 ^ 64) :
    Reads readFloat d (toString n).toList (.number (.posInt (UInt64.ofNat n))) := by
  intro fuel rest hfuel hends
  have htext : (toString n).toList = Nat.toDigits 10 n := Nat.toList_repr
  rw [htext] at hfuel ⊢
  have hnum : magnitude readFloat false _ = _ := magnitude_toDigits hn hends
  cases fuel with
  | zero => omega
  | succ fuel =>
    cases hd : Nat.toDigits 10 n with
    | nil => exact absurd hd Nat.toDigits_ne_nil
    | cons c ds =>
      have hc : c.isDigit = true :=
        Nat.isDigit_of_mem_toDigits (b := 10) (n := n) (by omega) (by omega) (by simp [hd])
      have hne (x : Char) (hx : x.isDigit = false) : c ≠ x := by
        rintro rfl
        simp [hx] at hc
      have hws : skipWs (c :: ds ++ rest) = c :: ds ++ rest := by
        simp [skipWs, isWs, hne ' ' rfl, hne '\t' rfl, hne '\n' rfl, hne '\r' rfl]
      have hread : number readFloat (c :: ds ++ rest) =
          some (.posInt (UInt64.ofNat n), rest) := by
        rw [← hnum, hd]
        unfold number
        split
        · rename_i heq
          exact absurd (List.cons.inj heq).1 (hne '-' rfl)
        · rfl
      simp only [List.cons_append] at hws hread ⊢
      rw [value, hws]
      simp [hne '"' rfl, hne '{' rfl, hne '[' rfl, hne 'n' rfl, hne 't' rfl, hne 'f' rfl, hread]

theorem fromSlice_of_reads {t : List Char} {v : Value} (h : Reads readFloat 128 t v) :
    fromSlice readFloat t = some v := by
  have hval := h (t.length + 1) [] (by omega) (by simp [Ends])
  rw [List.append_nil] at hval
  simp [fromSlice, hval, skipWs]

end

end GbfrLan.Json.Read
