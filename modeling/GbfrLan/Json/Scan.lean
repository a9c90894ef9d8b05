import GbfrLan.Json.Read

/-!
# The JSON accessors of the shims

The shims write JSON with `jsonEscape` and read a field of a reply without building a tree:
the first member of that name in document order, at any depth. On the text of a value that
is the first match of a walk over the value.
-/
namespace GbfrLan.Json
open Lib

/-! ### Writing -/

def hexChar (n : ℕ) : Char := Nat.digitChar n

/-- One character inside a string. -/
def escapeChar (c : Char) : List Char :=
  if c = '"' then ['\\', '"']
  else if c = '\\' then ['\\', '\\']
  else if c = '\n' then ['\\', 'n']
  else if c = '\r' then ['\\', 'r']
  else if c = '\t' then ['\\', 't']
  else if c.toNat < 0x20 then
    ['\\', 'u', '0', '0', hexChar (c.toNat / 16), hexChar (c.toNat % 16)]
  else [c]

/-- `json_escape`. -/
def jsonEscape (s : String) : List Char := s.toList.flatMap escapeChar

/-- A control character as the reader gets it back from its four digits. -/
theorem hex4_control (n : ℕ) (h : n < 0x20) :
    Read.hex4 '0' '0' (hexChar (n / 16)) (hexChar (n % 16)) = some n := by
  interval_cases n <;> rfl

theorem strTail_short {e c : Char} (h : Read.shortEscape e = some c) (hu : e ≠ 'u')
    (cs : List Char) :
    Read.strTail ('\\' :: e :: cs) = (Read.strTail cs).map fun (s, rest) => (c :: s, rest) := by
  rw [Read.strTail.eq_def]
  simp [hu, h]

theorem strTail_control {c : Char} (h : c.toNat < 0x20) (cs : List Char) :
    Read.strTail ('\\' :: 'u' :: '0' :: '0' :: hexChar (c.toNat / 16) :: hexChar (c.toNat % 16) :: cs) =
      (Read.strTail cs).map fun (s, rest) => (c :: s, rest) := by
  have hhex := hex4_control c.toNat h
  have hhigh : Read.isHighSurrogate c.toNat = false := by
    simp only [Read.isHighSurrogate, Bool.and_eq_false_iff, decide_eq_false_iff_not]
    omega
  have hlow : Read.isLowSurrogate c.toNat = false := by
    simp only [Read.isLowSurrogate, Bool.and_eq_false_iff, decide_eq_false_iff_not]
    omega
  rw [Read.strTail.eq_def]
  simp [hhex, hhigh, hlow]

theorem strTail_escapeChar (c : Char) (cs : List Char) :
    Read.strTail (escapeChar c ++ cs) =
      (Read.strTail cs).map fun (s, rest) => (c :: s, rest) := by
  unfold escapeChar
  split_ifs with h1 h2 h3 h4 h5 h6
  · subst h1
    exact strTail_short rfl (by decide) cs
  · subst h2
    exact strTail_short rfl (by decide) cs
  · subst h3
    exact strTail_short rfl (by decide) cs
  · subst h4
    exact strTail_short rfl (by decide) cs
  · subst h5
    exact strTail_short rfl (by decide) cs
  · exact strTail_control h6 cs
  · have hplain : Read.isPlainChar c = true := by
      simp [Read.isPlainChar, h1, h2]
      omega
    exact Read.strTail_cons_plain hplain cs

/-- What is escaped is read back. -/
theorem quotes_jsonEscape (s : String) : Read.Quotes (jsonEscape s) s := by
  intro rest
  unfold jsonEscape
  induction s.toList with
  | nil => simp
  | cons c cs ih =>
    rw [List.flatMap_cons, List.append_assoc, strTail_escapeChar, ih]
    rfl

/-! ### Reading -/

namespace Value

mutual

/-- The value of the first member of this name, a member's value before the members behind it. -/
def find (key : String) : Value → Option Value
  | .object fields => findFields key fields
  | .array xs => findList key xs
  | _ => none

def findFields (key : String) : List (String × Value) → Option Value
  | [] => none
  | field :: rest => (findField key field).or (findFields key rest)

def findField (key : String) : String × Value → Option Value
  | (k, v) => if k = key then some v else find key v

def findList (key : String) : List Value → Option Value
  | [] => none
  | x :: xs => (find key x).or (findList key xs)

end

end Value

/-- The caps of `json_arr_objects` and `json_obj`. -/
def arrayCap : ℕ := 32
def objectCap : ℕ := 64

section
variable (numberText : Number → String)

/-- The text of a value that is no container; `null` is empty. -/
def scalarText : Value → Option String
  | .null => some ""
  | .bool b => some (if b then "true" else "false")
  | .number n => some (numberText n)
  | .string s => some s
  | _ => none

def scanStr (v : Value) (key : String) : Option String :=
  match v.find key with
  | some .null => none
  | some x => scalarText numberText x
  | none => none

/-- The scalars of an object field, as texts. -/
def scanObj (v : Value) (key : String) : OrdMap String String :=
  match v.find key with
  | some (.object fields) =>
      fields.foldl (fun out e =>
        match scalarText numberText e.2 with
        | some t => if e.1.isEmpty ∨ objectCap ≤ out.size then out else out.insert e.1 t
        | none => out) OrdMap.empty
  | _ => OrdMap.empty

def scanArr (v : Value) (key : String) : List Value :=
  match v.find key with
  | some (.array xs) => xs.take arrayCap
  | _ => []

end

end GbfrLan.Json
