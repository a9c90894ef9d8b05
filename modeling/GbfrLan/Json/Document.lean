import GbfrLan.Json.Write

/-!
# JSON documents as they are written

The grammar of JSON texts with all its freedom of spelling: white space between any two tokens,
escapes of any kind, numbers in any form. A document keeps how it is written, so that `text` gives
the text back, and the meaning is read off it: `Document.find` is the value of the first member of a
name, a member's value before the members behind it.
-/
namespace GbfrLan.Json
open Lib Read

/-- White space between two tokens. -/
structure Gap where
  text : List Char
  ws : ∀ c ∈ text, isWs c = true

def Gap.none : Gap := ⟨[], fun _ h => absurd h List.not_mem_nil⟩

/-! ### Strings -/

/-- One character of a string as it is spelled. -/
inductive Spelling where
  | plain (c : Char) (h : isPlainChar c = true)
  | short (e c : Char) (h : shortEscape e = some c)
  | unicode (x y z w : Char) (n : ℕ) (h : hex4 x y z w = some n)
      (hhigh : isHighSurrogate n = false) (hlow : isLowSurrogate n = false)
  | pair (x y z w x' y' z' w' : Char) (hi lo : ℕ) (h : hex4 x y z w = some hi)
      (h' : hex4 x' y' z' w' = some lo) (hhigh : isHighSurrogate hi = true)
      (hlow : isLowSurrogate lo = true)

namespace Spelling

def text : Spelling → List Char
  | .plain c _ => [c]
  | .short e _ _ => ['\\', e]
  | .unicode x y z w _ _ _ _ => ['\\', 'u', x, y, z, w]
  | .pair x y z w x' y' z' w' _ _ _ _ _ _ =>
      ['\\', 'u', x, y, z, w, '\\', 'u', x', y', z', w']

/-- The character that is meant. -/
def char : Spelling → Char
  | .plain c _ => c
  | .short _ c _ => c
  | .unicode _ _ _ _ n _ _ _ => Char.ofNat n
  | .pair _ _ _ _ _ _ _ _ hi lo _ _ _ _ =>
      Char.ofNat (0x10000 + (hi - 0xD800) * 0x400 + (lo - 0xDC00))

end Spelling

/-- A string as it is spelled. -/
abbrev Spelled := List Spelling

namespace Spelled

def body (s : Spelled) : List Char := s.flatMap Spelling.text

def text (s : Spelled) : List Char := '"' :: (s.body ++ ['"'])

/-- The string that is meant. -/
def str (s : Spelled) : String := String.ofList (s.map Spelling.char)

end Spelled

/-! ### Numbers -/

/-- A run of digits, of which there is one at least. -/
structure Digits where
  text : List Char
  ne : text ≠ []
  digit : ∀ c ∈ text, c.isDigit = true

/-- The exponent of a number. -/
structure Exponent where
  letter : Char
  letter_eq : letter = 'e' ∨ letter = 'E'
  sign : Option Char
  sign_eq : ∀ c ∈ sign, c = '+' ∨ c = '-'
  digits : Digits

/-- A number as it is written. -/
structure Numeral where
  minus : Bool
  int : Digits
  noLeadingZero : int.text.head? = some '0' → int.text.length = 1
  frac : Option Digits
  exp : Option Exponent

namespace Numeral

def fracText (n : Numeral) : List Char :=
  match n.frac with
  | none => []
  | some ds => '.' :: ds.text

def expText (n : Numeral) : List Char :=
  match n.exp with
  | none => []
  | some e => e.letter :: (e.sign.toList ++ e.digits.text)

def text (n : Numeral) : List Char :=
  (if n.minus then ['-'] else []) ++ n.int.text ++ n.fracText ++ n.expText

end Numeral

/-! ### Values -/

mutual

inductive Document where
  | null
  | bool (b : Bool)
  | number (n : Numeral)
  | string (s : Spelled)
  | array (gap : Gap) (elems : List Element)
  | object (gap : Gap) (members : List Member)

/-- A value with the white space around it. -/
inductive Element where
  | mk (before : Gap) (value : Document) (after : Gap)

inductive Member where
  | mk (before : Gap) (name : Spelled) (after : Gap) (value : Element)

end

def Element.value : Element → Document
  | .mk _ x _ => x

def Member.name : Member → String
  | .mk _ name _ _ => name.str

def Member.value : Member → Document
  | .mk _ _ _ x => x.value

mutual

def Document.text : Document → List Char
  | .null => "null".toList
  | .bool b => (if b then "true" else "false").toList
  | .number n => n.text
  | .string s => s.text
  | .array gap elems => '[' :: (gap.text ++ elementsText elems)
  | .object gap members => '{' :: (gap.text ++ membersText members)

def Element.text : Element → List Char
  | .mk before x after => before.text ++ (x.text ++ after.text)

def Member.text : Member → List Char
  | .mk before name after x => before.text ++ (name.text ++ (after.text ++ ':' :: x.text))

/-- The elements of an array and its closing bracket. -/
def elementsText : List Element → List Char
  | [] => [']']
  | x :: xs => x.text ++ moreElementsText xs

/-- The elements behind another one. -/
def moreElementsText : List Element → List Char
  | [] => [']']
  | x :: xs => ',' :: (x.text ++ moreElementsText xs)

/-- The members of an object and its closing brace. -/
def membersText : List Member → List Char
  | [] => ['}']
  | m :: ms => m.text ++ moreMembersText ms

/-- The members behind another one. -/
def moreMembersText : List Member → List Char
  | [] => ['}']
  | m :: ms => ',' :: (m.text ++ moreMembersText ms)

end

/-! ### Meaning -/

mutual

/-- The value of the first member of this name. -/
def Document.find (key : String) : Document → Option Document
  | .array _ elems => findElements key elems
  | .object _ members => findMembers key members
  | _ => none

def Element.find (key : String) : Element → Option Document
  | .mk _ x _ => x.find key

def Member.find (key : String) : Member → Option Document
  | .mk _ name _ x => if name.str = key then some x.value else x.find key

def findElements (key : String) : List Element → Option Document
  | [] => none
  | x :: xs => (x.find key).or (findElements key xs)

def findMembers (key : String) : List Member → Option Document
  | [] => none
  | m :: ms => (m.find key).or (findMembers key ms)

end

namespace Document

/-- The text of a string, a number or a truth value. -/
def asText : Document → Option String
  | .bool b => some (if b then "true" else "false")
  | .number n => some (String.ofList n.text)
  | .string s => some s.str
  | _ => none

/-- The text of a value that is no container; `null` is empty. -/
def scalarText : Document → Option String
  | .null => some ""
  | .array _ _ => none
  | .object _ _ => none
  | x => x.asText

end Document

/-- The members of an object with a name and a value that is no container, up to the cap. -/
def scalars (members : List Member) : OrdMap String String :=
  members.foldl (fun out m =>
    match m.value.scalarText with
    | some t => if m.name = "" ∨ objectCap ≤ out.size then out else out.insert m.name t
    | none => out) OrdMap.empty

end GbfrLan.Json
