import GbfrLan.Json.Scan

/-!
# The scanner of the shims on texts

The accessors of `common/json.rs` on lists of characters. A position of the source is the text
from there on. The recursions that do not follow the text carry a count, and the length of the
text is enough of it.
-/
namespace GbfrLan.Json.Scan
open Lib Read

/-- `string` from behind the opening quote: the decoded text and what follows it. Unlike the
broker's reader this one takes control characters as they are. -/
def strTail : List Char → Option (List Char × List Char)
  | [] => none
  | c :: rest =>
      if c = '"' then some ([], rest)
      else if c = '\\' then
        match rest with
        | [] => none
        | e :: rest =>
            if e = 'u' then
              match rest with
              | x :: y :: z :: w :: rest =>
                  match hex4 x y z w with
                  | none => none
                  | some hi =>
                      if isHighSurrogate hi then
                        match rest with
                        | b :: u :: x :: y :: z :: w :: rest =>
                            match hex4 x y z w with
                            | none => none
                            | some lo =>
                                if b = '\\' ∧ u = 'u' ∧ isLowSurrogate lo then
                                  let c := Char.ofNat (0x10000 + (hi - 0xD800) * 0x400 + (lo - 0xDC00))
                                  (strTail rest).map fun (s, rest) => (c :: s, rest)
                                else none
                        | _ => none
                      else if isLowSurrogate hi then none
                      else (strTail rest).map fun (s, rest) => (Char.ofNat hi :: s, rest)
              | _ => none
            else
              match shortEscape e with
              | none => none
              | some c => (strTail rest).map fun (s, rest) => (c :: s, rest)
      else (strTail rest).map fun (s, rest) => (c :: s, rest)

/-- Where a number or a literal ends. -/
def isDelimiter (c : Char) : Bool := c == ',' || c == '}' || c == ']' || isWs c

mutual

/-- The text behind one value. -/
def skipValue : ℕ → List Char → Option (List Char)
  | 0, _ => none
  | fuel + 1, cs =>
      match skipWs cs with
      | [] => none
      | c :: rest =>
          if c = '"' then (strTail rest).map Prod.snd
          else if c = '{' then skipMembers fuel rest
          else if c = '[' then skipElements fuel rest
          else if isDelimiter c then none
          else some (rest.dropWhile fun c => !isDelimiter c)

/-- The text behind the closing brace; commas may stand anywhere between members. -/
def skipMembers : ℕ → List Char → Option (List Char)
  | 0, _ => none
  | fuel + 1, cs =>
      match skipWs cs with
      | [] => none
      | c :: rest =>
          if c = '}' then some rest
          else if c = ',' then skipMembers fuel rest
          else if c = '"' then do
            let (_, rest) ← strTail rest
            let rest ← token ':' rest
            let rest ← skipValue fuel rest
            skipMembers fuel rest
          else none

/-- The text behind the closing bracket. -/
def skipElements : ℕ → List Char → Option (List Char)
  | 0, _ => none
  | fuel + 1, cs =>
      match skipWs cs with
      | [] => none
      | c :: rest =>
          if c = ']' then some rest
          else if c = ',' then skipElements fuel rest
          else do
            let rest ← skipValue fuel (c :: rest)
            skipElements fuel rest

end

/-- `skip_value` with enough fuel. -/
def skip (cs : List Char) : Option (List Char) := skipValue (cs.length + 1) cs

def findFrom (key : String) : ℕ → List Char → Option (List Char)
  | 0, _ => none
  | _, [] => none
  | fuel + 1, c :: rest =>
      if c = '"' then
        match strTail rest with
        | none => none
        | some (text, rest) =>
            match token ':' rest with
            | some after =>
                if text = key.toList then some (skipWs after) else findFrom key fuel (skipWs rest)
            | none => findFrom key fuel (skipWs rest)
      else findFrom key fuel rest

/-- `find_value_start`: the text from the value of the first `"key"` that a colon follows. -/
def findValueStart (blob : List Char) (key : String) : Option (List Char) :=
  findFrom key blob.length blob

inductive Kind where
  | str
  | scalar
  | object
  | array
  | null
  deriving DecidableEq, Repr

/-- The part of a text in front of what is left of it. -/
def upTo (cs rest : List Char) : List Char := cs.take (cs.length - rest.length)

/-- The kind of a value by its first character; only a whole `null` is one. -/
def kindAt (c : Char) (raw : List Char) : Kind :=
  if c = '"' then .str
  else if c = '{' then .object
  else if c = '[' then .array
  else if c = 'n' ∧ raw = "null".toList then .null
  else .scalar

/-- The kind of the value of the first `key`, the text from its start on, and its own text. -/
def span (blob : List Char) (key : String) : Option (Kind × List Char × List Char) :=
  match findValueStart blob key with
  | none => none
  | some [] => none
  | some (c :: rest) =>
      (skip (c :: rest)).map fun after =>
        let raw := upTo (c :: rest) after
        (kindAt c raw, c :: rest, raw)

def jsonStr (blob : List Char) (key : String) : Option String :=
  (span blob key).bind fun (kind, start, raw) =>
    match kind with
    | .str => (strTail start.tail).map fun e => String.ofList e.1
    | .scalar => some (String.ofList raw)
    | _ => none

/-- What a number is written with. -/
def isNumeric (c : Char) : Bool :=
  c.isDigit || c == '+' || c == '-' || c == '.' || c == 'e' || c == 'E'

def jsonNum (blob : List Char) (key : String) : Option String :=
  (span blob key).bind fun (kind, _, raw) =>
    if kind ≠ .scalar then none
    else if raw = [] ∨ !raw.all isNumeric then none
    else some (String.ofList raw)

/-- `str::parse` to an unsigned 32-bit number. -/
def parseU32 (s : String) : Option UInt32 :=
  ((parseU64 s.toList).filter fun n => decide (n < 2 ^ 32)).map UInt32.ofNat

def jsonU32 (blob : List Char) (key : String) : Option UInt32 := (jsonStr blob key).bind parseU32

/-- The text that `json_obj` keeps of a member's value; nothing for a container. -/
def scalarOf (start after : List Char) : Option String :=
  match start with
  | [] => none
  | c :: rest =>
      if c = '{' ∨ c = '[' then none
      else if c = '"' then (strTail rest).map fun e => String.ofList e.1
      else
        let raw := upTo (c :: rest) after
        some (if raw = "null".toList then "" else String.ofList raw)

def keep (out : OrdMap String String) (k : String) (v : Option String) : OrdMap String String :=
  match v with
  | some v => if k.isEmpty ∨ objectCap ≤ out.size then out else out.insert k v
  | none => out

/-- The members of an object from behind its brace; what is malformed ends the loop. -/
def objLoop : ℕ → List Char → OrdMap String String → OrdMap String String
  | 0, _, out => out
  | fuel + 1, cs, out =>
      match skipWs cs with
      | [] => out
      | c :: rest =>
          if c = '}' then out
          else if c = ',' then objLoop fuel rest out
          else if c = '"' then
            match strTail rest with
            | none => out
            | some (k, rest) =>
                match token ':' rest with
                | none => out
                | some rest =>
                    match skip (skipWs rest) with
                    | none => out
                    | some after =>
                        objLoop fuel after
                          (keep out (String.ofList k) (scalarOf (skipWs rest) after))
          else out

def jsonObj (blob : List Char) (key : String) : OrdMap String String :=
  match span blob key with
  | some (.object, start, _) => objLoop start.length start.tail OrdMap.empty
  | _ => OrdMap.empty

/-- The texts of the elements of an array from behind its bracket, as many as there is room for. -/
def arrLoop : ℕ → ℕ → List Char → List (List Char)
  | 0, _, _ => []
  | _, 0, _ => []
  | fuel + 1, room + 1, cs =>
      match skipWs cs with
      | [] => []
      | c :: rest =>
          if c = ']' then []
          else if c = ',' then arrLoop fuel (room + 1) rest
          else
            match skip (c :: rest) with
            | none => []
            | some after => upTo (c :: rest) after :: arrLoop fuel room after

def jsonArrObjects (blob : List Char) (key : String) : List (List Char) :=
  match span blob key with
  | some (.array, start, _) => arrLoop start.length arrayCap start.tail
  | _ => []

end GbfrLan.Json.Scan
