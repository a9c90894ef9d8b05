import GbfrLan.Json.Scanner
import GbfrLan.Lib.Utf8
import GbfrLan.Lib.Outcome

/-!
# The scanner of the shims on bytes

The accessors of `common/json.rs` as they run: on the bytes of a blob, with an index into them.
What would panic there does so here: an index that is not in the blob, and a slice that is not in
it, or of the text at a place inside a character. A loop that does not follow the blob byte by byte
carries a count of its turns and is stuck when that is used up.
-/
namespace GbfrLan.Json.ByteScan
open Lib

/-- The byte of an ASCII character. -/
abbrev byte (c : Char) : UInt8 := c.toUInt8

def isWs (c : UInt8) : Bool := c == byte ' ' || c == byte '\t' || c == byte '\n' || c == byte '\r'

/-- Where a number or a literal ends. -/
def isDelimiter (c : UInt8) : Bool := c == byte ',' || c == byte '}' || c == byte ']' || isWs c

/-- `is_char_boundary`. -/
def isBoundary (b : List UInt8) (i : ℕ) : Bool :=
  match b[i]? with
  | some c => !Utf8.isContinuation c || i == 0
  | none => i == b.length

section
variable (b : List UInt8)

def peek (i : ℕ) : Option UInt8 := b[i]?

/-- `b[i]`. -/
def index (i : ℕ) : Outcome UInt8 :=
  match b[i]? with
  | some c => .ok c
  | none => .panic

/-- `&b[start..stop]`. -/
def slice (start stop : ℕ) : Outcome (List UInt8) :=
  if start ≤ stop ∧ stop ≤ b.length then .ok ((b.take stop).drop start) else .panic

/-- `&blob[start..stop]` of the blob as text. -/
def textSlice (start stop : ℕ) : Outcome String :=
  if isBoundary b start ∧ isBoundary b stop then
    (slice b start stop).bind fun bs => .ok (Utf8.decodeLossy bs)
  else .panic

/-- The first index from here on whose byte does not satisfy this. -/
def runWhile (p : UInt8 → Bool) (i : ℕ) : ℕ :=
  match h : b[i]? with
  | some c => if p c then runWhile p (i + 1) else i
  | none => i
termination_by b.length - i
decreasing_by
  have := (List.getElem?_eq_some_iff.mp h).1
  omega

def skipWs (i : ℕ) : ℕ := runWhile b isWs i

def hexDigit (c : UInt8) : Option ℕ :=
  if byte '0' ≤ c ∧ c ≤ byte '9' then some (c - byte '0').toNat
  else if byte 'a' ≤ c ∧ c ≤ byte 'f' then some (c - byte 'a' + 10).toNat
  else if byte 'A' ≤ c ∧ c ≤ byte 'F' then some (c - byte 'A' + 10).toNat
  else none

/-- The loop of `hex4` with the digits that are still to come. -/
def hexLoop : ℕ → ℕ → ℕ → Outcome (ℕ × ℕ)
  | 0, i, v => .ok (v, i)
  | n + 1, i, v => do
      let c ← index b i
      match hexDigit c with
      | none => .none
      | some d => hexLoop n (i + 1) (v <<< 4 ||| d)

def hex4 (i : ℕ) : Outcome (ℕ × ℕ) := if b.length < i + 4 then .none else hexLoop b 4 i 0

/-- `utf8_len`. -/
def utf8Len (first : UInt8) : ℕ :=
  if first ≤ 0x7F then 1
  else if 0xC2 ≤ first ∧ first ≤ 0xDF then 2
  else if 0xE0 ≤ first ∧ first ≤ 0xEF then 3
  else if 0xF0 ≤ first ∧ first ≤ 0xF4 then 4
  else 0

/-- The escapes of one letter. -/
def shortEscape (e : UInt8) : Option Char :=
  if e = byte '"' then some '"'
  else if e = byte '\\' then some '\\'
  else if e = byte '/' then some '/'
  else if e = byte 'b' then some (Char.ofNat 8)
  else if e = byte 'f' then some (Char.ofNat 12)
  else if e = byte 'n' then some '\n'
  else if e = byte 'r' then some '\r'
  else if e = byte 't' then some '\t'
  else none

/-- `char::from_u32`. -/
def fromU32 (n : ℕ) : Outcome Char := if n.isValidChar then .ok (Char.ofNat n) else .none

/-- The low surrogate that must follow a high one. -/
def lowSurrogate (i : ℕ) : Outcome (ℕ × ℕ) :=
  if peek b i ≠ some (byte '\\') then .none
  else if peek b (i + 1) ≠ some (byte 'u') then .none
  else do
    let (lo, i) ← hex4 b (i + 2)
    if 0xDC00 ≤ lo ∧ lo < 0xE000 then .ok (lo, i) else .none

/-- The character of a `\u` escape. -/
def unicodeEscape (i : ℕ) : Outcome (Char × ℕ) := do
  let (hi, i) ← hex4 b i
  if 0xD800 ≤ hi ∧ hi < 0xDC00 then
    let (lo, i) ← lowSurrogate b i
    let c ← fromU32 (0x10000 + (hi - 0xD800) <<< 10 + (lo - 0xDC00))
    .ok (c, i)
  else
    let c ← fromU32 hi
    .ok (c, i)

/-- What stands behind a backslash. -/
def escape (i : ℕ) : Outcome (Char × ℕ) :=
  match peek b i with
  | none => .none
  | some e =>
      if e = byte 'u' then unicodeEscape b (i + 1)
      else
        match shortEscape e with
        | none => .none
        | some c => .ok (c, i + 1)

/-- `std::str::from_utf8` of the bytes of one character. -/
def fromUtf8 (bs : List UInt8) : Outcome Char :=
  match Utf8.head? bs with
  | some c => if String.utf8EncodeChar c = bs then .ok c else .none
  | none => .none

/-- The character whose first byte is `c`, copied as it is. -/
def copied (c : UInt8) (start : ℕ) : Outcome (Char × ℕ) :=
  let len := utf8Len c
  if len = 0 ∨ b.length < start + len then .none
  else do
    let bs ← slice b start (start + len)
    let c ← fromUtf8 bs
    .ok (c, start + len)

/-- The loop of `string`, from behind the opening quote. -/
def stringLoop : ℕ → ℕ → List Char → Outcome (List Char × ℕ)
  | 0, _, _ => .stuck
  | fuel + 1, i, out =>
      match peek b i with
      | none => .none
      | some c =>
          if c = byte '"' then .ok (out, i + 1)
          else do
            let (c, i) ← if c = byte '\\' then escape b (i + 1) else copied b c i
            stringLoop fuel i (out ++ [c])

def string (i : ℕ) : Outcome (List Char × ℕ) :=
  if peek b i ≠ some (byte '"') then .none else stringLoop b (b.length + 1) (i + 1) []

mutual

def skipValueLoop : ℕ → ℕ → Outcome ℕ
  | 0, _ => .stuck
  | fuel + 1, i =>
      let i := skipWs b i
      match peek b i with
      | none => .none
      | some c =>
          if c = byte '"' then do
            let (_, i) ← string b i
            .ok i
          else if c = byte '{' then skipMembers fuel (i + 1)
          else if c = byte '[' then skipElements fuel (i + 1)
          else
            let stop := runWhile b (fun c => !isDelimiter c) i
            if stop = i then .none else .ok stop

/-- The loop over the members of an object. -/
def skipMembers : ℕ → ℕ → Outcome ℕ
  | 0, _ => .stuck
  | fuel + 1, i =>
      let i := skipWs b i
      match peek b i with
      | none => .none
      | some c =>
          if c = byte '}' then .ok (i + 1)
          else if c = byte ',' then skipMembers fuel (i + 1)
          else do
            let (_, i) ← string b i
            let i := skipWs b i
            if peek b i ≠ some (byte ':') then .none
            else
              let i ← skipValueLoop fuel (i + 1)
              skipMembers fuel i

/-- The loop over the elements of an array. -/
def skipElements : ℕ → ℕ → Outcome ℕ
  | 0, _ => .stuck
  | fuel + 1, i =>
      let i := skipWs b i
      match peek b i with
      | none => .none
      | some c =>
          if c = byte ']' then .ok (i + 1)
          else if c = byte ',' then skipElements fuel (i + 1)
          else do
            let i ← skipValueLoop fuel i
            skipElements fuel i

end

def skipValue (i : ℕ) : Outcome ℕ := skipValueLoop b (2 * b.length + 1) i

def findLoop (key : String) : ℕ → ℕ → Outcome ℕ
  | 0, _ => .stuck
  | fuel + 1, i =>
      match peek b i with
      | none => .none
      | some c =>
          if c = byte '"' then do
            let (text, i) ← string b i
            let i := skipWs b i
            if peek b i = some (byte ':') ∧ String.ofList text = key then .ok (skipWs b (i + 1))
            else findLoop key fuel i
          else findLoop key fuel (i + 1)

def findValueStart (key : String) : Outcome ℕ := findLoop b key (b.length + 1) 0

/-- The kind of a value by its first byte. -/
def kindAt (c : UInt8) : Scan.Kind :=
  if c = byte '"' then .str
  else if c = byte '{' then .object
  else if c = byte '[' then .array
  else .scalar

def span (key : String) : Outcome (Scan.Kind × ℕ × ℕ) := do
  let start ← findValueStart b key
  match peek b start with
  | none => .none
  | some first =>
      let stop ← skipValue b start
      if first = byte 't' ∨ first = byte 'f' then .ok (.scalar, start, stop)
      else if first = byte 'n' then
        let bs ← slice b start stop
        .ok (if bs = Utf8.bytes "null" then .null else .scalar, start, stop)
      else .ok (kindAt first, start, stop)

def jsonStr (key : String) : Outcome String := do
  let (kind, start, stop) ← span b key
  match kind with
  | .str =>
      let (text, _) ← string b start
      .ok (String.ofList text)
  | .scalar => textSlice b start stop
  | _ => .none

/-- What a number is written with. -/
def isNumeric (c : UInt8) : Bool :=
  (byte '0' ≤ c && c ≤ byte '9') || c == byte '+' || c == byte '-' || c == byte '.' || c == byte 'e' ||
    c == byte 'E'

def jsonNum (key : String) : Outcome String := do
  let (kind, start, stop) ← span b key
  if kind ≠ .scalar then .none
  else
    let raw ← textSlice b start stop
    if raw = "" ∨ !(Utf8.bytes raw).all isNumeric then .none else .ok raw

/-- The text that `json_obj` keeps of a value that is no container and ends here. -/
def valueText (first : UInt8) (start stop : ℕ) : Outcome String := do
  let raw ← textSlice b start stop
  if first = byte '"' then
    let (text, _) ← string b start
    .ok (String.ofList text)
  else .ok (if raw = "null" then "" else raw)

/-- The loop over the members; what is malformed ends it. -/
def objLoop : ℕ → ℕ → OrdMap String String → Outcome (OrdMap String String)
  | 0, _, _ => .stuck
  | fuel + 1, i, out =>
      let i := skipWs b i
      match peek b i with
      | none => .ok out
      | some c =>
          if c = byte '}' then .ok out
          else if c = byte ',' then objLoop fuel (i + 1) out
          else do
            match ← (string b i).option with
            | none => .ok out
            | some (k, i) =>
                let i := skipWs b i
                if peek b i ≠ some (byte ':') then .ok out
                else
                  let i := skipWs b (i + 1)
                  match peek b i with
                  | none => .ok out
                  | some first =>
                      match ← (skipValue b i).option with
                      | none => .ok out
                      | some stop =>
                          if first = byte '{' ∨ first = byte '[' then objLoop fuel stop out
                          else
                            match ← (valueText b first i stop).option with
                            | none => .ok out
                            | some v =>
                                objLoop fuel stop
                                  (if String.ofList k ≠ "" ∧ out.size < objectCap then
                                    out.insert (String.ofList k) v
                                  else out)

def jsonObj (key : String) : Outcome (OrdMap String String) := do
  match ← (span b key).option with
  | some (.object, start, _) => objLoop b (b.length + 1) (start + 1) OrdMap.empty
  | _ => .ok OrdMap.empty

def arrLoop : ℕ → ℕ → List String → Outcome (List String)
  | 0, _, _ => .stuck
  | fuel + 1, i, out =>
      let i := skipWs b i
      match peek b i with
      | none => .ok out
      | some c =>
          if c = byte ']' then .ok out
          else if c = byte ',' then arrLoop fuel (i + 1) out
          else do
            match ← (skipValue b i).option with
            | none => .ok out
            | some stop =>
                let raw ← textSlice b i stop
                let out := out ++ [raw]
                if arrayCap ≤ out.length then .ok out else arrLoop fuel stop out

def jsonArrObjects (key : String) : Outcome (List String) := do
  match ← (span b key).option with
  | some (.array, start, _) => arrLoop b (b.length + 1) (start + 1) []
  | _ => .ok []

end

end GbfrLan.Json.ByteScan
