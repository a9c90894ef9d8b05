import Mathlib.Tactic

/-!
# Socket addresses as text

The reader of `SocketAddr` in the standard library: `a.b.c.d:port` or `[v6]:port`. A reader takes
what it accepts off the front of the characters.
-/
namespace GbfrLan.Lib.SocketAddr

abbrev Reader := List Char → Option (List Char)

def digit? (radix : ℕ) (c : Char) : Option ℕ :=
  let value :=
    if c.isDigit then some (c.toNat - '0'.toNat)
    else if 'a' ≤ c ∧ c ≤ 'z' then some (c.toNat - 'a'.toNat + 10)
    else if 'A' ≤ c ∧ c ≤ 'Z' then some (c.toNat - 'A'.toNat + 10)
    else none
  value.filter fun d => d < radix

/-- All digits that follow, as a number below `bound`. -/
def readNumber (radix : ℕ) (maxDigits : Option ℕ) (allowZeroPrefix : Bool) (bound : ℕ) : Reader :=
  fun cs =>
    let digits := cs.takeWhile fun c => (digit? radix c).isSome
    let value := (digits.filterMap (digit? radix)).foldl (fun v d => radix * v + d) 0
    if digits = [] then none
    else if maxDigits.any fun m => m < digits.length then none
    else if !allowZeroPrefix && cs.head? == some '0' && 1 < digits.length then none
    else if bound ≤ value then none
    else some (cs.drop digits.length)

def readGivenChar (c : Char) : Reader
  | [] => none
  | d :: cs => if d = c then some cs else none

/-- The part `i` of a list with separators. -/
def readSeparator (sep : Char) (i : ℕ) (inner : Reader) : Reader :=
  fun cs => if 0 < i then (readGivenChar sep cs).bind inner else inner cs

def readIpv4 : Reader := fun cs =>
  (List.range 4).foldl (fun cs i => cs.bind (readSeparator '.' i (readNumber 10 (some 3) false 256)))
    (some cs)

/-- Up to the given number of groups; the result has their number, whether the last two were an
IPv4 address, and the rest. -/
def readGroups : ℕ → ℕ → List Char → ℕ × Bool × List Char
  | 0, i, cs => (i, false, cs)
  | more + 1, i, cs =>
      match if 0 < more then readSeparator ':' i readIpv4 cs else none with
      | some rest => (i + 2, true, rest)
      | none =>
          match readSeparator ':' i (readNumber 16 (some 4) true 65536) cs with
          | some rest => readGroups more (i + 1) rest
          | none => (i, false, cs)

def readIpv6 : Reader := fun cs =>
  let (head, ipv4, rest) := readGroups 8 0 cs
  if head = 8 then some rest
  else if ipv4 then none
  else ((readGivenChar ':' rest).bind (readGivenChar ':')).map fun rest =>
    (readGroups (7 - head) 0 rest).2.2

def readScopeId : Reader := fun cs =>
  (readGivenChar '%' cs).bind (readNumber 10 none true (2 ^ 32))

def readPort : Reader := fun cs => (readGivenChar ':' cs).bind (readNumber 10 none true (2 ^ 16))

def readV4 : Reader := fun cs => (readIpv4 cs).bind readPort

def readV6 : Reader := fun cs => do
  let cs ← readGivenChar '[' cs
  let cs ← readIpv6 cs
  let cs ← readGivenChar ']' ((readScopeId cs).getD cs)
  readPort cs

/-- The whole text is a socket address. -/
def isSocketAddr (text : String) : Bool :=
  ((readV4 text.toList).or (readV6 text.toList)) == some []

example : isSocketAddr "10.0.0.2:27015" = true := by decide +kernel

example : isSocketAddr "[fe80::1%4]:27015" = true := by decide +kernel

example : isSocketAddr "guest-pc:27015" = false := by decide +kernel

end GbfrLan.Lib.SocketAddr
