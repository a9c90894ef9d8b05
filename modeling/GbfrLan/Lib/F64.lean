import GbfrLan.Lib.Compare
import GbfrLan.Lib.Text

/-!
# Double-precision numbers

A double is kept as its value: a rational, one of the two infinities, or the one value without an
order. The two zeros are the same. Operations round to the nearest double, ties to even, and the
texts are those that the standard float parser reads.
-/
namespace GbfrLan.Lib

inductive F64 where
  | fin (q : ℚ)
  | posInf
  | negInf
  | nan
  deriving DecidableEq, Repr

namespace F64

/-- The nearest integer, ties to even. -/
def roundHalfEven (x : ℚ) : ℤ :=
  let n := x.num / x.den
  let r := x - n
  if r < 1 / 2 then n
  else if 1 / 2 < r then n + 1
  else if n % 2 = 0 then n
  else n + 1

/-- The exponent of the largest power of two up to a positive number. -/
def log2 (a : ℚ) : ℤ :=
  let e : ℤ := Nat.log2 a.num.natAbs - Nat.log2 a.den
  if (2 : ℚ) ^ e ≤ a then e else e - 1

/-- The nearest double. -/
def ofRat (q : ℚ) : F64 :=
  let e := max (log2 |q| - 52) (-1074)
  let r : ℚ := roundHalfEven (q / 2 ^ e) * 2 ^ e
  if 2 ^ 1024 ≤ r then posInf
  else if r ≤ -2 ^ 1024 then negInf
  else fin r

def ofInt (n : ℤ) : F64 := ofRat n

/-- The value of 64 bits. -/
def ofBits (bits : UInt64) : F64 :=
  let mantissa : ℕ := bits.toNat % 2 ^ 52
  let exponent : ℕ := bits.toNat / 2 ^ 52 % 2 ^ 11
  let negative := decide (2 ^ 63 ≤ bits.toNat)
  if exponent = 2047 then
    if mantissa ≠ 0 then nan else if negative then negInf else posInf
  else
    let size : ℚ :=
      if exponent = 0 then mantissa * 2 ^ (-1074 : ℤ)
      else (2 ^ 52 + mantissa : ℕ) * 2 ^ ((exponent : ℤ) - 1075)
    fin (if negative then -size else size)

def neg : F64 → F64
  | .fin q => .fin (-q)
  | .posInf => .negInf
  | .negInf => .posInf
  | .nan => .nan

def abs : F64 → F64
  | .fin q => .fin |q|
  | .posInf | .negInf => .posInf
  | .nan => .nan

def sub : F64 → F64 → F64
  | .nan, _ | _, .nan | .posInf, .posInf | .negInf, .negInf => .nan
  | .fin a, .fin b => ofRat (a - b)
  | .posInf, _ | _, .negInf => .posInf
  | .negInf, _ | _, .posInf => .negInf

def partialCmp : F64 → F64 → Option Ordering
  | .nan, _ | _, .nan => none
  | .fin a, .fin b => some (compare a b)
  | .posInf, .posInf | .negInf, .negInf => some .eq
  | .negInf, _ | _, .posInf => some .lt
  | .posInf, _ | _, .negInf => some .gt

/-- The order of a sort, in which a value without an order is equivalent to every other one. -/
def cmp (a b : F64) : Ordering := (partialCmp a b).getD .eq

/-- Without the value that has no order, the doubles are in a total preorder. -/
theorem cmp_preorder : PreorderOn {x : F64 | x ≠ nan} cmp where
  swap a ha b hb := by
    cases a <;> cases b <;> first
      | rfl
      | exact absurd rfl ha
      | exact absurd rfl hb
      | exact (PreorderOn.ofLinear Set.univ).swap _ (Set.mem_univ _) _ (Set.mem_univ _)
  trans a ha b hb c hc hab hbc := by
    cases a <;> cases b <;> cases c <;> first
      | exact absurd rfl ha
      | exact absurd rfl hb
      | exact absurd rfl hc
      | exact absurd rfl hab
      | exact absurd rfl hbc
      | exact (by decide : Ordering.lt ≠ .gt)
      | exact (by decide : Ordering.eq ≠ .gt)
      | exact (PreorderOn.ofLinear Set.univ).trans _ (Set.mem_univ _) _ (Set.mem_univ _) _
          (Set.mem_univ _) hab hbc

/-- The distance to an infinity is infinite where it exists. -/
theorem abs_sub_infinite (x : F64) {t : F64} (ht : ∀ q, t ≠ fin q) :
    (sub x t).abs = posInf ∨ (sub x t).abs = nan := by
  cases t with
  | fin q => exact absurd rfl (ht q)
  | _ => cases x <;> simp [sub, abs]

/-- Numbers at a distance to an infinity are all equivalent. -/
theorem cmp_abs_sub_infinite (x y : F64) {t : F64} (ht : ∀ q, t ≠ fin q) :
    cmp (sub x t).abs (sub y t).abs = .eq := by
  rcases abs_sub_infinite x ht with hx | hx <;> rcases abs_sub_infinite y ht with hy | hy <;>
    rw [hx, hy] <;> rfl

theorem ofRat_ne_nan (q : ℚ) : ofRat q ≠ nan := by
  unfold ofRat
  simp only
  split_ifs <;> simp

/-- The distance to a number has an order. -/
theorem abs_sub_ne_nan {x : F64} (h : x ≠ nan) (q : ℚ) : (sub x (fin q)).abs ≠ nan := by
  have habs : ∀ y : F64, y ≠ nan → y.abs ≠ nan := by
    intro y hy
    cases y with
    | nan => exact absurd rfl hy
    | _ => simp [abs]
  apply habs
  cases x with
  | fin a => exact ofRat_ne_nan _
  | nan => exact absurd rfl h
  | _ => simp [sub]

theorem cmp_self (x : F64) : cmp x x = .eq := by
  cases x with
  | fin q => simp [cmp, partialCmp]
  | _ => rfl

theorem cmp_nan_left (x : F64) : cmp nan x = .eq := by cases x <;> rfl

theorem cmp_nan_right (x : F64) : cmp x nan = .eq := by cases x <;> rfl

theorem sub_self_fin (q : ℚ) : sub (fin q) (fin q) = fin 0 := by
  rw [sub, sub_self]
  decide +kernel

/-! ### Texts -/

/-- The exponent behind the digits. -/
def exponent : List Char → Option ℤ
  | [] => some 0
  | c :: ds =>
      if c = 'e' ∨ c = 'E' then
        match ds with
        | '-' :: ds => (Text.parseNat ds).map fun n => -n
        | '+' :: ds => (Text.parseNat ds).map fun n => n
        | ds => (Text.parseNat ds).map fun n => n
      else none

/-- An unsigned decimal number with at least one digit around its point. -/
def decimal (cs : List Char) : Option ℚ :=
  let whole := cs.takeWhile Char.isDigit
  let rest := cs.dropWhile Char.isDigit
  let (part, rest) := match rest with
    | '.' :: ds => (ds.takeWhile Char.isDigit, ds.dropWhile Char.isDigit)
    | _ => ([], rest)
  (Text.parseNat (whole ++ part)).bind fun n =>
    (exponent rest).map fun e => (n : ℚ) * 10 ^ (e - part.length : ℤ)

/-- A number without its sign. -/
def magnitude (cs : List Char) : Option F64 :=
  let lower := Text.lower cs
  if lower = "inf".toList ∨ lower = "infinity".toList then some posInf
  else if lower = "nan".toList then some nan
  else (decimal cs).map ofRat

/-- `str::parse::<f64>`. -/
def parse : List Char → Option F64
  | '-' :: cs => (magnitude cs).map neg
  | '+' :: cs => magnitude cs
  | cs => magnitude cs

example : parse "+1.5e0".toList = some (fin (3 / 2)) := by decide +kernel

example : parse "0.1".toList = some (fin (3602879701896397 / 2 ^ 55)) := by decide +kernel

end F64

end GbfrLan.Lib
