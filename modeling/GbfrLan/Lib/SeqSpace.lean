import Mathlib.Order.Basic
import Mathlib.Tactic

/-!
# Serial numbers in a wrapping 32-bit space

`a` is after `b` when the wrapped difference `a - b`, read as a signed word, is
positive. Between numbers below `2 ^ 31` this is the ordinary order.
-/
namespace GbfrLan.Lib

instance instLinearOrderUInt32 : LinearOrder UInt32 where
  le_refl a := UInt32.le_refl a
  le_trans _ _ _ := UInt32.le_trans
  lt_iff_le_not_ge a b := by
    simp only [UInt32.lt_iff_toNat_lt, UInt32.le_iff_toNat_le]; omega
  le_antisymm _ _ := UInt32.le_antisymm
  le_total := UInt32.le_total
  toDecidableLE := inferInstance
  toDecidableEq := inferInstance
  toDecidableLT := inferInstance

/-- True when `a` is newer than `b` in the wrapping 32-bit sequence space. -/
def seqAfter (a b : UInt32) : Bool := decide (0 < (a - b).toInt32)

/-- True when `a` is not newer than `b`. -/
def seqLe (a b : UInt32) : Bool := !seqAfter a b

theorem seqAfter_iff (a b : UInt32) :
    seqAfter a b = true ↔ 0 < (a - b).toNat ∧ (a - b).toNat < 2 ^ 31 := by
  have hlt := (a - b).toNat_lt
  have hword : (a - b).toInt32.toInt = (a - b).toBitVec.toInt := rfl
  rw [seqAfter, decide_eq_true_eq, Int32.lt_iff_toInt_lt, hword]
  simp only [Int32.toInt_zero, BitVec.toInt_eq_toNat_cond, UInt32.toNat_toBitVec]
  split_ifs with h <;> omega

/-- The numbers that are not after `b`: itself, and those from `2 ^ 31` in front of it on. -/
theorem seqLe_iff (a b : UInt32) :
    seqLe a b = true ↔ a = b ∨ 2 ^ 31 ≤ (a.toNat + (2 ^ 32 - b.toNat)) % 2 ^ 32 := by
  have ha := a.toNat_lt
  have hb := b.toNat_lt
  rw [seqLe, Bool.not_eq_true', ← Bool.not_eq_true, seqAfter_iff, UInt32.toNat_sub,
    ← UInt32.toNat_inj]
  omega

/-- Below `2 ^ 31` the wrapping comparison is the ordinary one. -/
theorem seqLe_iff_le {a b : UInt32} (ha : a.toNat < 2 ^ 31) (hb : b.toNat < 2 ^ 31) :
    seqLe a b = true ↔ a.toNat ≤ b.toNat := by
  rw [seqLe, Bool.not_eq_true', ← Bool.not_eq_true, seqAfter_iff, UInt32.toNat_sub]
  omega

theorem toNat_add_one {a : UInt32} (h : a.toNat < 2 ^ 32 - 1) :
    (a + 1).toNat = a.toNat + 1 := by
  rw [UInt32.toNat_add]
  have h1 : (1 : UInt32).toNat = 1 := rfl
  omega

theorem toNat_sub_one {a : UInt32} (h : 0 < a.toNat) : (a - 1).toNat = a.toNat - 1 := by
  have hlt := a.toNat_lt
  have h1 : (1 : UInt32).toNat = 1 := rfl
  rw [UInt32.toNat_sub]
  omega

end GbfrLan.Lib
