import Mathlib.Data.Nat.Digits.Defs
import Mathlib.Data.List.Basic
import Mathlib.Tactic

/-!
# Numbers of a fixed width

A number as so many digits in a base, the least one first, and as so many bytes in either order.
Numbers that fit their width are read back, and so are digits that fit their base.
-/
namespace GbfrLan.Lib.Digits

/-- The lowest `k` digits. -/
def toDigits (b : ℕ) : ℕ → ℕ → List ℕ
  | 0, _ => []
  | k + 1, n => n % b :: toDigits b k (n / b)

@[simp] theorem length_toDigits (b k n : ℕ) : (toDigits b k n).length = k := by
  induction k generalizing n with
  | zero => rfl
  | succ k ih => rw [toDigits, List.length_cons, ih]

theorem lt_of_mem_toDigits {b k n d : ℕ} (hb : 0 < b) (h : d ∈ toDigits b k n) : d < b := by
  induction k generalizing n with
  | zero => cases h
  | succ k ih =>
    rcases List.mem_cons.mp h with rfl | h
    · exact Nat.mod_lt _ hb
    · exact ih h

theorem ofDigits_toDigits {b k n : ℕ} (h : n < b ^ k) : Nat.ofDigits b (toDigits b k n) = n := by
  induction k generalizing n with
  | zero =>
    have hzero : n = 0 := by simpa using h
    rw [hzero]
    rfl
  | succ k ih =>
    have hdiv : n / b < b ^ k := by
      apply Nat.div_lt_of_lt_mul
      rwa [← pow_succ']
    rw [toDigits, Nat.ofDigits_cons, ih hdiv]
    exact Nat.mod_add_div n b

theorem toDigits_ofDigits {b : ℕ} {ds : List ℕ} (h : ∀ d ∈ ds, d < b) :
    toDigits b ds.length (Nat.ofDigits b ds) = ds := by
  induction ds with
  | nil => rfl
  | cons d ds ih =>
    have hd : d < b := h d List.mem_cons_self
    have hmod : Nat.ofDigits b (d :: ds) % b = d := by
      rw [Nat.ofDigits_cons, Nat.add_mul_mod_self_left, Nat.mod_eq_of_lt hd]
    have hdiv : Nat.ofDigits b (d :: ds) / b = Nat.ofDigits b ds := by
      rw [Nat.ofDigits_cons, Nat.add_mul_div_left _ _ (Nat.zero_lt_of_lt hd),
        Nat.div_eq_of_lt hd, Nat.zero_add]
    rw [List.length_cons, toDigits, hmod, hdiv, ih fun e he => h e (List.mem_cons_of_mem _ he)]

/-! ### Bytes -/

/-- The little-endian word of `k` bytes. -/
def toLe (k n : ℕ) : List UInt8 := (toDigits 256 k n).map UInt8.ofNat

def ofLe (bs : List UInt8) : ℕ := Nat.ofDigits 256 (bs.map UInt8.toNat)

/-- The big-endian word of `k` bytes. -/
def toBe (k n : ℕ) : List UInt8 := (toLe k n).reverse

def ofBe (bs : List UInt8) : ℕ := ofLe bs.reverse

@[simp] theorem length_toLe (k n : ℕ) : (toLe k n).length = k := by
  rw [toLe, List.length_map, length_toDigits]

@[simp] theorem length_toBe (k n : ℕ) : (toBe k n).length = k := by
  rw [toBe, List.length_reverse, length_toLe]

theorem ofLe_toLe {k n : ℕ} (h : n < 256 ^ k) : ofLe (toLe k n) = n := by
  have hsame : ((toDigits 256 k n).map UInt8.ofNat).map UInt8.toNat = toDigits 256 k n := by
    rw [List.map_map, List.map_congr_left (g := id), List.map_id]
    intro d hd
    have hlt := lt_of_mem_toDigits (by omega) hd
    rw [Function.comp_apply, UInt8.toNat_ofNat_of_lt' hlt, id_eq]
  rw [ofLe, toLe, hsame, ofDigits_toDigits h]

theorem toLe_ofLe (bs : List UInt8) : toLe bs.length (ofLe bs) = bs := by
  have hsmall : ∀ d ∈ bs.map UInt8.toNat, d < 256 := by
    intro d hd
    obtain ⟨b, -, rfl⟩ := List.mem_map.mp hd
    exact b.toNat_lt
  have hdigits := toDigits_ofDigits hsmall
  rw [List.length_map] at hdigits
  rw [toLe, ofLe, hdigits, List.map_map]
  exact List.map_id'' (fun b => UInt8.ofNat_toNat) _

theorem ofLe_lt (bs : List UInt8) : ofLe bs < 256 ^ bs.length := by
  have hlt := Nat.ofDigits_lt_base_pow_length (b := 256) (l := bs.map UInt8.toNat) (by omega)
    (by
      intro d hd
      obtain ⟨b, -, rfl⟩ := List.mem_map.mp hd
      exact b.toNat_lt)
  rwa [List.length_map] at hlt

theorem ofBe_toBe {k n : ℕ} (h : n < 256 ^ k) : ofBe (toBe k n) = n := by
  rw [ofBe, toBe, List.reverse_reverse, ofLe_toLe h]

theorem toBe_ofBe (bs : List UInt8) : toBe bs.length (ofBe bs) = bs := by
  have hle := toLe_ofLe bs.reverse
  rw [List.length_reverse] at hle
  rw [toBe, ofBe, hle, List.reverse_reverse]

end GbfrLan.Lib.Digits
