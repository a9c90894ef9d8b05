import Mathlib.Tactic

/-!
# Base64

The standard alphabet with padding. Three bytes are four digits of six bits; a last group of one or two
bytes is two or three digits and is padded. The digits alone determine the bytes.
-/
namespace GbfrLan.Lib.Base64

/-- The digits of some bytes, without padding. -/
def sextets : List UInt8 → List ℕ
  | [] => []
  | [a] => [a.toNat / 4, a.toNat % 4 * 16]
  | [a, b] => [a.toNat / 4, a.toNat % 4 * 16 + b.toNat / 16, b.toNat % 16 * 4]
  | a :: b :: c :: rest =>
      (a.toNat / 4) :: (a.toNat % 4 * 16 + b.toNat / 16) :: (b.toNat % 16 * 4 + c.toNat / 64) ::
        (c.toNat % 64) :: sextets rest

def alphabet : List Char := "ABCDEFGHIJKLMNOPQRSTUVWXYZabcdefghijklmnopqrstuvwxyz0123456789+/".toList

def digit (n : ℕ) : Char := alphabet.getD n 'A'

def padding (n : ℕ) : List Char := List.replicate ((3 - n % 3) % 3) '='

def encode (bs : List UInt8) : List Char := (sextets bs).map digit ++ padding bs.length

theorem sextets_lt {bs : List UInt8} {n : ℕ} (h : n ∈ sextets bs) : n < 64 := by
  induction bs using sextets.induct with
  | case1 => cases h
  | case2 a =>
    have ha := a.toNat_lt
    simp only [sextets, List.mem_cons, List.not_mem_nil, or_false] at h
    omega
  | case3 a b =>
    have ha := a.toNat_lt
    have hb := b.toNat_lt
    simp only [sextets, List.mem_cons, List.not_mem_nil, or_false] at h
    omega
  | case4 a b c rest ih =>
    have ha := a.toNat_lt
    have hb := b.toNat_lt
    have hc := c.toNat_lt
    simp only [sextets, List.mem_cons] at h
    rcases h with h | h | h | h | h
    · omega
    · omega
    · omega
    · omega
    · exact ih h

theorem byte_eq {a b : UInt8} (h : a.toNat = b.toNat) : a = b := UInt8.toNat_inj.mp h

theorem sextets_length (bs : List UInt8) : (sextets bs).length = (4 * bs.length + 2) / 3 := by
  induction bs using sextets.induct with
  | case1 => rfl
  | case2 a => simp [sextets]
  | case3 a b => simp [sextets]
  | case4 a b c rest ih =>
    simp only [sextets, List.length_cons, ih]
    omega

/-- Equal digits are those of equal bytes. -/
theorem sextets_injective : Function.Injective sextets := by
  intro bs bs' h
  have hlen : bs.length = bs'.length := by
    have h' := congrArg List.length h
    rw [sextets_length, sextets_length] at h'
    omega
  induction bs using sextets.induct generalizing bs' with
  | case1 => exact (List.length_eq_zero_iff.mp hlen.symm).symm
  | case2 a =>
    obtain ⟨a', rfl⟩ := List.length_eq_one_iff.mp hlen.symm
    simp only [sextets, List.cons.injEq, and_true] at h
    rw [byte_eq (a := a) (b := a') (by omega)]
  | case3 a b =>
    obtain ⟨a', b', rfl⟩ := List.length_eq_two.mp hlen.symm
    have hb := b.toNat_lt
    have hb' := b'.toNat_lt
    simp only [sextets, List.cons.injEq, and_true] at h
    rw [byte_eq (a := a) (b := a') (by omega), byte_eq (a := b) (b := b') (by omega)]
  | case4 a b c rest ih =>
    obtain ⟨a', t, rfl⟩ := List.exists_cons_of_length_pos (l := bs') (by rw [← hlen]; simp)
    obtain ⟨b', t, rfl⟩ := List.exists_cons_of_length_pos (l := t) (by simp at hlen; omega)
    obtain ⟨c', rest', rfl⟩ := List.exists_cons_of_length_pos (l := t) (by simp at hlen; omega)
    have hb := b.toNat_lt
    have hb' := b'.toNat_lt
    have hc := c.toNat_lt
    have hc' := c'.toNat_lt
    simp only [sextets, List.cons.injEq] at h
    obtain ⟨h1, h2, h3, h4, hrest⟩ := h
    rw [byte_eq (a := a) (b := a') (by omega), byte_eq (a := b) (b := b') (by omega),
      byte_eq (a := c) (b := c') (by omega), ih hrest (by simpa using hlen)]

example : encode [0x66, 0x6f, 0x6f, 0x62, 0x61] = "Zm9vYmE=".toList := by decide

end GbfrLan.Lib.Base64
