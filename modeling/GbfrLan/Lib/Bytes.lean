import Mathlib.Tactic

/-!
# Byte strings with fields at fixed offsets

Fields are copied into a buffer of zeros at their offsets and read back as slices. Text fields
are padded with zeros, words are little-endian.
-/
namespace GbfrLan.Lib.Bytes

/-- Copy `data` over the bytes from `off` on. -/
def write (buf : List UInt8) (off : ℕ) (data : List UInt8) : List UInt8 :=
  buf.take off ++ data ++ buf.drop (off + data.length)

/-- The `len` bytes from `off` on, when they are all there. -/
def slice (buf : List UInt8) (off len : ℕ) : Option (List UInt8) :=
  if off + len ≤ buf.length then some ((buf.drop off).take len) else none

def zeros (n : ℕ) : List UInt8 := List.replicate n 0

@[simp] theorem length_zeros (n : ℕ) : (zeros n).length = n := List.length_replicate

theorem zeros_add (m n : ℕ) : zeros (m + n) = zeros m ++ zeros n := List.replicate_add m n 0

/-- A field behind a written part, with a gap of zeros before it. -/
theorem write_zeros {a d : List UInt8} {off k : ℕ} (gap m : ℕ) (hoff : off = a.length + gap)
    (hk : k = gap + d.length + m) :
    write (a ++ zeros k) off d = a ++ (zeros gap ++ d) ++ zeros m := by
  subst hoff hk
  have htake : (a ++ zeros (gap + d.length + m)).take (a.length + gap) = a ++ zeros gap := by
    rw [Nat.add_assoc, zeros_add, ← List.append_assoc, List.take_left']
    rw [List.length_append, length_zeros]
  have hdrop : (a ++ zeros (gap + d.length + m)).drop (a.length + gap + d.length) = zeros m := by
    rw [zeros_add, ← List.append_assoc, List.drop_left']
    rw [List.length_append, length_zeros, Nat.add_assoc]
  rw [write, htake, hdrop, List.append_assoc a]

theorem set_zeros {a : List UInt8} {i k : ℕ} (m : ℕ) (hi : i = a.length) (hk : k = 1 + m)
    (x : UInt8) : (a ++ zeros k).set i x = a ++ [x] ++ zeros m := by
  subst hi hk
  rw [List.set_append_right _ _ le_rfl, Nat.sub_self, Nat.add_comm]
  simp [zeros, List.replicate_succ]

theorem slice_head {d b : List UInt8} {len : ℕ} (hlen : d.length = len) :
    slice (d ++ b) 0 len = some d := by
  subst hlen
  rw [slice, if_pos (by simp), List.drop_zero, List.take_left]

/-- A field further behind. -/
theorem slice_skip {a b : List UInt8} {n off len : ℕ} (hn : a.length = n) (hoff : n ≤ off) :
    slice (a ++ b) off len = slice b (off - n) len := by
  subst hn
  have hdrop : (a ++ b).drop off = b.drop (off - a.length) := by
    rw [List.drop_append, List.drop_of_length_le hoff, List.nil_append]
  unfold slice
  rw [hdrop, List.length_append]
  by_cases hle : off - a.length + len ≤ b.length
  · rw [if_pos hle, if_pos (by omega)]
  · rw [if_neg hle, if_neg (by omega)]

theorem slice_take {buf : List UInt8} {off len m : ℕ} (h : off + len ≤ m) :
    slice (buf.take m) off len = slice buf off len := by
  have hmin : min len (m - off) = len := by omega
  unfold slice
  rw [List.length_take, List.drop_take, List.take_take, hmin]
  by_cases hle : off + len ≤ buf.length
  · rw [if_pos hle, if_pos (by omega)]
  · rw [if_neg hle, if_neg (by omega)]

theorem slice_one {buf : List UInt8} {i : ℕ} (h : i < buf.length) :
    slice buf i 1 = some [buf.getD i 0] := by
  rw [slice, if_pos (Nat.succ_le_of_lt h), List.take_one_drop_eq_of_lt_length h]
  simp [List.getD, h]

theorem slice_some {buf d : List UInt8} {off len : ℕ} (h : slice buf off len = some d) :
    off + len ≤ buf.length ∧ (buf.drop off).take len = d := by
  unfold slice at h
  split_ifs at h with hle
  exact ⟨hle, Option.some.inj h⟩

theorem slice_length {buf d : List UInt8} {off len : ℕ} (h : slice buf off len = some d) :
    d.length = len := by
  obtain ⟨hle, rfl⟩ := slice_some h
  rw [List.length_take, List.length_drop]
  omega

/-- A buffer from an offset on starts with the slice there. -/
theorem drop_eq_slice {buf d : List UInt8} {off len : ℕ} (h : slice buf off len = some d) :
    buf.drop off = d ++ buf.drop (off + len) := by
  obtain ⟨-, rfl⟩ := slice_some h
  rw [← List.drop_drop, List.take_append_drop]

theorem length_write {buf d : List UInt8} {off : ℕ} (h : off + d.length ≤ buf.length) :
    (write buf off d).length = buf.length := by
  rw [write, List.length_append, List.length_append, List.length_take, List.length_drop]
  omega

/-- The bytes that are not written over. -/
theorem get?_write {buf d : List UInt8} {off n : ℕ} (h : off + d.length ≤ buf.length)
    (hn : n < off ∨ off + d.length ≤ n) : (write buf off d)[n]? = buf[n]? := by
  have htake : (buf.take off).length = off := by
    rw [List.length_take]
    omega
  rw [write, List.append_assoc]
  rcases hn with hlow | hhigh
  · rw [List.getElem?_append_left (by omega), List.getElem?_take_of_lt hlow]
  · rw [List.getElem?_append_right (by omega), List.getElem?_append_right (by omega), List.getElem?_drop]
    congr 1
    omega

theorem slice_write {buf d : List UInt8} {off : ℕ} (h : off + d.length ≤ buf.length) :
    slice (write buf off d) off d.length = some d := by
  have htake : (buf.take off).length = off := by
    rw [List.length_take]
    omega
  rw [slice, if_pos (by rw [length_write h]; exact h), write, List.append_assoc, List.drop_left' htake,
    List.take_left]

/-! ### Padded fields -/

/-- A text in a field of `n` bytes: cut off at the end, filled up with zeros. -/
def pad (n : ℕ) (bs : List UInt8) : List UInt8 := bs.take n ++ zeros (n - (bs.take n).length)

@[simp] theorem length_pad (n : ℕ) (bs : List UInt8) : (pad n bs).length = n := by
  rw [pad, List.length_append, length_zeros, List.length_take]
  omega

theorem pad_of_le {n : ℕ} {bs : List UInt8} (h : bs.length ≤ n) :
    pad n bs = bs ++ zeros (n - bs.length) := by
  rw [pad, List.take_of_length_le h]

/-- The bytes before the first zero. -/
def untilNul (bs : List UInt8) : List UInt8 := bs.takeWhile fun b => b != 0

theorem untilNul_pad {n : ℕ} {bs : List UInt8} (hlen : bs.length ≤ n) (hnul : 0 ∉ bs) :
    untilNul (pad n bs) = bs := by
  have hkeep : ∀ b ∈ bs, (b != 0) = true := by
    intro b hb
    rw [bne_iff_ne]
    rintro rfl
    exact hnul hb
  rw [pad_of_le hlen, untilNul, List.takeWhile_append_of_pos hkeep]
  cases n - bs.length with
  | zero => simp [zeros]
  | succ m => simp [zeros, List.replicate_succ]

/-! ### Words -/

def le32 (v : UInt32) : List UInt8 :=
  [v.toUInt8, (v >>> 8).toUInt8, (v >>> 16).toUInt8, (v >>> 24).toUInt8]

@[simp] theorem length_le32 (v : UInt32) : (le32 v).length = 4 := rfl

/-- The little-endian word of four bytes. -/
def ofLe32 (bs : List UInt8) : UInt32 :=
  UInt32.ofNat (bs.foldr (fun b n => b.toNat + 256 * n) 0)

theorem ofLe32_le32 (v : UInt32) : ofLe32 (le32 v) = v := by
  have hv := v.toNat_lt
  apply UInt32.toNat_inj.mp
  simp only [ofLe32, le32, List.foldr_cons, List.foldr_nil, UInt32.toNat_ofNat', UInt32.toNat_toUInt8,
    UInt32.toNat_shiftRight, UInt32.toNat_ofNat, Nat.shiftRight_eq_div_pow, Nat.reduceMod,
    Nat.reducePow] at hv ⊢
  omega

theorem le32_ofLe32 {bs : List UInt8} (hlen : bs.length = 4) : le32 (ofLe32 bs) = bs := by
  obtain ⟨a, b, c, d, rfl⟩ : ∃ a b c d, bs = [a, b, c, d] := List.length_eq_four.mp hlen
  have ha := a.toNat_lt
  have hb := b.toNat_lt
  have hc := c.toNat_lt
  have hd := d.toNat_lt
  have hword : (ofLe32 [a, b, c, d]).toNat =
      a.toNat + 256 * (b.toNat + 256 * (c.toNat + 256 * d.toNat)) := by
    simp only [ofLe32, List.foldr_cons, List.foldr_nil, UInt32.toNat_ofNat']
    omega
  have hbyte (x : UInt8) {k : ℕ} (hk : k < 32)
      (hx : (ofLe32 [a, b, c, d]).toNat / 2 ^ k % 256 = x.toNat) :
      (ofLe32 [a, b, c, d] >>> UInt32.ofNat k).toUInt8 = x := by
    apply UInt8.toNat_inj.mp
    rw [UInt32.toNat_toUInt8, UInt32.toNat_shiftRight, Nat.shiftRight_eq_div_pow,
      UInt32.toNat_ofNat_of_lt' (lt_of_lt_of_le hk (by decide)), Nat.mod_eq_of_lt hk]
    exact hx
  have h0 : (ofLe32 [a, b, c, d]).toUInt8 = a := by
    apply UInt8.toNat_inj.mp
    rw [UInt32.toNat_toUInt8, hword]
    omega
  have h1 := hbyte b (k := 8) (by omega) (by rw [hword]; omega)
  have h2 := hbyte c (k := 16) (by omega) (by rw [hword]; omega)
  have h3 := hbyte d (k := 24) (by omega) (by rw [hword]; omega)
  rw [le32, h0]
  exact congrArg₂ _ rfl (congrArg₂ _ h1 (congrArg₂ _ h2 (congrArg₂ _ h3 rfl)))

end GbfrLan.Lib.Bytes
