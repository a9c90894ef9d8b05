import Mathlib.Tactic

/-!
# UTF-8 on byte lists

`bytes` is the UTF-8 text of a string and `decodeLossy` reads any bytes as text: each maximal part
that is no UTF-8 becomes one replacement character.
-/
namespace GbfrLan.Lib.Utf8

def bytes (s : String) : List UInt8 := s.toList.flatMap String.utf8EncodeChar

/-- The character that the bytes start with. -/
def head? (bs : List UInt8) : Option Char := bs.toByteArray.utf8DecodeChar? 0

def isContinuation (b : UInt8) : Bool := b &&& 0xC0 == 0x80

/-- The second byte fits the first one of a sequence of three or four. -/
def secondFits (b b₁ : UInt8) : Bool :=
  (b == 0xE0 && 0xA0 ≤ b₁ && b₁ ≤ 0xBF) || (0xE1 ≤ b && b ≤ 0xEC && isContinuation b₁) ||
    (b == 0xED && 0x80 ≤ b₁ && b₁ ≤ 0x9F) || (0xEE ≤ b && b ≤ 0xEF && isContinuation b₁) ||
    (b == 0xF0 && 0x90 ≤ b₁ && b₁ ≤ 0xBF) || (0xF1 ≤ b && b ≤ 0xF3 && isContinuation b₁) ||
    (b == 0xF4 && 0x80 ≤ b₁ && b₁ ≤ 0x8F)

/-- The length of the part to replace, for bytes that start with no character: what could still
have become one. -/
def invalidLength : List UInt8 → ℕ
  | b :: b₁ :: rest =>
      if secondFits b b₁ then
        match rest with
        | b₂ :: _ => if 0xF0 ≤ b && isContinuation b₂ then 3 else 2
        | [] => 2
      else 1
  | _ => 1

/-- The characters of the bytes; their number is enough fuel. -/
def decodeLoop : ℕ → List UInt8 → List Char
  | 0, _ => []
  | fuel + 1, bs =>
      if bs = [] then []
      else
        match head? bs with
        | some c => c :: decodeLoop fuel (bs.drop c.utf8Size)
        | none => '\uFFFD' :: decodeLoop fuel (bs.drop (invalidLength bs))

def decodeLossy (bs : List UInt8) : String := String.ofList (decodeLoop bs.length bs)

theorem head?_encode_append (c : Char) (bs : List UInt8) :
    head? (String.utf8EncodeChar c ++ bs) = some c := by
  rw [head?, List.toByteArray_append, ByteArray.utf8DecodeChar?_utf8EncodeChar_append]

theorem decodeLoop_flatMap_append (cs : List Char) (bs : List UInt8) {fuel : ℕ}
    (hfuel : (cs.flatMap String.utf8EncodeChar ++ bs).length ≤ fuel) :
    ∃ fuel', bs.length ≤ fuel' ∧
      decodeLoop fuel (cs.flatMap String.utf8EncodeChar ++ bs) = cs ++ decodeLoop fuel' bs := by
  induction cs generalizing fuel with
  | nil => exact ⟨fuel, hfuel, rfl⟩
  | cons c cs ih =>
    have hsize := c.utf8Size_pos
    have hlen := String.length_utf8EncodeChar c
    rw [List.flatMap_cons, List.append_assoc] at hfuel ⊢
    rw [List.length_append, hlen] at hfuel
    obtain ⟨g, rfl⟩ : ∃ g, fuel = g + 1 := ⟨fuel - 1, by omega⟩
    have hg : (cs.flatMap String.utf8EncodeChar ++ bs).length ≤ g := by omega
    obtain ⟨fuel', hfuel', heq⟩ := ih hg
    refine ⟨fuel', hfuel', ?_⟩
    have hne : String.utf8EncodeChar c ++ (cs.flatMap String.utf8EncodeChar ++ bs) ≠ [] := by
      intro hnil
      have hzero := congrArg List.length hnil
      rw [List.length_append, hlen, List.length_nil] at hzero
      omega
    rw [decodeLoop, if_neg hne, head?_encode_append]
    simp only
    rw [List.drop_left' hlen, heq]
    rfl

theorem decodeLoop_nil (fuel : ℕ) : decodeLoop fuel [] = [] := by
  cases fuel <;> rfl

/-- A text that is UTF-8 is read as it is. -/
theorem decodeLossy_bytes (s : String) : decodeLossy (bytes s) = s := by
  have hlen : (s.toList.flatMap String.utf8EncodeChar ++ []).length ≤ (bytes s).length := by
    rw [List.append_nil, bytes]
  obtain ⟨fuel', -, heq⟩ := decodeLoop_flatMap_append s.toList [] hlen
  rw [List.append_nil, decodeLoop_nil, List.append_nil] at heq
  rw [decodeLossy, bytes] at *
  rw [heq, String.ofList_toList]

/-! ### Cut texts -/

theorem isContinuation_tail (k : ℕ) (h : k < 64) : isContinuation (UInt8.ofNat (k + 0x80)) = true := by
  have hall : ∀ k : Fin 64, isContinuation (UInt8.ofNat (k + 0x80)) = true := by decide
  exact hall ⟨k, h⟩

/-- The bytes of a character behind its first one are continuations. -/
theorem isContinuation_of_mem_tail {c : Char} {b : UInt8}
    (h : b ∈ (String.utf8EncodeChar c).tail) : isContinuation b = true := by
  unfold String.utf8EncodeChar at h
  dsimp only at h
  split_ifs at h
  · cases h
  · simp only [List.tail_cons, List.mem_cons, List.not_mem_nil, or_false] at h
    rw [h]
    exact isContinuation_tail _ (by omega)
  · simp only [List.tail_cons, List.mem_cons, List.not_mem_nil, or_false] at h
    rcases h with h | h
    all_goals
      rw [h]
      exact isContinuation_tail _ (by omega)
  · simp only [List.tail_cons, List.mem_cons, List.not_mem_nil, or_false] at h
    rcases h with h | h | h
    all_goals
      rw [h]
      exact isContinuation_tail _ (by omega)

theorem secondFits_three {a k : ℕ} (ha : a < 16) (hk : k < 64) (hlow : a = 0 → 32 ≤ k)
    (hsur : a = 13 → k < 32) :
    secondFits (UInt8.ofNat (a + 0xe0)) (UInt8.ofNat (k + 0x80)) = true := by
  have hall : ∀ (a : Fin 16) (k : Fin 64), (a.val = 0 → 32 ≤ k.val) → (a.val = 13 → k.val < 32) →
      secondFits (UInt8.ofNat (a + 0xe0)) (UInt8.ofNat (k + 0x80)) = true := by decide +kernel
  exact hall ⟨a, ha⟩ ⟨k, hk⟩ hlow hsur

theorem secondFits_four {a k : ℕ} (ha : a < 5) (hk : k < 64) (hlow : a = 0 → 16 ≤ k)
    (hhigh : a = 4 → k < 16) :
    secondFits (UInt8.ofNat (a + 0xf0)) (UInt8.ofNat (k + 0x80)) = true := by
  have hall : ∀ (a : Fin 5) (k : Fin 64), (a.val = 0 → 16 ≤ k.val) → (a.val = 4 → k.val < 16) →
      secondFits (UInt8.ofNat (a + 0xf0)) (UInt8.ofNat (k + 0x80)) = true := by decide +kernel
  exact hall ⟨a, ha⟩ ⟨k, hk⟩ hlow hhigh

/-- Part of a character's bytes is replaced as a whole. -/
theorem invalidLength_cut {c : Char} {bs : List UInt8} (hbs : bs <+: String.utf8EncodeChar c)
    (hne : bs ≠ []) (hlt : bs.length < (String.utf8EncodeChar c).length) :
    invalidLength bs = bs.length := by
  have hvalid : c.val.toNat < 0xd800 ∨ 0xdfff < c.val.toNat ∧ c.val.toNat < 0x110000 := c.valid
  unfold String.utf8EncodeChar at hbs hlt
  simp only at hbs hlt
  generalize c.val.toNat = v at *
  rw [List.prefix_iff_eq_take] at hbs
  rcases bs with _ | ⟨b₀, _ | ⟨b₁, rest⟩⟩
  · exact absurd rfl hne
  · rfl
  · split_ifs at hbs hlt with h1 h2 h3
    · simp at hlt
    · simp at hlt
    · have hrest : rest.length = 0 := by
        simp only [List.length_cons, List.length_nil] at hlt
        omega
      obtain rfl := List.length_eq_zero_iff.mp hrest
      simp only [List.length_cons, List.length_nil, List.take_succ_cons, List.take_zero,
        List.cons.injEq] at hbs
      obtain ⟨rfl, rfl, -⟩ := hbs
      rw [invalidLength, if_pos (secondFits_three (by omega) (by omega) (by omega) (by omega))]
      rfl
    · rcases rest with _ | ⟨b₂, rest⟩
      · simp only [List.length_cons, List.length_nil, List.take_succ_cons, List.take_zero,
          List.cons.injEq] at hbs
        obtain ⟨rfl, rfl, -⟩ := hbs
        rw [invalidLength, if_pos (secondFits_four (by omega) (by omega) (by omega) (by omega))]
        rfl
      · have hrest : rest.length = 0 := by
          simp only [List.length_cons, List.length_nil] at hlt
          omega
        obtain rfl := List.length_eq_zero_iff.mp hrest
        simp only [List.length_cons, List.length_nil, List.take_succ_cons, List.take_zero,
          List.cons.injEq] at hbs
        obtain ⟨rfl, rfl, rfl, -⟩ := hbs
        have hlead : ∀ a : Fin 8, decide ((0xF0 : UInt8) ≤ UInt8.ofNat (a + 0xf0)) = true := by
          decide
        rw [invalidLength, if_pos (secondFits_four (by omega) (by omega) (by omega) (by omega)),
          hlead ⟨v / 262144 % 8, by omega⟩, isContinuation_tail _ (by omega)]
        rfl

/-- Part of a character's bytes starts with no character. -/
theorem head?_cut {c : Char} {bs : List UInt8} (hbs : bs <+: String.utf8EncodeChar c)
    (hlt : bs.length < (String.utf8EncodeChar c).length) : head? bs = none := by
  obtain ⟨rest, hrest⟩ := hbs
  cases hhead : head? bs with
  | none => rfl
  | some c' =>
    have hsize := ByteArray.le_size_of_utf8DecodeChar?_eq_some hhead
    have happend := ByteArray.utf8DecodeChar?_append_eq_some hhead rest.toByteArray
    rw [← List.toByteArray_append, hrest] at happend
    have hself := head?_encode_append c []
    rw [List.append_nil, head?, happend, Option.some.injEq] at hself
    subst hself
    rw [List.size_toByteArray] at hsize
    rw [String.length_utf8EncodeChar] at hlt
    omega

/-- What is left of a character that was cut. -/
def cutMark (bs : List UInt8) : List Char := if bs = [] then [] else ['\uFFFD']

theorem decodeLoop_cut {c : Char} {bs : List UInt8} (hbs : bs <+: String.utf8EncodeChar c)
    (hlt : bs.length < (String.utf8EncodeChar c).length) {fuel : ℕ} (hfuel : bs.length ≤ fuel) :
    decodeLoop fuel bs = cutMark bs := by
  unfold cutMark
  split_ifs with hnil
  · rw [hnil, decodeLoop_nil]
  · obtain ⟨g, rfl⟩ : ∃ g, fuel = g + 1 := by
      have hpos := List.length_pos_iff.mpr hnil
      exact ⟨fuel - 1, by omega⟩
    rw [decodeLoop, if_neg hnil, head?_cut hbs hlt]
    simp only
    rw [invalidLength_cut hbs hnil hlt, List.drop_length, decodeLoop_nil]

/-- A prefix of a text's bytes: whole characters, and part of the next one. -/
structure Cut (cs : List Char) (bs : List UInt8) where
  whole : List Char
  tail : List UInt8
  next : List Char
  bytes : bs = whole.flatMap String.utf8EncodeChar ++ tail
  text : cs = whole ++ next
  part : tail = [] ∨ ∃ c ∈ next.head?, tail <+: String.utf8EncodeChar c ∧
    tail.length < (String.utf8EncodeChar c).length

theorem exists_cut (cs : List Char) (bs : List UInt8)
    (h : bs <+: cs.flatMap String.utf8EncodeChar) : Nonempty (Cut cs bs) := by
  induction cs generalizing bs with
  | nil =>
    obtain rfl := List.prefix_nil.mp h
    exact ⟨⟨[], [], [], rfl, rfl, .inl rfl⟩⟩
  | cons c cs ih =>
    rw [List.flatMap_cons] at h
    rcases lt_or_ge bs.length (String.utf8EncodeChar c).length with hlt | hge
    · have hpre := List.prefix_of_prefix_length_le h (List.prefix_append _ _) hlt.le
      exact ⟨⟨[], bs, c :: cs, rfl, rfl, .inr ⟨c, rfl, hpre, hlt⟩⟩⟩
    · obtain ⟨bs', rfl⟩ := List.prefix_of_prefix_length_le (List.prefix_append _ _) h hge
      obtain ⟨k⟩ := ih bs' ((List.prefix_append_right_inj _).mp h)
      refine ⟨⟨c :: k.whole, k.tail, k.next, ?_, ?_, k.part⟩⟩
      · rw [List.flatMap_cons, List.append_assoc, ← k.bytes]
      · rw [List.cons_append, ← k.text]

theorem Cut.decodeLossy {cs : List Char} {bs : List UInt8} (k : Cut cs bs) :
    (Utf8.decodeLossy bs).toList = k.whole ++ cutMark k.tail := by
  unfold Utf8.decodeLossy
  rw [String.toList_ofList]
  have hlen : (k.whole.flatMap String.utf8EncodeChar ++ k.tail).length ≤ bs.length := by
    rw [← k.bytes]
  obtain ⟨fuel', hfuel', heq⟩ := decodeLoop_flatMap_append k.whole k.tail hlen
  rw [← k.bytes] at heq
  rw [heq]
  rcases k.part with hnil | ⟨c, -, hpre, hlt⟩
  · rw [hnil, decodeLoop_nil]
    rfl
  · rw [decodeLoop_cut hpre hlt hfuel']

/-- An ASCII character is one byte. -/
theorem encode_of_ascii {c : Char} (hc : c.toNat < 0x80) :
    String.utf8EncodeChar c = [c.toUInt8] := by
  have hval : c.val.toNat ≤ 0x7f := by
    have : c.val.toNat = c.toNat := rfl
    omega
  unfold String.utf8EncodeChar
  dsimp only
  rw [if_pos hval]
  congr 1

/-- The bytes of any other character have their highest bit set. -/
theorem high_of_mem_encode {c : Char} (hc : 0x80 ≤ c.toNat) {b : UInt8}
    (h : b ∈ String.utf8EncodeChar c) : 0x80 ≤ b.toNat := by
  have hval : ¬c.val.toNat ≤ 0x7f := by
    have : c.val.toNat = c.toNat := rfl
    omega
  have hhigh : ∀ n : ℕ, n < 0x100 → b = UInt8.ofNat n → 0x80 ≤ n → 0x80 ≤ b.toNat := by
    rintro n hlt rfl hlow
    rw [UInt8.toNat_ofNat']
    omega
  unfold String.utf8EncodeChar at h
  dsimp only at h
  rw [if_neg hval] at h
  split_ifs at h with h2 h3
  · simp only [List.mem_cons, List.not_mem_nil, or_false] at h
    rcases h with h | h
    all_goals exact hhigh _ (by omega) h (by omega)
  · simp only [List.mem_cons, List.not_mem_nil, or_false] at h
    rcases h with h | h | h
    all_goals exact hhigh _ (by omega) h (by omega)
  · simp only [List.mem_cons, List.not_mem_nil, or_false] at h
    rcases h with h | h | h | h
    all_goals exact hhigh _ (by omega) h (by omega)

theorem toNat_toUInt8 {c : Char} (hc : c.toNat < 0x80) : c.toUInt8.toNat = c.toNat := by
  have hval : c.val.toNat = c.toNat := rfl
  rw [Char.toUInt8, UInt32.toNat_toUInt8, hval]
  omega

/-- An ASCII character that is not in a text is not among its bytes. -/
theorem not_mem_encode {c : Char} {cs : List Char} (hc : c.toNat < 0x80) (h : c ∉ cs) :
    c.toUInt8 ∉ cs.flatMap String.utf8EncodeChar := by
  intro hmem
  obtain ⟨d, hd, hmem⟩ := List.mem_flatMap.mp hmem
  by_cases hascii : d.toNat < 0x80
  · rw [encode_of_ascii hascii, List.mem_singleton] at hmem
    have heq := congrArg UInt8.toNat hmem
    rw [toNat_toUInt8 hc, toNat_toUInt8 hascii] at heq
    rw [Char.toNat_inj.mp heq] at h
    exact h hd
  · have hhigh := high_of_mem_encode (not_lt.mp hascii) hmem
    rw [toNat_toUInt8 hc] at hhigh
    omega

/-- A byte of a character is none of another ASCII character. -/
theorem mem_encode_iff {c d : Char} {x : UInt8} (hd : d.toNat < 0x80)
    (hx : x ∈ String.utf8EncodeChar c) : x = d.toUInt8 ↔ c = d := by
  constructor
  · rintro rfl
    by_cases hc : c.toNat < 0x80
    · rw [encode_of_ascii hc, List.mem_singleton] at hx
      have heq := congrArg UInt8.toNat hx
      rw [toNat_toUInt8 hd, toNat_toUInt8 hc] at heq
      exact (Char.toNat_inj.mp heq).symm
    · have hhigh := high_of_mem_encode (not_lt.mp hc) hx
      rw [toNat_toUInt8 hd] at hhigh
      omega
  · rintro rfl
    rw [encode_of_ascii hd] at hx
    exact List.mem_singleton.mp hx

/-- Bytes that start with a character start with its encoding. -/
theorem exists_of_head? {bs : List UInt8} {c : Char} (h : head? bs = some c) :
    ∃ rest, bs = String.utf8EncodeChar c ++ rest := by
  obtain ⟨rest, hrest⟩ := ByteArray.exists_of_utf8DecodeChar?_eq_some h
  refine ⟨rest.data.toList, ?_⟩
  have hlist := congrArg (fun b : ByteArray => b.data.toList) hrest
  simp only [ByteArray.data_append, Array.toList_append, List.data_toByteArray] at hlist
  exact hlist

/-- ASCII characters that are read at the front are the bytes at the front. -/
theorem prefix_of_decodeLoop {front : List Char} (hfront : ∀ c ∈ front, c.toNat < 0x80) {fuel : ℕ}
    {bs : List UInt8} (h : front <+: decodeLoop fuel bs) :
    front.flatMap String.utf8EncodeChar <+: bs := by
  induction front generalizing fuel bs with
  | nil => exact List.nil_prefix
  | cons c front ih =>
    cases fuel with
    | zero => cases List.prefix_nil.mp h
    | succ fuel =>
      rw [decodeLoop] at h
      split_ifs at h with hnil
      · cases List.prefix_nil.mp h
      · cases hhead : head? bs with
        | none =>
          rw [hhead] at h
          obtain ⟨rfl, -⟩ := List.cons_prefix_cons.mp h
          exact absurd (hfront _ List.mem_cons_self) (by decide)
        | some d =>
          rw [hhead] at h
          obtain ⟨rfl, h⟩ := List.cons_prefix_cons.mp h
          obtain ⟨rest, rfl⟩ := exists_of_head? hhead
          rw [List.drop_left' (String.length_utf8EncodeChar c)] at h
          rw [List.flatMap_cons, List.prefix_append_right_inj]
          exact ih (fun d hd => hfront d (List.mem_cons_of_mem _ hd)) h

/-- The number of bytes of a text. -/
def size (cs : List Char) : ℕ := (cs.flatMap String.utf8EncodeChar).length

theorem size_append (cs cs' : List Char) : size (cs ++ cs') = size cs + size cs' := by
  rw [size, List.flatMap_append, List.length_append]
  rfl

theorem size_singleton {c : Char} (hc : c.toNat < 0x80) : size [c] = 1 := by
  rw [size, List.flatMap_singleton, String.length_utf8EncodeChar, Char.utf8Size_eq_one_iff]
  exact UInt32.le_iff_toNat_le.mpr (Nat.le_of_lt_succ hc)

theorem size_of_ascii {cs : List Char} (h : ∀ c ∈ cs, c.toNat < 0x80) : size cs = cs.length := by
  induction cs with
  | nil => rfl
  | cons c cs ih =>
    rw [← List.singleton_append, size_append, size_singleton (h c List.mem_cons_self),
      ih fun d hd => h d (List.mem_cons_of_mem _ hd), List.length_append, List.length_singleton]

/-- The byte at this index of a text is inside a character: behind its first one. -/
def Inside (cs : List Char) (n : ℕ) : Prop :=
  ∃ front c back, cs = front ++ c :: back ∧ size front < n ∧ n < size (front ++ [c])

theorem Inside.lt_size {cs : List Char} {n : ℕ} (h : Inside cs n) : n < size cs := by
  obtain ⟨front, c, back, rfl, -, hlt⟩ := h
  rw [← List.singleton_append, ← List.append_assoc, size_append]
  omega

/-- An index in a text or at its end is in front of a character or inside one. -/
theorem inside_or_front {cs : List Char} {n : ℕ} (h : n ≤ size cs) :
    Inside cs n ∨ ∃ front back, cs = front ++ back ∧ size front = n := by
  induction cs generalizing n with
  | nil => exact .inr ⟨[], [], rfl, (Nat.le_zero.mp h).symm⟩
  | cons c cs ih =>
    have hsize (front : List Char) : size (c :: front) = size [c] + size front := by
      rw [← List.singleton_append, size_append]
    rw [hsize] at h
    rcases lt_or_ge n (size [c]) with hlt | hge
    · rcases Nat.eq_zero_or_pos n with rfl | hpos
      · exact .inr ⟨[], c :: cs, rfl, rfl⟩
      · exact .inl ⟨[], c, cs, rfl, hpos, hlt⟩
    · have hrest : n - size [c] ≤ size cs := by omega
      rcases ih hrest with ⟨front, d, back, rfl, hlow, hhigh⟩ | ⟨front, back, rfl, heq⟩
      · refine .inl ⟨c :: front, d, back, rfl, ?_, ?_⟩
        · rw [hsize]
          omega
        · rw [List.cons_append, hsize]
          omega
      · refine .inr ⟨c :: front, back, rfl, ?_⟩
        rw [hsize]
        omega

/-- What follows a text does not matter for the indices in it. -/
theorem inside_append_iff {cs more : List Char} {n : ℕ} (h : n ≤ size cs) :
    Inside (cs ++ more) n ↔ Inside cs n := by
  constructor
  · rintro ⟨front, c, back, heq, hlow, hhigh⟩
    rcases List.append_eq_append_iff.mp heq with ⟨t, rfl, ht⟩ | ⟨t, rfl, ht⟩
    · rw [size_append] at hlow
      omega
    · cases t with
      | nil =>
        rw [List.append_nil] at h
        omega
      | cons d t =>
        obtain ⟨rfl, rfl⟩ := List.cons.inj ht
        exact ⟨front, c, t, rfl, hlow, hhigh⟩
  · rintro ⟨front, c, back, rfl, hlow, hhigh⟩
    exact ⟨front, c, back ++ more, by rw [List.append_assoc, List.cons_append], hlow, hhigh⟩

/-- A part of a text is there as a whole exactly when its bytes are. -/
theorem Cut.prefix_iff {cs : List Char} {n : ℕ}
    (k : Cut cs ((cs.flatMap String.utf8EncodeChar).take n)) {front : List Char} (h : front <+: cs) :
    front <+: k.whole ↔ size front ≤ n := by
  have hbytes := congrArg List.length k.bytes
  rw [List.length_take, List.length_append] at hbytes
  change min n (size cs) = size k.whole + k.tail.length at hbytes
  have hwhole : k.whole <+: cs := ⟨k.next, k.text.symm⟩
  constructor
  · rintro ⟨more, hmore⟩
    rw [← hmore, size_append] at hbytes
    omega
  · intro hle
    by_contra hnot
    obtain ⟨rest, hrest⟩ : k.whole <+: front := by
      refine List.prefix_of_prefix_length_le hwhole h (Nat.le_of_not_le fun hlen => hnot ?_)
      exact List.prefix_of_prefix_length_le h hwhole hlen
    obtain ⟨more, hmore⟩ := h
    have hcs : size cs = size front + size more := by rw [← hmore, size_append]
    cases rest with
    | nil =>
      rw [List.append_nil] at hrest
      exact hnot (hrest ▸ List.prefix_rfl)
    | cons c rest =>
      have hnext : k.next = c :: (rest ++ more) := by
        have htext : front ++ more = k.whole ++ k.next := hmore.trans k.text
        rw [← hrest, List.append_assoc] at htext
        exact (List.append_cancel_left htext).symm
      have hsize : size front = size k.whole + (String.utf8EncodeChar c).length + size rest := by
        rw [← hrest, size_append, ← List.singleton_append, size_append]
        simp [size, Nat.add_assoc]
      rcases k.part with hnil | ⟨d, hd, -, hlt⟩
      · have hpos : 0 < (String.utf8EncodeChar c).length := by
          rw [String.length_utf8EncodeChar]
          exact Char.utf8Size_pos c
        rw [hnil, List.length_nil] at hbytes
        omega
      · rw [hnext, List.head?_cons, Option.mem_some_iff] at hd
        subst hd
        omega

/-- Characters of one byte are not cut. -/
theorem Cut.tail_eq_nil {cs : List Char} {bs : List UInt8} (k : Cut cs bs)
    (h : ∀ c ∈ k.next.head?, c.toNat < 0x80) : k.tail = [] := by
  rcases k.part with hnil | ⟨c, hc, -, hlt⟩
  · exact hnil
  · have hone := size_singleton (h c hc)
    rw [size, List.flatMap_singleton] at hone
    exact List.eq_nil_of_length_eq_zero (by omega)

/-- Reading only so many bytes of a text does not move the characters that are whole among them,
and a character has at most four bytes. -/
theorem inside_decodeLossy_take_iff {s : String} {m n : ℕ} (h : n + 4 ≤ m) :
    Inside (decodeLossy ((bytes s).take m)).toList n ↔ Inside s.toList n := by
  obtain ⟨k⟩ := exists_cut s.toList _ (List.take_prefix m (bytes s))
  have hlen := congrArg List.length k.bytes
  rw [List.length_take, List.length_append] at hlen
  change min m (size s.toList) = size k.whole + k.tail.length at hlen
  rcases le_or_gt (size s.toList) m with hle | hgt
  · have hall : (bytes s).take m = bytes s := List.take_of_length_le hle
    rw [hall, decodeLossy_bytes]
  · have hwhole : n ≤ size k.whole := by
      rcases k.part with hnil | ⟨c, -, -, hlt⟩
      · rw [hnil, List.length_nil] at hlen
        omega
      · have hfour := c.utf8Size_le_four
        rw [String.length_utf8EncodeChar] at hlt
        omega
    rw [k.decodeLossy, inside_append_iff hwhole, ← inside_append_iff hwhole, ← k.text]

end GbfrLan.Lib.Utf8
