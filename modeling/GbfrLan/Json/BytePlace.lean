import GbfrLan.Json.ByteScanner

/-!
# Places in the bytes of a text

`At b i cs`: the index stands in the bytes in front of these characters. A byte of a character
compares with an ASCII character as the character itself does, so that white space and delimiters
are skipped in the bytes as in the text.
-/
namespace GbfrLan.Json.ByteScan
open Lib Read

abbrev encode (cs : List Char) : List UInt8 := cs.flatMap String.utf8EncodeChar

theorem encode_cons (c : Char) (cs : List Char) :
    encode (c :: cs) = String.utf8EncodeChar c ++ encode cs := List.flatMap_cons

theorem encode_append (cs cs' : List Char) : encode (cs ++ cs') = encode cs ++ encode cs' :=
  List.flatMap_append

theorem length_encodeChar_pos (c : Char) : 0 < (String.utf8EncodeChar c).length := by
  rw [String.length_utf8EncodeChar]
  exact c.utf8Size_pos

theorem length_le_encode (cs : List Char) : cs.length ≤ (encode cs).length := by
  induction cs with
  | nil => exact Nat.le_refl _
  | cons c cs ih =>
    have hpos := length_encodeChar_pos c
    rw [encode_cons, List.length_append, List.length_cons]
    omega

/-! ### Places in a text -/

/-- The index stands in front of these characters. -/
structure At (b : List UInt8) (i : ℕ) (cs : List Char) : Prop where
  front : ∃ front : List Char, b = encode front ++ encode cs ∧ i = (encode front).length

section At

variable {b : List UInt8} {i : ℕ} {c : Char} {cs : List Char}

theorem At.zero (cs : List Char) : At (encode cs) 0 cs := ⟨[], rfl, rfl⟩

theorem At.length (h : At b i cs) : b.length = i + (encode cs).length := by
  obtain ⟨front, rfl, rfl⟩ := h
  exact List.length_append

theorem At.get (h : At b i cs) (j : ℕ) : b[i + j]? = (encode cs)[j]? := by
  obtain ⟨front, rfl, rfl⟩ := h
  rw [List.getElem?_append_right (Nat.le_add_right _ _), Nat.add_sub_cancel_left]

theorem At.peek (h : At b i cs) : peek b i = (encode cs)[0]? := h.get 0

theorem At.peek_nil (h : At b i []) : ByteScan.peek b i = none := h.peek

/-- Behind a character. -/
theorem At.next (h : At b i (c :: cs)) : At b (i + (String.utf8EncodeChar c).length) cs := by
  obtain ⟨front, rfl, rfl⟩ := h
  refine ⟨front ++ [c], ?_, ?_⟩
  · rw [encode_append, encode_cons, encode_cons, List.append_assoc, List.append_assoc]
    rfl
  · rw [encode_append, encode_cons, List.length_append, List.length_append]
    rfl

theorem At.next_ascii (hc : c.toNat < 0x80) (h : At b i (c :: cs)) : At b (i + 1) cs := by
  have hnext := h.next
  rwa [Utf8.encode_of_ascii hc] at hnext

/-- The first byte of a character. -/
theorem At.peek_cons (h : At b i (c :: cs)) :
    ∃ x, ByteScan.peek b i = some x ∧ (String.utf8EncodeChar c).head? = some x := by
  obtain ⟨x, xs, hx⟩ := List.exists_cons_of_ne_nil
    (List.length_pos_iff.mp (length_encodeChar_pos c))
  refine ⟨x, ?_, by rw [hx]; rfl⟩
  rw [h.peek, encode_cons, hx]
  rfl

theorem At.append {t : List Char} (h : At b i (t ++ cs)) : At b (i + (encode t).length) cs := by
  obtain ⟨front, rfl, rfl⟩ := h
  refine ⟨front ++ t, ?_, ?_⟩
  · rw [encode_append, encode_append, List.append_assoc]
  · rw [encode_append, List.length_append]

end At

/-- A byte of this character is compared with an ASCII character. -/
theorem eq_byte_iff {c : Char} {x : UInt8} (hx : x ∈ String.utf8EncodeChar c) {d : Char}
    (hd : d.toNat < 0x80) : x = byte d ↔ c = d := Utf8.mem_encode_iff hd hx

theorem At.peek_iff {b : List UInt8} {i : ℕ} {cs : List Char} (h : At b i cs) {d : Char}
    (hd : d.toNat < 0x80) : ByteScan.peek b i = some (byte d) ↔ cs.head? = some d := by
  cases cs with
  | nil =>
    rw [h.peek_nil]
    exact ⟨nofun, nofun⟩
  | cons c cs =>
    obtain ⟨x, hpeek, hhead⟩ := h.peek_cons
    rw [hpeek, List.head?_cons, Option.some.injEq, Option.some.injEq]
    exact eq_byte_iff (List.mem_of_head? hhead) hd

theorem isWs_mem {c : Char} {x : UInt8} (hx : x ∈ String.utf8EncodeChar c) :
    isWs x = Read.isWs c := by
  have hiff (d : Char) (hd : d.toNat < 0x80) : (x == byte d) = (c == d) := by
    rw [Bool.eq_iff_iff, beq_iff_eq, beq_iff_eq]
    exact eq_byte_iff hx hd
  rw [isWs, Read.isWs, hiff ' ' (by decide), hiff '\t' (by decide), hiff '\n' (by decide),
    hiff '\r' (by decide)]

theorem isDelimiter_mem {c : Char} {x : UInt8} (hx : x ∈ String.utf8EncodeChar c) :
    isDelimiter x = Scan.isDelimiter c := by
  have hiff (d : Char) (hd : d.toNat < 0x80) : (x == byte d) = (c == d) := by
    rw [Bool.eq_iff_iff, beq_iff_eq, beq_iff_eq]
    exact eq_byte_iff hx hd
  rw [isDelimiter, Scan.isDelimiter, hiff ',' (by decide), hiff '}' (by decide),
    hiff ']' (by decide), isWs_mem hx]

/-! ### Loops over bytes -/

theorem runWhile_append (p : UInt8 → Bool) (front rest : List UInt8) :
    runWhile (front ++ rest) p front.length = front.length + (rest.takeWhile p).length := by
  induction rest generalizing front with
  | nil =>
    rw [runWhile]
    split
    · rename_i c hc
      rw [List.append_nil, List.getElem?_eq_none le_rfl] at hc
      cases hc
    · rfl
  | cons x rest ih =>
    have hget : (front ++ x :: rest)[front.length]? = some x := by
      rw [List.getElem?_append_right le_rfl, Nat.sub_self]
      rfl
    have hshift := ih (front ++ [x])
    rw [List.append_assoc, List.singleton_append, List.length_append, List.length_singleton] at hshift
    rw [runWhile]
    split
    · rename_i c hc
      rw [hget, Option.some.injEq] at hc
      subst hc
      split_ifs with hp
      · rw [hshift, List.takeWhile_cons_of_pos hp, List.length_cons]
        omega
      · rw [List.takeWhile_cons_of_neg hp]
        rfl
    · rename_i hnone
      rw [hget] at hnone
      cases hnone

theorem runWhile_eq_self {b : List UInt8} {i : ℕ} {x : UInt8} {p : UInt8 → Bool}
    (hpeek : peek b i = some x) (hp : p x = false) : runWhile b p i = i := by
  have hget : b[i]? = some x := hpeek
  rw [runWhile]
  split
  · rename_i c hc
    rw [hget, Option.some.injEq] at hc
    subst hc
    rw [hp, if_neg Bool.false_ne_true]
  · rfl

/-- A predicate that all bytes of a character have in common. -/
theorem takeWhile_encode {p : UInt8 → Bool} {q : Char → Bool}
    (hpq : ∀ c, ∀ x ∈ String.utf8EncodeChar c, p x = q c) (cs : List Char) :
    (encode cs).takeWhile p = encode (cs.takeWhile q) := by
  induction cs with
  | nil => rfl
  | cons c cs ih =>
    rw [encode_cons]
    by_cases hq : q c = true
    · have hall : ∀ x ∈ String.utf8EncodeChar c, p x = true := fun x hx => (hpq c x hx).trans hq
      rw [List.takeWhile_append_of_pos hall, ih, List.takeWhile_cons_of_pos hq, encode_cons]
    · obtain ⟨x, xs, hx⟩ := List.exists_cons_of_ne_nil
        (List.length_pos_iff.mp (length_encodeChar_pos c))
      have hp : ¬p x = true := by
        rw [hpq c x (by rw [hx]; exact List.mem_cons_self)]
        exact hq
      rw [hx, List.cons_append, List.takeWhile_cons_of_neg hp, List.takeWhile_cons_of_neg hq]
      rfl

section

variable {b : List UInt8} {i : ℕ} {cs : List Char}

theorem At.runWhile {p : UInt8 → Bool} {q : Char → Bool}
    (hpq : ∀ c, ∀ x ∈ String.utf8EncodeChar c, p x = q c) (h : At b i cs) :
    At b (ByteScan.runWhile b p i) (cs.dropWhile q) := by
  have hsplit : cs = cs.takeWhile q ++ cs.dropWhile q := List.takeWhile_append_dropWhile.symm
  obtain ⟨front, hb, hi⟩ := h
  rw [hb, hi, runWhile_append, takeWhile_encode hpq]
  exact At.append ⟨front, by rw [← hsplit], rfl⟩

theorem At.skipWs (h : At b i cs) : At b (ByteScan.skipWs b i) (Read.skipWs cs) :=
  h.runWhile fun _ _ hx => isWs_mem hx

end

end GbfrLan.Json.ByteScan
