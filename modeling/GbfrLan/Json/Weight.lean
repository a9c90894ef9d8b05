import GbfrLan.Json.Scan

/-!
# What a text must hold to be read as a value

A text is weighed by counting some of its characters: quotes, backslashes, and the letters that
escapes are made of. The weights are such that no text for a string weighs less than the string as
`jsonEscape` writes it. A value has the weight of its strings and names, and no text that is read
as the value weighs less. A string that is written without its escapes does.
-/
namespace GbfrLan.Json
open Lib

/-- The characters that count. -/
def heavy (c : Char) : Bool :=
  c == '\\' || c == '"' || c == 'u' || c == 'b' || c == 'f' || c == 'B' || c == 'F'

def weight (cs : List Char) : ℕ := cs.countP heavy

@[simp] theorem weight_nil : weight [] = 0 := rfl

theorem weight_cons (c : Char) (cs : List Char) : weight (c :: cs) = weight [c] + weight cs := by
  rw [← List.singleton_append, weight, List.countP_append]
  rfl

@[simp] theorem weight_append (cs cs' : List Char) : weight (cs ++ cs') = weight cs + weight cs' :=
  List.countP_append

theorem weight_suffix {cs cs' : List Char} (h : cs <:+ cs') : weight cs ≤ weight cs' :=
  h.sublist.countP_le

theorem weight_singleton_le (c : Char) : weight [c] ≤ 1 := List.countP_le_length

/-- The weight of a string as it is written. -/
def cost (s : List Char) : ℕ := weight (s.flatMap escapeChar)

theorem cost_cons (c : Char) (s : List Char) : cost (c :: s) = weight (escapeChar c) + cost s := by
  rw [cost, List.flatMap_cons, weight_append]
  rfl

/-! ### Strings -/

theorem escapeChar_plain {c : Char} (h : Read.isPlainChar c = true) : escapeChar c = [c] := by
  simp only [Read.isPlainChar, Bool.and_eq_true, bne_iff_ne, ne_eq, decide_eq_true_eq] at h
  obtain ⟨⟨hquote, hback⟩, hctl⟩ := h
  have hlf : c ≠ '\n' := by
    rintro rfl
    exact absurd hctl (by decide)
  have hcr : c ≠ '\r' := by
    rintro rfl
    exact absurd hctl (by decide)
  have htab : c ≠ '\t' := by
    rintro rfl
    exact absurd hctl (by decide)
  rw [escapeChar, if_neg hquote, if_neg hback, if_neg hlf, if_neg hcr, if_neg htab,
    if_neg (not_lt.mpr hctl)]

/-- The escape of a character weighs more than the character. -/
theorem weight_escapeChar {c : Char} (h : Read.isPlainChar c = false) :
    weight [c] < weight (escapeChar c) := by
  unfold escapeChar
  split_ifs with h1 h2 h3 h4 h5 h6
  · subst h1
    decide
  · subst h2
    decide
  · subst h3
    decide
  · subst h4
    decide
  · subst h5
    decide
  · have hle := weight_singleton_le c
    have hfront : weight ['\\', 'u'] = 2 := by decide
    have htext : weight ['\\', 'u', '0', '0', hexChar (c.toNat / 16), hexChar (c.toNat % 16)] =
        weight ['\\', 'u'] + weight ['0', '0', hexChar (c.toNat / 16), hexChar (c.toNat % 16)] := by
      rw [← weight_append]
      rfl
    omega
  · have hplain : Read.isPlainChar c = true := by
      simp [Read.isPlainChar, h1, h2]
      omega
    rw [hplain] at h
    cases h

/-- The digits for a value all weigh the same. -/
theorem weight_hexDigit {c : Char} {d : ℕ} (h : Read.hexDigit c = some d) :
    weight [c] = weight [hexChar d] := by
  have hall : ∀ n : Fin 128, ∀ d, Read.hexDigit (Char.ofNat n) = some d →
      weight [Char.ofNat n] = weight [hexChar d] := by
    decide
  have hc := hall ⟨c.toNat, Read.ascii_of_hexDigit h⟩
  simp only [Char.ofNat_toNat] at hc
  exact hc d h

theorem toNat_ofNat {n : ℕ} (h : n.isValidChar) : (Char.ofNat n).toNat = n := by
  rw [Char.ofNat, dif_pos h]
  rfl

/-- What four digits spell is not cheaper than they are. -/
theorem cost_hex4 {x y z w : Char} {n : ℕ} (h : Read.hex4 x y z w = some n) (hn : n < 0xD800 ∨ 0xDFFF < n) :
    weight (escapeChar (Char.ofNat n)) ≤ 2 + weight [x, y, z, w] := by
  obtain ⟨a, ha, h⟩ := Option.bind_eq_some_iff.mp h
  obtain ⟨b, hb, h⟩ := Option.bind_eq_some_iff.mp h
  obtain ⟨c, hc, h⟩ := Option.bind_eq_some_iff.mp h
  obtain ⟨d, hd, h⟩ := Option.bind_eq_some_iff.mp h
  obtain rfl : 16 * (16 * (16 * a + b) + c) + d = n := Option.some.inj h
  have hwc := weight_hexDigit hc
  have hwd := weight_hexDigit hd
  have ha16 := Read.hexDigit_lt ha
  have hb16 := Read.hexDigit_lt hb
  have hc16 := Read.hexDigit_lt hc
  have hd16 := Read.hexDigit_lt hd
  set n := 16 * (16 * (16 * a + b) + c) + d with hdef
  have hvalid : n.isValidChar := by
    unfold Nat.isValidChar
    omega
  have hnat : (Char.ofNat n).toNat = n := toNat_ofNat hvalid
  unfold escapeChar
  split_ifs with h1 h2 h3 h4 h5 h6
  · exact Nat.le_add_right 2 _
  · exact Nat.le_add_right 2 _
  · exact Nat.le_trans (by decide) (Nat.le_add_right 2 _)
  · exact Nat.le_trans (by decide) (Nat.le_add_right 2 _)
  · exact Nat.le_trans (by decide) (Nat.le_add_right 2 _)
  · -- a control character: the last two digits are those that the escape has
    rw [hnat] at h6 ⊢
    have hdiv : n / 16 = c := by omega
    have hmod : n % 16 = d := by omega
    have htext : weight ['\\', 'u', '0', '0', hexChar (n / 16), hexChar (n % 16)] =
        weight ['\\', 'u', '0', '0'] + (weight [hexChar (n / 16)] + weight [hexChar (n % 16)]) := by
      rw [← weight_append, ← weight_append]
      rfl
    have hdigits : weight [x, y, z, w] = weight [x, y] + (weight [z] + weight [w]) := by
      rw [← weight_append, ← weight_append]
      rfl
    have hfront : weight ['\\', 'u', '0', '0'] = 2 := by decide
    rw [htext, hdigits, hdiv, hmod, hwc, hwd, hfront]
    omega
  · exact (weight_singleton_le _).trans (by omega)

theorem cost_shortEscape {e c : Char} (h : Read.shortEscape e = some c) :
    weight (escapeChar c) ≤ 1 + weight [e] := by
  unfold Read.shortEscape at h
  split_ifs at h with h1 h2 h3 h4 h5 h6
  · obtain rfl := Option.some.inj h
    rcases h1 with rfl | rfl | rfl <;> decide
  · subst h2
    obtain rfl := Option.some.inj h
    decide
  · subst h3
    obtain rfl := Option.some.inj h
    decide
  · obtain rfl := Option.some.inj h
    exact Nat.le_trans (by decide) (Nat.le_add_right 1 _)
  · obtain rfl := Option.some.inj h
    exact Nat.le_trans (by decide) (Nat.le_add_right 1 _)
  · obtain rfl := Option.some.inj h
    exact Nat.le_trans (by decide) (Nat.le_add_right 1 _)

theorem cost_surrogates {hi lo : ℕ} (hhi : Read.isHighSurrogate hi = true)
    (hlo : Read.isLowSurrogate lo = true) :
    weight (escapeChar (Char.ofNat (0x10000 + (hi - 0xD800) * 0x400 + (lo - 0xDC00)))) ≤ 1 := by
  simp only [Read.isHighSurrogate, Read.isLowSurrogate, Bool.and_eq_true, decide_eq_true_eq]
    at hhi hlo
  set n := 0x10000 + (hi - 0xD800) * 0x400 + (lo - 0xDC00) with hn
  have hnat : (Char.ofNat n).toNat = n := toNat_ofNat (by unfold Nat.isValidChar; omega)
  have hne (c : Char) (hc : c.toNat < 0x10000) : Char.ofNat n ≠ c := by
    rintro rfl
    omega
  have hplain : Read.isPlainChar (Char.ofNat n) = true := by
    simp only [Read.isPlainChar, Bool.and_eq_true, bne_iff_ne, ne_eq, decide_eq_true_eq]
    exact ⟨⟨hne '"' (by decide), hne '\\' (by decide)⟩, by omega⟩
  rw [escapeChar_plain hplain]
  exact weight_singleton_le _

/-- One character that is read in front of the others. -/
theorem cost_strTail_cons {c : Char} {front cs s rest : List Char}
    (hfront : weight (escapeChar c) ≤ weight front)
    (ih : ∀ {s rest : List Char}, Read.strTail cs = some (s, rest) →
      cost s + weight rest + 1 ≤ weight cs)
    (h : (Read.strTail cs).map (fun (s, rest) => (c :: s, rest)) = some (s, rest)) :
    cost s + weight rest + 1 ≤ weight (front ++ cs) := by
  obtain ⟨⟨s', rest'⟩, hread, heq⟩ := Option.map_eq_some_iff.mp h
  obtain ⟨rfl, rfl⟩ := Prod.mk.inj heq
  have hrest := ih hread
  rw [cost_cons, weight_append]
  omega

/-- A string weighs at least what it is written with, and its closing quote. -/
theorem cost_strTail {cs s rest : List Char} (h : Read.strTail cs = some (s, rest)) :
    cost s + weight rest + 1 ≤ weight cs := by
  fun_induction Read.strTail cs generalizing s rest with
  | case2 rest' =>
    obtain ⟨rfl, rfl⟩ := Prod.mk.inj (Option.some.inj h)
    have hquote : weight ['"'] = 1 := by decide
    have hnil : cost [] = 0 := rfl
    rw [weight_cons]
    omega
  | case6 x y z w hi hhex hhi b u x' y' z' w' rest' lo hhex' hlo _ =>
    rename_i ih
    obtain ⟨rfl, rfl, hlo⟩ := hlo
    refine @cost_strTail_cons _ ['\\', 'u', x, y, z, w, '\\', 'u', x', y', z', w'] _ _ _ ?_ ih h
    refine (cost_surrogates hhi hlo).trans ?_
    rw [weight_cons]
    exact Nat.le_add_right 1 _
  | case10 x y z w rest' n hhex hhigh hlow _ ih =>
    refine @cost_strTail_cons _ ['\\', 'u', x, y, z, w] _ _ _ ?_ ih h
    simp only [Read.isHighSurrogate, Read.isLowSurrogate, Bool.and_eq_true, decide_eq_true_eq]
      at hhigh hlow
    refine (cost_hex4 hhex (by omega)).trans (Nat.le_of_eq ?_)
    exact (weight_append ['\\', 'u'] [x, y, z, w]).symm
  | case13 e rest' _ c hshort _ ih =>
    refine @cost_strTail_cons _ ['\\', e] _ _ _ ?_ ih h
    rw [weight_cons]
    exact cost_shortEscape hshort
  | case15 c rest' hquote hback hctl ih =>
    refine @cost_strTail_cons _ [c] _ _ _ (Nat.le_of_eq ?_) ih h
    have hplain : Read.isPlainChar c = true := by
      simp only [Read.isPlainChar, Bool.and_eq_true, bne_iff_ne, ne_eq, decide_eq_true_eq]
      exact ⟨⟨hquote, hback⟩, not_lt.mp hctl⟩
    rw [escapeChar_plain hplain]
  | _ => cases h

/-! ### Values -/

namespace Value

mutual

/-- The weight of the strings and names of a value. -/
def size : Value → ℕ
  | .string s => 2 + cost s.toList
  | .array xs => sizeList xs
  | .object fields => sizeFields fields
  | _ => 0

def sizeList : List Value → ℕ
  | [] => 0
  | x :: xs => size x + sizeList xs

def sizeFields : List (String × Value) → ℕ
  | [] => 0
  | e :: fields => sizeField e + sizeFields fields

def sizeField : String × Value → ℕ
  | (k, v) => 2 + cost k.toList + size v

end

theorem sizeFields_insert_le (k : String) (v : Value) (m : Fields) :
    sizeFields (Entries.insert k v m) ≤ sizeField (k, v) + sizeFields m := by
  induction m with
  | nil => rfl
  | cons e m ih =>
    obtain ⟨k', v'⟩ := e
    rw [Entries.insert]
    split_ifs with hlt heq
    · rfl
    · rw [sizeFields, sizeFields]
      omega
    · rw [sizeFields, sizeFields]
      omega

/-- A new name adds its field. -/
theorem sizeFields_insert {k : String} (v : Value) {m : Fields} (h : k ∉ m.map Prod.fst) :
    sizeFields (Entries.insert k v m) = sizeField (k, v) + sizeFields m := by
  induction m with
  | nil => rfl
  | cons e m ih =>
    obtain ⟨k', v'⟩ := e
    rw [List.map_cons, List.mem_cons, not_or] at h
    rw [Entries.insert]
    split_ifs with hlt heq
    · rfl
    · exact absurd heq h.1
    · rw [sizeFields, sizeFields, ih h.2]
      omega

theorem mem_keys_insert {k k' : String} {v : Value} {m : Fields}
    (h : k' ∈ (Entries.insert k v m).map Prod.fst) : k' = k ∨ k' ∈ m.map Prod.fst := by
  induction m with
  | nil => exact .inl (List.mem_singleton.mp h)
  | cons e m ih =>
    obtain ⟨k₀, v₀⟩ := e
    rw [Entries.insert] at h
    split_ifs at h with hlt heq
    · exact List.mem_cons.mp h
    · rcases List.mem_cons.mp h with h | h
      · exact .inl h
      · exact .inr (List.mem_cons_of_mem _ h)
    · rcases List.mem_cons.mp h with h | h
      · exact .inr (h ▸ List.mem_cons_self)
      · exact (ih h).imp_right (List.mem_cons_of_mem _)

theorem sizeFields_foldl_insert {es m : Fields} (hes : (es.map Prod.fst).Nodup)
    (hm : ∀ e ∈ es, e.1 ∉ m.map Prod.fst) :
    sizeFields (es.foldl (fun m e => Entries.insert e.1 e.2 m) m) = sizeFields es + sizeFields m := by
  induction es generalizing m with
  | nil => simp [sizeFields]
  | cons e es ih =>
    obtain ⟨k, v⟩ := e
    rw [List.map_cons, List.nodup_cons] at hes
    have hnew : ∀ e ∈ es, e.1 ∉ (Entries.insert k v m).map Prod.fst := by
      intro e he hmem
      rcases mem_keys_insert hmem with heq | hmem
      · have hkey : e.1 ∈ es.map Prod.fst := List.mem_map_of_mem he
        exact hes.1 (heq ▸ hkey)
      · exact hm e (List.mem_cons_of_mem _ he) hmem
    have hk : k ∉ m.map Prod.fst := hm _ List.mem_cons_self
    rw [List.foldl_cons, ih hes.2 hnew, sizeFields_insert v hk, sizeFields]
    omega

/-- An object of different names has all its fields. -/
theorem size_obj {es : List (String × Value)} (h : (es.map Prod.fst).Nodup) :
    (obj es).size = sizeFields es := by
  rw [obj, size, sizeFields_foldl_insert h (fun e _ => by simp), sizeFields, Nat.add_zero]

@[simp] theorem sizeFields_append (es es' : List (String × Value)) :
    sizeFields (es ++ es') = sizeFields es + sizeFields es' := by
  induction es with
  | nil => simp [sizeFields]
  | cons e es ih =>
    rw [List.cons_append, sizeFields, sizeFields, ih]
    omega

end Value

/-! ### The reader -/

theorem weight_token {c : Char} {cs rest : List Char} (h : Read.token c cs = some rest) :
    weight rest + weight [c] ≤ weight cs := by
  unfold Read.token at h
  have hsuffix : Read.skipWs cs <:+ cs := List.dropWhile_suffix _
  split at h
  · cases h
  · rename_i c' rest' heq
    split_ifs at h with hc
    cases h
    subst hc
    have hle := weight_suffix hsuffix
    rw [heq, weight_cons] at hle
    omega

theorem stripPrefix_suffix {ps cs rest : List Char} (h : Text.stripPrefix ps cs = some rest) :
    rest <:+ cs :=
  ⟨ps, (Text.stripPrefix_some_iff.mp h).symm⟩

theorem digits_suffix {cs ds rest : List Char} (h : Read.digits cs = some (ds, rest)) :
    rest <:+ cs := by
  unfold Read.digits at h
  split at h
  · cases h
  · cases h
    exact List.dropWhile_suffix _

theorem fraction_suffix {cs ds rest : List Char} (h : Read.fraction cs = some (ds, rest)) :
    rest <:+ cs := by
  unfold Read.fraction at h
  split at h
  · obtain ⟨⟨ds', rest'⟩, hdigits, heq⟩ := Option.map_eq_some_iff.mp h
    cases heq
    exact (digits_suffix hdigits).trans (List.suffix_cons _ _)
  · cases h
    exact List.suffix_rfl

theorem exponent_suffix {cs ds rest : List Char} (h : Read.exponent cs = some (ds, rest)) :
    rest <:+ cs := by
  unfold Read.exponent at h
  split at h
  · cases h
    exact List.suffix_rfl
  · split_ifs at h
    · split at h
      · cases h
      · split_ifs at h
        · obtain ⟨⟨ds', rest'⟩, hdigits, heq⟩ := Option.map_eq_some_iff.mp h
          cases heq
          exact ((digits_suffix hdigits).trans (List.suffix_cons _ _)).trans (List.suffix_cons _ _)
        · obtain ⟨⟨ds', rest'⟩, hdigits, heq⟩ := Option.map_eq_some_iff.mp h
          cases heq
          exact (digits_suffix hdigits).trans (List.suffix_cons _ _)
    · cases h
      exact List.suffix_rfl

section
variable {readFloat : List Char → Option UInt64}

theorem magnitude_suffix {neg : Bool} {cs rest : List Char} {n : Number}
    (h : Read.magnitude readFloat neg cs = some (n, rest)) : rest <:+ cs := by
  obtain ⟨⟨int, rest₁⟩, hint, h⟩ := Option.bind_eq_some_iff.mp h
  dsimp only at h
  by_cases hzero : int.head? = some '0' ∧ 1 < int.length
  · rw [if_pos hzero] at h
    cases h
  rw [if_neg hzero] at h
  obtain ⟨⟨frac, rest₂⟩, hfrac, h⟩ := Option.bind_eq_some_iff.mp h
  obtain ⟨⟨exp, rest₃⟩, hexp, h⟩ := Option.bind_eq_some_iff.mp h
  have hsuffix : rest₃ <:+ cs :=
    ((exponent_suffix hexp).trans (fraction_suffix hfrac)).trans (digits_suffix hint)
  have hrest : rest₃ = rest := by
    dsimp only at h
    split_ifs at h
    all_goals
      first
      | exact (Prod.mk.inj (Option.some.inj h)).2
      | obtain ⟨bits, -, heq⟩ := Option.map_eq_some_iff.mp h
        exact (Prod.mk.inj heq).2
  rwa [hrest] at hsuffix

theorem number_suffix {cs rest : List Char} {n : Number}
    (h : Read.number readFloat cs = some (n, rest)) : rest <:+ cs := by
  unfold Read.number at h
  split at h
  · exact (magnitude_suffix h).trans (List.suffix_cons _ _)
  · exact magnitude_suffix h

variable (readFloat) in
/-- With this much fuel no text weighs less than the values read from it. -/
structure Weighs (fuel : ℕ) : Prop where
  value : ∀ {depth cs v rest}, Read.value readFloat fuel depth cs = some (v, rest) →
    v.size + weight rest ≤ weight cs
  members : ∀ {depth m cs m' rest}, Read.members readFloat fuel depth m cs = some (m', rest) →
    Value.sizeFields m' + weight rest ≤ Value.sizeFields m + weight cs
  elements : ∀ {depth cs xs rest}, Read.elements readFloat fuel depth cs = some (xs, rest) →
    Value.sizeList xs + weight rest ≤ weight cs

theorem Weighs.value_succ {fuel depth : ℕ} {cs rest : List Char} {v : Value}
    (ih : Weighs readFloat fuel)
    (h : Read.value readFloat (fuel + 1) depth cs = some (v, rest)) :
    v.size + weight rest ≤ weight cs := by
  have hskip : weight (Read.skipWs cs) ≤ weight cs := weight_suffix (List.dropWhile_suffix _)
  refine le_trans ?_ hskip
  rw [Read.value] at h
  cases hcs : Read.skipWs cs with
  | nil =>
    rw [hcs] at h
    cases h
  | cons c cs' =>
    rw [hcs] at h
    have hcons := weight_cons c cs'
    -- a literal or a number weighs nothing as a value
    have hscalar {v' : Value} (hv : v'.size = 0) (hsuffix : rest <:+ c :: cs') :
        v'.size + weight rest ≤ weight (c :: cs') := by
      rw [hv, Nat.zero_add]
      exact weight_suffix hsuffix
    dsimp only at h
    split_ifs at h with hquote hbrace hbracket hnull htrue hfalse
    · obtain ⟨⟨s, rest'⟩, hread, heq⟩ := Option.map_eq_some_iff.mp h
      simp only [Prod.mk.injEq] at heq
      obtain ⟨rfl, rfl⟩ := heq
      have hstr := cost_strTail hread
      have hone : weight [c] = 1 := by
        rw [hquote]
        decide
      rw [Value.size, String.toList_ofList]
      omega
    · split at h
      · split at h
        · rename_i rest' hclose
          obtain ⟨rfl, rfl⟩ := Prod.mk.inj (Option.some.inj h)
          have hle := weight_token hclose
          rw [Value.size, Value.sizeFields]
          omega
        · obtain ⟨⟨m, rest'⟩, hread, heq⟩ := Option.map_eq_some_iff.mp h
          simp only [Prod.mk.injEq] at heq
          obtain ⟨rfl, rfl⟩ := heq
          have hle := ih.members hread
          rw [Value.sizeFields] at hle
          rw [Value.size]
          omega
      · cases h
    · split at h
      · split at h
        · rename_i rest' hclose
          obtain ⟨rfl, rfl⟩ := Prod.mk.inj (Option.some.inj h)
          have hle := weight_token hclose
          rw [Value.size, Value.sizeList]
          omega
        · obtain ⟨⟨xs, rest'⟩, hread, heq⟩ := Option.map_eq_some_iff.mp h
          simp only [Prod.mk.injEq] at heq
          obtain ⟨rfl, rfl⟩ := heq
          have hle := ih.elements hread
          rw [Value.size]
          omega
      · cases h
    · obtain ⟨rest', hread, heq⟩ := Option.map_eq_some_iff.mp h
      simp only [Prod.mk.injEq] at heq
      obtain ⟨rfl, rfl⟩ := heq
      exact hscalar rfl ((stripPrefix_suffix hread).trans (List.suffix_cons _ _))
    · obtain ⟨rest', hread, heq⟩ := Option.map_eq_some_iff.mp h
      simp only [Prod.mk.injEq] at heq
      obtain ⟨rfl, rfl⟩ := heq
      exact hscalar rfl ((stripPrefix_suffix hread).trans (List.suffix_cons _ _))
    · obtain ⟨rest', hread, heq⟩ := Option.map_eq_some_iff.mp h
      simp only [Prod.mk.injEq] at heq
      obtain ⟨rfl, rfl⟩ := heq
      exact hscalar rfl ((stripPrefix_suffix hread).trans (List.suffix_cons _ _))
    · obtain ⟨⟨n, rest'⟩, hread, heq⟩ := Option.map_eq_some_iff.mp h
      simp only [Prod.mk.injEq] at heq
      obtain ⟨rfl, rfl⟩ := heq
      exact hscalar rfl (number_suffix hread)

theorem Weighs.members_succ {fuel depth : ℕ} {m m' : Fields} {cs rest : List Char}
    (ih : Weighs readFloat fuel)
    (h : Read.members readFloat (fuel + 1) depth m cs = some (m', rest)) :
    Value.sizeFields m' + weight rest ≤ Value.sizeFields m + weight cs := by
  rw [Read.members] at h
  obtain ⟨cs₁, hopen, h⟩ := Option.bind_eq_some_iff.mp h
  obtain ⟨⟨key, cs₂⟩, hkey, h⟩ := Option.bind_eq_some_iff.mp h
  obtain ⟨cs₃, hcolon, h⟩ := Option.bind_eq_some_iff.mp h
  obtain ⟨⟨v, cs₄⟩, hval, h⟩ := Option.bind_eq_some_iff.mp h
  have hopen := weight_token hopen
  have hkey := cost_strTail hkey
  have hcolon := weight_token hcolon
  have hval := ih.value hval
  have hone : weight ['"'] = 1 := by decide
  have hinsert := Value.sizeFields_insert_le (String.ofList key) v m
  rw [Value.sizeField, String.toList_ofList] at hinsert
  dsimp only at h
  split at h
  · rename_i cs₅ hcomma
    have hcomma := weight_token hcomma
    have hrest := ih.members h
    omega
  · obtain ⟨rest', hclose, heq⟩ := Option.map_eq_some_iff.mp h
    simp only [Prod.mk.injEq] at heq
    obtain ⟨rfl, rfl⟩ := heq
    have hclose := weight_token hclose
    omega

theorem Weighs.elements_succ {fuel depth : ℕ} {cs rest : List Char} {xs : List Value}
    (ih : Weighs readFloat fuel)
    (h : Read.elements readFloat (fuel + 1) depth cs = some (xs, rest)) :
    Value.sizeList xs + weight rest ≤ weight cs := by
  rw [Read.elements] at h
  obtain ⟨⟨v, cs₁⟩, hval, h⟩ := Option.bind_eq_some_iff.mp h
  have hval := ih.value hval
  dsimp only at h
  split at h
  · rename_i cs₂ hcomma
    obtain ⟨⟨vs, rest'⟩, hrest, heq⟩ := Option.map_eq_some_iff.mp h
    simp only [Prod.mk.injEq] at heq
    obtain ⟨rfl, rfl⟩ := heq
    have hcomma := weight_token hcomma
    have hrest := ih.elements hrest
    rw [Value.sizeList]
    omega
  · obtain ⟨rest', hclose, heq⟩ := Option.map_eq_some_iff.mp h
    simp only [Prod.mk.injEq] at heq
    obtain ⟨rfl, rfl⟩ := heq
    have hclose := weight_token hclose
    rw [Value.sizeList, Value.sizeList]
    omega

theorem weighs (fuel : ℕ) : Weighs readFloat fuel := by
  induction fuel with
  | zero =>
    refine ⟨fun h => ?_, fun h => ?_, fun h => ?_⟩
    · rw [Read.value] at h
      cases h
    · rw [Read.members] at h
      cases h
    · rw [Read.elements] at h
      cases h
  | succ fuel ih => exact ⟨ih.value_succ, ih.members_succ, ih.elements_succ⟩

/-- A text that is read as a value weighs no less than the value. -/
theorem size_le_of_fromSlice {t : List Char} {v : Value} (h : Read.fromSlice readFloat t = some v) :
    v.size ≤ weight t := by
  unfold Read.fromSlice at h
  split at h
  · rename_i v' rest hread
    split_ifs at h
    obtain rfl := Option.some.inj h
    exact le_trans (Nat.le_add_right _ _) ((weighs _).value hread)
  · cases h

end

/-! ### Texts that may lack escapes -/

/-- The text weighs at most so much, and only as much when the condition holds. -/
structure Light (t : List Char) (n : ℕ) (P : Prop) : Prop where
  le : weight t ≤ n
  cond : weight t = n → P

namespace Light

variable {t t' : List Char} {n n' : ℕ} {P P' : Prop}

theorem of_eq (h : weight t = n) : Light t n True := ⟨h.le, fun _ => trivial⟩

theorem imp (h : Light t n P) (hP : P → P') : Light t n P' := ⟨h.le, fun heq => hP (h.cond heq)⟩

theorem append (h : Light t n P) (h' : Light t' n' P') : Light (t ++ t') (n + n') (P ∧ P') := by
  have hle := h.le
  have hle' := h'.le
  constructor
  · rw [weight_append]
    omega
  · rw [weight_append]
    intro heq
    exact ⟨h.cond (by omega), h'.cond (by omega)⟩

end Light

/-- A string without its escapes. -/
theorem light_plain (s : String) : Light s.toList (cost s.toList) (Read.Plain s) := by
  unfold Read.Plain
  induction s.toList with
  | nil => exact ⟨le_rfl, fun _ => rfl⟩
  | cons c cs ih =>
    have hle := ih.le
    rw [List.all_cons, Bool.and_eq_true, cost_cons]
    by_cases hc : Read.isPlainChar c = true
    · rw [escapeChar_plain hc]
      have hone : Light [c] (weight [c]) True := .of_eq rfl
      exact (hone.append ih).imp fun h => ⟨hc, h.2⟩
    · have hlt := weight_escapeChar (Bool.eq_false_iff.mpr hc)
      constructor
      · rw [weight_cons]
        omega
      · rw [weight_cons]
        omega

end GbfrLan.Json
