import Mathlib.Data.String.Basic
import Mathlib.Tactic

/-!
# Text as character lists

The string operations of the sources on lists of characters, where they are
structural recursions: ASCII case, search, splitting at a character, decimal numbers
with a range, and joining.
-/
namespace GbfrLan.Lib.Text

/-- ASCII lower case; other characters stay. -/
def lower (cs : List Char) : List Char := cs.map Char.toLower

def upper (cs : List Char) : List Char := cs.map Char.toUpper

/-- The needle occurs somewhere. -/
def containsSub (needle : List Char) : List Char → Bool
  | [] => needle.isEmpty
  | c :: cs => needle.isPrefixOf (c :: cs) || containsSub needle cs

/-- Cut at the first occurrence of a character. -/
def splitOnce (sep : Char) : List Char → Option (List Char × List Char)
  | [] => none
  | c :: cs =>
      if c = sep then some ([], cs)
      else (splitOnce sep cs).map fun (a, b) => (c :: a, b)

def stripPrefix : List Char → List Char → Option (List Char)
  | [], cs => some cs
  | _ :: _, [] => none
  | p :: ps, c :: cs => if p = c then stripPrefix ps cs else none

/-- A nonempty run of decimal digits as a number. -/
def parseNat (cs : List Char) : Option ℕ :=
  if cs.isEmpty || !cs.all Char.isDigit then none
  else some (cs.foldl (fun v c => 10 * v + (c.toNat - '0'.toNat)) 0)

/-- A decimal number from `lo` to `hi`, with an optional sign. -/
def parseInt (lo hi : ℤ) (cs : List Char) : Option ℤ :=
  let v := match cs with
    | '+' :: ds => (parseNat ds).map Int.ofNat
    | '-' :: ds => (parseNat ds).map fun n => -Int.ofNat n
    | ds => (parseNat ds).map Int.ofNat
  v.filter fun n => decide (lo ≤ n) && decide (n ≤ hi)

/-- Texts with a comma between any two of them. -/
def commas : List (List Char) → List Char
  | [] => []
  | t :: ts => t ++ ts.flatMap fun t => ',' :: t

theorem splitOnce_append {sep : Char} {k : List Char} (h : sep ∉ k) (v : List Char) :
    splitOnce sep (k ++ sep :: v) = some (k, v) := by
  induction k with
  | nil => simp [splitOnce]
  | cons c k ih =>
    have hc : c ≠ sep := fun heq => h (heq ▸ List.mem_cons_self)
    rw [List.cons_append, splitOnce, if_neg hc, ih fun hmem => h (List.mem_cons_of_mem _ hmem)]
    rfl

theorem stripPrefix_some_iff {front cs rest : List Char} :
    stripPrefix front cs = some rest ↔ cs = front ++ rest := by
  induction front generalizing cs with
  | nil => simp [stripPrefix, eq_comm]
  | cons c front ih =>
    cases cs with
    | nil => simp [stripPrefix]
    | cons d cs =>
      rw [stripPrefix]
      split_ifs with hcd
      · rw [ih, hcd, List.cons_append, List.cons.injEq, eq_self, true_and]
      · simp [Ne.symm hcd]

/-! ### Decimal numbers -/

theorem toList_toString (n : ℕ) : (toString n).toList = Nat.toDigits 10 n := Nat.toList_repr

theorem toString_ne_nil (n : ℕ) : (toString n).toList ≠ [] := by
  rw [toList_toString]
  exact Nat.toDigits_ne_nil

theorem isUpper_range {c : Char} (h : c.isUpper = true) : 65 ≤ c.toNat ∧ c.toNat ≤ 90 := by
  have hrange : 'A'.val ≤ c.val ∧ c.val ≤ 'Z'.val := of_decide_eq_true h
  exact ⟨UInt32.le_iff_toNat_le.mp hrange.1, UInt32.le_iff_toNat_le.mp hrange.2⟩

theorem isLower_range {c : Char} (h : c.isLower = true) : 97 ≤ c.toNat ∧ c.toNat ≤ 122 := by
  have hboth : (decide ('a'.val ≤ c.val) && decide (c.val ≤ 'z'.val)) = true := h
  obtain ⟨hlow, hhigh⟩ := Bool.and_eq_true_iff.mp hboth
  exact ⟨UInt32.le_iff_toNat_le.mp (of_decide_eq_true hlow),
    UInt32.le_iff_toNat_le.mp (of_decide_eq_true hhigh)⟩

theorem isDigit_of_mem_toString {n : ℕ} {c : Char} (h : c ∈ (toString n).toList) :
    c.isDigit = true := by
  rw [toList_toString] at h
  exact Nat.isDigit_of_mem_toDigits (by omega) (by omega) h

theorem plus_notMem_toString (n : ℕ) : '+' ∉ (toString n).toList := fun hmem =>
  absurd (isDigit_of_mem_toString hmem) (by decide)

/-- A number is read back from its decimal digits. -/
theorem parseNat_toString (n : ℕ) : parseNat (toString n).toList = some n := by
  have hdigits : (toString n).toList.all Char.isDigit = true :=
    List.all_eq_true.mpr fun c hc => isDigit_of_mem_toString hc
  have hne : (toString n).toList.isEmpty = false := List.isEmpty_eq_false_iff.mpr (toString_ne_nil n)
  rw [parseNat, hdigits, hne, toList_toString]
  exact congrArg some Nat.ofDigitChars_ten_toDigits

theorem digitChar_of_isDigit {c : Char} (h : c.isDigit = true) :
    c.toNat - '0'.toNat < 10 ∧ Nat.digitChar (c.toNat - '0'.toNat) = c := by
  simp only [Char.isDigit, Bool.and_eq_true, decide_eq_true_eq] at h
  have hlow : 48 ≤ c.toNat := UInt32.le_iff_toNat_le.mp h.1
  have hhigh : c.toNat ≤ 57 := UInt32.le_iff_toNat_le.mp h.2
  have hzero : '0'.toNat = 48 := rfl
  have hchar : ∀ n, 48 ≤ n → n ≤ 57 → Nat.digitChar (n - 48) = Char.ofNat n := by
    intro n h1 h2
    interval_cases n <;> rfl
  exact ⟨by omega, (hchar c.toNat hlow hhigh).trans (Char.ofNat_toNat c)⟩

theorem toDigits_foldl {ds : List Char} (hdigits : ∀ c ∈ ds, c.isDigit = true) (hne : ds ≠ [])
    (hzero : ds.head? ≠ some '0') :
    0 < ds.foldl (fun v c => 10 * v + (c.toNat - '0'.toNat)) 0 ∧
      Nat.toDigits 10 (ds.foldl (fun v c => 10 * v + (c.toNat - '0'.toNat)) 0) = ds := by
  induction ds using List.reverseRecOn with
  | nil => exact absurd rfl hne
  | append_singleton ds c ih =>
    obtain ⟨hlt, hchar⟩ := digitChar_of_isDigit (hdigits c (by simp))
    rw [List.foldl_append, List.foldl_cons, List.foldl_nil]
    by_cases hnil : ds = []
    · subst hnil
      rw [List.foldl_nil, Nat.mul_zero, Nat.zero_add, Nat.toDigits_of_lt_base hlt, hchar]
      refine ⟨Nat.pos_of_ne_zero fun heq => hzero ?_, rfl⟩
      rw [heq] at hchar
      rw [← hchar]
      rfl
    · have hhead : ds.head? ≠ some '0' := by
        intro heq
        rw [List.head?_append, heq] at hzero
        exact hzero rfl
      obtain ⟨hpos, htext⟩ := ih (fun d hd => hdigits d (List.mem_append_left _ hd)) hnil hhead
      rw [← Nat.toDigits_append_toDigits (by omega) hpos hlt, htext, Nat.toDigits_of_lt_base hlt, hchar]
      exact ⟨by omega, rfl⟩

/-- A decimal number without a zero in front is the text of its value. -/
theorem eq_toString_of_parseNat {ds : List Char} {n : ℕ} (h : parseNat ds = some n)
    (hzero : ds.head? ≠ some '0') : ds = (toString n).toList := by
  unfold parseNat at h
  split_ifs at h with hbad
  simp only [Bool.or_eq_true, List.isEmpty_iff, Bool.not_eq_true', not_or, Bool.not_eq_false,
    List.all_eq_true] at hbad
  obtain rfl := Option.some.inj h
  exact ((toList_toString _).trans (toDigits_foldl hbad.2 hbad.1 hzero).2).symm

end GbfrLan.Lib.Text
