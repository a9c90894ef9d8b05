import GbfrLan.Party.Descriptor

/-!
# The ids of networks

The shape of `uuid_ident`, and what keeps ids apart: the last group is the counter times an odd
number, of which 48 bits are printed. The clock only fills the first three groups.
-/
namespace GbfrLan.Party
open Lib

/-! ### The shape -/

def lowerHex : List Char := "0123456789abcdef".toList

/-- The positions of the dashes. -/
def dashes : List ℕ := [8, 13, 18, 23]

/-- What may stand at a position. -/
def Fits (dash : Bool) (c : Char) : Prop := if dash then c = '-' else c ∈ lowerHex

instance (dash : Bool) (c : Char) : Decidable (Fits dash c) :=
  inferInstanceAs (Decidable (if dash then c = '-' else c ∈ lowerHex))

/-- For each position of an id, whether it is that of a dash. -/
def template : List Bool := (List.range 36).map fun i => decide (i ∈ dashes)

structure UuidShape (id : String) : Prop where
  length : id.toList.length = 36
  place : ∀ i c, id.toList[i]? = some c → if i ∈ dashes then c = '-' else c ∈ lowerHex

theorem mem_lowerHex_of_mem_hexFixed {k n : ℕ} {c : Char} (h : c ∈ hexFixed k n) : c ∈ lowerHex := by
  obtain ⟨d, hd, rfl⟩ := mem_hexFixed h
  have hall : ∀ d : Fin 16, Nat.digitChar d.val ∈ lowerHex := by decide
  exact hall ⟨d, hd⟩

theorem fits_of_mem {cs : List Char} (h : ∀ c ∈ cs, c ∈ lowerHex) :
    List.Forall₂ Fits (List.replicate cs.length false) cs := by
  induction cs with
  | nil => exact .nil
  | cons c cs ih =>
    have hc : Fits false c := h c List.mem_cons_self
    exact .cons hc (ih fun d hd => h d (List.mem_cons_of_mem _ hd))

/-- A group of digits fits as many places without a dash. -/
theorem fits_hexFixed (k n : ℕ) : List.Forall₂ Fits (List.replicate k false) (hexFixed k n) := by
  have h := fits_of_mem fun c (hc : c ∈ hexFixed k n) => mem_lowerHex_of_mem_hexFixed hc
  rwa [length_hexFixed] at h

theorem fits_uuidIdent (t : ℕ) (n : UInt64) : List.Forall₂ Fits template (uuidIdent t n).toList := by
  have hdash : Fits true '-' := rfl
  have hfour : Fits false '4' := by decide
  have height : Fits false '8' := by decide
  have hfirst := fits_hexFixed 8 (t / 2 ^ 32 % 2 ^ 32)
  have hsecond := (fits_hexFixed 4 (t / 2 ^ 16 % 2 ^ 16)).cons hdash
  have hthird := ((fits_hexFixed 3 (t % 2 ^ 12)).cons hfour).cons hdash
  have hfourth := ((fits_hexFixed 3 (n.toNat % 2 ^ 12)).cons height).cons hdash
  have hlast := (fits_hexFixed 12 ((n * 0x9e37).toNat % 2 ^ 48)).cons hdash
  rw [uuidIdent, String.toList_ofList]
  exact List.rel_append (List.rel_append (List.rel_append (List.rel_append hfirst hsecond) hthird)
    hfourth) hlast

theorem uuidShape_of_fits {id : String} (h : List.Forall₂ Fits template id.toList) : UuidShape id := by
  have hlen : id.toList.length = 36 := h.length_eq.symm
  refine ⟨hlen, fun i c hc => ?_⟩
  obtain ⟨hi, rfl⟩ := List.getElem?_eq_some_iff.mp hc
  have hplace := (List.forall₂_iff_get.mp h).2 i (by rw [h.length_eq]; exact hi) hi
  simpa [Fits, template] using hplace

/-! ### The last group -/

theorem hexFixed_inj {k m n : ℕ} (hm : m < 16 ^ k) (hn : n < 16 ^ k)
    (h : hexFixed k m = hexFixed k n) : m = n := by
  have hdigits := congrArg hexValue h
  have hm' := hexValue_hexFixed_append hm []
  have hn' := hexValue_hexFixed_append hn []
  simp only [List.append_nil, List.filterMap_nil, List.length_nil, pow_zero, one_mul] at hm' hn'
  omega

/-- The number that the last group prints. -/
def tail (n : UInt64) : ℕ := (n * 0x9e37).toNat % 2 ^ 48

theorem tail_eq (n : UInt64) : tail n = n.toNat * 0x9e37 % 2 ^ 48 := by
  have hfactor : (0x9e37 : UInt64).toNat = 0x9e37 := rfl
  rw [tail, UInt64.toNat_mul, hfactor]
  omega

/-- The factor is odd, so it can be cancelled. -/
theorem tail_eq_tail_iff (m n : UInt64) : tail m = tail n ↔ m.toNat ≡ n.toNat [MOD 2 ^ 48] := by
  have hcoprime : Nat.gcd (2 ^ 48) 0x9e37 = 1 := by norm_num
  rw [tail_eq, tail_eq]
  exact ⟨Nat.ModEq.cancel_right_of_coprime hcoprime, fun h => h.mul_right _⟩

theorem tail_eq_of_uuidIdent_eq {t u : ℕ} {m n : UInt64} (h : uuidIdent t m = uuidIdent u n) :
    tail m = tail n := by
  have hlist := congrArg String.toList h
  rw [uuidIdent, uuidIdent, String.toList_ofList, String.toList_ofList] at hlist
  have hlast := (List.append_inj' hlist (by simp only [List.length_cons, length_hexFixed])).2
  have hlt : ∀ n : UInt64, tail n < 16 ^ 12 := fun n => Nat.mod_lt _ (by norm_num)
  exact hexFixed_inj (hlt m) (hlt n) (List.cons.inj hlast).2

/-- The counter has gone fewer than `2 ^ 48` steps from the one value to the other; it may have
wrapped meanwhile. -/
def Near (m n : UInt64) : Prop := (m - n).toNat < 2 ^ 48 ∨ (n - m).toNat < 2 ^ 48

instance (m n : UInt64) : Decidable (Near m n) :=
  inferInstanceAs (Decidable ((m - n).toNat < 2 ^ 48 ∨ (n - m).toNat < 2 ^ 48))

theorem near_of_lt {m n : UInt64} (hmn : m.toNat < n.toNat + 2 ^ 48) (hnm : n.toNat < m.toNat + 2 ^ 48) :
    Near m n := by
  have hm := m.toNat_lt
  have hn := n.toNat_lt
  rw [Near, UInt64.toNat_sub, UInt64.toNat_sub]
  omega

theorem eq_of_near {m n : UInt64} (hnear : Near m n) (h : m.toNat ≡ n.toNat [MOD 2 ^ 48]) : m = n := by
  have hm := m.toNat_lt
  have hn := n.toNat_lt
  rw [Near, UInt64.toNat_sub, UInt64.toNat_sub] at hnear
  rw [Nat.ModEq] at h
  exact UInt64.toNat_inj.mp (by omega)

/-- Ids have the shape of a uuid, and those of near counters differ whatever the clock says. -/
theorem network_ids :
    (∀ t n, UuidShape (uuidIdent t n)) ∧
      ∀ m n, m ≠ n → Near m n → ∀ t u, uuidIdent t m ≠ uuidIdent u n :=
  ⟨fun t n => uuidShape_of_fits (fits_uuidIdent t n), fun m n hne hnear _ _ heq =>
    hne (eq_of_near hnear ((tail_eq_tail_iff m n).mp (tail_eq_of_uuidIdent_eq heq)))⟩

theorem network_ids_wrapped :
    UuidShape (uuidIdent 1767225600000000000 0) ∧
      uuidIdent 1767225600000000000 0 ≠ uuidIdent 1767225600000000000 0xFFFFFFFFFFFFFFFF :=
  ⟨network_ids.1 _ _, network_ids.2 _ _ (by decide) (by decide) _ _⟩

end GbfrLan.Party
