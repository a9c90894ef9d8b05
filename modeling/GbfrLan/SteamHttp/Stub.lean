import GbfrLan.SteamHttp.Pe

/-!
# The constant of a code stub

`pe::mov_eax_imm` on a slice of code. An index outside the slice has no result, as in the image.
-/
namespace GbfrLan.SteamHttp
open Lib

/-- The opcode of `mov eax, imm32`. -/
def movEax : UInt8 := 0xB8

/-- A turn of the loop at an index of the slice. -/
def immTurn (code : List UInt8) (i : ℕ) (_ : Unit) : Turn Unit ℕ :=
  .reading code[i]? fun b =>
    if b = movEax then .reading (readLe code 4 (i + 1)) .found else .next ()

/-- `mov_eax_imm`. -/
def movEaxImm (code : List UInt8) : Option (Option ℕ) :=
  if 5 ≤ code.length ∧ code[0]? = some movEax then (readLe code 4 1).map some
  else walk (immTurn code) (code.length - 5) 0 ()

/-! ### Whole instructions in the slice -/

variable {code : List UInt8} {i : ℕ}

/-- A `mov eax, imm32` lies in the slice with all its bytes. -/
def MovAt (code : List UInt8) (i : ℕ) : Prop := i + 5 ≤ code.length ∧ code[i]? = some movEax

/-- The first of them. -/
def FirstMov (code : List UInt8) (i : ℕ) : Prop := MovAt code i ∧ ∀ j < i, ¬MovAt code j

/-- The constant of the instruction at an index. -/
def imm (code : List UInt8) (i : ℕ) : ℕ := Digits.ofLe ((code.drop (i + 1)).take 4)

theorem exists_firstMov (h : MovAt code i) : ∃ j, FirstMov code j := by
  classical
  have hex : ∃ j, MovAt code j := ⟨i, h⟩
  exact ⟨Nat.find hex, Nat.find_spec hex, fun j hj => Nat.find_min hex hj⟩

theorem FirstMov.unique {j : ℕ} (hi : FirstMov code i) (hj : FirstMov code j) : i = j := by
  have hle : ¬j < i := fun hlt => hi.2 j hlt hj.1
  have hge : ¬i < j := fun hlt => hj.2 i hlt hi.1
  omega

theorem readLe_imm (h : i + 5 ≤ code.length) : readLe code 4 (i + 1) = some (imm code i) := by
  have hin : i + 1 + 4 ≤ code.length := by omega
  rw [readLe, Bytes.slice, if_pos hin]
  rfl

/-! ### The turns -/

theorem immTurn_of_movAt (h : MovAt code i) : immTurn code i () = .found (imm code i) := by
  rw [immTurn, h.2, Turn.reading_some, if_pos rfl, readLe_imm h.1, Turn.reading_some]

theorem immTurn_of_not_movAt (hin : i + 5 ≤ code.length) (h : ¬MovAt code i) :
    immTurn code i () = .next () := by
  have hget : code[i]? = some code[i] := List.getElem?_eq_getElem (by omega)
  have hne : code[i] ≠ movEax := by
    intro heq
    rw [heq] at hget
    exact h ⟨hin, hget⟩
  rw [immTurn, hget, Turn.reading_some, if_neg hne]

theorem immTurn_inStep : InStep (immTurn code) fun _ => () := fun _ _ _ => rfl

theorem immTurn_ne_fault (hin : i + 5 ≤ code.length) : immTurn code i () ≠ .fault := by
  by_cases h : MovAt code i
  · rw [immTurn_of_movAt h]
    exact Turn.found_ne_fault _
  · rw [immTurn_of_not_movAt hin h]
    exact Turn.next_ne_fault _

theorem passes_iff (hin : i + 5 ≤ code.length) :
    Passes (immTurn code) (fun _ => ()) i ↔ ¬MovAt code i := by
  constructor
  · intro hpass hmov
    rw [Passes, immTurn_of_movAt hmov] at hpass
    cases hpass
  · exact immTurn_of_not_movAt hin

/-! ### The scan -/

/-- What the loop comes to: it looks at every index but the last one that an instruction fits. -/
theorem walk_immTurn {r : Option ℕ} (h : walk (immTurn code) (code.length - 5) 0 () = some r) :
    (∃ i, FirstMov code i ∧ i + 5 < code.length ∧ r = some (imm code i)) ∨
      ((∀ j, j + 5 < code.length → ¬MovAt code j) ∧ r = none) := by
  obtain ⟨m, hpass, hend⟩ := walk_spec immTurn_inStep h
  simp only [Nat.zero_add, Nat.zero_le, true_implies] at hpass
  have hnot : ∀ j < m, j + 5 < code.length → ¬MovAt code j := fun j hj hin =>
    (passes_iff (by omega)).mp (hpass j hj)
  cases hend with
  | all hm => exact .inr ⟨fun j hj => hnot j (by omega) hj, rfl⟩
  | stop hlt hstop =>
    rw [Nat.zero_add] at hstop
    by_cases hmov : MovAt code m
    · rw [immTurn_of_movAt hmov] at hstop
      cases hstop
    · rw [immTurn_of_not_movAt (by omega) hmov] at hstop
      cases hstop
  | found v hlt hfound =>
    rw [Nat.zero_add] at hfound
    by_cases hmov : MovAt code m
    · rw [immTurn_of_movAt hmov] at hfound
      obtain rfl := Turn.found.inj hfound
      exact .inl ⟨m, ⟨hmov, fun j hj => hnot j hj (by omega)⟩, by omega, rfl⟩
    · rw [immTurn_of_not_movAt (by omega) hmov] at hfound
      cases hfound

theorem movEaxImm_isSome (code : List UInt8) : (movEaxImm code).isSome := by
  rw [movEaxImm]
  split_ifs with hfirst
  · rw [readLe_imm (i := 0) (by omega)]
    rfl
  · exact walk_isSome_of_lt immTurn_inStep fun k _ hk => immTurn_ne_fault (by omega)

/-- The result for an instruction at the front, for one that the loop looks at, and for none. -/
theorem movEaxImm_spec {r : Option ℕ} (h : movEaxImm code = some r) :
    (∃ i, FirstMov code i ∧ (i = 0 ∨ i + 5 < code.length) ∧ r = some (imm code i)) ∨
      (¬MovAt code 0 ∧ (∀ j, j + 5 < code.length → ¬MovAt code j) ∧ r = none) := by
  rw [movEaxImm] at h
  split_ifs at h with hfront
  · have hmov : MovAt code 0 := ⟨by omega, hfront.2⟩
    rw [readLe_imm (i := 0) hmov.1] at h
    obtain rfl := Option.some.inj h
    exact .inl ⟨0, ⟨hmov, fun j hj => absurd hj (Nat.not_lt_zero j)⟩, .inl rfl, rfl⟩
  · have hmov : ¬MovAt code 0 := fun hmov => hfront ⟨by have := hmov.1; omega, hmov.2⟩
    rcases walk_immTurn h with ⟨i, hfirst, hin, hr⟩ | ⟨hnone, hr⟩
    · exact .inl ⟨i, hfirst, .inr hin, hr⟩
    · exact .inr ⟨hmov, hnone, hr⟩

/-- The constant of the first instruction is found, and none where there is no instruction. -/
structure FindsFirst (code : List UInt8) (r : Option ℕ) : Prop where
  found : r.isSome ↔ ∃ i, MovAt code i
  value : ∀ v, r = some v → ∀ i, FirstMov code i → v = imm code i

/-- In a slice of more than five bytes the first instruction ends where the slice does. -/
def EndsWithMov (code : List UInt8) : Prop := 5 < code.length ∧ FirstMov code (code.length - 5)

/-- The scan stays in the slice, and finds the first constant unless its instruction is the last
that fits the slice. -/
theorem movEaxImm_findsFirst_iff (code : List UInt8) :
    ∃ r, movEaxImm code = some r ∧ (FindsFirst code r ↔ ¬EndsWithMov code) := by
  obtain ⟨r, hr⟩ := Option.isSome_iff_exists.mp (movEaxImm_isSome code)
  refine ⟨r, hr, ?_⟩
  rcases movEaxImm_spec hr with ⟨i, hfirst, hin, rfl⟩ | ⟨hfront, hbefore, rfl⟩
  · have hends : ¬EndsWithMov code := by
      intro ⟨hlong, hlast⟩
      have heq := hfirst.unique hlast
      omega
    refine iff_of_true ⟨iff_of_true rfl ⟨i, hfirst.1⟩, ?_⟩ hends
    intro v hv j hj
    rw [hj.unique hfirst]
    exact (Option.some.inj hv).symm
  · have hfound : FindsFirst code none ↔ ¬∃ i, MovAt code i := by
      constructor
      · intro h hex
        exact absurd (h.found.mpr hex) (by simp)
      · intro hno
        exact ⟨iff_of_false (by simp) hno, fun v hv => absurd hv (by simp)⟩
    rw [hfound, not_iff_not]
    constructor
    · intro ⟨i, hi⟩
      -- no index is left but the last one that an instruction fits
      have hlast : i = code.length - 5 := by
        have hnot : ¬i + 5 < code.length := fun hlt => hbefore i hlt hi
        have hfit := hi.1
        omega
      have hpos : i ≠ 0 := fun hzero => hfront (hzero ▸ hi)
      have hfirst : FirstMov code i := ⟨hi, fun j hj => hbefore j (by have := hi.1; omega)⟩
      exact ⟨by have := hi.1; omega, hlast ▸ hfirst⟩
    · exact fun hends => ⟨_, hends.2.1⟩

/-- A `nop` and `mov eax, 1`, with no byte behind. -/
def endsWithMov : List UInt8 := [0x90, 0xB8, 1, 0, 0, 0]

theorem movEaxImm_endsWithMov : movEaxImm endsWithMov = some none ∧ MovAt endsWithMov 1 ∧
    imm endsWithMov 1 = 1 ∧ ¬FindsFirst endsWithMov none := by
  have hmov : MovAt endsWithMov 1 := ⟨by decide, by decide⟩
  refine ⟨by decide, hmov, by decide, fun h => ?_⟩
  exact absurd (h.found.mpr ⟨1, hmov⟩) (by simp)

end GbfrLan.SteamHttp
