import GbfrLan.Broker.MemberData
import GbfrLan.Playfab.Lobby

/-!
# Member data in both programs

The broker completes member data as JSON, the shim as C strings, each with its own chain of cases.
On maps of strings the two come to the same, and what is complete is left as it is, so nothing
flips back and forth between them.
-/
namespace GbfrLan.Playfab
open Lib Json

theorem numeric_eq (s : String) : numeric s = Broker.decimal s := rfl

theorem numeric_decimalAccountId (eid : String) : numeric (Broker.decimalAccountId eid) = true :=
  Broker.decimal_decimalAccountId eid

/-! ### The shim -/

/-- The platform in the place of a property. -/
def platformProp (v : Option String) : String :=
  let plat := v.getD ""
  if plat = "" ∨ plat = "1" then "Steam" else plat

/-- The account id in the place of a property. -/
def accountProp (v : Option String) (eid : String) : String :=
  (v.filter numeric).getD (Broker.decimalAccountId eid)

theorem platformProp_ok (v : Option String) : platformProp v ≠ "" ∧ platformProp v ≠ "1" := by
  unfold platformProp
  simp only
  split_ifs with h
  · exact ⟨by decide, by decide⟩
  · exact not_or.mp h

theorem numeric_accountProp (v : Option String) (eid : String) : numeric (accountProp v eid) = true := by
  unfold accountProp
  cases hf : v.filter numeric with
  | none => exact numeric_decimalAccountId eid
  | some s => exact (Option.filter_eq_some_iff.mp hf).2

/-- An id that is numeric is its own account id. -/
theorem accountProp_of_numeric {v : Option String} {eid : String} (hv : v.filter numeric = none)
    (h : numeric eid = true) : accountProp v eid = eid := by
  rw [accountProp, hv, Option.getD_none]
  exact if_pos h

/-- Every property of the result. -/
theorem ensureMemberProps_spec (mp : Props) (eid k : String) :
    (ensureMemberProps mp eid).get? k =
      if k = "member_platform" then some (platformProp (mp.get? k))
      else if k = "member_platform_account_id" then some (accountProp (mp.get? k) eid)
      else if k = "member_platform_user_name" then some ((mp.get? k).getD "LAN")
      else mp.get? k := by
  unfold ensureMemberProps
  extract_lets plat mp₁ account mp₂
  have h₁ (k : String) : mp₁.get? k =
      if k = "member_platform" ∧ (plat = "" ∨ plat = "1") then some "Steam" else mp.get? k := by
    unfold mp₁
    by_cases hbad : plat = "" ∨ plat = "1"
    · rw [if_pos hbad, OrdMap.get?_insert]
      simp only [hbad, and_true]
    · rw [if_neg hbad, if_neg fun h => hbad h.2]
  have hplat : (if plat = "" ∨ plat = "1" then some "Steam" else mp.get? "member_platform") =
      some (platformProp (mp.get? "member_platform")) := by
    change _ = some (if plat = "" ∨ plat = "1" then "Steam" else plat)
    by_cases hbad : plat = "" ∨ plat = "1"
    · rw [if_pos hbad, if_pos hbad]
    · rw [if_neg hbad, if_neg hbad]
      cases hget : mp.get? "member_platform" with
      | none => exact absurd (.inl (congrArg (·.getD "") hget)) hbad
      | some p => exact congrArg (fun v : Option String => some (v.getD "")) hget.symm
  have haccount : account = accountProp (mp.get? "member_platform_account_id") eid := by
    unfold account accountProp
    rw [h₁, if_neg fun h => absurd h.1 (by decide)]
    cases (mp.get? "member_platform_account_id").filter numeric with
    | some a => rfl
    | none =>
      split_ifs with hnumeric
      · exact (if_pos hnumeric).symm
      · rfl
  have h₂ (k : String) : mp₂.get? k =
      if k = "member_platform_account_id" then some account else mp₁.get? k := OrdMap.get?_insert _ _ _ _
  have hname : mp₂.get? "member_platform_user_name" = mp.get? "member_platform_user_name" := by
    rw [h₂, if_neg (by decide), h₁, if_neg fun h => absurd h.1 (by decide)]
  have h₃ (k : String) : (if mp₂.contains "member_platform_user_name" = true then mp₂
      else mp₂.insert "member_platform_user_name" "LAN").get? k =
      if k = "member_platform_user_name" then some ((mp.get? k).getD "LAN") else mp₂.get? k := by
    unfold OrdMap.contains
    rw [hname]
    cases hsome : mp.get? "member_platform_user_name" with
    | none =>
      rw [if_neg (by decide), OrdMap.get?_insert]
      split_ifs with hk
      · rw [hk, hsome]
        rfl
      · rfl
    | some n =>
      rw [if_pos Option.isSome_some]
      split_ifs with hk
      · rw [hk, hname, hsome]
        rfl
      · rfl
  rw [h₃, h₂, h₁]
  by_cases hk₁ : k = "member_platform"
  · subst hk₁
    rw [if_neg (by decide), if_neg (by decide), if_pos rfl, ← hplat]
    simp only [true_and]
  · by_cases hk₂ : k = "member_platform_account_id"
    · subst hk₂
      rw [if_neg (by decide), if_pos rfl, if_neg (by decide), if_pos rfl, haccount]
    · simp only [hk₁, hk₂, false_and, if_false]

/-- The entries that `ensure_member_props` cares for are as it leaves them. -/
structure Complete (mp : Props) : Prop where
  platform : ∃ p, mp.get? "member_platform" = some p ∧ p ≠ "" ∧ p ≠ "1"
  account : ∃ a, mp.get? "member_platform_account_id" = some a ∧ numeric a = true
  name : ∃ n, mp.get? "member_platform_user_name" = some n

theorem complete_ensureMemberProps (mp : Props) (eid : String) :
    Complete (ensureMemberProps mp eid) := by
  have hplat := ensureMemberProps_spec mp eid "member_platform"
  have hacct := ensureMemberProps_spec mp eid "member_platform_account_id"
  have hname := ensureMemberProps_spec mp eid "member_platform_user_name"
  simp only [String.reduceEq, if_true, if_false] at hplat hacct hname
  exact ⟨⟨_, hplat, platformProp_ok _⟩, ⟨_, hacct, numeric_accountProp _ _⟩, ⟨_, hname⟩⟩

theorem ensureMemberProps_of_complete {mp : Props} (h : Complete mp) (eid : String) :
    ensureMemberProps mp eid = mp := by
  obtain ⟨p, hp, hempty, hone⟩ := h.platform
  obtain ⟨a, ha, hnum⟩ := h.account
  obtain ⟨n, hn⟩ := h.name
  refine OrdMap.ext_get? fun k => ?_
  rw [ensureMemberProps_spec]
  split_ifs with hk hk hk
  · rw [hk, hp, platformProp, Option.getD_some]
    simp only [hempty, hone, or_self, if_false]
  · rw [hk, ha, accountProp, Option.filter_some, hnum]
    rfl
  · rw [hk, hn]
    rfl
  · rfl

theorem ensureMemberProps_ensureMemberProps (mp : Props) (eid : String) :
    ensureMemberProps (ensureMemberProps mp eid) eid = ensureMemberProps mp eid :=
  ensureMemberProps_of_complete (complete_ensureMemberProps mp eid) eid

/-! ### The broker on maps of strings -/

/-- The properties as a JSON object. -/
def fieldsOf (mp : Props) : OrdMap String Value := mp.mapVals fun _ s => .string s

theorem get?_fieldsOf (mp : Props) (k : String) : (fieldsOf mp).get? k = (mp.get? k).map .string :=
  OrdMap.get?_mapVals _ _ _

section
variable (host : Broker.Host)

theorem sorted_stringField {data : Fields} (h : data.Pairwise fun a b => a.1 < b.1) (key : String) :
    (Broker.stringField host data key).Pairwise fun a b => a.1 < b.1 := by
  unfold Broker.stringField
  split
  · exact h
  · split
    · exact OrdMap.sorted_insert _ _ _ h
    · exact h
  · exact h

theorem sorted_fillMemberData {data : Fields} (h : data.Pairwise fun a b => a.1 < b.1) (eid : String) :
    (Broker.fillMemberData host data eid).Pairwise fun a b => a.1 < b.1 := by
  have hput {d : Fields} (hd : d.Pairwise fun a b => a.1 < b.1) (c : Prop) [Decidable c] (k : String)
      (v : Value) : (if c then Entries.insert k v d else d).Pairwise fun a b => a.1 < b.1 := by
    split_ifs
    · exact OrdMap.sorted_insert _ _ _ hd
    · exact hd
  unfold Broker.fillMemberData
  refine hput (hput (hput ?_ _ _ _) _ _ _) _ _ _
  exact sorted_stringField host (sorted_stringField host (sorted_stringField host h _) _) _

/-- Both programs complete a map of strings in the same way. -/
theorem fillMemberData_fieldsOf (mp : Props) (eid : String) :
    Broker.fillMemberData host (fieldsOf mp).entries eid = (fieldsOf (ensureMemberProps mp eid)).entries := by
  have hsorted := sorted_fillMemberData host (fieldsOf mp).sorted eid
  suffices hmap : (⟨_, hsorted⟩ : OrdMap String Value) = fieldsOf (ensureMemberProps mp eid) from
    congrArg OrdMap.entries hmap
  refine OrdMap.ext_get? fun k => ?_
  change Entries.get? k (Broker.fillMemberData host (fieldsOf mp).entries eid) = _
  have hfield : Entries.get? k (fieldsOf mp).entries = _ := get?_fieldsOf mp k
  rw [Broker.fillMemberData_get?, hfield, get?_fieldsOf, ensureMemberProps_spec]
  cases mp.get? k <;> split_ifs <;> rfl

/-- What both programs make of the data of a member. -/
structure Normalised (mp : Props) (eid : String) : Prop where
  same : Broker.fillMemberData host (fieldsOf mp).entries eid = (fieldsOf (ensureMemberProps mp eid)).entries
  againBroker : Broker.fillMemberData host (Broker.fillMemberData host (fieldsOf mp).entries eid) eid =
    Broker.fillMemberData host (fieldsOf mp).entries eid
  againShim : ensureMemberProps (ensureMemberProps mp eid) eid = ensureMemberProps mp eid
  platform : ∃ p, (ensureMemberProps mp eid).get? "member_platform" = some p ∧ p ≠ "" ∧ p ≠ "1"
  account : ∃ a, (ensureMemberProps mp eid).get? "member_platform_account_id" = some a ∧
    a ≠ "" ∧ (∀ c ∈ a.toList, c.isDigit = true) ∧
    (numeric eid = true → (∀ given, mp.get? "member_platform_account_id" = some given →
      numeric given = false) → a = eid)

/-- Broker and shim normalise member data alike, and once is enough. -/
theorem normalised (mp : Props) (eid : String) : Normalised host mp eid where
  same := fillMemberData_fieldsOf host mp eid
  againBroker := by
    rw [fillMemberData_fieldsOf, fillMemberData_fieldsOf, ensureMemberProps_ensureMemberProps]
  againShim := ensureMemberProps_ensureMemberProps mp eid
  platform := (complete_ensureMemberProps mp eid).platform
  account := by
    have hacct := ensureMemberProps_spec mp eid "member_platform_account_id"
    simp only [String.reduceEq, if_true, if_false] at hacct
    have hnum := numeric_accountProp (mp.get? "member_platform_account_id") eid
    rw [numeric, Bool.and_eq_true, Bool.not_eq_true', String.isEmpty_eq_false_iff, List.all_eq_true]
      at hnum
    refine ⟨_, hacct, hnum.1, hnum.2, fun heid hgiven => accountProp_of_numeric ?_ heid⟩
    rw [Option.filter_eq_none_iff]
    intro given hget
    simp [hgiven given hget]

end

end GbfrLan.Playfab
