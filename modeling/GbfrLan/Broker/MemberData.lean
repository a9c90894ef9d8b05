import GbfrLan.Broker.App

/-!
# Member data for clients

`fill_member_data` first rewrites the platform fields that are not strings but have a text. What
has no text, `null` or a container, is then replaced under the first two keys, whose values are
checked, and kept under the third, which only has to be there.
-/
namespace GbfrLan.Broker
open Lib Json

/-- The keys of member data that both programs fill in. -/
def platformKeys : List String :=
  ["member_platform", "member_platform_account_id", "member_platform_user_name"]

/-- A string of ASCII digits. -/
def decimal (s : String) : Bool := !s.isEmpty && s.toList.all Char.isDigit

section
variable (host : Host)

/-- A field after the conversion. -/
def converted (v : Value) : Value := ((valueAsString host v).map Value.string).getD v

theorem asStr_converted (v : Value) : (converted host v).asStr = valueAsString host v := by
  cases v <;> rfl

theorem stringField_get? (data : Fields) (key k : String) :
    Entries.get? k (stringField host data key) =
      if k = key then (Entries.get? key data).map (converted host) else Entries.get? k data := by
  unfold stringField
  cases hget : Entries.get? key data with
  | none =>
    split_ifs with hk
    · rw [hk, hget]
      rfl
    · rfl
  | some v =>
    cases v with
    | string s =>
      split_ifs with hk
      · rw [hk, hget]
        rfl
      · rfl
    | number n => simp only [valueAsString, Entries.get?_insert, converted, Option.map_some, Option.getD_some]
    | bool b => simp only [valueAsString, Entries.get?_insert, converted, Option.map_some, Option.getD_some]
    | null | array xs | object m =>
      simp only [valueAsString]
      split_ifs with hk
      · rw [hk, hget]
        rfl
      · rfl

/-- The platform that is served in the place of a value. -/
def platformOf (v : Option Value) : String :=
  let plat := (v.bind (valueAsString host)).getD ""
  if plat = "" ∨ plat = "1" then "Steam" else plat

/-- The account id that is served in the place of a value. -/
def accountOf (v : Option Value) (eid : String) : String :=
  ((v.bind (valueAsString host)).filter decimal).getD (decimalAccountId eid)

/-- The user name that is served in the place of a value. -/
def userNameOf (v : Option Value) : Value := (v.map (converted host)).getD (.string "LAN")

/-- The fields after the loop of conversions. -/
theorem foldl_stringField_get? (keys : List String) (data : Fields) (k : String) :
    Entries.get? k (keys.foldl (stringField host) data) =
      if k ∈ keys then (Entries.get? k data).map (converted host) else Entries.get? k data := by
  induction keys generalizing data with
  | nil => rfl
  | cons key keys ih =>
    have htwice (v : Option Value) :
        (v.map (converted host)).map (converted host) = v.map (converted host) := by
      rw [Option.map_map]
      refine Option.map_congr fun v _ => ?_
      cases v <;> rfl
    rw [List.foldl_cons, ih, stringField_get?]
    by_cases hk : k = key
    · subst hk
      simp only [if_true, List.mem_cons, true_or, htwice, ite_self]
    · simp only [List.mem_cons, hk, false_or, if_false]

/-- Every field of the result. -/
theorem fillMemberData_get? (data : Fields) (eid k : String) :
    Entries.get? k (fillMemberData host data eid) =
      if k = "member_platform" then some (.string (platformOf host (Entries.get? k data)))
      else if k = "member_platform_account_id" then
        some (.string (accountOf host (Entries.get? k data) eid))
      else if k = "member_platform_user_name" then some (userNameOf host (Entries.get? k data))
      else Entries.get? k data := by
  unfold fillMemberData
  extract_lets data₁ plat data₂ acctOk data₃
  have h₁ (k : String) : Entries.get? k data₁ = if k ∈ platformKeys then
      (Entries.get? k data).map (converted host) else Entries.get? k data :=
    foldl_stringField_get? host platformKeys data k
  have hstr {key : String} (hkey : key ∈ platformKeys) :
      (Entries.get? key data₁).bind Value.asStr =
        (Entries.get? key data).bind (valueAsString host) := by
    rw [h₁, if_pos hkey, Option.bind_map]
    refine Option.bind_congr fun v _ => asStr_converted host v
  have hasStr {key s : String} (hkey : (Entries.get? key data₁).bind Value.asStr = some s) :
      Entries.get? key data₁ = some (.string s) := by
    obtain ⟨v, hv, hs⟩ := Option.bind_eq_some_iff.mp hkey
    cases v <;> cases hs
    exact hv
  have h₂ (k : String) : Entries.get? k data₂ =
      if k = "member_platform" then some (.string (platformOf host (Entries.get? k data)))
      else Entries.get? k data₁ := by
    have hplat : plat = ((Entries.get? "member_platform" data).bind (valueAsString host)).getD "" :=
      congrArg (·.getD "") (hstr (by simp [platformKeys]))
    unfold data₂ platformOf
    by_cases hbad : plat = "" ∨ plat = "1"
    · rw [if_pos hbad, Entries.get?_insert]
      split_ifs with hk
      · rw [hk, ← hplat]
        simp only [if_pos hbad]
      · rfl
    · rw [if_neg hbad]
      split_ifs with hk
      · rw [hk, ← hplat]
        simp only [if_neg hbad]
        cases hs : (Entries.get? "member_platform" data₁).bind Value.asStr with
        | none => exact absurd (.inl (congrArg (·.getD "") hs)) hbad
        | some s =>
          have hsame : plat = s := congrArg (·.getD "") hs
          rw [hsame, hasStr hs]
      · rfl
  have h₃ (k : String) : Entries.get? k data₃ =
      if k = "member_platform_account_id" then
        some (.string (accountOf host (Entries.get? k data) eid))
      else Entries.get? k data₂ := by
    have hget : Entries.get? "member_platform_account_id" data₂ =
        Entries.get? "member_platform_account_id" data₁ := by
      rw [h₂, if_neg (by decide)]
    have hvalue := @hstr "member_platform_account_id" (by simp [platformKeys])
    rw [← hget] at hvalue
    unfold data₃ accountOf
    cases hs : (Entries.get? "member_platform_account_id" data₂).bind Value.asStr with
    | none =>
      have hbad : (!acctOk) = true := by
        unfold acctOk
        rw [hs]
        rfl
      rw [hs] at hvalue
      rw [if_pos hbad, Entries.get?_insert]
      split_ifs with hk
      · rw [hk, ← hvalue]
        rfl
      · rfl
    | some s =>
      have hok : acctOk = decimal s := by
        unfold acctOk
        rw [hs]
        rfl
      rw [hs] at hvalue
      rw [hok]
      cases hdec : decimal s with
      | false =>
        rw [Bool.not_false, if_pos rfl, Entries.get?_insert]
        split_ifs with hk
        · rw [hk, ← hvalue, Option.filter_some, hdec]
          rfl
        · rfl
      | true =>
        rw [Bool.not_true, if_neg Bool.false_ne_true]
        split_ifs with hk
        · rw [hk, ← hvalue, Option.filter_some, hdec, hget, hasStr (hget ▸ hs)]
          rfl
        · rfl
  have hdata (k : String) : Entries.get? k data₃ =
      if k = "member_platform" then some (.string (platformOf host (Entries.get? k data)))
      else if k = "member_platform_account_id" then
        some (.string (accountOf host (Entries.get? k data) eid))
      else if k = "member_platform_user_name" then (Entries.get? k data).map (converted host)
      else Entries.get? k data := by
    rw [h₃, h₂, h₁]
    by_cases hplat : k = "member_platform"
    · rw [if_pos hplat, if_pos hplat, if_neg (by rw [hplat]; decide)]
    · rw [if_neg hplat, if_neg hplat]
      by_cases hacct : k = "member_platform_account_id"
      · rw [if_pos hacct, if_pos hacct]
      · simp only [platformKeys, List.mem_cons, hplat, hacct, List.not_mem_nil, false_or, or_false,
          if_false]
  have hname := hdata "member_platform_user_name"
  simp only [String.reduceEq, if_false, if_true] at hname
  unfold Entries.contains userNameOf
  cases hgiven : Entries.get? "member_platform_user_name" data with
  | none =>
    have hadd : (!(Entries.get? "member_platform_user_name" data₃).isSome) = true := by
      rw [hname, hgiven]
      rfl
    rw [if_pos hadd, Entries.get?_insert]
    by_cases hk : k = "member_platform_user_name"
    · subst hk
      rw [if_pos rfl, if_neg (by decide), if_neg (by decide), if_pos rfl, hgiven]
      rfl
    · rw [if_neg hk, hdata, if_neg hk, if_neg hk]
  | some v =>
    have hkeep : ¬(!(Entries.get? "member_platform_user_name" data₃).isSome) = true := by
      rw [hname, hgiven]
      exact Bool.false_ne_true
    rw [if_neg hkeep, hdata]
    split_ifs with hplat hacct hk
    · rfl
    · rfl
    · rw [hk, hgiven]
      rfl
    · rfl

/-- The data that a client may rely on. -/
structure ServedRight (data served : Fields) : Prop where
  platform : ∃ s, Entries.get? "member_platform" served = some (.string s)
  account : ∃ s, Entries.get? "member_platform_account_id" served = some (.string s) ∧
    ∀ c ∈ s.toList, c.isDigit = true
  userName : ∃ s, Entries.get? "member_platform_user_name" served = some (.string s)
  others : ∀ k, k ∉ platformKeys → Entries.get? k served = Entries.get? k data

/-- A value that has no text. -/
def Textless : Value → Prop
  | .null | .array _ | .object _ => True
  | _ => False

theorem decimal_toString (n : ℕ) : decimal (toString n) = true := by
  have hall : (toString n).toList.all Char.isDigit = true :=
    List.all_eq_true.mpr fun c hc => Text.isDigit_of_mem_toString hc
  have hne : (toString n).isEmpty = false := by
    rw [String.isEmpty_eq_false_iff]
    intro hnil
    exact Text.toString_ne_nil n (by rw [hnil]; rfl)
  rw [decimal, hall, hne]
  rfl

theorem decimal_decimalAccountId (eid : String) : decimal (decimalAccountId eid) = true := by
  unfold decimalAccountId
  split_ifs with h
  · exact h
  · exact decimal_toString _

/-- The platform that is served is the default, or what was given and is one. -/
theorem platformOf_cases (v : Option Value) :
    platformOf host v = "Steam" ∨
      v.bind (valueAsString host) = some (platformOf host v) ∧ platformOf host v ≠ "" ∧
        platformOf host v ≠ "1" := by
  unfold platformOf
  simp only
  split_ifs with hbad
  · exact .inl rfl
  · obtain ⟨hempty, hone⟩ := not_or.mp hbad
    cases hv : v.bind (valueAsString host) with
    | none => exact absurd (by rw [hv]; rfl) hempty
    | some s =>
      rw [hv] at hempty hone
      exact .inr ⟨rfl, hempty, hone⟩

theorem decimal_accountOf (v : Option Value) (eid : String) : decimal (accountOf host v eid) = true := by
  unfold accountOf
  cases hf : (v.bind (valueAsString host)).filter decimal with
  | none => exact decimal_decimalAccountId eid
  | some s => exact (Option.filter_eq_some_iff.mp hf).2

theorem exists_userNameOf_iff (v : Option Value) :
    (∃ s, userNameOf host v = .string s) ↔ ∀ w ∈ v, ¬Textless w := by
  cases v with
  | none => simp [userNameOf]
  | some w => cases w <;> simp [userNameOf, converted, valueAsString, Textless]

/-- The platform fields are served right exactly when the user name given is none that has no text:
it stays, where the other two fields are replaced. -/
theorem servedRight_iff (data : Fields) (eid : String) :
    ServedRight data (fillMemberData host data eid) ↔
      ∀ v, Entries.get? "member_platform_user_name" data = some v → ¬Textless v := by
  have hname : Entries.get? "member_platform_user_name" (fillMemberData host data eid) =
      some (userNameOf host (Entries.get? "member_platform_user_name" data)) := by
    rw [fillMemberData_get?, if_neg (by decide), if_neg (by decide), if_pos rfl]
  have huser := exists_userNameOf_iff host (Entries.get? "member_platform_user_name" data)
  constructor
  · rintro ⟨-, -, ⟨s, hs⟩, -⟩
    rw [hname, Option.some.injEq] at hs
    exact huser.mp ⟨s, hs⟩
  · intro h
    obtain ⟨s, hs⟩ := huser.mpr h
    have hdec := decimal_accountOf host (Entries.get? "member_platform_account_id" data) eid
    rw [decimal, Bool.and_eq_true, List.all_eq_true] at hdec
    have hplat := fillMemberData_get? host data eid "member_platform"
    rw [if_pos rfl] at hplat
    have hacct := fillMemberData_get? host data eid "member_platform_account_id"
    rw [if_neg (by decide), if_pos rfl] at hacct
    refine ⟨⟨_, hplat⟩, ⟨_, hacct, hdec.2⟩, ⟨s, by rw [hname, hs]⟩, fun k hk => ?_⟩
    simp only [platformKeys, List.mem_cons, List.not_mem_nil, or_false, not_or] at hk
    rw [fillMemberData_get?, if_neg hk.1, if_neg hk.2.1, if_neg hk.2.2]

end

/-- A user name that is `null` is served as it is. -/
theorem null_userName_served : ¬ServedRight [("member_platform_user_name", .null)]
    (fillMemberData ⟨id, id, fun _ => "0.0", fun _ => 0⟩ [("member_platform_user_name", .null)] "7") := by
  rintro ⟨-, -, ⟨s, hs⟩, -⟩
  cases hs

end GbfrLan.Broker
