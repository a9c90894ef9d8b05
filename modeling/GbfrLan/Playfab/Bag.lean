import GbfrLan.Json.Scanned
import GbfrLan.Playfab.Posting
import GbfrLan.Playfab.Refresh

/-!
# Bags of properties

The properties of a lobby, of its search and of its members are maps of strings. The scanner
drops a property that has no name and stops at its cap, and the shim completes what it has read
of a member with the same defaults as the broker.
-/
namespace GbfrLan.Playfab
open Lib Json Scan

/-! ### Bags of strings -/

/-- A map whose values are strings that fit into a C string. -/
structure PlainMap (data : Fields) : Prop where
  sorted : data.Pairwise fun a b => a.1 < b.1
  strings : ∀ e ∈ data, ∃ s, e.2 = .string s ∧ '\x00' ∉ s.toList

/-- The string under a key. -/
def dataText (data : Fields) (k : String) : Option String := (Entries.get? k data).bind Value.asStr

/-- Properties that are exactly the strings of a map. -/
def SameMap (mp : Props) (data : Fields) : Prop := ∀ k, mp.get? k = dataText data k

namespace PlainMap

variable {data : Fields}

theorem tail {e : String × Value} (h : PlainMap (e :: data)) : PlainMap data :=
  ⟨(List.pairwise_cons.mp h.sorted).2, fun e he => h.strings e (List.mem_cons_of_mem _ he)⟩

theorem keys_nodup (h : PlainMap data) : (data.map Prod.fst).Nodup := by
  rw [List.Nodup, List.pairwise_map]
  exact h.sorted.imp ne_of_lt

/-- A value under a key is a string. -/
theorem get?_eq (h : PlainMap data) (k : String) :
    Entries.get? k data = (dataText data k).map .string := by
  unfold dataText
  cases hk : Entries.get? k data with
  | none => rfl
  | some v =>
    obtain ⟨s, rfl, -⟩ := h.strings _ (Entries.get?_eq_some_mem hk)
    rfl

theorem nul_not_mem (h : PlainMap data) {k s : String} (hk : dataText data k = some s) :
    '\x00' ∉ s.toList := by
  have hget := h.get?_eq k
  rw [hk] at hget
  obtain ⟨s', heq, hnul⟩ := h.strings _ (Entries.get?_eq_some_mem hget)
  cases heq
  exact hnul

/-- In a map of strings a name stands only as a key. -/
theorem findFields_eq (h : PlainMap data) (key : String) :
    Value.findFields key data = Entries.get? key data := by
  induction data with
  | nil => rfl
  | cons e data ih =>
    obtain ⟨k, v⟩ := e
    obtain ⟨s, rfl, -⟩ := h.strings (k, v) List.mem_cons_self
    rw [Value.findFields, Value.findField, ih h.tail, Entries.get?_cons]
    by_cases hk : k = key
    · rw [if_pos hk, if_pos hk.symm]
      rfl
    · rw [if_neg hk, if_neg (Ne.symm hk)]
      rfl

end PlainMap

section
variable (numberText : Number → String)

/-- A property without a name is lost. -/
theorem kept_get?_empty (out : OrdMap String String) (data : Fields) :
    (kept numberText out data).get? "" = out.get? "" := by
  unfold kept
  induction data generalizing out with
  | nil => rfl
  | cons e data ih =>
    rw [List.foldl_cons, ih]
    unfold keep
    split
    · split_ifs with hskip
      · rfl
      · rw [OrdMap.get?_insert, if_neg]
        rintro heq
        rw [← heq] at hskip
        simp at hskip
    · rfl

/-- The properties of a map that has no empty name, up to the cap. -/
theorem kept_get? {data : Fields} (h : PlainMap data) (hnamed : Entries.get? "" data = none)
    {out : OrdMap String String} (hout : ∀ e ∈ data, out.get? e.1 = none) (k : String) :
    (kept numberText out data).get? k =
      (out.get? k).or (dataText (data.take (objectCap - out.size)) k) := by
  unfold kept
  induction data generalizing out with
  | nil => simp [dataText]
  | cons e data ih =>
    obtain ⟨k₀, v⟩ := e
    obtain ⟨s, rfl, -⟩ := h.strings (k₀, v) List.mem_cons_self
    have hne : k₀ ≠ "" := by
      rintro rfl
      simp [Entries.get?_cons] at hnamed
    have hnamed' : Entries.get? "" data = none := by
      rwa [Entries.get?_cons, if_neg (Ne.symm hne)] at hnamed
    rw [List.foldl_cons]
    by_cases hfull : objectCap ≤ out.size
    · have hkeep : keep out k₀ (scalarText numberText (.string s)) = out := by
        simp [keep, scalarText, hfull]
      have hzero : objectCap - out.size = 0 := by omega
      rw [hkeep, ih h.tail hnamed' fun e he => hout e (List.mem_cons_of_mem _ he), hzero]
      rfl
    · have hkeep : keep out k₀ (scalarText numberText (.string s)) = out.insert k₀ s := by
        simp [keep, scalarText, hfull, hne]
      have hfresh : out.get? k₀ = none := hout (k₀, .string s) List.mem_cons_self
      have hsize : (out.insert k₀ s).size = out.size + 1 := OrdMap.size_insert_of_none s hfresh
      have hout' : ∀ e ∈ data, (out.insert k₀ s).get? e.1 = none := by
        intro e he
        have hlt := (List.pairwise_cons.mp h.sorted).1 e he
        rw [OrdMap.get?_insert, if_neg (ne_of_gt hlt)]
        exact hout e (List.mem_cons_of_mem _ he)
      have htake : objectCap - out.size = (objectCap - (out.size + 1)) + 1 := by omega
      rw [hkeep, ih h.tail hnamed' hout', hsize, htake, List.take_succ_cons, OrdMap.get?_insert]
      unfold dataText
      rw [Entries.get?_cons]
      by_cases hk : k = k₀
      · rw [if_pos hk, if_pos hk, hk, hfresh]
        rfl
      · rw [if_neg hk, if_neg hk]

end

/-- What the shim makes of a value where it looks for a bag of properties. -/
def bag (numberText : Number → String) : Value → Props
  | .object fields => applyProps OrdMap.empty (kept numberText OrdMap.empty fields)
  | _ => OrdMap.empty

theorem get?_applyProps_empty (src : Props) (k : String) :
    (applyProps OrdMap.empty src).get? k = (src.get? k).map cString := by
  rw [get?_applyProps, OrdMap.get?_empty, Option.or_none]

theorem cString_of_not_mem {s : String} (h : '\x00' ∉ s.toList) : cString s = s := if_neg h

/-- A bag with a property without a name is not read as it is. -/
theorem bag_get?_empty (numberText : Number → String) (fields : Fields) :
    (bag numberText (.object fields)).get? "" = none := by
  rw [bag, get?_applyProps_empty, kept_get?_empty]
  rfl

/-- A bag without one is read up to the cap. -/
theorem bag_get? (numberText : Number → String) {data : Fields} (h : PlainMap data)
    (hnamed : Entries.get? "" data = none) (k : String) :
    (bag numberText (.object data)).get? k = dataText (data.take objectCap) k := by
  have hkept := kept_get? numberText h hnamed (fun e _ => OrdMap.get?_empty e.1) k
  have hplain : PlainMap (data.take objectCap) :=
    ⟨h.sorted.sublist (List.take_sublist _ _), fun e he => h.strings e (List.mem_of_mem_take he)⟩
  rw [OrdMap.get?_empty, Option.none_or, OrdMap.size_empty, Nat.sub_zero] at hkept
  rw [bag, get?_applyProps_empty, hkept]
  cases htext : dataText (data.take objectCap) k with
  | none => rfl
  | some s => rw [Option.map_some, cString_of_not_mem (hplain.nul_not_mem htext)]

/-- A bag of properties is read as it is exactly when every property has a name. -/
theorem bag_agrees_iff (numberText : Number → String) {data : Fields} (h : PlainMap data)
    (hsize : data.length ≤ objectCap) :
    SameMap (bag numberText (.object data)) data ↔ Entries.get? "" data = none := by
  constructor
  · intro hall
    have hempty := hall ""
    rw [bag_get?_empty] at hempty
    rw [h.get?_eq, ← hempty]
    rfl
  · intro hnamed k
    rw [bag_get? numberText h hnamed, List.take_of_length_le hsize]

/-! ### Member data -/

/-- What the shim puts where a member has nothing. -/
def defaultProp (eid k : String) : Option String :=
  if k = "member_platform" then some "Steam"
  else if k = "member_platform_account_id" then some (Broker.decimalAccountId eid)
  else if k = "member_platform_user_name" then some "LAN"
  else none

/-- Properties that are there are as the shim wants them. -/
structure Fit (mp : Props) : Prop where
  platform : ∀ p, mp.get? "member_platform" = some p → p ≠ "" ∧ p ≠ "1"
  account : ∀ a, mp.get? "member_platform_account_id" = some a → numeric a = true

theorem ensureMemberProps_get? {mp : Props} (h : Fit mp) (eid k : String) :
    (ensureMemberProps mp eid).get? k = (mp.get? k).or (defaultProp eid k) := by
  rw [ensureMemberProps_spec]
  unfold defaultProp
  split_ifs with hk hk hk
  · cases hplat : mp.get? k with
    | none => rfl
    | some p =>
      obtain ⟨hempty, hone⟩ := h.platform p (hk ▸ hplat)
      simp only [platformProp, Option.getD_some, hempty, hone, or_self, if_false, Option.some_or]
  · cases hacct : mp.get? k with
    | none => rfl
    | some a =>
      rw [accountProp, Option.filter_some, h.account a (hk ▸ hacct)]
      rfl
  · cases mp.get? k <;> rfl
  · rw [Option.or_none]

section
variable {host : Broker.Host} {data : Fields}

theorem nul_not_mem_of_numeric {s : String} (h : numeric s = true) : '\x00' ∉ s.toList := by
  intro hmem
  unfold numeric at h
  rw [Bool.and_eq_true, List.all_eq_true] at h
  exact absurd (h.2 _ hmem) (by decide)

/-- What the broker has completed is a map of strings, and as the shim wants it. -/
structure Filled (data : Fields) : Prop where
  plain : PlainMap data
  platform : ∃ p, dataText data "member_platform" = some p ∧ p ≠ "" ∧ p ≠ "1"
  account : ∃ a, dataText data "member_platform_account_id" = some a ∧ numeric a = true
  name : ∃ n, dataText data "member_platform_user_name" = some n

theorem PlainMap.filled (h : PlainMap data) (eid : String) :
    Filled (Broker.fillMemberData host data eid) := by
  have hget := Broker.fillMemberData_get? host data eid
  have htext (k : String) : (Entries.get? k data).bind (Broker.valueAsString host) = dataText data k := by
    rw [h.get?_eq]
    cases dataText data k <;> rfl
  have hsorted := sorted_fillMemberData host h.sorted eid
  have hnodup : ((Broker.fillMemberData host data eid).map Prod.fst).Nodup := by
    rw [List.Nodup, List.pairwise_map]
    exact hsorted.imp ne_of_lt
  have haccount (v : Option Value) : numeric (Broker.accountOf host v eid) = true :=
    Broker.decimal_accountOf host v eid
  have hname (k : String) : ∃ n, Broker.userNameOf host (Entries.get? k data) = .string n ∧
      '\x00' ∉ n.toList := by
    rw [h.get?_eq]
    cases hk : dataText data k with
    | none => exact ⟨"LAN", rfl, by decide⟩
    | some n => exact ⟨n, rfl, h.nul_not_mem hk⟩
  refine ⟨⟨hsorted, fun e he => ?_⟩, ?_, ?_, ?_⟩
  · have hmem := (Entries.get?_eq_some_iff hnodup).mpr he
    rw [hget] at hmem
    split_ifs at hmem
    · refine ⟨_, (Option.some.inj hmem).symm, ?_⟩
      rcases Broker.platformOf_cases host (Entries.get? e.1 data) with hsteam | ⟨hp, -, -⟩
      · rw [hsteam]
        decide
      · rw [htext] at hp
        exact h.nul_not_mem hp
    · exact ⟨_, (Option.some.inj hmem).symm, nul_not_mem_of_numeric (haccount _)⟩
    · obtain ⟨n, hn, hnul⟩ := hname e.1
      exact ⟨n, (Option.some.inj hmem).symm.trans hn, hnul⟩
    · exact h.strings e (Entries.get?_eq_some_mem hmem)
  · refine ⟨_, by rw [dataText, hget, if_pos rfl]; rfl, ?_⟩
    rcases Broker.platformOf_cases host (Entries.get? "member_platform" data) with hsteam | ⟨-, hne⟩
    · rw [hsteam]
      exact ⟨by decide, by decide⟩
    · exact hne
  · exact ⟨_, by rw [dataText, hget, if_neg (by decide), if_pos rfl]; rfl, haccount _⟩
  · obtain ⟨n, hn, -⟩ := hname "member_platform_user_name"
    exact ⟨n, by rw [dataText, hget, if_neg (by decide), if_neg (by decide), if_pos rfl, hn]; rfl⟩

theorem Filled.fit (h : Filled data) (numberText : Number → String)
    (hnamed : Entries.get? "" data = none) : Fit (bag numberText (.object data)) := by
  have hfront : ∀ {k s}, (bag numberText (.object data)).get? k = some s → dataText data k = some s := by
    intro k s hk
    rw [bag_get? numberText h.plain hnamed] at hk
    have hsplit := Entries.get?_append k (data.take objectCap) (data.drop objectCap)
    rw [List.take_append_drop] at hsplit
    obtain ⟨v, hv, hs⟩ := Option.bind_eq_some_iff.mp hk
    rw [dataText, hsplit, hv]
    exact hs
  constructor
  · intro p hp
    obtain ⟨p', hp', hempty, hone⟩ := h.platform
    rw [hfront hp, Option.some.injEq] at hp'
    exact hp' ▸ ⟨hempty, hone⟩
  · intro a ha
    obtain ⟨a', ha', hnumeric⟩ := h.account
    rw [hfront ha, Option.some.injEq] at ha'
    exact ha' ▸ hnumeric

/-- What the shim makes of completed data is what they are, exactly when every property has a name,
and what is beyond the cap is what the shim puts there itself. -/
theorem Filled.sameMap_iff (h : Filled data) (numberText : Number → String) (eid : String) :
    SameMap (ensureMemberProps (bag numberText (.object data)) eid) data ↔
      Entries.get? "" data = none ∧ ∀ e ∈ data.drop objectCap, defaultProp eid e.1 = e.2.asStr := by
  have hsplit : ∀ k, Entries.get? k data =
      (Entries.get? k (data.take objectCap)).or (Entries.get? k (data.drop objectCap)) := by
    intro k
    rw [← Entries.get?_append, List.take_append_drop]
  have hread : Entries.get? "" data = none → ∀ k,
      (ensureMemberProps (bag numberText (.object data)) eid).get? k =
        (dataText (data.take objectCap) k).or (defaultProp eid k) := by
    intro hnamed k
    rw [ensureMemberProps_get? (h.fit numberText hnamed), bag_get? numberText h.plain hnamed]
  have hnodup : ((data.take objectCap ++ data.drop objectCap).map Prod.fst).Nodup := by
    rw [List.take_append_drop]
    exact h.plain.keys_nodup
  rw [List.map_append, List.nodup_append] at hnodup
  obtain ⟨-, hnodup, hapart⟩ := hnodup
  have hbehind : ∀ e ∈ data.drop objectCap, Entries.get? e.1 (data.take objectCap) = none ∧
      Entries.get? e.1 (data.drop objectCap) = some e.2 := by
    intro e he
    refine ⟨Entries.get?_eq_none_iff.mpr fun e' he' heq => ?_, (Entries.get?_eq_some_iff hnodup).mpr he⟩
    exact hapart _ (List.mem_map_of_mem he') _ (List.mem_map_of_mem he) heq
  constructor
  · intro hsame
    have hnamed : Entries.get? "" data = none := by
      have hempty := hsame ""
      rw [get?_ensureMemberProps _ _ (by decide), bag_get?_empty] at hempty
      rw [h.plain.get?_eq, ← hempty]
      rfl
    refine ⟨hnamed, fun e he => ?_⟩
    obtain ⟨hfront, hback⟩ := hbehind e he
    have hkey := hsame e.1
    rw [hread hnamed, dataText, dataText, hsplit, hfront, hback] at hkey
    exact hkey
  · rintro ⟨hnamed, hbeyond⟩ k
    rw [hread hnamed, dataText, dataText, hsplit]
    cases hfront : Entries.get? k (data.take objectCap) with
    | some v =>
      have hmem := List.mem_of_mem_take (Entries.get?_eq_some_mem hfront)
      obtain ⟨s, heq, -⟩ := h.plain.strings _ hmem
      cases heq
      rfl
    | none =>
      cases hback : Entries.get? k (data.drop objectCap) with
      | some v => exact hbeyond (k, v) (Entries.get?_eq_some_mem hback)
      | none =>
        have hnone : dataText data k = none := by
          rw [dataText, hsplit, hfront, hback]
          rfl
        -- a key that the broker has not completed is none that the shim completes
        change defaultProp eid k = none
        unfold defaultProp
        split_ifs with hplat hacct hname
        · obtain ⟨p, hp, -⟩ := h.platform
          rw [← hplat, hnone] at hp
          cases hp
        · obtain ⟨a, ha, -⟩ := h.account
          rw [← hacct, hnone] at ha
          cases ha
        · obtain ⟨n, hn⟩ := h.name
          rw [← hname, hnone] at hn
          cases hn
        · rfl

end

end GbfrLan.Playfab
