import GbfrLan.Json.DocumentScan

/-!
# Escaped strings in documents

`jsonEscape` spells a string with escapes where it must, and the scanner reads it back wherever it
stands: as a value behind other members, and in an object that the accessors collect.
-/
namespace GbfrLan.Json
open Lib Read

/-! ### The spelling -/

theorem isHighSurrogate_control {n : ℕ} (h : n < 0x20) : isHighSurrogate n = false := by
  simp only [isHighSurrogate, Bool.and_eq_false_iff, decide_eq_false_iff_not]
  omega

theorem isLowSurrogate_control {n : ℕ} (h : n < 0x20) : isLowSurrogate n = false := by
  simp only [isLowSurrogate, Bool.and_eq_false_iff, decide_eq_false_iff_not]
  omega

theorem isPlainChar_of_not_control {c : Char} (hquote : c ≠ '"') (hslash : c ≠ '\\')
    (h : ¬c.toNat < 0x20) : isPlainChar c = true := by
  simp [isPlainChar, hquote, hslash]
  omega

/-- A character as `jsonEscape` spells it. -/
def escaped (c : Char) : Spelling :=
  if h1 : c = '"' then .short '"' '"' rfl
  else if h2 : c = '\\' then .short '\\' '\\' rfl
  else if c = '\n' then .short 'n' '\n' rfl
  else if c = '\r' then .short 'r' '\r' rfl
  else if c = '\t' then .short 't' '\t' rfl
  else if h : c.toNat < 0x20 then
    .unicode '0' '0' (hexChar (c.toNat / 16)) (hexChar (c.toNat % 16)) c.toNat
      (hex4_control c.toNat h) (isHighSurrogate_control h) (isLowSurrogate_control h)
  else .plain c (isPlainChar_of_not_control h1 h2 h)

theorem text_escaped (c : Char) : (escaped c).text = escapeChar c := by
  unfold escaped escapeChar
  split_ifs <;> rfl

theorem char_escaped (c : Char) : (escaped c).char = c := by
  unfold escaped
  split_ifs with h1 h2 h3 h4 h5 h6
  · exact h1.symm
  · exact h2.symm
  · exact h3.symm
  · exact h4.symm
  · exact h5.symm
  · exact Char.ofNat_toNat c
  · rfl

/-- A string as `jsonEscape` spells it. -/
def escapedString (s : String) : Spelled := s.toList.map escaped

theorem body_escapedString (s : String) : (escapedString s).body = jsonEscape s := by
  rw [Spelled.body, escapedString, jsonEscape, List.flatMap_map]
  exact congrArg (fun f => s.toList.flatMap f) (funext text_escaped)

@[simp] theorem str_escapedString (s : String) : (escapedString s).str = s := by
  have hchars : s.toList.map (fun c => (escaped c).char) = s.toList := by
    simp only [char_escaped, List.map_id']
  rw [Spelled.str, escapedString, List.map_map]
  exact (congrArg String.ofList hchars).trans String.ofList_toList

/-! ### What an escaped text holds -/

/-- No quote stands alone, and every backslash starts an escape. -/
def isClosed : List Char → Bool
  | [] => true
  | c :: cs =>
      if c = '\\' then
        match cs with
        | [] => false
        | e :: cs => (e == 'u' || (shortEscape e).isSome) && isClosed cs
      else c != '"' && isClosed cs

theorem isClosed_escapeChar (c : Char) (cs : List Char) :
    isClosed (escapeChar c ++ cs) = isClosed cs := by
  have hplain (c : Char) (hquote : c ≠ '"') (hback : c ≠ '\\') (cs : List Char) :
      isClosed (c :: cs) = isClosed cs := by
    rw [isClosed.eq_def]
    simp [hquote, hback]
  unfold escapeChar
  split_ifs with h1 h2 h3 h4 h5 h6
  · rfl
  · rfl
  · rfl
  · rfl
  · rfl
  · have hdigit : ∀ n : Fin 16, hexChar n ≠ '"' ∧ hexChar n ≠ '\\' := by decide
    have hhigh := hdigit ⟨c.toNat / 16, by omega⟩
    have hlow := hdigit ⟨c.toNat % 16, by omega⟩
    have hopen (cs : List Char) : isClosed ('\\' :: 'u' :: cs) = isClosed cs := rfl
    simp only [List.cons_append, List.nil_append]
    rw [hopen, hplain '0' (by decide) (by decide), hplain '0' (by decide) (by decide),
      hplain _ hhigh.1 hhigh.2, hplain _ hlow.1 hlow.2]
  · exact hplain c h1 h2 cs

theorem isClosed_jsonEscape (s : String) : isClosed (jsonEscape s) = true := by
  unfold jsonEscape
  induction s.toList with
  | nil => rfl
  | cons c cs ih => rw [List.flatMap_cons, isClosed_escapeChar, ih]

theorem jsonEscape_printable (s : String) : ∀ c ∈ jsonEscape s, 0x20 ≤ c.toNat := by
  have hshort {e c : Char} (he : 0x20 ≤ e.toNat) (hc : c ∈ ['\\', e]) : 0x20 ≤ c.toNat := by
    rcases List.mem_cons.mp hc with rfl | hc
    · decide
    · rwa [List.mem_singleton.mp hc]
  intro c hc
  obtain ⟨d, -, hc⟩ := List.mem_flatMap.mp hc
  unfold escapeChar at hc
  split_ifs at hc with h1 h2 h3 h4 h5 h6
  · exact hshort (by decide) hc
  · exact hshort (by decide) hc
  · exact hshort (by decide) hc
  · exact hshort (by decide) hc
  · exact hshort (by decide) hc
  · have hdigit : ∀ n : Fin 16, 0x20 ≤ (hexChar n).toNat := by decide
    simp only [List.mem_cons, List.not_mem_nil, or_false] at hc
    rcases hc with rfl | rfl | rfl | rfl | rfl | rfl
    · decide
    · decide
    · decide
    · decide
    · exact hdigit ⟨d.toNat / 16, by omega⟩
    · exact hdigit ⟨d.toNat % 16, by omega⟩
  · rw [List.mem_singleton.mp hc]
    omega

/-! ### Names -/

mutual

/-- All names of a document, at every depth. -/
def Document.names : Document → List String
  | .array _ elems => elementsNames elems
  | .object _ members => membersNames members
  | _ => []

def Element.names : Element → List String
  | .mk _ x _ => x.names

def Member.names : Member → List String
  | .mk _ name _ x => name.str :: x.names

def elementsNames : List Element → List String
  | [] => []
  | x :: xs => x.names ++ elementsNames xs

def membersNames : List Member → List String
  | [] => []
  | m :: ms => m.names ++ membersNames ms

end

mutual

theorem Document.find_eq_none {key : String} : ∀ x : Document, key ∉ x.names → x.find key = none
  | .null, _ => rfl
  | .bool _, _ => rfl
  | .number _, _ => rfl
  | .string _, _ => rfl
  | .array _ elems, h => by
    rw [Document.names] at h
    rw [Document.find]
    exact findElements_eq_none elems h
  | .object _ members, h => by
    rw [Document.names] at h
    rw [Document.find]
    exact findMembers_eq_none members h

theorem Element.find_eq_none {key : String} : ∀ x : Element, key ∉ x.names → x.find key = none
  | .mk _ x _, h => by
    rw [Element.names] at h
    rw [Element.find]
    exact Document.find_eq_none x h

theorem Member.find_eq_none {key : String} : ∀ m : Member, key ∉ m.names → m.find key = none
  | .mk _ name _ x, h => by
    rw [Member.names, List.mem_cons, not_or] at h
    rw [Member.find, if_neg (Ne.symm h.1)]
    exact Element.find_eq_none x h.2

theorem findElements_eq_none {key : String} :
    ∀ xs : List Element, key ∉ elementsNames xs → findElements key xs = none
  | [], _ => by rw [findElements]
  | x :: xs, h => by
    rw [elementsNames, List.mem_append, not_or] at h
    rw [findElements, Element.find_eq_none x h.1, findElements_eq_none xs h.2]
    rfl

theorem findMembers_eq_none {key : String} :
    ∀ ms : List Member, key ∉ membersNames ms → findMembers key ms = none
  | [], _ => by rw [findMembers]
  | m :: ms, h => by
    rw [membersNames, List.mem_append, not_or] at h
    rw [findMembers, Member.find_eq_none m h.1, findMembers_eq_none ms h.2]
    rfl

end

theorem findMembers_append (key : String) (front back : List Member) :
    findMembers key (front ++ back) = (findMembers key front).or (findMembers key back) := by
  induction front with
  | nil =>
    rw [List.nil_append, findMembers]
    rfl
  | cons m ms ih => rw [List.cons_append, findMembers, findMembers, ih, Option.or_assoc]

/-- A member that is the first of its name is found. -/
theorem find_object {key : String} (gap : Gap) {front : List Member} (m : Member)
    (back : List Member) (hname : m.name = key) (hfront : key ∉ membersNames front) :
    (Document.object gap (front ++ m :: back)).find key = some m.value := by
  obtain ⟨before, name, after, x⟩ := m
  have hname : name.str = key := hname
  rw [Document.find, findMembers_append, findMembers_eq_none front hfront, findMembers, Member.find,
    if_pos hname]
  rfl

theorem name_mem_membersNames {m : Member} {ms : List Member} (h : m ∈ ms) :
    m.name ∈ membersNames ms := by
  induction ms with
  | nil => exact absurd h List.not_mem_nil
  | cons m' ms ih =>
    rw [membersNames, List.mem_append]
    rcases List.mem_cons.mp h with rfl | h
    · obtain ⟨before, name, after, x⟩ := m
      rw [Member.names]
      exact .inl List.mem_cons_self
    · exact .inr (ih h)

/-! ### Collected members -/

/-- One turn of the loop over the members of an object. -/
def put (out : OrdMap String String) (m : Member) : OrdMap String String :=
  match m.value.scalarText with
  | some t => if m.name = "" ∨ objectCap ≤ out.size then out else out.insert m.name t
  | none => out

theorem size_put_le (out : OrdMap String String) (m : Member) : (put out m).size ≤ out.size + 1 := by
  unfold put
  split
  · split_ifs
    · exact Nat.le_succ _
    · cases hname : out.get? m.name with
      | none => exact (OrdMap.size_insert_of_none _ hname).le
      | some t => exact (OrdMap.size_insert_of_some _ hname).le.trans (Nat.le_succ _)
  · exact Nat.le_succ _

theorem get?_put_of_ne {key : String} (out : OrdMap String String) {m : Member} (h : m.name ≠ key) :
    (put out m).get? key = out.get? key := by
  unfold put
  split
  · split_ifs
    · rfl
    · rw [OrdMap.get?_insert, if_neg (Ne.symm h)]
  · rfl

/-- A member is collected when fewer than the cap stand in front of it and none of its name behind. -/
theorem get?_scalars {key t : String} (front : List Member) (m : Member) (back : List Member)
    (hcap : front.length < objectCap) (hne : key ≠ "") (hname : m.name = key)
    (htext : m.value.scalarText = some t) (hback : ∀ m' ∈ back, m'.name ≠ key) :
    (scalars (front ++ m :: back)).get? key = some t := by
  have hsize (ms : List Member) (out : OrdMap String String) :
      (ms.foldl put out).size ≤ out.size + ms.length := by
    induction ms generalizing out with
    | nil => exact Nat.le_refl _
    | cons m ms ih =>
      have hput := size_put_le out m
      have hrest := ih (put out m)
      rw [List.foldl_cons, List.length_cons]
      omega
  have hkeep (ms : List Member) (hms : ∀ m' ∈ ms, m'.name ≠ key) (out : OrdMap String String) :
      (ms.foldl put out).get? key = out.get? key := by
    induction ms generalizing out with
    | nil => rfl
    | cons m ms ih =>
      rw [List.foldl_cons, ih (fun m' hm' => hms m' (List.mem_cons_of_mem _ hm')),
        get?_put_of_ne out (hms m List.mem_cons_self)]
  have hroom : ¬(m.name = "" ∨ objectCap ≤ (front.foldl put OrdMap.empty).size) := by
    have hle := hsize front OrdMap.empty
    rw [OrdMap.size_empty, Nat.zero_add] at hle
    rw [hname]
    exact not_or.mpr ⟨hne, by omega⟩
  have hfold : scalars (front ++ m :: back) =
      back.foldl put (put (front.foldl put OrdMap.empty) m) := by
    change (front ++ m :: back).foldl put OrdMap.empty = _
    rw [List.foldl_append, List.foldl_cons]
  rw [hfold, hkeep back hback, put, htext]
  simp only
  rw [if_neg hroom, OrdMap.get?_insert, if_pos hname.symm]

/-! ### Escape and decode -/

/-- A member with its name and its string as `jsonEscape` writes them. -/
def escapedMember (k s : String) (before after before' after' : Gap) : Member :=
  .mk before (escapedString k) after (.mk before' (.string (escapedString s)) after')

/-- A member that is an object, with its name as `jsonEscape` writes it. -/
def objectMember (k : String) (before after before' after' gap : Gap) (members : List Member) : Member :=
  .mk before (escapedString k) after (.mk before' (.object gap members) after')

theorem jsonStr_object (gap : Gap) (members : List Member) (key : String) :
    Scan.jsonStr (Document.object gap members).text key =
      ((Document.object gap members).find key).bind Document.asText := by
  have hread := Scan.jsonStr_document (.mk Gap.none (.object gap members) Gap.none) key
  rw [Element.text, Element.find] at hread
  exact (congrArg (Scan.jsonStr · key) (List.append_nil _).symm).trans hread

theorem jsonObj_object (gap : Gap) (members : List Member) (key : String) :
    Scan.jsonObj (Document.object gap members).text key =
      match (Document.object gap members).find key with
      | some (.object _ members) => scalars members
      | _ => OrdMap.empty := by
  have hread := Scan.jsonObj_document (.mk Gap.none (.object gap members) Gap.none) key
  rw [Element.text, Element.find] at hread
  exact (congrArg (Scan.jsonObj · key) (List.append_nil _).symm).trans hread

/-- What is escaped is read back wherever it was written: as a member of an object, and in an object
that is collected. The escaped text has no control character, no quote that ends the string, and no
backslash without its partner. -/
theorem escaped_read (s k : String) (gap before after before' after' : Gap)
    (front back : List Member) (hfront : k ∉ membersNames front) (hback : k ∉ membersNames back) :
    Scan.jsonStr (Document.object gap
        (front ++ escapedMember k s before after before' after' :: back)).text k = some s ∧
    (k ≠ "" → (front ++ escapedMember k s before after before' after' :: back).length ≤ objectCap →
      ∀ (o : String) (ogap obefore oafter obefore' oafter' : Gap) (ofront oback : List Member),
        o ∉ membersNames ofront →
        (Scan.jsonObj (Document.object ogap (ofront ++ objectMember o obefore oafter obefore' oafter' gap
          (front ++ escapedMember k s before after before' after' :: back) :: oback)).text o).get? k =
            some s) ∧
    (∀ c ∈ jsonEscape s, 0x20 ≤ c.toNat) ∧ isClosed (jsonEscape s) = true := by
  have hname : (escapedMember k s before after before' after').name = k := str_escapedString k
  refine ⟨?_, ?_, jsonEscape_printable s, isClosed_jsonEscape s⟩
  · rw [jsonStr_object, find_object gap _ back hname hfront]
    exact congrArg some (str_escapedString s)
  · intro hk hcap o ogap obefore oafter obefore' oafter' ofront oback ho
    have honame : (objectMember o obefore oafter obefore' oafter' gap
        (front ++ escapedMember k s before after before' after' :: back)).name = o :=
      str_escapedString o
    rw [List.length_append, List.length_cons] at hcap
    rw [jsonObj_object, find_object ogap _ oback honame ho]
    refine get?_scalars front _ back (by omega) hk hname (congrArg some (str_escapedString s)) ?_
    rintro m hm rfl
    exact hback (name_mem_membersNames hm)

/-- A tab and a quote, behind a member with an array. -/
theorem escaped_read_tab :
    Scan.jsonStr (Document.object Gap.none
        ([Member.mk Gap.none (escapedString "a") Gap.none (.mk Gap.none
          (.array Gap.none [.mk Gap.none .null Gap.none]) Gap.none)] ++
          escapedMember "k" "\t\"" Gap.none Gap.none Gap.none Gap.none :: [])).text "k" =
      some "\t\"" := by
  refine (escaped_read "\t\"" "k" Gap.none Gap.none Gap.none Gap.none Gap.none
    [Member.mk Gap.none (escapedString "a") Gap.none (.mk Gap.none
      (.array Gap.none [.mk Gap.none .null Gap.none]) Gap.none)] [] ?_ ?_).1
  · rw [membersNames, membersNames, Member.names, str_escapedString]
    decide
  · exact List.not_mem_nil

end GbfrLan.Json
