import GbfrLan.Json.Document
import GbfrLan.Json.Scanned

/-!
# The accessors on documents

What the scanner finds in the text of a document is what the document means, however it is
written. Behind a value there is something that ends it, and no colon: `Follows`.
-/
namespace GbfrLan.Json
open Lib Read

namespace Scan

/-! ### White space -/

theorem skipWs_gap (gap : Gap) (cs : List Char) : skipWs (gap.text ++ cs) = skipWs cs :=
  List.dropWhile_append_of_pos gap.ws

theorem token_gap (c : Char) (gap : Gap) (cs : List Char) : token c (gap.text ++ cs) = token c cs := by
  unfold token
  rw [skipWs_gap]

theorem find_gap (gap : Gap) (cs : List Char) (key : String) :
    findValueStart (gap.text ++ cs) key = findValueStart cs key :=
  find_append (fun hmem => absurd (gap.ws _ hmem) (by decide)) cs key

theorem skipValue_gap (gap : Gap) (fuel : ℕ) (cs : List Char) :
    skipValue fuel (gap.text ++ cs) = skipValue fuel cs := by
  cases fuel with
  | zero => rfl
  | succ fuel => rw [skipValue, skipValue, skipWs_gap]

theorem skipElements_gap (gap : Gap) (fuel : ℕ) (cs : List Char) :
    skipElements fuel (gap.text ++ cs) = skipElements fuel cs := by
  cases fuel with
  | zero => rfl
  | succ fuel => rw [skipElements, skipElements, skipWs_gap]

theorem skipMembers_gap (gap : Gap) (fuel : ℕ) (cs : List Char) :
    skipMembers fuel (gap.text ++ cs) = skipMembers fuel cs := by
  cases fuel with
  | zero => rfl
  | succ fuel => rw [skipMembers, skipMembers, skipWs_gap]

theorem objLoop_gap (gap : Gap) (fuel : ℕ) (cs : List Char) (out : OrdMap String String) :
    objLoop fuel (gap.text ++ cs) out = objLoop fuel cs out := by
  cases fuel with
  | zero => rfl
  | succ fuel => rw [objLoop, objLoop, skipWs_gap]

theorem arrLoop_gap (gap : Gap) (fuel room : ℕ) (cs : List Char) :
    arrLoop fuel room (gap.text ++ cs) = arrLoop fuel room cs := by
  cases fuel with
  | zero => rfl
  | succ fuel =>
    cases room with
    | zero => rfl
    | succ room => rw [arrLoop, arrLoop, skipWs_gap]

/-! ### What stands behind a value -/

/-- What may stand behind a value: something that ends it, and no colon. -/
structure Follows (cs : List Char) : Prop where
  ends : EndsLiteral cs
  noColon : token ':' cs = none

theorem endsLiteral_gap (gap : Gap) {cs : List Char} (h : EndsLiteral cs) :
    EndsLiteral (gap.text ++ cs) := by
  intro c hc
  cases hgap : gap.text with
  | nil =>
    rw [hgap] at hc
    exact h c hc
  | cons d ds =>
    rw [hgap, List.cons_append, List.head?_cons, Option.mem_some] at hc
    have hws : isWs d = true := gap.ws d (by rw [hgap]; exact List.mem_cons_self)
    subst hc
    simp [isDelimiter, hws]

theorem Follows.gap (gap : Gap) {cs : List Char} (h : Follows cs) : Follows (gap.text ++ cs) :=
  ⟨endsLiteral_gap gap h.ends, by rw [token_gap, h.noColon]⟩

theorem follows_nil : Follows [] := ⟨fun c hc => by simp at hc, rfl⟩

theorem follows_cons {c : Char} (hc : c = ',' ∨ c = '}' ∨ c = ']') (cs : List Char) :
    Follows (c :: cs) := by
  rcases hc with rfl | rfl | rfl
  · exact ⟨fun c hc => by simp only [List.head?_cons, Option.mem_some] at hc; subst hc; rfl, rfl⟩
  · exact ⟨fun c hc => by simp only [List.head?_cons, Option.mem_some] at hc; subst hc; rfl, rfl⟩
  · exact ⟨fun c hc => by simp only [List.head?_cons, Option.mem_some] at hc; subst hc; rfl, rfl⟩

theorem follows_moreElements (xs : List Element) (rest : List Char) :
    Follows (moreElementsText xs ++ rest) := by
  cases xs with
  | nil => exact follows_cons (by simp) rest
  | cons x xs =>
    rw [moreElementsText, List.cons_append]
    exact follows_cons (by simp) _

theorem follows_moreMembers (ms : List Member) (rest : List Char) :
    Follows (moreMembersText ms ++ rest) := by
  cases ms with
  | nil => exact follows_cons (by simp) rest
  | cons m ms =>
    rw [moreMembersText, List.cons_append]
    exact follows_cons (by simp) _

/-! ### Tokens -/

theorem strFront_spelled (s : Spelled) : StrFront s.body (s.map Spelling.char) := by
  intro rest
  unfold Spelled.body
  induction s with
  | nil => exact strTail_quote rest
  | cons e s ih =>
    have hcons : strTail (e.text ++ (s.flatMap Spelling.text ++ '"' :: rest)) =
        (strTail (s.flatMap Spelling.text ++ '"' :: rest)).map
          fun x => (e.char :: x.1, x.2) := by
      cases e with
      | plain c h =>
        simp only [isPlainChar, Bool.and_eq_true, bne_iff_ne] at h
        exact strTail_plain h.1.1 h.1.2 _
      | short e c h =>
        have hu : e ≠ 'u' := by
          rintro rfl
          cases h
        exact strTail_short h hu _
      | unicode x y z w n h hhigh hlow =>
        exact strTail_unicode h (by rw [hhigh]; decide) (by rw [hlow]; decide) _
      | pair x y z w x' y' z' w' hi lo h h' hhigh hlow => exact strTail_pair h hhigh h' hlow _
    rw [List.flatMap_cons, List.append_assoc, hcons, ih]
    rfl

theorem text_append (s : Spelled) (cs : List Char) : s.text ++ cs = '"' :: (s.body ++ '"' :: cs) := by
  simp [Spelled.text]

theorem isNumberText_numeral (n : Numeral) : IsNumberText (String.ofList n.text) := by
  have hdigits (ds : Digits) : ∀ c ∈ ds.text, c.isDigit = true ∨ c ∈ ['+', '-', '.', 'e', 'E'] :=
    fun c hc => .inl (ds.digit c hc)
  constructor
  · intro hempty
    have hnil : n.text = [] := by
      rw [← String.toList_ofList (l := n.text), hempty]
      rfl
    simp only [Numeral.text, List.append_eq_nil_iff] at hnil
    exact n.int.ne hnil.1.1.2
  · intro c hc
    rw [String.toList_ofList, Numeral.text] at hc
    simp only [List.mem_append] at hc
    rcases hc with ((hc | hc) | hc) | hc
    · split_ifs at hc
      · rw [List.mem_singleton.mp hc]
        exact .inr (by decide)
      · exact absurd hc List.not_mem_nil
    · exact hdigits _ c hc
    · unfold Numeral.fracText at hc
      split at hc
      · exact absurd hc List.not_mem_nil
      · rcases List.mem_cons.mp hc with rfl | hc
        · exact .inr (by decide)
        · exact hdigits _ c hc
    · unfold Numeral.expText at hc
      split at hc
      · exact absurd hc List.not_mem_nil
      · rename_i e _
        rcases List.mem_cons.mp hc with rfl | hc
        · rcases e.letter_eq with h | h <;> exact .inr (by rw [h]; decide)
        · rcases List.mem_append.mp hc with hc | hc
          · rcases e.sign_eq c (Option.mem_toList.mp hc) with rfl | rfl <;> exact .inr (by decide)
          · exact hdigits _ c hc

theorem isLiteral_numeral (n : Numeral) : IsLiteral n.text := by
  have h := (isNumberText_numeral n).isLiteral
  rwa [String.toList_ofList] at h

/-- The first character of a value is none that may stand between values. -/
theorem document_head (x : Document) : ∃ c t, x.text = c :: t ∧ isDelimiter c = false := by
  cases x with
  | null => exact isLiteral_null.head
  | bool b => exact (isLiteral_bool b).head
  | number n => exact (isLiteral_numeral n).head
  | string s => exact ⟨'"', _, rfl, rfl⟩
  | array gap elems => exact ⟨'[', _, rfl, rfl⟩
  | object gap members => exact ⟨'{', _, rfl, rfl⟩

theorem skipWs_document (x : Document) (rest : List Char) : skipWs (x.text ++ rest) = x.text ++ rest := by
  obtain ⟨c, t, htext, hc⟩ := document_head x
  rw [htext, List.cons_append, skipWs, List.dropWhile_cons_of_neg]
  simp [isWs_of_isDelimiter hc]

/-! ### Skipping a value -/

theorem skipMembers_name (name : Spelled) (after : Gap) (fuel : ℕ) (cs : List Char) :
    skipMembers (fuel + 1) (name.text ++ (after.text ++ ':' :: cs)) =
      (skipValue fuel cs).bind (skipMembers fuel) := by
  have htail := strFront_spelled name (after.text ++ ':' :: cs)
  have htoken : token ':' (after.text ++ ':' :: cs) = some cs := token_ws rfl after.ws cs
  rw [text_append]
  simp [skipMembers, skipWs, isWs, htail, htoken, Option.bind_eq_bind]

theorem moreElementsText_cons (x : Element) (xs : List Element) :
    moreElementsText (x :: xs) = ',' :: elementsText (x :: xs) := by
  rw [moreElementsText, elementsText]

theorem moreMembersText_cons (m : Member) (ms : List Member) :
    moreMembersText (m :: ms) = ',' :: membersText (m :: ms) := by
  rw [moreMembersText, membersText]

/-- What is known of the elements is known of them behind another one. -/
theorem skipElements_moreElements {xs : List Element}
    (h : ∀ (fuel : ℕ) (rest : List Char), (elementsText xs).length < fuel →
      skipElements fuel (elementsText xs ++ rest) = some rest)
    {fuel : ℕ} (rest : List Char) (hfuel : (moreElementsText xs).length < fuel) :
    skipElements fuel (moreElementsText xs ++ rest) = some rest := by
  cases xs with
  | nil => exact h fuel rest hfuel
  | cons x xs =>
    rw [moreElementsText_cons, List.length_cons] at hfuel
    obtain ⟨fuel, rfl⟩ : ∃ f, fuel = f + 1 := ⟨fuel - 1, by omega⟩
    rw [moreElementsText_cons, List.cons_append, skipElements_comma]
    exact h fuel rest (by omega)

theorem skipMembers_moreMembers {ms : List Member}
    (h : ∀ (fuel : ℕ) (rest : List Char), (membersText ms).length < fuel →
      skipMembers fuel (membersText ms ++ rest) = some rest)
    {fuel : ℕ} (rest : List Char) (hfuel : (moreMembersText ms).length < fuel) :
    skipMembers fuel (moreMembersText ms ++ rest) = some rest := by
  cases ms with
  | nil => exact h fuel rest hfuel
  | cons m ms =>
    rw [moreMembersText_cons, List.length_cons] at hfuel
    obtain ⟨fuel, rfl⟩ : ∃ f, fuel = f + 1 := ⟨fuel - 1, by omega⟩
    rw [moreMembersText_cons, List.cons_append, skipMembers_comma]
    exact h fuel rest (by omega)

mutual

/-- A value is skipped as a whole. -/
theorem skipValue_document : ∀ (x : Document) (fuel : ℕ) (rest : List Char), x.text.length < fuel →
    EndsLiteral rest → skipValue fuel (x.text ++ rest) = some rest
  | .null, fuel + 1, rest, _, hrest => skipValue_literal isLiteral_null hrest fuel
  | .bool b, fuel + 1, rest, _, hrest => skipValue_literal (isLiteral_bool b) hrest fuel
  | .number n, fuel + 1, rest, _, hrest => skipValue_literal (isLiteral_numeral n) hrest fuel
  | .string s, fuel + 1, rest, _, _ => by
    have htail := strFront_spelled s rest
    rw [Document.text, text_append]
    simp [skipValue, skipWs, isWs, htail]
  | .array gap elems, fuel + 1, rest, hfuel, _ => by
    rw [Document.text, List.length_cons, List.length_append] at hfuel
    have hskip := skipElements_elements elems fuel rest (by omega)
    rw [← skipElements_gap gap] at hskip
    simp [Document.text, skipValue, skipWs, isWs, hskip]
  | .object gap members, fuel + 1, rest, hfuel, _ => by
    rw [Document.text, List.length_cons, List.length_append] at hfuel
    have hskip := skipMembers_members members fuel rest (by omega)
    rw [← skipMembers_gap gap] at hskip
    simp [Document.text, skipValue, skipWs, isWs, hskip]

/-- What is left of a value with white space around it. -/
theorem skipValue_element : ∀ (x : Element) (fuel : ℕ) (rest : List Char), x.text.length < fuel →
    EndsLiteral rest →
    ∃ after : Gap, skipValue fuel (x.text ++ rest) = some (after.text ++ rest)
  | .mk before x after, fuel, rest, hfuel, hrest => by
    simp only [Element.text, List.length_append] at hfuel
    refine ⟨after, ?_⟩
    rw [Element.text, List.append_assoc, skipValue_gap, List.append_assoc]
    exact skipValue_document x fuel _ (by omega) (endsLiteral_gap after hrest)

theorem skipElements_elements : ∀ (xs : List Element) (fuel : ℕ) (rest : List Char),
    (elementsText xs).length < fuel → skipElements fuel (elementsText xs ++ rest) = some rest
  | [], fuel + 1, rest, _ => by
    rw [elementsText]
    exact skipElements_close fuel rest
  | .mk before x after :: xs, fuel + 1, rest, hfuel => by
    have hmore := follows_moreElements xs rest
    obtain ⟨c, t, htext, hc⟩ := document_head x
    have hlen : 0 < x.text.length := by simp [htext]
    have hmorelen : 0 < (moreElementsText xs).length := by
      cases xs <;> simp [moreElementsText]
    simp only [elementsText, Element.text, List.length_append] at hfuel
    have hvalue := skipValue_document x fuel (after.text ++ (moreElementsText xs ++ rest)) (by omega)
      (hmore.gap after).ends
    rw [htext, List.cons_append] at hvalue
    simp only [elementsText, Element.text, List.append_assoc]
    rw [skipElements_gap, htext, List.cons_append, skipElements_value hc, hvalue, Option.bind_some,
      skipElements_gap]
    exact skipElements_moreElements (skipElements_elements xs) rest (by omega)

theorem skipMembers_members : ∀ (ms : List Member) (fuel : ℕ) (rest : List Char),
    (membersText ms).length < fuel → skipMembers fuel (membersText ms ++ rest) = some rest
  | [], fuel + 1, rest, _ => by
    rw [membersText]
    exact skipMembers_close fuel rest
  | .mk before name after x :: ms, fuel + 1, rest, hfuel => by
    have hmore := follows_moreMembers ms rest
    have hmorelen : 0 < (moreMembersText ms).length := by
      cases ms <;> simp [moreMembersText]
    simp only [membersText, Member.text, List.length_append, List.length_cons] at hfuel
    obtain ⟨gap, hvalue⟩ := skipValue_element x fuel (moreMembersText ms ++ rest) (by omega) hmore.ends
    simp only [membersText, Member.text, List.append_assoc, List.cons_append]
    rw [skipMembers_gap, skipMembers_name, hvalue, Option.bind_some, skipMembers_gap]
    exact skipMembers_moreMembers (skipMembers_members ms) rest (by omega)

end

theorem skip_document (x : Document) {rest : List Char} (hrest : EndsLiteral rest) :
    skip (x.text ++ rest) = some rest := by
  refine skipValue_document x _ rest ?_ hrest
  rw [List.length_append]
  omega

/-! ### Finding a name -/

/-- In front of what may follow a value, the scanner finds this value in the text, or passes it. -/
def Finds (key : String) (t : List Char) (value : Option Document) : Prop :=
  ∀ cs, Follows cs →
    match value with
    | none => findValueStart (t ++ cs) key = findValueStart cs key
    | some x => ∃ b, EndsLiteral b ∧ findValueStart (t ++ cs) key = some (x.text ++ b)

section Finds

variable {key : String} {t t' : List Char} {v v' : Option Document}

/-- A front that the scanner passes. -/
theorem Finds.front {front : List Char}
    (hfront : ∀ cs, findValueStart (front ++ cs) key = findValueStart cs key)
    (h : Finds key t v) : Finds key (front ++ t) v := by
  intro cs hcs
  have hat := h cs hcs
  rw [List.append_assoc, hfront]
  exact hat

theorem Finds.cons {c : Char} (hc : c ≠ '"') (h : Finds key t v) : Finds key (c :: t) v :=
  @Finds.front key t v [c] (fun cs => find_cons hc cs key) h

theorem Finds.gap (gap : Gap) (h : Finds key t v) : Finds key (gap.text ++ t) v :=
  h.front fun cs => find_gap gap cs key

theorem Finds.append (h : Finds key t v) (h' : Finds key t' v')
    (hfollows : ∀ cs, Follows cs → Follows (t' ++ cs)) : Finds key (t ++ t') (v.or v') := by
  intro cs hcs
  have hfirst := h (t' ++ cs) (hfollows cs hcs)
  rw [List.append_assoc]
  cases v with
  | some x => exact hfirst
  | none =>
    have hsecond := h' cs hcs
    rw [hfirst]
    exact hsecond

theorem finds_literal (h : IsLiteral t) : Finds key t none := fun cs _ =>
  find_append (fun hmem => (h.plain _ hmem).1 rfl) cs key

theorem finds_close {c : Char} (hc : c ≠ '"') : Finds key [c] none := fun cs _ => find_cons hc cs key

/-- A string that is a value is passed. -/
theorem finds_string (s : Spelled) : Finds key s.text none := by
  intro cs hcs
  rw [text_append, find_string (strFront_spelled s), hcs.noColon]
  simp

theorem find_spelled (name : Spelled) (after : Gap) (cs : List Char) (key : String) :
    findValueStart (name.text ++ (after.text ++ ':' :: cs)) key =
      if name.str = key then some (skipWs cs) else findValueStart cs key := by
  have htoken : token ':' (after.text ++ ':' :: cs) = some cs := token_ws rfl after.ws cs
  have hstr : name.map Spelling.char = key.toList ↔ name.str = key := by
    rw [← String.toList_inj, Spelled.str, String.toList_ofList]
  rw [text_append, find_string (strFront_spelled name), htoken, find_gap, find_cons (by decide)]
  simp [hstr]

end Finds

mutual

theorem finds_document (key : String) : ∀ x : Document, Finds key x.text (x.find key)
  | .null => finds_literal isLiteral_null
  | .bool b => finds_literal (isLiteral_bool b)
  | .number n => finds_literal (isLiteral_numeral n)
  | .string s => finds_string s
  | .array gap elems => by
    rw [Document.text, Document.find]
    exact ((finds_elements key elems).gap gap).cons (by decide)
  | .object gap members => by
    rw [Document.text, Document.find]
    exact ((finds_members key members).gap gap).cons (by decide)

theorem finds_element (key : String) : ∀ x : Element, Finds key x.text (x.find key)
  | .mk before x after => by
    rw [Element.text, Element.find]
    have hafter : Finds key after.text none := fun cs _ => find_gap after cs key
    have happend := (finds_document key x).append hafter fun cs hcs => hcs.gap after
    rw [Option.or_none] at happend
    exact happend.gap before

theorem finds_member (key : String) : ∀ m : Member, Finds key m.text (m.find key)
  | .mk before name after x => by
    rw [Member.text, Member.find]
    refine Finds.gap before ?_
    intro cs hcs
    have hrest := finds_element key x cs hcs
    simp only [List.append_assoc, List.cons_append]
    rw [find_spelled]
    split_ifs with hname
    · obtain ⟨gap, x, gap'⟩ := x
      refine ⟨gap'.text ++ cs, endsLiteral_gap gap' hcs.ends, ?_⟩
      rw [Element.text, List.append_assoc, skipWs_gap, List.append_assoc, skipWs_document]
      rfl
    · exact hrest

theorem finds_elements (key : String) :
    ∀ xs : List Element, Finds key (elementsText xs) (findElements key xs)
  | [] => by
    rw [elementsText, findElements]
    exact finds_close (by decide)
  | x :: xs => by
    rw [elementsText, findElements]
    exact (finds_element key x).append (finds_moreElements key xs) fun cs _ =>
      follows_moreElements xs cs

theorem finds_moreElements (key : String) :
    ∀ xs : List Element, Finds key (moreElementsText xs) (findElements key xs)
  | [] => by
    rw [moreElementsText, findElements]
    exact finds_close (by decide)
  | x :: xs => by
    rw [moreElementsText, findElements]
    exact ((finds_element key x).append (finds_moreElements key xs) fun cs _ =>
      follows_moreElements xs cs).cons (by decide)

theorem finds_members (key : String) :
    ∀ ms : List Member, Finds key (membersText ms) (findMembers key ms)
  | [] => by
    rw [membersText, findMembers]
    exact finds_close (by decide)
  | m :: ms => by
    rw [membersText, findMembers]
    exact (finds_member key m).append (finds_moreMembers key ms) fun cs _ =>
      follows_moreMembers ms cs

theorem finds_moreMembers (key : String) :
    ∀ ms : List Member, Finds key (moreMembersText ms) (findMembers key ms)
  | [] => by
    rw [moreMembersText, findMembers]
    exact finds_close (by decide)
  | m :: ms => by
    rw [moreMembersText, findMembers]
    exact ((finds_member key m).append (finds_moreMembers key ms) fun cs _ =>
      follows_moreMembers ms cs).cons (by decide)

end

/-! ### The accessors -/

/-- The value of a name is found with the text from there on. -/
theorem find_document (d : Element) (key : String) :
    match d.find key with
    | none => findValueStart d.text key = none
    | some x => ∃ b, EndsLiteral b ∧ findValueStart d.text key = some (x.text ++ b) := by
  have hfinds := finds_element key d [] follows_nil
  rw [List.append_nil] at hfinds
  exact hfinds

theorem numeral_ne_null (n : Numeral) : n.text ≠ "null".toList := by
  intro hnull
  have hmem : 'n' ∈ (String.ofList n.text).toList := by
    rw [String.toList_ofList, hnull]
    decide
  rcases (isNumberText_numeral n).2 'n' hmem with hn | hn <;> simp at hn

/-- A literal that is a value. -/
theorem literal_cases (x : Document) : (∃ s, x = .string s) ∨ (∃ gap elems, x = .array gap elems) ∨
    (∃ gap members, x = .object gap members) ∨
    IsLiteral x.text ∧ x.asText = (if x.text = "null".toList then none else some (String.ofList x.text)) ∧
      x.scalarText = some (if x.text = "null".toList then "" else String.ofList x.text) := by
  cases x with
  | null => exact .inr (.inr (.inr ⟨isLiteral_null, rfl, rfl⟩))
  | bool b =>
    refine .inr (.inr (.inr ⟨isLiteral_bool b, ?_, ?_⟩))
    · cases b <;> rfl
    · cases b <;> rfl
  | number n =>
    refine .inr (.inr (.inr ⟨isLiteral_numeral n, ?_, ?_⟩))
    · exact (if_neg (numeral_ne_null n)).symm
    · exact congrArg some (if_neg (numeral_ne_null n)).symm
  | string s => exact .inl ⟨s, rfl⟩
  | array gap elems => exact .inr (.inl ⟨gap, elems, rfl⟩)
  | object gap members => exact .inr (.inr (.inl ⟨gap, members, rfl⟩))

theorem strAt_document (x : Document) {b : List Char} (hb : EndsLiteral b) :
    strAt (x.text ++ b) = x.asText := by
  rcases literal_cases x with ⟨s, rfl⟩ | ⟨gap, elems, rfl⟩ | ⟨gap, members, rfl⟩ | ⟨hliteral, htext, -⟩
  · rw [Document.text, text_append, strAt_quote, strFront_spelled s b]
    rfl
  · exact strAt_container (.inr rfl) _
  · exact strAt_container (.inl rfl) _
  · rw [strAt_literal hliteral hb, htext]

theorem jsonStr_document (d : Element) (key : String) :
    jsonStr d.text key = (d.find key).bind Document.asText := by
  have hfind := find_document d key
  rw [jsonStr_eq]
  cases hx : d.find key with
  | none =>
    rw [hx] at hfind
    rw [hfind]
    rfl
  | some x =>
    rw [hx] at hfind
    obtain ⟨b, hb, hfind⟩ := hfind
    rw [hfind]
    exact strAt_document x hb

theorem scalarOf_document (x : Document) (rest : List Char) :
    scalarOf (x.text ++ rest) rest = x.scalarText := by
  rcases literal_cases x with ⟨s, rfl⟩ | ⟨gap, elems, rfl⟩ | ⟨gap, members, rfl⟩ | ⟨hliteral, -, htext⟩
  · have htail := strFront_spelled s rest
    rw [Document.text, text_append]
    simp [scalarOf, htail, Document.scalarText, Document.asText, Spelled.str]
  · rfl
  · rfl
  · obtain ⟨c, t, ht, -⟩ := hliteral.head
    obtain ⟨hquote, hbrace, hbracket, -⟩ := hliteral.plain c (by rw [ht]; exact List.mem_cons_self)
    have hup := upTo_append (c :: t) rest
    rw [htext, ht]
    rw [List.cons_append] at hup ⊢
    simp only [scalarOf, hquote, hbrace, hbracket, or_self, if_false, hup]

theorem objLoop_member (before : Gap) (name : Spelled) (after gap gap' : Gap) (x : Document)
    {rest : List Char} (hrest : EndsLiteral rest) (fuel : ℕ) (out : OrdMap String String) :
    objLoop (fuel + 1) ((Member.mk before name after (.mk gap x gap')).text ++ rest) out =
      objLoop fuel rest (keep out name.str x.scalarText) := by
  have hgap := endsLiteral_gap gap' hrest
  have htail := strFront_spelled name (after.text ++ ':' :: (gap.text ++ (x.text ++ (gap'.text ++ rest))))
  have htoken : token ':' (after.text ++ ':' :: (gap.text ++ (x.text ++ (gap'.text ++ rest)))) =
      some (gap.text ++ (x.text ++ (gap'.text ++ rest))) := token_ws rfl after.ws _
  have hws : skipWs (gap.text ++ (x.text ++ (gap'.text ++ rest))) = x.text ++ (gap'.text ++ rest) := by
    rw [skipWs_gap, skipWs_document]
  have hskip := skip_document x hgap
  have hscalar := scalarOf_document x (gap'.text ++ rest)
  have hquote (cs : List Char) : skipWs ('"' :: cs) = '"' :: cs := by simp [skipWs, isWs]
  simp only [Member.text, Element.text, List.append_assoc, List.cons_append]
  rw [objLoop_gap, text_append, objLoop, hquote]
  simp only [htail, htoken, hws, hskip, hscalar, objLoop_gap]
  simp [Spelled.str]

theorem objLoop_members (ms : List Member) (fuel : ℕ) (rest : List Char) (out : OrdMap String String)
    (hfuel : (membersText ms).length ≤ fuel) :
    objLoop fuel (membersText ms ++ rest) out =
      ms.foldl (fun out m => keep out m.name m.value.scalarText) out := by
  induction ms generalizing fuel out with
  | nil =>
    rw [membersText]
    exact objLoop_close fuel rest out
  | cons m ms ih =>
    obtain ⟨before, name, after, ⟨gap, x, gap'⟩⟩ := m
    have hmore := follows_moreMembers ms rest
    have hlen : 1 < (Member.mk before name after (.mk gap x gap')).text.length := by
      simp [Member.text, Spelled.text]
      omega
    rw [membersText, List.length_append] at hfuel
    obtain ⟨fuel, rfl⟩ : ∃ f, fuel = f + 1 := ⟨fuel - 1, by omega⟩
    rw [membersText, List.append_assoc, objLoop_member before name after gap gap' x hmore.ends]
    cases ms with
    | nil =>
      rw [moreMembersText]
      exact objLoop_close fuel rest _
    | cons m ms =>
      rw [moreMembersText_cons, List.length_cons] at hfuel
      obtain ⟨fuel, rfl⟩ : ∃ f, fuel = f + 1 := ⟨fuel - 1, by omega⟩
      rw [moreMembersText_cons, List.cons_append, objLoop_comma, ih fuel _ (by omega)]
      rfl

theorem arrLoop_element (before : Gap) (x : Document) (after : Gap) {rest : List Char}
    (hrest : EndsLiteral rest) (fuel room : ℕ) :
    arrLoop (fuel + 1) (room + 1) ((Element.mk before x after).text ++ rest) =
      x.text :: arrLoop fuel room rest := by
  have hskip := skip_document x (endsLiteral_gap after hrest)
  have hup := upTo_append x.text (after.text ++ rest)
  have hws := skipWs_document x (after.text ++ rest)
  obtain ⟨c, t, htext, hc⟩ := document_head x
  simp only [isDelimiter, Bool.or_eq_false_iff, beq_eq_false_iff_ne] at hc
  simp only [Element.text, List.append_assoc]
  rw [arrLoop_gap]
  rw [htext, List.cons_append] at hskip hup hws ⊢
  simp only [arrLoop, hws, if_neg hc.1.1.1, if_neg hc.1.2, hskip, hup, arrLoop_gap]

theorem arrLoop_elements (xs : List Element) (fuel room : ℕ) (rest : List Char)
    (hfuel : (elementsText xs).length ≤ fuel) :
    arrLoop fuel room (elementsText xs ++ rest) = (xs.take room).map fun x => x.value.text := by
  induction xs generalizing fuel room with
  | nil =>
    rw [List.take_nil, elementsText]
    exact arrLoop_close fuel room rest
  | cons x xs ih =>
    obtain ⟨before, x, after⟩ := x
    have hmore := follows_moreElements xs rest
    obtain ⟨c, t, htext, -⟩ := document_head x
    have hlen : 0 < (Element.mk before x after).text.length := by
      simp [Element.text, htext]
    rw [elementsText, List.length_append] at hfuel
    obtain ⟨fuel, rfl⟩ : ∃ f, fuel = f + 1 := ⟨fuel - 1, by omega⟩
    cases room with
    | zero => rfl
    | succ room =>
      rw [elementsText, List.append_assoc, arrLoop_element before x after hmore.ends,
        List.take_succ_cons, List.map_cons]
      congr 1
      cases xs with
      | nil =>
        rw [List.take_nil, moreElementsText]
        exact arrLoop_close fuel room rest
      | cons y ys =>
        rw [moreElementsText_cons, List.length_cons] at hfuel
        obtain ⟨fuel, rfl⟩ : ∃ f, fuel = f + 1 := ⟨fuel - 1, by omega⟩
        rw [moreElementsText_cons, List.cons_append, arrLoop_comma, ih fuel room (by omega)]

/-- The kind of a value. -/
def documentKind : Document → Kind
  | .null => .null
  | .bool _ => .scalar
  | .number _ => .scalar
  | .string _ => .str
  | .array _ _ => .array
  | .object _ _ => .object

theorem kindAt_document (x : Document) {c : Char} {t : List Char} (htext : x.text = c :: t) :
    kindAt c (c :: t) = documentKind x := by
  have hliteral : IsLiteral x.text → x.text ≠ "null".toList → kindAt c (c :: t) = .scalar := by
    intro hx hne
    obtain ⟨hquote, hbrace, hbracket, -⟩ := hx.plain c (htext ▸ List.mem_cons_self)
    rw [htext] at hne
    simp only [kindAt, if_neg hquote, if_neg hbrace, if_neg hbracket]
    rw [if_neg fun h => hne h.2]
  cases x with
  | null =>
    cases htext
    rfl
  | bool b => exact hliteral (isLiteral_bool b) (by cases b <;> decide)
  | number n => exact hliteral (isLiteral_numeral n) (numeral_ne_null n)
  | string s =>
    cases htext
    rfl
  | array gap elems =>
    cases htext
    rfl
  | object gap members =>
    cases htext
    rfl

theorem span_document (d : Element) (key : String) :
    match d.find key with
    | none => span d.text key = none
    | some x => ∃ b, span d.text key = some (documentKind x, x.text ++ b, x.text) := by
  have hfind := find_document d key
  cases hx : d.find key with
  | none =>
    rw [hx] at hfind
    simp [span, hfind]
  | some x =>
    rw [hx] at hfind
    obtain ⟨b, hb, hfind⟩ := hfind
    have hskip := skip_document x hb
    have hup := upTo_append x.text b
    obtain ⟨c, t, htext, hc⟩ := document_head x
    have hkind := kindAt_document x htext
    rw [htext, List.cons_append] at hskip hup hfind
    refine ⟨b, ?_⟩
    simp [span, hfind, hskip, hup, htext, hkind]

theorem jsonObj_document (d : Element) (key : String) :
    jsonObj d.text key =
      match d.find key with
      | some (.object _ members) => scalars members
      | _ => OrdMap.empty := by
  have hspan := span_document d key
  rw [jsonObj]
  cases hx : d.find key with
  | none =>
    rw [hx] at hspan
    rw [hspan]
  | some x =>
    rw [hx] at hspan
    obtain ⟨b, hspan⟩ := hspan
    rw [hspan]
    cases x with
    | object gap members =>
      change objLoop _ (gap.text ++ membersText members ++ b) OrdMap.empty = _
      rw [List.append_assoc, objLoop_gap, objLoop_members members _ b _ (by simp [Document.text]; omega)]
      refine congrArg (fun f => members.foldl f OrdMap.empty) (funext fun out => funext fun m => ?_)
      cases hscalar : m.value.scalarText with
      | none => rfl
      | some t => simp only [keep, String.isEmpty_iff]
    | _ => rfl

theorem jsonArrObjects_document (d : Element) (key : String) :
    jsonArrObjects d.text key =
      match d.find key with
      | some (.array _ elems) => (elems.take arrayCap).map fun x => x.value.text
      | _ => [] := by
  have hspan := span_document d key
  rw [jsonArrObjects]
  cases hx : d.find key with
  | none =>
    rw [hx] at hspan
    rw [hspan]
  | some x =>
    rw [hx] at hspan
    obtain ⟨b, hspan⟩ := hspan
    rw [hspan]
    cases x with
    | array gap elems =>
      change arrLoop _ arrayCap (gap.text ++ elementsText elems ++ b) = _
      rw [List.append_assoc, arrLoop_gap, arrLoop_elements elems _ _ b (by simp [Document.text]; omega)]
    | _ => rfl

/-- The accessors read a document as what it means, however it is written. -/
theorem document_scanned (d : Element) (key : String) :
    jsonStr d.text key = (d.find key).bind Document.asText ∧
    jsonObj d.text key =
      (match d.find key with
        | some (.object _ members) => scalars members
        | _ => OrdMap.empty) ∧
    jsonArrObjects d.text key =
      (match d.find key with
        | some (.array _ elems) => (elems.take arrayCap).map fun x => x.value.text
        | _ => []) :=
  ⟨jsonStr_document d key, jsonObj_document d key, jsonArrObjects_document d key⟩

end Scan

end GbfrLan.Json
