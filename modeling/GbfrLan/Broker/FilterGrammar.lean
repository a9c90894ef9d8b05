import Mathlib.Data.List.TakeWhile
import GbfrLan.Broker.LobbyFilter

/-!
# The grammar of filters

A text is spelled as a sequence of clauses when it consists of them, with the word `and` between two
of them and white space around the tokens. The parser finds these clauses and no others.
-/
namespace GbfrLan.Broker.LobbyFilter
open Lib Json

/-- White space between tokens. -/
def Gap (w : List Char) : Prop := ∀ c ∈ w, isAsciiWs c = true

/-- A bare token. -/
def Word (tok : List Char) : Prop := tok ≠ [] ∧ ∀ c ∈ tok, isAsciiWs c = false

/-- Nothing follows, or white space. -/
def Breaks (rest : List Char) : Prop := ∀ c ∈ rest.head?, isAsciiWs c = true

/-- The text of a value inside its quotes. -/
def escape (value : List Char) : List Char :=
  value.flatMap fun c => if c = '\x27' then ['\x27', '\x27'] else [c]

/-- A value in quotes, or a bare token that does not look like one. -/
def ValueText (text value rest : List Char) : Prop :=
  (text = '\x27' :: escape value ++ ['\x27'] ∧ rest.head? ≠ some '\x27') ∨
    (text = value ∧ Word value ∧ value.head? ≠ some '\x27' ∧ Breaks rest)

/-- The key, the operator and the value of a clause as they are written. -/
abbrev Part := List Char × Op × List Char

/-- The text of a clause in front of what follows it. -/
def ClauseText (p : Part) (text rest : List Char) : Prop :=
  ∃ w₁ w₂ value, text = p.1 ++ w₁ ++ p.2.1.name ++ w₂ ++ value ∧ Word p.1 ∧ p.1 ≠ "or".toList ∧
    (Gap w₁ ∧ w₁ ≠ []) ∧ (Gap w₂ ∧ w₂ ≠ []) ∧ ValueText value p.2.2 rest

/-- The clauses of a text, and whether nothing but white space stands where one could follow. -/
inductive Spelled : List Char → List Part → Bool → Prop
  | nothing {w : List Char} (hw : Gap w) : Spelled w [] true
  | last {w text rest : List Char} {p : Part} (hw : Gap w) (hp : ClauseText p text rest)
      (hrest : Gap rest) : Spelled (w ++ (text ++ rest)) [p] false
  | more {w text w' rest : List Char} {p : Part} {ps : List Part} {cut : Bool} (hw : Gap w)
      (hp : ClauseText p text (w' ++ ("and".toList ++ rest))) (hw' : Gap w') (hbreak : Breaks rest)
      (hrest : Spelled rest ps cut) :
      Spelled (w ++ (text ++ (w' ++ ("and".toList ++ rest)))) (p :: ps) cut

/-! ### Tokens -/

theorem Gap.append {w w' : List Char} (h : Gap w) (h' : Gap w') : Gap (w ++ w') := by
  intro c hc
  exact (List.mem_append.mp hc).elim (h c) (h' c)

theorem Gap.breaks {w rest : List Char} (h : Gap w) (hne : w ≠ []) : Breaks (w ++ rest) := by
  obtain ⟨c, w, rfl⟩ := List.exists_cons_of_ne_nil hne
  intro d hd
  obtain rfl : c = d := by simpa using hd
  exact h c List.mem_cons_self

theorem skipWs_append {w : List Char} (h : Gap w) (cs : List Char) : skipWs (w ++ cs) = skipWs cs := by
  induction w with
  | nil => rfl
  | cons c w ih =>
    have hc : isAsciiWs c = true := h c List.mem_cons_self
    rw [List.cons_append, skipWs, List.dropWhile_cons_of_pos hc]
    exact ih fun d hd => h d (List.mem_cons_of_mem _ hd)

/-- What stands in front of the next token is white space. -/
theorem exists_gap (cs : List Char) : ∃ w, Gap w ∧ cs = w ++ skipWs cs :=
  ⟨cs.takeWhile isAsciiWs, fun _ hc => List.mem_takeWhile_imp hc,
    (List.takeWhile_append_dropWhile).symm⟩

theorem skipWs_eq_nil_iff {cs : List Char} : skipWs cs = [] ↔ Gap cs :=
  List.dropWhile_eq_nil_iff

theorem head?_skipWs {cs : List Char} {c : Char} (h : (skipWs cs).head? = some c) :
    isAsciiWs c = false := by
  have hnot := List.head?_dropWhile_not isAsciiWs cs
  rw [skipWs] at h
  rw [h] at hnot
  simpa using hnot

theorem skipWs_of_head {cs : List Char} (h : ∀ c ∈ cs.head?, isAsciiWs c = false) :
    skipWs cs = cs := by
  cases cs with
  | nil => rfl
  | cons c cs => exact List.dropWhile_cons_of_neg (by simp [h c rfl])

theorem Word.head {tok rest : List Char} (h : Word tok) :
    ∀ c ∈ (tok ++ rest).head?, isAsciiWs c = false := by
  obtain ⟨c, tok, rfl⟩ := List.exists_cons_of_ne_nil h.1
  intro d hd
  obtain rfl : c = d := by simpa using hd
  exact h.2 c List.mem_cons_self

theorem takeBare_none_iff {cs : List Char} : takeBare cs = none ↔ Gap cs := by
  rw [← skipWs_eq_nil_iff]
  unfold takeBare
  cases hskip : skipWs cs with
  | nil => simp
  | cons c rest =>
    have hc : isAsciiWs c = false := head?_skipWs (by rw [hskip]; rfl)
    simp [hc]

theorem takeBare_some_iff {cs tok rest : List Char} :
    takeBare cs = some (tok, rest) ↔
      ∃ w, Gap w ∧ cs = w ++ (tok ++ rest) ∧ Word tok ∧ Breaks rest := by
  constructor
  · intro h
    obtain ⟨w, hw, hcs⟩ := exists_gap cs
    unfold takeBare at h
    simp only at h
    split at h
    · cases h
    · rename_i hne
      simp only [Option.some.injEq, Prod.mk.injEq] at h
      obtain ⟨rfl, rfl⟩ := h
      refine ⟨w, hw, ?_, ⟨hne, fun c hc => ?_⟩, fun c hc => ?_⟩
      · rw [List.takeWhile_append_dropWhile]
        exact hcs
      · simpa using List.mem_takeWhile_imp hc
      · have hnot := List.head?_dropWhile_not (fun c => !isAsciiWs c) (skipWs cs)
        rw [Option.mem_def.mp hc] at hnot
        simpa using hnot
  · rintro ⟨w, hw, rfl, htok, hbreak⟩
    have hskip : skipWs (w ++ (tok ++ rest)) = tok ++ rest := by
      rw [skipWs_append hw, skipWs_of_head htok.head]
    have htake : (tok ++ rest).takeWhile (fun c => !isAsciiWs c) = tok := by
      rw [List.takeWhile_append_of_pos fun c hc => by simp [htok.2 c hc]]
      cases rest with
      | nil => simp
      | cons c rest => simp [hbreak c rfl]
    have hdrop : (tok ++ rest).dropWhile (fun c => !isAsciiWs c) = rest := by
      rw [List.dropWhile_append_of_pos fun c hc => by simp [htok.2 c hc]]
      cases rest with
      | nil => rfl
      | cons c rest => simp [hbreak c rfl]
    unfold takeBare
    simp only [hskip, htake, hdrop]
    obtain ⟨c, tok, rfl⟩ := List.exists_cons_of_ne_nil htok.1
    rfl

theorem escape_cons_quote (value : List Char) :
    escape ('\x27' :: value) = '\x27' :: '\x27' :: escape value := rfl

theorem escape_cons {c : Char} (h : c ≠ '\x27') (value : List Char) :
    escape (c :: value) = c :: escape value := by
  simp [escape, h]

theorem quoted_cons {c : Char} (h : c ≠ '\x27') (cs : List Char) :
    quoted (c :: cs) = (quoted cs).map fun (out, rest) => (c :: out, rest) := by
  rw [quoted]
  · exact fun _ heq _ => h heq
  · exact fun heq => h heq

theorem quoted_quote {cs : List Char} (h : cs.head? ≠ some '\x27') :
    quoted ('\x27' :: cs) = some ([], cs) := by
  rw [quoted]
  rintro cs' rfl
  exact h rfl

/-- The quoted text ends at the first quote that is not doubled. -/
theorem quoted_some_iff {cs value rest : List Char} :
    quoted cs = some (value, rest) ↔
      cs = escape value ++ '\x27' :: rest ∧ rest.head? ≠ some '\x27' := by
  constructor
  · intro h
    induction cs using quoted.induct generalizing value with
    | case1 => cases h
    | case2 cs ih =>
      rw [quoted, Option.map_eq_some_iff] at h
      obtain ⟨⟨out, rest'⟩, hout, heq⟩ := h
      obtain ⟨rfl, rfl⟩ := Prod.mk.inj heq
      obtain ⟨rfl, hrest⟩ := ih hout
      exact ⟨rfl, hrest⟩
    | case3 cs hcs =>
      have hhead : cs.head? ≠ some '\x27' := by
        intro heq
        obtain ⟨cs', rfl⟩ := List.head?_eq_some_iff.mp heq
        exact hcs cs' rfl
      rw [quoted_quote hhead] at h
      obtain ⟨rfl, rfl⟩ := Prod.mk.inj (Option.some.inj h)
      exact ⟨rfl, hhead⟩
    | case4 c cs _ hc ih =>
      have hne : c ≠ '\x27' := fun heq => hc heq
      rw [quoted_cons hne, Option.map_eq_some_iff] at h
      obtain ⟨⟨out, rest'⟩, hout, heq⟩ := h
      obtain ⟨rfl, rfl⟩ := Prod.mk.inj heq
      obtain ⟨rfl, hrest⟩ := ih hout
      exact ⟨by rw [escape_cons hne]; rfl, hrest⟩
  · rintro ⟨rfl, hrest⟩
    induction value with
    | nil => exact quoted_quote hrest
    | cons c value ih =>
      by_cases hc : c = '\x27'
      · rw [hc, escape_cons_quote, List.cons_append, List.cons_append, quoted, ih]
        rfl
      · rw [escape_cons hc, List.cons_append, quoted_cons hc, ih]
        rfl

theorem takeValue_quote {w cs : List Char} (h : Gap w) :
    takeValue (w ++ '\x27' :: cs) = quoted cs := by
  have hskip : skipWs (w ++ '\x27' :: cs) = '\x27' :: cs := by
    rw [skipWs_append h, skipWs_of_head]
    intro c hc
    obtain rfl : '\x27' = c := by simpa using hc
    decide
  rw [takeValue, hskip]
  rfl

theorem takeBare_skipWs (cs : List Char) : takeBare (skipWs cs) = takeBare cs := by
  obtain ⟨w, hw, hcs⟩ := exists_gap cs
  have hskip : skipWs (skipWs cs) = skipWs cs := by
    nth_rewrite 2 [hcs]
    exact (skipWs_append hw _).symm
  unfold takeBare
  rw [hskip]

theorem takeValue_bare {cs : List Char} (h : (skipWs cs).head? ≠ some '\x27') :
    takeValue cs = takeBare cs := by
  rw [takeValue, ← takeBare_skipWs]
  split
  · rename_i heq
    exact absurd (by rw [heq]; rfl) h
  · rfl

theorem takeValue_some_iff {cs value rest : List Char} :
    takeValue cs = some (value, rest) ↔
      ∃ w text, Gap w ∧ cs = w ++ (text ++ rest) ∧ ValueText text value rest := by
  constructor
  · intro h
    by_cases hq : (skipWs cs).head? = some '\x27'
    · obtain ⟨w, hw, hcs⟩ := exists_gap cs
      obtain ⟨inner, hinner⟩ := List.head?_eq_some_iff.mp hq
      rw [hinner] at hcs
      rw [hcs, takeValue_quote hw, quoted_some_iff] at h
      refine ⟨w, '\x27' :: escape value ++ ['\x27'], hw, ?_, .inl ⟨rfl, h.2⟩⟩
      rw [hcs, h.1]
      simp
    · rw [takeValue_bare hq, takeBare_some_iff] at h
      obtain ⟨w, hw, rfl, hword, hbreak⟩ := h
      refine ⟨w, value, hw, rfl, .inr ⟨rfl, hword, fun hhead => hq ?_, hbreak⟩⟩
      rw [skipWs_append hw, skipWs_of_head hword.head, List.head?_append, hhead]
      rfl
  · rintro ⟨w, text, hw, rfl, ⟨rfl, hrest⟩ | ⟨rfl, hword, hhead, hbreak⟩⟩
    · have hcs : w ++ ('\x27' :: escape value ++ ['\x27'] ++ rest) =
          w ++ '\x27' :: (escape value ++ '\x27' :: rest) := by simp
      rw [hcs, takeValue_quote hw, quoted_some_iff]
      exact ⟨rfl, hrest⟩
    · rw [takeValue_bare, takeBare_some_iff]
      · exact ⟨w, hw, rfl, hword, hbreak⟩
      · rw [skipWs_append hw, skipWs_of_head hword.head]
        obtain ⟨c, text, rfl⟩ := List.exists_cons_of_ne_nil hword.1
        exact hhead

theorem parseOp_iff {tok : List Char} {op : Op} : parseOp tok = some op ↔ tok = op.name := by
  constructor
  · intro h
    simpa using List.find?_some h
  · rintro rfl
    cases op <;> decide

/-- A bare token, by a test of its characters. -/
theorem word_of_all {tok : List Char} (h : (!tok.isEmpty && tok.all (!isAsciiWs ·)) = true) :
    Word tok := by
  simpa [Word] using h

theorem Op.name_word (op : Op) : Word op.name := by
  apply word_of_all
  cases op <;> decide

/-- Behind a bare token the next token has white space in front. -/
theorem gap_ne_nil {w tok rest : List Char} (hbreak : Breaks (w ++ (tok ++ rest))) (htok : Word tok) :
    w ≠ [] := by
  rintro rfl
  obtain ⟨c, tok, rfl⟩ := List.exists_cons_of_ne_nil htok.1
  have hws := hbreak c rfl
  rw [htok.2 c List.mem_cons_self] at hws
  cases hws

theorem ValueText.gap_ne_nil {w text value rest : List Char} (h : ValueText text value rest)
    (hbreak : Breaks (w ++ (text ++ rest))) : w ≠ [] := by
  rcases h with ⟨rfl, -⟩ | ⟨rfl, hword, -⟩
  · rintro rfl
    exact absurd (hbreak '\x27' rfl) (by decide)
  · exact LobbyFilter.gap_ne_nil hbreak hword

theorem takeClause_some_iff {cs rest : List Char} {p : Part} :
    takeClause cs = some (p, rest) ↔
      ∃ w text, Gap w ∧ cs = w ++ (text ++ rest) ∧ ClauseText p text rest := by
  obtain ⟨keyTok, op, value⟩ := p
  constructor
  · intro h
    unfold takeClause at h
    obtain ⟨⟨key, rest₁⟩, hkey, h⟩ := Option.bind_eq_some_iff.mp h
    simp only at h
    split_ifs at h with hor
    obtain ⟨⟨opTok, rest₂⟩, hopTok, h⟩ := Option.bind_eq_some_iff.mp h
    obtain ⟨op', hop, h⟩ := Option.bind_eq_some_iff.mp h
    obtain ⟨⟨v, rest₃⟩, hvalue, h⟩ := Option.map_eq_some_iff.mp h
    simp only [Prod.mk.injEq] at h
    obtain ⟨⟨rfl, rfl, rfl⟩, rfl⟩ := h
    obtain ⟨w, hw, rfl, hkeyWord, hbreak₁⟩ := takeBare_some_iff.mp hkey
    obtain ⟨w₁, hw₁, rfl, hopWord, hbreak₂⟩ := takeBare_some_iff.mp hopTok
    obtain rfl := parseOp_iff.mp hop
    obtain ⟨w₂, text, hw₂, rfl, htext⟩ := takeValue_some_iff.mp hvalue
    have hw₁' : w₁ ≠ [] := gap_ne_nil hbreak₁ hopWord
    have hw₂' : w₂ ≠ [] := htext.gap_ne_nil hbreak₂
    exact ⟨w, key ++ w₁ ++ op'.name ++ w₂ ++ text, hw, by simp only [List.append_assoc],
      w₁, w₂, text, rfl, hkeyWord, hor, ⟨hw₁, hw₁'⟩, ⟨hw₂, hw₂'⟩, htext⟩
  · rintro ⟨w, text, hw, rfl, w₁, w₂, vtext, rfl, hkey, hor, hw₁, hw₂, hvalue⟩
    have htakeKey : takeBare (w ++ (keyTok ++ w₁ ++ op.name ++ w₂ ++ vtext ++ rest)) =
        some (keyTok, w₁ ++ (op.name ++ (w₂ ++ (vtext ++ rest)))) :=
      takeBare_some_iff.mpr ⟨w, hw, by simp only [List.append_assoc], hkey, hw₁.1.breaks hw₁.2⟩
    have htakeOp : takeBare (w₁ ++ (op.name ++ (w₂ ++ (vtext ++ rest)))) =
        some (op.name, w₂ ++ (vtext ++ rest)) :=
      takeBare_some_iff.mpr ⟨w₁, hw₁.1, rfl, op.name_word, hw₂.1.breaks hw₂.2⟩
    have htakeValue : takeValue (w₂ ++ (vtext ++ rest)) = some (value, rest) :=
      takeValue_some_iff.mpr ⟨w₂, vtext, hw₂.1, rfl, hvalue⟩
    unfold takeClause
    rw [htakeKey, Option.bind_some]
    simp only
    rw [if_neg hor, htakeOp, Option.bind_some]
    simp only
    rw [parseOp_iff.mpr rfl, Option.bind_some, htakeValue]
    rfl

/-! ### Sequences of clauses -/

theorem word_and : Word "and".toList := word_of_all (by decide)

/-- A text with something in it starts with a clause, as the parser finds it. -/
theorem Spelled.cases {cs : List Char} {ps : List Part} {cut : Bool} (h : Spelled cs ps cut) :
    (Gap cs ∧ ps = [] ∧ cut = true) ∨ ∃ p rest, takeClause cs = some (p, rest) ∧
      ((takeBare rest = none ∧ ps = [p] ∧ cut = false) ∨
        ∃ rest' ps', takeBare rest = some ("and".toList, rest') ∧ Spelled rest' ps' cut ∧
          ps = p :: ps') := by
  cases h with
  | nothing hw => exact .inl ⟨hw, rfl, rfl⟩
  | @last w text rest p hw hp hrest =>
    exact .inr ⟨p, rest, takeClause_some_iff.mpr ⟨w, text, hw, rfl, hp⟩,
      .inl ⟨takeBare_none_iff.mpr hrest, rfl, rfl⟩⟩
  | @more w text w' rest p ps cut hw hp hw' hbreak hrest =>
    exact .inr ⟨p, _, takeClause_some_iff.mpr ⟨w, text, hw, rfl, hp⟩,
      .inr ⟨rest, ps, takeBare_some_iff.mpr ⟨w', hw', rfl, word_and, hbreak⟩, hrest, rfl⟩⟩

theorem spelled_one {cs rest : List Char} {p : Part} (h : takeClause cs = some (p, rest))
    (hrest : takeBare rest = none) : Spelled cs [p] false := by
  obtain ⟨w, text, hw, rfl, hp⟩ := takeClause_some_iff.mp h
  exact .last hw hp (takeBare_none_iff.mp hrest)

theorem spelled_cons {cs rest rest' : List Char} {p : Part} {ps : List Part} {cut : Bool}
    (h : takeClause cs = some (p, rest)) (hjoin : takeBare rest = some ("and".toList, rest'))
    (hrest : Spelled rest' ps cut) : Spelled cs (p :: ps) cut := by
  obtain ⟨w, text, hw, rfl, hp⟩ := takeClause_some_iff.mp h
  obtain ⟨w', hw', rfl, -, hbreak⟩ := takeBare_some_iff.mp hjoin
  exact .more hw hp hw' hbreak hrest

theorem takeClause_gap {cs : List Char} (h : Gap cs) : takeClause cs = none := by
  rw [takeClause, takeBare_none_iff.mpr h]
  rfl

theorem takeClause_skipWs (cs : List Char) : takeClause (skipWs cs) = takeClause cs := by
  obtain ⟨w, hw, hcs⟩ := exists_gap cs
  refine Option.ext fun x => ?_
  obtain ⟨p, rest⟩ := x
  rw [takeClause_some_iff, takeClause_some_iff]
  constructor
  · rintro ⟨w', text, hw', hskip, hp⟩
    exact ⟨w ++ w', text, hw.append hw', by rw [hcs, hskip, List.append_assoc], hp⟩
  · rintro ⟨w', text, hw', rfl, hp⟩
    have hword : Word (p.1) := by
      obtain ⟨w₁, w₂, value, -, hword, -⟩ := hp
      exact hword
    have htext : ∀ c ∈ (text ++ rest).head?, isAsciiWs c = false := by
      obtain ⟨w₁, w₂, value, rfl, -⟩ := hp
      simp only [List.append_assoc]
      exact hword.head
    refine ⟨[], text, nofun, ?_, hp⟩
    rw [skipWs_append hw', skipWs_of_head htext]
    rfl

/-- The rest behind a clause is shorter than the text. -/
theorem length_takeClause {cs rest : List Char} {p : Part} (h : takeClause cs = some (p, rest)) :
    rest.length < cs.length := by
  obtain ⟨w, text, hw, rfl, w₁, w₂, value, rfl, hword, -⟩ := takeClause_some_iff.mp h
  have hpos := List.length_pos_iff.mpr hword.1
  simp only [List.length_append]
  omega

theorem length_takeBare {cs tok rest : List Char} (h : takeBare cs = some (tok, rest)) :
    rest.length ≤ cs.length := by
  obtain ⟨w, hw, rfl, -⟩ := takeBare_some_iff.mp h
  simp only [List.length_append]
  omega

/-- A text is spelled in one way. -/
theorem Spelled.unique {cs : List Char} {ps ps' : List Part} {cut cut' : Bool}
    (h : Spelled cs ps cut) (h' : Spelled cs ps' cut') : ps = ps' ∧ cut = cut' := by
  induction hn : cs.length using Nat.strong_induction_on generalizing cs ps ps' with
  | _ n ih =>
    rcases h.cases with ⟨hgap, rfl, rfl⟩ | ⟨p, rest, htake, hrest⟩
    · rcases h'.cases with ⟨-, rfl, rfl⟩ | ⟨p', rest', htake', -⟩
      · exact ⟨rfl, rfl⟩
      · rw [takeClause_gap hgap] at htake'
        cases htake'
    · rcases h'.cases with ⟨hgap, -⟩ | ⟨p', rest', htake', hrest'⟩
      · rw [takeClause_gap hgap] at htake
        cases htake
      · obtain ⟨rfl, rfl⟩ : p = p' ∧ rest = rest' := by
          rw [htake, Option.some.injEq, Prod.mk.injEq] at htake'
          exact htake'
        rcases hrest with ⟨hnone, rfl, rfl⟩ | ⟨more, qs, hjoin, hmore, rfl⟩
        · rcases hrest' with ⟨-, rfl, rfl⟩ | ⟨more', qs', hjoin', -⟩
          · exact ⟨rfl, rfl⟩
          · rw [hnone] at hjoin'
            cases hjoin'
        · rcases hrest' with ⟨hnone, -⟩ | ⟨more', qs', hjoin', hmore', rfl⟩
          · rw [hnone] at hjoin
            cases hjoin
          · rw [hjoin, Option.some.injEq, Prod.mk.injEq] at hjoin'
            obtain ⟨-, rfl⟩ := hjoin'
            have hlt : more.length < n := by
              have h1 := length_takeClause htake
              have h2 := length_takeBare hjoin
              omega
            obtain ⟨rfl, rfl⟩ := ih _ hlt hmore hmore' rfl
            exact ⟨rfl, rfl⟩

/-! ### The loop -/

/-- The clause of a part, when its key is known and accepts the operator and the value. -/
def clauseOf (p : Part) : Option (Key × Op × String) :=
  (parseKey p.1).bind fun key =>
    if clauseSupported key p.2.1 (String.ofList p.2.2) then some (key, p.2.1, String.ofList p.2.2)
    else none

def Clause.triple (c : Clause) : Key × Op × String := (c.key, c.op, c.value)

theorem Filter.add_of_clause {f : Filter} {p : Part} {t : Key × Op × String} (raw : String)
    (h : clauseOf p = some t) :
    (f.add (parseKey p.1) p.2.1 (String.ofList p.2.2) raw).unsupported = f.unsupported ∧
      (f.add (parseKey p.1) p.2.1 (String.ofList p.2.2) raw).clauses.map Clause.triple =
        t :: f.clauses.map Clause.triple := by
  obtain ⟨key, hkey, hsome⟩ := Option.bind_eq_some_iff.mp h
  split_ifs at hsome with hs
  simp only [Option.some.injEq] at hsome
  rw [hkey, ← hsome]
  simp [Filter.add, hs, Clause.triple]

theorem Filter.add_of_none {f : Filter} {p : Part} (raw : String) (h : clauseOf p = none) :
    (f.add (parseKey p.1) p.2.1 (String.ofList p.2.2) raw).unsupported ≠ [] := by
  unfold clauseOf at h
  cases hkey : parseKey p.1 with
  | none => simp [Filter.add]
  | some key =>
    rw [hkey, Option.bind_some] at h
    split_ifs at h with hs
    simp [Filter.add, hs]

/-- One turn of the loop at a clause. -/
theorem parseLoop_clause {fuel : ℕ} {cs rest : List Char} {p : Part}
    (h : takeClause cs = some (p, rest)) : ∃ raw tail,
      parseLoop (fuel + 1) cs = Filter.add (match takeBare rest with
        | none => ⟨[], []⟩
        | some (join, rest) => if join = "and".toList then parseLoop fuel rest else ⟨[], [tail]⟩)
        (parseKey p.1) p.2.1 (String.ofList p.2.2) raw := by
  have hne : skipWs cs ≠ [] := by
    intro hnil
    rw [takeClause_gap (skipWs_eq_nil_iff.mp hnil)] at h
    cases h
  rw [← takeClause_skipWs] at h
  rw [parseLoop]
  simp only [if_neg hne, h]
  exact ⟨_, _, rfl⟩

/-- The loop keeps the supported clauses of a spelled text, and reports each other one. -/
theorem parseLoop_of_spelled {fuel : ℕ} {cs : List Char} {ps : List Part} {cut : Bool}
    (h : Spelled cs ps cut) (hfuel : cs.length < fuel) :
    ((parseLoop fuel cs).unsupported = [] ↔ ∀ p ∈ ps, (clauseOf p).isSome = true) ∧
      ((∀ p ∈ ps, (clauseOf p).isSome = true) →
        (parseLoop fuel cs).clauses.map Clause.triple = ps.filterMap clauseOf) := by
  induction fuel generalizing cs ps with
  | zero => omega
  | succ fuel ih =>
    rcases h.cases with ⟨hgap, rfl, rfl⟩ | ⟨p, rest, htake, hrest⟩
    · simp [parseLoop, skipWs_eq_nil_iff.mpr hgap]
    · obtain ⟨raw, tail, hloop⟩ := @parseLoop_clause fuel cs rest p htake
      -- What stands behind the clause, and the loop on it.
      obtain ⟨f, qs, hf, hps, hunsupported, hclauses⟩ : ∃ (f : Filter) (qs : List Part),
          parseLoop (fuel + 1) cs =
              f.add (parseKey p.1) p.2.1 (String.ofList p.2.2) raw ∧ ps = p :: qs ∧
            (f.unsupported = [] ↔ ∀ q ∈ qs, (clauseOf q).isSome = true) ∧
            ((∀ q ∈ qs, (clauseOf q).isSome = true) →
              f.clauses.map Clause.triple = qs.filterMap clauseOf) := by
        rcases hrest with ⟨hnone, rfl, rfl⟩ | ⟨more, qs, hjoin, hmore, rfl⟩
        · exact ⟨⟨[], []⟩, [], by rw [hloop, hnone], rfl, by simp, by simp⟩
        · have hlen : more.length < fuel := by
            have h1 := length_takeClause htake
            have h2 := length_takeBare hjoin
            omega
          refine ⟨parseLoop fuel more, qs, by rw [hloop, hjoin]; rfl, rfl, ih hmore hlen⟩
      rw [hf, hps]
      cases hclause : clauseOf p with
      | none =>
        have hadd := Filter.add_of_none (f := f) raw hclause
        simp [hadd, hclause]
      | some t =>
        obtain ⟨hadd, hadd'⟩ := Filter.add_of_clause (f := f) raw hclause
        rw [hadd, hadd', hunsupported]
        simp only [List.forall_mem_cons, hclause, Option.isSome_some, true_and, List.filterMap_cons]
        exact fun hall => by rw [hclauses hall]

/-- A text from which nothing is reported is spelled. -/
theorem spelled_of_parseLoop {fuel : ℕ} {cs : List Char} (hfuel : cs.length < fuel)
    (h : (parseLoop fuel cs).unsupported = []) : ∃ ps cut, Spelled cs ps cut := by
  induction fuel generalizing cs with
  | zero => omega
  | succ fuel ih =>
    cases htake : takeClause cs with
    | none =>
      by_cases hnil : skipWs cs = []
      · exact ⟨[], true, .nothing (skipWs_eq_nil_iff.mp hnil)⟩
      · rw [parseLoop] at h
        simp [hnil, takeClause_skipWs, htake] at h
    | some x =>
      obtain ⟨p, rest⟩ := x
      obtain ⟨raw, tail, hloop⟩ := @parseLoop_clause fuel cs rest p htake
      rw [hloop] at h
      cases hclause : clauseOf p with
      | none => exact absurd h (Filter.add_of_none raw hclause)
      | some t =>
        rw [(Filter.add_of_clause raw hclause).1] at h
        cases hjoin : takeBare rest with
        | none => exact ⟨[p], false, spelled_one htake hjoin⟩
        | some y =>
          obtain ⟨join, more⟩ := y
          rw [hjoin] at h
          simp only at h
          split_ifs at h with hand
          · rw [hand] at hjoin
            have hlen : more.length < fuel := by
              have h1 := length_takeClause htake
              have h2 := length_takeBare hjoin
              omega
            obtain ⟨ps, cut, hspelled⟩ := ih hlen h
            exact ⟨p :: ps, cut, spelled_cons htake hjoin hspelled⟩

/-- Nothing is reported exactly when the text is spelled with clauses that are all supported. -/
theorem unsupported_nil_iff (s : String) :
    (parseFilter s).unsupported = [] ↔
      ∃ ps cut, Spelled s.toList ps cut ∧ ∀ p ∈ ps, (clauseOf p).isSome = true := by
  constructor
  · intro h
    obtain ⟨ps, cut, hspelled⟩ := spelled_of_parseLoop (Nat.lt_succ_self _) h
    exact ⟨ps, cut, hspelled, (parseLoop_of_spelled hspelled (Nat.lt_succ_self _)).1.mp h⟩
  · rintro ⟨ps, cut, hspelled, hall⟩
    exact (parseLoop_of_spelled hspelled (Nat.lt_succ_self _)).1.mpr hall

end GbfrLan.Broker.LobbyFilter
