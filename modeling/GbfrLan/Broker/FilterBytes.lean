import GbfrLan.Json.ByteSafe
import GbfrLan.Broker.FilterGrammar

/-!
# The filter scanner on bytes

`Scanner` of `lobby_filter.rs` as it runs: an index into the bytes of the filter, with slices of the
text that panic inside a character. It stops only at ASCII white space and quotes, so it comes to an
end without a panic and reads what the scanner on characters does.
-/
namespace GbfrLan.Broker.FilterScan
open Lib Json
open Json.ByteScan (At byte encode runWhile textSlice eq_byte_iff)
open Http (trim)
open LobbyFilter (Filter parseOp parseKey)

/-- `u8::is_ascii_whitespace`. -/
def isAsciiWs (x : UInt8) : Bool :=
  x == byte ' ' || x == byte '\t' || x == byte '\n' || x == byte '\x0c' || x == byte '\r'

/-- `char_indices`. -/
def charIndices : ℕ → List Char → List (ℕ × Char)
  | _, [] => []
  | off, c :: cs => (off, c) :: charIndices (off + (String.utf8EncodeChar c).length) cs

/-- The loop over a quoted value, and the index behind its closing quote. -/
def quoted (base : ℕ) : List (ℕ × Char) → Outcome (List Char × ℕ)
  | [] => .none
  | (_, '\x27') :: (_, '\x27') :: it => do
      let (out, i) ← quoted base it
      .ok ('\x27' :: out, i)
  | (off, '\x27') :: _ => .ok ([], base + off + (String.utf8EncodeChar '\x27').length)
  | (_, c) :: it => do
      let (out, i) ← quoted base it
      .ok (c :: out, i)

section
variable (b : List UInt8)

def skipWs (i : ℕ) : ℕ := runWhile b isAsciiWs i

def takeBare (i : ℕ) : Outcome (String × ℕ) :=
  let start := skipWs b i
  let stop := runWhile b (fun x => !isAsciiWs x) start
  if start = stop then .none
  else do
    let tok ← textSlice b start stop
    .ok (tok, stop)

def takeValue (i : ℕ) : Outcome (String × ℕ) := do
  let i := skipWs b i
  let rest ← textSlice b i b.length
  if rest.toList.head? = some '\x27' then
    let inner ← textSlice b (i + 1) b.length
    let (out, i) ← quoted (i + 1) (charIndices 0 inner.toList)
    .ok (String.ofList out, i)
  else takeBare b i

/-- A filter that reports the text from here on. -/
def reportTail (start : ℕ) : Outcome Filter := do
  let tail ← textSlice b start b.length
  .ok ⟨[], [String.ofList (trim tail.toList)]⟩

/-- Behind a clause: the end, another clause behind `and`, or text to report. -/
def behind (next : ℕ → Outcome Filter) (start i : ℕ) : Outcome Filter := do
  let i := skipWs b i
  if b.length ≤ i then .ok ⟨[], []⟩
  else
    match ← (takeBare b i).option with
    | none => .ok ⟨[], []⟩
    | some (join, i) => if join = "and" then next i else reportTail b start

/-- The loop of `parse_filter`, with a count of its turns. -/
def parseLoop : ℕ → ℕ → Outcome Filter
  | 0, _ => .stuck
  | fuel + 1, i => do
      let start := skipWs b i
      if b.length ≤ start then .ok ⟨[], []⟩
      else
        match ← (takeBare b start).option with
        | none => .ok ⟨[], []⟩
        | some (keyTok, i) =>
            if keyTok = "or" then reportTail b start
            else
              match ← (takeBare b i).option with
              | none => reportTail b start
              | some (opTok, i) =>
                  match parseOp opTok.toList with
                  | none => reportTail b start
                  | some op =>
                      match ← (takeValue b i).option with
                      | none => reportTail b start
                      | some (value, i) => do
                          let raw ← textSlice b start i
                          let rest ← behind b (parseLoop fuel) start i
                          .ok (rest.add (parseKey keyTok.toList) op value
                            (String.ofList (trim raw.toList)))

end

def parseFilter (s : String) : Outcome Filter :=
  parseLoop (encode s.toList) ((encode s.toList).length + 1) 0

/-! ### Agreement with the scanner on characters -/

section
variable {b : List UInt8} {i : ℕ} {cs rest : List Char}

theorem isAsciiWs_mem {c : Char} {x : UInt8} (hx : x ∈ String.utf8EncodeChar c) :
    isAsciiWs x = LobbyFilter.isAsciiWs c := by
  have hiff (d : Char) (hd : d.toNat < 0x80) : (x == byte d) = (c == d) := by
    rw [Bool.eq_iff_iff, beq_iff_eq, beq_iff_eq]
    exact eq_byte_iff hx hd
  rw [isAsciiWs, LobbyFilter.isAsciiWs, hiff ' ' (by decide), hiff '\t' (by decide),
    hiff '\n' (by decide), hiff '\x0c' (by decide), hiff '\r' (by decide)]

/-- The same token, and the index in front of the same rest. -/
def Reads (b : List UInt8) (x : String × ℕ) (y : List Char × List Char) : Prop :=
  x.1 = String.ofList y.1 ∧ At b x.2 y.2

theorem at_skipWs (h : At b i cs) : At b (skipWs b i) (LobbyFilter.skipWs cs) :=
  h.runWhile fun _ _ hx => isAsciiWs_mem hx

theorem at_end (h : At b i cs) : At b b.length [] := by
  have h' : At b i (cs ++ []) := by rwa [List.append_nil]
  rw [h.length]
  exact h'.append

theorem length_le_iff (h : At b i cs) : b.length ≤ i ↔ cs = [] := by
  have hle := ByteScan.length_le_encode cs
  rw [h.length]
  constructor
  · intro hlen
    exact List.length_eq_zero_iff.mp (by omega)
  · rintro rfl
    exact Nat.le_refl _

theorem takeBare_agrees (h : At b i cs) :
    Outcome.Agrees (Reads b) (takeBare b i) (LobbyFilter.takeBare cs) := by
  have hstart := at_skipWs h
  have hstop : At b (runWhile b (fun x => !isAsciiWs x) (skipWs b i))
      ((LobbyFilter.skipWs cs).dropWhile fun c => !LobbyFilter.isAsciiWs c) :=
    hstart.runWhile fun c x hx => by rw [isAsciiWs_mem hx]
  set tok := (LobbyFilter.skipWs cs).takeWhile fun c => !LobbyFilter.isAsciiWs c with htok
  set rest := (LobbyFilter.skipWs cs).dropWhile fun c => !LobbyFilter.isAsciiWs c with hrest
  have hsplit : LobbyFilter.skipWs cs = tok ++ rest := List.takeWhile_append_dropWhile.symm
  rw [hsplit] at hstart
  have hlen := hstart.length
  have hlen' := hstop.length
  rw [ByteScan.encode_append, List.length_append] at hlen
  have hpos := ByteScan.length_le_encode tok
  unfold takeBare LobbyFilter.takeBare
  simp only [← htok, ← hrest]
  by_cases hnil : tok = []
  · have hzero : (encode tok).length = 0 := by
      rw [hnil]
      rfl
    rw [if_pos (by omega), hnil]
    exact .none
  · have hone := List.length_pos_iff.mpr hnil
    rw [if_neg (by omega), hstart.textSlice hstop]
    obtain ⟨c, tok', htok'⟩ := List.exists_cons_of_ne_nil hnil
    rw [htok']
    exact .ok ⟨rfl, hstop⟩

theorem quoted_cons {base off : ℕ} {c : Char} (hc : c ≠ '\x27') (it : List (ℕ × Char)) :
    quoted base ((off, c) :: it) = (do
      let (out, i) ← quoted base it
      .ok (c :: out, i)) := by
  rw [quoted]
  · exact fun _ _ _ heq => hc heq
  · exact fun heq => hc heq

/-- Behind each character the index is that of the bytes behind it. -/
theorem quoted_agrees {base off : ℕ} (h : At b (base + off) cs) :
    Outcome.Agrees (fun x y => x.1 = y.1 ∧ At b x.2 y.2) (quoted base (charIndices off cs))
      (LobbyFilter.quoted cs) := by
  have hsize : (String.utf8EncodeChar '\x27').length = 1 := rfl
  have hone {off : ℕ} {c : Char} {cs : List Char} (hat : At b (base + off) (c :: cs)) :
      At b (base + (off + (String.utf8EncodeChar c).length)) cs := by
    rw [← Nat.add_assoc]
    exact hat.next
  have hmap (c : Char) {r : Outcome (List Char × ℕ)} {r' : Option (List Char × List Char)}
      (hr : Outcome.Agrees (fun x y => x.1 = y.1 ∧ At b x.2 y.2) r r') :
      Outcome.Agrees (fun x y => x.1 = y.1 ∧ At b x.2 y.2)
        (r >>= fun x => .ok (c :: x.1, x.2)) (r'.map fun y => (c :: y.1, y.2)) := by
    rcases hr.elim with ⟨rfl, rfl⟩ | ⟨x, y, rfl, rfl, hxy, hat⟩
    · exact .none
    · exact .ok ⟨congrArg (List.cons c) hxy, hat⟩
  induction cs using LobbyFilter.quoted.induct generalizing off with
  | case1 => exact .none
  | case2 cs ih =>
    rw [LobbyFilter.quoted, charIndices, charIndices, quoted]
    exact hmap '\x27' (ih (hone (hone h)))
  | case3 cs hcs =>
    have hhead : cs.head? ≠ some '\x27' := by
      intro heq
      obtain ⟨cs', rfl⟩ := List.head?_eq_some_iff.mp heq
      exact hcs cs' rfl
    rw [LobbyFilter.quoted_quote hhead, charIndices]
    have hat : At b (base + off + 1) cs := h.next_ascii (by decide)
    cases cs with
    | nil => exact .ok ⟨rfl, hat⟩
    | cons c cs =>
      have hc : c ≠ '\x27' := fun heq => hhead (by rw [heq]; rfl)
      rw [charIndices, quoted]
      · exact .ok ⟨rfl, hat⟩
      · exact fun _ _ heq => hc (Prod.mk.inj (List.cons.inj heq).1).2
  | case4 c cs _ hc ih =>
    have hne : c ≠ '\x27' := fun heq => hc heq
    rw [LobbyFilter.quoted_cons hne, charIndices, quoted_cons hne]
    exact hmap c (ih (hone h))

theorem takeValue_agrees (h : At b i cs) :
    Outcome.Agrees (Reads b) (takeValue b i) (LobbyFilter.takeValue cs) := by
  have hskip := at_skipWs h
  have hrest : textSlice b (skipWs b i) b.length = .ok (String.ofList (LobbyFilter.skipWs cs)) := by
    have hfull : At b (skipWs b i) (LobbyFilter.skipWs cs ++ []) := by rwa [List.append_nil]
    exact hfull.textSlice (at_end h)
  unfold takeValue
  simp only [hrest, Outcome.ok_bind, String.toList_ofList]
  by_cases hquote : (LobbyFilter.skipWs cs).head? = some '\x27'
  · obtain ⟨inner, hinner⟩ := List.head?_eq_some_iff.mp hquote
    rw [hinner] at hskip
    have hnext : At b (skipWs b i + 1) inner := hskip.next_ascii (by decide)
    have htext : textSlice b (skipWs b i + 1) b.length = .ok (String.ofList inner) := by
      have hfull : At b (skipWs b i + 1) (inner ++ []) := by rwa [List.append_nil]
      exact hfull.textSlice (at_end h)
    rw [if_pos hquote, htext, LobbyFilter.takeValue, hinner, Outcome.ok_bind, String.toList_ofList]
    simp only
    rcases (@quoted_agrees b inner (skipWs b i + 1) 0 hnext).elim with
      ⟨hnone, hnone'⟩ | ⟨x, y, hx, hy, hxy, hat⟩
    · rw [hnone, hnone']
      exact .none
    · rw [hx, hy]
      exact .ok ⟨congrArg String.ofList hxy, hat⟩
  · rw [if_neg hquote, LobbyFilter.takeValue]
    split
    · rename_i heq
      exact absurd (by rw [heq]; rfl) hquote
    · exact takeBare_agrees hskip

theorem reportTail_eq (h : At b i cs) :
    reportTail b i = .ok ⟨[], [String.ofList (trim cs)]⟩ := by
  have hfull : At b i (cs ++ []) := by rwa [List.append_nil]
  rw [reportTail, hfull.textSlice (at_end h), Outcome.ok_bind, String.toList_ofList]

theorem behind_eq {next : ℕ → Outcome Filter} {f : List Char → Filter} {start : ℕ} {tail : String}
    (h : At b i rest) (htail : reportTail b start = .ok ⟨[], [tail]⟩)
    (hnext : ∀ {i' rest'}, LobbyFilter.takeBare rest = some ("and".toList, rest') →
      At b i' rest' → next i' = .ok (f rest')) :
    behind b next start i = .ok (match LobbyFilter.takeBare rest with
      | none => ⟨[], []⟩
      | some (join, rest) => if join = "and".toList then f rest else ⟨[], [tail]⟩) := by
  have hskip := at_skipWs h
  unfold behind
  simp only
  by_cases hend : LobbyFilter.skipWs rest = []
  · rw [if_pos ((length_le_iff hskip).mpr hend),
      LobbyFilter.takeBare_none_iff.mpr (LobbyFilter.skipWs_eq_nil_iff.mp hend)]
  rw [if_neg (mt (length_le_iff hskip).mp hend)]
  have hjoin := takeBare_agrees hskip
  rw [LobbyFilter.takeBare_skipWs] at hjoin
  rcases hjoin.elim with ⟨hb, hj⟩ | ⟨⟨joinTok, i'⟩, ⟨join, rest'⟩, hb, hj, hjoinTok, hat⟩
  · rw [hb, hj]
    rfl
  simp only at hjoinTok hat
  have hand : joinTok = "and" ↔ join = "and".toList := by
    rw [hjoinTok, ← String.toList_inj, String.toList_ofList]
  rw [hb, hj]
  simp only [Outcome.option_ok, Outcome.ok_bind, hand]
  split_ifs with hjoinAnd
  · exact hnext (hjoinAnd ▸ hj) hat
  · exact htail

/-- Each turn of the loop reads what the one on characters does. -/
theorem parseLoop_eq {fuel fuel' : ℕ} (h : At b i cs) (hfuel : cs.length < fuel)
    (hfuel' : cs.length < fuel') : parseLoop b fuel i = .ok (LobbyFilter.parseLoop fuel' cs) := by
  induction fuel generalizing i cs fuel' with
  | zero => omega
  | succ fuel ih =>
    obtain ⟨fuel', rfl⟩ : ∃ f, fuel' = f + 1 := ⟨fuel' - 1, by omega⟩
    have hstart := at_skipWs h
    have htail := reportTail_eq hstart
    rw [parseLoop, LobbyFilter.parseLoop]
    simp only
    by_cases hnil : LobbyFilter.skipWs cs = []
    · rw [if_pos ((length_le_iff hstart).mpr hnil), if_pos hnil]
    rw [if_neg (mt (length_le_iff hstart).mp hnil), if_neg hnil]
    -- The parts of a clause, one after another; where one is missing, the rest is reported.
    rcases (takeBare_agrees hstart).elim with
      ⟨-, hkey⟩ | ⟨⟨keyTok, i₁⟩, ⟨key, rest₁⟩, hb, hkey, hkeyTok, hat₁⟩
    · refine absurd ?_ hnil
      rw [LobbyFilter.takeBare_none_iff] at hkey
      obtain ⟨w, hw, hcs⟩ := LobbyFilter.exists_gap cs
      rw [LobbyFilter.skipWs_eq_nil_iff, hcs]
      exact hw.append hkey
    simp only at hkeyTok hat₁
    have hor : keyTok = "or" ↔ key = "or".toList := by
      rw [hkeyTok, ← String.toList_inj, String.toList_ofList]
    rw [hb, LobbyFilter.takeClause, hkey]
    simp only [Outcome.option_ok, Outcome.ok_bind, Option.bind_some, hor]
    by_cases hkeyOr : key = "or".toList
    · rw [if_pos hkeyOr, if_pos hkeyOr, htail]
    rw [if_neg hkeyOr, if_neg hkeyOr]
    rcases (takeBare_agrees hat₁).elim with
      ⟨hb₁, hop⟩ | ⟨⟨opTok, i₂⟩, ⟨opText, rest₂⟩, hb₁, hop, hopTok, hat₂⟩
    · rw [hb₁, hop]
      exact htail
    simp only at hopTok hat₂
    rw [hb₁, hop, hopTok]
    simp only [Outcome.option_ok, Outcome.ok_bind, Option.bind_some, String.toList_ofList]
    cases hparse : parseOp opText with
    | none => exact htail
    | some op =>
      simp only [Option.bind_some]
      rcases (takeValue_agrees hat₂).elim with
        ⟨hb₂, hv⟩ | ⟨⟨value, i₃⟩, ⟨text, rest₃⟩, hb₂, hv, hvalue, hat₃⟩
      · rw [hb₂, hv]
        exact htail
      simp only at hvalue hat₃
      have hclause : LobbyFilter.takeClause (LobbyFilter.skipWs cs) =
          some ((key, op, text), rest₃) := by
        rw [LobbyFilter.takeClause, hkey, Option.bind_some]
        simp only [if_neg hkeyOr, hop, hparse, hv, Option.bind_some, Option.map_some]
      have hshort := LobbyFilter.length_takeClause hclause
      obtain ⟨w, clause, -, hcs, -⟩ := LobbyFilter.takeClause_some_iff.mp hclause
      have hraw : textSlice b (skipWs b i) i₃ = .ok (String.ofList ((LobbyFilter.skipWs cs).take
          ((LobbyFilter.skipWs cs).length - rest₃.length))) := by
        rw [← List.append_assoc] at hcs
        rw [hcs] at hstart
        rw [hstart.textSlice hat₃, hcs, List.length_append, Nat.add_sub_cancel, List.take_left]
      rw [hb₂, hv]
      simp only [Outcome.option_ok, Outcome.ok_bind, hraw, hvalue, String.toList_ofList,
        Option.map_some]
      have hbehind := behind_eq hat₃ htail (f := LobbyFilter.parseLoop fuel')
        fun {i' rest'} hj hat' => by
        have hlen := LobbyFilter.length_takeBare hj
        have hskip : (LobbyFilter.skipWs cs).length ≤ cs.length :=
          (List.dropWhile_suffix _).length_le
        exact @ih i' rest' fuel' hat' (by omega) (by omega)
      have hkeyList : keyTok.toList = key := by rw [hkeyTok, String.toList_ofList]
      subst hkeyList
      rw [hbehind]
      rfl

end

/-- The parser on bytes comes to an end without a panic, with the filter of the one on characters. -/
theorem parseFilter_eq (s : String) : parseFilter s = .ok (LobbyFilter.parseFilter s) := by
  have hlen := ByteScan.length_le_encode s.toList
  exact parseLoop_eq (At.zero s.toList) (by omega) (Nat.lt_succ_self _)

end GbfrLan.Broker.FilterScan
