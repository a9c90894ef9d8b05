import GbfrLan.Json.Read
import GbfrLan.Broker.FilterGrammar

/-!
# Documented filters

The module comment of the filter lists the keys, and says that everything else is reported. The
parser knows more spellings than that, and takes a filter that ends with `and`. On the texts of
clauses with documented keys it is the inverse of writing, and the filter means their conjunction.
-/
namespace GbfrLan.Broker.LobbyFilter
open Lib Json

/-! ### Keys -/

/-- The documented spellings of a key. -/
def Key.names : Key → List (List Char)
  | .stringKey n => [stringFamily ++ (toString n.1).toList]
  | .numberKey n => [numberFamily ++ (toString n.1).toList]
  | .memberCount => ["lobby/memberCount".toList]
  | .maxMemberCount => ["lobby/maxMemberCount".toList]
  | .memberCountRemaining => ["lobby/memberCountRemaining".toList]
  | .membershipLock => ["lobby/membershipLock".toList]
  | .amOwner => ["lobby/amOwner".toList]
  | .amMember => ["lobby/amMember".toList]
  | .amServer => ["lobby/amServer".toList]
  | .lobbyId => ["lobbyId".toList, "lobby/lobbyId".toList]

/-- A spelling that only the parser knows: another name, or a number with a sign or a leading zero. -/
def Undocumented (tok : List Char) : Prop :=
  tok = "lobby/currentMemberCount".toList ∨ tok = "LobbyId".toList ∨
    ∃ family ∈ [stringFamily, numberFamily], ∃ c ∈ ['+', '0'], family ++ [c] <+: tok

instance : DecidablePred Undocumented := fun tok =>
  have (family : List Char) : Decidable (∃ c ∈ ['+', '0'], family ++ [c] <+: tok) :=
    List.decidableBEx _ _
  inferInstanceAs (Decidable (_ ∨ _ ∨ _))

theorem keyNumber_some_iff {family tok : List Char} {n : KeyNumber} :
    keyNumber family tok = some n ↔ ∃ rest, tok = family ++ rest ∧ parseU32 rest = some n.1 := by
  obtain ⟨n, hn⟩ := n
  unfold keyNumber
  simp only [Option.bind_eq_some_iff, Text.stripPrefix_some_iff]
  constructor
  · rintro ⟨m, ⟨rest, htok, hrest⟩, hm⟩
    split_ifs at hm with hrange
    simp only [Option.some.injEq, Subtype.mk.injEq] at hm
    exact ⟨rest, htok, hm ▸ hrest⟩
  · rintro ⟨rest, htok, hrest⟩
    exact ⟨n, ⟨rest, htok, hrest⟩, by rw [dif_pos hn]⟩

theorem parseU32_toString {n : ℕ} (hn : n < 2 ^ 32) : parseU32 (toString n).toList = some n := by
  unfold parseU32
  split
  · rename_i ds heq
    exact absurd (heq ▸ List.mem_cons_self) (Text.plus_notMem_toString n)
  · simp only [Text.parseNat_toString]
    simpa using hn

theorem eq_toString_of_parseU32 {rest : List Char} {n : ℕ} (h : parseU32 rest = some n)
    (hplus : rest.head? ≠ some '+') (hzero : rest.head? ≠ some '0') : rest = (toString n).toList := by
  unfold parseU32 at h
  split at h
  · exact absurd rfl hplus
  · obtain ⟨hparse, -⟩ := Option.filter_eq_some_iff.mp h
    exact Text.eq_toString_of_parseNat hparse hzero

/-- A documented spelling is understood. -/
theorem parseKey_of_mem_names {tok : List Char} {key : Key} (h : tok ∈ key.names) :
    parseKey tok = some key := by
  have hnumber (n : KeyNumber) (family : List Char) :
      keyNumber family (family ++ (toString n.1).toList) = some n := by
    have hmax : n.1 ≤ 30 := n.2.2
    exact keyNumber_some_iff.mpr ⟨_, rfl, parseU32_toString (by omega)⟩
  have hother (n : KeyNumber) : keyNumber stringFamily (numberFamily ++ (toString n.1).toList) = none := by
    rw [Option.eq_none_iff_forall_ne_some]
    intro m hm
    obtain ⟨rest, heq, -⟩ := keyNumber_some_iff.mp hm
    have hlen : numberFamily.length = stringFamily.length := by decide
    have hsame : numberFamily = stringFamily := (List.append_inj heq hlen).1
    exact absurd hsame (by decide)
  cases key with
  | stringKey n =>
    rw [List.mem_singleton.mp h, parseKey, hnumber]
    rfl
  | numberKey n =>
    rw [List.mem_singleton.mp h, parseKey, hother, hnumber]
    rfl
  | lobbyId =>
    simp only [Key.names, List.mem_cons, List.not_mem_nil, or_false] at h
    rcases h with rfl | rfl <;> decide
  | _ =>
    rw [List.mem_singleton.mp h]
    decide

theorem parseKey_cases {tok : List Char} {key : Key} (h : parseKey tok = some key) :
    (∃ n, keyNumber stringFamily tok = some n ∧ key = .stringKey n) ∨
      (∃ n, keyNumber numberFamily tok = some n ∧ key = .numberKey n) ∨
        (tok, key) ∈ predefinedKeys := by
  unfold parseKey at h
  simp only [Option.or_eq_some_iff, Option.map_eq_some_iff, List.lookup_eq_some_iff] at h
  rcases h with ⟨n, hn, rfl⟩ | ⟨-, ⟨n, hn, rfl⟩ | ⟨-, l, l', heq, -⟩⟩
  · exact .inl ⟨n, hn, rfl⟩
  · exact .inr (.inl ⟨n, hn, rfl⟩)
  · exact .inr (.inr (heq ▸ by simp))

/-- The decimal digits of the number of a key start neither with a sign nor with a zero. -/
theorem head?_keyNumber (n : KeyNumber) {c : Char} (hc : c ∈ ['+', '0']) :
    (toString n.1).toList.head? ≠ some c := by
  simp only [List.mem_cons, List.not_mem_nil, or_false] at hc
  rcases hc with rfl | rfl
  · exact fun heq => Text.plus_notMem_toString n.1 (List.mem_of_mem_head? heq)
  · rw [Text.toList_toString]
    exact Json.Read.toDigits_head_ne_zero n.2.1

theorem not_undocumented_of_mem_names {tok : List Char} {key : Key} (h : tok ∈ key.names) :
    ¬Undocumented tok := by
  have hlen : ∀ family ∈ [stringFamily, numberFamily], family.length = 10 := by decide
  have hhead : ∀ family ∈ [stringFamily, numberFamily],
      family.head? ≠ some 'l' ∧ family.head? ≠ some 'L' := by decide
  have hfamily (family : List Char) (hmem : family ∈ [stringFamily, numberFamily])
      (n : KeyNumber) : ¬Undocumented (family ++ (toString n.1).toList) := by
    have hne : family ≠ [] := List.ne_nil_of_length_pos (by have := hlen family hmem; omega)
    rintro (heq | heq | ⟨family', hmem', c, hc, rest, heq⟩)
    · have hl := congrArg List.head? heq
      rw [List.head?_append_of_ne_nil _ hne] at hl
      exact (hhead family hmem).1 hl
    · have hl := congrArg List.head? heq
      rw [List.head?_append_of_ne_nil _ hne] at hl
      exact (hhead family hmem).2 hl
    · rw [List.append_assoc] at heq
      obtain ⟨-, hdigits⟩ := List.append_inj heq ((hlen family' hmem').trans (hlen family hmem).symm)
      exact head?_keyNumber n hc (by rw [← hdigits]; rfl)
  cases key with
  | stringKey n => exact List.mem_singleton.mp h ▸ hfamily _ (by simp) n
  | numberKey n => exact List.mem_singleton.mp h ▸ hfamily _ (by simp) n
  | lobbyId =>
    simp only [Key.names, List.mem_cons, List.not_mem_nil, or_false] at h
    rcases h with rfl | rfl <;> decide
  | _ =>
    rw [List.mem_singleton.mp h]
    decide

/-- A spelling that is understood is documented, or of the other kind. -/
theorem mem_names_iff {tok : List Char} {key : Key} (h : parseKey tok = some key) :
    tok ∈ key.names ↔ ¬Undocumented tok := by
  refine ⟨not_undocumented_of_mem_names, fun hgood => ?_⟩
  have hnumber {family : List Char} (hfamily : family ∈ [stringFamily, numberFamily])
      {n : KeyNumber} (hn : keyNumber family tok = some n) :
      tok = family ++ (toString n.1).toList := by
    obtain ⟨rest, rfl, hrest⟩ := keyNumber_some_iff.mp hn
    have hhead {c : Char} (hc : c ∈ ['+', '0']) : rest.head? ≠ some c := by
      intro heq
      obtain ⟨rest', rfl⟩ := List.head?_eq_some_iff.mp heq
      exact hgood (.inr (.inr ⟨family, hfamily, c, hc, rest', by simp⟩))
    rw [eq_toString_of_parseU32 hrest (hhead (by simp)) (hhead (by simp))]
  rcases parseKey_cases h with ⟨n, hn, rfl⟩ | ⟨n, hn, rfl⟩ | hmem
  · exact List.mem_singleton.mpr (hnumber (by simp) hn)
  · exact List.mem_singleton.mpr (hnumber (by simp) hn)
  · have hall : ∀ x ∈ predefinedKeys, ¬Undocumented x.1 → x.1 ∈ x.2.names := by decide
    exact hall _ hmem hgood

/-! ### Filters -/

/-- A clause with a documented key, which accepts the operator and the value. -/
def Documented (p : Part) : Prop :=
  ∃ key, p.1 ∈ Key.names key ∧ clauseSupported key p.2.1 (String.ofList p.2.2) = true

/-- The text of a filter: nothing, or documented clauses with `and` between them. -/
def IsFilter (s : String) : Prop :=
  ∃ ps cut, Spelled s.toList ps cut ∧ (cut = true → ps = []) ∧ ∀ p ∈ ps, Documented p

/-- The parser takes a text exactly when it is a filter, and any other matches no lobby. -/
def Exact (s : String) : Prop :=
  ((parseFilter s).unsupported = [] ↔ IsFilter s) ∧
    (¬IsFilter s → ∀ host l, (parseFilter s).matchesView host l = false)

theorem clauseOf_isSome_iff {p : Part} : (clauseOf p).isSome = true ↔
    ∃ key, parseKey p.1 = some key ∧ clauseSupported key p.2.1 (String.ofList p.2.2) = true := by
  unfold clauseOf
  cases parseKey p.1 with
  | none => simp
  | some key => by_cases h : clauseSupported key p.2.1 (String.ofList p.2.2) <;> simp [h]

theorem documented_iff {p : Part} :
    Documented p ↔ (clauseOf p).isSome = true ∧ ¬Undocumented p.1 := by
  rw [clauseOf_isSome_iff]
  constructor
  · rintro ⟨key, hname, hsupported⟩
    exact ⟨⟨key, parseKey_of_mem_names hname, hsupported⟩, not_undocumented_of_mem_names hname⟩
  · rintro ⟨⟨key, hkey, hsupported⟩, hgood⟩
    exact ⟨key, (mem_names_iff hkey).mpr hgood, hsupported⟩

theorem matchesView_of_unsupported {f : Filter} (h : f.unsupported ≠ []) (host : Host)
    (l : LobbyView) : f.matchesView host l = false := by
  have hempty : f.unsupported.isEmpty = false := List.isEmpty_eq_false_iff.mpr h
  rw [Filter.matchesView, hempty, Bool.false_and]

/-- A text of supported clauses is a filter unless it ends with `and` or has an undocumented key. -/
theorem isFilter_iff_of_spelled {s : String} {ps : List Part} {cut : Bool}
    (h : Spelled s.toList ps cut) (hall : ∀ p ∈ ps, (clauseOf p).isSome = true) :
    IsFilter s ↔ (cut = true → ps = []) ∧ ∀ p ∈ ps, ¬Undocumented p.1 := by
  constructor
  · rintro ⟨ps', cut', hspelled, hcut, hdocumented⟩
    obtain ⟨rfl, rfl⟩ := h.unique hspelled
    exact ⟨hcut, fun p hp => (documented_iff.mp (hdocumented p hp)).2⟩
  · rintro ⟨hcut, hgood⟩
    exact ⟨ps, cut, h, hcut, fun p hp => documented_iff.mpr ⟨hall p hp, hgood p hp⟩⟩

theorem unsupported_of_isFilter {s : String} (h : IsFilter s) : (parseFilter s).unsupported = [] := by
  obtain ⟨ps, cut, hspelled, -, hdocumented⟩ := h
  exact (unsupported_nil_iff s).mpr
    ⟨ps, cut, hspelled, fun p hp => (documented_iff.mp (hdocumented p hp)).1⟩

/-- The parser is exact unless a text of supported clauses ends with `and`, or spells a key in a way
that only the parser knows. -/
theorem exact_iff (s : String) :
    Exact s ↔ ∀ ps cut, Spelled s.toList ps cut → (∀ p ∈ ps, (clauseOf p).isSome = true) →
      (cut = true → ps = []) ∧ ∀ p ∈ ps, ¬Undocumented p.1 := by
  constructor
  · rintro ⟨hexact, -⟩ ps cut hspelled hall
    have hnone : (parseFilter s).unsupported = [] :=
      (unsupported_nil_iff s).mpr ⟨ps, cut, hspelled, hall⟩
    exact (isFilter_iff_of_spelled hspelled hall).mp (hexact.mp hnone)
  · intro hgood
    have hexact : (parseFilter s).unsupported = [] ↔ IsFilter s := by
      refine ⟨fun hnone => ?_, unsupported_of_isFilter⟩
      obtain ⟨ps, cut, hspelled, hall⟩ := (unsupported_nil_iff s).mp hnone
      exact (isFilter_iff_of_spelled hspelled hall).mpr (hgood ps cut hspelled hall)
    exact ⟨hexact, fun hnot => matchesView_of_unsupported fun hnone => hnot (hexact.mp hnone)⟩

/-- A filter that is cut off behind `and` is taken, and a key with a signed number is. -/
theorem cut_off_taken : ¬Exact "number_key9 eq 1 and" ∧ ¬Exact "number_key+9 eq 1" := by
  have hcut : Spelled "number_key9 eq 1 and".toList
      [("number_key9".toList, .eq, "1".toList)] true :=
    @spelled_cons _ " and".toList [] _ [] true (by decide) (by decide) (.nothing nofun)
  have hsign : Spelled "number_key+9 eq 1".toList
      [("number_key+9".toList, .eq, "1".toList)] false :=
    @spelled_one _ [] _ (by decide) (by decide)
  constructor
  · rintro ⟨hexact, -⟩
    have hfilter := hexact.mp (by decide)
    have hno := (isFilter_iff_of_spelled hcut (by decide)).mp hfilter
    exact absurd (hno.1 rfl) (by decide)
  · rintro ⟨hexact, -⟩
    have hfilter := hexact.mp (by decide)
    have hno := (isFilter_iff_of_spelled hsign (by decide)).mp hfilter
    exact absurd (hno.2 _ List.mem_cons_self) (by decide)

/-! ### Writing -/

/-- A documented clause, to be written with one of the names of its key. -/
structure Written where
  key : Key
  op : Op
  value : String
  name : List Char
  name_mem : name ∈ key.names
  supported : clauseSupported key op value = true

namespace Written

def text (c : Written) : List Char :=
  c.name ++ " ".toList ++ c.op.name ++ " ".toList ++ ('\x27' :: escape c.value.toList ++ ['\x27'])

def triple (c : Written) : Key × Op × String := (c.key, c.op, c.value)

/-- The clause as it is read. -/
def part (c : Written) : Part := (c.name, c.op, c.value.toList)

theorem clauseOf_part (c : Written) : clauseOf c.part = some c.triple := by
  unfold clauseOf
  simp [part, triple, parseKey_of_mem_names c.name_mem, c.supported]

end Written

theorem isAsciiWs_of_isDigit {c : Char} (h : c.isDigit = true) : isAsciiWs c = false := by
  rw [Bool.eq_false_iff]
  intro hws
  simp only [isAsciiWs, Bool.or_eq_true, beq_iff_eq] at hws
  rcases hws with (((rfl | rfl) | rfl) | rfl) | rfl <;> exact absurd h (by decide)

theorem Key.names_word {tok : List Char} {key : Key} (h : tok ∈ key.names) :
    Word tok ∧ tok ≠ "or".toList := by
  have hor : tok ≠ "or".toList := by
    rintro rfl
    have hnone : parseKey "or".toList = none := by decide
    rw [parseKey_of_mem_names h] at hnone
    cases hnone
  refine ⟨?_, hor⟩
  have hnumber (family : List Char) (hmem : family ∈ [stringFamily, numberFamily])
      (n : KeyNumber) : Word (family ++ (toString n.1).toList) := by
    have hfamily : Word family := by
      simp only [List.mem_cons, List.not_mem_nil, or_false] at hmem
      rcases hmem with rfl | rfl <;> exact word_of_all (by decide)
    refine ⟨fun hnil => hfamily.1 (List.append_eq_nil_iff.mp hnil).1, fun c hc => ?_⟩
    rcases List.mem_append.mp hc with hc | hc
    · exact hfamily.2 c hc
    · exact isAsciiWs_of_isDigit (Text.isDigit_of_mem_toString hc)
  cases key with
  | stringKey n => exact List.mem_singleton.mp h ▸ hnumber _ (by simp) n
  | numberKey n => exact List.mem_singleton.mp h ▸ hnumber _ (by simp) n
  | lobbyId =>
    simp only [Key.names, List.mem_cons, List.not_mem_nil, or_false] at h
    rcases h with rfl | rfl <;> exact word_of_all (by decide)
  | _ =>
    rw [List.mem_singleton.mp h]
    exact word_of_all (by decide)

theorem gap_space : Gap " ".toList := by
  intro c hc
  rw [List.mem_singleton.mp hc]
  rfl

theorem Written.clauseText (c : Written) {rest : List Char} (hrest : rest.head? ≠ some '\x27') :
    ClauseText c.part c.text rest := by
  obtain ⟨hword, hor⟩ := Key.names_word c.name_mem
  exact ⟨_, _, _, rfl, hword, hor, ⟨gap_space, by decide⟩, ⟨gap_space, by decide⟩, .inl ⟨rfl, hrest⟩⟩

/-- White space in front of a text changes nothing. -/
theorem Spelled.gap {w cs : List Char} {ps : List Part} {cut : Bool} (hw : Gap w)
    (h : Spelled cs ps cut) : Spelled (w ++ cs) ps cut := by
  cases h with
  | nothing hw' => exact .nothing (hw.append hw')
  | last hw' hp hrest =>
    rw [← List.append_assoc]
    exact .last (hw.append hw') hp hrest
  | more hw' hp hgap hbreak hrest =>
    rw [← List.append_assoc]
    exact .more (hw.append hw') hp hgap hbreak hrest

/-- The clauses with `and` between them. -/
def filterText (cs : List Written) : String :=
  String.ofList ((" and ".toList).intercalate (cs.map Written.text))

theorem spelled_filterText (cs : List Written) :
    Spelled (filterText cs).toList (cs.map Written.part) cs.isEmpty := by
  unfold filterText
  rw [String.toList_ofList]
  induction cs with
  | nil => exact .nothing nofun
  | cons c cs ih =>
    cases cs with
    | nil =>
      have hlast : Spelled ([] ++ (c.text ++ [])) [c.part] false :=
        .last nofun (c.clauseText nofun) nofun
      simpa [List.intercalate] using hlast
    | cons c' cs =>
      have hjoin : (" and ".toList).intercalate ((c :: c' :: cs).map Written.text) =
          [] ++ (c.text ++ (" ".toList ++ ("and".toList ++
            (" ".toList ++ (" and ".toList).intercalate ((c' :: cs).map Written.text))))) := by
        simp [List.intercalate]
      rw [hjoin]
      exact .more nofun (c.clauseText (by simp)) gap_space (gap_space.breaks (by decide))
        (ih.gap gap_space)

theorem parseFilter_filterText (cs : List Written) :
    (parseFilter (filterText cs)).unsupported = [] ∧
      (parseFilter (filterText cs)).clauses.map Clause.triple = cs.map Written.triple := by
  have hall : ∀ p ∈ cs.map Written.part, (clauseOf p).isSome = true := by
    intro p hp
    obtain ⟨c, -, rfl⟩ := List.mem_map.mp hp
    rw [c.clauseOf_part]
    rfl
  have hparts : (cs.map Written.part).filterMap clauseOf = cs.map Written.triple := by
    rw [List.filterMap_map, ← List.filterMap_eq_map]
    exact List.filterMap_congr fun c _ => c.clauseOf_part
  obtain ⟨hnone, hclauses⟩ := parseLoop_of_spelled (spelled_filterText cs) (Nat.lt_succ_self _)
  exact ⟨hnone.mpr hall, (hclauses hall).trans hparts⟩

/-! ### Evaluation -/

theorem supported_of_mem_add {f : Filter} {key : Option Key} {op : Op} {value raw : String}
    {c : Clause} (h : c ∈ (f.add key op value raw).clauses) :
    c ∈ f.clauses ∨ clauseSupported c.key c.op c.value = true := by
  cases key with
  | none => exact .inl h
  | some key =>
    rw [Filter.add] at h
    split_ifs at h with hsupported
    · rcases List.mem_cons.mp h with rfl | hmem
      · exact .inr hsupported
      · exact .inl hmem
    · exact .inl h

/-- The parser keeps supported clauses only. -/
theorem supported_of_mem_parseLoop {fuel : ℕ} {cs : List Char} {c : Clause}
    (h : c ∈ (parseLoop fuel cs).clauses) : clauseSupported c.key c.op c.value = true := by
  induction fuel generalizing cs with
  | zero => cases h
  | succ fuel ih =>
    cases htake : takeClause cs with
    | none =>
      rw [parseLoop] at h
      simp only [takeClause_skipWs, htake] at h
      split_ifs at h <;> cases h
    | some x =>
      obtain ⟨p, rest⟩ := x
      obtain ⟨raw, tail, hloop⟩ := @parseLoop_clause fuel cs rest p htake
      rw [hloop] at h
      refine (supported_of_mem_add h).elim (fun hmem => ?_) id
      split at hmem
      · cases hmem
      · split_ifs at hmem
        · exact ih hmem
        · cases hmem

theorem equality_ok {op : Op} (h : op.isEquality = true) (same : Bool) (raw : String) :
    ∃ b, equality op same raw = .ok b := by
  cases op with
  | eq => exact ⟨_, rfl⟩
  | ne => exact ⟨_, rfl⟩
  | _ => cases h

/-- The value of a supported clause is known for every lobby. -/
theorem evalClause_ok {c : Clause} (h : clauseSupported c.key c.op c.value = true) (host : Host)
    (l : LobbyView) : ∃ b, evalClause host c l = .ok b := by
  obtain ⟨key, op, value, raw⟩ := c
  cases key with
  | stringKey n =>
    unfold evalClause
    simp only
    split
    · exact ⟨_, rfl⟩
    · exact equality_ok h _ _
  | numberKey _ | memberCount | maxMemberCount | memberCountRemaining =>
    obtain ⟨want, hwant⟩ := Option.isSome_iff_exists.mp h
    simp only [evalClause, hwant]
    exact ⟨_, rfl⟩
  | amOwner | amMember | amServer =>
    obtain ⟨hop, hvalue⟩ := Bool.and_eq_true_iff.mp h
    obtain ⟨want, hwant⟩ := Option.isSome_iff_exists.mp hvalue
    simp only [evalClause, hwant]
    exact equality_ok hop _ _
  | membershipLock | lobbyId => exact equality_ok h _ _

/-- The key of a search property that the lobby does not have. -/
def Unpublished (l : LobbyView) : Key → Prop
  | .stringKey n => Entries.get? (stringKeyName n) l.searchData = none
  | .numberKey n => Entries.get? (numberKeyName n) l.searchData = none
  | _ => False

/-- No operator holds of a property that the lobby does not have. -/
theorem evalClause_unpublished {c : Clause} (h : clauseSupported c.key c.op c.value = true)
    (host : Host) {l : LobbyView} (hl : Unpublished l c.key) : evalClause host c l = .ok false := by
  obtain ⟨key, op, value, raw⟩ := c
  cases key with
  | stringKey n =>
    have hnone : searchString host l n = none := by rw [searchString, show _ = _ from hl, Option.bind_none]
    simp only [evalClause, hnone]
  | numberKey n =>
    have hnone : searchNumber l n = none := by rw [searchNumber, show _ = _ from hl, Option.bind_none]
    obtain ⟨want, hwant⟩ := Option.isSome_iff_exists.mp h
    simp only [evalClause, hnone, hwant]
    rfl
  | _ => exact hl.elim

/-- Written clauses are read back, and a filter without unsupported text is the conjunction of its
clauses. -/
theorem filters_conjoin :
    (∀ cs : List Written, (parseFilter (filterText cs)).unsupported = [] ∧
      (parseFilter (filterText cs)).clauses.map Clause.triple = cs.map Written.triple) ∧
    ∀ (s : String) (host : Host) (l : LobbyView), ∃ truth : Clause → Bool,
      (∀ c ∈ (parseFilter s).clauses, evalClause host c l = .ok (truth c) ∧
        (Unpublished l c.key → truth c = false)) ∧
      ((parseFilter s).unsupported = [] →
        (parseFilter s).matchesView host l = (parseFilter s).clauses.all truth) := by
  refine ⟨parseFilter_filterText, fun s host l => ?_⟩
  have hok : ∀ c ∈ (parseFilter s).clauses, clauseSupported c.key c.op c.value = true :=
    fun c hc => supported_of_mem_parseLoop hc
  obtain ⟨truth, htruth⟩ : ∃ truth : Clause → Bool,
      ∀ c ∈ (parseFilter s).clauses, evalClause host c l = .ok (truth c) := by
    refine ⟨fun c => (evalClause host c l).toOption.getD false, fun c hc => ?_⟩
    obtain ⟨b, hb⟩ := evalClause_ok (hok c hc) host l
    simp only [hb]
    rfl
  refine ⟨truth, fun c hc => ⟨htruth c hc, fun hl => ?_⟩, fun hnone => ?_⟩
  · have hfalse := evalClause_unpublished (hok c hc) host hl
    rw [htruth c hc] at hfalse
    exact Except.ok.inj hfalse
  · rw [Filter.matchesView, hnone, List.isEmpty_nil, Bool.true_and]
    rw [Bool.eq_iff_iff, List.all_eq_true, List.all_eq_true]
    exact forall₂_congr fun c hc => by rw [htruth c hc]

end GbfrLan.Broker.LobbyFilter
