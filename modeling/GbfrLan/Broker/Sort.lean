import GbfrLan.Broker.LobbyFilter

/-!
# The sort string of a lobby search

`parse_sort` and `cmp_lobbies`. The terms of a sort string are compared one after another, each by a
number of the lobbies or its distance to a target, and missing numbers come last. A number without an
order is equivalent to every other one, so a comparison with such numbers need not be transitive.
-/
namespace GbfrLan.Broker.LobbyFilter
open Lib Json
open Http (trim splitWhitespace)

structure SortSpec where
  key : Key
  desc : Bool
  /-- The target of `distance{..}`. -/
  distance : Option F64
  deriving DecidableEq

/-! ### The parser -/

def stripSuffix (c : Char) (cs : List Char) : Option (List Char) :=
  if cs.getLast? = some c then some cs.dropLast else none

def Key.isNumberKey : Key → Bool
  | .numberKey _ => true
  | _ => false

/-- The keys of a sort string. -/
def Key.isSortKey : Key → Bool
  | .numberKey _ | .memberCount | .maxMemberCount | .memberCountRemaining => true
  | _ => false

/-- Between the braces of a distance. -/
def parseDistance (inner : List Char) : Option SortSpec :=
  (Text.splitOnce '=' inner).bind fun (k, v) =>
    ((parseKey (trim k)).filter Key.isNumberKey).bind fun key =>
      (F64.parse (trim v)).map fun t => ⟨key, false, some t⟩

def parseDirection (dir : List Char) : Option Bool :=
  if dir = "asc".toList then some false else if dir = "desc".toList then some true else none

/-- One term of a sort string, unless it is unsupported. -/
def parseTerm (term : List Char) : Option SortSpec :=
  match (Text.stripPrefix "distance\x7b".toList term).bind (stripSuffix '}') with
  | some inner => parseDistance inner
  | none =>
      match splitWhitespace term with
      | [key, dir] =>
          (parseDirection dir).bind fun desc =>
            ((parseKey key).filter Key.isSortKey).map fun key => ⟨key, desc, none⟩
      | _ => none

/-- The terms of a sort string that can be applied, and the text of those that cannot. -/
def parseSort (s : String) : List SortSpec × List String :=
  let terms := ((s.toList.splitOn ',').map trim).filter fun term => !term.isEmpty
  (terms.filterMap parseTerm,
    (terms.filter fun term => (parseTerm term).isNone).map String.ofList)

theorem text_of_parseTerm {term : List Char} {spec : SortSpec} (h : parseTerm term = some spec) :
    ∀ t ∈ spec.distance, ∃ text, parseF64 text = some t := by
  unfold parseTerm at h
  split at h
  · rename_i inner _
    unfold parseDistance at h
    simp only [Option.bind_eq_some_iff, Option.map_eq_some_iff] at h
    obtain ⟨⟨k, v⟩, -, key, -, t, ht, rfl⟩ := h
    intro t' ht'
    refine ⟨String.ofList v, ?_⟩
    rw [parseF64, String.toList_ofList, ht]
    exact ht'
  · split at h
    · simp only [Option.bind_eq_some_iff, Option.map_eq_some_iff] at h
      obtain ⟨desc, -, key, -, rfl⟩ := h
      exact fun t ht => by cases ht
    · cases h

/-- The target of a term that is applied has a text. -/
theorem text_of_mem_parseSort {s : String} {spec : SortSpec} (h : spec ∈ (parseSort s).1) :
    ∀ t ∈ spec.distance, ∃ text, parseF64 text = some t := by
  obtain ⟨term, -, hterm⟩ := List.mem_filterMap.mp h
  exact text_of_parseTerm hterm

/-! ### The comparison -/

def sortNumber (l : LobbyView) : Key → Option F64
  | .numberKey n => searchNumber l n
  | .memberCount => some l.currentMembers
  | .maxMemberCount => some l.maxPlayers
  | .memberCountRemaining => some (F64.sub l.maxPlayers l.currentMembers)
  | _ => none

/-- Two numbers that are there. -/
def SortSpec.cmpNumber (spec : SortSpec) (x y : F64) : Ordering :=
  let o := match spec.distance with
    | some t => F64.cmp (F64.sub x t).abs (F64.sub y t).abs
    | none => F64.cmp x y
  if spec.desc then o.swap else o

def SortSpec.cmp (spec : SortSpec) (a b : LobbyView) : Ordering :=
  missingLast spec.cmpNumber (sortNumber a spec.key) (sortNumber b spec.key)

def cmpLobbies (a b : LobbyView) : List SortSpec → Ordering
  | [] => .eq
  | spec :: specs => (spec.cmp a b).then (cmpLobbies a b specs)

/-! ### Total preorders -/

namespace SortSpec

variable (spec : SortSpec)

/-- The order is by the distance to a target that is no number, so all present numbers are
equivalent. -/
def Blind : Prop := ∃ t ∈ spec.distance, ∀ q, t ≠ .fin q

theorem cmpNumber_preorder : PreorderOn {x : F64 | x ≠ .nan} spec.cmpNumber := by
  obtain ⟨key, desc, distance⟩ := spec
  have hcmp : PreorderOn {x : F64 | x ≠ .nan} fun x y => match distance with
      | some t => F64.cmp (F64.sub x t).abs (F64.sub y t).abs
      | none => F64.cmp x y := by
    cases distance with
    | none => exact F64.cmp_preorder
    | some t =>
      by_cases ht : ∃ q, t = .fin q
      · obtain ⟨q, rfl⟩ := ht
        exact F64.cmp_preorder.comap (fun x => (F64.sub x (.fin q)).abs)
          fun x hx => F64.abs_sub_ne_nan hx q
      · simp only [F64.cmp_abs_sub_infinite _ _ (not_exists.mp ht)]
        exact PreorderOn.const _
  cases desc with
  | false => exact hcmp
  | true => exact hcmp.reverse

/-- Lobbies whose number has an order. -/
theorem cmp_preorder : PreorderOn {l | sortNumber l spec.key ≠ some .nan} spec.cmp := by
  refine spec.cmpNumber_preorder.missingLast.comap (fun l => sortNumber l spec.key) ?_
  intro l hl x hx hnan
  exact hl (hx.trans (congrArg some hnan))

variable {spec}

theorem cmpNumber_of_blind (h : spec.Blind) (x y : F64) : spec.cmpNumber x y = .eq := by
  obtain ⟨t, ht, hinfinite⟩ := h
  unfold cmpNumber
  rw [Option.mem_def.mp ht]
  simp only [F64.cmp_abs_sub_infinite x y hinfinite]
  split_ifs <;> rfl

theorem cmp_preorder_of_blind (h : spec.Blind) (S : Set LobbyView) : PreorderOn S spec.cmp := by
  have hconst : PreorderOn (Set.univ : Set F64) spec.cmpNumber := by
    have heq : spec.cmpNumber = fun _ _ => .eq := by
      ext x y
      exact cmpNumber_of_blind h x y
    rw [heq]
    exact PreorderOn.const _
  exact hconst.missingLast.comap (fun l => sortNumber l spec.key) fun _ _ _ _ => Set.mem_univ _

theorem cmpNumber_self (x : F64) : spec.cmpNumber x x = .eq := by
  unfold cmpNumber
  cases spec.distance <;> simp [F64.cmp_self]

theorem cmpNumber_nan_left (x : F64) : spec.cmpNumber .nan x = .eq := by
  have hsub : ∀ t, (F64.sub .nan t).abs = .nan := fun t => by cases t <;> rfl
  unfold cmpNumber
  cases spec.distance <;> simp [hsub, F64.cmp_nan_left]

theorem cmpNumber_nan_right (x : F64) : spec.cmpNumber x .nan = .eq := by
  have hsub : ∀ t, (F64.sub .nan t).abs = .nan := fun t => by cases t <;> rfl
  unfold cmpNumber
  cases spec.distance <;> simp [hsub, F64.cmp_nan_right]

theorem cmp_of_eq {a b : LobbyView} (h : sortNumber a spec.key = sortNumber b spec.key) :
    spec.cmp a b = .eq := by
  rw [SortSpec.cmp, h]
  cases sortNumber b spec.key with
  | none => rfl
  | some x => exact cmpNumber_self x

end SortSpec

theorem cmpLobbies_preorder {specs : List SortSpec} {S : Set LobbyView}
    (h : ∀ spec ∈ specs, PreorderOn S spec.cmp) :
    PreorderOn S fun a b => cmpLobbies a b specs := by
  induction specs with
  | nil => exact PreorderOn.const S
  | cons spec specs ih =>
    exact (h spec List.mem_cons_self).andThen (ih fun s hs => h s (List.mem_cons_of_mem _ hs))

theorem cmpLobbies_of_eq {specs : List SortSpec} {a b : LobbyView}
    (h : ∀ spec ∈ specs, spec.cmp a b = .eq) : cmpLobbies a b specs = .eq := by
  induction specs with
  | nil => rfl
  | cons spec specs ih =>
    rw [cmpLobbies, h spec List.mem_cons_self, ih fun s hs => h s (List.mem_cons_of_mem _ hs)]
    rfl

/-! ### Numbers without an order -/

/-- A lobby with one search number, next to others that differ from it in that number only. -/
structure Sole (n : KeyNumber) (x maxPlayers currentMembers : F64) (l : LobbyView) : Prop where
  value : searchNumber l n = some x
  others : ∀ m ≠ n, searchNumber l m = none
  maxPlayers : l.maxPlayers = maxPlayers
  currentMembers : l.currentMembers = currentMembers

section
variable {n : KeyNumber} {x y m c : F64} {a b : LobbyView} {spec : SortSpec}

theorem Sole.cmp_of_ne (ha : Sole n x m c a) (hb : Sole n y m c b) (h : spec.key ≠ .numberKey n) :
    spec.cmp a b = .eq := by
  apply SortSpec.cmp_of_eq
  cases hkey : spec.key with
  | numberKey k =>
    have hne : k ≠ n := fun heq => h (hkey.trans (congrArg Key.numberKey heq))
    exact (ha.others k hne).trans (hb.others k hne).symm
  | memberCount => exact congrArg some (ha.currentMembers.trans hb.currentMembers.symm)
  | maxMemberCount => exact congrArg some (ha.maxPlayers.trans hb.maxPlayers.symm)
  | memberCountRemaining =>
    rw [sortNumber, sortNumber, ha.currentMembers, ha.maxPlayers, hb.currentMembers, hb.maxPlayers]
  | _ => rfl

theorem Sole.cmp_of_key (ha : Sole n x m c a) (hb : Sole n y m c b) (h : spec.key = .numberKey n) :
    spec.cmp a b = spec.cmpNumber x y := by
  rw [SortSpec.cmp, h, sortNumber, sortNumber, ha.value, hb.value]
  rfl

/-- A lobby whose number has no order is equivalent to every other one. -/
theorem Sole.cmpLobbies_nan (ha : Sole n x m c a) (hb : Sole n y m c b) (h : x = .nan ∨ y = .nan)
    (specs : List SortSpec) : cmpLobbies a b specs = .eq := by
  refine cmpLobbies_of_eq fun spec _ => ?_
  by_cases hkey : spec.key = .numberKey n
  · rw [ha.cmp_of_key hb hkey]
    rcases h with rfl | rfl
    · exact SortSpec.cmpNumber_nan_left y
    · exact SortSpec.cmpNumber_nan_right x
  · exact ha.cmp_of_ne hb hkey

end

/-- A term by a search number that tells two numbers apart. -/
def SortSpec.Tells (spec : SortSpec) : Prop := (∃ n, spec.key = .numberKey n) ∧ ¬spec.Blind

/-- Such a term tells a number that has a text from infinity. -/
theorem SortSpec.Tells.exists_text {spec : SortSpec} (h : spec.Tells)
    (htext : ∀ t ∈ spec.distance, ∃ text, parseF64 text = some t) :
    ∃ text q, parseF64 text = some (.fin q) ∧ spec.cmpNumber (.fin q) .posInf ≠ .eq := by
  obtain ⟨key, desc, distance⟩ := spec
  cases distance with
  | none =>
    refine ⟨"0", 0, by decide +kernel, ?_⟩
    cases desc <;> simp [SortSpec.cmpNumber, F64.cmp, F64.partialCmp]
  | some t =>
    obtain ⟨q, rfl⟩ : ∃ q, t = .fin q := by
      by_contra hno
      exact h.2 ⟨t, rfl, not_exists.mp hno⟩
    obtain ⟨text, hparse⟩ := htext _ rfl
    refine ⟨text, q, hparse, ?_⟩
    simp only [SortSpec.cmpNumber, F64.sub_self_fin]
    cases desc <;> simp [F64.sub, F64.abs, F64.cmp, F64.partialCmp]

/-- The first such term decides between two lobbies. -/
theorem exists_separated {specs : List SortSpec}
    (htext : ∀ spec ∈ specs, ∀ t ∈ spec.distance, ∃ text, parseF64 text = some t)
    (h : ∃ spec ∈ specs, spec.Tells) :
    ∃ (n : KeyNumber) (text : String) (q : ℚ), parseF64 text = some (.fin q) ∧
      ∀ m c a b, Sole n (.fin q) m c a → Sole n .posInf m c b → cmpLobbies a b specs ≠ .eq := by
  induction specs with
  | nil => simp at h
  | cons spec specs ih =>
    by_cases htells : spec.Tells
    · obtain ⟨n, hn⟩ := htells.1
      obtain ⟨text, q, hparse, hcmp⟩ := htells.exists_text (htext spec List.mem_cons_self)
      refine ⟨n, text, q, hparse, fun m c a b ha hb heq => hcmp ?_⟩
      rw [cmpLobbies, Ordering.then_eq_eq] at heq
      rw [← ha.cmp_of_key hb hn]
      exact heq.1
    · obtain ⟨n, text, q, hparse, hrest⟩ := ih (fun s hs => htext s (List.mem_cons_of_mem _ hs))
        (by simpa [htells] using h)
      refine ⟨n, text, q, hparse, fun m c a b ha hb heq => hrest m c a b ha hb ?_⟩
      rw [cmpLobbies, Ordering.then_eq_eq] at heq
      exact heq.2

end GbfrLan.Broker.LobbyFilter
