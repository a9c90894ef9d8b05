import GbfrLan.Lib.Bytes
import GbfrLan.Lib.Digits
import GbfrLan.Lib.Text
import GbfrLan.Lib.Utf8
import GbfrLan.Lib.Walk

/-!
# The patch of an import

`pe::replace` on the bytes of a mapped module. An access that is not inside the image has no
result: neither `Ok` nor an error comes back from it. Sums of offsets do not wrap, the largest ones
being a lookup entry below `2 ^ 63` and two. `VirtualProtect` is told by the slots that it refuses
to make writable, and changes nothing in the image.
-/
namespace GbfrLan.SteamHttp
open Lib

inductive IatError where
  | nullModule
  | badDosHeader
  | notPe64
  | badImageSize
  | badImportDirectory
  | slotProtected
  | notFound
  deriving DecidableEq, Repr

/-- What `replace` returns, and the image behind it. -/
structure Answer where
  result : Except IatError ℕ
  image : List UInt8

/-! ### Accesses -/

/-- A little-endian word of so many bytes. -/
def readLe (img : List UInt8) (width off : ℕ) : Option ℕ :=
  (Bytes.slice img off width).map Digits.ofLe

def writeLe (img : List UInt8) (width off v : ℕ) : Option (List UInt8) :=
  if off + width ≤ img.length then some (Bytes.write img off (Digits.toLe width v)) else none

/-- `in_image`. -/
def inImage (size rva len : ℕ) : Bool := decide (rva + len ≤ size)

/-- The bytes of a name that are read for its end. -/
def nameCap : ℕ := 128

/-- One byte of a name; it is found when it is the last. -/
def nameTurn (img : List UInt8) (size rva n : ℕ) (_ : Unit) : Turn Unit ℕ :=
  if size ≤ rva + n then .stop
  else .reading img[rva + n]? fun b => if b = 0 then .found n else .next ()

/-- `image_cstr`: the text, `none` for one without an end. -/
def imageCstr (img : List UInt8) (size rva cap : ℕ) : Option (Option String) := do
  match ← walk (nameTurn img size rva) cap 0 () with
  | none => some none
  | some n =>
      let bs ← Bytes.slice img rva n
      some (some (Utf8.decodeLossy bs))

/-! ### The tables -/

structure Descriptor where
  originalFirstThunk : ℕ
  name : ℕ
  firstThunk : ℕ
  deriving DecidableEq, Repr

/-- The fields of an import descriptor that are read. -/
def readDescriptor (img : List UInt8) (off : ℕ) : Option Descriptor := do
  let originalFirstThunk ← readLe img 4 off
  let name ← readLe img 4 (off + 12)
  let firstThunk ← readLe img 4 (off + 16)
  some ⟨originalFirstThunk, name, firstThunk⟩

namespace Descriptor

/-- The end of the import directory. -/
def isLast (d : Descriptor) : Bool := d.name == 0 && d.firstThunk == 0

/-- Where its lookup table starts. -/
def lookup (d : Descriptor) : ℕ :=
  if d.originalFirstThunk ≠ 0 then d.originalFirstThunk else d.firstThunk

end Descriptor

section

variable (img : List UInt8) (size : ℕ) (dll func : String) (new : UInt64) (protect : ℕ → Bool)

/-- One entry of the two thunk arrays, with the pointers into them. -/
def thunkTurn (d : Descriptor) (idx : ℕ) (p : ℕ × ℕ) : Turn (ℕ × ℕ) Answer :=
  let (ilt, iat) := p
  if !inImage size (d.lookup + idx * 8) 8 || !inImage size (d.firstThunk + idx * 8) 8 then .stop
  else .reading (readLe img 8 ilt) fun entry =>
    if entry = 0 then .stop
    else if entry.testBit 63 then .next (ilt + 8, iat + 8)
    else .reading (imageCstr img size (entry + 2) nameCap) fun fname =>
      if fname = some func then
        .reading (readLe img 8 iat) fun old =>
          if protect iat then
            .reading (writeLe img 8 iat new.toNat) fun img' => .found ⟨.ok old, img'⟩
          else .found ⟨.error .slotProtected, img⟩
      else .next (ilt + 8, iat + 8)

def maxThunks : ℕ := 4096

/-- One import descriptor, with the pointer to it. -/
def descTurn (importRva idx desc : ℕ) : Turn ℕ Answer :=
  if !inImage size (importRva + idx * 20) 20 then .stop
  else .reading (readDescriptor img desc) fun d =>
    if d.isLast then .stop
    else if d.name = 0 ∨ d.firstThunk = 0 ∨ !inImage size d.name 2 then .next (desc + 20)
    else .reading (imageCstr img size d.name nameCap) fun iname =>
      match iname with
      | none => .next (desc + 20)
      | some iname =>
          if Text.lower iname.toList ≠ Text.lower dll.toList then .next (desc + 20)
          else if !inImage size d.lookup 8 || !inImage size d.firstThunk 8 then .next (desc + 20)
          else .reading (walk (thunkTurn img size func new protect d) maxThunks 0
              (d.lookup, d.firstThunk)) fun r =>
            match r with
            | some answer => .found answer
            | none => .next (desc + 20)

def maxDescriptors : ℕ := 256

end

/-- `replace`; `none` for an access outside the image. `protect` tells the slots that become
writable. -/
def replace (module : Option (List UInt8)) (dll func : String) (new : UInt64) (protect : ℕ → Bool) :
    Option Answer :=
  match module with
  | none => some ⟨.error .nullModule, []⟩
  | some img => do
      let eLfanew ← readLe img 4 0x3C
      if eLfanew < 0x40 ∨ 0x1000 < eLfanew then some ⟨.error .badDosHeader, img⟩
      else
        let opt := eLfanew + 24
        let magic ← readLe img 2 opt
        if magic ≠ 0x20b then some ⟨.error .notPe64, img⟩
        else
          let size ← readLe img 4 (opt + 56)
          if size < 0x1000 then some ⟨.error .badImageSize, img⟩
          else
            let importRva ← readLe img 4 (opt + 120)
            if !inImage size importRva 20 then some ⟨.error .badImportDirectory, img⟩
            else
              let r ← walk (descTurn img size dll func new protect importRva) maxDescriptors 0 importRva
              some (r.getD ⟨.error .notFound, img⟩)

/-! ### What a turn does -/

section

variable (img : List UInt8) (size : ℕ) (dll func : String) (new : UInt64) (protect : ℕ → Bool)

/-- The turns over the bytes of a name. -/
inductive NameTurn (rva n : ℕ) : Turn Unit ℕ → Prop where
  | outside (h : size ≤ rva + n) : NameTurn rva n .stop
  | other (h : rva + n < size) (b : UInt8) (hread : img[rva + n]? = some b) (hne : b ≠ 0) :
      NameTurn rva n (.next ())
  | last (h : rva + n < size) (hread : img[rva + n]? = some 0) : NameTurn rva n (.found n)

/-- Both arrays have an entry in the image at this index. -/
def Descriptor.HasThunk (d : Descriptor) (idx : ℕ) : Prop :=
  d.lookup + idx * 8 + 8 ≤ size ∧ d.firstThunk + idx * 8 + 8 ≤ size

/-- The attempt to store into a slot with this value. -/
inductive Stores (slot old : ℕ) : Answer → Prop where
  | patched (img' : List UInt8) (hprotect : protect slot = true)
      (hwrite : writeLe img 8 slot new.toNat = some img') : Stores slot old ⟨.ok old, img'⟩
  | refused (hprotect : protect slot = false) : Stores slot old ⟨.error .slotProtected, img⟩

/-- The turns over the thunk arrays. -/
inductive ThunkTurn (d : Descriptor) (idx : ℕ) (p : ℕ × ℕ) : Turn (ℕ × ℕ) Answer → Prop where
  | outside (h : ¬d.HasThunk size idx) : ThunkTurn d idx p .stop
  | last (h : readLe img 8 p.1 = some 0) : ThunkTurn d idx p .stop
  | other (hrange : d.HasThunk size idx) (entry : ℕ) (hread : readLe img 8 p.1 = some entry)
      (hne : entry ≠ 0) (h : entry.testBit 63 = true ∨
        ∃ fname, imageCstr img size (entry + 2) nameCap = some fname ∧ fname ≠ some func) :
      ThunkTurn d idx p (.next (p.1 + 8, p.2 + 8))
  | found (hrange : d.HasThunk size idx) (entry : ℕ) (hread : readLe img 8 p.1 = some entry)
      (hne : entry ≠ 0) (hname : entry.testBit 63 = false)
      (hfunc : imageCstr img size (entry + 2) nameCap = some (some func)) (old : ℕ)
      (hold : readLe img 8 p.2 = some old) (answer : Answer)
      (h : Stores img new protect p.2 old answer) : ThunkTurn d idx p (.found answer)

/-- A descriptor of the library, whose thunk arrays are walked. -/
structure Walked (importRva idx desc : ℕ) (d : Descriptor) : Prop where
  range : importRva + idx * 20 + 20 ≤ size
  read : readDescriptor img desc = some d
  last : d.isLast = false
  name : d.name ≠ 0
  firstThunk : d.firstThunk ≠ 0
  dll : ∃ iname, imageCstr img size d.name nameCap = some (some iname) ∧
    Text.lower iname.toList = Text.lower dll.toList

/-- The walk over the thunk arrays of a descriptor. -/
def thunkWalk (d : Descriptor) : Option (Option Answer) :=
  walk (thunkTurn img size func new protect d) maxThunks 0 (d.lookup, d.firstThunk)

/-- The turns over the import directory. -/
inductive DescTurn (importRva idx desc : ℕ) : Turn ℕ Answer → Prop where
  | outside (h : ¬importRva + idx * 20 + 20 ≤ size) : DescTurn importRva idx desc .stop
  | last (d : Descriptor) (hread : readDescriptor img desc = some d) (h : d.isLast = true) :
      DescTurn importRva idx desc .stop
  /-- It lacks a field, has another name or none, or starts a table outside the image. -/
  | other (d : Descriptor) (hread : readDescriptor img desc = some d) (hlast : d.isLast = false)
      (h : d.name = 0 ∨ d.firstThunk = 0 ∨ ¬d.name + 2 ≤ size ∨
        (∃ iname, imageCstr img size d.name nameCap = some iname ∧
          ∀ s ∈ iname, Text.lower s.toList ≠ Text.lower dll.toList) ∨ ¬d.HasThunk size 0) :
      DescTurn importRva idx desc (.next (desc + 20))
  | exhausted (d : Descriptor) (h : Walked img size dll importRva idx desc d)
      (hwalk : thunkWalk img size func new protect d = some none) :
      DescTurn importRva idx desc (.next (desc + 20))
  | found (d : Descriptor) (h : Walked img size dll importRva idx desc d) (answer : Answer)
      (hwalk : thunkWalk img size func new protect d = some (some answer)) :
      DescTurn importRva idx desc (.found answer)

end

section

variable {img : List UInt8} {size : ℕ} {dll func : String} {new : UInt64} {protect : ℕ → Bool}

theorem nameTurn_spec {rva n : ℕ} {t : Turn Unit ℕ} (ht : t ≠ .fault)
    (h : nameTurn img size rva n () = t) : NameTurn img size rva n t := by
  unfold nameTurn at h
  split_ifs at h with hout
  · rw [← h]
    exact .outside hout
  · obtain ⟨b, hread, h⟩ := Turn.exists_of_reading ht h
    split_ifs at h with hzero
    · rw [← h]
      exact .last (not_le.mp hout) (hzero ▸ hread)
    · rw [← h]
      exact .other (not_le.mp hout) b hread hzero

theorem inImage_eq_true_iff {rva len : ℕ} : inImage size rva len = true ↔ rva + len ≤ size :=
  decide_eq_true_iff

theorem hasThunk_iff (d : Descriptor) (idx : ℕ) : d.HasThunk size idx ↔
    (!inImage size (d.lookup + idx * 8) 8 || !inImage size (d.firstThunk + idx * 8) 8) = false := by
  rw [Bool.or_eq_false_iff, Bool.not_eq_false', Bool.not_eq_false', inImage_eq_true_iff,
    inImage_eq_true_iff]
  rfl

theorem thunkTurn_spec {d : Descriptor} {idx : ℕ} {p : ℕ × ℕ} {t : Turn (ℕ × ℕ) Answer}
    (ht : t ≠ .fault) (h : thunkTurn img size func new protect d idx p = t) :
    ThunkTurn img size func new protect d idx p t := by
  unfold thunkTurn at h
  dsimp only at h
  by_cases hrange : d.HasThunk size idx
  · rw [(hasThunk_iff d idx).mp hrange, if_neg Bool.false_ne_true] at h
    obtain ⟨entry, hread, h⟩ := Turn.exists_of_reading ht h
    by_cases hzero : entry = 0
    · rw [if_pos hzero] at h
      rw [← h]
      exact .last (hzero ▸ hread)
    rw [if_neg hzero] at h
    cases hname : entry.testBit 63 with
    | true =>
      rw [hname, if_pos rfl] at h
      rw [← h]
      exact .other hrange entry hread hzero (.inl hname)
    | false =>
      rw [hname, if_neg Bool.false_ne_true] at h
      obtain ⟨fname, hcstr, h⟩ := Turn.exists_of_reading ht h
      by_cases hfunc : fname = some func
      · rw [if_pos hfunc] at h
        rw [hfunc] at hcstr
        obtain ⟨old, hold, h⟩ := Turn.exists_of_reading ht h
        cases hprotect : protect p.2 with
        | true =>
          rw [hprotect, if_pos rfl] at h
          obtain ⟨img', hwrite, h⟩ := Turn.exists_of_reading ht h
          rw [← h]
          exact .found hrange entry hread hzero hname hcstr old hold _ (.patched img' hprotect hwrite)
        | false =>
          rw [hprotect, if_neg Bool.false_ne_true] at h
          rw [← h]
          exact .found hrange entry hread hzero hname hcstr old hold _ (.refused hprotect)
      · rw [if_neg hfunc] at h
        rw [← h]
        exact .other hrange entry hread hzero (.inr ⟨fname, hcstr, hfunc⟩)
  · rw [Bool.eq_true_of_not_eq_false (mt (hasThunk_iff d idx).mpr hrange), if_pos rfl] at h
    rw [← h]
    exact .outside hrange

theorem descTurn_spec {importRva idx desc : ℕ} {t : Turn ℕ Answer} (ht : t ≠ .fault)
    (h : descTurn img size dll func new protect importRva idx desc = t) :
    DescTurn img size dll func new protect importRva idx desc t := by
  unfold descTurn at h
  by_cases hrange : importRva + idx * 20 + 20 ≤ size
  · rw [inImage_eq_true_iff.mpr hrange, Bool.not_true, if_neg Bool.false_ne_true] at h
    obtain ⟨d, hread, h⟩ := Turn.exists_of_reading ht h
    cases hlast : d.isLast with
    | true =>
      rw [hlast, if_pos rfl] at h
      rw [← h]
      exact .last d hread hlast
    | false =>
      rw [hlast, if_neg Bool.false_ne_true] at h
      by_cases hfields : d.name = 0 ∨ d.firstThunk = 0 ∨ (!inImage size d.name 2) = true
      · rw [if_pos hfields] at h
        rw [← h]
        refine .other d hread hlast (hfields.imp_right fun h => h.imp_right fun hsize => .inl ?_)
        rw [Bool.not_eq_true', ← Bool.not_eq_true, inImage_eq_true_iff] at hsize
        exact hsize
      rw [if_neg hfields] at h
      obtain ⟨hname, hfields⟩ := not_or.mp hfields
      obtain ⟨iname, hcstr, h⟩ := Turn.exists_of_reading ht h
      cases iname with
      | none =>
        rw [← h]
        exact .other d hread hlast (.inr (.inr (.inr (.inl ⟨none, hcstr, nofun⟩))))
      | some iname =>
        by_cases hdll : Text.lower iname.toList = Text.lower dll.toList
        · dsimp only at h
          rw [if_neg (not_not.mpr hdll)] at h
          have hstart : d.HasThunk size 0 ↔ _ := hasThunk_iff d 0
          rw [Nat.zero_mul, Nat.add_zero, Nat.add_zero] at hstart
          by_cases htable : d.HasThunk size 0
          · rw [hstart.mp htable, if_neg Bool.false_ne_true] at h
            obtain ⟨r, hwalk, h⟩ := Turn.exists_of_reading ht h
            have hwalked : Walked img size dll importRva idx desc d :=
              ⟨hrange, hread, hlast, hname, (not_or.mp hfields).1, iname, hcstr, hdll⟩
            rw [← h]
            cases r with
            | none => exact .exhausted d hwalked hwalk
            | some answer => exact .found d hwalked answer hwalk
          · rw [Bool.eq_true_of_not_eq_false (mt hstart.mpr htable), if_pos rfl] at h
            rw [← h]
            exact .other d hread hlast (.inr (.inr (.inr (.inr htable))))
        · dsimp only at h
          rw [if_pos hdll] at h
          rw [← h]
          refine .other d hread hlast (.inr (.inr (.inr (.inl ⟨some iname, hcstr, fun s hs => ?_⟩))))
          obtain rfl := Option.mem_some_iff.mp hs
          exact hdll
  · rw [Bool.eq_false_iff.mpr (mt inImage_eq_true_iff.mp hrange), Bool.not_false, if_pos rfl] at h
    rw [← h]
    exact .outside hrange

/-! ### Pointers in step -/

theorem nameTurn_inStep (rva : ℕ) : InStep (nameTurn img size rva) fun _ => () := fun _ _ _ => rfl

/-- Where the pointers into the thunk arrays are at an index. -/
def Descriptor.thunks (d : Descriptor) (idx : ℕ) : ℕ × ℕ :=
  (d.lookup + 8 * idx, d.firstThunk + 8 * idx)

theorem thunkTurn_inStep (d : Descriptor) :
    InStep (thunkTurn img size func new protect d) d.thunks := by
  intro idx p h
  have hspec := thunkTurn_spec (Turn.next_ne_fault _) h
  generalize hturn : Turn.next p = t at hspec
  cases hspec with
  | outside => cases hturn
  | last => cases hturn
  | found => cases hturn
  | other =>
    cases hturn
    rfl

theorem descTurn_inStep (importRva : ℕ) :
    InStep (descTurn img size dll func new protect importRva) fun idx => importRva + 20 * idx := by
  intro idx desc h
  have hspec := descTurn_spec (Turn.next_ne_fault _) h
  generalize hturn : Turn.next desc = t at hspec
  cases hspec with
  | outside => cases hturn
  | last => cases hturn
  | found => cases hturn
  | other =>
    cases hturn
    rfl
  | exhausted =>
    cases hturn
    rfl

/-! ### Accesses in the image -/

theorem readLe_isSome_iff {width off : ℕ} :
    (readLe img width off).isSome ↔ off + width ≤ img.length := by
  unfold readLe Bytes.slice
  split_ifs with hle
  · exact ⟨fun _ => hle, fun _ => rfl⟩
  · exact ⟨fun h => absurd h (by simp), fun h => absurd h hle⟩

theorem writeLe_isSome_iff {width off v : ℕ} :
    (writeLe img width off v).isSome ↔ off + width ≤ img.length := by
  unfold writeLe
  split_ifs with hle
  · exact ⟨fun _ => hle, fun _ => rfl⟩
  · exact ⟨fun h => absurd h (by simp), fun h => absurd h hle⟩

theorem readDescriptor_isSome {off : ℕ} (h : off + 20 ≤ img.length) :
    (readDescriptor img off).isSome := by
  obtain ⟨orig, horig⟩ := Option.isSome_iff_exists.mp
    (readLe_isSome_iff.mpr (show off + 4 ≤ img.length by omega))
  obtain ⟨name, hname⟩ := Option.isSome_iff_exists.mp
    (readLe_isSome_iff.mpr (show off + 12 + 4 ≤ img.length by omega))
  obtain ⟨first, hfirst⟩ := Option.isSome_iff_exists.mp
    (readLe_isSome_iff.mpr (show off + 16 + 4 ≤ img.length by omega))
  rw [readDescriptor, horig, hname, hfirst]
  rfl

section

variable (hsize : size ≤ img.length)
include hsize

theorem nameTurn_ne_fault (rva n : ℕ) : nameTurn img size rva n () ≠ .fault := by
  unfold nameTurn
  split
  · exact nofun
  · have hget : (img[rva + n]?).isSome := by
      rw [isSome_getElem?]
      omega
    refine Turn.reading_ne_fault hget fun b _ => ?_
    split
    · exact nofun
    · exact nofun

theorem imageCstr_isSome (rva : ℕ) : (imageCstr img size rva nameCap).isSome := by
  obtain ⟨r, hr⟩ := Option.isSome_iff_exists.mp
    (walk_isSome (nameTurn_inStep rva) (nameTurn_ne_fault hsize rva) nameCap 0)
  rw [imageCstr, hr]
  cases r with
  | none => rfl
  | some n =>
    -- the byte behind the name was read
    obtain ⟨m, -, hend⟩ := walk_spec (nameTurn_inStep rva) hr
    cases hend with
    | found _ hlt hfound =>
      have hspec := nameTurn_spec (Turn.found_ne_fault _) hfound
      generalize hturn : Turn.found n = t at hspec
      cases hspec with
      | outside => cases hturn
      | other => cases hturn
      | last h hread =>
        cases hturn
        have hlen := (List.getElem?_eq_some_iff.mp hread).1
        have hslice : Bytes.slice img rva (0 + m) = some ((img.drop rva).take (0 + m)) :=
          if_pos (by omega)
        simp only [Option.bind_eq_bind, Option.bind_some, hslice]
        rfl

/-- With both pointers in step every access to the thunk arrays is in the image. -/
theorem thunkTurn_ne_fault (d : Descriptor) (idx : ℕ) :
    thunkTurn img size func new protect d idx (d.thunks idx) ≠ .fault := by
  unfold thunkTurn Descriptor.thunks
  dsimp only
  by_cases hrange : d.HasThunk size idx
  · rw [(hasThunk_iff d idx).mp hrange, if_neg Bool.false_ne_true]
    obtain ⟨hilt, hiat⟩ := hrange
    refine Turn.reading_ne_fault (readLe_isSome_iff.mpr (by omega)) fun entry _ => ?_
    split
    · exact nofun
    split
    · exact nofun
    refine Turn.reading_ne_fault (imageCstr_isSome hsize _) fun fname _ => ?_
    split
    · refine Turn.reading_ne_fault (readLe_isSome_iff.mpr (by omega)) fun old _ => ?_
      split
      · exact Turn.reading_ne_fault (writeLe_isSome_iff.mpr (by omega)) fun _ _ => nofun
      · exact nofun
    · exact nofun
  · rw [Bool.eq_true_of_not_eq_false (mt (hasThunk_iff d idx).mpr hrange), if_pos rfl]
    exact nofun

theorem descTurn_ne_fault (importRva idx : ℕ) :
    descTurn img size dll func new protect importRva idx (importRva + 20 * idx) ≠ .fault := by
  unfold descTurn
  by_cases hrange : importRva + idx * 20 + 20 ≤ size
  · rw [inImage_eq_true_iff.mpr hrange, Bool.not_true, if_neg Bool.false_ne_true]
    refine Turn.reading_ne_fault (readDescriptor_isSome (by omega)) fun d _ => ?_
    split
    · exact nofun
    split
    · exact nofun
    refine Turn.reading_ne_fault (imageCstr_isSome hsize _) fun iname _ => ?_
    cases iname with
    | none => exact nofun
    | some iname =>
      dsimp only
      split
      · exact nofun
      split
      · exact nofun
      refine Turn.reading_ne_fault ?_ fun r _ => ?_
      · exact walk_isSome (thunkTurn_inStep d) (thunkTurn_ne_fault hsize d) maxThunks 0
      · cases r with
        | none => exact nofun
        | some answer => exact nofun
  · rw [Bool.eq_false_iff.mpr (mt inImage_eq_true_iff.mp hrange), Bool.not_false, if_pos rfl]
    exact nofun

end

/-! ### The header -/

/-- The image is as large as the field says that the walk reads for its size, and not too small. -/
structure Mapped (img : List UInt8) : Prop where
  large : 0x1000 ≤ img.length
  whole : ∀ e, readLe img 4 0x3C = some e → 0x40 ≤ e → e ≤ 0x1000 →
    readLe img 2 (e + 24) = some 0x20b → ∀ size, readLe img 4 (e + 24 + 56) = some size →
    size = img.length

/-- The fields of the header that are read lie in the image. -/
def HeaderFits (img : List UInt8) : Prop :=
  ∀ e, readLe img 4 0x3C = some e → 0x40 ≤ e → e ≤ 0x1000 →
    (∃ magic, readLe img 2 (e + 24) = some magic ∧ magic ≠ 0x20b) ∨ e + 148 ≤ img.length

/-- The walk accesses nothing outside the image and ends, with `Ok` or an error, exactly when the
header that `e_lfanew` points to has the fields that are read in the image. -/
theorem replace_inside_iff {img : List UInt8} (hmapped : Mapped img) (dll func : String)
    (new : UInt64) (protect : ℕ → Bool) :
    (∃ answer, replace (some img) dll func new protect = some answer) ↔ HeaderFits img := by
  have hlarge := hmapped.large
  obtain ⟨e, he⟩ := Option.isSome_iff_exists.mp
    (readLe_isSome_iff.mpr (show 0x3C + 4 ≤ img.length by omega))
  simp only [replace, he, Option.bind_eq_bind, Option.bind_some]
  by_cases hwindow : e < 0x40 ∨ 0x1000 < e
  · rw [if_pos hwindow]
    refine ⟨fun _ e' he' hlow hhigh => ?_, fun _ => ⟨_, rfl⟩⟩
    obtain rfl := Option.some.inj (he.symm.trans he')
    omega
  rw [if_neg hwindow]
  have hfits : HeaderFits img ↔
      (∃ magic, readLe img 2 (e + 24) = some magic ∧ magic ≠ 0x20b) ∨ e + 148 ≤ img.length := by
    constructor
    · exact fun h => h e he (by omega) (by omega)
    · intro h e' he' _ _
      obtain rfl := Option.some.inj (he.symm.trans he')
      exact h
  rw [hfits]
  cases hmagic : readLe img 2 (e + 24) with
  | none =>
    have hout : ¬e + 24 + 2 ≤ img.length := by
      rw [← readLe_isSome_iff, hmagic]
      exact Bool.false_ne_true
    constructor
    · rintro ⟨answer, h⟩
      cases h
    · rintro (⟨magic, h, -⟩ | h)
      · cases h
      · omega
  | some magic =>
    rw [Option.bind_some]
    by_cases hpe : magic ≠ 0x20b
    · rw [if_pos hpe]
      exact ⟨fun _ => .inl ⟨magic, rfl, hpe⟩, fun _ => ⟨_, rfl⟩⟩
    rw [if_neg hpe]
    have hside : (∃ magic', some magic = some magic' ∧ magic' ≠ 0x20b) ↔ False := by
      refine iff_false_intro ?_
      rintro ⟨magic', heq, hne⟩
      exact hpe (Option.some.inj heq ▸ hne)
    rw [hside, false_or]
    have hsame (size : ℕ) (h : readLe img 4 (e + 24 + 56) = some size) : size = img.length :=
      hmapped.whole e he (by omega) (by omega) (not_not.mp hpe ▸ hmagic) size h
    by_cases hroom : e + 148 ≤ img.length
    · obtain ⟨size, hsize⟩ := Option.isSome_iff_exists.mp
        (readLe_isSome_iff.mpr (show e + 24 + 56 + 4 ≤ img.length by omega))
      obtain ⟨importRva, himport⟩ := Option.isSome_iff_exists.mp
        (readLe_isSome_iff.mpr (show e + 24 + 120 + 4 ≤ img.length by omega))
      have hwhole := hsame size hsize
      obtain ⟨r, hr⟩ := Option.isSome_iff_exists.mp
        (walk_isSome (descTurn_inStep importRva)
          (@descTurn_ne_fault _ _ dll func new protect hwhole.le importRva) maxDescriptors 0)
      have hsmall : ¬size < 0x1000 := by omega
      refine ⟨fun _ => hroom, fun _ => ?_⟩
      rw [Nat.mul_zero, Nat.add_zero] at hr
      rw [hsize, Option.bind_some, if_neg hsmall, himport, Option.bind_some, hr]
      split
      · exact ⟨_, rfl⟩
      · exact ⟨_, rfl⟩
    · -- the size may still be read, but the import directory is not
      have himport : readLe img 4 (e + 24 + 120) = none := by
        rw [← Option.not_isSome_iff_eq_none, readLe_isSome_iff]
        omega
      refine ⟨?_, fun h => absurd h hroom⟩
      rintro ⟨answer, h⟩
      cases hsize : readLe img 4 (e + 24 + 56) with
      | none =>
        rw [hsize] at h
        cases h
      | some size =>
        have hsmall : ¬size < 0x1000 := by
          have hwhole := hsame size hsize
          omega
        rw [hsize, Option.bind_some, if_neg hsmall, himport] at h
        cases h

end

/-! ### Images -/

/-- Parts of an image, with so many zeros in front of each. -/
def layout (parts : List (ℕ × List UInt8)) : List UInt8 :=
  parts.flatMap fun p => Bytes.zeros p.1 ++ p.2

/-- An image of the least size, with `SizeOfImage` as its last field. -/
def cutHeader : List UInt8 :=
  layout [(0x3C, Digits.toLe 4 0xFAC), (0xF84, Digits.toLe 2 0x20b), (0x36, Digits.toLe 4 0x1000)]

theorem mapped_of_eLfanew {img : List UInt8} {e : ℕ} (hlarge : 0x1000 ≤ img.length)
    (he : readLe img 4 0x3C = some e) (hsize : readLe img 4 (e + 24 + 56) = some img.length) :
    Mapped img where
  large := hlarge
  whole e' he' _ _ _ size h := by
    obtain rfl := Option.some.inj (he.symm.trans he')
    exact (Option.some.inj (hsize.symm.trans h)).symm

/-- The import directory is looked for behind the image. -/
theorem cutHeader_faults : Mapped cutHeader ∧
    ¬∃ answer, replace (some cutHeader) "steam_api64.dll" "SteamAPI_Init" 1 (fun _ => true) =
      some answer := by
  have hlen : cutHeader.length = 0x1000 := by decide +kernel
  have he : readLe cutHeader 4 0x3C = some 0xFAC := by decide +kernel
  have hsize : readLe cutHeader 4 (0xFAC + 24 + 56) = some 0x1000 := by decide +kernel
  have hrun : (replace (some cutHeader) "steam_api64.dll" "SteamAPI_Init" 1 fun _ => true).isNone =
      true := by decide +kernel
  refine ⟨mapped_of_eLfanew hlen.ge he (hlen ▸ hsize), fun ⟨answer, h⟩ => ?_⟩
  rw [h] at hrun
  cases hrun

/-- A header of the usual kind behind this start, for an import directory at `0x200`. -/
def smallHeader (start : List UInt8) : List (ℕ × List UInt8) :=
  [(0, start), (0x3C - start.length, Digits.toLe 4 0x40), (0x18, Digits.toLe 2 0x20b),
    (0x36, Digits.toLe 4 0x1000), (0x3C, Digits.toLe 4 0x200), (0x12C, [])]

def emptyImage : List UInt8 := layout (smallHeader [] ++ [(0xE00, [])])

theorem replace_inside_emptyImage :
    Mapped emptyImage ∧
      ((∃ answer, replace (some emptyImage) "steam_api64.dll" "SteamAPI_Init" 1 (fun _ => true) =
        some answer) ↔ HeaderFits emptyImage) := by
  have hlen : emptyImage.length = 0x1000 := by decide +kernel
  have he : readLe emptyImage 4 0x3C = some 0x40 := by decide +kernel
  have hsize : readLe emptyImage 4 (0x40 + 24 + 56) = some 0x1000 := by decide +kernel
  have hmapped : Mapped emptyImage := mapped_of_eLfanew hlen.ge he (hlen ▸ hsize)
  exact ⟨hmapped, replace_inside_iff hmapped _ _ _ _⟩

end GbfrLan.SteamHttp
