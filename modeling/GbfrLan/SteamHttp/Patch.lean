import GbfrLan.SteamHttp.Pe

/-!
# The slot that is patched

The tables of a module as the loader reads them: descriptors up to the last one, names that end,
and lookup entries before the first zero. `replace` stores into the slot of the first entry that
imports the function from the library, and only there.
-/
namespace GbfrLan.SteamHttp
open Lib

section

variable (img : List UInt8) (size : ℕ)

/-- The text of a name in the image that ends soon enough. -/
def Named (rva : ℕ) (s : String) : Prop :=
  ∃ n < nameCap, rva + n < size ∧ img[rva + n]? = some 0 ∧ (∀ m < n, img[rva + m]? ≠ some 0) ∧
    s = Utf8.decodeLossy ((img.drop rva).take n)

/-- A descriptor of the import directory before its end. -/
structure Listed (importRva i : ℕ) (d : Descriptor) : Prop where
  bound : i < maxDescriptors
  inside : importRva + 20 * i + 20 ≤ size
  read : readDescriptor img (importRva + 20 * i) = some d
  before : ∀ k ≤ i, ∀ d', readDescriptor img (importRva + 20 * k) = some d' → d'.isLast = false

/-- The descriptor imports from this library; case does not matter. -/
def ImportsFrom (dll : String) (d : Descriptor) : Prop :=
  ∃ s, Named img size d.name s ∧ Text.lower s.toList = Text.lower dll.toList

/-- An entry that imports this function by name, with its slot, before the first zero entry. -/
structure Entry (func : String) (d : Descriptor) (j : ℕ) : Prop where
  bound : j < maxThunks
  inside : d.HasThunk size j
  before : ∀ k ≤ j, readLe img 8 (d.lookup + 8 * k) ≠ some 0
  named : ∃ entry, readLe img 8 (d.lookup + 8 * j) = some entry ∧ entry.testBit 63 = false ∧
    Named img size (entry + 2) func

/-- A descriptor and an entry that import this function from this library. -/
structure Import (importRva : ℕ) (dll func : String) (i : ℕ) (d : Descriptor) (j : ℕ) : Prop where
  listed : Listed img size importRva i d
  dll : ImportsFrom img size dll d
  entry : Entry img size func d j

/-- Such an import with a slot: a descriptor with a zero field has no name or no slots. -/
structure Hit (importRva : ℕ) (dll func : String) (i : ℕ) (d : Descriptor) (j : ℕ) : Prop
    extends Import img size importRva dll func i d j where
  name : d.name ≠ 0
  firstThunk : d.firstThunk ≠ 0

end

/-- The size and the import directory that the header tells. -/
def Header (img : List UInt8) (size importRva : ℕ) : Prop :=
  ∃ e, readLe img 4 0x3C = some e ∧ readLe img 4 (e + 24 + 56) = some size ∧
    readLe img 4 (e + 24 + 120) = some importRva

theorem Header.unique {img : List UInt8} {size size' importRva importRva' : ℕ}
    (h : Header img size importRva) (h' : Header img size' importRva') :
    size = size' ∧ importRva = importRva' := by
  obtain ⟨e, he, hsize, himport⟩ := h
  obtain ⟨e', he', hsize', himport'⟩ := h'
  obtain rfl := Option.some.inj (he.symm.trans he')
  exact ⟨Option.some.inj (hsize.symm.trans hsize'), Option.some.inj (himport.symm.trans himport')⟩

/-- The eight bytes of a slot are changed and no others. -/
structure Stored (img img' : List UInt8) (slot : ℕ) (new : UInt64) : Prop where
  length : img'.length = img.length
  value : readLe img' 8 slot = some new.toNat
  others : ∀ n : ℕ, n < slot ∨ slot + 8 ≤ n → img'[n]? = img[n]?

/-! ### Names -/

section

variable {img : List UInt8} {size : ℕ}

theorem Named.unique {rva : ℕ} {s s' : String} (h : Named img size rva s)
    (h' : Named img size rva s') : s = s' := by
  obtain ⟨n, -, -, hn, hbefore, rfl⟩ := h
  obtain ⟨n', -, -, hn', hbefore', rfl⟩ := h'
  rcases lt_trichotomy n n' with hlt | rfl | hlt
  · exact absurd hn (hbefore' n hlt)
  · rfl
  · exact absurd hn' (hbefore n' hlt)

/-- A name that is not empty has a byte in front of its end. -/
theorem Named.room {rva : ℕ} {s : String} (h : Named img size rva s) (hne : s ≠ "") :
    rva + 2 ≤ size := by
  obtain ⟨n, -, hsize, -, -, rfl⟩ := h
  rcases Nat.eq_zero_or_pos n with rfl | hpos
  · exact absurd rfl hne
  · omega

theorem nameTurn_of_passes {rva k : ℕ} (h : Passes (nameTurn img size rva) (fun _ => ()) k) :
    rva + k < size ∧ img[rva + k]? ≠ some 0 := by
  have hspec := nameTurn_spec (Turn.next_ne_fault _) h
  generalize hturn : Turn.next () = t at hspec
  cases hspec with
  | outside => cases hturn
  | last => cases hturn
  | other hlt b hread hzero =>
    refine ⟨hlt, ?_⟩
    rw [hread]
    exact fun heq => hzero (Option.some.inj heq)

/-- `image_cstr` returns the name, and `None` when there is none. -/
theorem imageCstr_spec {rva : ℕ} {r : Option String} (h : imageCstr img size rva nameCap = some r)
    (s : String) : r = some s ↔ Named img size rva s := by
  rw [imageCstr, Option.bind_eq_bind, Option.bind_eq_some_iff] at h
  obtain ⟨end?, hwalk, h⟩ := h
  obtain ⟨m, hpass, hend⟩ := walk_spec (nameTurn_inStep rva) hwalk
  have hbefore (k : ℕ) (hk : k < m) : img[rva + k]? ≠ some 0 :=
    (nameTurn_of_passes (hpass k k.zero_le (by omega))).2
  cases hend with
  | all hm =>
    obtain rfl := Option.some.inj h
    refine iff_of_false (Option.some_ne_none s).symm ?_
    rintro ⟨n, hn, -, hread, -⟩
    exact absurd hread (hbefore n (by omega))
  | stop hlt hstop =>
    obtain rfl := Option.some.inj h
    refine iff_of_false (Option.some_ne_none s).symm ?_
    rintro ⟨n, -, hsize, hread, -⟩
    rw [Nat.zero_add] at hstop
    have hspec := nameTurn_spec Turn.stop_ne_fault hstop
    cases hspec with
    | outside hout => exact absurd hread (hbefore n (by omega))
  | found n hlt hfound =>
    rw [Nat.zero_add] at hfound
    have hspec := nameTurn_spec (Turn.found_ne_fault _) hfound
    cases hspec with
    | last hin hread =>
      have hlen := (List.getElem?_eq_some_iff.mp hread).1
      have hslice : Bytes.slice img rva m = some ((img.drop rva).take m) := if_pos (by omega)
      simp only [Option.bind_eq_bind, hslice, Option.bind_some, Option.some.injEq] at h
      have hnamed : Named img size rva (Utf8.decodeLossy ((img.drop rva).take m)) :=
        ⟨m, hlt, hin, hread, hbefore, rfl⟩
      rw [← h, Option.some.injEq]
      exact ⟨fun heq => heq ▸ hnamed, fun h => hnamed.unique h⟩

end

/-! ### The walks -/

section

variable {img : List UInt8} {size : ℕ} {dll func : String} {new : UInt64} {protect : ℕ → Bool}

theorem Descriptor.HasThunk.mono {d : Descriptor} {j k : ℕ} (h : d.HasThunk size k) (hle : j ≤ k) :
    d.HasThunk size j := by
  obtain ⟨hlookup, hslot⟩ := h
  constructor
  all_goals omega

/-- What the walk over the thunk arrays passes is live and does not import the function. -/
theorem thunkTurn_of_passes {d : Descriptor} {k : ℕ}
    (h : Passes (thunkTurn img size func new protect d) d.thunks k) :
    readLe img 8 (d.lookup + 8 * k) ≠ some 0 ∧ ¬Entry img size func d k := by
  have hspec := thunkTurn_spec (Turn.next_ne_fault _) h
  generalize hturn : Turn.next (d.thunks (k + 1)) = t at hspec
  cases hspec with
  | outside => cases hturn
  | last => cases hturn
  | found => cases hturn
  | other hrange entry hread hzero hother =>
    have hread' : readLe img 8 (d.lookup + 8 * k) = some entry := hread
    refine ⟨fun h => hzero (Option.some.inj (hread'.symm.trans h)), fun hentry => ?_⟩
    obtain ⟨entry', hread'', hbit, hnamed⟩ := hentry.named
    obtain rfl := Option.some.inj (hread'.symm.trans hread'')
    rcases hother with hordinal | ⟨fname, hcstr, hfunc⟩
    · rw [hbit] at hordinal
      cases hordinal
    · exact hfunc ((imageCstr_spec hcstr func).mpr hnamed)

/-- Where the walk over the thunk arrays ends, and behind it, nothing imports the function. -/
theorem not_entry_of_stop {d : Descriptor} {m j : ℕ}
    (h : thunkTurn img size func new protect d m (d.thunks m) = .stop) (hle : m ≤ j) :
    ¬Entry img size func d j := by
  intro hentry
  have hspec := thunkTurn_spec Turn.stop_ne_fault h
  cases hspec with
  | outside hout => exact hout (hentry.inside.mono hle)
  | last hread => exact hentry.before m hle hread

theorem not_entry_of_thunkWalk {d : Descriptor}
    (h : thunkWalk img size func new protect d = some none) (j : ℕ) : ¬Entry img size func d j := by
  obtain ⟨m, hpass, hend⟩ := walk_spec (thunkTurn_inStep d) (i := 0) h
  intro hentry
  rcases lt_or_ge j m with hlt | hge
  · exact (thunkTurn_of_passes (hpass j j.zero_le (by omega))).2 hentry
  · cases hend with
    | all hm =>
      have hbound := hentry.bound
      omega
    | stop hlt hstop =>
      rw [Nat.zero_add] at hstop
      exact not_entry_of_stop hstop hge hentry

/-- The walk over the thunk arrays stores into the slot of the first entry for the function. -/
theorem entry_of_thunkWalk {d : Descriptor} {answer : Answer}
    (h : thunkWalk img size func new protect d = some (some answer)) :
    ∃ j, Entry img size func d j ∧ (∀ k < j, ¬Entry img size func d k) ∧
      ∃ old, readLe img 8 (d.firstThunk + 8 * j) = some old ∧
        Stores img new protect (d.firstThunk + 8 * j) old answer := by
  obtain ⟨m, hpass, hend⟩ := walk_spec (thunkTurn_inStep d) (i := 0) h
  have hbefore (k : ℕ) (hk : k < m) := thunkTurn_of_passes (hpass k k.zero_le (by omega))
  cases hend with
  | found _ hlt hfound =>
    rw [Nat.zero_add] at hfound
    have hspec := thunkTurn_spec (Turn.found_ne_fault _) hfound
    cases hspec with
    | found hrange entry hread hzero hname hfunc old hold _ hstores =>
      have hread' : readLe img 8 (d.lookup + 8 * m) = some entry := hread
      refine ⟨m, ⟨hlt, hrange, fun k hk => ?_, entry, hread', hname, ?_⟩, fun k hk => (hbefore k hk).2,
        old, hold, hstores⟩
      · rcases hk.lt_or_eq with hk | rfl
        · exact (hbefore k hk).1
        · rw [hread']
          exact fun heq => hzero (Option.some.inj heq)
      · exact (imageCstr_spec hfunc func).mp rfl

/-- What the walk over the import directory passes is not its end and has no such import. -/
theorem descTurn_of_passes (hdll : dll ≠ "") {importRva k : ℕ}
    (h : Passes (descTurn img size dll func new protect importRva) (fun i => importRva + 20 * i) k) :
    (∀ d, readDescriptor img (importRva + 20 * k) = some d → d.isLast = false) ∧
      ∀ d j, ¬Hit img size importRva dll func k d j := by
  have hspec := descTurn_spec (Turn.next_ne_fault _) h
  generalize hturn : Turn.next (importRva + 20 * (k + 1)) = t at hspec
  cases hspec with
  | outside => cases hturn
  | last => cases hturn
  | found => cases hturn
  | other d hread hlast hother =>
    have hsame {d'} (h' : readDescriptor img (importRva + 20 * k) = some d') : d = d' :=
      Option.some.inj (hread.symm.trans h')
    refine ⟨fun d' h' => hsame h' ▸ hlast, fun d' j hit => ?_⟩
    obtain rfl := hsame hit.listed.read
    obtain ⟨s, hnamed, hs⟩ := hit.dll
    rcases hother with hname | hfirst | hroom | ⟨iname, hcstr, hno⟩ | htable
    · exact hit.name hname
    · exact hit.firstThunk hfirst
    · refine hroom (hnamed.room fun hempty => hdll ?_)
      rw [hempty] at hs
      have hlen := congrArg List.length hs
      rw [Text.lower, Text.lower, List.length_map, List.length_map] at hlen
      exact String.toList_eq_nil_iff.mp (List.eq_nil_of_length_eq_zero hlen.symm)
    · exact hno s ((imageCstr_spec hcstr s).mpr hnamed) hs
    · exact htable (hit.entry.inside.mono j.zero_le)
  | exhausted d hwalked hwalk =>
    have hsame {d'} (h' : readDescriptor img (importRva + 20 * k) = some d') : d = d' :=
      Option.some.inj (hwalked.read.symm.trans h')
    refine ⟨fun d' h' => hsame h' ▸ hwalked.last, fun d' j hit => ?_⟩
    obtain rfl := hsame hit.listed.read
    exact not_entry_of_thunkWalk hwalk j hit.entry

/-- The end of the import directory and what is behind it are not listed. -/
theorem not_listed_of_stop {importRva m i : ℕ} {d : Descriptor}
    (h : descTurn img size dll func new protect importRva m (importRva + 20 * m) = .stop)
    (hle : m ≤ i) : ¬Listed img size importRva i d := by
  intro hlisted
  have hspec := descTurn_spec Turn.stop_ne_fault h
  cases hspec with
  | outside hout =>
    have hin := hlisted.inside
    omega
  | last d' hread hlast =>
    rw [hlisted.before m hle d' hread] at hlast
    cases hlast

theorem not_hit_of_walk (hdll : dll ≠ "") {importRva : ℕ}
    (h : walk (descTurn img size dll func new protect importRva) maxDescriptors 0 importRva =
      some none) (i : ℕ) (d : Descriptor) (j : ℕ) : ¬Hit img size importRva dll func i d j := by
  obtain ⟨m, hpass, hend⟩ := walk_spec (descTurn_inStep importRva) (i := 0) h
  intro hit
  rcases lt_or_ge i m with hlt | hge
  · exact (descTurn_of_passes hdll (hpass i i.zero_le (by omega))).2 d j hit
  · cases hend with
    | all hm =>
      have hbound := hit.listed.bound
      omega
    | stop hlt hstop =>
      rw [Nat.zero_add] at hstop
      exact not_listed_of_stop hstop hge hit.listed

/-- The walk stores into the slot of the first import of the function from the library. -/
theorem hit_of_walk (hdll : dll ≠ "") {importRva : ℕ} {answer : Answer}
    (h : walk (descTurn img size dll func new protect importRva) maxDescriptors 0 importRva =
      some (some answer)) :
    ∃ i d j, Hit img size importRva dll func i d j ∧
      (∀ i' < i, ∀ d' j', ¬Hit img size importRva dll func i' d' j') ∧
      (∀ j' < j, ¬Entry img size func d j') ∧
      ∃ old, readLe img 8 (d.firstThunk + 8 * j) = some old ∧
        Stores img new protect (d.firstThunk + 8 * j) old answer := by
  obtain ⟨m, hpass, hend⟩ := walk_spec (descTurn_inStep importRva) (i := 0) h
  have hbefore (k : ℕ) (hk : k < m) := descTurn_of_passes hdll (hpass k k.zero_le (by omega))
  cases hend with
  | found _ hlt hfound =>
    rw [Nat.zero_add] at hfound
    have hspec := descTurn_spec (Turn.found_ne_fault _) hfound
    cases hspec with
    | found d hwalked _ hwalk =>
      obtain ⟨j, hentry, hleast, hstores⟩ := entry_of_thunkWalk hwalk
      obtain ⟨iname, hcstr, hname⟩ := hwalked.dll
      have hlisted : Listed img size importRva m d := by
        refine ⟨hlt, ?_, hwalked.read, fun k hk d' hread => ?_⟩
        · have hrange := hwalked.range
          omega
        · rcases hk.lt_or_eq with hk | rfl
          · exact (hbefore k hk).1 d' hread
          · obtain rfl := Option.some.inj (hwalked.read.symm.trans hread)
            exact hwalked.last
      have hfrom : ImportsFrom img size dll d := ⟨iname, (imageCstr_spec hcstr iname).mp rfl, hname⟩
      exact ⟨m, d, j, ⟨⟨hlisted, hfrom, hentry⟩, hwalked.name, hwalked.firstThunk⟩,
        fun i' hi' => (hbefore i' hi').2, hleast, hstores⟩

end

/-! ### The result -/

theorem stored_of_writeLe {img img' : List UInt8} {slot : ℕ} {new : UInt64}
    (h : writeLe img 8 slot new.toNat = some img') : Stored img img' slot new := by
  unfold writeLe at h
  split_ifs at h with hle
  obtain rfl := Option.some.inj h
  have hlen : (Digits.toLe 8 new.toNat).length = 8 := Digits.length_toLe 8 new.toNat
  have hfits : slot + (Digits.toLe 8 new.toNat).length ≤ img.length := hlen ▸ hle
  refine ⟨Bytes.length_write hfits, ?_, fun n hn => Bytes.get?_write hfits (hlen ▸ hn)⟩
  have hslice := Bytes.slice_write hfits
  rw [hlen] at hslice
  rw [readLe, hslice, Option.map_some, Digits.ofLe_toLe new.toNat_lt]

/-- What `replace` returns and leaves. -/
structure Patches (img : List UInt8) (dll func : String) (new : UInt64) (answer : Answer) : Prop where
  /-- The slot of the first such import, and its previous value. -/
  ok : ∀ old, answer.result = .ok old → ∃ size importRva i d j, Header img size importRva ∧
    Hit img size importRva dll func i d j ∧
    (∀ i' < i, ∀ d' j', ¬Hit img size importRva dll func i' d' j') ∧
    (∀ j' < j, ¬Entry img size func d j') ∧
    readLe img 8 (d.firstThunk + 8 * j) = some old ∧
    Stored img answer.image (d.firstThunk + 8 * j) new
  error : ∀ e, answer.result = .error e → answer.image = img
  notFound : answer.result = .error .notFound → ∀ size importRva, Header img size importRva →
    ∀ i d j, ¬Hit img size importRva dll func i d j

theorem patches_of_error {img : List UInt8} {dll func : String} {new : UInt64} {e : IatError}
    (he : e ≠ .notFound) : Patches img dll func new ⟨.error e, img⟩ where
  ok _ h := by cases h
  error _ _ := rfl
  notFound h := by
    cases h
    exact absurd rfl he

/-- Whatever comes back from the walk, the patch is in the right slot or nowhere. -/
theorem replace_patches {img : List UInt8} {dll func : String} {new : UInt64} {protect : ℕ → Bool}
    {answer : Answer} (hdll : dll ≠ "")
    (h : replace (some img) dll func new protect = some answer) :
    Patches img dll func new answer := by
  simp only [replace, Option.bind_eq_bind, Option.bind_eq_some_iff] at h
  obtain ⟨e, he, h⟩ := h
  split at h
  · obtain rfl := Option.some.inj h
    exact patches_of_error (by simp)
  rw [Option.bind_eq_some_iff] at h
  obtain ⟨magic, -, h⟩ := h
  split at h
  · obtain rfl := Option.some.inj h
    exact patches_of_error (by simp)
  rw [Option.bind_eq_some_iff] at h
  obtain ⟨size, hsize, h⟩ := h
  split at h
  · obtain rfl := Option.some.inj h
    exact patches_of_error (by simp)
  rw [Option.bind_eq_some_iff] at h
  obtain ⟨importRva, himport, h⟩ := h
  split at h
  · obtain rfl := Option.some.inj h
    exact patches_of_error (by simp)
  rw [Option.bind_eq_some_iff] at h
  obtain ⟨r, hwalk, h⟩ := h
  obtain rfl := Option.some.inj h
  have hheader : Header img size importRva := ⟨e, he, hsize, himport⟩
  cases r with
  | none =>
    have hno := not_hit_of_walk hdll hwalk
    change Patches img dll func new ⟨.error .notFound, img⟩
    refine ⟨fun _ h => ?_, fun _ _ => rfl, fun _ size' importRva' hheader' => ?_⟩
    · cases h
    obtain ⟨rfl, rfl⟩ := hheader.unique hheader'
    exact hno
  | some answer =>
    obtain ⟨i, d, j, hit, hfirst, hleast, old, hold, hstores⟩ := hit_of_walk hdll hwalk
    cases hstores with
    | patched img' hprotect hwrite =>
      change Patches img dll func new ⟨.ok old, img'⟩
      refine ⟨fun old' h => ?_, fun _ h => ?_, fun h => ?_⟩
      · cases h
        exact ⟨size, importRva, i, d, j, hheader, hit, hfirst, hleast, hold,
          stored_of_writeLe hwrite⟩
      · cases h
      · cases h
    | refused => exact patches_of_error (by simp)

/-- The bytes of a descriptor. -/
def Descriptor.toBytes (d : Descriptor) : List UInt8 :=
  Digits.toLe 4 d.originalFirstThunk ++ Bytes.zeros 8 ++ Digits.toLe 4 d.name ++
    Digits.toLe 4 d.firstThunk

/-- Another library, and then the library with an import by number and the one by name. -/
def steamImage : List UInt8 :=
  layout (smallHeader [] ++
    [(0, Descriptor.toBytes ⟨0x300, 0x400, 0x340⟩ ++ Descriptor.toBytes ⟨0x310, 0x410, 0x350⟩),
      (0xD8, Digits.toLe 8 0x420 ++ Digits.toLe 8 0 ++ Digits.toLe 8 (2 ^ 63 + 5) ++ Digits.toLe 8 0x420),
      (0x20, Digits.toLe 8 0xA0 ++ Digits.toLe 8 0 ++ Digits.toLe 8 0xB0 ++ Digits.toLe 8 0xB8),
      (0xA0, Utf8.bytes "k.dll"), (0xB, Utf8.bytes "S.DLL"), (0xD, Utf8.bytes "Init"), (0xBDA, [])])

theorem steamImage_patches : ∃ answer,
    replace (some steamImage) "s.dll" "Init" 7 (fun _ => true) = some answer ∧
      answer.result = .ok 0xB8 ∧ Patches steamImage "s.dll" "Init" 7 answer := by
  have hrun : (replace (some steamImage) "s.dll" "Init" 7 fun _ => true).map
      Answer.result = some (.ok 0xB8) := by decide +kernel
  obtain ⟨answer, hanswer, hresult⟩ := Option.map_eq_some_iff.mp hrun
  exact ⟨answer, hanswer, hresult, replace_patches (by decide) hanswer⟩

/-- A descriptor without a name, in an image that starts with the name of the library, and one
without slots. -/
def barrenImage : List UInt8 :=
  layout (smallHeader (Utf8.bytes "x.dll") ++
    [(0, Descriptor.toBytes ⟨0x300, 0, 0x340⟩ ++ Descriptor.toBytes ⟨0x300, 0x400, 0⟩),
      (0xD8, Digits.toLe 8 0x410), (0xF8, Utf8.bytes "x.dll"), (0xD, Utf8.bytes "f"), (0xBED, [])])

/-- Both are passed over. -/
theorem barrenImage_notFound :
    Header barrenImage 0x1000 0x200 ∧
      Import barrenImage 0x1000 0x200 "x.dll" "f" 0 ⟨0x300, 0, 0x340⟩ 0 ∧
      Import barrenImage 0x1000 0x200 "x.dll" "f" 1 ⟨0x300, 0x400, 0⟩ 0 ∧
      (replace (some barrenImage) "x.dll" "f" 7 fun _ => true).map Answer.result =
        some (.error .notFound) := by
  have hheader : Header barrenImage 0x1000 0x200 :=
    ⟨0x40, by decide +kernel, by decide +kernel, by decide +kernel⟩
  have hzero : readDescriptor barrenImage 0x200 = some ⟨0x300, 0, 0x340⟩ := by decide +kernel
  have hone : readDescriptor barrenImage 0x214 = some ⟨0x300, 0x400, 0⟩ := by decide +kernel
  have hlookup : readLe barrenImage 8 0x300 = some 0x410 := by decide +kernel
  have hfront : imageCstr barrenImage 0x1000 0 nameCap = some (some "x.dll") := by decide +kernel
  have hback : imageCstr barrenImage 0x1000 0x400 nameCap = some (some "x.dll") := by decide +kernel
  have hfunc : imageCstr barrenImage 0x1000 0x412 nameCap = some (some "f") := by decide +kernel
  have hrun : (replace (some barrenImage) "x.dll" "f" 7 fun _ => true).map Answer.result =
      some (.error .notFound) := by decide +kernel
  have hentry (d : Descriptor) (hd : d.lookup = 0x300) (hslot : d.firstThunk + 8 ≤ 0x1000) :
      Entry barrenImage 0x1000 "f" d 0 := by
    refine ⟨by decide, ⟨by omega, by omega⟩, fun k hk => ?_, 0x410, ?_, by decide, ?_⟩
    · obtain rfl := Nat.le_zero.mp hk
      rw [Nat.mul_zero, Nat.add_zero, hd, hlookup]
      decide
    · rw [Nat.mul_zero, Nat.add_zero, hd, hlookup]
    · exact (imageCstr_spec hfunc "f").mp rfl
  refine ⟨hheader, ⟨⟨by decide, by decide, hzero, fun k hk d hread => ?_⟩,
    ⟨"x.dll", (imageCstr_spec hfront "x.dll").mp rfl, rfl⟩, hentry _ rfl (by decide)⟩,
    ⟨⟨by decide, by decide, hone, fun k hk d hread => ?_⟩,
    ⟨"x.dll", (imageCstr_spec hback "x.dll").mp rfl, rfl⟩, hentry _ rfl (by decide)⟩, hrun⟩
  · obtain rfl := Nat.le_zero.mp hk
    obtain rfl := Option.some.inj (hzero.symm.trans hread)
    rfl
  · rcases Nat.le_one_iff_eq_zero_or_eq_one.mp hk with rfl | rfl
    · obtain rfl := Option.some.inj (hzero.symm.trans hread)
      rfl
    · obtain rfl := Option.some.inj (hone.symm.trans hread)
      rfl

end GbfrLan.SteamHttp
