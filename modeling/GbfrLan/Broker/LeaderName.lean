import GbfrLan.Broker.Find
import GbfrLan.Json.Scan

/-!
# The leader name of a search row

The title reads `string_key5` of a row as a JSON object with a name in it. Search data that does
not have one is given one from the properties of the lobby, and search data that has one keeps it,
so a row that is searched again stays as it is.
-/
namespace GbfrLan.Broker
open Lib Json
open Http (trim)

/-! ### White space -/

theorem mem_dropWhile_of_not {p : Char → Bool} {c : Char} {cs : List Char} (hc : p c = false) :
    c ∈ cs.dropWhile p ↔ c ∈ cs := by
  constructor
  · exact fun h => (List.dropWhile_sublist p).subset h
  · intro h
    rw [← List.takeWhile_append_dropWhile (p := p) (l := cs), List.mem_append] at h
    rcases h with h | h
    · have hall := List.mem_takeWhile_imp h
      rw [hc] at hall
      cases hall
    · exact h

/-- Trimming keeps everything but white space. -/
theorem mem_trim {c : Char} {cs : List Char} (hc : isSpace c = false) : c ∈ trim cs ↔ c ∈ cs := by
  rw [trim, List.mem_reverse, mem_dropWhile_of_not hc, List.mem_reverse, mem_dropWhile_of_not hc]

/-- There is something besides white space. -/
def Nonblank (cs : List Char) : Prop := ∃ c ∈ cs, isSpace c = false

theorem trim_ne_nil_iff {cs : List Char} : trim cs ≠ [] ↔ Nonblank cs := by
  constructor
  · intro hne
    by_contra hblank
    have hall : ∀ c ∈ cs, isSpace c = true := by
      intro c hc
      rw [← Bool.not_eq_false]
      exact fun hspace => hblank ⟨c, hc, hspace⟩
    apply hne
    rw [trim, List.dropWhile_eq_nil_iff.mpr hall]
    rfl
  · rintro ⟨c, hc, hspace⟩ hnil
    have hmem := (mem_trim hspace).mpr hc
    rw [hnil] at hmem
    cases hmem

theorem trimmed_eq_some {s t : String} : trimmed s = some t ↔
    t = String.ofList (trim s.toList) ∧ Nonblank s.toList := by
  have hempty : (String.ofList (trim s.toList)).isEmpty = true ↔ trim s.toList = [] := by
    rw [String.isEmpty_iff, ← String.toList_inj, String.toList_ofList]
    rfl
  unfold trimmed
  rw [Option.filter_some, ← trim_ne_nil_iff]
  by_cases h : trim s.toList = []
  · rw [hempty.mpr h, Bool.not_true, if_neg Bool.false_ne_true]
    exact ⟨nofun, fun hne => absurd h hne.2⟩
  · rw [Bool.eq_false_iff.mpr (mt hempty.mp h), Bool.not_false, if_pos rfl, Option.some.injEq]
    exact ⟨fun heq => ⟨heq.symm, h⟩, fun heq => heq.1.symm⟩

theorem trimmed_isSome {s : String} : (trimmed s).isSome = true ↔ Nonblank s.toList := by
  rw [Option.isSome_iff_exists]
  simp only [trimmed_eq_some, exists_eq_left]

theorem Nonblank.of_trimmed {s t : String} (h : trimmed s = some t) : Nonblank t.toList := by
  obtain ⟨rfl, c, hc, hspace⟩ := trimmed_eq_some.mp h
  exact ⟨c, by rw [String.toList_ofList, mem_trim hspace]; exact hc, hspace⟩

/-! ### Objects of strings -/

section
variable (readFloat : List Char → Option UInt64) (numberText : Number → String)

theorem strTail_writeChar (c : Char) (cs : List Char) :
    Read.strTail (writeChar c ++ cs) = (Read.strTail cs).map fun (s, rest) => (c :: s, rest) := by
  unfold writeChar
  split_ifs with hquote hback hb hf hn hr ht hlow
  · subst hquote
    exact strTail_short rfl (by decide) cs
  · subst hback
    exact strTail_short rfl (by decide) cs
  · subst hb
    exact strTail_short rfl (by decide) cs
  · subst hf
    exact strTail_short rfl (by decide) cs
  · subst hn
    exact strTail_short rfl (by decide) cs
  · subst hr
    exact strTail_short rfl (by decide) cs
  · subst ht
    exact strTail_short rfl (by decide) cs
  · exact strTail_control hlow cs
  · refine Read.strTail_cons_plain ?_ cs
    simp only [Read.isPlainChar, Bool.and_eq_true, bne_iff_ne, ne_eq, decide_eq_true_eq]
    exact ⟨⟨hquote, hback⟩, Nat.le_of_not_lt hlow⟩

theorem quotes_writeTail (s : String) : Read.Quotes (s.toList.flatMap writeChar) s := by
  intro rest
  induction s.toList with
  | nil => exact Read.strTail_quote rest
  | cons c cs ih =>
    rw [List.flatMap_cons, List.append_assoc, strTail_writeChar, ih]
    rfl

/-- A text member of an object, as it is written. -/
def textMember (d : ℕ) (e : String × String) : Read.Member readFloat d where
  keyText := e.1.toList.flatMap writeChar
  key := e.1
  text := writeString e.2
  val := .string e.2
  quotes := quotes_writeTail e.1
  reads := Read.reads_string readFloat d (quotes_writeTail e.2)

theorem fieldText_string (d : ℕ) (e : String × String) : fieldText numberText (e.1, .string e.2) =
    (textMember readFloat d e).full := by
  simp [fieldText, Value.text, writeString, writeTail, textMember, Read.Member.full]

theorem moreFieldsText_strings (d : ℕ) (es : List (String × String)) :
    moreFieldsText numberText (es.map fun e => (e.1, .string e.2)) =
      (es.flatMap fun e => ',' :: (textMember readFloat d e).full) ++ ['}'] := by
  induction es with
  | nil => rfl
  | cons e es ih =>
    rw [List.map_cons, moreFieldsText, ih, fieldText_string readFloat numberText d,
      List.flatMap_cons, List.append_assoc]
    rfl

/-- An object of strings is read back. -/
theorem fromSlice_strings (es : List (String × String)) :
    Read.fromSlice readFloat (Value.text numberText (.object (es.map fun e => (e.1, .string e.2)))) =
      some (.obj (es.map fun e => (e.1, .string e.2))) := by
  apply Read.fromSlice_of_reads
  have hreads := Read.reads_object (d := 126) (es.map (textMember readFloat 127))
  rw [List.map_map, List.map_map] at hreads
  have htext : Value.text numberText (.object (es.map fun e => (e.1, .string e.2))) =
      '{' :: Text.commas (es.map fun e => (textMember readFloat 127 e).full) ++ ['}'] := by
    cases es with
    | nil => rfl
    | cons e es =>
      rw [Value.text, List.map_cons, fieldsText, fieldText_string readFloat numberText 127,
        moreFieldsText_strings readFloat numberText 127, List.map_cons, Text.commas,
        List.flatMap_map, List.cons_append, List.append_assoc]
  rw [htext]
  exact hreads

end

/-! ### Names -/

section
variable (host : Host) (readFloat : List Char → Option UInt64)

theorem mapNonempty_isSome {map : Fields} {key : String} : (mapNonempty host map key).isSome = true ↔
    ∃ v t, Entries.get? key map = some v ∧ valueAsString host v = some t ∧ Nonblank t.toList := by
  unfold mapNonempty
  cases hget : Entries.get? key map with
  | none => simp
  | some v =>
    cases htext : valueAsString host v with
    | none => simp [htext]
    | some t => simp [htext, trimmed_isSome]

theorem Nonblank.of_mapNonempty {map : Fields} {key t : String} (h : mapNonempty host map key = some t) :
    Nonblank t.toList := by
  obtain ⟨s, -, hs⟩ := Option.bind_eq_some_iff.mp h
  exact .of_trimmed hs

/-- The text is a JSON object with a leader name. -/
def NamesLeader (s : String) : Prop :=
  ∃ o v t, Read.fromSlice readFloat s.toList = some (.object o) ∧
    Entries.get? "leader_name" o = some v ∧ valueAsString host v = some t ∧ trim t.toList ≠ []

theorem stringKey5LeaderName_isSome {s : String} :
    (stringKey5LeaderName host readFloat s).isSome = true ↔ NamesLeader host readFloat s := by
  unfold stringKey5LeaderName NamesLeader
  cases Read.fromSlice readFloat s.toList with
  | none => simp
  | some v =>
    cases v with
    | object o => simp [Value.asObject, mapNonempty_isSome, trim_ne_nil_iff]
    | _ => simp [Value.asObject]

/-- An owner who is a member with a name gives it to the lobby. -/
theorem Nonblank.of_ownerMemberUserName {l : Lobby} {t : String}
    (h : ownerMemberUserName host l = some t) : Nonblank t.toList := by
  unfold ownerMemberUserName at h
  simp only at h
  split_ifs at h
  obtain ⟨m, -, hm⟩ := List.exists_of_findSome?_eq_some h
  split_ifs at hm
  obtain ⟨d, -, hd⟩ := Option.bind_eq_some_iff.mp hm
  exact .of_mapNonempty host hd

/-- Whichever of the four names is taken, it is not blank. -/
theorem nonblank_lobbyDisplayName (l : Lobby) : Nonblank (lobbyDisplayName host l).toList := by
  unfold lobbyDisplayName
  simp only
  generalize hname : (mapNonempty host l.lobbyData "leader_name").or
    ((mapNonempty host l.lobbyData "leader_platform_user_name").or (ownerMemberUserName host l)) = name
  have hdefault : Nonblank "LAN".toList := ⟨'L', by decide, by decide⟩
  cases name with
  | none => exact hdefault
  | some t =>
    rw [Option.filter_some]
    split_ifs
    · rcases Option.or_eq_some_iff.mp hname with h | ⟨-, h⟩
      · exact .of_mapNonempty host h
      · rcases Option.or_eq_some_iff.mp h with h | ⟨-, h⟩
        · exact .of_mapNonempty host h
        · exact .of_ownerMemberUserName host h
    · exact hdefault

/-- An object with a name is one that names a leader, once it is read back. -/
theorem namesLeader_toJson {o : Fields} (hread : Read.fromSlice readFloat
      (Value.text (numberText host) (.object o)) = some (.object o))
    (hname : (mapNonempty host o "leader_name").isSome = true) :
    NamesLeader host readFloat (toJson host (.object o)) := by
  obtain ⟨v, t, hv, ht, hblank⟩ := (mapNonempty_isSome host).mp hname
  refine ⟨o, v, t, ?_, hv, ht, trim_ne_nil_iff.mpr hblank⟩
  rw [toJson, String.toList_ofList]
  exact hread

/-- The object of the leader is read back, with a name. -/
theorem namesLeader_leaderObject (l : Lobby) :
    NamesLeader host readFloat (toJson host (leaderObject host l)) := by
  set leader := lobbyDisplayName host l with hleader
  let value (key default : String) : String := (mapNonempty host l.lobbyData key).getD default
  let es : List (String × String) := [("leader_name", leader), ("leader_platform", value "leader_platform" "1"),
    ("leader_platform_account_id", value "leader_platform_account_id" "1"),
    ("leader_platform_user_name", value "leader_platform_user_name" leader)]
  have hread := fromSlice_strings readFloat (numberText host) es
  -- the fields are written in the order of their keys
  let keys : List (String × ℕ) := [("leader_name", 0), ("leader_platform", 1),
    ("leader_platform_account_id", 2), ("leader_platform_user_name", 3)]
  have horder : keys.foldl (fun m e => Entries.insert e.1 e.2 m) [] = keys := by decide
  have hobj : Value.obj (es.map fun e => (e.1, .string e.2)) = .object (es.map fun e => (e.1, .string e.2)) :=
    Value.obj_map (fun n => .string ((es.map Prod.snd).getD n "")) horder
  have hleaderObject : leaderObject host l = .obj (es.map fun e => (e.1, .string e.2)) := rfl
  rw [hobj] at hread
  rw [hleaderObject, hobj]
  refine namesLeader_toJson host readFloat hread ((mapNonempty_isSome host).mpr ?_)
  exact ⟨.string leader, leader, rfl, rfl, hleader ▸ nonblank_lobbyDisplayName host l⟩

/-! ### Search data -/

/-- The search data names a leader. -/
def Usable (sd : Fields) : Prop :=
  ∃ s, Entries.get? "string_key5" sd = some (.string s) ∧ NamesLeader host readFloat s

/-- An object under the key, if there is one, is read back from its text. -/
def ReadsBack (sd : Fields) : Prop :=
  ∀ o, Entries.get? "string_key5" sd = some (.object o) →
    Read.fromSlice readFloat (Value.text (numberText host) (.object o)) = some (.object o)

theorem usable_put {s : String} (sd : Fields) (h : NamesLeader host readFloat s) :
    Usable host readFloat (Entries.insert "string_key5" (.string s) sd) :=
  ⟨s, by rw [Entries.get?_insert, if_pos rfl], h⟩

theorem ensureSearchLeaderName_of_usable {sd : Fields} (h : Usable host readFloat sd) (l : Lobby) :
    ensureSearchLeaderName host readFloat sd l = sd := by
  obtain ⟨s, hs, hnames⟩ := h
  unfold ensureSearchLeaderName
  rw [hs]
  exact if_pos ((stringKey5LeaderName_isSome host readFloat).mpr hnames)

theorem usable_ensureSearchLeaderName {sd : Fields} (hback : ReadsBack host readFloat sd) (l : Lobby) :
    Usable host readFloat (ensureSearchLeaderName host readFloat sd l) := by
  have hrepair := usable_put host readFloat sd (namesLeader_leaderObject host readFloat l)
  cases hget : Entries.get? "string_key5" sd with
  | none =>
    unfold ensureSearchLeaderName
    rw [hget]
    exact hrepair
  | some v =>
    cases v with
    | string s =>
      unfold ensureSearchLeaderName
      rw [hget]
      simp only
      split_ifs with h
      · exact ⟨s, hget, (stringKey5LeaderName_isSome host readFloat).mp h⟩
      · exact hrepair
    | object o =>
      unfold ensureSearchLeaderName
      rw [hget]
      simp only
      split_ifs with h
      · exact usable_put host readFloat _ (namesLeader_toJson host readFloat (hback o hget) h)
      · exact hrepair
    | null | bool b | number n | array xs =>
      unfold ensureSearchLeaderName
      rw [hget]
      exact hrepair

/-- No other key is changed. -/
theorem get?_ensureSearchLeaderName {k : String} (hk : k ≠ "string_key5") (sd : Fields) (l : Lobby) :
    Entries.get? k (ensureSearchLeaderName host readFloat sd l) = Entries.get? k sd := by
  have hput (v : Value) (sd : Fields) :
      Entries.get? k (Entries.insert "string_key5" v sd) = Entries.get? k sd := by
    rw [Entries.get?_insert, if_neg hk]
  unfold ensureSearchLeaderName
  split
  · split_ifs
    · rfl
    · exact hput _ _
  · split_ifs
    · rw [hput, Entries.get?_erase, if_neg hk]
    · exact hput _ _
  · exact hput _ _

/-- What a search makes of the search data of a lobby. -/
structure RowReady (l : Lobby) : Prop where
  usable : Usable host readFloat (searchDataForFind host readFloat l)
  kept : ∀ k, k ≠ "string_key5" → (k = "string_key8" → Entries.contains k l.searchData = true) →
    Entries.get? k (searchDataForFind host readFloat l) = Entries.get? k l.searchData
  verbatim : ∀ s, Entries.get? "string_key5" l.searchData = some (.string s) →
    NamesLeader host readFloat s →
    Entries.get? "string_key5" (searchDataForFind host readFloat l) = some (.string s)
  again : searchDataForFind host readFloat { l with searchData := searchDataForFind host readFloat l } =
    searchDataForFind host readFloat l

theorem get?_searchDataForFind_of_ne {k : String} (l : Lobby)
    (hk : k = "string_key8" → Entries.contains k l.searchData = true) :
    Entries.get? k (searchDataForFind host readFloat l) =
      Entries.get? k (ensureSearchLeaderName host readFloat l.searchData l) := by
  unfold searchDataForFind
  simp only
  split_ifs with hhas hoid
  · rfl
  · rfl
  · rw [Entries.get?_insert]
    split_ifs with heq
    · refine absurd ?_ hhas
      have hcontains := hk heq
      rw [heq, Entries.contains] at hcontains
      rw [Entries.contains, get?_ensureSearchLeaderName host readFloat (by decide)]
      exact hcontains
    · rfl

/-- Every row has a leader name, and keeps what is right. -/
theorem rowReady (l : Lobby) (hback : ReadsBack host readFloat l.searchData) :
    RowReady host readFloat l := by
  have hkey5 := @get?_searchDataForFind_of_ne host readFloat "string_key5" l
    fun heq => absurd heq (by decide)
  have husable : Usable host readFloat (searchDataForFind host readFloat l) := by
    obtain ⟨s, hs, hnames⟩ := usable_ensureSearchLeaderName host readFloat hback l
    exact ⟨s, hkey5.trans hs, hnames⟩
  refine ⟨husable, fun k hk hkey8 => ?_, fun s hs hnames => ?_, ?_⟩
  · rw [get?_searchDataForFind_of_ne host readFloat l hkey8, get?_ensureSearchLeaderName host readFloat hk]
  · rw [hkey5, ensureSearchLeaderName_of_usable host readFloat ⟨s, hs, hnames⟩, hs]
  · have hsame := ensureSearchLeaderName_of_usable host readFloat husable
      { l with searchData := searchDataForFind host readFloat l }
    have hadded : Entries.contains "string_key8" (searchDataForFind host readFloat l) = true ∨
        (lobbyOwnerId l).isEmpty = true := by
      unfold searchDataForFind
      simp only
      split_ifs with hhas hoid
      · exact .inl hhas
      · exact .inr hoid
      · left
        rw [Entries.contains, Entries.get?_insert, if_pos rfl]
        rfl
    rw [searchDataForFind.eq_def _ _ { l with searchData := _ }]
    simp only [hsame]
    rcases hadded with hhas | hoid
    · rw [if_pos hhas]
    · split_ifs
      · rfl
      · rfl
      · rename_i hne
        exact absurd hoid hne

end

/-- A lobby whose search data has the leader as an object. -/
def leaderLobby : Lobby where
  id := "lobby"
  connection := "lan.lobby"
  owner := .obj [("Id", .string "A1")]
  ownerMigrationPolicy := 1
  maxPlayers := 4
  lobbyData := []
  searchData := [("string_key5", .object [("leader_name", .string " Katalina ")])]
  accessPolicy := "Public"
  membershipLock := "Unlocked"
  members := []
  created := 0

theorem leaderLobby_ready :
    RowReady ⟨id, id, fun _ => "0.0", fun _ => 0⟩ (fun _ => none) leaderLobby := by
  refine rowReady _ _ leaderLobby fun o ho => ?_
  cases ho
  exact fromSlice_strings _ _ [("leader_name", " Katalina ")]

end GbfrLan.Broker
