import GbfrLan.Broker.Find
import GbfrLan.Broker.MeshCap

/-!
# The rows of a search

Without numbers that have no order, the rows are the lobbies that match, the first ones in the order
of the search. The text of a search value can be such a number, and then the order is none.
-/
namespace GbfrLan.Broker
open Lib Json
open LobbyFilter (parseFilter parseSort sortNumber KeyNumber numberKeyName)

section
variable (host : Host) (readFloat : List Char → Option UInt64) (app : App) (q : FindQuery)

/-- A stored lobby that satisfies the filter. -/
def FindQuery.Matches (l : Lobby) : Prop :=
  (∃ k, app.lobbies.get? k = some l) ∧
    (parseFilter q.filter).matchesView host (q.view host readFloat l) = true

/-- The lobbies that a search without a friends filter returns. -/
structure RightRows (ls : List Lobby) : Prop where
  distinct : (ls.map Lobby.id).Nodup
  sound : ∀ l ∈ ls, q.Matches host readFloat app l
  complete : (∀ c, q.count = some c → c ≤ 0) → ∀ l, q.Matches host readFloat app l → l ∈ ls
  counted : ∀ c, q.count = some c → 0 < c → ∃ found : List Lobby, (found.map Lobby.id).Nodup ∧
    (∀ l, l ∈ found ↔ q.Matches host readFloat app l) ∧
      (ls.length : ℤ) = min (min c 1000) found.length
  best : ∀ l, q.Matches host readFloat app l → l ∉ ls → ∀ l' ∈ ls, q.cmp host readFloat l l' ≠ .lt
  sorted : ls.Pairwise fun a b => q.cmp host readFloat a b ≠ .gt

/-- No number that the search sorts by is without an order. -/
def FindQuery.Ordered (l : Lobby) : Prop :=
  ∀ spec ∈ (parseSort q.sort).1,
    sortNumber (lobbyView host readFloat q.viewer false l) spec.key ≠ some .nan

/-- The comparison is a total preorder where each term compares in one. -/
theorem cmp_preorder_of_specs {S : Set Lobby} (h : ∀ spec ∈ (parseSort q.sort).1,
    PreorderOn (lobbyView host readFloat q.viewer false '' S) spec.cmp) :
    PreorderOn S (q.cmp host readFloat) := by
  have hnumbers := (LobbyFilter.cmpLobbies_preorder h).comap
    (lobbyView host readFloat q.viewer false) fun l hl => Set.mem_image_of_mem _ hl
  have hcreated : PreorderOn S fun a b => compare b.created a.created :=
    (PreorderOn.ofLinear Set.univ).flip.comap Lobby.created fun _ _ => Set.mem_univ _
  exact hnumbers.andThen hcreated

theorem cmp_preorder {S : Set Lobby} (h : ∀ l ∈ S, q.Ordered host readFloat l) :
    PreorderOn S (q.cmp host readFloat) := by
  refine cmp_preorder_of_specs host readFloat q fun spec hspec => spec.cmp_preorder.mono ?_
  rintro - ⟨l, hl, rfl⟩
  exact h l hl spec hspec

end

section
variable {host : Host} {readFloat : List Char → Option UInt64} {app : App}

/-- The ids of the stored lobbies are distinct. -/
theorem ids_iter_nodup (h : app.Ok) (order : List String) :
    ((app.lobbies.iter order).map Lobby.id).Nodup := by
  have hids : (app.lobbies.iter order).map Lobby.id =
      (app.lobbies.iterEntries order).map Prod.fst := by
    rw [OrdMap.iter_eq_map, List.map_map]
    refine List.map_congr_left fun e he => ?_
    exact (h e.1 e.2 (OrdMap.mem_iterEntries.mp he)).id
  rw [hids]
  exact app.lobbies.keys_iterEntries_nodup order

/-- The count of a search is positive and cuts the rows, or all of them are returned. -/
theorem Finder.candidates_cases (f : Finder) (app : App) (r : Request) :
    ((∀ c, (findQuery app r).count = some c → c ≤ 0) ∧
      f.candidates app r = f.sort (findQuery app r) ((app.lobbies.iter r.moment.order).filter
        fun l => !(findQuery app r).friendsFilter && f.selects (findQuery app r) l)) ∨
    ∃ c, (findQuery app r).count = some c ∧ 0 < c ∧
      f.candidates app r = (f.sort (findQuery app r) ((app.lobbies.iter r.moment.order).filter
        fun l => !(findQuery app r).friendsFilter && f.selects (findQuery app r) l)).take
          (min c 1000).toNat := by
  unfold Finder.candidates
  simp only
  cases hcount : (findQuery app r).count with
  | none => exact .inl ⟨nofun, rfl⟩
  | some c =>
    simp only [Option.some.injEq]
    split_ifs with hc
    · exact .inr ⟨c, rfl, hc, rfl⟩
    · exact .inl ⟨fun c' heq => heq ▸ not_lt.mp hc, rfl⟩

theorem rightRows (hok : app.Ok) (r : Request)
    (hordered : ∀ k l, app.lobbies.get? k = some l → (findQuery app r).Ordered host readFloat l)
    (hfriends : (findQuery app r).friendsFilter = false) :
    RightRows host readFloat app (findQuery app r) ((finder host readFloat).candidates app r) := by
  set q := findQuery app r with hq
  set found := (app.lobbies.iter r.moment.order).filter
    fun l => !q.friendsFilter && (finder host readFloat).selects q l with hfound
  have hmem : ∀ l, l ∈ found ↔ q.Matches host readFloat app l := by
    intro l
    rw [hfound, List.mem_filter, OrdMap.mem_iter_iff, hfriends]
    exact Iff.rfl
  have hdistinct : (found.map Lobby.id).Nodup :=
    (ids_iter_nodup hok r.moment.order).sublist (List.filter_sublist.map _)
  have hpre : PreorderOn {l | l ∈ found} (q.cmp host readFloat) := by
    refine cmp_preorder host readFloat q fun l hl => ?_
    obtain ⟨k, hk⟩ := ((hmem l).mp hl).1
    exact hordered k l hk
  have hperm : ∀ l, l ∈ sortBy (q.cmp host readFloat) found ↔ l ∈ found := fun l =>
    (sortBy_perm _ _).mem_iff
  have hsortedDistinct : ((sortBy (q.cmp host readFloat) found).map Lobby.id).Nodup :=
    ((sortBy_perm _ _).map _).nodup_iff.mpr hdistinct
  -- Both kinds of result are a prefix of the sorted lobbies.
  have hprefix (n : ℕ) {ls : List Lobby} (hls : ls = (sortBy (q.cmp host readFloat) found).take n)
      (hcomplete : (∀ c, q.count = some c → c ≤ 0) → found.length ≤ n)
      (hcounted : ∀ c, q.count = some c → 0 < c → n = (min c 1000).toNat) :
      RightRows host readFloat app q ls := by
    subst hls
    refine ⟨hsortedDistinct.sublist ((List.take_sublist _ _).map _), fun l hl => ?_,
      fun hno l hl => ?_, fun c hcount hc => ⟨found, hdistinct, hmem, ?_⟩, fun l hl hcut l' hl' => ?_,
      (sortBy_sorted hpre).sublist (List.take_sublist _ _)⟩
    · exact (hmem l).mp ((hperm l).mp (List.mem_of_mem_take hl))
    · rw [List.take_of_length_le]
      · exact (hperm l).mpr ((hmem l).mpr hl)
      · rw [(sortBy_perm _ _).length_eq]
        exact hcomplete hno
    · rw [List.length_take, (sortBy_perm _ _).length_eq, hcounted c hcount hc]
      omega
    · exact not_lt_of_notMem_take hpre ((hmem l).mpr hl) hcut hl'
  rcases (finder host readFloat).candidates_cases app r with ⟨hno, hls⟩ | ⟨c, hcount, hc, hls⟩
  · refine hprefix found.length ?_ (fun _ => le_rfl) fun c hcount hc => absurd (hno c hcount) (by omega)
    rw [hls, List.take_of_length_le (sortBy_perm _ _).length_eq.le]
    rfl
  · refine hprefix _ hls (fun hno => absurd (hno c hcount) (by omega)) fun c' hcount' _ => ?_
    rw [hcount, Option.some.injEq] at hcount'
    rw [hcount']

end

/-! ### What the reply says -/

/-- A search with a friends filter, or with text in its filter that is not understood. -/
def FindQuery.Unanswerable (q : FindQuery) : Prop :=
  q.friendsFilter = true ∨ (parseFilter q.filter).unsupported ≠ []

section
variable (host : Host) (readFloat : List Char → Option UInt64)

theorem candidates_of_unanswerable (app : App) (r : Request) (h : (findQuery app r).Unanswerable) :
    (finder host readFloat).candidates app r = [] := by
  set q := findQuery app r with hq
  have hnone : (app.lobbies.iter r.moment.order).filter
      (fun l => !q.friendsFilter && (finder host readFloat).selects q l) = [] := by
    rw [List.filter_eq_nil_iff]
    intro l _ hl
    obtain ⟨hfriends, hmatch⟩ := Bool.and_eq_true_iff.mp hl
    rcases h with hf | hf
    · rw [hf] at hfriends
      cases hfriends
    · rw [show (finder host readFloat).selects q l = false from
        LobbyFilter.matchesView_of_unsupported hf host _] at hmatch
      cases hmatch
  have hsort : (finder host readFloat).sort q [] = [] :=
    List.perm_nil.mp ((finder host readFloat).sort_perm q [])
  rcases (finder host readFloat).candidates_cases app r with ⟨-, hls⟩ | ⟨c, -, -, hls⟩
  · rw [hls, ← hq, hnone, hsort]
  · rw [hls, ← hq, hnone, hsort, List.take_nil]

theorem warnings_of_unanswerable {q : FindQuery} (h : q.Unanswerable) : q.warnings ≠ [] := by
  intro hnil
  simp only [FindQuery.warnings, List.append_eq_nil_iff] at hnil
  rcases h with hf | hf
  · simp [hf] at hnil
  · exact hf hnil.1.1

theorem findData_lobbies (app : App) (r : Request) : (findData host readFloat app r).get "Lobbies" =
    some (.array (((finder host readFloat).candidates app r).map (finder host readFloat).row)) := by
  have hne : "Lobbies" ≠ "Warnings" := by decide
  unfold findData
  simp only
  split_ifs
  · simp [Value.get_obj, Entries.get?, Finder.rows]
  · rw [Value.get_insertField_of_ne hne]
    simp [Value.get_obj, Entries.get?, Finder.rows]

theorem findData_warnings (app : App) (r : Request) (h : (findQuery app r).warnings ≠ []) :
    ∃ w ws, (findData host readFloat app r).get "Warnings" = some (.array (w :: ws)) := by
  obtain ⟨w, ws, hws⟩ := List.exists_cons_of_ne_nil h
  refine ⟨.string w, ws.map .string, ?_⟩
  unfold findData
  simp [hws, Value.obj, Value.insertField]

/-- In every state that a broker reaches, the rows of a search are the right ones, unless the search
has a friends filter or unsupported text: then there are no rows and a warning. -/
theorem find_rows_right (app : App) (qs : List Query) (r : Request)
    (hordered : ∀ k l, (app.after host qs).lobbies.get? k = some l →
      (findQuery (app.after host qs) r).Ordered host readFloat l) :
    (∃ ls, (findData host readFloat (app.after host qs) r).get "Lobbies" =
        some (.array (ls.map (finder host readFloat).row)) ∧
      ((findQuery (app.after host qs) r).friendsFilter = false →
        RightRows host readFloat (app.after host qs) (findQuery (app.after host qs) r) ls) ∧
      ((findQuery (app.after host qs) r).Unanswerable → ls = [])) ∧
    ((findQuery (app.after host qs) r).Unanswerable → ∃ w ws,
      (findData host readFloat (app.after host qs) r).get "Warnings" = some (.array (w :: ws))) := by
  have hok := app.after_ok host qs
  exact ⟨⟨_, findData_lobbies host readFloat _ r, rightRows hok r hordered,
      candidates_of_unanswerable host readFloat _ r⟩,
    fun h => findData_warnings host readFloat _ r (warnings_of_unanswerable h)⟩

end

/-- SHA-1 and base64 where runs of an anonymous client read them at three clock values. -/
def threeClocks : Host :=
  { anonymousHost with
    sha1Hex := fun s =>
      if s = "1767225601.5a07e41cf7143288d" then "eeed64b3ea0a6706a46aca211feff35be7b590c8"
      else if s = "1767225602.5a07e41cf7143288d" then "22302975c6e19f96a3b368547a1f012b351c57c1"
      else anonymousHost.sha1Hex s }

/-- A lobby of this owner with the first search number. -/
def createNumber (now : ℚ) (nowText owner text : String) : Query :=
  .playfab ⟨⟨now, nowText, []⟩, "/Lobby/CreateLobby",
    .obj [("Owner", .obj [("Id", .string owner)]),
      ("SearchData", .obj [("number_key1", .string text)])], OrdMap.empty⟩

/-- Two lobbies with numbers. -/
def createTwo : List Query :=
  [createNumber (1767225600 + 1 / 2) "1767225600.5" "first" "0",
    createNumber (1767225601 + 1 / 2) "1767225601.5" "second" "2.5"]

/-- A search for the lobby with the largest number. -/
def findLargest : Request :=
  ⟨⟨1767225602, "1767225602", []⟩, "/Lobby/FindLobbies",
    .obj [("Filter", .string "number_key1 ge 0"), ("OrderBy", .string "number_key1 desc"),
      ("ClientSearchResultCount", number 1)], OrdMap.empty⟩

instance (host : Host) (readFloat : List Char → Option UInt64) (q : FindQuery) (l : Lobby) :
    Decidable (q.Ordered host readFloat l) :=
  inferInstanceAs (Decidable (∀ spec ∈ _, _))

theorem findLargest_right : ∃ ls : List Lobby,
    (findData threeClocks (fun _ => none) ((App.new "1AC1AD" 8 false).after threeClocks createTwo)
      findLargest).get "Lobbies" =
        some (.array (ls.map (finder threeClocks fun _ => none).row)) ∧
    RightRows threeClocks (fun _ => none) ((App.new "1AC1AD" 8 false).after threeClocks createTwo)
      (findQuery ((App.new "1AC1AD" 8 false).after threeClocks createTwo) findLargest) ls := by
  set app := (App.new "1AC1AD" 8 false).after threeClocks createTwo with happ
  have hall : ∀ l ∈ app.lobbies.iter [],
      (findQuery app findLargest).Ordered threeClocks (fun _ => none) l := by decide +kernel
  obtain ⟨⟨ls, hls, hright, -⟩, -⟩ := find_rows_right threeClocks (fun _ => none)
    (App.new "1AC1AD" 8 false) createTwo findLargest
    fun k l hl => hall l (OrdMap.mem_iter_iff.mpr ⟨k, hl⟩)
  exact ⟨ls, hls, hright (by decide +kernel)⟩

/-! ### Numbers without an order -/

/-- A lobby that a broker can store. -/
def Stored (host : Host) (l : Lobby) : Prop :=
  ∃ (app : App) (qs : List Query) (k : String), (app.after host qs).lobbies.get? k = some l

section
variable {host : Host} {readFloat : List Char → Option UInt64}

theorem Stored.ok {l : Lobby} (h : Stored host l) :
    2 ≤ l.maxPlayers ∧ l.maxPlayers ≤ 32 ∧ l.members.length ≤ 32 := by
  obtain ⟨app, qs, k, hk⟩ := h
  have hl := app.after_ok host qs k l hk
  have hroom := hl.room
  have hhigh := hl.high
  exact ⟨hl.low, hhigh, by omega⟩

/-- A small integer is a number. -/
theorem ofInt_small {n : ℤ} (hlow : 0 ≤ n) (hhigh : n ≤ 32) : ∃ q, F64.ofInt n = .fin q := by
  have hall : ∀ k : Fin 33, F64.ofInt (k : ℕ) = .fin (k : ℕ) := by decide +kernel
  have hn := hall ⟨n.toNat, by omega⟩
  rw [show ((n.toNat : ℕ) : ℤ) = n by omega] at hn
  exact ⟨_, hn⟩

/-- Only the search numbers of a stored lobby can be without an order. -/
theorem Stored.sortNumber_ne_nan {l : Lobby} (h : Stored host l) (viewer : Option String)
    {key : LobbyFilter.Key} (hkey : ∀ n, key ≠ .numberKey n) :
    sortNumber (lobbyView host readFloat viewer false l) key ≠ some .nan := by
  obtain ⟨hlow, hhigh, hmembers⟩ := h.ok
  obtain ⟨m, hm⟩ := ofInt_small (by omega) hhigh
  obtain ⟨c, hc⟩ := ofInt_small (n := (l.members.length : ℤ)) (by omega) (by omega)
  cases key with
  | numberKey n => exact absurd rfl (hkey n)
  | memberCount => simp [sortNumber, lobbyView, hc]
  | maxMemberCount => simp [sortNumber, lobbyView, hm]
  | memberCountRemaining =>
    simp only [sortNumber, lobbyView, hm, hc, F64.sub, ne_eq, Option.some.injEq]
    exact F64.ofRat_ne_nan _
  | _ => simp [sortNumber]

/-- A search keeps the search data, but for the two properties that it fills in. -/
theorem get?_searchDataForFind {l : Lobby} {key : String} (h5 : key ≠ "string_key5")
    (h8 : key ≠ "string_key8") :
    Entries.get? key (searchDataForFind host readFloat l) = Entries.get? key l.searchData := by
  have hput : ∀ (sd : Fields) (v : Value), Entries.get? key sd = Entries.get? key l.searchData →
      Entries.get? key (Entries.insert "string_key5" v sd) = Entries.get? key l.searchData := by
    intro sd v hsd
    rw [Entries.get?_insert, if_neg h5, hsd]
  have hensure : Entries.get? key (ensureSearchLeaderName host readFloat l.searchData l) =
      Entries.get? key l.searchData := by
    unfold ensureSearchLeaderName
    simp only
    split
    · split_ifs
      · rfl
      · exact hput _ _ rfl
    · split_ifs
      · refine hput _ _ ?_
        rw [Entries.get?_erase, if_neg h5]
      · exact hput _ _ rfl
    · exact hput _ _ rfl
  unfold searchDataForFind
  simp only
  split_ifs
  · exact hensure
  · exact hensure
  · rw [Entries.get?_insert, if_neg h8, hensure]

theorem numberKeyName_injective {n m : KeyNumber} (h : numberKeyName n = numberKeyName m) : n = m := by
  have hread (k : KeyNumber) :
      LobbyFilter.keyNumber LobbyFilter.numberFamily (numberKeyName k).toList = some k := by
    have hmax : k.1 ≤ 30 := k.2.2
    rw [numberKeyName, String.toList_ofList]
    exact LobbyFilter.keyNumber_some_iff.mpr ⟨_, rfl, LobbyFilter.parseU32_toString (by omega)⟩
  have hn := hread n
  rw [h, hread m] at hn
  exact (Option.some.inj hn).symm

theorem numberKeyName_ne (n : KeyNumber) :
    numberKeyName n ≠ "string_key5" ∧ numberKeyName n ≠ "string_key8" := by
  have hhead : (numberKeyName n).toList.head? = some 'n' := by
    rw [numberKeyName, String.toList_ofList]
    rfl
  constructor <;>
  · intro heq
    rw [heq] at hhead
    exact absurd hhead (by decide)

theorem searchNumber_lobbyView (viewer : Option String) (l : Lobby) (n : KeyNumber) :
    LobbyFilter.searchNumber (lobbyView host readFloat viewer false l) n =
      (Entries.get? (numberKeyName n) l.searchData).bind LobbyFilter.valueAsF64 := by
  obtain ⟨h5, h8⟩ := numberKeyName_ne n
  exact congrArg (fun o => o.bind LobbyFilter.valueAsF64) (get?_searchDataForFind h5 h8)

/-- A create with one search number. -/
def numberCreate (n : KeyNumber) (text : String) : Request :=
  ⟨⟨0, "", []⟩, "/Lobby/CreateLobby",
    .obj [("SearchData", .object [(numberKeyName n, .string text)])], OrdMap.empty⟩

/-- The broker stores lobbies with any one search number, next to each other in all else. -/
theorem exists_sole (host : Host) (readFloat : List Char → Option UInt64) (viewer : Option String)
    (n : KeyNumber) {text : String} {x : F64} (hx : LobbyFilter.parseF64 text = some x) :
    ∃ l, Stored host l ∧ l.created = 0 ∧
      LobbyFilter.Sole n x (F64.ofInt 8) (F64.ofInt 1) (lobbyView host readFloat viewer false l) := by
  set r := numberCreate n text with hr
  set app : App := { App.new "" 8 false with lobbies := OrdMap.empty } with happ
  set p := resolvePlayer host app r "anonymous" with hp
  set made := (createLobby host p.1 r.moment r.body p.2).2 with hmade
  have hbody : (r.body.get "SearchData") = some (.object [(numberKeyName n, .string text)]) := by
    simp [hr, numberCreate, Value.get_obj, Entries.get?]
  have hsearch : made.searchData = [(numberKeyName n, .string text)] := by
    change asObjOrEmpty (((r.body.get "SearchData").or (r.body.get "searchData")).or
      (r.body.get "searchProperties")) = _
    rw [hbody]
    rfl
  have hmax : made.maxPlayers = 8 := by
    have hnone : requestedMax r.body = none := by
      simp [hr, numberCreate, requestedMax, jsonI64, Value.get_obj, Entries.get?]
    rw [hmade, hp, created_maxPlayers, hnone]
    decide
  refine ⟨made, ⟨App.new "" 8 false, [.playfab r], createdId host app r, ?_⟩, rfl, ?_, ?_, ?_, rfl⟩
  · have hroute : route "/Lobby/CreateLobby" = some .createLobby := by decide +kernel
    change (handlePlayfab host app r).1.lobbies.get? _ = _
    unfold handlePlayfab
    rw [show r.path = "/Lobby/CreateLobby" from rfl, hroute]
    change ((dropOwnerLobbies p.1 p.2.entityId).lobbies.insert (createdId host app r) made).get? _ = _
    rw [OrdMap.get?_insert, if_pos rfl]
  · rw [searchNumber_lobbyView, hsearch]
    simpa [Entries.get?, LobbyFilter.valueAsF64] using hx
  · intro m hm
    have hne : numberKeyName n ≠ numberKeyName m := fun heq => hm (numberKeyName_injective heq).symm
    rw [searchNumber_lobbyView, hsearch]
    simp [Entries.get?, hne.symm]
  · exact congrArg F64.ofInt hmax

/-- Where a term tells two search numbers apart, a third one without an order is equivalent to both. -/
theorem not_preorder_of_tells (host : Host) (readFloat : List Char → Option UInt64) {q : FindQuery}
    (h : ∃ spec ∈ (parseSort q.sort).1, spec.Tells) :
    ¬PreorderOn {l | Stored host l} (q.cmp host readFloat) := by
  intro hpre
  obtain ⟨n, text, x, hparse, hseparated⟩ := LobbyFilter.exists_separated
    (fun spec hspec => LobbyFilter.text_of_mem_parseSort hspec) h
  obtain ⟨a, ha, hca, hsa⟩ := exists_sole host readFloat q.viewer n hparse
  obtain ⟨b, hb, hcb, hsb⟩ := exists_sole host readFloat q.viewer n
    (show LobbyFilter.parseF64 "nan" = some .nan by decide +kernel)
  obtain ⟨c, hc, hcc, hsc⟩ := exists_sole host readFloat q.viewer n
    (show LobbyFilter.parseF64 "inf" = some .posInf by decide +kernel)
  have hab : q.cmp host readFloat a b = .eq := by
    rw [FindQuery.cmp, hsa.cmpLobbies_nan hsb (.inr rfl), hca, hcb]
    rfl
  have hbc : q.cmp host readFloat b c = .eq := by
    rw [FindQuery.cmp, hsb.cmpLobbies_nan hsc (.inl rfl), hcb, hcc]
    rfl
  have hac := hpre.eq_trans ha hb hc hab hbc
  rw [FindQuery.cmp, Ordering.then_eq_eq] at hac
  exact hseparated _ _ _ _ hsa hsc hac.1

/-- The comparison of a search is a total preorder on all lobbies that a broker can store exactly when
no term of the sort string sorts by a search number, other than by the distance to a target that is no
number. On lobbies without numbers that have no order it always is. -/
theorem cmp_preorder_iff (host : Host) (readFloat : List Char → Option UInt64) (q : FindQuery) :
    (PreorderOn {l | Stored host l} (q.cmp host readFloat) ↔
      ∀ spec ∈ (parseSort q.sort).1, (∃ n, spec.key = .numberKey n) → spec.Blind) ∧
    ∀ S : Set Lobby, (∀ l ∈ S, q.Ordered host readFloat l) → PreorderOn S (q.cmp host readFloat) := by
  refine ⟨⟨fun hpre spec hspec hkey => ?_, fun hblind => ?_⟩, fun S => cmp_preorder host readFloat q⟩
  · by_contra hno
    exact not_preorder_of_tells host readFloat ⟨spec, hspec, hkey, hno⟩ hpre
  · refine cmp_preorder_of_specs host readFloat q fun spec hspec => ?_
    by_cases hkey : ∃ n, spec.key = .numberKey n
    · exact LobbyFilter.SortSpec.cmp_preorder_of_blind (hblind spec hspec hkey) _
    · refine spec.cmp_preorder.mono ?_
      rintro - ⟨l, hl, rfl⟩
      exact hl.sortNumber_ne_nan q.viewer fun n hn => hkey ⟨n, hn⟩

end

/-- Three lobbies, one after another, with a number, a text of no number, and infinity. -/
def createNumbers : List Query :=
  [createNumber (1767225600 + 1 / 2) "1767225600.5" "first" "0",
    createNumber (1767225601 + 1 / 2) "1767225601.5" "second" "nan",
    createNumber (1767225602 + 1 / 2) "1767225602.5" "third" "inf"]

/-- The three lobbies come each before the next, in a circle. -/
theorem number_order_cyclic :
    ¬PreorderOn {l | ∃ k, ((App.new "1AC1AD" 8 false).after threeClocks createNumbers).lobbies.get? k =
        some l}
      (FindQuery.cmp threeClocks (fun _ => none) ⟨none, "", "number_key1 asc", none, false⟩) := by
  set lobbies := ((App.new "1AC1AD" 8 false).after threeClocks createNumbers).lobbies with hlobbies
  set cmp := FindQuery.cmp threeClocks (fun _ => none) ⟨none, "", "number_key1 asc", none, false⟩
    with hcmp
  have horders : ((lobbies.get? "lan-2b05b16a57c6").bind fun a =>
      (lobbies.get? "lan-eeed64b3ea0a").bind fun b =>
        (lobbies.get? "lan-22302975c6e1").map fun c => (cmp c b, cmp b a, cmp c a)) =
          some (.lt, .lt, .gt) := by decide +kernel
  obtain ⟨a, ha, hrest⟩ := Option.bind_eq_some_iff.mp horders
  obtain ⟨b, hb, hrest⟩ := Option.bind_eq_some_iff.mp hrest
  obtain ⟨c, hc, heq⟩ := Option.map_eq_some_iff.mp hrest
  simp only [Prod.mk.injEq] at heq
  obtain ⟨hcb, hba, hca⟩ := heq
  intro hpre
  exact hpre.trans c ⟨_, hc⟩ b ⟨_, hb⟩ a ⟨_, ha⟩ (by rw [hcb]; decide) (by rw [hba]; decide) hca

end GbfrLan.Broker
