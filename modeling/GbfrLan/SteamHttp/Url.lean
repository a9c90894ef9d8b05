import GbfrLan.Playfab.View

/-!
# The rewrite of URLs to the stub

`rewrite_http_url_to_stub` of the shared configuration, which `CreateHTTPRequest` sends every URL
through. An authority ends at a slash, a question mark or a hash; the code looks for a slash only.
-/
namespace GbfrLan.SteamHttp
open Lib
open Playfab (afterFirst)

/-- The fields of the configuration that make up the origin of the stub. -/
structure LanCfg where
  host : String
  port : UInt16

def LanCfg.origin (cfg : LanCfg) : String := "http://" ++ cfg.host ++ ":" ++ toString cfg.port.toNat

/-- From the first occurrence of a character on. -/
def fromFirst (c : Char) (cs : List Char) : Option (List Char) :=
  (Text.splitOnce c cs).map fun (_, b) => c :: b

/-- The lower-case text starts with `http://` or `https://`. -/
def isWeb (url : String) : Bool :=
  let lower := Text.lower url.toList
  "http://".toList.isPrefixOf lower || "https://".toList.isPrefixOf lower

/-- `rewrite_http_url_to_stub`. -/
def rewriteHttpUrlToStub (cfg : LanCfg) (url : String) : String :=
  if !isWeb url then url
  else
    let rest := (afterFirst "://".toList url.toList).getD []
    let path := (fromFirst '/' rest).getD ['/']
    cfg.origin ++ String.ofList path

/-! ### Absolute URLs -/

/-- The characters behind an authority. -/
def EndsAuthority (c : Char) : Prop := c = '/' ∨ c = '?' ∨ c = '#'

def webSchemes : List (List Char) := ["http".toList, "https".toList]

/-- An absolute URL of the web, cut behind its authority. -/
structure Absolute (url : String) (authority rest : List Char) : Prop where
  web : ∃ scheme, Text.lower scheme ∈ webSchemes ∧
    url.toList = scheme ++ ("://".toList ++ (authority ++ rest))
  authority : ∀ c ∈ authority, ¬EndsAuthority c
  rest : ∀ c, rest.head? = some c → EndsAuthority c

/-- With a slash in front unless there is one. -/
def slashed (rest : List Char) : List Char := if rest.head? = some '/' then rest else '/' :: rest

/-- The rewrite keeps what follows the authority, leaves other texts alone, and does nothing to
what it has rewritten. -/
structure KeepsRequest (cfg : LanCfg) (url : String) : Prop where
  request : ∀ authority rest, Absolute url authority rest →
    (rewriteHttpUrlToStub cfg url).toList = cfg.origin.toList ++ slashed rest
  other : (∀ authority rest, ¬Absolute url authority rest) → rewriteHttpUrlToStub cfg url = url
  again : rewriteHttpUrlToStub cfg (rewriteHttpUrlToStub cfg url) = rewriteHttpUrlToStub cfg url

/-- A slash follows the authority, or nothing does, and the host is free of slashes. -/
def SlashFirst (cfg : LanCfg) (url : String) : Prop :=
  ∀ authority rest, Absolute url authority rest →
    '/' ∉ cfg.host.toList ∧ rest.head? ≠ some '?' ∧ rest.head? ≠ some '#'

/-! ### Lower case -/

theorem eq_of_toLower {c d : Char} (h : c.toLower = d) (hd : d.toNat < 97) : c = d := by
  unfold Char.toLower at h
  split_ifs at h with hupper
  · have hlow : 65 ≤ c.toNat := UInt32.le_iff_toNat_le.mp hupper.1
    have hhigh : c.toNat ≤ 90 := UInt32.le_iff_toNat_le.mp hupper.2
    have hval : d.toNat = (c.val + ('a'.val - 'A'.val)).toNat := by rw [← h]; rfl
    have hdiff : ('a'.val - 'A'.val : UInt32).toNat = 32 := rfl
    have hc : c.val.toNat = c.toNat := rfl
    rw [UInt32.toNat_add, hdiff, hc] at hval
    omega
  · exact h

theorem eq_of_lower {cs ds : List Char} (h : Text.lower cs = ds) (hds : ∀ d ∈ ds, d.toNat < 97) :
    cs = ds := by
  subst h
  refine (List.map_id cs).symm.trans (List.map_congr_left fun c hc => ?_)
  exact eq_of_toLower rfl (hds _ (List.mem_map.mpr ⟨c, hc, rfl⟩))

/-- A scheme in either case, its colon and its slashes. -/
theorem scheme_prefix_iff {s cs : List Char} :
    (s ++ "://".toList).isPrefixOf (Text.lower cs) = true ↔
      ∃ scheme tail, Text.lower scheme = s ∧ cs = scheme ++ ("://".toList ++ tail) := by
  rw [List.isPrefixOf_iff_prefix]
  constructor
  · rintro ⟨t, ht⟩
    rw [List.append_assoc] at ht
    obtain ⟨scheme, behind, rfl, hscheme, hbehind⟩ := List.map_eq_append_iff.mp ht.symm
    obtain ⟨colon, tail, rfl, hcolon, -⟩ := List.map_eq_append_iff.mp hbehind
    rw [eq_of_lower hcolon (by simp)]
    exact ⟨scheme, tail, hscheme, rfl⟩
  · rintro ⟨scheme, tail, rfl, rfl⟩
    have hcolon : Text.lower "://".toList = "://".toList := by decide
    refine ⟨Text.lower tail, ?_⟩
    simp only [Text.lower, List.map_append] at hcolon ⊢
    rw [hcolon, List.append_assoc]

theorem isWeb_iff {url : String} : isWeb url = true ↔
    ∃ scheme tail, Text.lower scheme ∈ webSchemes ∧ url.toList = scheme ++ ("://".toList ++ tail) := by
  have hhttp : "http://".toList = "http".toList ++ "://".toList := by decide
  have hhttps : "https://".toList = "https".toList ++ "://".toList := by decide
  simp only [isWeb, Bool.or_eq_true, hhttp, hhttps, scheme_prefix_iff, webSchemes, List.mem_cons,
    List.not_mem_nil, or_false]
  constructor
  · rintro (⟨scheme, tail, hs, htail⟩ | ⟨scheme, tail, hs, htail⟩)
    · exact ⟨scheme, tail, .inl hs, htail⟩
    · exact ⟨scheme, tail, .inr hs, htail⟩
  · rintro ⟨scheme, tail, hs | hs, htail⟩
    · exact .inl ⟨scheme, tail, hs, htail⟩
    · exact .inr ⟨scheme, tail, hs, htail⟩

theorem colon_notMem {scheme : List Char} (h : Text.lower scheme ∈ webSchemes) : ':' ∉ scheme := by
  intro hmem
  have hlower : ':' ∈ Text.lower scheme := List.mem_map.mpr ⟨':', hmem, by decide⟩
  have hnone : ∀ s ∈ webSchemes, ':' ∉ s := by decide
  exact hnone _ h hlower

/-! ### The parts of a URL -/

/-- A pattern is found behind a text without its first character. -/
theorem afterFirst_append {p : Char} {ps front : List Char} (h : p ∉ front) (tail : List Char) :
    afterFirst (p :: ps) (front ++ (p :: ps ++ tail)) = some tail := by
  have hhere : Text.stripPrefix (p :: ps) (p :: ps ++ tail) = some tail :=
    Text.stripPrefix_some_iff.mpr rfl
  induction front with
  | nil =>
    rw [List.nil_append, List.cons_append, afterFirst]
    rw [List.cons_append] at hhere
    rw [hhere]
    rfl
  | cons c front ih =>
    have hc : p ≠ c := fun heq => h (heq ▸ List.mem_cons_self)
    have hno : Text.stripPrefix (p :: ps) (c :: (front ++ (p :: ps ++ tail))) = none := by
      rw [Text.stripPrefix, if_neg hc]
    rw [List.cons_append, afterFirst, hno]
    exact ih fun hmem => h (List.mem_cons_of_mem _ hmem)

theorem fromFirst_append {c : Char} {front : List Char} (h : c ∉ front) (tail : List Char) :
    fromFirst c (front ++ c :: tail) = some (c :: tail) := by
  rw [fromFirst, Text.splitOnce_append h]
  rfl

theorem fromFirst_of_notMem {c : Char} {cs : List Char} (h : c ∉ cs) : fromFirst c cs = none := by
  induction cs with
  | nil => rfl
  | cons d cs ih =>
    have hd : d ≠ c := fun heq => h (heq ▸ List.mem_cons_self)
    have hrest := ih fun hmem => h (List.mem_cons_of_mem _ hmem)
    rw [fromFirst, Option.map_eq_none_iff] at hrest ⊢
    rw [Text.splitOnce, if_neg hd, hrest]
    rfl

/-- The path that is kept, from what follows the scheme. -/
def pathOf (tail : List Char) : List Char := (fromFirst '/' tail).getD ['/']

theorem pathOf_append {front : List Char} (h : '/' ∉ front) (tail : List Char) :
    pathOf (front ++ '/' :: tail) = '/' :: tail := by
  rw [pathOf, fromFirst_append h]
  rfl

theorem pathOf_of_notMem {tail : List Char} (h : '/' ∉ tail) : pathOf tail = ['/'] := by
  rw [pathOf, fromFirst_of_notMem h]
  rfl

/-- A path starts with a slash. -/
theorem exists_pathOf (tail : List Char) : ∃ path, pathOf tail = '/' :: path := by
  by_cases h : '/' ∈ tail
  · obtain ⟨front, behind, rfl, hfront⟩ := List.eq_append_cons_of_mem h
    exact ⟨behind, pathOf_append hfront behind⟩
  · exact ⟨[], pathOf_of_notMem h⟩

theorem rewrite_of_not_web {cfg : LanCfg} {url : String} (h : isWeb url = false) :
    rewriteHttpUrlToStub cfg url = url := by
  rw [rewriteHttpUrlToStub, h]
  rfl

theorem rewrite_web {cfg : LanCfg} {url : String} {scheme tail : List Char}
    (hscheme : Text.lower scheme ∈ webSchemes) (hurl : url.toList = scheme ++ ("://".toList ++ tail)) :
    rewriteHttpUrlToStub cfg url = cfg.origin ++ String.ofList (pathOf tail) := by
  have hweb : isWeb url = true := isWeb_iff.mpr ⟨scheme, tail, hscheme, hurl⟩
  have hpattern : "://".toList = ':' :: "//".toList := by decide
  have hafter : afterFirst "://".toList url.toList = some tail := by
    rw [hurl, hpattern]
    exact afterFirst_append (colon_notMem hscheme) tail
  rw [rewriteHttpUrlToStub, hweb, hafter]
  rfl

/-- What follows a scheme is cut behind its authority. -/
theorem exists_authority (tail : List Char) :
    ∃ authority rest, tail = authority ++ rest ∧ (∀ c ∈ authority, ¬EndsAuthority c) ∧
      ∀ c, rest.head? = some c → EndsAuthority c := by
  induction tail with
  | nil => exact ⟨[], [], rfl, by simp, by simp⟩
  | cons c tail ih =>
    by_cases hc : EndsAuthority c
    · refine ⟨[], c :: tail, rfl, by simp, fun d hd => ?_⟩
      rw [List.head?_cons] at hd
      exact Option.some.inj hd ▸ hc
    · obtain ⟨authority, rest, rfl, hauthority, hrest⟩ := ih
      refine ⟨c :: authority, rest, rfl, fun d hd => ?_, hrest⟩
      rcases List.mem_cons.mp hd with rfl | hd
      · exact hc
      · exact hauthority d hd

theorem exists_absolute_iff {url : String} :
    (∃ authority rest, Absolute url authority rest) ↔ isWeb url = true := by
  rw [isWeb_iff]
  constructor
  · rintro ⟨authority, rest, ⟨scheme, hscheme, hurl⟩, -, -⟩
    exact ⟨scheme, authority ++ rest, hscheme, hurl⟩
  · rintro ⟨scheme, tail, hscheme, hurl⟩
    obtain ⟨authority, rest, rfl, hauthority, hrest⟩ := exists_authority tail
    exact ⟨authority, rest, ⟨scheme, hscheme, hurl⟩, hauthority, hrest⟩

/-! ### What the rewrite keeps -/

variable {cfg : LanCfg} {url : String} {authority rest : List Char}

theorem Absolute.rewrite (h : Absolute url authority rest) (cfg : LanCfg) :
    rewriteHttpUrlToStub cfg url = cfg.origin ++ String.ofList (pathOf (authority ++ rest)) := by
  obtain ⟨scheme, hscheme, hurl⟩ := h.web
  exact rewrite_web hscheme hurl

theorem Absolute.slash_notMem (h : Absolute url authority rest) : '/' ∉ authority := fun hmem =>
  h.authority _ hmem (.inl rfl)

/-- The path of a URL is what follows its authority, unless that is a query or a fragment. -/
theorem Absolute.pathOf_eq_iff (h : Absolute url authority rest) :
    pathOf (authority ++ rest) = slashed rest ↔ rest.head? ≠ some '?' ∧ rest.head? ≠ some '#' := by
  cases rest with
  | nil =>
    have hpath : pathOf (authority ++ []) = ['/'] := by
      rw [List.append_nil]
      exact pathOf_of_notMem h.slash_notMem
    exact iff_of_true hpath ⟨by simp, by simp⟩
  | cons c rest =>
    by_cases hslash : c = '/'
    · subst hslash
      exact iff_of_true (pathOf_append h.slash_notMem rest) ⟨by simp, by simp⟩
    · have hends : c = '?' ∨ c = '#' := (h.rest c rfl).resolve_left hslash
      refine iff_of_false (fun heq => ?_) fun hno => ?_
      · -- the path is cut out of what follows the mark
        have hlen : (pathOf (authority ++ c :: rest)).length ≤ (c :: rest).length := by
          by_cases hmem : '/' ∈ rest
          · obtain ⟨front, behind, rfl, hfront⟩ := List.eq_append_cons_of_mem hmem
            have hnot : '/' ∉ authority ++ c :: front := by
              simp only [List.mem_append, List.mem_cons, not_or]
              exact ⟨h.slash_notMem, Ne.symm hslash, hfront⟩
            have hpath := pathOf_append hnot behind
            rw [List.append_assoc, List.cons_append] at hpath
            rw [hpath]
            simp only [List.length_cons, List.length_append]
            omega
          · have hnot : '/' ∉ authority ++ c :: rest := by
              simp only [List.mem_append, List.mem_cons, not_or]
              exact ⟨h.slash_notMem, Ne.symm hslash, hmem⟩
            rw [pathOf_of_notMem hnot]
            simp
        have hslashed : slashed (c :: rest) = '/' :: c :: rest := by
          rw [slashed, List.head?_cons, if_neg]
          exact fun hsome => hslash (Option.some.inj hsome)
        rw [heq, hslashed, List.length_cons] at hlen
        omega
      · rcases hends with rfl | rfl
        · exact hno.1 rfl
        · exact hno.2 rfl

/-- The origin as a URL of the web. -/
theorem origin_toList (cfg : LanCfg) : cfg.origin.toList = "http".toList ++ ("://".toList ++
    (cfg.host.toList ++ ':' :: (toString cfg.port.toNat).toList)) := by
  simp [LanCfg.origin, String.toList_append]

/-- A rewritten URL is rewritten to itself exactly when the host is free of slashes. -/
theorem rewrite_again_iff (cfg : LanCfg) (path : List Char) :
    rewriteHttpUrlToStub cfg (cfg.origin ++ String.ofList ('/' :: path)) =
      cfg.origin ++ String.ofList ('/' :: path) ↔ '/' ∉ cfg.host.toList := by
  have hport : '/' ∉ (toString cfg.port.toNat).toList := fun hmem =>
    absurd (Text.isDigit_of_mem_toString hmem) (by decide)
  have hurl : (cfg.origin ++ String.ofList ('/' :: path)).toList = "http".toList ++ ("://".toList ++
      ((cfg.host.toList ++ ':' :: (toString cfg.port.toNat).toList) ++ '/' :: path)) := by
    rw [String.toList_append, String.toList_ofList, origin_toList]
    simp only [List.append_assoc]
  rw [rewrite_web (by decide) hurl]
  by_cases hhost : '/' ∈ cfg.host.toList
  · refine iff_of_false (fun heq => ?_) (not_not_intro hhost)
    obtain ⟨front, behind, hcut, hfront⟩ := List.eq_append_cons_of_mem hhost
    have hpath := pathOf_append hfront (behind ++ ':' :: (toString cfg.port.toNat).toList ++ '/' :: path)
    have hlist := congrArg String.toList heq
    rw [String.toList_append, String.toList_append, String.toList_ofList, String.toList_ofList] at hlist
    have hsame := List.append_cancel_left hlist
    rw [hcut] at hsame
    simp only [List.append_assoc, List.cons_append] at hsame hpath
    rw [hpath] at hsame
    have hlen := congrArg List.length hsame
    simp only [List.length_cons, List.length_append] at hlen
    omega
  · have hnot : '/' ∉ cfg.host.toList ++ ':' :: (toString cfg.port.toNat).toList := by
      simp only [List.mem_append, List.mem_cons, not_or]
      exact ⟨hhost, by decide, hport⟩
    rw [pathOf_append hnot]
    exact iff_of_true rfl hhost

/-- The rewrite is right for a URL exactly when its authority is not followed by a query or a
fragment and the host does not end in the middle of the origin. -/
theorem keepsRequest_iff (cfg : LanCfg) (url : String) : KeepsRequest cfg url ↔ SlashFirst cfg url := by
  cases hweb : isWeb url with
  | false =>
    have hsame : rewriteHttpUrlToStub cfg url = url := rewrite_of_not_web hweb
    have hnone : ∀ authority rest, ¬Absolute url authority rest := by
      intro authority rest h
      rw [exists_absolute_iff.mp ⟨authority, rest, h⟩] at hweb
      cases hweb
    refine iff_of_true ⟨fun a r h => absurd h (hnone a r), fun _ => hsame, ?_⟩
      fun a r h => absurd h (hnone a r)
    rw [hsame, hsame]
  | true =>
    obtain ⟨authority, rest, h⟩ := exists_absolute_iff.mpr hweb
    obtain ⟨path, hpath⟩ := exists_pathOf (authority ++ rest)
    have hagain := rewrite_again_iff cfg path
    rw [← hpath, ← h.rewrite cfg] at hagain
    constructor
    · intro hkeeps a r ha
      have hrequest := hkeeps.request a r ha
      rw [ha.rewrite, String.toList_append, String.toList_ofList] at hrequest
      exact ⟨hagain.mp hkeeps.again, ha.pathOf_eq_iff.mp (List.append_cancel_left hrequest)⟩
    · intro hslash
      refine ⟨fun a r ha => ?_, fun hnone => absurd h (hnone _ _), hagain.mpr (hslash _ _ h).1⟩
      rw [ha.rewrite, String.toList_append, String.toList_ofList,
        ha.pathOf_eq_iff.mpr (hslash a r ha).2]

/-- A query right behind the host. -/
def bareQuery : String := "https://api.example.com?key=1"

theorem bareQuery_lost : Absolute bareQuery "api.example.com".toList "?key=1".toList ∧
    rewriteHttpUrlToStub ⟨"127.0.0.1", 8080⟩ bareQuery = "http://127.0.0.1:8080/" ∧
    ¬KeepsRequest ⟨"127.0.0.1", 8080⟩ bareQuery := by
  have habsolute : Absolute bareQuery "api.example.com".toList "?key=1".toList :=
    ⟨⟨"https".toList, by decide, by decide⟩, by simp [EndsAuthority],
      fun c hc => by obtain rfl := Option.some.inj hc; exact .inr (.inl rfl)⟩
  have hresult : rewriteHttpUrlToStub ⟨"127.0.0.1", 8080⟩ bareQuery = "http://127.0.0.1:8080/" := by
    decide
  refine ⟨habsolute, hresult, fun hkeeps => ?_⟩
  have hrequest := hkeeps.request _ _ habsolute
  rw [hresult] at hrequest
  exact absurd hrequest (by decide)

end GbfrLan.SteamHttp
