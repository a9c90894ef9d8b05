import GbfrLan.Json.ByteSafe
import GbfrLan.Playfab.Batch
import GbfrLan.Playfab.Machine

/-!
# The property getters

`PFLobbyGetLobbyProperty`, `PFLobbyGetSearchProperty` and `PFLobbyGetMemberProperty` as the title
calls them between the calls and the work of the machine, with their lines of the log. A long value
is shown cut there: of a search property whole characters are taken, of a lobby property bytes, and
a slice that ends inside a character panics. Pointers may be null, and a C string that is longer
than `read_cstr` reads stands with its whole text.
-/
namespace GbfrLan.Playfab
open Lib Json

def ePfEntityKeyMalformed : UInt32 := 0x89236404

/-- `read_cstr` on a pointer. -/
def readPtr (p : Option String) : String := (p.map readCstr).getD ""

def isRealNetworkDescriptor (s : String) : Bool :=
  "LAN1.".toList.isPrefixOf s.toList && decide (5 < s.utf8ByteSize)

def previewStr (s : String) (max : ℕ) : String :=
  if s.toList.length ≤ max then s else String.ofList (s.toList.take max) ++ "..."

/-- What a getter leaves behind: the code, where the out pointer leads (`none` if it is null), and
the lines of the log. -/
structure Got where
  code : UInt32
  out : Option (Option String)
  log : List String
  deriving DecidableEq, Repr

/-- The length at which values are cut in the log. -/
def shownMax : ℕ := 96

/-- The lobby properties whose values are logged. -/
def loggedKeys : List String :=
  ["network_descriptor", "invitation_identifier", "network_id", "id_container"]

/-- Until the completion the title gets no placeholder of a network. -/
def View.hides (v : View) (k s : String) : Bool :=
  k == "network_descriptor" && v.pending && !isRealNetworkDescriptor (readCstr s)

def View.lobbyProperty (v : View) (k : String) : Option String :=
  (v.props.get? k).filter fun s => !v.hides k s

/-- A lobby property in the log. -/
def shownLobby : Option String → Lib.Outcome String
  | none => .ok "null"
  | some s =>
      let v := readCstr s
      if shownMax < (Utf8.bytes v).length then do
        let front ← ByteScan.textSlice (Utf8.bytes v) 0 shownMax
        .ok (front ++ "...")
      else .ok v

/-- A search property in the log. -/
def shownSearch : Option String → String
  | none => "null"
  | some s => if (readCstr s).isEmpty then "empty" else previewStr (readCstr s) shownMax

/-- `PFLobbyGetLobbyProperty`. -/
def getLobbyProperty (lobby : Option View) (key : Option String) (out : Option (Option String)) :
    Lib.Outcome Got :=
  match lobby, out with
  | some v, some _ =>
      let k := readPtr key
      let val := v.lobbyProperty k
      if val.isNone ∨ k ∈ loggedKeys then do
        let shown ← shownLobby val
        .ok ⟨0, some val, ["GetLobbyProperty " ++ k ++ "=" ++ shown]⟩
      else .ok ⟨0, some val, []⟩
  | _, _ => .ok ⟨Batch.eFail, out, []⟩

/-- `PFLobbyGetSearchProperty`, with `SEARCH_PROP_LOG` before and after: a value is logged when it
is not the one that was logged for the key. -/
def getSearchProperty (searchLog : OrdMap String String) (lobby : Option View) (key : Option String)
    (out : Option (Option String)) : Got × OrdMap String String :=
  match lobby, out with
  | some v, some _ =>
      let k := readPtr key
      let val := v.search.get? k
      let shown := shownSearch val
      let changed := searchLog.get? k != some shown
      (⟨0, some val, if changed then ["GetSearchProperty " ++ k ++ "=" ++ shown] else []⟩,
        searchLog.insert k shown)
  | _, _ => (⟨Batch.eFail, out, []⟩, searchLog)

/-- What `PFLobbyGetMemberProperty` logs of a member's property. -/
def memberLines (mid k : String) : Option String → List String
  | none => ["GetMemberProperty miss member=" ++ mid ++ " key=" ++ k]
  | some s =>
      if "member_platform".toList.isPrefixOf k.toList then
        ["GetMemberProperty member=" ++ mid ++ " " ++ k ++ "=" ++ readCstr s]
      else []

/-- `PFLobbyGetMemberProperty`. -/
def getMemberProperty (lobby : Option View) (member : Option EntityKey) (key : Option String)
    (out : Option (Option String)) : Got :=
  match lobby, out with
  | some v, some _ =>
      match member with
      | none => ⟨ePfEntityKeyMalformed, out, []⟩
      | some member =>
          let k := readPtr key
          let mid := readCstr member.id
          let answer := v.getMemberProperty mid k
          let lines := if v.pending ∨ answer.1 ≠ 0 then [] else memberLines mid k answer.2
          ⟨answer.1, some answer.2, lines⟩
  | _, _ => ⟨Batch.eFail, out, []⟩

/-! ### The title at work -/

structure Title where
  shim : Shim
  /-- `SEARCH_PROP_LOG`. -/
  searchLog : OrdMap String String
  lines : List String

inductive Action where
  /-- A call of another kind, or the worker. -/
  | event (e : Shim.Event)
  | getLobbyProperty (lobby : ℕ) (key : Option String) (out : Option (Option String))
  | getSearchProperty (lobby : ℕ) (key : Option String) (out : Option (Option String))
  | getMemberProperty (lobby : ℕ) (member : Option EntityKey) (key : Option String)
      (out : Option (Option String))

namespace Title

/-- Before the library is initialized. -/
def new : Title := ⟨.new, OrdMap.empty, []⟩

/-- One step. A handle that does not exist stands for a null pointer. -/
def act (t : Title) : Action → Lib.Outcome Title
  | .event e => .ok { t with shim := t.shim.step e }
  | .getLobbyProperty h key out => do
      let got ← Playfab.getLobbyProperty t.shim.handles[h]? key out
      .ok { t with lines := t.lines ++ got.log }
  | .getSearchProperty h key out =>
      let (got, searchLog) := Playfab.getSearchProperty t.searchLog t.shim.handles[h]? key out
      .ok { t with searchLog := searchLog, lines := t.lines ++ got.log }
  | .getMemberProperty h member key out =>
      let got := Playfab.getMemberProperty t.shim.handles[h]? member key out
      .ok { t with lines := t.lines ++ got.log }

/-- The run of a title. -/
def play (t : Title) (as : List Action) : Lib.Outcome Title := as.foldlM act t

/-- The title behind a step; a call that panics leaves it as it was. -/
def after (t : Title) (a : Action) : Title :=
  match t.act a with
  | .ok t' => t'
  | _ => t

/-- The call logs a value that has more bytes than are shown, with the cut inside a character. -/
def CutsInside (t : Title) : Action → Prop
  | .getLobbyProperty h key out => out.isSome ∧ readPtr key ∈ loggedKeys ∧
      ∃ v s, t.shim.handles[h]? = some v ∧ v.props.get? (readPtr key) = some s ∧
        v.hides (readPtr key) s = false ∧ Utf8.Inside s.toList shownMax
  | _ => False

/-- What is shown is cut at a character. -/
def Whole (t : Title) (a : Action) : Prop := ¬t.CutsInside a

end Title

/-! ### Cuts -/

/-- A lobby property is shown unless byte 96 of its value is inside a character: neither the bytes
that `read_cstr` leaves out nor the character that it cuts are that far in front. -/
theorem shownLobby_ok_iff (val : Option String) :
    (∃ shown, shownLobby val = .ok shown) ↔ ∀ s ∈ val, ¬Utf8.Inside s.toList shownMax := by
  cases val with
  | none => exact ⟨fun _ _ hs => absurd hs nofun, fun _ => ⟨_, rfl⟩⟩
  | some s =>
    have hread : Utf8.Inside (readCstr s).toList shownMax ↔ Utf8.Inside s.toList shownMax :=
      Utf8.inside_decodeLossy_take_iff (by unfold shownMax readCap; omega)
    have hall : (∀ s' ∈ some s, ¬Utf8.Inside s'.toList shownMax) ↔
        ¬Utf8.Inside (readCstr s).toList shownMax := by
      rw [hread]
      exact ⟨fun h => h s rfl, fun h s' hs' => Option.mem_some_iff.mp hs' ▸ h⟩
    have hsize : (Utf8.bytes (readCstr s)).length = Utf8.size (readCstr s).toList := rfl
    rw [hall]
    simp only [shownLobby]
    split_ifs with hlong
    · have hslice : (∃ t, ByteScan.textSlice (Utf8.bytes (readCstr s)) 0 shownMax = .ok t) ↔
          ¬Utf8.Inside (readCstr s).toList shownMax := ByteScan.textSlice_front_ok_iff hlong.le
      rw [← hslice, Lib.Outcome.exists_bind_eq_ok_iff]
      exact ⟨fun ⟨front, hfront, _⟩ => ⟨front, hfront⟩, fun ⟨front, hfront⟩ => ⟨front, hfront, _, rfl⟩⟩
    · refine ⟨fun _ hin => hlong ?_, fun _ => ⟨_, rfl⟩⟩
      exact hsize ▸ hin.lt_size

theorem getLobbyProperty_ok_iff (lobby : Option View) (key : Option String)
    (out : Option (Option String)) :
    (∃ got, getLobbyProperty lobby key out = .ok got) ↔
      ¬(out.isSome ∧ readPtr key ∈ loggedKeys ∧
        ∃ v s, lobby = some v ∧ v.props.get? (readPtr key) = some s ∧
          v.hides (readPtr key) s = false ∧ Utf8.Inside s.toList shownMax) := by
  cases lobby with
  | none => exact ⟨fun _ ⟨_, _, _, _, hv, _⟩ => absurd hv nofun, fun _ => ⟨_, rfl⟩⟩
  | some v =>
    cases out with
    | none => exact ⟨fun _ ⟨hout, _⟩ => absurd hout nofun, fun _ => ⟨_, rfl⟩⟩
    | some before =>
      have hvalue (s : String) : v.lobbyProperty (readPtr key) = some s ↔
          v.props.get? (readPtr key) = some s ∧ v.hides (readPtr key) s = false := by
        rw [View.lobbyProperty, Option.filter_eq_some_iff, Bool.not_eq_true']
      have hshown := shownLobby_ok_iff (v.lobbyProperty (readPtr key))
      simp only [getLobbyProperty]
      split_ifs with hlogged
      · rw [Lib.Outcome.exists_bind_eq_ok_iff]
        constructor
        · rintro ⟨shown, hok, -⟩ ⟨-, -, w, s, hw, hget, hvisible, hin⟩
          cases hw
          exact hshown.mp ⟨shown, hok⟩ s ((hvalue s).mpr ⟨hget, hvisible⟩) hin
        · intro hno
          obtain ⟨shown, hok⟩ : ∃ shown, shownLobby (v.lobbyProperty (readPtr key)) = .ok shown := by
            rw [hshown]
            intro s hs hin
            obtain ⟨hget, hvisible⟩ := (hvalue s).mp hs
            have hkey : readPtr key ∈ loggedKeys :=
              hlogged.resolve_left fun hnone => by rw [hs] at hnone; cases hnone
            exact hno ⟨rfl, hkey, v, s, rfl, hget, hvisible, hin⟩
          exact ⟨shown, hok, _, rfl⟩
      · exact ⟨fun _ ⟨_, hkey, _⟩ => hlogged (.inr hkey), fun _ => ⟨_, rfl⟩⟩

namespace Title

/-- A step returns exactly when it does not cut a character. -/
theorem act_ok_iff (t : Title) (a : Action) : (∃ t', t.act a = .ok t') ↔ t.Whole a := by
  cases a with
  | event e => exact ⟨fun _ => not_false, fun _ => ⟨_, rfl⟩⟩
  | getSearchProperty h key out => exact ⟨fun _ => not_false, fun _ => ⟨_, rfl⟩⟩
  | getMemberProperty h member key out => exact ⟨fun _ => not_false, fun _ => ⟨_, rfl⟩⟩
  | getLobbyProperty h key out =>
    have hget := getLobbyProperty_ok_iff t.shim.handles[h]? key out
    rw [Whole, CutsInside, ← hget, act, Lib.Outcome.exists_bind_eq_ok_iff]
    exact ⟨fun ⟨got, hgot, _⟩ => ⟨got, hgot⟩, fun ⟨got, hgot⟩ => ⟨got, hgot, _, rfl⟩⟩

theorem play_cons (t : Title) (a : Action) (as : List Action) :
    t.play (a :: as) = (t.act a >>= fun t' => t'.play as) := List.foldlM_cons

/-- A run of the title comes to its end, without a panic, exactly when no getter in it is asked for
a value that its line in the log cuts inside a character. -/
theorem play_ok_iff (as : List Action) (t : Title) :
    (∃ t', t.play as = .ok t') ↔ Along after Whole t as := by
  induction as generalizing t with
  | nil => exact ⟨fun _ => trivial, fun _ => ⟨t, rfl⟩⟩
  | cons a as ih =>
    rw [along_cons, ← act_ok_iff, play_cons, Lib.Outcome.exists_bind_eq_ok_iff]
    constructor
    · rintro ⟨t', hact, hrest⟩
      refine ⟨⟨t', hact⟩, ?_⟩
      rw [after, hact]
      exact (ih t').mp hrest
    · rintro ⟨⟨t', hact⟩, hrest⟩
      rw [after, hact] at hrest
      exact ⟨t', hact, (ih t').mpr hrest⟩

def isPanic (r : Lib.Outcome Title) : Bool :=
  match r with
  | .panic => true
  | _ => false

/-- A text whose byte 96 is inside a character. -/
def wideText : String := String.ofList (List.replicate 95 'a' ++ "é".toList)

/-- The reply to the `GetLobby` of a join into the lobby of a host with such an invitation. -/
def wideReply : List Char :=
  "\x7b\"LobbyData\":\x7b\"invitation_identifier\":\"".toList ++ wideText.toList ++
    ("\",\"network_descriptor\":\"LAN1.n\"\x7d," ++
      "\"LobbyId\":\"L\",\"Members\":[\x7b\"Id\":\"g\"\x7d],\"Owner\":\x7b\"Id\":\"h\"\x7d\x7d").toList

/-- A guest joins and asks for the invitation. -/
def wideRun : List Action :=
  [.event (.call .initializeMp), .event (.call (.joinLobby (some (titlePlayer "g")) [])),
    .event (.work ⟨[], []⟩ (some (200, "\x7b\"LobbyId\":\"L\"\x7d".toList)) (some (200, wideReply))),
    .getLobbyProperty 0 (some "invitation_identifier") (some none)]

theorem invitation_panics : Title.new.play wideRun = .panic := by
  have hpanic : isPanic (Title.new.play wideRun) = true := by decide +kernel
  cases hrun : Title.new.play wideRun with
  | panic => rfl
  | ok t => rw [hrun] at hpanic; cases hpanic
  | none => rw [hrun] at hpanic; cases hpanic
  | stuck => rw [hrun] at hpanic; cases hpanic

end Title

end GbfrLan.Playfab
