import GbfrLan.Broker.LobbyStore

/-!
# LeaveLobby

What a leave of a resolved caller does to the store, and exactly when it concerns that
caller only. The clause for one-member lobbies is meant for callers that could not be
resolved, but it also fires for a resolved caller that is no member.
-/
namespace GbfrLan.Broker
open Lib Json

namespace Lobby

/-- The members that stay when `e` leaves. -/
def staying (l : Lobby) (e : String) : List Value := l.members.filter fun m => memberId m != e

def hasMember (l : Lobby) (e : String) : Bool := l.members.any fun m => memberId m == e

/-- The owner after `e` left, with `kept` staying. -/
def ownerAfter (l : Lobby) (e : String) (kept : List Value) : Value :=
  if lobbyOwnerId l = e then
    if l.ownerMigrationPolicy = 1 then (kept.head?.map nextOwner).getD .null else .null
  else l.owner

/-- The lobby without `e`. -/
def without (l : Lobby) (e : String) : Lobby :=
  { l with members := l.staying e, owner := l.ownerAfter e (l.staying e) }

/-- A leave closes the lobby: nobody stays, or nobody left a lobby of at most one. -/
def closes (l : Lobby) (e : String) : Bool :=
  (l.staying e).isEmpty ||
    ((l.staying e).length == l.members.length && decide (l.members.length ≤ 1))

variable {l : Lobby} {e : String}

theorem leave_eq (l : Lobby) (e : String) :
    l.leave (some e) = if l.closes e then none else some (l.without e) := by
  unfold Lobby.leave
  simp only
  cases hk : l.staying e with
  | nil =>
    have hfilter : (l.members.filter fun m => memberId m != e) = [] := hk
    have hcl : l.closes e = true := by simp [closes, hk]
    rw [if_pos hcl, hfilter]
    simp
  | cons next rest =>
    have hfilter : (l.members.filter fun m => memberId m != e) = next :: rest := hk
    by_cases hst : (next :: rest).length = l.members.length ∧ l.members.length ≤ 1
    · have hcl : l.closes e = true := by simp [closes, hk, hst.1, hst.2]
      rw [if_pos hcl, hfilter, if_pos hst]
    · have hcl : l.closes e = false := by
        simp only [closes, hk, List.isEmpty_cons, Bool.false_or]
        simpa using hst
      have howner : (some e == some (lobbyOwnerId l)) = decide (lobbyOwnerId l = e) := by
        by_cases heq : lobbyOwnerId l = e
        · simp [heq]
        · simp [heq, Ne.symm heq]
      rw [hfilter, if_neg hst, howner]
      simp [hcl, without, ownerAfter, hk]

theorem length_staying_lt (h : l.hasMember e = true) :
    (l.staying e).length < l.members.length := by
  obtain ⟨m, hm, heq⟩ := List.any_eq_true.mp h
  apply List.length_filter_lt_length_iff_exists.mpr
  exact ⟨m, hm, by simpa using heq⟩

theorem staying_eq (h : l.hasMember e = false) : l.staying e = l.members := by
  apply List.filter_eq_self.mpr
  intro m hm
  have hne := List.any_eq_false.mp h m hm
  simpa using hne

theorem hasMember_without : (l.without e).hasMember e = false := by
  apply List.any_eq_false.mpr
  intro m hm
  have hne := (List.mem_filter.mp hm).2
  simpa using hne

theorem staying_without : (l.without e).staying e = l.staying e := staying_eq hasMember_without

/-- Leaving a second time changes nothing about a lobby that stays open. -/
theorem without_without : (l.without e).without e = l.without e := by
  have howner : (l.without e).ownerAfter e (l.staying e) = l.ownerAfter e (l.staying e) := by
    by_cases hnew : lobbyOwnerId (l.without e) = e
    · have hold : lobbyOwnerId l = e := by
        by_contra hne
        have hsame : (l.without e).owner = l.owner := if_neg hne
        unfold lobbyOwnerId at hnew hne
        rw [hsame] at hnew
        exact hne hnew
      unfold ownerAfter
      rw [if_pos hnew, if_pos hold]
      rfl
    · show (if lobbyOwnerId (l.without e) = e then _ else (l.without e).owner) = _
      rw [if_neg hnew]
      rfl
  show ({ l.without e with
    members := (l.without e).staying e
    owner := (l.without e).ownerAfter e ((l.without e).staying e) } : Lobby) = _
  rw [staying_without, howner]
  rfl

/-- Somebody who is neither a member nor the owner leaves no trace. -/
theorem without_eq (hm : l.hasMember e = false) (ho : lobbyOwnerId l ≠ e) : l.without e = l := by
  unfold without ownerAfter
  rw [staying_eq hm, if_neg ho]

theorem closes_without : (l.without e).closes e = decide ((l.staying e).length ≤ 1) := by
  have hmem : (l.without e).members = l.staying e := rfl
  cases hk : l.staying e with
  | nil => simp [closes, staying_without, hk]
  | cons next rest => simp [closes, staying_without, hmem, hk]

end Lobby

/-- The lobbies after a leave of a resolved caller. -/
theorem handleLeave_get? {app : App} {r : Request} {e : String}
    (he : requestEntityId app r.body r.headers = some e) (k : String) :
    (handleLeave app r).1.lobbies.get? k =
      if k = bodyLobbyId r.body then
        (app.lobbies.get? k).bind fun l => if l.closes e then none else some (l.without e)
      else app.lobbies.get? k := by
  unfold handleLeave
  simp only [he]
  cases hget : app.lobbies.get? (bodyLobbyId r.body) with
  | none =>
    split_ifs with hk
    · rw [hk, hget]
      rfl
    · rfl
  | some l =>
    simp only [Lobby.leave_eq]
    by_cases hcl : l.closes e = true
    · simp only [hcl, if_true, OrdMap.get?_erase]
      split_ifs with hk
      · rw [hk, hget]
        simp [hcl]
      · rfl
    · simp only [hcl, Bool.false_eq_true, if_false, OrdMap.get?_insert, OrdMap.get?_erase]
      split_ifs with hk
      · rw [hk, hget]
        simp [hcl]
      · rfl

/-- The caller of a request is resolved from the sessions, which a leave keeps. -/
theorem requestEntityId_handleLeave (app : App) (r : Request) :
    requestEntityId (handleLeave app r).1 r.body r.headers =
      requestEntityId app r.body r.headers := by
  have hs : (handleLeave app r).1.sessions = app.sessions := by
    unfold handleLeave
    simp only
    split <;> rfl
  have hheader : ∀ keys, headerSession (handleLeave app r).1 r.headers keys =
      headerSession app r.headers keys := by
    intro keys
    induction keys with
    | nil => rfl
    | cons hk rest ih => simp only [headerSession, hs, ih]
  unfold requestEntityId
  rw [hheader]

/-- A leave concerns its caller only: it changes nothing for somebody who is neither a
member nor the owner, and repeating it changes nothing more. -/
def LeaveAffectsOnlyCaller (host : Host) (app : App) (r : Request) (e : String) : Prop :=
  ((∀ l, app.lobbies.get? (bodyLobbyId r.body) = some l →
      l.hasMember e = false ∧ lobbyOwnerId l ≠ e) →
    (handlePlayfab host app r).1.lobbies = app.lobbies) ∧
  (handlePlayfab host (handlePlayfab host app r).1 r).1.lobbies =
    (handlePlayfab host app r).1.lobbies

/-- Either the caller is a member and not exactly one other stays, or it is none and the
lobby has at least two members or the caller for its owner. -/
def Lobby.LeaveSafe (l : Lobby) (e : String) : Prop :=
  if l.hasMember e then (l.staying e).length ≠ 1
  else 2 ≤ l.members.length ∨ lobbyOwnerId l = e

theorem handlePlayfab_leave {host : Host} {app : App} {r : Request}
    (hr : route r.path = some .leaveLobby) :
    (handlePlayfab host app r).1 = (handleLeave app r).1 := by
  simp only [handlePlayfab, hr]

/-- A leave that closes the lobby is repeated without effect, and is none of somebody's
business who is neither a member nor the owner. -/
theorem leaveSafe_of_closes {l : Lobby} {e : String} (hcl : l.closes e = true) :
    l.LeaveSafe e ↔ l.hasMember e = true ∨ lobbyOwnerId l = e := by
  unfold Lobby.LeaveSafe
  cases hm : l.hasMember e with
  | true =>
    have hlt := Lobby.length_staying_lt hm
    have hnil : (l.staying e).length = 0 := by
      cases hk : l.staying e with
      | nil => rfl
      | cons x xs =>
        rw [hk] at hlt
        simp only [Lobby.closes, hk, List.isEmpty_cons, Bool.false_or, Bool.and_eq_true,
          beq_iff_eq, decide_eq_true_eq] at hcl
        omega
    simp [hnil]
  | false =>
    have hle : l.members.length ≤ 1 := by
      rw [Lobby.closes, Lobby.staying_eq hm] at hcl
      cases hk : l.members with
      | nil => simp
      | cons x xs =>
        rw [hk] at hcl
        simpa using hcl
    simp only [Bool.false_eq_true, if_false, false_or]
    constructor
    · intro h
      exact h.resolve_left (by omega)
    · exact Or.inr

/-- A leave that keeps the lobby open is repeated without effect unless one member
stays. -/
theorem leaveSafe_of_open {l : Lobby} {e : String} (hcl : l.closes e = false) :
    l.LeaveSafe e ↔ (l.staying e).length ≠ 1 := by
  unfold Lobby.LeaveSafe
  cases hm : l.hasMember e with
  | true => simp
  | false =>
    have hstay := Lobby.staying_eq hm
    rw [Lobby.closes, hstay] at hcl
    have htwo : 2 ≤ l.members.length := by
      cases hk : l.members with
      | nil => simp [hk] at hcl
      | cons x xs =>
        rw [hk] at hcl
        have hgt : ¬ (x :: xs).length ≤ 1 := by simpa using hcl
        omega
    simp only [Bool.false_eq_true, if_false, hstay, htwo, true_or, true_iff]
    omega

/-- Exactly when a LeaveLobby of a resolved caller concerns that caller only. -/
theorem leaveAffectsOnlyCaller_iff (host : Host) (app : App) (r : Request) (e : String)
    (hr : route r.path = some .leaveLobby)
    (he : requestEntityId app r.body r.headers = some e) :
    LeaveAffectsOnlyCaller host app r e ↔
      ∀ l, app.lobbies.get? (bodyLobbyId r.body) = some l → l.LeaveSafe e := by
  have he' : requestEntityId (handleLeave app r).1 r.body r.headers = some e :=
    (requestEntityId_handleLeave app r).trans he
  have honce := handleLeave_get? he
  have htwice := handleLeave_get? he'
  unfold LeaveAffectsOnlyCaller
  simp only [handlePlayfab_leave hr]
  cases hget : app.lobbies.get? (bodyLobbyId r.body) with
  | none =>
    have hsame : (handleLeave app r).1.lobbies = app.lobbies := by
      apply OrdMap.ext_get?
      intro k
      rw [honce]
      split_ifs with hk
      · rw [hk, hget]
        rfl
      · rfl
    have hagain : (handleLeave (handleLeave app r).1 r).1.lobbies =
        (handleLeave app r).1.lobbies := by
      apply OrdMap.ext_get?
      intro k
      rw [htwice, hsame]
      split_ifs with hk
      · rw [hk, hget]
        rfl
      · rfl
    simp [hsame, hagain]
  | some l =>
    have hone : (handleLeave app r).1.lobbies.get? (bodyLobbyId r.body) =
        if l.closes e then none else some (l.without e) := by
      rw [honce, if_pos rfl, hget]
      rfl
    simp only [Option.some.injEq, forall_eq']
    cases hcl : l.closes e with
    | true =>
      rw [leaveSafe_of_closes hcl]
      rw [hcl, if_pos rfl] at hone
      have hagain : (handleLeave (handleLeave app r).1 r).1.lobbies =
          (handleLeave app r).1.lobbies := by
        apply OrdMap.ext_get?
        intro k
        rw [htwice]
        split_ifs with hk
        · rw [hk, hone]
          rfl
        · rfl
      have hgone : (handleLeave app r).1.lobbies ≠ app.lobbies := by
        intro heq
        rw [heq, hget] at hone
        cases hone
      rw [and_iff_left hagain]
      constructor
      · intro h
        by_contra hno
        rw [not_or] at hno
        exact hgone (h ⟨by simpa using hno.1, hno.2⟩)
      · intro h hout
        cases h with
        | inl hm =>
          rw [hout.1] at hm
          cases hm
        | inr ho => exact absurd ho hout.2
    | false =>
      rw [leaveSafe_of_open hcl]
      rw [hcl, if_neg (by decide)] at hone
      have houtsider : (l.hasMember e = false ∧ lobbyOwnerId l ≠ e) →
          (handleLeave app r).1.lobbies = app.lobbies := by
        rintro ⟨hm, ho⟩
        apply OrdMap.ext_get?
        intro k
        by_cases hk : k = bodyLobbyId r.body
        · rw [hk, hone, hget, Lobby.without_eq hm ho]
        · rw [honce, if_neg hk]
      have hnext : (handleLeave (handleLeave app r).1 r).1.lobbies.get? (bodyLobbyId r.body) =
          if (l.staying e).length ≤ 1 then none else some (l.without e) := by
        rw [htwice, if_pos rfl, hone]
        simp [Lobby.closes_without, Lobby.without_without]
      have hpos : 1 ≤ (l.staying e).length := by
        cases hk : l.staying e with
        | nil => simp [Lobby.closes, hk] at hcl
        | cons x xs => simp
      rw [and_iff_right houtsider]
      constructor
      · intro h hlen
        rw [h, hone, if_pos (by omega)] at hnext
        cases hnext
      · intro hlen
        apply OrdMap.ext_get?
        intro k
        by_cases hk : k = bodyLobbyId r.body
        · rw [hk, hnext, hone, if_neg (by omega)]
        · rw [htwice, if_neg hk]

/-- A leave request of `e`. -/
def leaveRequest (e : String) : Request :=
  ⟨⟨1767225601, "1767225601", []⟩, "/Lobby/LeaveLobby",
    .obj [("LobbyId", .string "lan-2b05b16a57c6"), ("EntityId", .string e)], OrdMap.empty⟩

/-- The broker after `createAndJoin` and joins of further guests. -/
def lobbyWith (guests : List String) : App :=
  run (fun a r => (handlePlayfab anonymousHost a r).1) (App.new "1AC1AD" 8 false)
    (createAndJoin.take 1 ++ guests.map fun e =>
      ⟨⟨1767225600, "1767225600.5", []⟩, "/Lobby/JoinLobby",
        .obj [("ConnectionString", .string "lan.1AC1AD.lan-2b05b16a57c6"),
          ("MemberEntity", .obj [("Id", .string e)])], OrdMap.empty⟩)

/-- With the owner and another guest staying, a leave of a guest can be repeated. -/
theorem leaveAffectsOnlyCaller_two_stay :
    LeaveAffectsOnlyCaller anonymousHost (lobbyWith ["guest", "other"]) (leaveRequest "guest")
      "guest" := by
  apply (leaveAffectsOnlyCaller_iff anonymousHost (lobbyWith ["guest", "other"])
    (leaveRequest "guest") "guest" (by decide +kernel) (by decide +kernel)).mpr
  intro l hl
  have hsafe : ∀ l ∈ (lobbyWith ["guest", "other"]).lobbies.get? "lan-2b05b16a57c6",
      l.hasMember "guest" = true ∧ (l.staying "guest").length = 2 := by decide +kernel
  obtain ⟨hm, hlen⟩ := hsafe l hl
  simp [Lobby.LeaveSafe, hm, hlen]

/-- A stranger closes a lobby of one member, and a repeated leave of the only guest closes
the lobby over its owner. -/
theorem leave_closes_lobby_of_others :
    ¬ LeaveAffectsOnlyCaller anonymousHost (lobbyWith []) (leaveRequest "stranger") "stranger" ∧
      ¬ LeaveAffectsOnlyCaller anonymousHost (lobbyWith ["guest"]) (leaveRequest "guest")
        "guest" := by
  constructor
  · rintro ⟨hout, -⟩
    have hstranger : ∀ l ∈ (lobbyWith []).lobbies.get? "lan-2b05b16a57c6",
        l.hasMember "stranger" = false ∧ lobbyOwnerId l ≠ "stranger" := by decide +kernel
    have hsame := congrArg (fun m => (OrdMap.get? m "lan-2b05b16a57c6").isSome) (hout hstranger)
    revert hsame
    decide +kernel
  · rintro ⟨-, htwice⟩
    have hsame := congrArg (fun m => (OrdMap.get? m "lan-2b05b16a57c6").isSome) htwice
    revert hsame
    decide +kernel

end GbfrLan.Broker
