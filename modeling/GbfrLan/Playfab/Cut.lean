import GbfrLan.Playfab.Envelope
import GbfrLan.Playfab.View

/-!
# Replies that were cut off

A reply that stalls keeps its status, and its body is what arrived. The scanner looks for every
field on its own and takes a default where it finds none, so a body is harmless only as long as
no id was heard: the first value under `LobbyId` has not arrived, or is none.
-/
namespace GbfrLan.Json.Scan
open Lib Read

section
variable (numberText : Number → String)

/-- What `json_str` makes of a value of which this much has arrived. A literal is taken as far as
it goes. -/
def received (x : Value) (w : List Char) : Option String :=
  match x with
  | .string s => if x.text numberText <+: w then some s else none
  | .array _ => none
  | .object _ => none
  | x =>
      let t := (x.text numberText).take w.length
      if w = [] ∨ t = "null".toList then none else some (String.ofList t)

end

theorem IsLiteral.skipWs {t : List Char} (ht : IsLiteral t) (rest : List Char) :
    Read.skipWs (t ++ rest) = t ++ rest := by
  cases t with
  | nil => exact absurd rfl ht.nonempty
  | cons c t =>
    have hdelim := ht.whole c List.mem_cons_self
    simp only [isDelimiter, Bool.or_eq_false_iff] at hdelim
    simp [Read.skipWs, hdelim.2]

theorem IsLiteral.take {t : List Char} (ht : IsLiteral t) {n : ℕ} (hn : n ≠ 0) : IsLiteral (t.take n) where
  nonempty := by
    have hne := ht.nonempty
    simp [hn, hne]
  ascii c hc := ht.ascii c (List.mem_of_mem_take hc)
  whole c hc := ht.whole c (List.mem_of_mem_take hc)
  plain c hc := ht.plain c (List.mem_of_mem_take hc)

/-- A mark stands only for a character of several bytes. -/
def Marks (mark next : List Char) : Prop :=
  '"' ∉ mark ∧ ':' ∉ mark ∧ ((∀ c ∈ next.head?, c.toNat < 0x80) → mark = [])

/-- A literal of which a part, or all and more, has arrived. -/
theorem strAt_cut_literal {t b w next mark : List Char} (ht : IsLiteral t) (hb : Ends b)
    (hbody : w ++ next = t ++ b) (hmark : Marks mark next) :
    strAt (skipWs (w ++ mark)) =
      if w = [] ∨ t.take w.length = "null".toList then none else some (String.ofList (t.take w.length)) := by
  by_cases hshort : w.length < t.length
  · obtain ⟨more, rfl⟩ : w <+: t :=
      List.prefix_of_prefix_length_le ⟨next, hbody⟩ (List.prefix_append _ _) hshort.le
    have hnone : mark = [] := by
      refine hmark.2.2 fun c hc => ht.ascii c (List.mem_append_right _ ?_)
      rw [List.append_assoc] at hbody
      cases more with
      | nil => simp at hshort
      | cons d more =>
        rw [List.append_cancel_left hbody] at hc
        simp only [List.cons_append, List.head?_cons, Option.mem_some_iff] at hc
        rw [hc]
        exact List.mem_cons_self
    rw [hnone, List.append_nil, List.take_left]
    cases w with
    | nil => rfl
    | cons c w =>
      have hlit : IsLiteral (c :: w) := by
        have htake := ht.take (n := (c :: w).length) (by simp)
        rwa [List.take_left] at htake
      have hskip := hlit.skipWs []
      rw [List.append_nil] at hskip
      rw [hskip]
      have hstr := @strAt_literal (c :: w) [] hlit fun c hc => by simp at hc
      rw [List.append_nil] at hstr
      simpa using hstr
  · obtain ⟨more, rfl⟩ : t <+: w :=
      List.prefix_of_prefix_length_le (List.prefix_append _ _) ⟨next, hbody⟩ (by omega)
    rw [List.append_assoc] at hbody
    have hb' : b = more ++ next := (List.append_cancel_left hbody).symm
    have hends : EndsLiteral (more ++ mark) := by
      cases more with
      | nil =>
        have hnone : mark = [] := by
          refine hmark.2.2 fun c hc => ?_
          rw [List.nil_append] at hb'
          obtain rfl | rfl | rfl := hb c (hb' ▸ hc) <;> decide
        rw [hnone]
        exact fun c hc => by simp at hc
      | cons d more => exact fun c hc => endsLiteral_of_ends hb c (by simpa [hb'] using hc)
    have htake : t.take (t ++ more).length = t := List.take_of_length_le (by simp)
    have hne : ¬(t ++ more = []) := fun h => ht.nonempty (List.append_eq_nil_iff.mp h).1
    rw [htake, List.append_assoc, ht.skipWs, strAt_literal ht hends]
    simp [hne]

theorem strAt_cut {numberText : Number → String} (hnumber : ∀ n, IsNumberText (numberText n))
    {x : Value} {b w next mark : List Char} (hb : Ends b)
    (hbody : w ++ next = x.text numberText ++ b) (hmark : Marks mark next) :
    strAt (skipWs (w ++ mark)) = received numberText x w := by
  -- nothing of a string or a container is there before its first character
  have hopen : ∀ {c t}, x.text numberText = c :: t → c.toNat < 0x80 → isWs c = false →
      (w = [] ∧ strAt (skipWs (w ++ mark)) = none) ∨
        ∃ w', w = c :: w' ∧ w' ++ next = t ++ b ∧ skipWs (w ++ mark) = c :: (w' ++ mark) := by
    intro c t htext hascii hws
    rw [htext] at hbody
    cases w with
    | nil =>
      have hnone : mark = [] := by
        refine hmark.2.2 fun d hd => ?_
        rw [List.nil_append] at hbody
        rw [hbody, List.cons_append, List.head?_cons, Option.mem_some_iff] at hd
        exact hd ▸ hascii
      exact .inl ⟨rfl, by rw [hnone]; rfl⟩
    | cons d w =>
      rw [List.cons_append, List.cons_append, List.cons.injEq] at hbody
      obtain ⟨rfl, hbody⟩ := hbody
      exact .inr ⟨w, rfl, hbody, by simp [skipWs, hws]⟩
  cases x with
  | null => exact strAt_cut_literal isLiteral_null hb hbody hmark
  | bool v => exact strAt_cut_literal (isLiteral_bool v) hb hbody hmark
  | number n => exact strAt_cut_literal (hnumber n).isLiteral hb hbody hmark
  | array xs =>
    rcases hopen (c := '[') rfl (by decide) rfl with ⟨-, hnone⟩ | ⟨w', -, -, hskip⟩
    · exact hnone
    · rw [hskip, strAt_container (.inr rfl)]
      rfl
  | object fields =>
    rcases hopen (c := '{') rfl (by decide) rfl with ⟨-, hnone⟩ | ⟨w', -, -, hskip⟩
    · exact hnone
    · rw [hskip, strAt_container (.inl rfl)]
      rfl
  | string s =>
    change _ = if writeString s <+: w then some s else none
    rcases hopen (c := '"') rfl (by decide) rfl with ⟨rfl, hnone⟩ | ⟨w', rfl, hbody', hskip⟩
    · rw [hnone, if_neg (by simp [writeString])]
    · rw [hskip, strAt_quote]
      by_cases hall : writeTail s <+: w'
      · obtain ⟨more, rfl⟩ := hall
        rw [List.append_assoc, strTail_writeTail, if_pos]
        · simp
        · exact List.prefix_append ('"' :: writeTail s) more
      · have hle : w'.length ≤ (s.toList.flatMap writeChar).length := by
          by_contra hlt
          refine hall (List.prefix_of_prefix_length_le (List.prefix_append _ _) ⟨next, hbody'⟩ ?_)
          rw [writeTail, List.length_append, List.length_singleton]
          omega
        have hcut : strTail (w' ++ mark) = none := by
          rw [writeTail, List.append_assoc, List.singleton_append] at hbody'
          exact strTail_cut (strFront_write s) hbody' hle hmark.1
        have hnot : ¬writeString s <+: '"' :: w' := by
          rw [writeString, List.cons_prefix_cons]
          exact fun h => hall h.2
        rw [hcut, if_neg hnot]
        rfl

theorem marks_cutMark {cs : List Char} {bs : List UInt8} (k : Utf8.Cut cs bs) :
    Marks (Utf8.cutMark k.tail) k.next := by
  refine ⟨?_, ?_, fun h => ?_⟩
  · unfold Utf8.cutMark
    split_ifs <;> simp
  · unfold Utf8.cutMark
    split_ifs <;> simp
  · rw [k.tail_eq_nil h]
    rfl

/-- `json_str` on a text that was cut: the first value of the name as far as it has arrived. -/
theorem jsonStr_cut {numberText : Number → String} (hnumber : ∀ n, IsNumberText (numberText n))
    {v x : Value} {key : String} {front : List Char} (hlocate : v.locate numberText key = some (front, x))
    {bs : List UInt8} (k : Utf8.Cut (v.text numberText) bs) :
    jsonStr (Utf8.decodeLossy bs).toList key =
      if front <+: k.whole then received numberText x (k.whole.drop front.length) else none := by
  have hlocated := locate_located hnumber key v
  rw [hlocate] at hlocated
  obtain ⟨-, ⟨name, rfl⟩, hlocates, b, hb, htext⟩ := hlocated
  have hmarks := marks_cutMark k
  have hbody : k.whole ++ k.next = name ++ [':'] ++ (x.text numberText ++ b) := by
    rw [← k.text, htext]
  rw [k.decodeLossy, jsonStr_eq]
  split_ifs with hpre
  · obtain ⟨w, hw⟩ := hpre
    rw [← hw, List.append_assoc] at hbody
    rw [← hw, List.append_assoc, hlocates, List.drop_left, Option.bind_some]
    exact strAt_cut hnumber hb (List.append_cancel_left hbody) hmarks
  · have hle : k.whole.length ≤ name.length := by
      by_contra hlt
      refine hpre (List.prefix_of_prefix_length_le ⟨_, hbody.symm⟩ (List.prefix_append _ _) ?_)
      rw [List.length_append, List.length_singleton]
      omega
    rw [List.append_assoc, List.singleton_append] at hbody
    rw [find_cut hlocates hbody hle hmarks.2.1]
    rfl

end GbfrLan.Json.Scan

namespace GbfrLan.Playfab
open Lib Json Scan

section
variable (host : Broker.Host) (l : Broker.Lobby) (n : ℕ)

/-- The reply when this many bytes of its body have arrived. -/
def cutReply : Reply :=
  some (200, (Utf8.decodeLossy (((replyText host l).flatMap String.utf8EncodeChar).take n)).toList)

/-- Enough of the value has arrived to be taken for an id, when its text starts at this byte. A
part of a literal is enough, and a part of `null`, but not all of it. -/
def HeardValue (start : ℕ) (x : Value) : Prop :=
  match x with
  | .string s => '\x00' ∉ s.toList ∧ start + Utf8.size (x.text (Broker.numberText host)) ≤ n
  | .bool _ => start < n
  | .number _ => start < n
  | .null => start < n ∧ n < start + 4
  | .array _ => False
  | .object _ => False

/-- An id is heard: the first value under `LobbyId` in document order gives one. -/
def Heard : Prop :=
  '\x00' ∉ l.connection.toList ∧
    match (reply host l).locate (Broker.numberText host) "LobbyId" with
    | some (front, x) => HeardValue host n (Utf8.size front) x
    | none => False

end

/-- A refresh that leaves the view as it is and reports nothing. -/
structure Undamaged (v : View) (r : View × View.Refresh) : Prop where
  id : r.1.id = v.id
  props : r.1.props = v.props
  search : r.1.search = v.search
  owner : r.1.owner = v.owner
  hasOwner : r.1.hasOwner = v.hasOwner
  maxPlayers : r.1.maxPlayers = v.maxPlayers
  accessPolicy : r.1.accessPolicy = v.accessPolicy
  membershipLock : r.1.membershipLock = v.membershipLock
  members : r.1.members = v.members
  memberProps : r.1.memberProps = v.memberProps
  departed : r.2.departed = []
  gone : r.2.gone = false
  delta : r.2.delta.isEmpty = true

theorem undamaged_of_none (v : View) (order : RefreshOrder) {text : List Char}
    (h : View.lobbyFromJson text = none) : Undamaged v (v.applyRefresh order (some (200, text))) := by
  have heq : v.applyRefresh order (some (200, text)) = (v, ⟨[], false, .none⟩) := by
    simp [View.applyRefresh, h]
  rw [heq]
  exact ⟨rfl, rfl, rfl, rfl, rfl, rfl, rfl, rfl, rfl, rfl, rfl, rfl, rfl⟩

/-- A view with another maximum is damaged by what is read. -/
theorem damaged_of_some {text : List Char} {fresh : View} (h : View.lobbyFromJson text = some fresh) :
    ∃ v order, ¬Undamaged v (v.applyRefresh order (some (200, text))) := by
  set m : UInt32 := if fresh.maxPlayers = 0 then 1 else 0 with hm
  refine ⟨{ fresh with maxPlayers := m }, ⟨[], []⟩, fun hu => ?_⟩
  have hmax := hu.maxPlayers
  simp only [View.applyRefresh, ne_eq, not_true, if_false, h, View.refreshed] at hmax
  have hsame : fresh.maxPlayers = m := by
    split_ifs at hmax <;> exact hmax
  rw [hm] at hsame
  split_ifs at hsame with hzero
  · rw [hzero] at hsame
    cases hsame
  · exact hzero hsame

/-- What is needed to read a lobby: an id and a connection string, both without a NUL. -/
theorem lobbyFromJson_isSome_iff (text : List Char) :
    (View.lobbyFromJson text).isSome = true ↔ ∃ id, jsonStr text "LobbyId" = some id ∧
      '\x00' ∉ id.toList ∧
      '\x00' ∉ ((jsonStr text "ConnectionString").getD ("lan." ++ id)).toList := by
  unfold View.lobbyFromJson
  cases jsonStr text "LobbyId" with
  | none => simp
  | some id =>
    simp only [Option.bind_some]
    split_ifs with hnul
    · simp only [Option.isSome_none, Bool.false_eq_true, Option.some.injEq, false_iff]
      rintro ⟨id', rfl, hid, hconn⟩
      exact hnul.elim hid hconn
    · rw [not_or] at hnul
      simp only [Option.isSome_some, Option.some.injEq, true_iff]
      exact ⟨id, rfl, hnul.1, hnul.2⟩

section
variable {host : Broker.Host} {n : ℕ} {cs front b w : List Char} {x : Value}
  (k : Utf8.Cut cs ((cs.flatMap String.utf8EncodeChar).take n))

theorem start_le_of_heard {start : ℕ} (h : HeardValue host n start x) : start ≤ n := by
  cases x with
  | string s => exact Nat.le_of_add_right_le h.2
  | bool v => exact le_of_lt h
  | number m => exact le_of_lt h
  | null => exact le_of_lt h.1
  | array xs => cases h
  | object fields => cases h

/-- A first part of the value has arrived exactly when its bytes have. -/
theorem prefix_arrived_iff {t p : List Char} (hcs : cs = front ++ (t ++ b)) (hw : front ++ w = k.whole)
    (hp : p <+: t) : p <+: w ↔ Utf8.size front + Utf8.size p ≤ n := by
  have hpre : front ++ p <+: cs := by
    rw [hcs, List.prefix_append_right_inj]
    exact hp.trans (List.prefix_append _ _)
  rw [← Utf8.size_append, ← k.prefix_iff hpre, ← hw, List.prefix_append_right_inj]

theorem arrived_append {rest : List Char} (hcs : cs = front ++ rest) (hw : front ++ w = k.whole) :
    w ++ k.next = rest := by
  have htext : front ++ rest = k.whole ++ k.next := hcs.symm.trans k.text
  rw [← hw, List.append_assoc] at htext
  exact (List.append_cancel_left htext).symm

theorem literal_arrived_iff {t : List Char} (ht : IsLiteral t) (hcs : cs = front ++ (t ++ b))
    (hw : front ++ w = k.whole) : w ≠ [] ↔ Utf8.size front < n := by
  cases t with
  | nil => exact absurd rfl ht.nonempty
  | cons c t =>
    have hone := Utf8.size_singleton (ht.ascii c List.mem_cons_self)
    have harrived := prefix_arrived_iff k hcs hw (p := [c]) (List.prefix_append [c] t)
    rw [hone] at harrived
    rw [← Nat.succ_le_iff, ← Nat.add_one, ← harrived]
    constructor
    · intro hne
      have hbody := arrived_append k hcs hw
      cases w with
      | nil => exact absurd rfl hne
      | cons d w =>
        rw [List.cons_append, List.cons_append, List.cons.injEq] at hbody
        rw [hbody.1]
        exact List.prefix_append [c] w
    · rintro ⟨more, rfl⟩
      simp

/-- A part of a literal that is not `null` is taken for an id. -/
theorem received_literal_iff {t : List Char} (ht : IsLiteral t) (hnull : t.head? ≠ some 'n')
    (hcs : cs = front ++ (t ++ b)) (hw : front ++ w = k.whole) :
    (∃ id, (if w = [] ∨ t.take w.length = "null".toList then none
        else some (String.ofList (t.take w.length))) = some id ∧ '\x00' ∉ id.toList) ↔
      Utf8.size front < n := by
  rw [← literal_arrived_iff k ht hcs hw]
  constructor
  · rintro ⟨id, hid, -⟩ rfl
    simp at hid
  · intro hne
    have hlen : w.length ≠ 0 := by simpa using hne
    have htake : t.take w.length ≠ "null".toList := by
      intro heq
      apply hnull
      have hhead : (t.take w.length).head? = t.head? := by
        rw [List.head?_take, if_neg hlen]
      rw [← hhead, heq]
      rfl
    refine ⟨_, if_neg (not_or.mpr ⟨hne, htake⟩), ?_⟩
    rw [String.toList_ofList]
    exact fun hmem => ((ht.take hlen).plain _ hmem).2.2.2 rfl

/-- What is received is taken for an id exactly when enough bytes have arrived. -/
theorem received_iff (hfloat : ∀ bits, IsNumberText (host.floatText bits))
    (hcs : cs = front ++ (x.text (Broker.numberText host) ++ b)) (hw : front ++ w = k.whole) :
    (∃ id, received (Broker.numberText host) x w = some id ∧ '\x00' ∉ id.toList) ↔
      HeardValue host n (Utf8.size front) x := by
  cases x with
  | string s =>
    have harrived := prefix_arrived_iff k hcs hw List.prefix_rfl
    simp only [received, HeardValue]
    rw [← harrived]
    constructor
    · rintro ⟨id, hid, hnul⟩
      split_ifs at hid with hpre
      rw [Option.some.injEq] at hid
      exact ⟨hid ▸ hnul, hpre⟩
    · rintro ⟨hnul, hpre⟩
      exact ⟨s, if_pos hpre, hnul⟩
  | bool v =>
    have hhead : (if v then "true" else "false").toList.head? ≠ some 'n' := by
      cases v <;> decide
    exact received_literal_iff k (isLiteral_bool v) hhead hcs hw
  | number m =>
    have hnumber := numberText_isNumberText hfloat m
    refine received_literal_iff k hnumber.isLiteral ?_ hcs hw
    intro hhead
    rcases hnumber.2 'n' (List.mem_of_mem_head? hhead) with hn | hn <;> simp at hn
  | null =>
    have hnull : "null".toList <+: w ↔ Utf8.size front + 4 ≤ n :=
      prefix_arrived_iff k hcs hw List.prefix_rfl
    have hne : w ≠ [] ↔ Utf8.size front < n := literal_arrived_iff k isLiteral_null hcs hw
    have htake : Value.text (Broker.numberText host) .null = "null".toList := rfl
    have hwhole : "null".toList.take w.length = "null".toList ↔ "null".toList <+: w := by
      rw [List.take_eq_self_iff]
      constructor
      · exact List.prefix_of_prefix_length_le (List.prefix_append _ _) ⟨_, arrived_append k hcs hw⟩
      · exact List.IsPrefix.length_le
    simp only [received, HeardValue, htake, hwhole]
    rw [← hne, ← Nat.not_le, ← hnull]
    constructor
    · rintro ⟨id, hid, -⟩
      split_ifs at hid with hskip
      exact not_or.mp hskip
    · intro hpart
      refine ⟨_, if_neg (not_or.mpr hpart), ?_⟩
      rw [String.toList_ofList]
      have hlen : w.length ≠ 0 := by simpa using hpart.1
      exact fun hmem => ((isLiteral_null.take hlen).plain _ hmem).2.2.2 rfl
  | array xs => simp [received, HeardValue]
  | object fields => simp [received, HeardValue]

end

/-- A lobby is read from a reply that was cut exactly when an id was heard. -/
theorem lobbyFromJson_cut_iff {host : Broker.Host} (hfloat : ∀ bits, IsNumberText (host.floatText bits))
    (l : Broker.Lobby) (n : ℕ) :
    (View.lobbyFromJson (Utf8.decodeLossy
      (((replyText host l).flatMap String.utf8EncodeChar).take n)).toList).isSome = true ↔
      Heard host l n := by
  unfold replyText
  have hnumber := numberText_isNumberText hfloat
  obtain ⟨k⟩ := Utf8.exists_cut ((reply host l).text (Broker.numberText host)) _ (List.take_prefix n _)
  obtain ⟨a, x, hlocate⟩ := locate_lobbyId host l
  set front := beforeConnection host l ++ (writeString l.connection ++ a) with hfront
  have hlocated := locate_located hnumber "LobbyId" (reply host l)
  rw [hlocate] at hlocated
  obtain ⟨-, -, -, b, -, hcs⟩ := hlocated
  have hid := jsonStr_cut hnumber hlocate k
  rw [lobbyFromJson_isSome_iff, Heard, hlocate, hid]
  by_cases hpre : front <+: k.whole
  · obtain ⟨w, hw⟩ := hpre
    have hconn : jsonStr (Utf8.decodeLossy
        ((((reply host l).text (Broker.numberText host)).flatMap String.utf8EncodeChar).take
          n)).toList "ConnectionString" = some l.connection := by
      have hbefore : beforeConnection host l ++ (writeString l.connection ++ (a ++ w)) = k.whole := by
        rw [← hw, hfront]
        simp
      have hvalue : writeString l.connection <+: writeString l.connection ++ (a ++ w) :=
        List.prefix_append _ _
      rw [jsonStr_cut hnumber (locate_connection host l) k, ← hbefore, if_pos (List.prefix_append _ _),
        List.drop_left]
      exact if_pos hvalue
    have hreceived := received_iff k hfloat hcs hw
    have hdrop : k.whole.drop front.length = w := by rw [← hw, List.drop_left]
    simp only [if_pos (show front <+: k.whole from ⟨w, hw⟩), hconn, Option.getD_some, hdrop]
    rw [← hreceived]
    constructor
    · rintro ⟨id, hsome, hnul, hconn⟩
      exact ⟨hconn, id, hsome, hnul⟩
    · rintro ⟨hconn, id, hsome, hnul⟩
      exact ⟨id, hsome, hnul, hconn⟩
  · rw [if_neg hpre]
    constructor
    · rintro ⟨id, hsome, -⟩
      cases hsome
    · rintro ⟨-, hheard⟩
      exact absurd ((k.prefix_iff ⟨_, hcs.symm⟩).mpr (start_le_of_heard hheard)) hpre

/-- What has arrived of a reply leaves every view as it is exactly when no id was heard. -/
theorem cutReply_undamaged_iff {host : Broker.Host}
    (hfloat : ∀ bits, IsNumberText (host.floatText bits)) (l : Broker.Lobby) (n : ℕ) :
    (∀ v order, Undamaged v (View.applyRefresh order v (cutReply host l n))) ↔ ¬Heard host l n := by
  rw [← lobbyFromJson_cut_iff hfloat]
  constructor
  · intro hall hsome
    obtain ⟨fresh, hfresh⟩ := Option.isSome_iff_exists.mp hsome
    obtain ⟨v, order, hdamaged⟩ := damaged_of_some hfresh
    exact hdamaged (hall v order)
  · intro hnone v order
    exact undamaged_of_none v order (Option.not_isSome_iff_eq_none.mp hnone)

/-- A broker whose values hold no doubles. -/
def integerHost : Broker.Host where
  sha1Hex _ := ""
  b64 _ := ""
  floatText _ := "0.0"
  clockBits _ := 0

/-- The lobby of one player. -/
def lonely : Broker.Lobby where
  id := "L"
  connection := "lan.T.L"
  owner := .obj [("Id", .string "a")]
  ownerMigrationPolicy := 0
  maxPlayers := 4
  lobbyData := [("k", .string "v")]
  searchData := []
  accessPolicy := "Public"
  membershipLock := "Unlocked"
  members := [Broker.newMember "a" .null []]
  created := 0

theorem integerHost_isNumberText (bits : UInt64) : IsNumberText (integerHost.floatText bits) := by
  change IsNumberText "0.0"
  have htext : "0.0".toList = ['0', '.', '0'] := by decide
  refine ⟨by decide, fun c hc => ?_⟩
  rw [htext] at hc
  simp only [List.mem_cons, List.not_mem_nil, or_false] at hc
  rcases hc with rfl | rfl | rfl <;> decide

theorem cutReply_undamaged_iff_lonely :
    (∀ v order, Undamaged v (View.applyRefresh order v (cutReply integerHost lonely 100))) ↔
      ¬Heard integerHost lonely 100 :=
  cutReply_undamaged_iff integerHost_isNumberText lonely 100

/-- A reply that is cut behind the id of the lobby takes its owner away and sets its maximum to
the default. -/
theorem cutReply_takes_owner : ∃ v,
    View.lobbyFromJson (replyText integerHost lonely) = some v ∧
    137 < Utf8.size (replyText integerHost lonely) ∧
    ¬Undamaged v (View.applyRefresh ⟨[], []⟩ v (cutReply integerHost lonely 137)) := by
  have hread : ((View.lobbyFromJson (replyText integerHost lonely)).map fun v =>
      (v.maxPlayers, v.hasOwner,
        (View.applyRefresh ⟨[], []⟩ v (cutReply integerHost lonely 137)).1.maxPlayers,
        (View.applyRefresh ⟨[], []⟩ v (cutReply integerHost lonely 137)).1.hasOwner)) =
      some (4, true, 8, false) := by
    decide +kernel
  obtain ⟨v, hv, hfields⟩ := Option.map_eq_some_iff.mp hread
  simp only [Prod.mk.injEq] at hfields
  refine ⟨v, hv, by decide +kernel, fun hu => ?_⟩
  have howner := hu.hasOwner
  rw [hfields.2.1, hfields.2.2.2] at howner
  cases howner

end GbfrLan.Playfab
