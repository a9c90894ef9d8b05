import GbfrLan.Broker.Shape
import GbfrLan.Playfab.Bag
import GbfrLan.Playfab.Cut

/-!
# Lobbies from the broker to the shim

The shim reads back what the broker says of a lobby. It takes the first member of a name, at any
depth, and the data of the title stand in front of most fields: a property with the name of a
field hides it. Where nothing is hidden, every property has a name, and what is beyond the cap
of the scanner is a default, the view agrees with the lobby.
-/
namespace GbfrLan.Playfab
open Lib Json Scan
open Broker (memberId newMember membersForClient fillMemberData IsMember)

/-! ### Members -/

/-- The data of a stored member. -/
def storedData (m : Value) : Fields := Broker.asObjOrEmpty (m.get "MemberData")

section
variable (host : Broker.Host)

/-- The data of a member as the broker completes them. -/
def completed (m : Value) : Fields := fillMemberData host (storedData m) (memberId m)

/-- A member as it stands in a reply. -/
def forClient (m : Value) : Value := m.insertField "MemberData" (.object (completed host m))

/-- What the shim reads of a member. -/
def readProps (m : Value) : Props :=
  ensureMemberProps (bag (Broker.numberText host) (.object (completed host m))) (memberId m)

theorem membersForClient_eq (l : Broker.Lobby) :
    membersForClient host l = l.members.map (forClient host) := rfl

theorem memberId_newMember (id : String) (entity : Value) (data : Fields) :
    memberId (newMember id entity data) = id :=
  Broker.memberId_of_id (Broker.jsonStr_newMember id entity data)

end

section
variable {numberText : Number → String} (hnumber : ∀ n, IsNumberText (numberText n))
include hnumber

theorem jsonObj_bag (v : Value) (key : String) :
    applyProps OrdMap.empty (jsonObj (v.text numberText) key) =
      ((v.find key).map (bag numberText)).getD OrdMap.empty := by
  rw [jsonObj_text hnumber, scanObj]
  cases v.find key with
  | none => rfl
  | some x => cases x <;> rfl

theorem entryOf_newMember (id : String) (entity : Value) (data : Fields) :
    entryOf ((newMember id entity data).text numberText) =
      some (id, ensureMemberProps (bag numberText (.object data)) id) := by
  have hid : jsonStr ((newMember id entity data).text numberText) "Id" = some id := by
    rw [jsonStr_text hnumber, Broker.newMember_eq]
    simp [scanStr, Value.find, Value.findFields, Value.findField, scalarText]
  have hdata : (newMember id entity data).find "MemberData" = some (.object data) := by
    rw [Broker.newMember_eq]
    simp [Value.find, Value.findFields, Value.findField]
  rw [entryOf, entryId, hid, Option.some_or, Option.some_or, Option.some_or, jsonObj_bag hnumber, hdata]
  rfl

theorem entryOf_forClient {host : Broker.Host} {m : Value} (h : IsMember m) :
    entryOf ((forClient host m).text numberText) =
      some (memberId m, ensureMemberProps (bag numberText (.object (completed host m))) (memberId m)) := by
  obtain ⟨id, entity, data, rfl⟩ := h
  rw [forClient, Broker.newMember_putData, memberId_newMember, entryOf_newMember hnumber]

end

/-! ### The fields of a reply -/

section
variable (host : Broker.Host) (l : Broker.Lobby)

/-- What stands under a name in front of the lock, the owner and the search data. -/
def ahead (key : String) : Option Value :=
  (Entries.get? key l.lobbyData).or (Value.findList key (membersForClient host l))

/-- The first owner of a reply. -/
def firstOwner : Value := (ahead host l "Owner").getD l.owner

/-- What hides the search data. -/
def hidingSearch : Option Value := (ahead host l "SearchData").or (l.owner.find "SearchData")

variable {l} (hdata : PlainMap l.lobbyData)

theorem find_integer (key : String) (n : ℤ) : (Broker.integer n).find key = none := by
  unfold Broker.integer
  split_ifs <;> rfl

theorem find_connection : (reply host l).find "ConnectionString" = some (.string l.connection) := by
  rw [reply_find host l (by decide) (by decide) (by decide), lobbyPublic_eq]
  simp [Value.find, Value.findFields, Value.findField]

theorem find_lobbyData : (reply host l).find "LobbyData" = some (.object l.lobbyData) := by
  rw [reply_find host l (by decide) (by decide) (by decide), lobbyPublic_eq]
  simp [Value.find, Value.findFields, Value.findField, Broker.number]

include hdata

theorem find_lobbyId : (reply host l).find "LobbyId" =
    some ((Entries.get? "LobbyId" l.lobbyData).getD (.string l.id)) := by
  rw [reply_find host l (by decide) (by decide) (by decide), lobbyPublic_eq]
  simp only [Value.find, Value.findFields, Value.findField, hdata.findFields_eq, Broker.number]
  cases Entries.get? "LobbyId" l.lobbyData <;> simp

theorem find_maxPlayers : (reply host l).find "MaxPlayers" =
    some ((Entries.get? "MaxPlayers" l.lobbyData).getD (Broker.integer l.maxPlayers)) := by
  rw [reply_find host l (by decide) (by decide) (by decide), lobbyPublic_eq]
  simp only [Value.find, Value.findFields, Value.findField, hdata.findFields_eq, Broker.number]
  cases Entries.get? "MaxPlayers" l.lobbyData <;> simp

theorem find_members : (reply host l).find "Members" =
    some ((Entries.get? "Members" l.lobbyData).getD (.array (membersForClient host l))) := by
  rw [reply_find host l (by decide) (by decide) (by decide), lobbyPublic_eq]
  simp only [Value.find, Value.findFields, Value.findField, hdata.findFields_eq, Broker.number,
    find_integer]
  cases Entries.get? "Members" l.lobbyData <;> simp

theorem find_lock : (reply host l).find "MembershipLock" =
    some ((ahead host l "MembershipLock").getD (.string l.membershipLock)) := by
  rw [reply_find host l (by decide) (by decide) (by decide), lobbyPublic_eq, ahead]
  simp only [Value.find, Value.findFields, Value.findField, hdata.findFields_eq, Broker.number,
    find_integer]
  cases Entries.get? "MembershipLock" l.lobbyData <;>
    cases Value.findList "MembershipLock" (membersForClient host l) <;> simp

theorem find_owner : (reply host l).find "Owner" = some (firstOwner host l) := by
  rw [reply_find host l (by decide) (by decide) (by decide), lobbyPublic_eq, firstOwner, ahead]
  simp only [Value.find, Value.findFields, Value.findField, hdata.findFields_eq, Broker.number,
    find_integer]
  cases Entries.get? "Owner" l.lobbyData <;>
    cases Value.findList "Owner" (membersForClient host l) <;> simp

theorem find_searchData : (reply host l).find "SearchData" =
    some ((hidingSearch host l).getD (.object l.searchData)) := by
  rw [reply_find host l (by decide) (by decide) (by decide), lobbyPublic_eq, hidingSearch, ahead]
  simp only [Value.find, Value.findFields, Value.findField, hdata.findFields_eq, Broker.number,
    find_integer]
  cases Entries.get? "SearchData" l.lobbyData <;>
    cases Value.findList "SearchData" (membersForClient host l) <;>
      cases l.owner.find "SearchData" <;> simp

end

/-! ### Agreement -/

/-- A lobby whose data are maps of strings within the caps. The data of each member are those that
are stored, which a reply completes. -/
structure Plain (l : Broker.Lobby) : Prop where
  lobbyData : PlainMap l.lobbyData
  lobbySize : l.lobbyData.length ≤ objectCap
  searchData : PlainMap l.searchData
  searchSize : l.searchData.length ≤ objectCap
  memberData : ∀ m ∈ l.members, PlainMap (storedData m)
  memberSize : ∀ m ∈ l.members, (storedData m).length ≤ objectCap

/-- The id of the owner, unless there is none or it is empty. -/
def ownerOf (l : Broker.Lobby) : Option String :=
  (Json.jsonStr l.owner "Id").filter fun s => !s.isEmpty

/-- The view of a lobby. -/
structure Agrees (host : Broker.Host) (l : Broker.Lobby) (v : View) : Prop where
  id : v.id = l.id
  connection : v.connection = l.connection
  hasOwner : v.hasOwner = (ownerOf l).isSome
  owner : ∀ o, ownerOf l = some o → v.owner = titlePlayer o
  maxPlayers : (v.maxPlayers.toNat : ℤ) = l.maxPlayers
  membershipLock : v.membershipLock = parseMembershipLock l.membershipLock
  members : v.members = l.members.map fun m => titlePlayer (memberId m)
  props : SameMap v.props l.lobbyData
  search : SameMap v.search l.searchData
  memberProps : ∀ m ∈ l.members, ∃ mp, v.memberProps.get? (memberId m) = some mp ∧
    SameMap mp (completed host m)
  others : ∀ eid, (∀ m ∈ l.members, memberId m ≠ eid) → v.memberProps.get? eid = none

section
variable (host : Broker.Host)

/-- The id that the shim takes from an owner. -/
def ownerName : Value → Option String
  | .object fields =>
      ((kept (Broker.numberText host) OrdMap.empty fields).get? "Id").filter fun s => !s.isEmpty
  | _ => none

/-- The lock that the shim takes from a value. -/
def lockOf (x : Value) : ℤ := ((strOf (Broker.numberText host) x).map parseMembershipLock).getD 0

/-- The maximum that the shim takes from the numbers it has found. -/
def maxOf (found : Option UInt32) : UInt32 :=
  let n := found.getD 8
  if n < 2 then 2 else if 32 < n then 32 else n

/-- What the shim takes in the place of a maximum that is no number. -/
def maxMember (l : Broker.Lobby) : Option UInt32 :=
  (((reply host l).find "max_member").bind (strOf (Broker.numberText host))).bind parseU32

/-- Nothing of a lobby is hidden by its data, or what hides it says the same; every property has a
name; the ids are C strings; and what is beyond the cap in the completed data of a member is what
the shim puts there itself. -/
structure Unshadowed (l : Broker.Lobby) : Prop where
  idText : '\x00' ∉ l.id.toList
  id : ∀ s, dataText l.lobbyData "LobbyId" = some s → s = l.id
  connection : '\x00' ∉ l.connection.toList
  owner : (ownerName host (firstOwner host l)).map interned = ownerOf l
  maxPlayers : ∀ s, dataText l.lobbyData "MaxPlayers" = some s →
    ((maxOf ((parseU32 s).or (maxMember host l))).toNat : ℤ) = l.maxPlayers
  lock : ∀ x, ahead host l "MembershipLock" = some x →
    lockOf host x = parseMembershipLock l.membershipLock
  roster : Entries.get? "Members" l.lobbyData = none
  ids : ∀ m ∈ l.members, interned (memberId m) = memberId m
  props : Entries.get? "" l.lobbyData = none
  search : match hidingSearch host l with
    | some x => SameMap (bag (Broker.numberText host) x) l.searchData
    | none => Entries.get? "" l.searchData = none
  memberProps : ∀ m ∈ l.members, Entries.get? "" (storedData m) = none ∧
    ∀ e ∈ (completed host m).drop objectCap, defaultProp (memberId m) e.1 = e.2.asStr

end

/-- What a view is read from. -/
structure ReadFrom (text : List Char) (v : View) : Prop where
  id : jsonStr text "LobbyId" = some v.id
  connection : v.connection = (jsonStr text "ConnectionString").getD ("lan." ++ v.id)
  owner : v.owner = titlePlayer (interned
    ((((jsonObj text "Owner").get? "Id").filter fun s => !s.isEmpty).getD "owner"))
  hasOwner : v.hasOwner = (((jsonObj text "Owner").get? "Id").filter fun s => !s.isEmpty).isSome
  maxPlayers : v.maxPlayers = jsonMaxPlayers text
  membershipLock : v.membershipLock =
    ((jsonStr text "MembershipLock").map parseMembershipLock).getD 0
  props : v.props = applyProps OrdMap.empty (jsonObj text "LobbyData")
  search : v.search = applyProps OrdMap.empty (jsonObj text "SearchData")
  members : v.members =
    ((jsonArrObjects text "Members").filterMap entryOf).map fun e => titlePlayer (interned e.1)
  memberProps : v.memberProps = ((jsonArrObjects text "Members").filterMap entryOf).foldl
    (fun m e => m.insert e.1 e.2) OrdMap.empty

theorem readFrom_of_lobbyFromJson {text : List Char} {v : View}
    (h : View.lobbyFromJson text = some v) : ReadFrom text v := by
  unfold View.lobbyFromJson at h
  obtain ⟨id, hid, h⟩ := Option.bind_eq_some_iff.mp h
  simp only at h
  split_ifs at h
  cases h
  exact ⟨hid, rfl, rfl, rfl, rfl, rfl, rfl, rfl, rfl, rfl⟩

/-- The maximum of a lobby is read back. -/
theorem maxOf_own {n : ℤ} (hlow : 2 ≤ n) (hhigh : n ≤ 32) (host : Broker.Host) (other : Option UInt32) :
    ((maxOf (((strOf (Broker.numberText host) (Broker.integer n)).bind parseU32).or other)).toNat : ℤ) =
      n := by
  have hparse : ∀ i : Fin 33, parseU32 (toString i.val) = some (UInt32.ofNat i.val) := by decide +kernel
  have hmax : ∀ i : Fin 33, 2 ≤ i.val → (maxOf (some (UInt32.ofNat i.val))).toNat = i.val := by
    decide +kernel
  lift n to ℕ using by omega
  have hown : strOf (Broker.numberText host) (Broker.integer n) = some (toString n) := by
    have hword : (UInt64.ofNat n).toNat = n := UInt64.toNat_ofNat_of_lt' (by simp [UInt64.size]; omega)
    have hint : Broker.integer n = .number (.posInt (UInt64.ofNat n)) := if_neg (by omega)
    rw [hint]
    change some (toString (UInt64.ofNat n).toNat) = _
    rw [hword]
  rw [hown, Option.bind_some, hparse ⟨n, by omega⟩, Option.some_or,
    hmax ⟨n, by omega⟩ (show 2 ≤ n by omega)]

section
variable {host : Broker.Host} (hfloat : ∀ bits, IsNumberText (host.floatText bits)) {l : Broker.Lobby}
include hfloat

theorem jsonStr_replyText (key : String) : jsonStr (replyText host l) key =
    ((reply host l).find key).bind (strOf (Broker.numberText host)) := by
  rw [replyText, jsonStr_text (numberText_isNumberText hfloat), scanStr]
  cases (reply host l).find key with
  | none => rfl
  | some x => cases x <;> rfl

theorem bag_replyText (key : String) : applyProps OrdMap.empty (jsonObj (replyText host l) key) =
    (((reply host l).find key).map (bag (Broker.numberText host))).getD OrdMap.empty :=
  jsonObj_bag (numberText_isNumberText hfloat) _ key

theorem connection_replyText : jsonStr (replyText host l) "ConnectionString" = some l.connection := by
  rw [jsonStr_replyText hfloat, find_connection]
  rfl

theorem props_replyText : applyProps OrdMap.empty (jsonObj (replyText host l) "LobbyData") =
    bag (Broker.numberText host) (.object l.lobbyData) := by
  rw [bag_replyText hfloat, find_lobbyData]
  rfl

variable (hdata : PlainMap l.lobbyData)
include hdata

theorem id_replyText : jsonStr (replyText host l) "LobbyId" =
    some ((dataText l.lobbyData "LobbyId").getD l.id) := by
  rw [jsonStr_replyText hfloat, find_lobbyId host hdata, hdata.get?_eq]
  cases dataText l.lobbyData "LobbyId" <;> rfl

theorem search_replyText : applyProps OrdMap.empty (jsonObj (replyText host l) "SearchData") =
    bag (Broker.numberText host) ((hidingSearch host l).getD (.object l.searchData)) := by
  rw [bag_replyText hfloat, find_searchData host hdata]
  rfl

theorem lock_replyText : ((jsonStr (replyText host l) "MembershipLock").map parseMembershipLock).getD 0 =
    lockOf host ((ahead host l "MembershipLock").getD (.string l.membershipLock)) := by
  rw [jsonStr_replyText hfloat, find_lock host hdata]
  rfl

theorem owner_replyText :
    (((jsonObj (replyText host l) "Owner").get? "Id").filter fun s => !s.isEmpty) =
      ownerName host (firstOwner host l) := by
  rw [replyText, jsonObj_text (numberText_isNumberText hfloat), scanObj, find_owner host hdata]
  cases firstOwner host l <;> rfl

theorem maxPlayers_replyText : jsonMaxPlayers (replyText host l) =
    maxOf ((match dataText l.lobbyData "MaxPlayers" with
      | some s => parseU32 s
      | none => (strOf (Broker.numberText host) (Broker.integer l.maxPlayers)).bind parseU32).or
        (maxMember host l)) := by
  have hown : jsonU32 (replyText host l) "MaxPlayers" = match dataText l.lobbyData "MaxPlayers" with
      | some s => parseU32 s
      | none => (strOf (Broker.numberText host) (Broker.integer l.maxPlayers)).bind parseU32 := by
    rw [jsonU32, jsonStr_replyText hfloat, find_maxPlayers host hdata, hdata.get?_eq]
    cases dataText l.lobbyData "MaxPlayers" <;> rfl
  have hother : jsonU32 (replyText host l) "max_member" = maxMember host l := by
    rw [jsonU32, jsonStr_replyText hfloat]
    rfl
  rw [jsonMaxPlayers, hown, hother]
  rfl

/-- The members of the reply, each with its data. None is found behind a property of that name. -/
theorem entries_replyText (hshaped : l.Shaped) (hlength : l.members.length ≤ arrayCap) :
    (jsonArrObjects (replyText host l) "Members").filterMap entryOf =
      if Entries.get? "Members" l.lobbyData = none then
        l.members.map fun m => (memberId m, readProps host m)
      else [] := by
  have hnumber := numberText_isNumberText hfloat
  rw [replyText, jsonArrObjects_text hnumber, scanArr, find_members host hdata, hdata.get?_eq]
  cases dataText l.lobbyData "Members" with
  | some s => rfl
  | none =>
    change ((List.take arrayCap (membersForClient host l)).map _).filterMap entryOf = _
    rw [membersForClient_eq, List.take_of_length_le (by rw [List.length_map]; exact hlength),
      List.map_map, List.filterMap_map, Option.map_none, if_pos rfl, ← List.filterMap_eq_map]
    refine List.filterMap_congr fun m hm => ?_
    exact entryOf_forClient hnumber (hshaped m hm)

end

theorem titlePlayer_injective {a b : String} (h : titlePlayer a = titlePlayer b) : a = b :=
  congrArg EntityKey.id h

theorem owner_iff (x y : Option String) :
    (x.isSome = y.isSome ∧ ∀ o, y = some o → titlePlayer (interned (x.getD "owner")) = titlePlayer o) ↔
      x.map interned = y := by
  cases x with
  | none => cases y <;> simp
  | some x =>
    cases y with
    | none => simp
    | some y =>
      constructor
      · rintro ⟨-, h⟩
        rw [Option.map_some, ← titlePlayer_injective (h y rfl)]
        rfl
      · intro h
        rw [Option.map_some, Option.some.injEq] at h
        refine ⟨rfl, fun o ho => ?_⟩
        rw [← Option.some.inj ho, ← h]
        rfl

/-- The search data agree. -/
theorem search_iff (host : Broker.Host) {l : Broker.Lobby} (hplain : Plain l) :
    SameMap (bag (Broker.numberText host) ((hidingSearch host l).getD (.object l.searchData)))
        l.searchData ↔
      match hidingSearch host l with
      | some x => SameMap (bag (Broker.numberText host) x) l.searchData
      | none => Entries.get? "" l.searchData = none := by
  cases hidingSearch host l with
  | some x => rfl
  | none => exact bag_agrees_iff _ hplain.searchData hplain.searchSize

section
variable {host : Broker.Host} {l : Broker.Lobby} {title k : String}

theorem readProps_sameMap_iff (hplain : Plain l) {m : Value} (hm : m ∈ l.members) :
    SameMap (readProps host m) (completed host m) ↔ Entries.get? "" (storedData m) = none ∧
      ∀ e ∈ (completed host m).drop objectCap, defaultProp (memberId m) e.1 = e.2.asStr := by
  have hfilled : Filled (completed host m) := (hplain.memberData m hm).filled (memberId m)
  have hempty := Broker.get?_fillMemberData host (show "" ∉ Broker.platformKeys by decide)
    (storedData m) (memberId m)
  rw [readProps, hfilled.sameMap_iff, completed, hempty]

theorem get?_readProps (hok : l.Ok title k) {m : Value} (hm : m ∈ l.members) :
    ((l.members.map fun m => (memberId m, readProps host m)).foldl (fun mp e => mp.insert e.1 e.2)
      OrdMap.empty).get? (memberId m) = some (readProps host m) := by
  set entries := l.members.map fun m => (memberId m, readProps host m) with hentries
  have hnodup : (entries.map Prod.fst).Nodup := by
    rw [hentries, List.map_map]
    exact hok.distinct
  have hmem : (memberId m, readProps host m) ∈ entries := List.mem_map_of_mem hm
  have hget : Entries.get? (memberId m) entries.reverse = some (readProps host m) := by
    rw [← Entries.get?_perm hnodup (List.reverse_perm entries).symm, Entries.get?_eq_some_iff hnodup]
    exact hmem
  rw [OrdMap.get?_foldl_insert, hget]
  rfl

theorem get?_readProps_other {eid : String} (h : ∀ m ∈ l.members, memberId m ≠ eid) :
    ((l.members.map fun m => (memberId m, readProps host m)).foldl (fun mp e => mp.insert e.1 e.2)
      OrdMap.empty).get? eid = none := by
  rw [OrdMap.get?_foldl_insert, OrdMap.get?_empty, Option.or_none, Entries.get?_eq_none_iff]
  intro e he
  obtain ⟨m, hm, rfl⟩ := List.mem_map.mp (List.mem_reverse.mp he)
  exact h m hm

end

/-- What is read from the reply about a lobby. -/
structure ReadOf (host : Broker.Host) (l : Broker.Lobby) (v : View) : Prop where
  id : v.id = (dataText l.lobbyData "LobbyId").getD l.id
  connection : v.connection = l.connection
  owner : v.owner = titlePlayer (interned ((ownerName host (firstOwner host l)).getD "owner"))
  hasOwner : v.hasOwner = (ownerName host (firstOwner host l)).isSome
  maxPlayers : v.maxPlayers = maxOf ((match dataText l.lobbyData "MaxPlayers" with
    | some s => parseU32 s
    | none => (strOf (Broker.numberText host) (Broker.integer l.maxPlayers)).bind parseU32).or
      (maxMember host l))
  membershipLock : v.membershipLock =
    lockOf host ((ahead host l "MembershipLock").getD (.string l.membershipLock))
  props : v.props = bag (Broker.numberText host) (.object l.lobbyData)
  search : v.search =
    bag (Broker.numberText host) ((hidingSearch host l).getD (.object l.searchData))
  members : v.members = (if Entries.get? "Members" l.lobbyData = none then
    l.members.map fun m => (memberId m, readProps host m) else []).map fun e =>
      titlePlayer (interned e.1)
  memberProps : v.memberProps = (if Entries.get? "Members" l.lobbyData = none then
    l.members.map fun m => (memberId m, readProps host m) else []).foldl
      (fun m e => m.insert e.1 e.2) OrdMap.empty

section
variable {host : Broker.Host} (hfloat : ∀ bits, IsNumberText (host.floatText bits))
  {l : Broker.Lobby} {title k : String} (hok : l.Ok title k) (hshaped : l.Shaped) (hplain : Plain l)
include hfloat hok hshaped hplain

theorem readOf_of_lobbyFromJson {v : View} (h : View.lobbyFromJson (replyText host l) = some v) :
    ReadOf host l v := by
  have hread := readFrom_of_lobbyFromJson h
  have hdata := hplain.lobbyData
  have hlength : l.members.length ≤ arrayCap := by
    have hroom := hok.room
    have hhigh := hok.high
    unfold arrayCap
    omega
  have hentries := entries_replyText hfloat hdata hshaped hlength
  constructor
  · have hid := hread.id
    rw [id_replyText hfloat hdata, Option.some.injEq] at hid
    exact hid.symm
  · rw [hread.connection, connection_replyText hfloat]
    rfl
  · rw [hread.owner, owner_replyText hfloat hdata]
  · rw [hread.hasOwner, owner_replyText hfloat hdata]
  · rw [hread.maxPlayers, maxPlayers_replyText hfloat hdata]
  · rw [hread.membershipLock, lock_replyText hfloat hdata]
  · rw [hread.props, props_replyText hfloat]
  · rw [hread.search, search_replyText hfloat hdata]
  · rw [hread.members, hentries]
  · rw [hread.memberProps, hentries]

end

theorem lobbyFromJson_reply_isSome_iff {host : Broker.Host}
    (hfloat : ∀ bits, IsNumberText (host.floatText bits)) {l : Broker.Lobby} (hplain : Plain l) :
    (View.lobbyFromJson (replyText host l)).isSome = true ↔
    '\x00' ∉ ((dataText l.lobbyData "LobbyId").getD l.id).toList ∧ '\x00' ∉ l.connection.toList := by
  rw [lobbyFromJson_isSome_iff, id_replyText hfloat hplain.lobbyData, connection_replyText hfloat]
  simp

namespace ReadOf

variable {host : Broker.Host} {l : Broker.Lobby} {v : View} {title k : String}

/-- A view that agrees tells that nothing was hidden. -/
theorem unshadowed (h : ReadOf host l v) (hok : l.Ok title k) (hplain : Plain l)
    (hid : '\x00' ∉ v.id.toList) (hconnection : '\x00' ∉ l.connection.toList) (ha : Agrees host l v) :
    Unshadowed host l := by
  have hroster : Entries.get? "Members" l.lobbyData = none := by
    by_contra hhidden
    have hmembers := ha.members
    rw [h.members, if_neg hhidden] at hmembers
    have hlength := congrArg List.length hmembers
    rw [List.length_map, List.length_map, List.length_nil] at hlength
    have hsome := hok.nonempty
    omega
  have hmembers := h.members
  have hmemberProps := h.memberProps
  rw [if_pos hroster] at hmembers hmemberProps
  constructor
  · rw [← ha.id]
    exact hid
  · intro s hs
    rw [← ha.id, h.id, hs]
    rfl
  · exact hconnection
  · rw [← owner_iff, ← h.hasOwner, ← h.owner]
    exact ⟨ha.hasOwner, ha.owner⟩
  · intro s hs
    have hmax := h.maxPlayers
    rw [hs] at hmax
    rw [← ha.maxPlayers, hmax]
  · intro x hx
    have hlock := h.membershipLock
    rw [hx] at hlock
    rw [← ha.membershipLock, hlock]
    rfl
  · exact hroster
  · intro m hm
    have heq := hmembers.symm.trans ha.members
    rw [List.map_map, List.map_inj_left] at heq
    exact titlePlayer_injective (heq m hm)
  · rw [← bag_agrees_iff (Broker.numberText host) hplain.lobbyData hplain.lobbySize, ← h.props]
    exact ha.props
  · rw [← search_iff host hplain, ← h.search]
    exact ha.search
  · intro m hm
    obtain ⟨mp, hget, hsame⟩ := ha.memberProps m hm
    rw [hmemberProps, get?_readProps hok hm, Option.some.injEq] at hget
    rw [← readProps_sameMap_iff hplain hm, hget]
    exact hsame

/-- Where nothing is hidden, the view agrees. -/
theorem agrees (h : ReadOf host l v) (hok : l.Ok title k) (hplain : Plain l) (hu : Unshadowed host l) :
    Agrees host l v := by
  have hmembers := h.members
  have hmemberProps := h.memberProps
  rw [if_pos hu.roster] at hmembers hmemberProps
  have howner := (owner_iff (ownerName host (firstOwner host l)) (ownerOf l)).mpr hu.owner
  constructor
  · rw [h.id]
    cases hs : dataText l.lobbyData "LobbyId" with
    | none => rfl
    | some s => exact hu.id s hs
  · exact h.connection
  · rw [h.hasOwner]
    exact howner.1
  · rw [h.owner]
    exact howner.2
  · rw [h.maxPlayers]
    cases hs : dataText l.lobbyData "MaxPlayers" with
    | none => exact maxOf_own hok.low hok.high host _
    | some s => exact hu.maxPlayers s hs
  · rw [h.membershipLock]
    cases hx : ahead host l "MembershipLock" with
    | none => rfl
    | some x => exact hu.lock x hx
  · rw [hmembers, List.map_map]
    refine List.map_congr_left fun m hm => ?_
    exact congrArg titlePlayer (hu.ids m hm)
  · rw [h.props]
    exact (bag_agrees_iff _ hplain.lobbyData hplain.lobbySize).mpr hu.props
  · rw [h.search]
    exact (search_iff host hplain).mpr hu.search
  · intro m hm
    refine ⟨readProps host m, ?_, (readProps_sameMap_iff hplain hm).mpr (hu.memberProps m hm)⟩
    rw [hmemberProps, get?_readProps hok hm]
  · intro eid heid
    rw [hmemberProps, get?_readProps_other heid]

end ReadOf

/-- Of every lobby that a broker stores, with data that are maps of strings within the caps, the shim
reads a view that agrees exactly when nothing of the lobby is hidden. -/
theorem lobbyFromJson_agrees_iff {host : Broker.Host}
    (hfloat : ∀ bits, IsNumberText (host.floatText bits)) (app : Broker.App) (qs : List Broker.Query)
    {k : String} {l : Broker.Lobby} (hstored : (app.after host qs).lobbies.get? k = some l)
    (hplain : Plain l) :
    (∃ v, View.lobbyFromJson (replyText host l) = some v ∧ Agrees host l v) ↔ Unshadowed host l := by
  have hok := Broker.App.after_ok host app qs k l hstored
  have hshaped := Broker.App.after_shaped host app qs k l hstored
  have hsome := lobbyFromJson_reply_isSome_iff hfloat hplain
  constructor
  · rintro ⟨v, hv, ha⟩
    have hread := readOf_of_lobbyFromJson hfloat hok hshaped hplain hv
    rw [hv, ← hread.id] at hsome
    obtain ⟨hid, hconnection⟩ := hsome.mp rfl
    exact hread.unshadowed hok hplain hid hconnection ha
  · intro hu
    have hid : (dataText l.lobbyData "LobbyId").getD l.id = l.id := by
      cases hs : dataText l.lobbyData "LobbyId" with
      | none => rfl
      | some s => exact hu.id s hs
    rw [hid] at hsome
    obtain ⟨v, hv⟩ := Option.isSome_iff_exists.mp (hsome.mpr ⟨hu.idText, hu.connection⟩)
    exact ⟨v, hv, (readOf_of_lobbyFromJson hfloat hok hshaped hplain hv).agrees hok hplain hu⟩

/-- The broker of an anonymous client, where no value holds a double. -/
def propertyHost : Broker.Host := { Broker.anonymousHost with floatText := fun _ => "0.0" }

/-- A lobby is made that has one property. -/
def createWith (key value : String) : List Broker.Query :=
  [.playfab ⟨⟨1767225600, "1767225600.5", []⟩, "/Lobby/CreateAndJoinLobby",
    .obj [("MaxPlayers", Broker.number 4), ("LobbyData", .obj [(key, .string value)])], OrdMap.empty⟩]

/-- The broker that holds this lobby. -/
def brokerWith (key value : String) : Broker.App :=
  (Broker.App.new "1AC1AD" 8 false).after propertyHost (createWith key value)

/-- The data of the player that made it. -/
def steamData : Fields :=
  [("member_platform", .string "Steam"), ("member_platform_account_id", .string "12465438402138011029"),
    ("member_platform_user_name", .string "LAN")]

theorem plainMap_steamData : PlainMap steamData := by
  refine ⟨by decide +kernel, fun e he => ?_⟩
  simp only [steamData, List.mem_cons, List.not_mem_nil, or_false] at he
  rcases he with rfl | rfl | rfl
  · exact ⟨_, rfl, by decide⟩
  · exact ⟨_, rfl, by decide⟩
  · exact ⟨_, rfl, by decide⟩

theorem plain_single {l : Broker.Lobby} {key value : String} (hvalue : '\x00' ∉ value.toList)
    (hlobby : l.lobbyData = [(key, .string value)]) (hsearch : l.searchData = [])
    (hmembers : l.members.map storedData = [steamData]) : Plain l := by
  have hsteam : ∀ m ∈ l.members, storedData m = steamData := by
    intro m hm
    have hmem := List.mem_map_of_mem (f := storedData) hm
    rw [hmembers] at hmem
    exact List.mem_singleton.mp hmem
  have hlobby' : PlainMap l.lobbyData := by
    rw [hlobby]
    refine ⟨List.pairwise_singleton _ _, fun e he => ?_⟩
    rw [List.mem_singleton.mp he]
    exact ⟨value, rfl, hvalue⟩
  constructor
  · exact hlobby'
  · rw [hlobby]
    exact (by decide : 1 ≤ objectCap)
  · rw [hsearch]
    exact ⟨List.Pairwise.nil, fun e he => by cases he⟩
  · rw [hsearch]
    decide
  · intro m hm
    rw [hsteam m hm]
    exact plainMap_steamData
  · intro m hm
    rw [hsteam m hm]
    decide

theorem propertyHost_isNumberText (bits : UInt64) : IsNumberText (propertyHost.floatText bits) :=
  integerHost_isNumberText bits

theorem lobbyFromJson_agrees_iff_property : ∃ l,
    (brokerWith "k" "v").lobbies.get? "lan-2b05b16a57c6" = some l ∧ Plain l ∧
      ((∃ v, View.lobbyFromJson (replyText propertyHost l) = some v ∧ Agrees propertyHost l v) ↔
        Unshadowed propertyHost l) := by
  have hrun : ((brokerWith "k" "v").lobbies.get? "lan-2b05b16a57c6").map
      (fun l => (l.lobbyData, l.searchData, l.members.map storedData)) =
        some ([("k", .string "v")], [], [steamData]) := by decide +kernel
  obtain ⟨l, hl, hfields⟩ := Option.map_eq_some_iff.mp hrun
  simp only [Prod.mk.injEq] at hfields
  obtain ⟨hlobby, hsearch, hmembers⟩ := hfields
  have hplain : Plain l := plain_single (by decide) hlobby hsearch hmembers
  exact ⟨l, hl, hplain, lobbyFromJson_agrees_iff propertyHost_isNumberText _ _ hl hplain⟩

/-- A property with the name `Members` hides the roster. -/
theorem property_hides_members : ∃ l,
    (brokerWith "Members" "2").lobbies.get? "lan-2b05b16a57c6" = some l ∧ Plain l ∧
      ¬∃ v, View.lobbyFromJson (replyText propertyHost l) = some v ∧ Agrees propertyHost l v := by
  have hrun : ((brokerWith "Members" "2").lobbies.get? "lan-2b05b16a57c6").map
      (fun l => (l.lobbyData, l.searchData, l.members.map storedData)) =
        some ([("Members", .string "2")], [], [steamData]) := by decide +kernel
  obtain ⟨l, hl, hfields⟩ := Option.map_eq_some_iff.mp hrun
  simp only [Prod.mk.injEq] at hfields
  obtain ⟨hlobby, hsearch, hmembers⟩ := hfields
  have hplain : Plain l := plain_single (by decide) hlobby hsearch hmembers
  refine ⟨l, hl, hplain, ?_⟩
  rintro ⟨v, hv, ha⟩
  have hok := Broker.App.after_ok _ _ _ _ l hl
  have hread := readOf_of_lobbyFromJson propertyHost_isNumberText hok
    (Broker.App.after_shaped _ _ _ _ l hl) hplain hv
  have hnone : v.members = [] := by
    rw [hread.members, hlobby]
    rfl
  have hlength := congrArg List.length (hnone.symm.trans ha.members)
  rw [List.length_map, List.length_nil] at hlength
  have hsome := hok.nonempty
  omega

end GbfrLan.Playfab
