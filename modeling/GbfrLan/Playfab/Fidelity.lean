import GbfrLan.Json.Weight
import GbfrLan.Playfab.Bag
import GbfrLan.Playfab.Posting

/-!
# What the bodies of requests say

A create, a join and an update are read back as the maps, ids, lists and numbers that they were
built from, exactly when nothing that is written without its escapes needs one: the names of
properties, and the id of the lobby. The values and the names to delete are escaped.

That a body with a bare name cannot be read back by accident, put together again from other parts
of the text, follows from its weight.
-/
namespace GbfrLan.Playfab
open Lib Json

/-! ### Requests -/

/-- A request with the arguments that its body is built from. -/
inductive LobbyRequest where
  | create (max ownerMigrationPolicy : UInt32) (lobbyData search : Props) (ownerId : String)
      (memberKv : Props)
  | join (conn joinerId : String) (memberKv : Props)
  | update (lobby : Lobby) (searchDelete lobbyDelete : List String) (memberTarget : Option String)
      (memberDelete : List String) (scalars : PostUpdateScalars) (localEntity : String)

/-- The map as a JSON object. -/
def bagValue (m : Props) : Value := .object (m.entries.map fun e => (e.1, .string e.2))

/-- The member data of a request: the given map, with what every member has. -/
def memberData (entityId : String) (extra : Props) : Props :=
  ensureMemberProps (applyProps OrdMap.empty extra) entityId

/-- The member whose data an update sends along. -/
def updateMember (lobby : Lobby) (memberTarget : Option String) (localEntity : String) :
    Option (String × Props) :=
  (memberTarget.or (if localEntity.isEmpty then none else some localEntity)).bind fun eid =>
    (lobby.memberProps.get? eid).map fun mp => (eid, mp)

namespace LobbyRequest

/-- The body that is sent, with the iteration orders of the maps. -/
def body (order : Orders) : LobbyRequest → List Char
  | .create max ownerMigrationPolicy lobbyData search ownerId memberKv =>
      buildCreateBody max.toNat ownerMigrationPolicy.toNat lobbyData search ownerId memberKv order
  | .join conn joinerId memberKv => buildJoinBody conn joinerId memberKv order
  | .update lobby searchDelete lobbyDelete memberTarget memberDelete scalars localEntity =>
      buildUpdateBody lobby searchDelete lobbyDelete memberTarget memberDelete scalars localEntity
        order

/-- The fields that the body is to have. -/
def entries : LobbyRequest → List (String × Value)
  | .create max ownerMigrationPolicy lobbyData search ownerId memberKv =>
      [("MaxPlayers", Broker.number max.toNat),
        ("OwnerMigrationPolicy", Broker.number ownerMigrationPolicy.toNat),
        ("LobbyData", bagValue lobbyData), ("SearchData", bagValue search)] ++
      (if ownerId = "" then [] else [("Owner", entityValue ownerId "title_player_account")]) ++
      [("MemberData", bagValue (memberData ownerId memberKv))]
  | .join conn joinerId memberKv =>
      ("ConnectionString", .string conn) ::
        if joinerId = "" then []
        else [("MemberEntity", entityValue joinerId "title_player_account"),
          ("MemberData", bagValue (memberData joinerId memberKv))]
  | .update lobby searchDelete lobbyDelete memberTarget memberDelete scalars localEntity =>
      [("LobbyId", .string lobby.id), ("LobbyData", bagValue lobby.props),
        ("SearchData", bagValue lobby.search)] ++
      (match updateMember lobby memberTarget localEntity with
        | none => []
        | some (eid, mp) => ("MemberData", bagValue (memberData eid mp)) ::
            if memberTarget.isSome then [("MemberEntity", entityValue eid "title_player_account")]
            else []) ++
      deleteEntries searchDelete lobbyDelete ++ scalars.entries ++
      memberDeleteEntries memberTarget memberDelete

/-- Nothing that the body has without its escapes needs one. -/
def PlainNames : LobbyRequest → Prop
  | .create _ _ lobbyData search _ memberKv =>
      PlainKeys lobbyData ∧ PlainKeys search ∧ PlainKeys memberKv
  | .join _ joinerId memberKv => joinerId = "" ∨ PlainKeys memberKv
  | .update lobby _ _ memberTarget _ _ localEntity =>
      Read.Plain lobby.id ∧ PlainKeys lobby.props ∧ PlainKeys lobby.search ∧
        ∀ m ∈ updateMember lobby memberTarget localEntity, PlainKeys m.2

end LobbyRequest

/-! ### Maps -/

theorem propsValue_eq (m : Props) (order : List String) : propsValue m order = bagValue m := by
  have hsorted : (m.entries.map fun e => (e.1, Value.string e.2)).Pairwise (fun a b => a.1 < b.1) :=
    List.pairwise_map.mpr m.sorted
  have hsorted' := OrdMap.sorted_foldl_insert
    ((m.iterEntries order).map fun e => (e.1, Value.string e.2)) [] .nil
  have heq : (⟨_, hsorted'⟩ : OrdMap String Value) = ⟨_, hsorted⟩ := by
    refine OrdMap.ext_get? fun k => ?_
    have hread : (propsValue m order).get k = (m.get? k).map .string := get_propsValue m order k
    exact hread.trans (Entries.get?_map k Value.string m.entries).symm
  exact congrArg (fun m => Value.object m.entries) heq

/-- The member data has the given map but for the names that every member has. -/
theorem get?_memberData (eid : String) (extra : Props) {k : String} (hk : k ∉ Broker.platformKeys) :
    (memberData eid extra).get? k = (extra.get? k).map cString := by
  rw [memberData, get?_ensureMemberProps _ eid hk, get?_applyProps_empty]

theorem plainKeys_memberData_iff (eid : String) (extra : Props) :
    PlainKeys (memberData eid extra) ↔ PlainKeys extra := by
  constructor
  · intro h
    rw [plainKeys_iff] at h ⊢
    intro k v hk
    by_cases hplatform : k ∈ Broker.platformKeys
    · have hall : ∀ k ∈ Broker.platformKeys, Read.Plain k := by decide
      exact hall k hplatform
    · refine h k (cString v) ?_
      rw [get?_memberData eid extra hplatform, hk]
      rfl
  · intro h
    have hempty : PlainKeys OrdMap.empty := by simp [PlainKeys, OrdMap.keys]
    exact plainKeys_ensureMemberProps (plainKeys_applyProps hempty h) eid

theorem memberDataValue_eq (eid : String) (extra : Props) (order : List String) :
    memberDataValue eid extra order = bagValue (memberData eid extra) :=
  propsValue_eq _ order

theorem memberEntries_eq (lobby : Lobby) (memberTarget : Option String) (localEntity : String)
    (order : List String) :
    memberEntries lobby memberTarget localEntity order =
      match updateMember lobby memberTarget localEntity with
      | none => []
      | some (eid, mp) => ("MemberData", bagValue (memberData eid mp)) ::
          if memberTarget.isSome then [("MemberEntity", entityValue eid "title_player_account")]
          else [] := by
  unfold memberEntries
  simp only [memberDataValue_eq]
  change (match updateMember lobby memberTarget localEntity with | none => [] | some (eid, mp) => _) = _
  cases updateMember lobby memberTarget localEntity with
  | none => rfl
  | some m =>
    dsimp only
    split_ifs <;> rfl

/-! ### Weights of bodies -/

theorem weight_commas (ts : List (List Char)) : weight (Text.commas ts) = weight ts.flatten := by
  have hcomma : weight [','] = 0 := by decide
  have htail (ts : List (List Char)) :
      weight (ts.flatMap fun t => ',' :: t) = weight ts.flatten := by
    induction ts with
    | nil => rfl
    | cons t ts ih =>
      rw [List.flatMap_cons, weight_append, weight_cons, List.flatten_cons, weight_append, ih, hcomma,
        Nat.zero_add]
  cases ts with
  | nil => rfl
  | cons t ts => rw [Text.commas, weight_append, htail, List.flatten_cons, weight_append]

theorem weight_object (ts : List (List Char)) : weight (object ts) = weight ts.flatten := by
  have hopen : weight ['{'] = 0 := by decide
  have hclose : weight ['}'] = 0 := by decide
  rw [object, List.cons_append, weight_cons, weight_append, weight_commas, hopen, hclose]
  omega

theorem light_quoted {t : List Char} {n : ℕ} {P : Prop} (h : Light t n P) :
    Light (quoted t) (2 + n) P := by
  have hquote : weight ['"'] = 1 := by decide
  have hweight : weight (quoted t) = 2 + weight t := by
    rw [quoted, List.cons_append, weight_cons, weight_append, hquote]
    omega
  have hle := h.le
  constructor
  · omega
  · intro heq
    exact h.cond (by omega)

theorem light_escaped (s : String) : Light (quoted (jsonEscape s)) (Value.string s).size True := by
  rw [Value.size]
  exact light_quoted (.of_eq rfl)

theorem light_bare (s : String) : Light (quoted s.toList) (Value.string s).size (Read.Plain s) := by
  rw [Value.size]
  exact light_quoted (light_plain s)

/-- The texts of fields against the fields they stand for. -/
def LightFields (ts : List (List Char)) (es : List (String × Value)) (P : Prop) : Prop :=
  Light ts.flatten (Value.sizeFields es) P

namespace LightFields

variable {ts ts' : List (List Char)} {es es' : List (String × Value)} {P P' : Prop}

theorem nil : LightFields [] [] True := .of_eq rfl

theorem append (h : LightFields ts es P) (h' : LightFields ts' es' P') :
    LightFields (ts ++ ts') (es ++ es') (P ∧ P') := by
  unfold LightFields
  rw [List.flatten_append, Value.sizeFields_append]
  exact Light.append h h'

theorem single {t : List Char} {v : Value} (name : String) (h : Light t v.size P) :
    LightFields [field name t] [(name, v)] (Read.Plain name ∧ P) := by
  have hcolon : weight [':'] = 0 := by decide
  have hfield : field name t = quoted name.toList ++ ([':'] ++ t) := by simp [field, quoted]
  have hsize : Value.sizeFields [(name, v)] = (2 + cost name.toList) + (0 + v.size) := by
    simp [Value.sizeFields, Value.sizeField]
  unfold LightFields
  rw [List.flatten_singleton, hfield, hsize]
  have hname := light_quoted (light_plain name)
  exact (hname.append ((Light.of_eq hcolon).append h)).imp fun h => ⟨h.1, h.2.2⟩

theorem imp (h : LightFields ts es P) (hP : P → P') : LightFields ts es P' := Light.imp h hP

theorem cons {t : List Char} {v : Value} {name : String} (h : Light t v.size P)
    (h' : LightFields ts es P') :
    LightFields (field name t :: ts) ((name, v) :: es) (P ∧ P') :=
  ((single name h).append h').imp fun h => ⟨h.1.2, h.2⟩

theorem object (h : LightFields ts es P) (hes : (es.map Prod.fst).Nodup) :
    Light (Playfab.object ts) (Value.obj es).size P := by
  rw [Value.size_obj hes]
  have hweight := weight_object ts
  exact ⟨hweight ▸ h.le, fun heq => h.cond (hweight ▸ heq)⟩

end LightFields

theorem light_propsJson (m : Props) (order : List String) :
    Light (propsJson m order) (propsValue m order).size (PlainKeys m) := by
  have hentries (es : Entries String String) :
      LightFields (es.map fun e => field e.1 (quoted (jsonEscape e.2)))
        (es.map fun e => (e.1, .string e.2)) (∀ e ∈ es, Read.Plain e.1) := by
    induction es with
    | nil => exact LightFields.nil.imp fun _ _ he => absurd he List.not_mem_nil
    | cons e es ih =>
      refine ((LightFields.single e.1 (light_escaped e.2)).append ih).imp ?_
      rintro ⟨⟨hplain, -⟩, hrest⟩ e' he'
      rcases List.mem_cons.mp he' with rfl | he'
      · exact hplain
      · exact hrest e' he'
  have hnodup : (((m.iterEntries order).map fun e => (e.1, Value.string e.2)).map Prod.fst).Nodup := by
    rw [List.map_map]
    exact m.keys_iterEntries_nodup order
  refine ((hentries (m.iterEntries order)).object hnodup).imp fun h => ?_
  refine plainKeys_iff.mpr fun k v hk => ?_
  exact h (k, v) (OrdMap.mem_iterEntries.mpr hk)

theorem light_strList (keys : List String) :
    Light (strList keys) (strListValue keys).size True := by
  have hopen : weight ['['] = 0 := by decide
  have hclose : weight [']'] = 0 := by decide
  have hkeys (keys : List String) : weight (keys.map fun k => quoted (jsonEscape k)).flatten =
      Value.sizeList (keys.map .string) := by
    induction keys with
    | nil => rfl
    | cons k keys ih =>
      have hk : weight (quoted (jsonEscape k)) = (Value.string k).size := by
        have hquote : weight ['"'] = 1 := by decide
        rw [quoted, List.cons_append, weight_cons, weight_append, hquote, Value.size, cost, jsonEscape]
        omega
      rw [List.map_cons, List.flatten_cons, weight_append, ih, hk, List.map_cons, Value.sizeList]
  refine .of_eq ?_
  rw [strList, List.cons_append, weight_cons, weight_append, weight_commas, hkeys, hopen, hclose,
    strListValue, Value.size]
  omega

theorem light_entityJson (id type : String) :
    Light (entityJson id type) (entityValue id type).size True :=
  ((LightFields.cons (light_escaped id) (LightFields.cons (light_escaped type) .nil)).object
    (by decide : (["Id", "Type"] : List String).Nodup)).imp fun _ => trivial

theorem light_nat (n : ℕ) : Light (toString n).toList (Broker.number n).size True := by
  refine .of_eq (List.countP_eq_zero.mpr fun c hc => ?_)
  have hdigit : c.isDigit = true := Text.isDigit_of_mem_toString hc
  have hne (x : Char) (hx : x.isDigit = false) : (c == x) = false := by
    refine beq_eq_false_iff_ne.mpr ?_
    rintro rfl
    rw [hx] at hdigit
    cases hdigit
  simp [heavy, hne '\\' rfl, hne '"' rfl, hne 'u' rfl, hne 'b' rfl, hne 'f' rfl, hne 'B' rfl,
    hne 'F' rfl]

theorem light_bag (m : Props) (order : List String) :
    Light (propsJson m order) (bagValue m).size (PlainKeys m) :=
  propsValue_eq m order ▸ light_propsJson m order

theorem light_memberData (eid : String) (extra : Props) (order : List String) :
    Light (memberDataJson eid extra order) (bagValue (memberData eid extra)).size
      (PlainKeys extra) :=
  (light_bag (memberData eid extra) order).imp (plainKeys_memberData_iff eid extra).mp

theorem light_memberFields (lobby : Lobby) (memberTarget : Option String) (localEntity : String)
    (order : List String) :
    LightFields (memberFields lobby memberTarget localEntity order)
      (match updateMember lobby memberTarget localEntity with
        | none => []
        | some (eid, mp) => ("MemberData", bagValue (memberData eid mp)) ::
            if memberTarget.isSome then [("MemberEntity", entityValue eid "title_player_account")]
            else [])
      (∀ m ∈ updateMember lobby memberTarget localEntity, PlainKeys m.2) := by
  have htexts : memberFields lobby memberTarget localEntity order =
      match updateMember lobby memberTarget localEntity with
      | none => []
      | some (eid, mp) => field "MemberData" (memberDataJson eid mp order) ::
          if memberTarget.isSome then
            [field "MemberEntity" (entityJson eid "title_player_account")]
          else [] := by
    unfold memberFields updateMember memberPropsJsonFor
    simp only [Option.map_map, Function.comp_def]
    cases memberTarget.or (if localEntity.isEmpty then none else some localEntity) with
    | none => rfl
    | some eid =>
      cases hmp : lobby.memberProps.get? eid with
      | none => simp only [Option.bind_some, hmp, Option.map_none]
      | some mp =>
        simp only [Option.bind_some, hmp, Option.map_some]
        split_ifs <;> rfl
  rw [htexts]
  cases updateMember lobby memberTarget localEntity with
  | none => exact LightFields.nil.imp fun _ m hm => absurd hm (Option.not_mem_none m)
  | some m =>
    have hentity : LightFields
        (if memberTarget.isSome then [field "MemberEntity" (entityJson m.1 "title_player_account")]
          else [])
        (if memberTarget.isSome then [("MemberEntity", entityValue m.1 "title_player_account")]
          else []) True := by
      split_ifs
      · exact (LightFields.single _ (light_entityJson m.1 _)).imp fun _ => trivial
      · exact .nil
    refine (LightFields.cons (light_memberData m.1 m.2 order) hentity).imp fun h m' hm' => ?_
    obtain rfl := Option.mem_some.mp hm'
    exact h.1

theorem light_deleteFields (searchDelete lobbyDelete : List String) :
    LightFields (deleteFields searchDelete lobbyDelete) (deleteEntries searchDelete lobbyDelete)
      True := by
  have hlist (name : String) (keys : List String) :
      LightFields (if keys.isEmpty then [] else [field name (strList keys)])
        (if keys.isEmpty then [] else [(name, strListValue keys)]) True := by
    split_ifs
    · exact .nil
    · exact (LightFields.single name (light_strList keys)).imp fun _ => trivial
  exact ((hlist _ searchDelete).append (hlist _ lobbyDelete)).imp fun _ => trivial

theorem light_scalarFields (scalars : PostUpdateScalars) :
    LightFields scalars.fields scalars.entries True := by
  have hopt {α : Type} (o : Option α) (name : String) (t : α → List Char) (v : α → Value)
      {P : α → Prop} (h : ∀ a, Light (t a) (v a).size (P a)) :
      LightFields (o.map fun a => field name (t a)).toList (o.map fun a => (name, v a)).toList
        True := by
    cases o with
    | none => exact .nil
    | some a => exact (LightFields.single name (h a)).imp fun _ => trivial
  unfold PostUpdateScalars.fields PostUpdateScalars.entries
  exact ((((hopt scalars.owner _ _ _ fun o => light_entityJson o.id o.type).append
    (hopt scalars.maxPlayers _ _ _ fun m => light_nat m.toNat)).append
    (hopt scalars.accessPolicy _ _ _ fun a => light_bare (accessPolicyName a))).append
    (hopt scalars.membershipLock _ _ _ fun k =>
      light_bare (if k = 1 then "Locked" else "Unlocked"))).imp fun _ => trivial

theorem light_memberDeleteFields (memberTarget : Option String) (memberDelete : List String) :
    LightFields (memberDeleteFields memberTarget memberDelete)
      (memberDeleteEntries memberTarget memberDelete) True := by
  unfold memberDeleteFields memberDeleteEntries
  split_ifs
  · exact (LightFields.single _ (light_strList memberDelete)).imp fun _ => trivial
  · exact .nil

/-! ### Bodies -/

namespace LobbyRequest

/-- No name is used twice in a request. -/
theorem entries_nodup (r : LobbyRequest) : (r.entries.map Prod.fst).Nodup := by
  have hoption {α : Type} (o : Option α) (name : String) (v : α → Value) :
      ((o.map fun a => (name, v a)).toList.map Prod.fst).Sublist [name] := by
    cases o with
    | none => exact List.nil_sublist _
    | some a => exact .refl _
  have hlist (keys : List String) (name : String) :
      ((if keys.isEmpty then [] else [(name, strListValue keys)]).map Prod.fst).Sublist [name] := by
    split_ifs
    · exact List.nil_sublist _
    · exact .refl _
  cases r with
  | create max ownerMigrationPolicy lobbyData search ownerId memberKv =>
    simp only [entries]
    split_ifs
    · exact (by decide : ["MaxPlayers", "OwnerMigrationPolicy", "LobbyData", "SearchData",
        "MemberData"].Nodup)
    · exact (by decide : ["MaxPlayers", "OwnerMigrationPolicy", "LobbyData", "SearchData", "Owner",
        "MemberData"].Nodup)
  | join conn joinerId memberKv =>
    simp only [entries]
    split_ifs
    · exact (by decide : ["ConnectionString"].Nodup)
    · exact (by decide : ["ConnectionString", "MemberEntity", "MemberData"].Nodup)
  | update lobby searchDelete lobbyDelete memberTarget memberDelete scalars localEntity =>
    have hnames : (["LobbyId", "LobbyData", "SearchData"] ++ ["MemberData", "MemberEntity"] ++
        ["SearchDataToDelete", "LobbyDataToDelete"] ++
        ["Owner", "MaxPlayers", "AccessPolicy", "MembershipLock"] ++
        ["MemberDataToDelete"]).Nodup := by decide
    refine hnames.sublist ?_
    simp only [entries, List.map_append]
    refine ((((List.Sublist.refl _).append ?_).append ?_).append ?_).append ?_
    · split
      · exact List.nil_sublist _
      · split_ifs
        · exact .refl _
        · exact (List.nil_sublist _).cons_cons _
    · unfold deleteEntries
      rw [List.map_append]
      exact (hlist searchDelete "SearchDataToDelete").append (hlist lobbyDelete "LobbyDataToDelete")
    · unfold PostUpdateScalars.entries
      simp only [List.map_append]
      exact (((hoption _ _ _).append (hoption _ _ _)).append (hoption _ _ _)).append (hoption _ _ _)
    · unfold memberDeleteEntries
      split_ifs
      · exact .refl _
      · exact List.nil_sublist _

theorem light_create (max ownerMigrationPolicy : UInt32) (lobbyData search : Props)
    (ownerId : String) (memberKv : Props) (order : Orders) :
    Light ((create max ownerMigrationPolicy lobbyData search ownerId memberKv).body order)
      (Value.obj (create max ownerMigrationPolicy lobbyData search ownerId memberKv).entries).size
      (create max ownerMigrationPolicy lobbyData search ownerId memberKv).PlainNames := by
  have howner : LightFields
      (if ownerId.isEmpty then [] else [field "Owner" (entityJson ownerId "title_player_account")])
      (if ownerId = "" then [] else [("Owner", entityValue ownerId "title_player_account")]) True := by
    by_cases hempty : ownerId = ""
    · simpa [hempty] using LightFields.nil
    · rw [if_neg hempty, if_neg (by simpa using hempty)]
      exact (LightFields.single _ (light_entityJson ownerId _)).imp fun _ => trivial
  have hfields : LightFields _
      (create max ownerMigrationPolicy lobbyData search ownerId memberKv).entries _ :=
    (LightFields.append (LightFields.cons (light_nat _) (LightFields.cons (light_nat _)
      (LightFields.cons (light_bag lobbyData order.props)
        (LightFields.cons (light_bag search order.search) .nil)))) howner).append
      (LightFields.cons (light_memberData ownerId memberKv order.member) .nil)
  refine (hfields.object (entries_nodup _)).imp ?_
  rintro ⟨⟨⟨-, -, hdata, hsearch, -⟩, -⟩, hmember, -⟩
  exact ⟨hdata, hsearch, hmember⟩

theorem light_join (conn joinerId : String) (memberKv : Props) (order : Orders) :
    Light ((join conn joinerId memberKv).body order)
      (Value.obj (join conn joinerId memberKv).entries).size
      (join conn joinerId memberKv).PlainNames := by
  have hmember : LightFields
      (if joinerId.isEmpty then []
        else [field "MemberEntity" (entityJson joinerId "title_player_account"),
          field "MemberData" (memberDataJson joinerId memberKv order.member)])
      (if joinerId = "" then []
        else [("MemberEntity", entityValue joinerId "title_player_account"),
          ("MemberData", bagValue (memberData joinerId memberKv))])
      (joinerId = "" ∨ PlainKeys memberKv) := by
    by_cases hempty : joinerId = ""
    · rw [if_pos hempty, if_pos (by simpa using hempty)]
      exact LightFields.nil.imp fun _ => .inl hempty
    · rw [if_neg hempty, if_neg (by simpa using hempty)]
      exact (LightFields.cons (light_entityJson joinerId _)
        (LightFields.cons (light_memberData joinerId memberKv order.member) .nil)).imp
        fun h => .inr h.2.1
  have hfields : LightFields _ (join conn joinerId memberKv).entries _ :=
    LightFields.cons (light_escaped conn) hmember
  exact (hfields.object (entries_nodup _)).imp fun h => h.2

theorem light_update (lobby : Lobby) (searchDelete lobbyDelete : List String)
    (memberTarget : Option String) (memberDelete : List String) (scalars : PostUpdateScalars)
    (localEntity : String) (order : Orders) :
    Light ((update lobby searchDelete lobbyDelete memberTarget memberDelete scalars
        localEntity).body order)
      (Value.obj (update lobby searchDelete lobbyDelete memberTarget memberDelete scalars
        localEntity).entries).size
      (update lobby searchDelete lobbyDelete memberTarget memberDelete scalars
        localEntity).PlainNames := by
  have hfields : LightFields _ (update lobby searchDelete lobbyDelete memberTarget memberDelete
      scalars localEntity).entries _ :=
    (((LightFields.append (LightFields.cons (light_bare lobby.id)
      (LightFields.cons (light_bag lobby.props order.props)
        (LightFields.cons (light_bag lobby.search order.search) .nil)))
      (light_memberFields lobby memberTarget localEntity order.member)).append
      (light_deleteFields searchDelete lobbyDelete)).append (light_scalarFields scalars)).append
      (light_memberDeleteFields memberTarget memberDelete)
  refine (hfields.object (entries_nodup _)).imp ?_
  rintro ⟨⟨⟨⟨⟨hid, hprops, hsearch, -⟩, hmember⟩, -⟩, -⟩, -⟩
  exact ⟨hid, hprops, hsearch, hmember⟩

theorem light_body (r : LobbyRequest) (order : Orders) :
    Light (r.body order) (Value.obj r.entries).size r.PlainNames := by
  cases r with
  | create => exact light_create _ _ _ _ _ _ order
  | join => exact light_join _ _ _ order
  | update => exact light_update _ _ _ _ _ _ _ order

section
variable {readFloat : List Char → Option UInt64}

theorem reads_bag {m : Props} (h : PlainKeys m) (order : List String) (d : ℕ) :
    Read.Reads readFloat (d + 2) (propsJson m order) (bagValue m) :=
  propsValue_eq m order ▸ reads_propsJson h order

theorem reads_memberData {extra : Props} (h : PlainKeys extra) (eid : String) (order : List String)
    (d : ℕ) : Read.Reads readFloat (d + 2) (memberDataJson eid extra order)
      (bagValue (memberData eid extra)) :=
  memberDataValue_eq eid extra order ▸ reads_memberDataJson h eid order

/-- A body is read back when its names are plain. -/
theorem fromSlice_body {r : LobbyRequest} (h : r.PlainNames) (order : Orders) :
    Read.fromSlice readFloat (r.body order) = some (.obj r.entries) := by
  apply Read.fromSlice_of_reads
  cases r with
  | create max ownerMigrationPolicy lobbyData search ownerId memberKv =>
    obtain ⟨hdata, hsearch, hmember⟩ := h
    have hmax : max.toNat < 2 ^ 64 := max.toNat_lt.trans (by decide)
    have hpolicy : ownerMigrationPolicy.toNat < 2 ^ 64 :=
      ownerMigrationPolicy.toNat_lt.trans (by decide)
    refine Read.ReadsFields.object ((Read.ReadsFields.append ?_ ?_).append ?_)
    · exact .cons (by decide) (Read.reads_nat _ hmax) (.cons (by decide) (Read.reads_nat _ hpolicy)
        (.cons (by decide) (reads_bag hdata _ _) (.single (by decide) (reads_bag hsearch _ _))))
    · by_cases hempty : ownerId = ""
      · simpa [hempty] using Read.ReadsFields.nil
      · rw [if_neg hempty, if_neg (by simpa using hempty)]
        exact .single (by decide) (reads_entityJson ownerId _)
    · exact .single (by decide) (reads_memberData hmember _ _ _)
  | join conn joinerId memberKv =>
    refine Read.ReadsFields.object (.cons (by decide) (reads_escaped conn) ?_)
    by_cases hempty : joinerId = ""
    · simpa [hempty] using Read.ReadsFields.nil
    · have hmember : PlainKeys memberKv := h.resolve_left hempty
      rw [if_neg hempty, if_neg (by simpa using hempty)]
      exact .cons (by decide) (reads_entityJson joinerId _)
        (.single (by decide) (reads_memberData hmember _ _ _))
  | update lobby searchDelete lobbyDelete memberTarget memberDelete scalars localEntity =>
    obtain ⟨hid, hprops, hsearch, hmember⟩ := h
    simp only [entries, ← memberEntries_eq lobby memberTarget localEntity order.member]
    refine Read.ReadsFields.object
      (((Read.ReadsFields.append ?_ ?_).append ?_).append ?_ |>.append ?_)
    · exact .cons (by decide) (reads_plain hid) (.cons (by decide) (reads_bag hprops _ _)
        (.single (by decide) (reads_bag hsearch _ _)))
    · refine reads_memberFields (fun eid mp htarget hmp => hmember (eid, mp) ?_) _
      rw [updateMember, htarget, Option.bind_some, hmp]
      rfl
    · exact reads_deleteFields _ _
    · exact reads_scalarFields _
    · exact reads_memberDeleteFields _ _

/-- A create, a join or an update is read as what it was built from, exactly when its names need no
escape. -/
theorem fromSlice_body_iff (readFloat : List Char → Option UInt64) (r : LobbyRequest)
    (order : Orders) :
    Read.fromSlice readFloat (r.body order) = some (.obj r.entries) ↔ r.PlainNames := by
  constructor
  · intro hread
    have hlight := r.light_body order
    exact hlight.cond (le_antisymm hlight.le (size_le_of_fromSlice hread))
  · intro h
    exact fromSlice_body h order

end

/-- A create of a lobby with a property whose name has a quote in it. -/
def quotedName : LobbyRequest :=
  .create 4 0 (OrdMap.empty.insert "quest \"main\"" "1") OrdMap.empty "host" OrdMap.empty

/-- Its body is no JSON text. -/
theorem quotedName_not_read :
    ¬∀ (readFloat : List Char → Option UInt64) (r : LobbyRequest) (order : Orders),
      Read.fromSlice readFloat (r.body order) = some (.obj r.entries) := by
  intro h
  have hread := h (fun _ => none) quotedName ⟨[], [], []⟩
  have hnone : Read.fromSlice (fun _ => none) (quotedName.body ⟨[], [], []⟩) = none := by
    decide +kernel
  rw [hnone] at hread
  cases hread

end LobbyRequest

end GbfrLan.Playfab
