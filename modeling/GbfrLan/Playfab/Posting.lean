import GbfrLan.Playfab.Copies
import GbfrLan.Playfab.MemberData

/-!
# Posts that are reported as successful

The worker sends the body that a post was given at the call, and tells the title of a success
when the broker answers 200. The broker does so for any id, also for one that it holds no
lobby under. A post made before the create or join has given the handle its id carries an
empty one. So a report is right when the handle had its id at the call and the broker still
holds the lobby when it serves the request.
-/
namespace GbfrLan.Playfab
open Lib Json

/-- A call of `PFLobbyPostUpdate` that was accepted, with the local player at that time. -/
structure Asked where
  lobby : ℕ
  member : Option EntityKey
  update : Option DataUpdate
  memberUpdate : Option MemberDataUpdate
  localEntity : String

namespace Asked

def memberList (a : Asked) : KvList := (a.memberUpdate.map MemberDataUpdate.props).getD []

/-- The member whose data the call is to change. -/
def target (a : Asked) : String :=
  (a.memberUpdate.map fun mu => postMember a.member mu a.localEntity).getD ""

/-- The lists of the call are taken as they are; member data has a member to go to, and does
not name the keys that are filled in. -/
def Fits (a : Asked) : Prop :=
  (lobbyList a.update).Fits ∧ (searchList a.update).Fits ∧ a.memberList.Fits ∧
    (∀ e ∈ a.memberList, e.1 ∉ Broker.platformKeys) ∧ (a.memberList ≠ [] → a.target ≠ "")

instance (a : Asked) : Decidable a.Fits := by
  unfold Fits
  exact inferInstance

end Asked

/-- The value that a key is to have. -/
def wanted (o : Option String) : Option Value := o.map fun v => .string (cString v)

/-- Every set and delete of the call is done in the lobby. The number of players stays within
the broker's limits and does not go below the roster. -/
structure Applied (a : Asked) (l l' : Broker.Lobby) : Prop where
  lobby : ∀ k o, outcome (lobbyList a.update) k = some o → Entries.get? k l'.lobbyData = wanted o
  search : ∀ k o, outcome (searchList a.update) k = some o → Entries.get? k l'.searchData = wanted o
  member : ∀ k o, outcome a.memberList k = some o → l'.memberEntry a.target k = wanted o
  owner : ∀ u ∈ a.update, ∀ e ∈ u.newOwner, e.id ≠ "" → l'.owner = entityValue e.id e.type
  maxPlayers : ∀ u ∈ a.update, ∀ m ∈ u.maxMemberCount,
    l'.maxPlayers = max (Broker.clampMaxPlayers m.toNat) l.members.length
  accessPolicy : ∀ u ∈ a.update, ∀ v ∈ u.accessPolicy,
    l'.accessPolicy = accessPolicyName v.toNat
  membershipLock : ∀ u ∈ a.update, ∀ v ∈ u.membershipLock,
    l'.membershipLock = if v = 1 then "Locked" else "Unlocked"

/-! ### The other fields of a post -/

namespace Post

/-- The parts of the body, the last one first. -/
theorem get_sections (p : Post) (k : String) :
    (Value.obj p.entries).get k =
      (Entries.get? k (memberDeleteEntries p.memberTarget p.memberDelete).reverse).or
        ((Entries.get? k p.scalars.entries.reverse).or
          ((Entries.get? k (deleteEntries p.searchDelete p.lobbyDelete).reverse).or
            ((Entries.get? k
              (memberEntries p.lobby p.memberTarget p.localEntity p.order.member).reverse).or
              (Entries.get? k [("SearchData", propsValue p.lobby.search p.order.search),
                ("LobbyData", propsValue p.lobby.props p.order.props),
                ("LobbyId", .string p.lobby.id)])))) := by
  rw [Value.get_obj, entries, List.reverse_append, List.reverse_append, List.reverse_append,
    List.reverse_append, Entries.get?_append, Entries.get?_append, Entries.get?_append,
    Entries.get?_append]
  rfl

theorem get_scalar (p : Post) {k : String}
    (hk : k ∈ ["Owner", "MaxPlayers", "AccessPolicy", "MembershipLock"]) :
    (Value.obj p.entries).get k = Entries.get? k p.scalars.entries.reverse := by
  have hnot {ks : List String}
      (h : ∀ k ∈ ["Owner", "MaxPlayers", "AccessPolicy", "MembershipLock"], k ∉ ks) : k ∉ ks :=
    h k hk
  have hbase : Entries.get? k [("SearchData", propsValue p.lobby.search p.order.search),
      ("LobbyData", propsValue p.lobby.props p.order.props), ("LobbyId", .string p.lobby.id)] =
      none := by
    rw [Entries.get?_eq_none_iff]
    intro e he heq
    have hname : k ∉ ["SearchData", "LobbyData", "LobbyId"] := hnot (by decide)
    simp only [List.mem_cons, List.not_mem_nil, or_false] at he
    rcases he with rfl | rfl | rfl <;> simp [← heq] at hname
  rw [p.get_sections, hbase,
    get?_reverse_of_keys (memberDeleteEntries_keys p.memberTarget p.memberDelete) (hnot (by decide)),
    get?_reverse_of_keys (deleteEntries_keys p.searchDelete p.lobbyDelete) (hnot (by decide)),
    get?_reverse_of_keys
      (memberEntries_keys p.lobby p.memberTarget p.localEntity p.order.member) (hnot (by decide))]
  simp

theorem get?_scalarEntries (sc : PostUpdateScalars) :
    Entries.get? "Owner" sc.entries.reverse = sc.owner.map (fun o => entityValue o.id o.type) ∧
      Entries.get? "MaxPlayers" sc.entries.reverse =
        sc.maxPlayers.map (fun m => Broker.number m.toNat) ∧
      Entries.get? "AccessPolicy" sc.entries.reverse =
        sc.accessPolicy.map (fun a => .string (accessPolicyName a)) ∧
      Entries.get? "MembershipLock" sc.entries.reverse =
        sc.membershipLock.map (fun k => .string (if k = 1 then "Locked" else "Unlocked")) := by
  obtain ⟨owner, maxPlayers, accessPolicy, membershipLock⟩ := sc
  cases owner <;> cases maxPlayers <;> cases accessPolicy <;> cases membershipLock <;>
    simp [PostUpdateScalars.entries, Entries.get?]

theorem jsonI64_number (m : UInt32) {v : Value} {key : String}
    (h : v.get key = some (Broker.number m.toNat)) : jsonI64 v key = some (m.toNat : ℤ) := by
  have hlt := m.toNat_lt
  have hmod : (UInt64.ofNat m.toNat).toNat = m.toNat := by
    rw [UInt64.toNat_ofNat']
    omega
  unfold jsonI64
  rw [h]
  simp only [Option.bind_some, Broker.number, Value.asI64, Number.asI64, hmod]
  rw [if_pos (by omega)]
  rfl

/-- The owner and the settings of the broker's lobby after a post. -/
theorem settings_update (p : Post) (host : Broker.Host) (bl : Broker.Lobby)
    (updater : Option String) :
    let bl' := bl.update host (.obj p.entries) updater
    (∀ o ∈ p.scalars.owner, bl'.owner = entityValue o.id o.type) ∧
      (∀ m ∈ p.scalars.maxPlayers,
        bl'.maxPlayers = max (Broker.clampMaxPlayers m.toNat) bl.members.length) ∧
      (∀ a ∈ p.scalars.accessPolicy, bl'.accessPolicy = accessPolicyName a) ∧
      (∀ k ∈ p.scalars.membershipLock,
        bl'.membershipLock = if k = 1 then "Locked" else "Unlocked") := by
  intro bl'
  obtain ⟨howner, hmax, haccess, hlock⟩ := bl.update_sameSettings host (.obj p.entries) updater
  obtain ⟨gowner, gmax, gaccess, glock⟩ := get?_scalarEntries p.scalars
  rw [← p.get_scalar (by decide)] at gowner gmax gaccess glock
  refine ⟨?_, ?_, ?_, ?_⟩
  · intro o ho
    rw [Option.mem_def.mp ho] at gowner
    refine howner.trans ?_
    unfold Broker.Lobby.updateScalars
    simp [gowner]
  · intro m hm
    rw [Option.mem_def.mp hm] at gmax
    refine hmax.trans ?_
    unfold Broker.Lobby.updateScalars
    simp [jsonI64_number m gmax]
  · intro a ha
    rw [Option.mem_def.mp ha] at gaccess
    refine haccess.trans ?_
    unfold Broker.Lobby.updateScalars
    simp [Broker.bodyStr, jsonStr, gaccess, Value.asStr]
  · intro k hk
    rw [Option.mem_def.mp hk] at glock
    refine hlock.trans ?_
    unfold Broker.Lobby.updateScalars
    simp only [Broker.bodyStr, jsonStr, glock, Option.map_some, Option.bind_some, Value.asStr,
      Option.some_or, Option.getD_some]
    split <;> rfl

/-- The fields about a member whose data the post carries. -/
theorem get_member (p : Post) {t : String} {mp : Props} (ht : p.memberTarget = some t)
    (hmp : p.lobby.memberProps.get? t = some mp) :
    (Value.obj p.entries).get "MemberData" = some (memberDataValue t mp p.order.member) ∧
      (Value.obj p.entries).get "MemberEntity" = some (entityValue t "title_player_account") := by
  have hentries : memberEntries p.lobby p.memberTarget p.localEntity p.order.member =
      [("MemberData", memberDataValue t mp p.order.member),
        ("MemberEntity", entityValue t "title_player_account")] := by
    simp [memberEntries, ht, hmp]
  have hdelete := memberDeleteEntries_keys p.memberTarget p.memberDelete
  have hscalar := scalarEntries_keys p.scalars
  have hbags := deleteEntries_keys p.searchDelete p.lobbyDelete
  constructor
  · rw [p.get_sections, get?_reverse_of_keys hdelete (by decide),
      get?_reverse_of_keys hscalar (by decide), get?_reverse_of_keys hbags (by decide), hentries]
    simp [Entries.get?]
  · rw [p.get_sections, get?_reverse_of_keys hdelete (by decide),
      get?_reverse_of_keys hscalar (by decide), get?_reverse_of_keys hbags (by decide), hentries]
    simp [Entries.get?]

theorem memberDataToDelete_entries (p : Post) {t : String} (ht : p.memberTarget = some t) :
    jsonStrArray (.obj p.entries) ["MemberDataToDelete", "memberDataToDelete"] =
      p.memberDelete := by
  have hscalar := scalarEntries_keys p.scalars
  have hbags := deleteEntries_keys p.searchDelete p.lobbyDelete
  have hmember := memberEntries_keys p.lobby p.memberTarget p.localEntity p.order.member
  apply jsonStrArray_of_get
  · rw [p.get_sections, get?_reverse_of_keys hscalar (by decide),
      get?_reverse_of_keys hbags (by decide), get?_reverse_of_keys hmember (by decide),
      memberDeleteEntries, ht]
    cases p.memberDelete <;> simp [Entries.get?]
  · rw [p.get_of_ne (by decide) (by decide)]
    simp [Entries.get?]

/-- The broker takes the member that the post is about for the caller, unless the token is
another player's. -/
theorem requestEntityId_entries (p : Post) {c : Client} {app : Broker.App} {t : String}
    {mp : Props} (ht : p.memberTarget = some t) (hmp : p.lobby.memberProps.get? t = some mp)
    (hacts : c.ActsAs app t) :
    Broker.requestEntityId app (.obj p.entries) c.headers = some t := by
  have hno {k : String} (hk : k ∈ ["EntityId", "entityId"]) :
      jsonStr (.obj p.entries) k = none := by
    have hall : ∀ k ∈ ["EntityId", "entityId"], k ∉ otherNames ∧
        k ∉ ["SearchDataToDelete", "LobbyDataToDelete"] ∧
        k ∉ ["SearchData", "LobbyData", "LobbyId"] := by decide
    obtain ⟨hother, hdelete, hbase⟩ := hall k hk
    have hget : (Value.obj p.entries).get k = none := by
      rw [p.get_of_ne hother hdelete, Entries.get?_eq_none_iff]
      intro e he heq
      simp only [List.mem_cons, List.not_mem_nil, or_false] at he
      rcases he with rfl | rfl | rfl <;> simp [← heq] at hbase
    rw [jsonStr, hget, Option.bind_none]
  unfold Broker.requestEntityId
  split
  · rename_i player hplayer
    exact congrArg some (hacts player hplayer)
  · rw [hno (by decide), hno (by decide), Option.or_none]
    have hid : jsonStr (entityValue t "title_player_account") "Id" = some t := by
      simp [jsonStr, entityValue, Value.get_obj, Entries.get?, Value.asStr]
    simp [Broker.fieldEntity, (p.get_member ht hmp).2, hid]

end Post

theorem get?_ensureMemberProps (mp : Props) (eid : String) {k : String}
    (hk : k ∉ Broker.platformKeys) : (ensureMemberProps mp eid).get? k = mp.get? k := by
  simp only [Broker.platformKeys, List.mem_cons, List.not_mem_nil, or_false, not_or] at hk
  rw [ensureMemberProps_spec, if_neg hk.1, if_neg hk.2.1, if_neg hk.2.2]

/-- A list that says something about a key has something to set or to delete. -/
theorem kvListSplit_ne_nil {kv : KvList} (h : kv.Fits) {k : String} {o : Option String}
    (ho : outcome kv k = some o) :
    ¬((kvListSplit kv).1.entries.isEmpty ∧ (kvListSplit kv).2.isEmpty) := by
  rintro ⟨hsets, hdel⟩
  have hsets' : (kvListSplit kv).1.entries = [] := List.isEmpty_iff.mp hsets
  have hdel' : (kvListSplit kv).2 = [] := List.isEmpty_iff.mp hdel
  have hget := get?_applyList OrdMap.empty h k
  rw [applyList, hdel', applyProps, hsets', ho] at hget
  cases o with
  | none =>
    have hmem := (mem_kvListSplit h k).mpr ho
    rw [hdel'] at hmem
    cases hmem
  | some v => cases hget

/-- The member data that a post carries. -/
theorem postUpdate_member {l : Lobby} {member : Option EntityKey} {update : Option DataUpdate}
    {mu : MemberDataUpdate} {localEntity : String} {order : Orders} {p : Post}
    (h : postUpdate l member update (some mu) localEntity order = some p)
    (hmid : postMember member mu localEntity ≠ "") (hfits : KvList.Fits mu.props) {k : String}
    {o : Option String} (ho : outcome mu.props k = some o) :
    p.memberTarget = some (postMember member mu localEntity) ∧
      p.memberDelete = (kvListSplit mu.props).2 ∧
      ∃ old, p.lobby.memberProps.get? (postMember member mu localEntity) =
        some (ensureMemberProps (applyList old mu.props) (postMember member mu localEntity)) := by
  have hwork (l : Lobby) :
      let r := applyMember l member (some mu) localEntity
      r.2.1 = some (postMember member mu localEntity) ∧ r.2.2 = (kvListSplit mu.props).2 ∧
        ∃ old, r.1.memberProps.get? (postMember member mu localEntity) =
          some (ensureMemberProps (applyList old mu.props) (postMember member mu localEntity)) := by
    have hcond : ¬((postMember member mu localEntity).isEmpty ∨
        ((kvListSplit mu.props).1.entries.isEmpty ∧ (kvListSplit mu.props).2.isEmpty)) := by
      rintro (hempty | hnil)
      · exact hmid (by simpa using hempty)
      · exact kvListSplit_ne_nil hfits ho hnil
    unfold applyMember
    simp only [if_neg hcond, true_and]
    refine ⟨(l.memberProps.get? (postMember member mu localEntity)).getD OrdMap.empty, ?_⟩
    rw [OrdMap.get?_insert, if_pos rfl]
    rfl
  unfold postUpdate at h
  split_ifs at h
  obtain rfl := Option.some.inj h
  exact hwork _

/-- A key that a list says something about is named in it. -/
theorem mem_of_outcome {kv : KvList} {k : String} {o : Option String}
    (h : outcome kv k = some o) : ∃ e ∈ kv, e.1 = k := by
  unfold outcome at h
  split_ifs at h with hdel
  · exact ⟨_, hdel, rfl⟩
  · obtain ⟨v, hv, -⟩ := Option.map_eq_some_iff.mp h
    obtain ⟨e, he, hval⟩ := List.exists_of_findSome?_eq_some hv
    refine ⟨e, List.mem_reverse.mp he, ?_⟩
    by_contra hne
    rw [if_neg hne] at hval
    cases hval

/-- The member data of the broker's lobby after a post. -/
theorem memberEntry_of_post {a : Asked} {l : Lobby} {order : Orders} {p : Post}
    (h : postUpdate l a.member a.update a.memberUpdate a.localEntity order = some p)
    (hfits : a.Fits) (host : Broker.Host) {c : Client} {app : Broker.App} {bl : Broker.Lobby}
    (hmember : ∀ t ∈ p.memberTarget, c.ActsAs app t ∧
      (bl.members.any fun m => Broker.memberId m == t) = true) {k : String} {o : Option String}
    (ho : outcome a.memberList k = some o) :
    (bl.update host (.obj p.entries)
      (Broker.requestEntityId app (.obj p.entries) c.headers)).memberEntry a.target k =
      wanted o := by
  obtain ⟨-, -, hlist, hkeys, htarget⟩ := hfits
  obtain ⟨e, he, hname⟩ := mem_of_outcome ho
  have hk : k ∉ Broker.platformKeys := hname ▸ hkeys e he
  have hne : a.target ≠ "" := htarget (List.ne_nil_of_mem he)
  cases hmu : a.memberUpdate with
  | none =>
    rw [Asked.memberList, hmu] at he
    cases he
  | some mu =>
    have hprops : a.memberList = mu.props := by rw [Asked.memberList, hmu]; rfl
    have hmid : a.target = postMember a.member mu a.localEntity := by
      rw [Asked.target, hmu]
      rfl
    rw [hmu] at h
    rw [hprops] at ho hlist
    obtain ⟨ht, hdelete, old, hmp⟩ := postUpdate_member h (hmid ▸ hne) hlist ho
    rw [← hmid] at ht hmp
    obtain ⟨hacts, hin⟩ := hmember a.target ht
    obtain ⟨hdata, hentity⟩ := p.get_member ht hmp
    set md := ensureMemberProps (applyProps OrdMap.empty
      (ensureMemberProps (applyList old mu.props) a.target)) a.target with hmd
    have hset : Broker.memberSetTarget (.obj p.entries)
        (Broker.requestEntityId app (.obj p.entries) c.headers) = some a.target := by
      rw [Broker.memberSetTarget, p.requestEntityId_entries ht hmp hacts, jsonStr, hentity]
      rfl
    have hobject : ((Value.obj p.entries).get "MemberData").bind Value.asObject =
        some (Broker.asObjOrEmpty (some (propsValue md p.order.member))) := by
      rw [hdata]
      rfl
    have hcopy : md.get? k = (o.map cString).map cString := by
      rw [hmd, get?_ensureMemberProps _ _ hk, get?_applyProps, get?_ensureMemberProps _ _ hk,
        get?_applyList old hlist, ho, OrdMap.get?_empty, Option.or_none]
      rfl
    rw [bl.memberEntry_update host hset hne hobject (keysNodup_propsValue _ _) p.members_entries hin
      hk, get?_propsValue, hcopy, p.memberDataToDelete_entries ht, hdelete]
    cases o with
    | none =>
      rw [if_pos ((mem_kvListSplit hlist k).mpr ho)]
      rfl
    | some v =>
      rw [Option.map_some, Option.map_some, cString_cString]
      rfl

/-- A post that the broker takes for its lobby does everything that was asked for. -/
theorem applied_of_post {a : Asked} {l : Lobby} {order : Orders} {p : Post}
    (h : postUpdate l a.member a.update a.memberUpdate a.localEntity order = some p)
    (hfits : a.Fits) (host : Broker.Host) {c : Client} {app : Broker.App} {bl : Broker.Lobby}
    (hmember : ∀ t ∈ p.memberTarget, c.ActsAs app t ∧
      (bl.members.any fun m => Broker.memberId m == t) = true) :
    Applied a bl (bl.update host (.obj p.entries)
      (Broker.requestEntityId app (.obj p.entries) c.headers)) := by
  set updater := Broker.requestEntityId app (.obj p.entries) c.headers with hupdater
  obtain ⟨howner, hmax, haccess, hlock⟩ := p.settings_update host bl updater
  have hupdate : p.update = a.update := (postUpdate_bags h).2.2.2.2
  have hscalars (u : DataUpdate) (hu : u ∈ a.update) : p.scalars = u.scalars := by
    rw [Post.scalars, hupdate, Option.mem_def.mp hu]
    rfl
  constructor
  · intro k o ho
    rw [lobbyData_of_post h hfits.1, ho]
    rfl
  · intro k o ho
    rw [searchData_of_post h hfits.2.1, ho]
    rfl
  · intro k o ho
    exact memberEntry_of_post h hfits host hmember ho
  · intro u hu e he hne
    refine howner e ?_
    rw [hscalars u hu, DataUpdate.scalars, Option.mem_def.mp he]
    simp [hne]
  · intro u hu m hm
    exact hmax m (by rw [hscalars u hu]; exact hm)
  · intro u hu v hv
    refine haccess v.toNat ?_
    rw [hscalars u hu, DataUpdate.scalars, Option.mem_def.mp hv]
    rfl
  · intro u hu v hv
    exact hlock v (by rw [hscalars u hu]; exact hv)

/-! ### Runs -/

def Job.postJob : Job → Option PostJob
  | .post j => some j
  | _ => none

/-- The posts that have not been served. -/
def Client.postJobs (c : Client) : List PostJob := c.unsent.filterMap Job.postJob

/-- The exchange of a post: the call, the id that the handle has at that time, and the broker
before and after it. -/
structure Served where
  asked : Asked
  id : String
  before : Broker.App
  after : Broker.App

/-- The broker held the lobby of the handle, and has applied the post to it. -/
def Served.Good (v : Served) : Prop :=
  ∃ l l', v.before.lobbies.get? v.id = some l ∧ v.after.lobbies.get? v.id = some l' ∧
    Applied v.asked l l'

/-- One client with a broker that others use as well. -/
structure Posting where
  app : Broker.App
  client : Client
  /-- The posts that were accepted. -/
  asked : List Asked
  /-- Those of them that have not been served. -/
  waiting : List Asked
  /-- The post that was served last. -/
  served : Option Served

namespace Posting

inductive Step where
  | client (e : Event)
  /-- Whatever others do to the broker. -/
  | others (app : Broker.App)

/-- The post that a call adds, if it is accepted. -/
def accepted (c : Client) : Call → List Asked
  | .postUpdate h member update memberUpdate order =>
      match c.handles[h]? with
      | none => []
      | some l =>
          if (postUpdate l member update memberUpdate c.localEntity order).isSome then
            [⟨h, member, update, memberUpdate, c.localEntity⟩]
          else []
  | _ => []

section
variable (host : Broker.Host) (readFloat : List Char → Option UInt64)

def step (s : Posting) : Step → Posting
  | .client (.call e) =>
      { s with
        client := s.client.call e
        asked := s.asked ++ accepted s.client e
        waiting := s.waiting ++ accepted s.client e }
  | .client (.work m o) =>
      let (app, c) := s.client.work host readFloat s.app m o
      match s.client.worker with
      | .sending (.post j) =>
          { s with
            app := app
            client := c
            waiting := s.waiting.tail
            served := s.waiting.head?.map fun a =>
              ⟨a, ((s.client.handles[j.lobby]?).map Lobby.id).getD "", s.app, app⟩ }
      | _ => { s with app := app, client := c }
  | .others app => { s with app := app }

end

/-- A client that has not been started, with any broker. -/
def start (app : Broker.App) : Posting := ⟨app, Client.new, [], [], none⟩

/-- The call that the job was made for. -/
def MadeFor (a : Asked) (j : PostJob) : Prop :=
  j.lobby = a.lobby ∧
    ∃ l order, postUpdate l a.member a.update a.memberUpdate a.localEntity order = some j.post

/-- A post is made through a handle that has its id, with lists that are taken as they are. When
the broker serves it, it holds the lobby, no name needs an escape, and member data is the
caller's own and that of a member. -/
def Careful (s : Posting) : Step → Prop
  | .client (.call e) => ∀ a ∈ accepted s.client e, s.client.Settled a.lobby ∧ a.Fits
  | .client (.work _ o) =>
      match s.client.worker with
      | .sending (.post j) => o = .served → j.post.lobby.Plain ∧
          (s.app.lobbies.get? j.post.lobby.id).isSome = true ∧
          ∀ bl ∈ s.app.lobbies.get? j.post.lobby.id, ∀ t ∈ j.post.memberTarget,
            s.client.ActsAs s.app t ∧ (bl.members.any fun m => Broker.memberId m == t) = true
      | _ => True
  | .others _ => True

instance (s : Posting) (e : Step) : Decidable (s.Careful e) := by
  unfold Careful
  split
  · exact inferInstance
  · split <;> exact inferInstance
  · exact inferInstance

/-- A call and its job that has not been served. -/
structure Matches (c : Client) (a : Asked) (j : PostJob) : Prop where
  made : MadeFor a j
  fits : a.Fits
  settled : c.Settled a.lobby
  id : (c.copy a.lobby).map Prod.fst = some j.post.lobby.id

/-- What holds in a careful run: the posts that wait are the jobs of the worker, in order. -/
structure Sound (s : Posting) : Prop where
  waiting : List.Forall₂ (Matches s.client) s.waiting s.client.postJobs
  answered : ∀ j r, s.client.worker = .answered (.post j) (some r) →
    ∃ v, s.served = some v ∧ MadeFor v.asked j ∧ v.Good

theorem Matches.congr {c c' : Client} {a : Asked} {j : PostJob} (h : Matches c a j)
    (hsettled : c.Settled a.lobby → c'.Settled a.lobby)
    (hid : c.Settled a.lobby →
      (c'.copy a.lobby).map Prod.fst = (c.copy a.lobby).map Prod.fst) : Matches c' a j :=
  ⟨h.made, h.fits, hsettled h.settled, (hid h.settled).trans h.id⟩

variable {host : Broker.Host} {readFloat : List Char → Option UInt64} {s : Posting}

theorem postJobs_enqueue (c : Client) (job : Job) :
    (c.enqueue job).postJobs = c.postJobs ++ job.postJob.toList := by
  have hunsent : (c.enqueue job).unsent = c.unsent ++ [job] := by
    simp [Client.unsent, Client.enqueue]
  rw [Client.postJobs, hunsent, List.filterMap_append, Client.postJobs]
  cases job <;> rfl

/-- A call either has nothing to do with posts, or is a post that is accepted. -/
theorem call_cases (c : Client) (e : Call) :
    (accepted c e = [] ∧ (c.call e).postJobs = c.postJobs ∧
      ∀ h < c.handles.length, (c.call e).copy h = c.copy h) ∨
    ∃ h member update memberUpdate order l p,
      e = .postUpdate h member update memberUpdate order ∧ c.handles[h]? = some l ∧
      postUpdate l member update memberUpdate c.localEntity order = some p ∧
      accepted c e = [⟨h, member, update, memberUpdate, c.localEntity⟩] ∧
      c.call e = (c.setLobby h p.lobby).enqueue (.post ⟨c.generation, p, h⟩) := by
  have hother (hpost : ∀ h member update memberUpdate order,
        e ≠ .postUpdate h member update memberUpdate order)
      (haccepted : accepted c e = []) (hjobs : (c.call e).postJobs = c.postJobs) :
      accepted c e = [] ∧ (c.call e).postJobs = c.postJobs ∧
        ∀ h < c.handles.length, (c.call e).copy h = c.copy h :=
    ⟨haccepted, hjobs, fun h hlt => c.copy_call hlt (hpost h)⟩
  have hpublish (l : Lobby) {job : Job} (hjob : job.postJob = none) :
      ((c.publish l).enqueue job).postJobs = c.postJobs := by
    rw [postJobs_enqueue, hjob, Option.toList_none, List.append_nil]
    rfl
  cases e with
  | initializeMp =>
    refine Or.inl (hother (by simp) rfl ?_)
    show c.initializeMp.postJobs = _
    unfold Client.initializeMp
    split_ifs <;> rfl
  | uninitializeMp => exact Or.inl (hother (by simp) rfl rfl)
  | setEntityToken entity token =>
    refine Or.inl (hother (by simp) rfl ?_)
    show (c.setEntityToken entity token).postJobs = _
    unfold Client.setEntityToken
    split_ifs <;> rfl
  | createAndJoinLobby creator cfg joinKv order =>
    refine Or.inl (hother (by simp) rfl ?_)
    show (c.createAndJoinLobby creator cfg joinKv order).postJobs = _
    unfold Client.createAndJoinLobby
    split_ifs
    · rfl
    · exact hpublish _ rfl
  | joinLobby joiner connection joinKv order =>
    refine Or.inl (hother (by simp) rfl ?_)
    show (c.joinLobby joiner connection joinKv order).postJobs = _
    unfold Client.joinLobby
    split_ifs
    · rfl
    · exact hpublish _ rfl
  | findLobbies body =>
    refine Or.inl (hother (by simp) rfl ?_)
    show (if c.mp.isNone then c else c.enqueue (.find body)).postJobs = _
    split_ifs
    · rfl
    · rw [postJobs_enqueue]
      exact List.append_nil _
  | leave h =>
    refine Or.inl (hother (by simp) rfl ?_)
    show (c.leave h).postJobs = _
    unfold Client.leave
    split
    · rfl
    · rw [postJobs_enqueue]
      exact List.append_nil _
  | postUpdate h member update memberUpdate order =>
    cases hl : c.handles[h]? with
    | none =>
      have hcall : c.call (.postUpdate h member update memberUpdate order) = c := by
        show c.post h member update memberUpdate order = c
        simp only [Client.post, hl]
      refine Or.inl ⟨by simp only [accepted, hl], ?_, ?_⟩
      · rw [hcall]
      · exact fun _ _ => by rw [hcall]
    | some l =>
      cases hp : postUpdate l member update memberUpdate c.localEntity order with
      | none =>
        have hcall : c.call (.postUpdate h member update memberUpdate order) = c := by
          show c.post h member update memberUpdate order = c
          simp only [Client.post, hl, hp]
        refine Or.inl ⟨by simp [accepted, hl, hp], ?_, ?_⟩
        · rw [hcall]
        · exact fun _ _ => by rw [hcall]
      | some p =>
        refine Or.inr ⟨h, member, update, memberUpdate, order, l, p, rfl, hl, hp, ?_, ?_⟩
        · simp [accepted, hl, hp]
        · show c.post h member update memberUpdate order = _
          simp only [Client.post, hl, hp]

/-- A step that serves no post. -/
theorem Sound.keep (hs : s.Sound) {c : Client} (app : Broker.App)
    (hposts : c.postJobs = s.client.postJobs)
    (hsettled : ∀ h, s.client.Settled h → c.Settled h)
    (hid : ∀ h, s.client.Settled h →
      (c.copy h).map Prod.fst = (s.client.copy h).map Prod.fst)
    (hanswered : ∀ j r, c.worker = .answered (.post j) (some r) →
      s.client.worker = .answered (.post j) (some r)) :
    ({ s with app := app, client := c } : Posting).Sound where
  waiting := by
    show List.Forall₂ (Matches c) s.waiting c.postJobs
    rw [hposts]
    exact hs.waiting.imp fun a j h => h.congr (hsettled a.lobby) (hid a.lobby)
  answered j r hw := hs.answered j r (hanswered j r hw)

/-- A post keeps the id of the handle. -/
theorem id_post {c : Client} {h t : ℕ} {l : Lobby} {p : Post} (hl : c.handles[h]? = some l)
    (hid : p.lobby.id = l.id) (job : Job) :
    (((c.setLobby h p.lobby).enqueue job).copy t).map Prod.fst = (c.copy t).map Prod.fst := by
  by_cases ht : t = h
  · subst ht
    obtain ⟨hlt, -⟩ := List.getElem?_eq_some_iff.mp hl
    show ((c.handles.set t p.lobby)[t]?.map _).map Prod.fst = (c.handles[t]?.map _).map Prod.fst
    rw [List.getElem?_set_self hlt, hl]
    exact congrArg some hid
  · exact congrArg (Option.map Prod.fst) (c.copy_setLobby_of_ne ht p.lobby)

theorem Sound.call (hs : s.Sound) {e : Call} (hc : s.Careful (.client (.call e))) :
    (s.step host readFloat (.client (.call e))).Sound := by
  have hworker : (s.client.call e).worker = s.client.worker := by
    obtain ⟨jobs, hadds, -⟩ := s.client.call_adds e
    exact hadds.worker
  have hsettled (h : ℕ) (hset : s.client.Settled h) := s.client.settled_call hset e
  rcases call_cases s.client e with ⟨hnone, hposts, hcopy⟩ |
    ⟨h, member, update, memberUpdate, order, l, p, -, hl, hp, hone, hcall⟩
  · have hkept := hs.keep s.app hposts hsettled
      (fun h hset => congrArg (Option.map Prod.fst) (hcopy h hset.1))
      (fun j r hw => hworker ▸ hw)
    have hstep : s.step host readFloat (.client (.call e)) =
        { s with app := s.app, client := s.client.call e } := by
      simp only [Posting.step, hnone, List.append_nil]
    rwa [hstep]
  · set a : Asked := ⟨h, member, update, memberUpdate, s.client.localEntity⟩ with ha
    set j : PostJob := ⟨s.client.generation, p, h⟩ with hj
    have hid : p.lobby.id = l.id := (Joining.postUpdate_handle hp).1
    obtain ⟨hset, hfits⟩ := hc a (by rw [hone]; exact List.mem_singleton_self a)
    have hids (t : ℕ) : ((s.client.call e).copy t).map Prod.fst =
        (s.client.copy t).map Prod.fst := by
      rw [hcall]
      exact id_post hl hid (.post j)
    have hnew : Matches (s.client.call e) a j := by
      refine ⟨⟨rfl, l, order, hp⟩, hfits, hsettled h hset, (hids h).trans ?_⟩
      show (s.client.handles[h]?.map _).map Prod.fst = some p.lobby.id
      rw [hl]
      exact congrArg some hid.symm
    have hposts : (s.client.call e).postJobs = s.client.postJobs ++ [j] := by
      rw [hcall, postJobs_enqueue]
      rfl
    constructor
    · show List.Forall₂ (Matches (s.client.call e)) (s.waiting ++ accepted s.client e)
        (s.client.call e).postJobs
      rw [hone, hposts]
      refine List.rel_append ?_ (List.Forall₂.cons hnew .nil)
      exact hs.waiting.imp fun a' j' h' => h'.congr (hsettled a'.lobby) fun _ => hids a'.lobby
    · exact fun j' r hw => hs.answered j' r (hworker ▸ hw)

/-- The worker has an answer only behind its request. -/
theorem answered_receive {c : Client} {reply : Option Broker.Response} {job : Job}
    {r : Option Broker.Response} (h : (c.receive host reply).worker = .answered job r) :
    c.worker = .sending job := by
  unfold Client.receive at h
  cases hw : c.worker with
  | idle =>
    rw [hw] at h
    cases hq : c.queue <;> rw [hq] at h <;> cases h
  | sending job' =>
    rw [hw] at h
    cases h
    rfl
  | answered job' reply' =>
    rw [hw] at h
    cases job' with
    | join j =>
      have hanswer : (c.joinAnswered host j reply').worker = .answered job r := h
      unfold Client.joinAnswered at hanswer
      simp only at hanswer
      split at hanswer <;> cases hanswer
    | _ => cases h
  | fetching j id =>
    rw [hw] at h
    cases h
  | fetched j reply' =>
    rw [hw] at h
    cases h
  | polling targets =>
    rw [hw] at h
    cases targets <;> cases h
  | polled t reply' targets =>
    rw [hw] at h
    cases h

/-- The worker, unless it sends a post. -/
theorem Sound.turn (hs : s.Sound) (hw : ∀ j, s.client.worker ≠ .sending (.post j))
    (app : Broker.App) (reply : Option Broker.Response) :
    ({ s with app := app, client := s.client.receive host reply } : Posting).Sound := by
  refine hs.keep app ?_ (fun h hset => Client.settled_receive host reply hset)
    (fun h hset => Client.id_receive host reply hset) ?_
  · rw [Client.postJobs, Client.unsent_receive]
    cases hworker : s.client.worker with
    | sending job =>
      have hjob : job.postJob = none := by
        cases job with
        | post j => exact absurd hworker (hw j)
        | _ => rfl
      simp [Client.postJobs, Client.unsent, hworker, Worker.sent, hjob]
    | _ => rfl
  · intro j r hanswer
    exact absurd (answered_receive hanswer) (hw j)

/-- The broker serves a post whose lobby it holds. -/
theorem good_of_served {c : Client} {app : Broker.App} {a : Asked} {j : PostJob}
    (hm : Matches c a j) (hplain : j.post.lobby.Plain)
    (hheld : (app.lobbies.get? j.post.lobby.id).isSome = true)
    (hmember : ∀ bl ∈ app.lobbies.get? j.post.lobby.id, ∀ t ∈ j.post.memberTarget,
      c.ActsAs app t ∧ (bl.members.any fun m => Broker.memberId m == t) = true)
    (m : Broker.Moment) :
    (⟨a, j.post.lobby.id, app, (Broker.handlePlayfab host app (request readFloat c m
      "/Lobby/UpdateLobby" j.post.body)).1⟩ : Served).Good := by
  set r := request readFloat c m "/Lobby/UpdateLobby" j.post.body with hr
  have hbody : r.body = .obj j.post.entries := by
    rw [hr, request, World.readBody_postBody hplain]
  have hheaders : r.headers = c.headers := by rw [hr, request]
  have hroute : Broker.route r.path = some .updateLobby := World.route_updateLobby
  obtain ⟨bl, hbl⟩ := Option.isSome_iff_exists.mp hheld
  obtain ⟨l, order, hpost⟩ := hm.made.2
  refine ⟨bl, bl.update host (.obj j.post.entries)
    (Broker.requestEntityId app (.obj j.post.entries) c.headers), hbl, ?_, ?_⟩
  · show (Broker.handlePlayfab host app r).1.lobbies.get? j.post.lobby.id = _
    rw [Broker.handlePlayfab_update hroute, Broker.handleUpdate_get?, hbody, hheaders,
      j.post.bodyLobbyId_entries, if_pos rfl, hbl]
    rfl
  · exact applied_of_post hpost hm.fits host (hmember bl hbl)

/-- A post is sent. -/
theorem Sound.send (hs : s.Sound) {j : PostJob} (hw : s.client.worker = .sending (.post j))
    (m : Broker.Moment) (o : Outcome) (hc : s.Careful (.client (.work m o))) :
    (s.step host readFloat (.client (.work m o))).Sound := by
  set r := request readFloat s.client m "/Lobby/UpdateLobby" j.post.body with hr
  set c' : Client := { s.client with worker := .answered (.post j) (exchange host s.app r o).2 }
    with hc'
  have hposts : s.client.postJobs = j :: c'.postJobs := by
    simp [Client.postJobs, Client.unsent, hw, hc', Worker.sent, Job.postJob]
  have hwaiting := hs.waiting
  rw [hposts] at hwaiting
  obtain ⟨a, rest, hmatch, hrest, hqueue⟩ := List.forall₂_cons_right_iff.mp hwaiting
  have hid : ((s.client.handles[j.lobby]?).map Lobby.id).getD "" = j.post.lobby.id := by
    have hcopy := hmatch.id
    rw [Client.copy, Option.map_map, ← hmatch.made.1] at hcopy
    rw [show (s.client.handles[j.lobby]?).map Lobby.id = some j.post.lobby.id from hcopy]
    rfl
  have hstep : s.step host readFloat (.client (.work m o)) =
      ⟨(exchange host s.app r o).1, c', s.asked, rest,
        some ⟨a, j.post.lobby.id, s.app, (exchange host s.app r o).1⟩⟩ := by
    simp only [Posting.step, Client.work_sending m o hw, hw, hqueue, List.tail_cons,
      List.head?_cons, Option.map_some, hid]
    rfl
  rw [hstep]
  constructor
  · exact hrest.imp fun a' j' h' => h'.congr (fun hset => ⟨hset.1, fun hmem => hset.2 (by
      rw [Client.unsettled, hw]; exact hmem)⟩) fun _ => rfl
  · intro j' r' hanswer
    obtain ⟨hjob, hreply⟩ := Worker.answered.inj hanswer
    obtain rfl : j = j' := Job.post.inj hjob
    have hserved : o = .served := by
      cases o with
      | served => rfl
      | lost => cases hreply
      | unanswered => cases hreply
    have hcond : j.post.lobby.Plain ∧ (s.app.lobbies.get? j.post.lobby.id).isSome = true ∧
        ∀ bl ∈ s.app.lobbies.get? j.post.lobby.id, ∀ t ∈ j.post.memberTarget,
          s.client.ActsAs s.app t ∧ (bl.members.any fun m => Broker.memberId m == t) = true := by
      unfold Careful at hc
      rw [hw] at hc
      exact hc hserved
    refine ⟨_, rfl, hmatch.made, ?_⟩
    rw [exchange_app host (by rw [hserved]; decide)]
    exact good_of_served hmatch hcond.1 hcond.2.1 hcond.2.2 m

/-- What one step preserves. -/
theorem Sound.step (hs : s.Sound) {e : Step} (hc : s.Careful e) :
    (s.step host readFloat e).Sound := by
  cases e with
  | others app =>
    exact hs.keep app rfl (fun _ h => h) (fun _ _ => rfl) fun _ _ h => h
  | client e =>
    cases e with
    | call e => exact hs.call hc
    | work m o =>
      by_cases hpost : ∃ j, s.client.worker = .sending (.post j)
      · obtain ⟨j, hw⟩ := hpost
        exact hs.send hw m o hc
      · have hw (j : PostJob) : s.client.worker ≠ .sending (.post j) := fun h => hpost ⟨j, h⟩
        obtain ⟨reply, hreceive⟩ := Client.work_eq_receive host readFloat s.app s.client m o
        have hstep : s.step host readFloat (.client (.work m o)) =
            { s with
              app := (s.client.work host readFloat s.app m o).1
              client := s.client.receive host reply } := by
          rw [← hreceive]
          unfold Posting.step
          simp only
        rw [hstep]
        exact hs.turn hw _ reply

theorem sound_start (app : Broker.App) : (start app).Sound where
  waiting := .nil
  answered _ _ hw := by cases hw

/-- Steps of the worker, with every request served. -/
def works (n : ℕ) : List Step :=
  List.replicate n (.client (.work ⟨1767225600, "1767225600.5", []⟩ .served))

/-- The title asks for a lobby. -/
def creating : List Step :=
  let owner : EntityKey := ⟨"owner-1", "title_player_account"⟩
  [.client (.call .initializeMp), .client (.call (.setEntityToken owner "token-0")),
    .client (.call (.createAndJoinLobby owner (some ⟨4, 1, [], []⟩) [] ⟨[], [], []⟩))]

def after (steps : List Step) : Posting :=
  run (step Broker.anonymousHost fun _ => none) (start (Broker.App.new "1AC1AD" 8 false)) steps

end Posting

end GbfrLan.Playfab
