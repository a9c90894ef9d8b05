import GbfrLan.Broker.Dispatch
import GbfrLan.Lib.Base64

/-!
# Sessions

A login files its player under two tokens, one made from the entity id and one from the PlayFab id, which
in turn decides the entity id. So whatever other logins follow, a token names the same entity for ever.
-/
namespace GbfrLan.Broker
open Lib Json

/-- The player of a ticket. -/
def playerOf (host : Host) (ticket : String) : Player :=
  ((App.new "" 0 false).playerFromTicket host ticket).2

/-- The text of a token without its front. -/
def tokenTail (host : Host) (entityId : String) : String := urlSafe (host.b64 entityId)

section
variable {host : Host} {app : App}

theorem playerFromTicket_snd (app : App) (ticket : String) :
    (app.playerFromTicket host ticket).2 = playerOf host ticket := rfl

/-- How the tokens and the entity of a player belong together. -/
structure Player.Issued (host : Host) (p : Player) : Prop where
  entity : p.entityId = String.ofList ((host.sha1Hex ("tpa:" ++ p.playfabId)).toList.take 16)
  token : p.entityToken = "STUB." ++ tokenTail host p.entityId
  ticket : p.sessionTicket = "STUB-SESSION-" ++ p.playfabId

theorem playerOf_issued (host : Host) (ticket : String) : (playerOf host ticket).Issued host :=
  ⟨rfl, rfl, rfl⟩

/-- A session is filed under one of the tokens of its player. -/
def App.SessionsOk (host : Host) (app : App) : Prop :=
  ∀ tok p, app.sessions.get? tok = some p →
    p.Issued host ∧ (tok = p.entityToken ∨ tok = p.sessionTicket)

/-- Two players under one token are one entity. -/
theorem Player.Issued.entityId_eq {p p' : Player} (h : p.Issued host) (h' : p'.Issued host)
    (hinj : Function.Injective (tokenTail host)) {tok : String}
    (ht : tok = p.entityToken ∨ tok = p.sessionTicket)
    (ht' : tok = p'.entityToken ∨ tok = p'.sessionTicket) : p'.entityId = p.entityId := by
  have hcross (x y : String) : "STUB." ++ x ≠ "STUB-SESSION-" ++ y := by
    intro heq
    have hlist := congrArg String.toList heq
    simp [String.toList_append] at hlist
  have hsame {front x y : String} (heq : front ++ x = front ++ y) : x = y := by
    have hlist := congrArg String.toList heq
    rw [String.toList_append, String.toList_append] at hlist
    exact String.toList_inj.mp (List.append_cancel_left hlist)
  rw [h.token, h.ticket] at ht
  rw [h'.token, h'.ticket] at ht'
  rcases ht with rfl | rfl <;> rcases ht' with heq | heq
  · exact (hinj (hsame heq)).symm
  · exact absurd heq (hcross _ _)
  · exact absurd heq.symm (hcross _ _)
  · rw [h.entity, h'.entity, hsame heq]

/-- What a login does to the sessions. -/
theorem get?_playerFromTicket (app : App) (ticket tok : String) :
    (app.playerFromTicket host ticket).1.sessions.get? tok =
      if tok = (playerOf host ticket).sessionTicket ∨ tok = (playerOf host ticket).entityToken then
        some (playerOf host ticket)
      else app.sessions.get? tok := by
  have hmade : (app.playerFromTicket host ticket).1.sessions =
      (app.sessions.insert (playerOf host ticket).entityToken (playerOf host ticket)).insert
        (playerOf host ticket).sessionTicket (playerOf host ticket) := rfl
  rw [hmade, OrdMap.get?_insert, OrdMap.get?_insert]
  split_ifs <;> simp_all

/-- The sessions stay as they are, or those of one ticket are added. -/
def Grows (host : Host) (app app' : App) : Prop :=
  app'.sessions = app.sessions ∨ ∃ ticket, app'.sessions = (app.playerFromTicket host ticket).1.sessions

theorem resolvePlayer_grows (app : App) (r : Request) (ticket : String) :
    Grows host app (resolvePlayer host app r ticket).1 := by
  unfold resolvePlayer
  simp only
  split
  · exact .inl rfl
  · exact .inr ⟨ticket, rfl⟩

theorem dropOwnerLobbies_sessions (app : App) (ownerId : String) :
    (dropOwnerLobbies app ownerId).sessions = app.sessions := by
  unfold dropOwnerLobbies
  split_ifs <;> rfl

theorem serve_grows (app : App) (q : Query) : Grows host app (app.serve host q) := by
  cases q with
  | party r => exact .inl (handleParty_lobbies host app r).2.1
  | playfab r =>
    have hres : Grows host app (resolvePlayer host app r "anonymous").1 :=
      resolvePlayer_grows app r "anonymous"
    unfold App.serve handlePlayfab
    simp only
    split
    · exact .inr ⟨_, rfl⟩
    · exact resolvePlayer_grows app r _
    · have hdrop := dropOwnerLobbies_sessions (resolvePlayer host app r "anonymous").1
        (resolvePlayer host app r "anonymous").2.entityId
      change Grows host app (handleCreate host app r).1
      have hcreate : (handleCreate host app r).1.sessions = (resolvePlayer host app r "anonymous").1.sessions :=
        hdrop
      unfold Grows
      rw [hcreate]
      exact hres
    · simp only [handleJoin]
      split
      · exact hres
      · split
        · exact hres
        · split <;> exact hres
    · exact .inl rfl
    · simp only [handleLeave]
      split <;> exact .inl rfl
    · simp only [handleUpdate]
      split <;> exact .inl rfl
    · exact .inl rfl
    · exact .inl rfl
    · exact .inl rfl

theorem App.SessionsOk.grow {app' : App} (h : app.SessionsOk host) (hgrow : Grows host app app') :
    app'.SessionsOk host := by
  intro tok p hp
  rcases hgrow with heq | ⟨ticket, heq⟩
  · exact h tok p (heq ▸ hp)
  · rw [heq, get?_playerFromTicket] at hp
    split_ifs at hp with hnew
    · obtain rfl := Option.some.inj hp
      exact ⟨playerOf_issued host ticket, hnew.symm⟩
    · exact h tok p hp

/-- A token that is known stays known, for the same entity. -/
theorem App.SessionsOk.keeps {app' : App} (h : app.SessionsOk host)
    (hinj : Function.Injective (tokenTail host)) (hgrow : Grows host app app') {tok : String}
    {e : String} (he : (app.sessions.get? tok).map Player.entityId = some e) :
    (app'.sessions.get? tok).map Player.entityId = some e := by
  obtain ⟨p, hp, rfl⟩ := Option.map_eq_some_iff.mp he
  rcases hgrow with heq | ⟨ticket, heq⟩
  · rw [heq, hp]
    rfl
  · rw [heq, get?_playerFromTicket]
    split_ifs with hnew
    · obtain ⟨hissued, htok⟩ := h tok p hp
      exact congrArg some (hissued.entityId_eq (playerOf_issued host ticket) hinj htok hnew.symm)
    · rw [hp]
      rfl

theorem App.SessionsOk.run (h : app.SessionsOk host) (hinj : Function.Injective (tokenTail host))
    {tok : String} {e : String} (he : (app.sessions.get? tok).map Player.entityId = some e)
    (qs : List Query) : ((run (App.serve host) app qs).sessions.get? tok).map Player.entityId = some e :=
  (@run_invariant_all _ _ (App.serve host)
    (fun a => a.SessionsOk host ∧ (a.sessions.get? tok).map Player.entityId = some e)
    (fun a q ha => ⟨ha.1.grow (serve_grows a q), ha.1.keeps hinj (serve_grows a q) ha.2⟩) _ ⟨h, he⟩ qs).2

theorem App.SessionsOk.run_new (host : Host) (titleId : String) (maxPlayers : ℤ) (overrideGameMax : Bool)
    (qs : List Query) :
    (Lib.run (App.serve host) (App.new titleId maxPlayers overrideGameMax) qs).SessionsOk host := by
  refine @run_invariant_all _ _ (App.serve host) (App.SessionsOk host)
    (fun a q ha => ha.grow (serve_grows a q)) _ ?_ qs
  intro tok p hp
  cases hp

end

section
variable (host : Host) (readFloat : List Char → Option UInt64) (encodeBlob : Moment → List UInt8 → List UInt8)
  (ports : Ports)

/-- The tokens of a login name its entity from then on, whatever the requests before and after it are,
and whoever else logs in. -/
theorem login_lasts (hinj : Function.Injective (tokenTail host)) (titleId : String) (maxPlayers : ℤ)
    (overrideGameMax : Bool) (rs rs' : List WebRequest) (r : WebRequest)
    (hr : r.query host ports = some (.playfab r.playfab))
    (hroute : route r.playfab.path = some .loginWithSteam) :
    let s := dispatchAll host readFloat encodeBlob ports (App.new titleId maxPlayers overrideGameMax) rs
    let t := dispatchAll host readFloat encodeBlob ports
      (dispatch host readFloat encodeBlob ports s r).1 rs'
    let p := playerOf host ((bodyStr r.body "SteamTicket" "steamTicket").getD "")
    (dispatch host readFloat encodeBlob ports s r).2 = (playfabOk (loginResult p)).answer host ∧
      ∀ (body : Value) (headers : Headers) (tok : String), tok = p.entityToken ∨ tok = p.sessionTicket →
        headers.get? "x-entitytoken" = some tok → requestEntityId t body headers = some p.entityId := by
  intro s t p
  set ticket := (bodyStr r.body "SteamTicket" "steamTicket").getD "" with hticket
  have hlogin : dispatch host readFloat encodeBlob ports s r =
      ((s.playerFromTicket host ticket).1, (playfabOk (loginResult (playerOf host ticket))).answer host) := by
    rw [dispatch_of_query host readFloat encodeBlob ports hr]
    unfold dispatchPlayfab handlePlayfab
    simp only [hroute]
    rfl
  refine ⟨by rw [hlogin], fun body headers tok htok hheader => ?_⟩
  have hs : s.SessionsOk host := by
    have heq : s = _ := dispatchAll_eq host readFloat encodeBlob ports _ rs
    rw [heq]
    exact App.SessionsOk.run_new host titleId maxPlayers overrideGameMax _
  have hnew : (s.playerFromTicket host ticket).1.SessionsOk host := hs.grow (.inr ⟨ticket, rfl⟩)
  have hfound : ((s.playerFromTicket host ticket).1.sessions.get? tok).map Player.entityId =
      some (playerOf host ticket).entityId := by
    rw [get?_playerFromTicket, if_pos htok.symm]
    rfl
  have hend : (t.sessions.get? tok).map Player.entityId = some (playerOf host ticket).entityId := by
    have heq : t = _ := dispatchAll_eq host readFloat encodeBlob ports _ rs'
    rw [heq, hlogin]
    exact hnew.run hinj hfound _
  obtain ⟨q, hq, hentity⟩ := Option.map_eq_some_iff.mp hend
  unfold requestEntityId
  simp only [headerSession, hheader, Option.bind_some, hq]
  exact congrArg some hentity

end

/-! ### Tokens in base64 -/

/-- The text of a digit in a token. -/
def urlDigit (n : ℕ) : Char :=
  if Base64.digit n = '+' then '-' else if Base64.digit n = '/' then '_' else Base64.digit n

theorem urlDigit_injective : ∀ m < 64, ∀ n < 64, urlDigit m = urlDigit n → m = n := by
  decide +kernel

theorem digit_ne_pad : ∀ n < 64, Base64.digit n ≠ '=' := by decide +kernel

theorem dropWhile_pad (k : ℕ) {cs : List Char} (h : cs.head? ≠ some '=') :
    (List.replicate k '=' ++ cs).dropWhile (fun c => decide (c = '=')) = cs := by
  induction k with
  | zero =>
    cases cs with
    | nil => rfl
    | cons c cs =>
      rw [List.replicate_zero, List.nil_append, List.dropWhile_cons_of_neg (by simpa using h)]
  | succ k ih => rw [List.replicate_succ, List.cons_append, List.dropWhile_cons_of_pos (by simp), ih]

theorem urlSafe_encode (bs : List UInt8) :
    urlSafe (String.ofList (Base64.encode bs)) = String.ofList ((Base64.sextets bs).map urlDigit) := by
  have hhead : ((Base64.sextets bs).map Base64.digit).reverse.head? ≠ some '=' := by
    intro h
    have hmem : '=' ∈ (Base64.sextets bs).map Base64.digit :=
      List.mem_reverse.mp (List.mem_of_head? h)
    obtain ⟨n, hn, heq⟩ := List.mem_map.mp hmem
    exact digit_ne_pad n (Base64.sextets_lt hn) heq
  unfold urlSafe Base64.encode Base64.padding
  rw [String.toList_ofList, List.reverse_append, List.reverse_replicate, dropWhile_pad _ hhead,
    List.reverse_reverse, List.map_map]
  rfl

theorem urlSafe_encode_injective :
    Function.Injective fun s => urlSafe (String.ofList (Base64.encode (Utf8.bytes s))) := by
  intro s t h
  simp only [urlSafe_encode] at h
  have hmap := congrArg String.toList h
  rw [String.toList_ofList, String.toList_ofList] at hmap
  have hdigits : Base64.sextets (Utf8.bytes s) = Base64.sextets (Utf8.bytes t) := by
    refine List.ext_getElem (by simpa using congrArg List.length hmap) fun i hi hi' => ?_
    refine urlDigit_injective _ (Base64.sextets_lt (List.getElem_mem hi)) _
      (Base64.sextets_lt (List.getElem_mem hi')) ?_
    have hi'' := congrArg (fun l => l[i]?) hmap
    simpa [hi, hi'] using hi''
  have hbytes := Base64.sextets_injective hdigits
  rw [← Utf8.decodeLossy_bytes s, hbytes, Utf8.decodeLossy_bytes]

/-- The digests of an empty ticket and of its player; any other text has that of nothing. -/
def emptyTicketHost : Host where
  sha1Hex s :=
    if s = "empty" then "ad87109bfff0765f4dd8cf4943b04d16a4070fea"
    else if s = "tpa:AD87109BFFF0765F" then "ec964049b9deffb9f150e81af53d96584a53a6a0"
    else "da39a3ee5e6b4b0d3255bfef95601890afd80709"
  b64 s := String.ofList (Base64.encode (Utf8.bytes s))
  floatText _ := ""
  clockBits _ := 0

def emptyLogin : WebRequest :=
  ⟨⟨0, "0", []⟩, "POST", "/Client/LoginWithSteam?sdk=1", OrdMap.empty, .obj []⟩

theorem emptyLogin_query :
    emptyLogin.query emptyTicketHost ⟨8080, 8081⟩ = some (.playfab emptyLogin.playfab) := by
  rw [WebRequest.query, if_neg (by decide +kernel), if_neg (by decide +kernel), if_pos (by decide +kernel)]

/-- Two logins without a ticket, and the token of the first. -/
theorem emptyLogin_lasts :
    let step := dispatch emptyTicketHost (fun _ => none) (fun _ raw => raw) ⟨8080, 8081⟩
    let t := (step (step (App.new "1AC1AD" 8 true) emptyLogin).1 emptyLogin).1
    requestEntityId t (.obj [])
        (OrdMap.empty.insert "x-entitytoken" "STUB.ZWM5NjQwNDliOWRlZmZiOQ") = some "ec964049b9deffb9" := by
  have h := (login_lasts emptyTicketHost (fun _ => none) (fun _ raw => raw) ⟨8080, 8081⟩
    urlSafe_encode_injective "1AC1AD" 8 true [] [emptyLogin] emptyLogin emptyLogin_query
    (by decide +kernel)).2
  exact h (.obj []) _ "STUB.ZWM5NjQwNDliOWRlZmZiOQ" (.inl (by decide +kernel)) rfl

end GbfrLan.Broker
