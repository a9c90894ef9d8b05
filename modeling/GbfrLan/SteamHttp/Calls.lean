import GbfrLan.Lib.Bytes
import GbfrLan.Lib.Digits
import GbfrLan.Lib.Run
import GbfrLan.Lib.Utf8
import GbfrLan.SteamHttp.Url

/-!
# The calls of `ISteamHTTP`

The shim keeps the requests of the game and the results of their sends, and hands each result to the
callback that the game has registered for it when the game runs its callbacks. A send leaves the lock
while the request is on its way, so the calls of other threads come in between.

What the callbacks do is left out, and so are the calls that answer without the state.
-/
namespace GbfrLan.SteamHttp
open Lib

structure Request where
  method : ℤ
  url : String
  headers : List (String × String)
  body : List UInt8
  context : ℕ
  status : ℕ
  response : List UInt8
  ok : Bool
  deriving DecidableEq

structure Call where
  request : ℕ
  failed : Bool
  deriving DecidableEq

/-- `HTTPRequestCompleted_t` as the game reads it. -/
def packHttpCompleted (handle context : ℕ) (ok : Bool) (status bodyLen : ℕ) : List UInt8 :=
  let p := Bytes.write (Bytes.zeros 32) 0 (Digits.toLe 4 handle)
  let p := Bytes.write p 8 (Digits.toLe 8 context)
  let p := p.set 16 (if ok then 1 else 0)
  let p := Bytes.write p 20 (Digits.toLe 4 status)
  Bytes.write p 24 (Digits.toLe 4 bodyLen)

def webapiTicketMax : ℕ := 2560

/-- `GetTicketForWebApiResponse_t` as the game reads it. -/
def packWebapiTicket (handle : ℕ) (ticket : List UInt8) (max : ℕ) : List UInt8 :=
  let n := min ticket.length max
  let p := Bytes.write (Bytes.zeros (12 + max)) 0 (Digits.toLe 4 handle)
  let p := Bytes.write p 4 (Digits.toLe 4 1)
  let p := Bytes.write p 8 (Digits.toLe 4 n)
  Bytes.write p 12 (ticket.take n)

/-- What comes of a send: the status and the body, or a failure before there is one. -/
abbrev Exchange := Option (ℕ × List UInt8)

namespace Exchange

def status (o : Exchange) : ℕ := (o.map Prod.fst).getD 0

def body (o : Exchange) : List UInt8 := (o.map Prod.snd).getD []

def ok (o : Exchange) : Bool := decide (200 ≤ o.status ∧ o.status < 300)

def failed (o : Exchange) : Bool := !o.ok && o.status == 0

end Exchange

/-- A result that is handed to a callback. -/
structure Job where
  call : ℕ
  cb : ℕ
  packed : List UInt8
  failed : Bool
  deriving DecidableEq

/-- A ticket that is handed to a listener. -/
structure TicketRun where
  handle : ℕ
  cb : ℕ
  packed : List UInt8
  deriving DecidableEq

structure Shim where
  requests : OrdMap ℕ Request
  calls : OrdMap ℕ Call
  callResults : OrdMap ℕ ℕ
  dispatched : List ℕ
  callbacks : List (ℤ × ℕ)
  pendingWebapi : List ℕ
  firedConnected : List ℕ
  nextHandle : ℕ
  nextCall : ℕ
  nextTicket : ℕ
  /-- The requests that are on their way, each in its thread. -/
  sends : List (ℕ × Request)
  /-- The callbacks that have run, oldest first. -/
  jobs : List Job
  connectedRuns : List ℕ
  ticketRuns : List TicketRun

def Shim.new : Shim :=
  ⟨.empty, .empty, .empty, [], [], [], [], 1, 0x0BEE0001, 1, [], [], [], []⟩

inductive Event where
  | createHttp (method : ℤ) (url : String)
  | setContext (handle value : ℕ)
  | setHeader (handle : ℕ) (name value : String)
  | setRawBody (handle : ℕ) (data : Option (List UInt8))
  /-- The first half of a send. -/
  | sendBegin (handle : ℕ)
  /-- The second half of the send with this position. -/
  | sendEnd (i : ℕ) (o : Exchange)
  | release (handle : ℕ)
  | regCall (cb call : ℕ)
  | unregCall (call : ℕ)
  | regCb (cb : ℕ) (id : ℤ)
  | unregCb (cb : ℕ)
  /-- With the answer of the original function, if it is there. -/
  | getTicket (identity : String) (orig : Option ℕ)
  | userCallbacks (ticket : List UInt8)
  | callResults (order : List ℕ)

def cbSteamServersConnected : ℤ := 101
def cbTicketForWebapi : ℤ := 168

namespace Shim

def modifyRequest (s : Shim) (handle : ℕ) (f : Request → Request) : Shim :=
  { s with requests :=
      match s.requests.get? handle with
      | some r => s.requests.insert handle (f r)
      | none => s.requests }

def createHttp (cfg : LanCfg) (s : Shim) (method : ℤ) (url : String) : Shim :=
  let url := rewriteHttpUrlToStub cfg url
  if url.isEmpty then s
  else { s with
    nextHandle := (s.nextHandle + 1) % 2 ^ 32
    requests := s.requests.insert s.nextHandle ⟨method, url, [], [], 0, 0, [], false⟩ }

def setRawBody (s : Shim) (handle : ℕ) (data : Option (List UInt8)) : Shim :=
  s.modifyRequest handle fun r =>
    match data with
    | some bs => if 0 < bs.length ∧ bs.length ≤ 2 * 1024 * 1024 then { r with body := bs } else r
    | none => r

/-- The part of `send_http` in front of the exchange. -/
def sendBegin (s : Shim) (handle : ℕ) : Shim :=
  match s.requests.get? handle with
  | some r => { s with sends := s.sends ++ [(handle, { r with status := 0, response := [], ok := false })] }
  | none => s

/-- The part of `send_http` behind the exchange. -/
def sendEnd (s : Shim) (i : ℕ) (o : Exchange) : Shim :=
  match s.sends[i]? with
  | some (handle, _) =>
      let s := s.modifyRequest handle fun r =>
        { r with status := o.status, response := o.body, ok := o.ok }
      { s with
        sends := s.sends.eraseIdx i
        calls := s.calls.insert s.nextCall ⟨handle, o.failed⟩
        nextCall := (s.nextCall + 1) % 2 ^ 64 }
  | none => s

def regCall (s : Shim) (cb call : ℕ) : Shim :=
  if cb ≠ 0 ∧ call ≠ 0 then { s with callResults := s.callResults.insert call cb } else s

def regCb (s : Shim) (cb : ℕ) (id : ℤ) : Shim :=
  if cb ≠ 0 then { s with callbacks := s.callbacks ++ [(id, cb)] } else s

def unregCb (s : Shim) (cb : ℕ) : Shim :=
  if cb ≠ 0 then { s with
    callbacks := s.callbacks.filter fun e => e.2 ≠ cb
    firedConnected := s.firedConnected.filter (· ≠ cb) }
  else s

/-- Whether `get_auth_ticket_webapi` makes a ticket of its own. -/
def stubsTicket (identity : String) (orig : Option ℕ) : Bool :=
  identity == "playfab_services" || identity == "server_auth_key_001" || orig.getD 0 == 0

def getTicket (s : Shim) (identity : String) (orig : Option ℕ) : Shim :=
  if stubsTicket identity orig then { s with
    nextTicket := (s.nextTicket + 1) % 2 ^ 32
    pendingWebapi := s.pendingWebapi ++ [s.nextTicket] }
  else s

/-- The listeners of this callback, in the order of their registration. -/
def listeners (s : Shim) (id : ℤ) : List ℕ := (s.callbacks.filter fun e => e.1 = id).map Prod.snd

/-- One turn of the loop over the listeners that are told of the connection once. -/
def fire (p : List ℕ × List ℕ) (cb : ℕ) : List ℕ × List ℕ :=
  if cb ∈ p.1 then p else (p.1 ++ [cb], p.2 ++ [cb])

/-- `dispatch_steam_user_callbacks`. -/
def dispatchSteamUserCallbacks (s : Shim) (ticket : List UInt8) : Shim :=
  let fired := (s.listeners cbSteamServersConnected).foldl fire (s.firedConnected, [])
  { s with
    firedConnected := fired.1
    pendingWebapi := []
    connectedRuns := s.connectedRuns ++ fired.2
    ticketRuns := s.ticketRuns ++ s.pendingWebapi.flatMap fun handle =>
      (s.listeners cbTicketForWebapi).map fun cb =>
        ⟨handle, cb, packWebapiTicket handle ticket webapiTicketMax⟩ }

/-- The result of a call as it is handed to the game. -/
def completed (s : Shim) (c : Call) : List UInt8 :=
  let r := s.requests.get? c.request
  packHttpCompleted c.request ((r.map Request.context).getD 0) ((r.map Request.ok).getD false)
    ((r.map Request.status).getD 0) ((r.map fun r => r.response.length).getD 0)

/-- What one turn of `dispatch_http_callresults` makes of a call. -/
def jobOf (s : Shim) (e : ℕ × Call) : Option Job :=
  if e.1 ∈ s.dispatched then none
  else (s.callResults.get? e.1).map fun cb => ⟨e.1, cb, s.completed e.2, e.2.failed⟩

/-- `dispatch_http_callresults`. -/
def dispatchHttpCallresults (s : Shim) (order : List ℕ) : Shim :=
  let jobs := (s.calls.iterEntries order).filterMap s.jobOf
  { s with dispatched := s.dispatched ++ jobs.map Job.call, jobs := s.jobs ++ jobs }

def step (cfg : LanCfg) (s : Shim) : Event → Shim
  | .createHttp method url => s.createHttp cfg method url
  | .setContext handle value => s.modifyRequest handle fun r => { r with context := value }
  | .setHeader handle name value =>
      s.modifyRequest handle fun r => { r with headers := r.headers ++ [(name, value)] }
  | .setRawBody handle data => s.setRawBody handle data
  | .sendBegin handle => s.sendBegin handle
  | .sendEnd i o => s.sendEnd i o
  | .release handle => { s with requests := s.requests.erase handle }
  | .regCall cb call => s.regCall cb call
  | .unregCall call => { s with callResults := s.callResults.erase call }
  | .regCb cb id => s.regCb cb id
  | .unregCb cb => s.unregCb cb
  | .getTicket identity orig => s.getTicket identity orig
  | .userCallbacks ticket => s.dispatchSteamUserCallbacks ticket
  | .callResults order => s.dispatchHttpCallresults order

/-- The call is finished, and this callback is registered for its result. -/
def Ready (s : Shim) (call cb : ℕ) : Prop := s.calls.contains call = true ∧ s.callResults.get? call = some cb

section
variable {cfg : LanCfg} {s : Shim}

theorem step_jobs {e : Event} (h : ∀ order, e ≠ .callResults order) :
    (s.step cfg e).jobs = s.jobs ∧ (s.step cfg e).dispatched = s.dispatched := by
  cases e with
  | callResults order => exact absurd rfl (h order)
  | createHttp method url =>
    simp only [step, createHttp]
    split_ifs <;> exact ⟨rfl, rfl⟩
  | sendBegin handle =>
    simp only [step, sendBegin]
    split <;> exact ⟨rfl, rfl⟩
  | sendEnd i o =>
    simp only [step, sendEnd]
    split <;> exact ⟨rfl, rfl⟩
  | regCall cb call =>
    simp only [step, regCall]
    split_ifs <;> exact ⟨rfl, rfl⟩
  | regCb cb id =>
    simp only [step, regCb]
    split_ifs <;> exact ⟨rfl, rfl⟩
  | unregCb cb =>
    simp only [step, unregCb]
    split_ifs <;> exact ⟨rfl, rfl⟩
  | getTicket identity orig =>
    simp only [step, getTicket]
    split_ifs <;> exact ⟨rfl, rfl⟩
  | _ => exact ⟨rfl, rfl⟩

/-- The jobs of one turn. -/
theorem mem_jobs {order : List ℕ} {j : Job} : j ∈ (s.calls.iterEntries order).filterMap s.jobOf ↔
    j.call ∉ s.dispatched ∧ s.callResults.get? j.call = some j.cb ∧
      ∃ c, s.calls.get? j.call = some c ∧ j.packed = s.completed c ∧ j.failed = c.failed := by
  rw [List.mem_filterMap]
  constructor
  · rintro ⟨⟨call, c⟩, hmem, hjob⟩
    unfold jobOf at hjob
    split_ifs at hjob with hin
    obtain ⟨cb, hcb, rfl⟩ := Option.map_eq_some_iff.mp hjob
    exact ⟨hin, hcb, c, OrdMap.mem_iterEntries.mp hmem, rfl, rfl⟩
  · rintro ⟨hin, hcb, c, hc, hpacked, hfailed⟩
    refine ⟨(j.call, c), OrdMap.mem_iterEntries.mpr hc, ?_⟩
    rw [jobOf, if_neg hin, hcb, Option.map_some, ← hpacked, ← hfailed]

theorem jobs_nodup (s : Shim) (order : List ℕ) :
    (((s.calls.iterEntries order).filterMap s.jobOf).map Job.call).Nodup := by
  have hsub : (((s.calls.iterEntries order).filterMap s.jobOf).map Job.call).Sublist
      ((s.calls.iterEntries order).map Prod.fst) := by
    induction s.calls.iterEntries order with
    | nil => exact .slnil
    | cons e es ih =>
      rw [List.filterMap_cons, List.map_cons]
      cases hjob : s.jobOf e with
      | none => exact ih.cons _
      | some j =>
        have hcall : j.call = e.1 := by
          unfold jobOf at hjob
          split_ifs at hjob
          obtain ⟨cb, -, rfl⟩ := Option.map_eq_some_iff.mp hjob
          rfl
        rw [List.map_cons, hcall]
        exact ih.cons_cons _
  exact hsub.nodup (s.calls.keys_iterEntries_nodup order)

/-- What the results that were handed out have to do with the events. -/
structure Handed (cfg : LanCfg) (es : List Event) (s : Shim) : Prop where
  dispatched : s.dispatched = s.jobs.map Job.call
  nodup : (s.jobs.map Job.call).Nodup
  made : ∀ j ∈ s.jobs, ∃ pre order post, es = pre ++ .callResults order :: post ∧
    (run (step cfg) new pre).Ready j.call j.cb ∧ j.call ∉ (run (step cfg) new pre).dispatched
  served : ∀ pre order post, es = pre ++ .callResults order :: post →
    ∀ call cb, (run (step cfg) new pre).Ready call cb → call ∈ s.dispatched

theorem handed (cfg : LanCfg) (es : List Event) : Handed cfg es (run (step cfg) new es) := by
  induction es using List.reverseRecOn with
  | nil =>
    refine ⟨rfl, List.nodup_nil, ?_, ?_⟩
    · intro j hj
      exact absurd hj List.not_mem_nil
    · intro pre order post h
      exact absurd h (by simp)
  | append_singleton es e ih =>
    set s := run (step cfg) new es with hs
    have hrun : run (step cfg) new (es ++ [e]) = s.step cfg e := by
      rw [run_append, run_cons, run_nil]
    rw [hrun]
    -- the events behind a turn grow by the new one, or the turn is the new one
    have hold (j : Job) (hj : ∃ pre order post, es = pre ++ .callResults order :: post ∧
        (run (step cfg) new pre).Ready j.call j.cb ∧ j.call ∉ (run (step cfg) new pre).dispatched) :
        ∃ pre order post, es ++ [e] = pre ++ .callResults order :: post ∧
          (run (step cfg) new pre).Ready j.call j.cb ∧ j.call ∉ (run (step cfg) new pre).dispatched := by
      obtain ⟨pre, order, post, rfl, hready⟩ := hj
      exact ⟨pre, order, post ++ [e], by simp, hready⟩
    by_cases hturn : ∃ order, e = .callResults order
    · obtain ⟨order, rfl⟩ := hturn
      have hnext : s.step cfg (.callResults order) = s.dispatchHttpCallresults order := rfl
      rw [hnext]
      refine ⟨?_, ?_, ?_, ?_⟩
      · simp only [dispatchHttpCallresults, List.map_append, ih.dispatched]
      · simp only [dispatchHttpCallresults, List.map_append]
        refine List.Nodup.append ih.nodup (s.jobs_nodup order) ?_
        intro call hcall hnew
        obtain ⟨j, hj, rfl⟩ := List.mem_map.mp hnew
        exact (mem_jobs.mp hj).1 (ih.dispatched ▸ hcall)
      · intro j hj
        rcases List.mem_append.mp hj with hj | hj
        · exact hold j (ih.made j hj)
        · obtain ⟨hin, hcb, c, hc, -⟩ := mem_jobs.mp hj
          exact ⟨es, order, [], rfl, ⟨(s.calls.contains_iff _).mpr ⟨c, hc⟩, hcb⟩, hin⟩
      · intro pre order' post h call cb hready
        rcases log_split h with ⟨-, rfl, -⟩ | ⟨post', -, rfl⟩
        · by_cases hin : call ∈ s.dispatched
          · exact List.mem_append_left _ hin
          · obtain ⟨c, hc⟩ := (s.calls.contains_iff call).mp hready.1
            refine List.mem_append_right _ (List.mem_map.mpr ⟨⟨call, cb, s.completed c, c.failed⟩, ?_, rfl⟩)
            exact mem_jobs.mpr ⟨hin, hready.2, c, hc, rfl, rfl⟩
        · exact List.mem_append_left _ (ih.served pre order' post' rfl call cb hready)
    · have hno (order : List ℕ) : e ≠ .callResults order := fun h => hturn ⟨order, h⟩
      obtain ⟨hjobs, hdispatched⟩ := @step_jobs cfg s e hno
      refine ⟨?_, ?_, ?_, ?_⟩
      · rw [hdispatched, hjobs, ih.dispatched]
      · rw [hjobs]
        exact ih.nodup
      · intro j hj
        rw [hjobs] at hj
        exact hold j (ih.made j hj)
      · intro pre order' post h call cb hready
        rw [hdispatched]
        rcases log_split h with ⟨-, -, hlast⟩ | ⟨post', -, rfl⟩
        · exact absurd hlast (hno order')
        · exact ih.served pre order' post' rfl call cb hready

/-- The first turn at which a finished call has a callback registered for its result. -/
def FirstTurn (cfg : LanCfg) (es : List Event) (call cb : ℕ) : Prop :=
  ∃ pre order post, es = pre ++ .callResults order :: post ∧ (run (step cfg) new pre).Ready call cb ∧
    ∀ pre' order' post', pre = pre' ++ .callResults order' :: post' →
      ∀ cb', ¬(run (step cfg) new pre').Ready call cb'

/-- A result is handed out at most once: to the callback that is registered at the first turn that
finds the call finished and registered, and at that turn. -/
theorem results_once (cfg : LanCfg) (es : List Event) :
    ((run (step cfg) new es).jobs.map Job.call).Nodup ∧
      ∀ call cb, (∃ j ∈ (run (step cfg) new es).jobs, j.call = call ∧ j.cb = cb) ↔
        FirstTurn cfg es call cb := by
  have hall := handed cfg es
  -- what a turn has handed out was ready at an earlier one
  have hearlier {pre : List Event} {call : ℕ} (hin : call ∈ (run (step cfg) new pre).dispatched) :
      ∃ pre' order' post' cb', pre = pre' ++ .callResults order' :: post' ∧
        (run (step cfg) new pre').Ready call cb' := by
    have hpre := handed cfg pre
    rw [hpre.dispatched] at hin
    obtain ⟨j, hj, rfl⟩ := List.mem_map.mp hin
    obtain ⟨pre', order', post', heq, hready, -⟩ := hpre.made j hj
    exact ⟨pre', order', post', j.cb, heq, hready⟩
  refine ⟨hall.nodup, fun call cb => ⟨?_, ?_⟩⟩
  · rintro ⟨j, hj, rfl, rfl⟩
    obtain ⟨pre, order, post, heq, hready, hnot⟩ := hall.made j hj
    refine ⟨pre, order, post, heq, hready, fun pre' order' post' hpre cb' hready' => hnot ?_⟩
    exact (handed cfg pre).served pre' order' post' hpre j.call cb' hready'
  · rintro ⟨pre, order, post, heq, hready, hfirst⟩
    have hin := hall.served pre order post heq call cb hready
    rw [hall.dispatched] at hin
    obtain ⟨j, hj, rfl⟩ := List.mem_map.mp hin
    obtain ⟨pre', order', post', heq', hready', hnot'⟩ := hall.made j hj
    have hsplit : pre = pre' := by
      rw [heq] at heq'
      rcases List.append_eq_append_iff.mp heq' with ⟨t, hpre', ht⟩ | ⟨t, hpre, ht⟩
      · cases t with
        | nil => rw [hpre', List.append_nil]
        | cons x t =>
          obtain ⟨rfl, -⟩ := List.cons.inj ht
          exact absurd ((handed cfg pre').served pre order t hpre' j.call cb hready) hnot'
      · cases t with
        | nil => rw [hpre, List.append_nil]
        | cons x t =>
          obtain ⟨rfl, -⟩ := List.cons.inj ht
          exact absurd hready' (hfirst pre' order' t hpre j.cb)
    subst hsplit
    exact ⟨j, hj, rfl, Option.some.inj (hready'.2.symm.trans hready.2)⟩

/-! ### The counters -/

/-- What is numbered has numbers below the counters, which have not come round in `n` events. -/
structure Counted (n : ℕ) (s : Shim) : Prop where
  handle : s.nextHandle ≤ 1 + n
  call : s.nextCall ≤ 0x0BEE0001 + n
  requests : ∀ h r, s.requests.get? h = some r → h < s.nextHandle
  calls : ∀ c k, s.calls.get? c = some k → c < s.nextCall
  jobs : ∀ j ∈ s.jobs, j.call < s.nextCall

theorem get?_modifyRequest {handle h : ℕ} {f : Request → Request} :
    (s.modifyRequest handle f).requests.get? h =
      if h = handle then (s.requests.get? h).map f else s.requests.get? h := by
  unfold modifyRequest
  cases hr : s.requests.get? handle with
  | none =>
    simp only
    split_ifs with hh
    · rw [hh, hr]
      rfl
    · rfl
  | some r =>
    simp only [OrdMap.get?_insert]
    split_ifs with hh
    · rw [hh, hr]
      rfl
    · rfl

theorem Counted.modifyRequest {n : ℕ} (h : Counted n s) (handle : ℕ) (f : Request → Request) :
    Counted (n + 1) (s.modifyRequest handle f) := by
  refine ⟨Nat.le_succ_of_le h.handle, Nat.le_succ_of_le h.call, fun h' r hr => ?_, h.calls, h.jobs⟩
  rw [get?_modifyRequest] at hr
  split_ifs at hr with hh
  · obtain ⟨r', hr', -⟩ := Option.map_eq_some_iff.mp hr
    exact h.requests h' r' hr'
  · exact h.requests h' r hr

theorem Counted.step {n : ℕ} (h : Counted n s) (hn : n + 2 < 2 ^ 32) (e : Event) :
    Counted (n + 1) (s.step cfg e) := by
  have hhandle := Nat.le_succ_of_le h.handle
  have hcall := Nat.le_succ_of_le h.call
  cases e with
  | createHttp method url =>
    simp only [Shim.step, createHttp]
    split_ifs
    · exact ⟨hhandle, hcall, h.requests, h.calls, h.jobs⟩
    · have hnext : (s.nextHandle + 1) % 2 ^ 32 = s.nextHandle + 1 := by
        have := h.handle
        omega
      refine ⟨?_, hcall, ?_, h.calls, h.jobs⟩
      · simp only [hnext]
        have := h.handle
        omega
      · intro h' r hr
        simp only [OrdMap.get?_insert] at hr
        simp only [hnext]
        split_ifs at hr with hh
        · omega
        · exact Nat.lt_succ_of_lt (h.requests h' r hr)
  | setContext handle value => exact h.modifyRequest _ _
  | setHeader handle name value => exact h.modifyRequest _ _
  | setRawBody handle data => exact h.modifyRequest _ _
  | sendBegin handle =>
    simp only [Shim.step, sendBegin]
    split <;> exact ⟨hhandle, hcall, h.requests, h.calls, h.jobs⟩
  | sendEnd i o =>
    simp only [Shim.step, sendEnd]
    split
    · rename_i handle snap hsend
      have hstored := h.modifyRequest handle fun r => { r with status := o.status, response := o.body, ok := o.ok }
      have hnext : (s.nextCall + 1) % 2 ^ 64 = s.nextCall + 1 := by
        have := h.call
        omega
      refine ⟨hstored.handle, ?_, hstored.requests, ?_, ?_⟩
      · have := h.call
        change (s.nextCall + 1) % 2 ^ 64 ≤ _
        omega
      · intro c k hk
        change c < (s.nextCall + 1) % 2 ^ 64
        change (s.calls.insert s.nextCall _).get? c = some k at hk
        rw [OrdMap.get?_insert] at hk
        rw [hnext]
        split_ifs at hk with hc
        · omega
        · exact Nat.lt_succ_of_lt (h.calls c k hk)
      · intro j hj
        change j.call < (s.nextCall + 1) % 2 ^ 64
        rw [hnext]
        exact Nat.lt_succ_of_lt (h.jobs j hj)
    · exact ⟨hhandle, hcall, h.requests, h.calls, h.jobs⟩
  | release handle =>
    refine ⟨hhandle, hcall, fun h' r hr => ?_, h.calls, h.jobs⟩
    simp only [Shim.step, OrdMap.get?_erase] at hr
    split_ifs at hr
    exact h.requests h' r hr
  | regCall cb call =>
    simp only [Shim.step, regCall]
    split_ifs <;> exact ⟨hhandle, hcall, h.requests, h.calls, h.jobs⟩
  | unregCall call => exact ⟨hhandle, hcall, h.requests, h.calls, h.jobs⟩
  | regCb cb id =>
    simp only [Shim.step, regCb]
    split_ifs <;> exact ⟨hhandle, hcall, h.requests, h.calls, h.jobs⟩
  | unregCb cb =>
    simp only [Shim.step, unregCb]
    split_ifs <;> exact ⟨hhandle, hcall, h.requests, h.calls, h.jobs⟩
  | getTicket identity orig =>
    simp only [Shim.step, getTicket]
    split_ifs <;> exact ⟨hhandle, hcall, h.requests, h.calls, h.jobs⟩
  | userCallbacks ticket => exact ⟨hhandle, hcall, h.requests, h.calls, h.jobs⟩
  | callResults order =>
    refine ⟨hhandle, hcall, h.requests, h.calls, fun j hj => ?_⟩
    rcases List.mem_append.mp hj with hj | hj
    · exact h.jobs j hj
    · obtain ⟨-, -, c, hc, -⟩ := mem_jobs.mp hj
      exact h.calls j.call c hc

theorem counted (cfg : LanCfg) (es : List Event) (hlen : es.length + 1 < 2 ^ 32) :
    Counted es.length (run (step cfg) new es) := by
  induction es using List.reverseRecOn with
  | nil =>
    refine ⟨le_rfl, le_rfl, ?_, ?_, ?_⟩
    · intro h r hr
      cases hr
    · intro c k hk
      cases hk
    · intro j hj
      exact absurd hj List.not_mem_nil
  | append_singleton es e ih =>
    rw [List.length_append, List.length_singleton] at hlen ⊢
    rw [run_append, run_cons, run_nil]
    exact (ih (by omega)).step (by omega) e

/-! ### The result of a send -/

/-- The events that leave the request with this handle as it is, headers and body apart. -/
def Keeps (handle : ℕ) (s : Shim) : Event → Prop
  | .setContext h _ => h ≠ handle
  | .release h => h ≠ handle
  | .sendEnd i _ => ∀ e, s.sends[i]? = some e → e.1 ≠ handle
  | _ => True

/-- What is known of a call once its send has ended. -/
structure Ended (handle call context : ℕ) (o : Exchange) (s : Shim) : Prop where
  request : ∃ r, s.requests.get? handle = some r ∧ r.context = context ∧ r.status = o.status ∧
    r.response = o.body ∧ r.ok = o.ok
  known : s.calls.get? call = some ⟨handle, o.failed⟩
  jobs : ∀ j ∈ s.jobs, j.call = call →
    j.packed = packHttpCompleted handle context o.ok o.status o.body.length ∧ j.failed = o.failed

theorem Ended.completed {handle call context : ℕ} {o : Exchange} (h : Ended handle call context o s)
    (failed : Bool) :
    s.completed ⟨handle, failed⟩ = packHttpCompleted handle context o.ok o.status o.body.length := by
  obtain ⟨r, hr, hcontext, hstatus, hresponse, hok⟩ := h.request
  simp only [Shim.completed, hr, Option.map_some, Option.getD_some, hcontext, hstatus, hresponse, hok]

theorem Ended.modifyRequest {handle call context : ℕ} {o : Exchange} (h : Ended handle call context o s)
    {handle' : ℕ} {f : Request → Request}
    (hf : handle' = handle → ∀ r, (f r).context = r.context ∧ (f r).status = r.status ∧
      (f r).response = r.response ∧ (f r).ok = r.ok) :
    Ended handle call context o (s.modifyRequest handle' f) := by
  refine ⟨?_, h.known, h.jobs⟩
  obtain ⟨r, hr, hfields⟩ := h.request
  rw [get?_modifyRequest]
  split_ifs with hh
  · obtain ⟨h1, h2, h3, h4⟩ := hf hh.symm r
    refine ⟨f r, by rw [hr]; rfl, ?_⟩
    rw [h1, h2, h3, h4]
    exact hfields
  · exact ⟨r, hr, hfields⟩

theorem Ended.step {n handle call context : ℕ} {o : Exchange} (h : Ended handle call context o s)
    (hc : Counted n s) {e : Event} (he : Keeps handle s e) :
    Ended handle call context o (s.step cfg e) := by
  obtain ⟨r, hr, hfields⟩ := h.request
  cases e with
  | createHttp method url =>
    simp only [Shim.step, createHttp]
    split_ifs
    · exact h
    · have hne : handle ≠ s.nextHandle := ne_of_lt (hc.requests handle r hr)
      refine ⟨⟨r, ?_, hfields⟩, h.known, h.jobs⟩
      simp only [OrdMap.get?_insert, if_neg hne, hr]
  | setContext handle' value => exact h.modifyRequest fun heq => absurd heq he
  | setHeader handle' name value => exact h.modifyRequest fun _ r => ⟨rfl, rfl, rfl, rfl⟩
  | setRawBody handle' data =>
    refine h.modifyRequest fun _ r => ?_
    cases data with
    | none => exact ⟨rfl, rfl, rfl, rfl⟩
    | some bs =>
      simp only
      split_ifs <;> exact ⟨rfl, rfl, rfl, rfl⟩
  | sendBegin handle' =>
    simp only [Shim.step, sendBegin]
    split <;> exact ⟨h.request, h.known, h.jobs⟩
  | sendEnd i o' =>
    simp only [Shim.step, sendEnd]
    split
    · rename_i handle' snap hsend
      have hne : handle' ≠ handle := he (handle', snap) hsend
      have hstored := @Ended.modifyRequest s handle call context o h handle'
        (fun r => { r with status := o'.status, response := o'.body, ok := o'.ok })
        fun heq => absurd heq hne
      refine ⟨hstored.request, ?_, h.jobs⟩
      have hold : call ≠ s.nextCall := ne_of_lt (hc.calls call _ h.known)
      change (s.calls.insert s.nextCall _).get? call = _
      rw [OrdMap.get?_insert, if_neg hold, h.known]
    · exact ⟨h.request, h.known, h.jobs⟩
  | release handle' =>
    refine ⟨⟨r, ?_, hfields⟩, h.known, h.jobs⟩
    have hne : handle ≠ handle' := Ne.symm he
    simp only [Shim.step, OrdMap.get?_erase, if_neg hne, hr]
  | regCall cb call' =>
    simp only [Shim.step, regCall]
    split_ifs <;> exact ⟨h.request, h.known, h.jobs⟩
  | unregCall call' => exact ⟨h.request, h.known, h.jobs⟩
  | regCb cb id =>
    simp only [Shim.step, regCb]
    split_ifs <;> exact ⟨h.request, h.known, h.jobs⟩
  | unregCb cb =>
    simp only [Shim.step, unregCb]
    split_ifs <;> exact ⟨h.request, h.known, h.jobs⟩
  | getTicket identity orig =>
    simp only [Shim.step, getTicket]
    split_ifs <;> exact ⟨h.request, h.known, h.jobs⟩
  | userCallbacks ticket => exact ⟨h.request, h.known, h.jobs⟩
  | callResults order =>
    refine ⟨h.request, h.known, fun j hj hcall => ?_⟩
    rcases List.mem_append.mp hj with hj | hj
    · exact h.jobs j hj hcall
    · obtain ⟨-, -, c, hget, hpacked, hfailed⟩ := mem_jobs.mp hj
      rw [hcall, h.known] at hget
      obtain rfl := Option.some.inj hget
      exact ⟨hpacked.trans (h.completed _), hfailed⟩

theorem Ended.run {n handle call context : ℕ} {o : Exchange} (h : Ended handle call context o s)
    (hc : Counted n s) {es : List Event} (hn : n + es.length + 1 < 2 ^ 32)
    (hes : Along (Shim.step cfg) (Keeps handle) s es) :
    Ended handle call context o (Lib.run (Shim.step cfg) s es) := by
  induction es generalizing s n with
  | nil => exact h
  | cons e es ih =>
    rw [List.length_cons] at hn
    exact ih (h.step hc hes.1) (hc.step (by omega) e) (by omega) hes.2

end

end Shim

end GbfrLan.SteamHttp
