import GbfrLan.SteamHttp.Calls

/-!
# The listeners of the Steam callbacks

A listener is told of the connection once, until it is unregistered. A ticket goes to every listener that
is registered at the first turn behind its request, and to none of them again.
-/
namespace GbfrLan.SteamHttp
open Lib
namespace Shim

section
variable {cfg : LanCfg} {s : Shim}

/-! ### Tickets -/

theorem step_tickets {e : Event} (hget : ∀ identity orig, e ≠ .getTicket identity orig)
    (huser : ∀ ticket, e ≠ .userCallbacks ticket) :
    (s.step cfg e).pendingWebapi = s.pendingWebapi ∧ (s.step cfg e).nextTicket = s.nextTicket ∧
      (s.step cfg e).ticketRuns = s.ticketRuns := by
  cases e with
  | getTicket identity orig => exact absurd rfl (hget identity orig)
  | userCallbacks ticket => exact absurd rfl (huser ticket)
  | createHttp method url =>
    simp only [step, createHttp]
    split_ifs <;> exact ⟨rfl, rfl, rfl⟩
  | sendBegin handle =>
    simp only [step, sendBegin]
    split <;> exact ⟨rfl, rfl, rfl⟩
  | sendEnd i o =>
    simp only [step, sendEnd]
    split <;> exact ⟨rfl, rfl, rfl⟩
  | regCall cb call =>
    simp only [step, regCall]
    split_ifs <;> exact ⟨rfl, rfl, rfl⟩
  | regCb cb id =>
    simp only [step, regCb]
    split_ifs <;> exact ⟨rfl, rfl, rfl⟩
  | unregCb cb =>
    simp only [step, unregCb]
    split_ifs <;> exact ⟨rfl, rfl, rfl⟩
  | _ => exact ⟨rfl, rfl, rfl⟩

/-- The tickets that wait and those that were handed out are different ones, made by the counter. -/
structure Issued (n : ℕ) (s : Shim) : Prop where
  next : s.nextTicket ≤ 1 + n
  pending : ∀ t ∈ s.pendingWebapi, t < s.nextTicket
  nodup : s.pendingWebapi.Nodup
  runs : ∀ r ∈ s.ticketRuns, r.handle < s.nextTicket ∧ r.handle ∉ s.pendingWebapi

/-- What a turn makes of the tickets that wait. -/
def ticketTurn (s : Shim) (ticket : List UInt8) : List TicketRun :=
  s.pendingWebapi.flatMap fun handle => (s.listeners cbTicketForWebapi).map fun cb =>
    ⟨handle, cb, packWebapiTicket handle ticket webapiTicketMax⟩

theorem mem_ticketTurn {ticket : List UInt8} {r : TicketRun} (h : r ∈ s.ticketTurn ticket) :
    r.handle ∈ s.pendingWebapi := by
  obtain ⟨handle, hmem, hr⟩ := List.mem_flatMap.mp h
  obtain ⟨cb, -, rfl⟩ := List.mem_map.mp hr
  exact hmem

theorem getTicket_eq {identity : String} {orig : Option ℕ} (h : stubsTicket identity orig = true) :
    s.getTicket identity orig = { s with
      nextTicket := (s.nextTicket + 1) % 2 ^ 32
      pendingWebapi := s.pendingWebapi ++ [s.nextTicket] } := if_pos h

theorem Issued.getTicket {n : ℕ} (h : Issued n s) (hn : n + 2 < 2 ^ 32) {identity : String}
    {orig : Option ℕ} (hstub : stubsTicket identity orig = true) :
    Issued (n + 1) (s.getTicket identity orig) := by
  rw [getTicket_eq hstub]
  have hnext : (s.nextTicket + 1) % 2 ^ 32 = s.nextTicket + 1 := by
    have := h.next
    omega
  refine ⟨?_, ?_, ?_, ?_⟩
  · simp only [hnext]
    have := h.next
    omega
  · intro t ht
    simp only [hnext]
    rcases List.mem_append.mp ht with ht | ht
    · exact Nat.lt_succ_of_lt (h.pending t ht)
    · rw [List.mem_singleton.mp ht]
      exact Nat.lt_succ_self _
  · refine List.Nodup.append h.nodup (List.nodup_singleton _) ?_
    intro t ht ht'
    have hlt := h.pending t ht
    rw [List.mem_singleton.mp ht'] at hlt
    omega
  · intro r hr
    obtain ⟨hlt, hnot⟩ := h.runs r hr
    simp only [hnext]
    refine ⟨Nat.lt_succ_of_lt hlt, fun hmem => ?_⟩
    rcases List.mem_append.mp hmem with hmem | hmem
    · exact hnot hmem
    · rw [List.mem_singleton.mp hmem] at hlt
      omega

theorem Issued.step {n : ℕ} (h : Issued n s) (hn : n + 2 < 2 ^ 32) (e : Event) :
    Issued (n + 1) (s.step cfg e) := by
  have hnext := Nat.le_succ_of_le h.next
  by_cases hget : ∃ identity orig, e = .getTicket identity orig
  · obtain ⟨identity, orig, rfl⟩ := hget
    by_cases hstub : stubsTicket identity orig = true
    · exact h.getTicket hn hstub
    · have hsame : s.step cfg (.getTicket identity orig) = s := if_neg hstub
      rw [hsame]
      exact ⟨hnext, h.pending, h.nodup, h.runs⟩
  · by_cases huser : ∃ ticket, e = .userCallbacks ticket
    · obtain ⟨ticket, rfl⟩ := huser
      refine ⟨hnext, fun t ht => absurd ht List.not_mem_nil, List.nodup_nil, fun r hr => ?_⟩
      refine ⟨?_, List.not_mem_nil⟩
      rcases List.mem_append.mp hr with hr | hr
      · exact (h.runs r hr).1
      · exact h.pending _ (@mem_ticketTurn s ticket r hr)
    · obtain ⟨hpending, hcounter, hruns⟩ := @step_tickets cfg s e
        (fun identity orig heq => hget ⟨identity, orig, heq⟩) fun ticket heq => huser ⟨ticket, heq⟩
      refine ⟨?_, ?_, ?_, ?_⟩
      · rw [hcounter]
        exact hnext
      · rw [hpending, hcounter]
        exact h.pending
      · rw [hpending]
        exact h.nodup
      · rw [hpending, hcounter, hruns]
        exact h.runs

theorem Issued.run {n : ℕ} (h : Issued n s) {es : List Event} (hn : n + es.length + 1 < 2 ^ 32) :
    Issued (n + es.length) (Lib.run (Shim.step cfg) s es) := by
  induction es generalizing s n with
  | nil => exact h
  | cons e es ih =>
    rw [List.length_cons] at hn
    have hrest := ih (@Issued.step cfg s n h (by omega) e) (by omega)
    rw [run_cons, List.length_cons]
    rwa [Nat.add_assoc, Nat.add_comm 1] at hrest

theorem issued_new : Issued 0 new := by
  refine ⟨le_rfl, ?_, List.nodup_nil, ?_⟩
  · intro t ht
    exact absurd ht List.not_mem_nil
  · intro r hr
    exact absurd hr List.not_mem_nil

/-- A ticket that waits does so until the next turn. -/
theorem waits {t : ℕ} (h : t ∈ s.pendingWebapi) {es : List Event}
    (hes : ∀ e ∈ es, ∀ ticket, e ≠ .userCallbacks ticket) :
    t ∈ (Lib.run (step cfg) s es).pendingWebapi := by
  refine @run_invariant_mem _ _ (step cfg) (fun e => ∀ ticket, e ≠ .userCallbacks ticket)
    (fun s => t ∈ s.pendingWebapi) ?_ s es h hes
  intro s e hs huser
  by_cases hget : ∃ identity orig, e = .getTicket identity orig
  · obtain ⟨identity, orig, rfl⟩ := hget
    simp only [step, Shim.getTicket]
    split_ifs
    · exact List.mem_append_left _ hs
    · exact hs
  · rw [(@step_tickets cfg s e (fun identity orig heq => hget ⟨identity, orig, heq⟩) huser).1]
    exact hs

/-- What was handed out of a ticket. -/
def handedOut (s : Shim) (t : ℕ) : List TicketRun := s.ticketRuns.filter fun r => r.handle = t

theorem filter_flatMap_single {A B : Type} [DecidableEq A] (f : A → List B) (key : B → A)
    (hkey : ∀ a, ∀ b ∈ f a, key b = a) {as : List A} {a : A} (hmem : a ∈ as) (hnodup : as.Nodup) :
    (as.flatMap f).filter (fun b => key b = a) = f a := by
  have hpart (a' : A) : (f a').filter (fun b => key b = a) = if a' = a then f a else [] := by
    split_ifs with heq
    · rw [heq]
      exact List.filter_eq_self.mpr fun b hb => decide_eq_true (hkey a b hb)
    · refine List.filter_eq_nil_iff.mpr fun b hb => ?_
      rw [hkey a' b hb]
      simpa using heq
  induction as with
  | nil => exact absurd hmem List.not_mem_nil
  | cons a' as ih =>
    obtain ⟨hnot, hnodup⟩ := List.nodup_cons.mp hnodup
    rw [List.flatMap_cons, List.filter_append, hpart]
    rcases List.mem_cons.mp hmem with rfl | hmem
    · have hnone : (as.flatMap f).filter (fun b => key b = a) = [] := by
        refine List.filter_eq_nil_iff.mpr fun b hb => ?_
        obtain ⟨a', ha', hb⟩ := List.mem_flatMap.mp hb
        rw [hkey a' b hb]
        rintro heq
        exact hnot (of_decide_eq_true heq ▸ ha')
      rw [if_pos rfl, hnone, List.append_nil]
    · have hne : a' ≠ a := by
        rintro rfl
        exact hnot hmem
      rw [if_neg hne, List.nil_append, ih hmem hnodup]

/-- The turn that hands a ticket out. -/
theorem handedOut_turn {n t : ℕ} (h : Issued n s) (ht : t ∈ s.pendingWebapi) (ticket : List UInt8) :
    (s.dispatchSteamUserCallbacks ticket).handedOut t =
      (s.listeners cbTicketForWebapi).map fun cb =>
        ⟨t, cb, packWebapiTicket t ticket webapiTicketMax⟩ := by
  have hold : s.ticketRuns.filter (fun r => r.handle = t) = [] := by
    refine List.filter_eq_nil_iff.mpr fun r hr heq => ?_
    exact (h.runs r hr).2 (of_decide_eq_true heq ▸ ht)
  change (s.ticketRuns ++ s.ticketTurn ticket).filter (fun r => r.handle = t) = _
  rw [List.filter_append, hold, List.nil_append]
  refine filter_flatMap_single _ TicketRun.handle ?_ ht h.nodup
  intro handle r hr
  obtain ⟨cb, -, rfl⟩ := List.mem_map.mp hr
  rfl

/-- A ticket that was handed out stays so. -/
theorem handedOut_run {n t : ℕ} (h : Issued n s) (hlt : t < s.nextTicket) (ht : t ∉ s.pendingWebapi)
    {es : List Event} (hn : n + es.length + 1 < 2 ^ 32) :
    (Lib.run (step cfg) s es).handedOut t = s.handedOut t := by
  induction es generalizing s n with
  | nil => rfl
  | cons e es ih =>
    rw [List.length_cons] at hn
    have hstep : (s.step cfg e).handedOut t = s.handedOut t ∧ t < (s.step cfg e).nextTicket ∧
        t ∉ (s.step cfg e).pendingWebapi := by
      by_cases hget : ∃ identity orig, e = .getTicket identity orig
      · obtain ⟨identity, orig, rfl⟩ := hget
        by_cases hstub : stubsTicket identity orig = true
        · have hnext := h.next
          have heq : s.step cfg (.getTicket identity orig) = _ := @getTicket_eq s identity orig hstub
          rw [heq]
          refine ⟨rfl, ?_, fun hmem => ?_⟩
          · simp only
            omega
          · rcases List.mem_append.mp hmem with hmem | hmem
            · exact ht hmem
            · exact absurd (List.mem_singleton.mp hmem) (ne_of_lt hlt)
        · have hsame : s.step cfg (.getTicket identity orig) = s := if_neg hstub
          rw [hsame]
          exact ⟨rfl, hlt, ht⟩
      · by_cases huser : ∃ ticket, e = .userCallbacks ticket
        · obtain ⟨ticket, rfl⟩ := huser
          refine ⟨?_, hlt, List.not_mem_nil⟩
          have hnone : (s.ticketTurn ticket).filter (fun r => r.handle = t) = [] := by
            refine List.filter_eq_nil_iff.mpr fun r hr heq => ?_
            exact ht (of_decide_eq_true heq ▸ mem_ticketTurn hr)
          change (s.ticketRuns ++ s.ticketTurn ticket).filter (fun r => r.handle = t) = _
          rw [List.filter_append, hnone, List.append_nil]
          rfl
        · obtain ⟨hpending, hcounter, hruns⟩ := @step_tickets cfg s e
            (fun identity orig heq => hget ⟨identity, orig, heq⟩) fun ticket heq => huser ⟨ticket, heq⟩
          rw [handedOut, hpending, hcounter, hruns]
          exact ⟨rfl, hlt, ht⟩
    rw [run_cons, ih (h.step (by omega) e) hstep.2.1 hstep.2.2 (by omega), hstep.1]

/-- A ticket is handed to each listener that is registered at the first turn behind its request, once for
each registration, and to no other one at any time. -/
theorem ticket_delivered (cfg : LanCfg) (es mid post : List Event) (identity : String) (orig : Option ℕ)
    (ticket : List UInt8) (hlen : es.length + mid.length + post.length + 3 < 2 ^ 32)
    (hstub : stubsTicket identity orig = true) (hmid : ∀ e ∈ mid, ∀ ticket, e ≠ .userCallbacks ticket) :
    let t := (Lib.run (step cfg) new es).nextTicket
    let before := Lib.run (step cfg) new (es ++ .getTicket identity orig :: mid)
    (Lib.run (step cfg) new (es ++ .getTicket identity orig :: mid ++ .userCallbacks ticket :: post)).handedOut t =
      (before.listeners cbTicketForWebapi).map fun cb =>
        ⟨t, cb, packWebapiTicket t ticket webapiTicketMax⟩ := by
  intro t before
  have hnew := issued_new
  have hbefore : Issued (es.length + mid.length + 1) before := by
    have hrun := @Issued.run cfg new 0 hnew (es ++ .getTicket identity orig :: mid) (by
      rw [List.length_append, List.length_cons]
      omega)
    rw [List.length_append, List.length_cons, Nat.zero_add, ← Nat.add_assoc] at hrun
    exact hrun
  have hwait : t ∈ before.pendingWebapi := by
    have hsplit : before = Lib.run (step cfg) ((Lib.run (step cfg) new es).getTicket identity orig) mid := by
      rw [← show Lib.run (step cfg) new (es ++ .getTicket identity orig :: mid) = before from rfl, run_append,
        run_cons]
      rfl
    rw [hsplit]
    refine waits ?_ hmid
    rw [getTicket_eq hstub]
    exact List.mem_append_right _ (List.mem_singleton_self _)
  have hturn := handedOut_turn hbefore hwait ticket
  have hafter := @Issued.step cfg before _ hbefore (by omega) (.userCallbacks ticket)
  rw [run_append, run_cons]
  have hrest := @handedOut_run cfg (before.dispatchSteamUserCallbacks ticket) _ t hafter
    (hbefore.pending t hwait) List.not_mem_nil post (by omega)
  exact hrest.trans hturn

end

/-- Two listeners, one of them registered only behind the request, and a third one that comes too late. -/
theorem lateListener_delivered :
    (Lib.run (step ⟨"lan", 8080⟩) new
      ([.regCb 5 168] ++ .getTicket "playfab_services" (some 77) :: [.regCb 6 168] ++
        .userCallbacks [1, 2] :: [.regCb 7 168, .userCallbacks [3]])).handedOut 1 =
      [⟨1, 5, packWebapiTicket 1 [1, 2] 2560⟩, ⟨1, 6, packWebapiTicket 1 [1, 2] 2560⟩] := by
  refine (ticket_delivered ⟨"lan", 8080⟩ [.regCb 5 168] [.regCb 6 168] [.regCb 7 168, .userCallbacks [3]]
    "playfab_services" (some 77) [1, 2] (by decide) (by decide) ?_).trans rfl
  intro e he ticket
  rw [List.mem_singleton.mp he]
  exact Event.noConfusion

/-! ### The connection -/

section
variable {cfg : LanCfg} {s : Shim}

end

end Shim

end GbfrLan.SteamHttp
