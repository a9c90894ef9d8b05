import GbfrLan.Party.Waiting

/-!
# The order of the replay

A message frame goes to the receiver of its endpoint at once, when no frame waits in front of it,
or waits in its box until the replay loop hands it over or a full buffer drops it. Frames join at
the back and leave at the front. So the frames that have left, in the order in which they did, and
then those that wait, are the frames that have arrived.
-/
namespace GbfrLan.Party
open Lib

/-- How a frame has left. -/
inductive Removal where
  | handed (f : PendingRx)
  | evicted (f : PendingRx)
  deriving DecidableEq, Repr

namespace Removal

def frame : Removal → PendingRx
  | handed f => f
  | evicted f => f

def handed? : Removal → Option PendingRx
  | handed f => some f
  | evicted _ => none

theorem handed?_eq_some {x : Removal} {f : PendingRx} (h : x.handed? = some f) : x.frame = f := by
  cases x with
  | handed g => exact Option.some.inj h
  | evicted g => cases h

/-- What was handed over is a part of what has left, in its order. -/
theorem filterMap_sublist (xs : List Removal) :
    (xs.filterMap handed?).Sublist (xs.map frame) := by
  induction xs with
  | nil => exact .slnil
  | cons x xs ih =>
    cases x with
    | handed f => exact ih.cons_cons f
    | evicted f => exact ih.cons f

@[simp] theorem filterMap_handed (fs : List PendingRx) :
    (fs.map handed).filterMap handed? = fs := by
  rw [List.filterMap_map]
  exact List.filterMap_some

@[simp] theorem filterMap_evicted (fs : List PendingRx) :
    (fs.map evicted).filterMap handed? = [] := by
  rw [List.filterMap_map]
  exact List.filterMap_eq_nil_iff.mpr fun _ _ => rfl

@[simp] theorem map_frame_handed (fs : List PendingRx) : (fs.map handed).map frame = fs := by
  rw [List.map_map]
  exact List.map_id fs

@[simp] theorem map_frame_evicted (fs : List PendingRx) : (fs.map evicted).map frame = fs := by
  rw [List.map_map]
  exact List.map_id fs

end Removal

namespace Handle

/-! ### What a turn does with frames -/

/-- The frames that the replay loop hands over. -/
def replayed (net now : ℕ) : ℕ → Handle → List PendingRx
  | 0, _ => []
  | fuel + 1, h =>
      match (h.boxes.get? net).bind Network.nextFrame with
      | none => []
      | some (f, _) => f :: replayed net now fuel (h.replay net now)

/-- The frames that `flushPendingRx` hands over. -/
def flushed (h : Handle) (net now : ℕ) : List PendingRx :=
  replayed net now (((h.boxes.get? net).map fun n => n.pendingRx.length).getD 0) h

/-- The message frame that arrives on a network with a socket. -/
def arrives (net : ℕ) (h : Handle) : Turn → List PendingRx
  | .recv k p _ _ _ =>
      match h.boxes.get? k with
      | none => []
      | some n => if k = net ∧ n.udp = true ∧ p.kind = kindMsg then [p.frame] else []
  | _ => []

/-- The frames that go to `deliverReliable` on a network: directly, and out of the loop. -/
def hands (net : ℕ) (h : Handle) : Turn → List PendingRx
  | .recv k p srcIp srcPort now =>
      match h.boxes.get? k with
      | none => []
      | some n =>
          if k = net ∧ n.udp = true then
            let r := n.receive p srcIp srcPort
            r.2.toList ++
              if p.kind == kindMsg && r.1.ready p.entity && r.2.isNone then
                (h.recv k p srcIp srcPort now).flushed k now
              else []
          else []
  | .flush k now => if k = net then h.flushed k now else []
  | _ => []

/-- The oldest frame, when a full buffer drops it for one that cannot be handed over. -/
def evicts (net : ℕ) (h : Handle) : Turn → List PendingRx
  | .recv k p _ _ _ =>
      match h.boxes.get? k with
      | none => []
      | some n =>
          if k = net ∧ n.udp = true ∧ p.kind = kindMsg ∧ n.ready p.entity = false ∧
              pendingRxCap ≤ n.pendingRx.length then n.pendingRx.head?.toList
          else []
  | _ => []

/-- The frames that leave. -/
def removes (net : ℕ) (h : Handle) (t : Turn) : List Removal :=
  (evicts net h t).map .evicted ++ (hands net h t).map .handed

/-- What the turns of a run tell, in their order. -/
def told {A : Type} (tell : Handle → Turn → List A) : Handle → List Turn → List A
  | _, [] => []
  | h, t :: ts => tell h t ++ told tell (h.turn t) ts

variable {h : Handle} {net now : ℕ}

/-! ### The replay loop -/

/-- The loop hands over the frames at the front. -/
theorem replayed_append (net now fuel : ℕ) (h : Handle) :
    replayed net now fuel h ++ (replayLoop net now fuel h).rxAt net = h.rxAt net := by
  induction fuel generalizing h with
  | zero => rfl
  | succ fuel ih =>
    unfold replayed replayLoop
    cases hnext : (h.boxes.get? net).bind Network.nextFrame with
    | none => rfl
    | some x =>
      obtain ⟨n, hget, hn⟩ := Option.bind_eq_some_iff.mp hnext
      rcases nextFrame_cases n with hnone | ⟨f, rest, hrx, hr, hf⟩
      · rw [hnone] at hn
        cases hn
      · obtain rfl := Option.some.inj (hf.symm.trans hn)
        have hrest := ih (h.replay net now)
        rw [replay_rxAt hget hrx hr now net, if_pos rfl] at hrest
        simp only [List.cons_append]
        rw [hrest, rxAt_eq hget, hrx]

/-- It does not touch the other networks. -/
theorem replayLoop_rxAt_of_ne (net now fuel : ℕ) (h : Handle) {k : ℕ} (hk : k ≠ net) :
    (replayLoop net now fuel h).rxAt k = h.rxAt k := by
  induction fuel generalizing h with
  | zero => rfl
  | succ fuel ih =>
    unfold replayLoop
    cases hnext : (h.boxes.get? net).bind Network.nextFrame with
    | none => rfl
    | some x =>
      obtain ⟨n, hget, hn⟩ := Option.bind_eq_some_iff.mp hnext
      rcases nextFrame_cases n with hnone | ⟨f, rest, hrx, hr, -⟩
      · rw [hnone] at hn
        cases hn
      · simp only
        rw [ih, replay_rxAt hget hrx hr now k, if_neg hk]

/-- Take the first frame out of a box and hand it over. -/
def handOver (net now : ℕ) (h : Handle) (f : PendingRx) : Handle :=
  (h.modifyBox net fun n => { n with pendingRx := n.pendingRx.tail }).deliverReliable net f now

/-- The loop is one call of `deliverReliable` for each of these frames. -/
theorem replayLoop_eq_foldl (net now fuel : ℕ) (h : Handle) :
    replayLoop net now fuel h = (replayed net now fuel h).foldl (handOver net now) h := by
  induction fuel generalizing h with
  | zero => rfl
  | succ fuel ih =>
    unfold replayed replayLoop
    cases hnext : (h.boxes.get? net).bind Network.nextFrame with
    | none => rfl
    | some x =>
      obtain ⟨n, hget, hn⟩ := Option.bind_eq_some_iff.mp hnext
      rcases nextFrame_cases n with hnone | ⟨f, rest, hrx, hr, hf⟩
      · rw [hnone] at hn
        cases hn
      · obtain rfl := Option.some.inj (hf.symm.trans hn)
        have hone : h.replay net now = handOver net now h f := by
          unfold replay handOver modifyBox
          rw [hnext, hget]
          simp only [hrx, List.tail_cons]
        simp only [List.foldl_cons]
        rw [ih, hone]

theorem flushed_append (h : Handle) (net now : ℕ) :
    h.flushed net now ++ (h.flushPendingRx net now).rxAt net = h.rxAt net :=
  replayed_append net now _ h

theorem flushPendingRx_rxAt_of_ne (h : Handle) (net now : ℕ) {k : ℕ} (hk : k ≠ net) :
    (h.flushPendingRx net now).rxAt k = h.rxAt k := replayLoop_rxAt_of_ne net now _ h hk

/-! ### One turn -/

/-- What waits on a network, with what arrives, is what leaves and then what waits behind the
turn. -/
def Balanced (net : ℕ) (h : Handle) (t : Turn) : Prop :=
  h.rxAt net ++ arrives net h t = (removes net h t).map Removal.frame ++ (h.turn t).rxAt net

theorem balanced_of_quiet {t : Turn} (harrives : arrives net h t = []) (hhands : hands net h t = [])
    (hevicts : evicts net h t = []) (hrx : (h.turn t).rxAt net = h.rxAt net) : Balanced net h t := by
  rw [Balanced, removes, harrives, hhands, hevicts, hrx]
  exact List.append_nil _

section
variable {n : Network} {p : Packet} {srcIp : String} {srcPort : UInt16} {k : ℕ}

theorem recvDatagram_rxAt_of_ne (hk : net ≠ k) :
    (h.recvDatagram k p srcIp srcPort now).rxAt net = h.rxAt net := by
  cases hget : h.boxes.get? k with
  | none => rw [recvDatagram_closed (.inl hget)]
  | some n =>
    cases hudp : n.udp with
    | false => rw [recvDatagram_closed (.inr ⟨n, hget, hudp⟩)]
    | true =>
    by_cases hmsg : p.kind = kindMsg
    · cases hr : n.ready p.entity with
      | false => rw [recvDatagram_unready hget hudp hmsg hr, rxAt_setBox, if_neg hk]
      | true =>
        by_cases hnil : n.pendingRx = []
        · rw [recvDatagram_direct hget hudp hmsg hr hnil, deliverReliable_rxAt, rxAt_setBox, if_neg hk]
        · rw [recvDatagram_behind hget hudp hmsg hr hnil, flushPendingRx_rxAt_of_ne _ _ _ hk,
            rxAt_setBox, if_neg hk]
    · rw [recvDatagram_other hget hudp hmsg, rxAt_setBox, if_neg hk]

/-- A datagram without a socket to read it from, or of another network. -/
theorem balanced_recv_elsewhere
    (hno : net ≠ k ∨ h.boxes.get? k = none ∨ ∃ n, h.boxes.get? k = some n ∧ n.udp = false) :
    Balanced net h (.recv k p srcIp srcPort now) := by
  have hrx : (h.recvDatagram k p srcIp srcPort now).rxAt net = h.rxAt net := by
    rcases hno with hk | hclosed
    · exact recvDatagram_rxAt_of_ne hk
    · rw [recvDatagram_closed hclosed]
  refine balanced_of_quiet ?_ ?_ ?_ hrx
  all_goals
    rcases hno with hk | hget | ⟨n, hget, hudp⟩
    · cases hget : h.boxes.get? k <;> simp [arrives, hands, evicts, hget, Ne.symm hk]
    · simp [arrives, hands, evicts, hget]
    · simp [arrives, hands, evicts, hget, hudp]

theorem evicts_ready (hget : h.boxes.get? net = some n) (hr : n.ready p.entity = true) :
    evicts net h (.recv net p srcIp srcPort now) = [] := by
  simp [evicts, hget, hr]

variable (hget : h.boxes.get? net = some n) (hudp : n.udp = true)
include hget hudp

theorem balanced_recv_other (hk : p.kind ≠ kindMsg) :
    Balanced net h (.recv net p srcIp srcPort now) := by
  have hreceive : n.receive p srcIp srcPort = _ := Network.receive_other hk
  refine balanced_of_quiet ?_ ?_ ?_ ?_
  · simp [arrives, hget, hk]
  · simp [hands, hget, hreceive, hk]
  · simp [evicts, hget, hk]
  · show (h.recvDatagram net p srcIp srcPort now).rxAt net = _
    rw [recvDatagram_other hget hudp hk, rxAt_setBox, if_pos rfl, rxAt_eq hget]
    exact Network.noted_pendingRx

theorem arrives_recv (hk : p.kind = kindMsg) :
    arrives net h (.recv net p srcIp srcPort now) = [p.frame] := by
  simp [arrives, hget, hudp, hk]

/-- The frame joins at the back, and a full buffer drops the one at the front. -/
theorem balanced_recv_unready (hk : p.kind = kindMsg) (hr : n.ready p.entity = false) :
    Balanced net h (.recv net p srcIp srcPort now) := by
  have hreceive : n.receive p srcIp srcPort = _ := Network.receive_unready hk hr
  have hready : (n.receive p srcIp srcPort).1.ready p.entity = false := by
    rw [hreceive]
    exact (Network.noted_ready _).trans hr
  have hhands : hands net h (.recv net p srcIp srcPort now) = [] := by
    have hnone : (n.receive p srcIp srcPort).2 = none := by rw [hreceive]
    simp [hands, hget, hudp, hready, hnone]
  have hturn : (h.turn (.recv net p srcIp srcPort now)).rxAt net =
      (if pendingRxCap ≤ n.pendingRx.length then n.pendingRx.tail else n.pendingRx) ++ [p.frame] := by
    show (h.recvDatagram net p srcIp srcPort now).rxAt net = _
    rw [recvDatagram_unready hget hudp hk hr, rxAt_setBox, if_pos rfl]
    simp [Network.bufferFrame]
  rw [Balanced, arrives_recv hget hudp hk, removes, hhands, hturn, rxAt_eq hget, List.map_nil,
    List.append_nil, Removal.map_frame_evicted]
  by_cases hfull : pendingRxCap ≤ n.pendingRx.length
  · have hevicts : evicts net h (.recv net p srcIp srcPort now) = n.pendingRx.head?.toList := by
      simp [evicts, hget, hudp, hk, hr, hfull]
    rw [hevicts, if_pos hfull]
    cases n.pendingRx with
    | nil => rfl
    | cons f rest => rfl
  · have hevicts : evicts net h (.recv net p srcIp srcPort now) = [] := by
      simp only [evicts, hget]
      rw [if_neg]
      exact fun hall => hfull hall.2.2.2.2
    rw [hevicts, if_neg hfull]
    rfl

/-- No frame waits, and the one that arrives is handed over. -/
theorem balanced_recv_direct (hk : p.kind = kindMsg) (hr : n.ready p.entity = true)
    (hnil : n.pendingRx = []) : Balanced net h (.recv net p srcIp srcPort now) := by
  have hreceive : n.receive p srcIp srcPort = _ := Network.receive_ready hk hr
  rw [if_pos hnil] at hreceive
  have hhands : hands net h (.recv net p srcIp srcPort now) = [p.frame] := by
    simp [hands, hget, hudp, hreceive]
  have hturn : (h.turn (.recv net p srcIp srcPort now)).rxAt net = [] := by
    show (h.recvDatagram net p srcIp srcPort now).rxAt net = _
    rw [recvDatagram_direct hget hudp hk hr hnil, deliverReliable_rxAt, rxAt_setBox, if_pos rfl,
      Network.noted_pendingRx, hnil]
  rw [Balanced, arrives_recv hget hudp hk, removes, evicts_ready hget hr, hhands, hturn,
    rxAt_eq hget, hnil]
  rfl

/-- The frame joins at the back, and the loop hands over what it can from the front. -/
theorem balanced_recv_behind (hk : p.kind = kindMsg) (hr : n.ready p.entity = true)
    (hne : n.pendingRx ≠ []) : Balanced net h (.recv net p srcIp srcPort now) := by
  have hreceive : n.receive p srcIp srcPort = _ := Network.receive_ready hk hr
  rw [if_neg hne] at hreceive
  set m : Network := { n.noted p srcIp srcPort with pendingRx := n.pendingRx ++ [p.frame] } with hm
  have hready : m.ready p.entity = true := by
    have hnoted : (n.noted p srcIp srcPort).ready p.entity = n.ready p.entity :=
      Network.noted_ready p.entity
    exact hnoted.trans hr
  set h₁ : Handle := { h with boxes := h.boxes.insert net m } with hh₁
  have hrecv : h.recv net p srcIp srcPort now = h₁ := by
    simp [recv, hget, hudp, hreceive, hh₁]
  have hhands : hands net h (.recv net p srcIp srcPort now) = h₁.flushed net now := by
    simp [hands, hget, hudp, hreceive, hk, hready, hrecv]
  have hturn : (h.turn (.recv net p srcIp srcPort now)).rxAt net =
      (h₁.flushPendingRx net now).rxAt net := by
    show (h.recvDatagram net p srcIp srcPort now).rxAt net = _
    rw [recvDatagram_behind hget hudp hk hr hne]
  have hrx : h₁.rxAt net = n.pendingRx ++ [p.frame] := by
    rw [hh₁, rxAt_setBox, if_pos rfl]
  rw [Balanced, arrives_recv hget hudp hk, removes, evicts_ready hget hr, hhands, hturn,
    rxAt_eq hget, List.map_nil, List.nil_append, Removal.map_frame_handed, flushed_append, hrx]

end

theorem balanced_turn (hn : h.Numbered) (net : ℕ) (t : Turn) : Balanced net h t := by
  cases t with
  | whole e he => exact balanced_of_quiet rfl rfl rfl (step_rxAt hn he net)
  | recv k p srcIp srcPort now =>
    by_cases hk : net = k
    · subst hk
      cases hget : h.boxes.get? net with
      | none => exact balanced_recv_elsewhere (.inr (.inl hget))
      | some n =>
        cases hudp : n.udp with
        | false => exact balanced_recv_elsewhere (.inr (.inr ⟨n, hget, hudp⟩))
        | true =>
        by_cases hmsg : p.kind = kindMsg
        · cases hr : n.ready p.entity with
          | false => exact balanced_recv_unready hget hudp hmsg hr
          | true =>
            by_cases hnil : n.pendingRx = []
            · exact balanced_recv_direct hget hudp hmsg hr hnil
            · exact balanced_recv_behind hget hudp hmsg hr hnil
        · exact balanced_recv_other hget hudp hmsg
    · exact balanced_recv_elsewhere (.inl hk)
  | flush k now =>
    by_cases hk : net = k
    · subst hk
      have hhands : hands net h (.flush net now) = h.flushed net now := if_pos rfl
      rw [Balanced, removes, hhands, show arrives net h (.flush net now) = [] from rfl,
        show evicts net h (.flush net now) = [] from rfl, List.append_nil, List.map_nil,
        List.nil_append, Removal.map_frame_handed]
      exact (h.flushed_append net now).symm
    · exact balanced_of_quiet rfl (if_neg (Ne.symm hk)) rfl (h.flushPendingRx_rxAt_of_ne k now hk)
  | drainPeers k member =>
    exact balanced_of_quiet rfl rfl rfl (drainPeersLoop_rxAt k member _ h net)

/-! ### Whole runs -/

theorem told_balanced (hn : h.Numbered) (net : ℕ) (ts : List Turn) :
    h.rxAt net ++ told (arrives net) h ts =
      (told (removes net) h ts).map Removal.frame ++ (run Handle.turn h ts).rxAt net := by
  induction ts generalizing h with
  | nil => exact List.append_nil _
  | cons t ts ih =>
    have hturn := balanced_turn hn net t
    rw [Balanced] at hturn
    rw [told, told, run_cons, ← List.append_assoc, hturn, List.append_assoc, ih (hn.turn t),
      List.map_append, List.append_assoc]

/-- What was handed over, out of what has left. -/
theorem told_hands (net : ℕ) (h : Handle) (ts : List Turn) :
    told (hands net) h ts = (told (removes net) h ts).filterMap Removal.handed? := by
  induction ts generalizing h with
  | nil => rfl
  | cons t ts ih =>
    rw [told, told, List.filterMap_append, ← ih, removes, List.filterMap_append,
      Removal.filterMap_evicted, Removal.filterMap_handed, List.nil_append]

/-- A run has come to a turn before which this frame was the first of a full buffer. -/
def EvictedOldest (net : ℕ) (h : Handle) (ts : List Turn) (f : PendingRx) : Prop :=
  ∃ us t vs n, ts = us ++ t :: vs ∧ (run Handle.turn h us).boxes.get? net = some n ∧
    pendingRxCap ≤ n.pendingRx.length ∧ n.pendingRx.head? = some f ∧
    evicts net (run Handle.turn h us) t = [f]

theorem evicts_cases {t : Turn} {f : PendingRx} (hf : f ∈ evicts net h t) :
    ∃ n, h.boxes.get? net = some n ∧ pendingRxCap ≤ n.pendingRx.length ∧
      n.pendingRx.head? = some f ∧ evicts net h t = [f] := by
  cases t with
  | whole e he => cases hf
  | flush k now => cases hf
  | drainPeers k member => cases hf
  | recv k p srcIp srcPort now =>
    cases hget : h.boxes.get? k with
    | none => simp [evicts, hget] at hf
    | some n =>
      simp only [evicts, hget] at hf ⊢
      split_ifs at hf ⊢ with hall
      · obtain ⟨rfl, -, -, -, hfull⟩ := hall
        have hhead : n.pendingRx.head? = some f := by simpa using hf
        exact ⟨n, hget, hfull, hhead, by rw [hhead]; rfl⟩
      · cases hf

theorem evictedOldest_of_mem {ts : List Turn} {f : PendingRx}
    (hf : .evicted f ∈ told (removes net) h ts) : EvictedOldest net h ts f := by
  induction ts generalizing h with
  | nil => cases hf
  | cons t ts ih =>
    rcases List.mem_append.mp hf with hnow | hlater
    · have hmem : f ∈ evicts net h t := by simpa [removes] using hnow
      obtain ⟨n, hget, hfull, hhead, hout⟩ := evicts_cases hmem
      exact ⟨[], t, ts, n, rfl, hget, hfull, hhead, hout⟩
    · obtain ⟨us, u, vs, n, rfl, hrest⟩ := ih hlater
      exact ⟨t :: us, u, vs, n, rfl, hrest⟩

/-- In every run the frames that are handed over on a network come in the order of their arrival,
each once. What has arrived is what has left, in its order, and then what waits; and what has left
without being handed over was the oldest frame of a full buffer. -/
theorem replay_keeps_order (ts : List Turn) (net : ℕ) :
    (told (hands net) Handle.new ts).Sublist (told (arrives net) Handle.new ts) ∧
    ∃ left : List Removal,
      told (arrives net) Handle.new ts =
        left.map Removal.frame ++ (run Handle.turn Handle.new ts).rxAt net ∧
      told (hands net) Handle.new ts = left.filterMap Removal.handed? ∧
      ∀ f, .evicted f ∈ left → EvictedOldest net Handle.new ts f := by
  have hnew : Handle.new.Numbered := fun _ _ hget => by simp [Handle.new] at hget
  have hempty : Handle.new.rxAt net = [] := by simp [rxAt, Handle.new]
  have hall := told_balanced hnew net ts
  rw [hempty, List.nil_append] at hall
  have hhands := told_hands net Handle.new ts
  refine ⟨?_, told (removes net) Handle.new ts, hall, hhands, fun f => evictedOldest_of_mem⟩
  rw [hhands, hall]
  exact (Removal.filterMap_sublist _).trans (List.sublist_append_left _ _)

end Handle

end GbfrLan.Party
