import GbfrLan.Lib.Run

/-!
# The queue of lobby state changes

The worker queues changes; the title takes them in batches with
`PFMultiplayerStartProcessingLobbyStateChanges` and gives each batch back with
`PFMultiplayerFinishProcessingLobbyStateChanges`. The mutex makes each of the three calls atomic.
A change is a pointer to its record, so the type of changes stays open. Addresses are numbers and
zero is the null pointer; where the array of a batch comes to lie is up to the allocator, and is
part of the call that builds the batch.
-/
namespace GbfrLan.Playfab.Batch
open Lib

def sOk : UInt32 := 0
def eFail : UInt32 := 0x80004005
def ePfNotInitialized : UInt32 := 0x89236400

def batchCap : ℕ := 32

/-- The fields of the instance that the batches live in. `buffer` is the address of `inFlight`. -/
structure Mp (α : Type) where
  pending : List α
  inFlight : List α
  batchOutstanding : Bool
  buffer : ℕ
  deriving DecidableEq, Repr

/-- The arguments of a Start, and the address at which a new batch is built. -/
structure StartArgs where
  handle : ℕ
  count : ℕ
  changes : ℕ
  buffer : ℕ
  deriving DecidableEq, Repr

/-- The result of a Start: its code, and what it writes to `count` and `changes`. -/
structure StartResult where
  code : UInt32
  out : Option (UInt32 × ℕ)
  deriving DecidableEq, Repr

namespace Mp

variable {α : Type}

/-- The instance as `PFMultiplayerInitialize` makes it. -/
def new : Mp α := ⟨[], [], false, 0⟩

/-- Queue a change; `none` is the null pointer of a failed allocation. -/
def queue (m : Mp α) : Option α → Mp α
  | none => m
  | some p => { m with pending := m.pending ++ [p] }

/-- The loop that moves changes into the batch, up to the cap if the cap is on. Returns what stays
queued and the batch. -/
def fill (capEnabled : Bool) : List α → List α → List α × List α
  | [], inFlight => ([], inFlight)
  | p :: rest, inFlight =>
      if capEnabled && decide (batchCap ≤ inFlight.length) then (p :: rest, inFlight)
      else fill capEnabled rest (inFlight ++ [p])

/-- The batch of a Start, which is a new one only when none is outstanding. -/
def build (capEnabled : Bool) (m : Mp α) (buffer : ℕ) : Mp α :=
  if m.batchOutstanding then m
  else
    let (pending, inFlight) := fill capEnabled m.pending []
    ⟨pending, inFlight, !inFlight.isEmpty, if inFlight.isEmpty then m.buffer else buffer⟩

def startProcessing (capEnabled : Bool) (m : Mp α) (a : StartArgs) : Mp α × StartResult :=
  if a.count == 0 || a.changes == 0 then (m, ⟨eFail, none⟩)
  else if a.handle == 0 then (m, ⟨ePfNotInitialized, some (0, 0)⟩)
  else
    let m := m.build capEnabled a.buffer
    (m, ⟨sOk, some (UInt32.ofNat m.inFlight.length, if m.inFlight.isEmpty then 0 else m.buffer)⟩)

def finishProcessing (m : Mp α) (handle : ℕ) (count : UInt32) (changes : ℕ) : Mp α × UInt32 :=
  if handle == 0 then (m, ePfNotInitialized)
  else if !m.batchOutstanding then (m, sOk)
  else if count.toNat != m.inFlight.length || changes != m.buffer then (m, sOk)
  else ({ m with inFlight := [], batchOutstanding := false }, sOk)

theorem fill_append (capEnabled : Bool) (pending inFlight : List α) :
    (fill capEnabled pending inFlight).2 ++ (fill capEnabled pending inFlight).1 =
      inFlight ++ pending := by
  induction pending generalizing inFlight with
  | nil => rfl
  | cons p rest ih =>
    unfold fill
    split_ifs
    · rfl
    · rw [ih, List.append_assoc, List.singleton_append]

theorem build_outstanding {m : Mp α} (capEnabled : Bool) (buffer : ℕ)
    (h : m.batchOutstanding = true) : m.build capEnabled buffer = m := by
  unfold build
  rw [if_pos h]

/-- What a Start does with well-formed arguments. -/
theorem startProcessing_eq (capEnabled : Bool) (m : Mp α) {a : StartArgs} (hcount : a.count ≠ 0)
    (hchanges : a.changes ≠ 0) (hhandle : a.handle ≠ 0) :
    m.startProcessing capEnabled a = (m.build capEnabled a.buffer,
      ⟨sOk, some (UInt32.ofNat (m.build capEnabled a.buffer).inFlight.length,
        if (m.build capEnabled a.buffer).inFlight.isEmpty then 0
        else (m.build capEnabled a.buffer).buffer)⟩) := by
  simp [startProcessing, hcount, hchanges, hhandle]

/-- A Start that is refused changes nothing. -/
theorem startProcessing_cases (capEnabled : Bool) (m : Mp α) (a : StartArgs) :
    ((m.startProcessing capEnabled a).1 = m ∧ (m.startProcessing capEnabled a).2.code ≠ sOk) ∨
      a.count ≠ 0 ∧ a.changes ≠ 0 ∧ a.handle ≠ 0 := by
  unfold startProcessing
  split_ifs with hargs hhandle
  · exact Or.inl ⟨rfl, show eFail ≠ sOk by decide⟩
  · exact Or.inl ⟨rfl, show ePfNotInitialized ≠ sOk by decide⟩
  · simp only [Bool.or_eq_true, beq_iff_eq, not_or] at hargs
    exact Or.inr ⟨hargs.1, hargs.2, by simpa using hhandle⟩

/-- A Finish does nothing, or it closes the batch that is outstanding. -/
theorem finishProcessing_cases (m : Mp α) (handle : ℕ) (count : UInt32) (changes : ℕ) :
    (m.finishProcessing handle count changes).1 = m ∨
      (m.batchOutstanding = true ∧ count.toNat = m.inFlight.length ∧ changes = m.buffer ∧
        (m.finishProcessing handle count changes).1 =
          { m with inFlight := [], batchOutstanding := false }) := by
  unfold finishProcessing
  split_ifs with hhandle hout hmatch
  · exact Or.inl rfl
  · exact Or.inl rfl
  · exact Or.inl rfl
  · simp only [Bool.or_eq_true, bne_iff_ne, not_or, not_not] at hmatch
    exact Or.inr ⟨by simpa using hout, hmatch.1, hmatch.2, rfl⟩

end Mp

/-- A batch as the title sees it. -/
structure Batch (α : Type) where
  count : UInt32
  array : ℕ
  changes : List α
  deriving DecidableEq, Repr

inductive MpEvent (α : Type) where
  | queue (p : Option α)
  | start (a : StartArgs)
  | finish (handle : ℕ) (count : UInt32) (changes : ℕ)

/-- The instance with everything queued and every batch handed out, in order. -/
structure Pumped (α : Type) where
  mp : Mp α
  queued : List α
  batches : List (Batch α)

namespace Pumped

variable {α : Type}

def fresh : Pumped α := ⟨Mp.new, [], []⟩

/-- The batch that a Start hands out for the first time. -/
def newBatch (capEnabled : Bool) (m : Mp α) (a : StartArgs) : List (Batch α) :=
  let (m', r) := m.startProcessing capEnabled a
  match r.out with
  | some (count, array) =>
      if r.code == sOk && !m.batchOutstanding && !m'.inFlight.isEmpty then
        [⟨count, array, m'.inFlight⟩]
      else []
  | none => []

def step (capEnabled : Bool) (s : Pumped α) : MpEvent α → Pumped α
  | .queue p => ⟨s.mp.queue p, s.queued ++ p.toList, s.batches⟩
  | .start a =>
      ⟨(s.mp.startProcessing capEnabled a).1, s.queued, s.batches ++ newBatch capEnabled s.mp a⟩
  | .finish handle count changes =>
      ⟨(s.mp.finishProcessing handle count changes).1, s.queued, s.batches⟩

structure Sound (s : Pumped α) : Prop where
  stream : s.batches.flatMap Batch.changes ++ s.mp.pending = s.queued
  idle : s.mp.batchOutstanding = false → s.mp.inFlight = []
  lent : s.mp.batchOutstanding = true → s.mp.inFlight ≠ [] ∧ s.batches.getLast? =
    some ⟨UInt32.ofNat s.mp.inFlight.length, s.mp.buffer, s.mp.inFlight⟩

theorem sound_fresh : Sound (fresh : Pumped α) where
  stream := rfl
  idle _ := rfl
  lent h := by cases h

variable {s : Pumped α} {capEnabled : Bool}

theorem Sound.queue (hs : s.Sound) (p : Option α) : (s.step capEnabled (.queue p)).Sound := by
  cases p with
  | none =>
    have hstep : s.step capEnabled (.queue none) = s := by simp [Pumped.step, Mp.queue]
    rw [hstep]
    exact hs
  | some p =>
    refine ⟨?_, hs.idle, hs.lent⟩
    show s.batches.flatMap Batch.changes ++ (s.mp.pending ++ [p]) = s.queued ++ [p]
    rw [← List.append_assoc, hs.stream]

theorem Sound.finish (hs : s.Sound) (handle : ℕ) (count : UInt32) (changes : ℕ) :
    (s.step capEnabled (.finish handle count changes)).Sound := by
  rcases s.mp.finishProcessing_cases handle count changes with heq | ⟨-, -, -, heq⟩
  · refine ⟨?_, ?_, ?_⟩
    all_goals simp only [Pumped.step, heq]
    · exact hs.stream
    · exact hs.idle
    · exact hs.lent
  · refine ⟨?_, ?_, ?_⟩
    all_goals simp only [Pumped.step, heq]
    · exact hs.stream
    · exact fun _ => trivial
    · exact fun h => absurd h (by simp)

/-- The Start that builds a batch. -/
theorem Sound.startIdle (hs : s.Sound) {a : StartArgs} (hcount : a.count ≠ 0)
    (hchanges : a.changes ≠ 0) (hhandle : a.handle ≠ 0) (hidle : s.mp.batchOutstanding = false) :
    (s.step capEnabled (.start a)).Sound := by
  have hfill := Mp.fill_append capEnabled s.mp.pending []
  set rest := (Mp.fill capEnabled s.mp.pending []).1 with hrest
  set batch := (Mp.fill capEnabled s.mp.pending []).2 with hbatch
  have hbuild : s.mp.build capEnabled a.buffer =
      ⟨rest, batch, !batch.isEmpty, if batch.isEmpty then s.mp.buffer else a.buffer⟩ := by
    simp [Mp.build, hidle, ← hrest, ← hbatch]
  have hstart := s.mp.startProcessing_eq capEnabled hcount hchanges hhandle
  rw [hbuild] at hstart
  by_cases hempty : batch.isEmpty = true
  · have hnone : newBatch capEnabled s.mp a = [] := by simp [newBatch, hstart, hempty]
    have hnil : batch = [] := List.isEmpty_iff.mp hempty
    rw [hnil] at hfill
    refine ⟨?_, ?_, ?_⟩
    all_goals simp only [Pumped.step, hstart, hnone, List.append_nil]
    · rw [← hs.stream]
      exact congrArg _ hfill
    · exact fun _ => hnil
    · exact fun h => absurd h (by simp [hempty])
  · have hone : newBatch capEnabled s.mp a =
        [⟨UInt32.ofNat batch.length, a.buffer, batch⟩] := by
      simp [newBatch, hstart, hempty, hidle]
    refine ⟨?_, ?_, ?_⟩
    all_goals simp only [Pumped.step, hstart, hone]
    · rw [List.flatMap_append, List.flatMap_singleton, List.append_assoc, ← hs.stream]
      exact congrArg _ hfill
    · exact fun h => absurd h (by simpa using hempty)
    · intro _
      refine ⟨by simpa using hempty, ?_⟩
      rw [List.getLast?_concat, if_neg hempty]

theorem Sound.start (hs : s.Sound) (a : StartArgs) : (s.step capEnabled (.start a)).Sound := by
  have hkept (hsame : (s.mp.startProcessing capEnabled a).1 = s.mp)
      (hnone : newBatch capEnabled s.mp a = []) : (s.step capEnabled (.start a)).Sound := by
    have hstep : s.step capEnabled (.start a) = s := by
      simp [Pumped.step, hsame, hnone]
    rw [hstep]
    exact hs
  rcases s.mp.startProcessing_cases capEnabled a with ⟨hsame, hcode⟩ | ⟨hcount, hchanges, hhandle⟩
  · refine hkept hsame ?_
    unfold newBatch
    simp only
    split
    · simp [hcode]
    · rfl
  · cases hout : s.mp.batchOutstanding with
    | false => exact hs.startIdle hcount hchanges hhandle hout
    | true =>
      refine hkept ?_ ?_
      · rw [s.mp.startProcessing_eq capEnabled hcount hchanges hhandle]
        exact Mp.build_outstanding capEnabled a.buffer hout
      · simp [newBatch, s.mp.startProcessing_eq capEnabled hcount hchanges hhandle, hout]

theorem Sound.step (hs : s.Sound) (e : MpEvent α) : (s.step capEnabled e).Sound := by
  cases e with
  | queue p => exact hs.queue p
  | start a => exact hs.start a
  | finish handle count changes => exact hs.finish handle count changes

/-- For every sequence of calls with any arguments, with the cap on or off: the batches handed out,
in order, followed by the queue are exactly the changes queued. While a batch is outstanding, a
Start returns the count and the array of that batch again and changes nothing. A Finish changes
nothing, or it is given the count and the array of the outstanding batch, and then it closes that
batch and leaves the rest alone. -/
theorem batches_exactly_once (capEnabled : Bool) (es : List (MpEvent α)) :
    let s := run (step capEnabled) fresh es
    s.batches.flatMap Batch.changes ++ s.mp.pending = s.queued ∧
      (s.mp.batchOutstanding = true → ∃ b, s.batches.getLast? = some b ∧
        b.changes = s.mp.inFlight ∧
        ∀ a : StartArgs, a.count ≠ 0 → a.changes ≠ 0 → a.handle ≠ 0 →
          s.mp.startProcessing capEnabled a = (s.mp, ⟨sOk, some (b.count, b.array)⟩)) ∧
      (∀ a : StartArgs, a.count = 0 ∨ a.changes = 0 ∨ a.handle = 0 →
        (s.mp.startProcessing capEnabled a).1 = s.mp) ∧
      ∀ handle count changes, (s.mp.finishProcessing handle count changes).1 = s.mp ∨
        (s.mp.batchOutstanding = true ∧ (∃ b, s.batches.getLast? = some b ∧ count = b.count ∧
            count.toNat = b.changes.length ∧ changes = b.array) ∧
          (s.mp.finishProcessing handle count changes).1 =
            { s.mp with inFlight := [], batchOutstanding := false }) := by
  intro s
  have hs : s.Sound := run_invariant_all (fun _ e h => h.step e) sound_fresh es
  refine ⟨hs.stream, fun hout => ?_, fun a ha => ?_, fun handle count changes => ?_⟩
  · obtain ⟨hne, hlast⟩ := hs.lent hout
    refine ⟨_, hlast, rfl, fun a hcount hchanges hhandle => ?_⟩
    rw [s.mp.startProcessing_eq capEnabled hcount hchanges hhandle,
      Mp.build_outstanding capEnabled a.buffer hout, if_neg (by simpa using hne)]
  · rcases s.mp.startProcessing_cases capEnabled a with ⟨hsame, -⟩ | ⟨hcount, hchanges, hhandle⟩
    · exact hsame
    · tauto
  · rcases s.mp.finishProcessing_cases handle count changes with heq | ⟨hout, hcount, harray, heq⟩
    · exact Or.inl heq
    · obtain ⟨-, hlast⟩ := hs.lent hout
      refine Or.inr ⟨hout, ⟨_, hlast, ?_, hcount, harray⟩, heq⟩
      rw [← hcount]
      exact UInt32.ofNat_toNat.symm

end Pumped

end GbfrLan.Playfab.Batch
