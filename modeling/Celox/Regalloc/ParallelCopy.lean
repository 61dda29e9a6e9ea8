import Celox.Data.ParallelAssignment

/-! # The order of the copies of one block edge

The values of an edge move at once; they are done one by one, through one temporary where registers
or stack slots change places. -/
namespace Celox.Regalloc

/-- A place that a row may write. -/
inductive CopyDestination (R : Type) where
  | register (register : R)
  | stack (slot : Int32)
deriving DecidableEq, Repr

/-- A place or a constant that a row may read. -/
inductive CopySource (R : Type) where
  | register (register : R)
  | stack (slot : Int32)
  | immediate (value : UInt64)
deriving DecidableEq, Repr

/-- One row of a simultaneous assignment. -/
structure ParallelCopy (R : Type) where
  destination : CopyDestination R
  source : CopySource R
deriving DecidableEq, Repr

inductive CopyOperation (R : Type) where
  | move (destination : CopyDestination R) (source : CopySource R)
  | swapRegisters (left right : R)
  | saveTemporary (location : CopyDestination R)
  | restoreTemporary (location : CopyDestination R)
deriving DecidableEq, Repr

structure CopyResolutionWork where
  effectiveCopies : Nat := 0
  directMoves : Nat := 0
  registerSwaps : Nat := 0
  cycleBreaks : Nat := 0
  temporaryCycleBreaks : Nat := 0
  readyQueuePops : Nat := 0
  dependencyReleases : Nat := 0
deriving DecidableEq, Repr

structure CopyResolution (R : Type) where
  operations : List (CopyOperation R)
  work : CopyResolutionWork
deriving DecidableEq, Repr

structure CopyResolutionError (R : Type) where
  rule : String
  destination : Option (CopyDestination R)
  message : String
deriving DecidableEq, Repr

/-- The ways not to return a resolution. -/
inductive CopyFailure (R : Type) where
  | error (e : CopyResolutionError R)
  /-- An index out of bounds. -/
  | panic
deriving DecidableEq, Repr

inductive PendingSource (R : Type) where
  | value (source : CopySource R)
  | temporary
deriving DecidableEq, Repr

structure PendingCopy (R : Type) where
  destination : CopyDestination R
  source : PendingSource R
  pending : Bool
deriving DecidableEq, Repr

variable {R : Type} [DecidableEq R]

def ParallelCopy.isIdentity (row : ParallelCopy R) : Bool :=
  match row.destination, row.source with
  | .register destination, .register source => destination = source
  | .stack destination, .stack source => destination = source
  | _, _ => false

def sourceAsDestination : CopySource R → Option (CopyDestination R)
  | .register register => some (.register register)
  | .stack slot => some (.stack slot)
  | .immediate _ => none

/-! ## Cycles of registers -/

/-- The loop of `registerCycle`. No register is visited twice, so it ends. -/
def registerCycleFrom (copies : List (PendingCopy R))
    (destinationIndex : AList fun _ : CopyDestination R => Nat) (startRegister : R) :
    Nat → R → List Nat → List (R × R) → List R → Option (List Nat × List (R × R))
  | 0, _, _, _, _ => none
  | fuel + 1, current, members, swaps, visited => do
    if current ∈ visited then none else
    let index ← destinationIndex.lookup (.register current)
    let copy ← copies[index]?
    if copy.pending = false then none else
    match copy.source with
    | .value (.register source) =>
      let members := members ++ [index]
      if source = startRegister then
        if 2 ≤ members.length then some (members, swaps) else none
      else
        registerCycleFrom copies destinationIndex startRegister fuel source members
          (swaps ++ [(current, source)]) (current :: visited)
    | _ => none

/-- The pending rows of the cycle of registers through row `start`, and its exchanges. -/
def registerCycle (copies : List (PendingCopy R))
    (destinationIndex : AList fun _ : CopyDestination R => Nat) (start : Nat) :
    Option (List Nat × List (R × R)) := do
  let copy ← copies[start]?
  match copy.destination with
  | .register startRegister =>
    registerCycleFrom copies destinationIndex startRegister (copies.length + 1) startRegister
      [] [] []
  | .stack _ => none

/-! ## The resolver -/

/-- The variables of the loops. -/
structure Resolver (R : Type) [DecidableEq R] where
  copies : List (PendingCopy R)
  destinationIndex : AList fun _ : CopyDestination R => Nat
  readers : AList fun _ : CopyDestination R => Finset Nat
  ready : List Nat
  queued : List Bool
  operations : List (CopyOperation R)
  remaining : Nat
  temporaryLive : Bool
  cycleSearchStart : Nat
  work : CopyResolutionWork

namespace Resolver

/-- The end of a turn of the inner loop. -/
def retire (s : Resolver R) (index : Nat) (copy : PendingCopy R) : Resolver R :=
  { s with
    copies := s.copies.set index { copy with pending := false }
    remaining := s.remaining - 1 }

/-- Row `index` no longer reads `location`; the row that writes it may be ready now. -/
def release (s : Resolver R) (index : Nat) (location : CopyDestination R) :
    Except (CopyFailure R) (Resolver R) :=
  match s.readers.lookup location with
  | none => .ok s
  | some locationReaders =>
    if locationReaders.erase index = ∅ then
      let s := { s with
        readers := s.readers.erase location
        work.dependencyReleases := s.work.dependencyReleases + 1 }
      match s.destinationIndex.lookup location with
      | none => .ok s
      | some writer =>
        match s.copies[writer]?, s.queued[writer]? with
        | some copy, some queued =>
          if copy.pending ∧ ¬ queued then
            .ok { s with ready := s.ready ++ [writer], queued := s.queued.set writer true }
          else .ok s
        | _, _ => .error .panic
    else .ok { s with readers := s.readers.insert location (locationReaders.erase index) }

/-- What is done for a row that no pending row waits for. -/
def perform (s : Resolver R) (index : Nat) (copy : PendingCopy R) :
    Except (CopyFailure R) (Resolver R) :=
  match copy.source with
  | .value source =>
    let s := { s with
      operations := s.operations ++ [.move copy.destination source]
      work.directMoves := s.work.directMoves + 1 }
    match sourceAsDestination source with
    | none => .ok s
    | some location => s.release index location
  | .temporary =>
    if s.temporaryLive then
      .ok { s with
        operations := s.operations ++ [.restoreTemporary copy.destination]
        temporaryLive := false }
    else .error (.error ⟨"PARALLEL_COPY.TEMPORARY_STATE", some copy.destination,
      "resolver attempted to restore an inactive temporary"⟩)

/-- The inner loop takes `index` from the ready queue. -/
def turn (s : Resolver R) (index : Nat) : Except (CopyFailure R) (Resolver R) :=
  if index < s.queued.length then
    let s := { s with queued := s.queued.set index false }
    match s.copies[index]? with
    | none => .error .panic
    | some copy =>
      if copy.pending then
        let s := { s with work.readyQueuePops := s.work.readyQueuePops + 1 }
        (s.perform index copy).map fun s => s.retire index copy
      else .ok s
  else .error .panic

/-- The inner loop, which ends with an empty queue. -/
def drain : Nat → Resolver R → Except (CopyFailure R) (Resolver R)
  | 0, s => .ok s
  | fuel + 1, s =>
    match s.ready with
    | [] => .ok s
    | index :: ready => ({ s with ready }.turn index).bind (drain fuel)

/-- The exchange of two registers that are copied to each other. -/
def exchange (s : Resolver R) (members : List Nat) (swaps : List (R × R)) : Resolver R :=
  { s with
    operations := s.operations ++ swaps.map fun (left, right) => .swapRegisters left right
    readers := members.foldl (fun readers member =>
      match s.copies[member]? with
      | some copy => readers.erase copy.destination
      | none => readers) s.readers
    copies := members.foldl
      (fun copies member => copies.modify member ({ · with pending := false })) s.copies
    queued := members.foldl (fun queued member => queued.set member false) s.queued
    remaining := s.remaining - members.length
    work.registerSwaps := s.work.registerSwaps + swaps.length
    work.cycleBreaks := s.work.cycleBreaks + 1
    work.dependencyReleases := s.work.dependencyReleases + members.length }

/-- The destination of row `cycle` is saved for the one row that reads it. -/
def borrow (s : Resolver R) (cycle : Nat) (saved : CopyDestination R) :
    Except (CopyFailure R) (Resolver R) :=
  let savedReaders := (s.readers.lookup saved).getD ∅
  if savedReaders.card = 1 then
    match savedReaders.min with
    | none => .error .panic
    | some reader =>
      if reader < s.copies.length ∧ cycle < s.queued.length then
        .ok { s with
          readers := s.readers.erase saved
          copies := s.copies.modify reader ({ · with source := .temporary })
          operations := s.operations ++ [.saveTemporary saved]
          temporaryLive := true
          ready := if s.queued[cycle]? = some false then s.ready ++ [cycle] else s.ready
          queued := s.queued.set cycle true
          work.cycleBreaks := s.work.cycleBreaks + 1
          work.temporaryCycleBreaks := s.work.temporaryCycleBreaks + 1
          work.dependencyReleases := s.work.dependencyReleases + 1 }
      else .error .panic
  else
    let readers := savedReaders.card
    .error (.error ⟨"PARALLEL_COPY.CYCLE_SHAPE", some saved,
      s!"stalled cycle location has {readers} readers"⟩)

/-- The first pending row from `cycleSearchStart` on. -/
def nextPending (s : Resolver R) : Option Nat :=
  ((s.copies.drop s.cycleSearchStart).findIdx? (·.pending)).map (s.cycleSearchStart + ·)

/-- The second half of the outer loop, where no row is ready. -/
def breakCycle (s : Resolver R) : Except (CopyFailure R) (Resolver R) :=
  if s.temporaryLive then
    .error (.error ⟨"PARALLEL_COPY.TEMPORARY_STATE", none,
      "resolver stalled while a temporary was live"⟩)
  else
    match s.nextPending with
    | none => .error (.error ⟨"PARALLEL_COPY.RESOLVER_STATE", none,
        "nonzero pending count has no pending row"⟩)
    | some cycle =>
      let s := { s with cycleSearchStart := cycle + 1 }
      let borrowed := match s.copies[cycle]? with
        | none => .error .panic
        | some copy => s.borrow cycle copy.destination
      match registerCycle s.copies s.destinationIndex cycle with
      | some (members, swaps) =>
        if members.length = 2 then .ok (s.exchange members swaps) else borrowed
      | none => borrowed

/-- The outer loop, which ends when no row is left. -/
def loop : Nat → Resolver R → Except (CopyFailure R) (Resolver R)
  | 0, s => .ok s
  | fuel + 1, s =>
    if s.remaining = 0 then .ok s
    else (drain (s.remaining + s.ready.length) s).bind fun s =>
      if s.remaining = 0 then .ok s else s.breakCycle.bind (loop fuel)

end Resolver

/-- The first row whose destination an earlier row has. -/
def repeatedDestination : List (ParallelCopy R) → List (CopyDestination R) →
    Option (CopyDestination R)
  | [], _ => none
  | row :: rows, owner =>
    if row.destination ∈ owner then some row.destination
    else repeatedDestination rows (row.destination :: owner)

/-- The rows that move something. -/
def pendingCopies (rows : List (ParallelCopy R)) : List (PendingCopy R) :=
  (rows.filter (! ·.isIdentity)).map fun row => ⟨row.destination, .value row.source, true⟩

def destinationIndexOf (copies : List (PendingCopy R)) : AList fun _ : CopyDestination R => Nat :=
  copies.zipIdx.foldl (fun map (copy, index) => map.insert copy.destination index) ∅

/-- Row `index` reads the location of its source, if it has one. -/
def addReader (readers : AList fun _ : CopyDestination R => Finset Nat) (copy : PendingCopy R)
    (index : Nat) : AList fun _ : CopyDestination R => Finset Nat :=
  match copy.source with
  | .temporary => readers
  | .value source =>
    match sourceAsDestination source with
    | none => readers
    | some location =>
      readers.insert location (insert index ((readers.lookup location).getD ∅))

def readersOf (copies : List (PendingCopy R)) : AList fun _ : CopyDestination R => Finset Nat :=
  copies.zipIdx.foldl (fun readers (copy, index) => addReader readers copy index) ∅

/-- The state in which the outer loop starts. -/
def Resolver.initial (copies : List (PendingCopy R)) : Resolver R where
  copies := copies
  destinationIndex := destinationIndexOf copies
  readers := readersOf copies
  ready := (copies.zipIdx.filter fun (copy, _) =>
    ((readersOf copies).lookup copy.destination).isNone).map Prod.snd
  queued := copies.map fun copy => ((readersOf copies).lookup copy.destination).isNone
  operations := []
  remaining := copies.length
  temporaryLive := false
  cycleSearchStart := 0
  work := { effectiveCopies := copies.length }

/-- Schedule copies without clobbering any still-needed source. -/
def resolveParallelCopies (rows : List (ParallelCopy R)) :
    Except (CopyFailure R) (CopyResolution R) :=
  match repeatedDestination rows [] with
  | some destination => .error (.error ⟨"PARALLEL_COPY.NON_UNIQUE_DESTINATION", some destination,
      "parallel assignment writes one destination more than once"⟩)
  | none =>
    let copies := pendingCopies rows
    if copies = [] then .ok ⟨[], { effectiveCopies := copies.length }⟩
    else (Resolver.loop (2 * copies.length + 1) (.initial copies)).bind fun s =>
      if s.temporaryLive then
        .error (.error ⟨"PARALLEL_COPY.TEMPORARY_STATE", none,
          "resolver left its temporary live"⟩)
      else .ok ⟨s.operations, s.work⟩

/-! ## What the operations do -/

/-- The registers and stack slots, and the temporary that the target provides. -/
structure CopyMachine (R : Type) where
  value : CopyDestination R → UInt64
  temporary : UInt64
  temporaryLive : Bool

/-- A source as a location or a constant. -/
def CopySource.operand : CopySource R → CopyDestination R ⊕ UInt64
  | .register r => .inl (.register r)
  | .stack offset => .inl (.stack offset)
  | .immediate constant => .inr constant

def CopyMachine.read (m : CopyMachine R) (source : CopySource R) : UInt64 :=
  Sum.elim m.value id source.operand

/-- One operation, refused where it would nest or miss a save, as the emitter refuses it. -/
def CopyMachine.execute (m : CopyMachine R) : CopyOperation R → Option (CopyMachine R)
  | .move destination source =>
    some { m with value := Function.update m.value destination (m.read source) }
  | .swapRegisters left right =>
    if m.temporaryLive then none
    else some { m with
      value := Function.update (Function.update m.value (.register left) (m.value (.register right)))
        (.register right) (m.value (.register left)) }
  | .saveTemporary location =>
    if m.temporaryLive then none
    else some { m with temporary := m.value location, temporaryLive := true }
  | .restoreTemporary location =>
    if m.temporaryLive then
      some { m with
        value := Function.update m.value location m.temporary, temporaryLive := false }
    else none

def CopyMachine.run (m : CopyMachine R) (operations : List (CopyOperation R)) :
    Option (CopyMachine R) :=
  operations.foldlM CopyMachine.execute m

end Celox.Regalloc

/-! ## The books of the resolver

What the reader sets, the ready queue and its flags say about the rows that are still pending, and
that every turn keeps them so. -/
namespace Celox.Regalloc
open Celox.Data

variable {R : Type}

/-- Row `i` is `copy`, not done yet. -/
def PendingAt (copies : List (PendingCopy R)) (i : Nat) (copy : PendingCopy R) : Prop :=
  copies[i]? = some copy ∧ copy.pending = true

/-- The location that a row reads, the temporary apart. -/
def PendingCopy.reads (copy : PendingCopy R) : Option (CopyDestination R) :=
  match copy.source with
  | .value source => sourceAsDestination source
  | .temporary => none

/-- A row that writes `location` is pending. -/
def Waiting (copies : List (PendingCopy R)) (location : CopyDestination R) : Prop :=
  ∃ i copy, PendingAt copies i copy ∧ copy.destination = location

variable {copies copies' : List (PendingCopy R)} {i j index : Nat} {copy copy' : PendingCopy R}

theorem sourceAsDestination_eq_some {source : CopySource R} {l : CopyDestination R} :
    sourceAsDestination source = some l ↔ source.operand = .inl l := by
  cases source <;> simp [sourceAsDestination, CopySource.operand]

/-! ## Rows and their positions -/

/-- Two pending rows with one destination are the same. -/
theorem PendingAt.unique (hdistinct : (copies.map (·.destination)).Nodup)
    (h : PendingAt copies i copy) (h' : PendingAt copies j copy')
    (heq : copy.destination = copy'.destination) : i = j := by
  have hi : (copies.map (·.destination))[i]? = some copy.destination := by simp [h.1]
  have hj : (copies.map (·.destination))[j]? = some copy.destination := by simp [h'.1, heq]
  obtain ⟨hlt, -⟩ := List.getElem?_eq_some_iff.mp hi
  exact (List.getElem?_inj hlt hdistinct).mp (hi.trans hj.symm)

/-- A row that is done no longer waits; the others are as before. -/
theorem pendingAt_set (hget : copies[index]? = some copy) :
    PendingAt (copies.set index { copy with pending := false }) j copy' ↔
      j ≠ index ∧ PendingAt copies j copy' := by
  obtain ⟨hlt, -⟩ := List.getElem?_eq_some_iff.mp hget
  unfold PendingAt
  rw [List.getElem?_set]
  by_cases hj : index = j
  · subst hj
    simp only [if_true, hlt, Option.some.injEq, ne_eq, not_true, false_and, iff_false]
    rintro ⟨rfl, hpending⟩
    cases hpending
  · simp [hj, Ne.symm hj]

theorem map_destination_set (hget : copies[index]? = some copy) :
    (copies.set index { copy with pending := false }).map (·.destination) =
      copies.map (·.destination) := by
  refine List.ext_getElem? fun i => ?_
  rw [List.map_set, List.getElem?_set]
  split_ifs with heq hlt
  · rw [← heq, List.getElem?_map, hget]
    rfl
  · rw [← heq, List.getElem?_eq_none (Nat.le_of_not_lt hlt)]
  · rfl

/-- One row less waits. -/
theorem countP_set (h : PendingAt copies index copy) :
    (copies.set index { copy with pending := false }).countP (·.pending) + 1 =
      copies.countP (·.pending) := by
  obtain ⟨hlt, heq⟩ := List.getElem?_eq_some_iff.mp h.1
  have hpos : 0 < copies.countP (·.pending) :=
    List.countP_pos_iff.mpr ⟨copy, List.mem_of_getElem? h.1, h.2⟩
  rw [List.countP_set hlt, heq, if_pos h.2]
  simp only [Bool.false_eq_true, if_false, Nat.add_zero]
  omega

/-- The destination of a row that is done no longer waits. -/
theorem waiting_set (hdistinct : (copies.map (·.destination)).Nodup)
    (h : PendingAt copies index copy) :
    Waiting (copies.set index { copy with pending := false }) =
      fun l => l ≠ copy.destination ∧ Waiting copies l := by
  funext l
  refine propext ⟨?_, ?_⟩
  · rintro ⟨i, c, hi, rfl⟩
    obtain ⟨hne, hi⟩ := (pendingAt_set h.1).mp hi
    exact ⟨fun heq => hne (hi.unique hdistinct h heq), i, c, hi, rfl⟩
  · rintro ⟨hne, i, c, hi, rfl⟩
    refine ⟨i, c, (pendingAt_set h.1).mpr ⟨fun heq => hne ?_, hi⟩, rfl⟩
    subst heq
    rw [Option.some.inj (hi.1.symm.trans h.1)]

theorem modify_eq_set {f : PendingCopy R → PendingCopy R} (hget : copies[index]? = some copy) :
    copies.modify index f = copies.set index (f copy) := by
  rw [List.modify_eq_set_getElem?, hget]
  rfl

/-- The rows once row `j` reads the temporary. -/
theorem pendingAt_modify {c : PendingCopy R} :
    PendingAt (copies.modify j ({ · with source := .temporary })) i c ↔
      ∃ c₀, PendingAt copies i c₀ ∧ c = if j = i then { c₀ with source := .temporary } else c₀ := by
  unfold PendingAt
  rw [List.getElem?_modify]
  constructor
  · rintro ⟨hget, hpending⟩
    obtain ⟨c₀, hc₀, heq⟩ := Option.map_eq_some_iff.mp hget
    refine ⟨c₀, ⟨hc₀, ?_⟩, heq.symm⟩
    rw [← heq] at hpending
    split_ifs at hpending <;> exact hpending
  · rintro ⟨c₀, ⟨hget, hpending⟩, rfl⟩
    refine ⟨by rw [hget]; rfl, ?_⟩
    split_ifs <;> exact hpending

theorem pendingAt_of_modify {c : PendingCopy R}
    (h : PendingAt (copies.modify j ({ · with source := .temporary })) i c) :
    ∃ c₀, PendingAt copies i c₀ ∧ c.destination = c₀.destination := by
  obtain ⟨c₀, hc₀, rfl⟩ := pendingAt_modify.mp h
  refine ⟨c₀, hc₀, ?_⟩
  split_ifs <;> rfl

theorem map_modify {α : Type} {g : PendingCopy R → α} {f : PendingCopy R → PendingCopy R}
    (hf : ∀ c, g (f c) = g c) : (copies.modify j f).map g = copies.map g := by
  refine List.ext_getElem? fun i => ?_
  rw [List.getElem?_map, List.getElem?_modify, List.getElem?_map]
  cases copies[i]? with
  | none => rfl
  | some c =>
    refine congrArg some ?_
    dsimp only
    split_ifs
    · exact hf c
    · rfl

theorem waiting_modify :
    Waiting (copies.modify j ({ · with source := .temporary })) = Waiting copies := by
  funext l
  refine propext ⟨?_, ?_⟩
  · rintro ⟨i, c, hi, rfl⟩
    obtain ⟨c₀, hc₀, heq⟩ := pendingAt_of_modify hi
    exact ⟨i, c₀, hc₀, heq.symm⟩
  · rintro ⟨i, c, hi, rfl⟩
    refine ⟨i, _, pendingAt_modify.mpr ⟨c, hi, rfl⟩, ?_⟩
    split_ifs <;> rfl

variable [DecidableEq R] {s s' : Resolver R} {sources : CopyDestination R →
  Option (CopyDestination R ⊕ UInt64)} {saved saved' : Option (CopyDestination R)}
  {location : CopyDestination R}

/-! ## The maps at the start -/

theorem destinationIndexOf_lookup (hdistinct : (copies.map (·.destination)).Nodup)
    (l : CopyDestination R) (i : Nat) :
    (destinationIndexOf copies).lookup l = some i ↔
      (copies.map (·.destination))[i]? = some l := by
  unfold destinationIndexOf
  induction copies using List.reverseRecOn generalizing i with
  | nil => simp
  | append_singleton copies copy ih =>
    rw [List.map_append, List.nodup_append] at hdistinct
    obtain ⟨hcopies, -, hfresh⟩ := hdistinct
    rw [List.zipIdx_append, List.foldl_append, List.map_append]
    simp only [List.zipIdx_singleton, Nat.zero_add, List.foldl_cons, List.foldl_nil,
      List.map_cons, List.map_nil]
    by_cases hl : l = copy.destination
    · subst hl
      rw [AList.lookup_insert]
      constructor
      · intro h
        obtain rfl := Option.some.inj h
        simp
      · intro h
        by_cases hlt : i < copies.length
        · rw [List.getElem?_append_left (by simpa using hlt)] at h
          exact absurd rfl (hfresh _ (List.mem_of_getElem? h) _ (List.mem_singleton_self _))
        · rw [List.getElem?_append_right (by simpa using hlt)] at h
          obtain ⟨hone, -⟩ := List.getElem?_eq_some_iff.mp h
          simp only [List.length_map, List.length_singleton] at hone
          exact congrArg some (by omega)
    · rw [AList.lookup_insert_ne hl, ih hcopies]
      by_cases hlt : i < copies.length
      · rw [List.getElem?_append_left (by simpa using hlt)]
      · rw [List.getElem?_append_right (by simpa using hlt),
          List.getElem?_eq_none (by simpa using hlt)]
        refine iff_of_false nofun fun h => hl ?_
        exact (List.mem_singleton.mp (List.mem_of_getElem? h))

theorem readersOf_lookup (copies : List (PendingCopy R)) (l : CopyDestination R) :
    (∀ i, i ∈ ((readersOf copies).lookup l).getD ∅ ↔
      ∃ copy, copies[i]? = some copy ∧ copy.reads = some l) ∧
      (readersOf copies).lookup l ≠ some ∅ := by
  unfold readersOf
  induction copies using List.reverseRecOn with
  | nil => simp
  | append_singleton copies copy ih =>
    rw [List.zipIdx_append, List.foldl_append]
    simp only [List.zipIdx_singleton, Nat.zero_add, List.foldl_cons, List.foldl_nil]
    generalize copies.zipIdx.foldl (fun readers (x : PendingCopy R × Nat) =>
      addReader readers x.1 x.2) ∅ = readers at ih ⊢
    -- the new row comes after the others
    have hlast : ∀ i c, (copies ++ [copy])[i]? = some c ↔
        copies[i]? = some c ∨ i = copies.length ∧ c = copy := by
      intro i c
      rcases lt_trichotomy i copies.length with hlt | rfl | hgt
      · rw [List.getElem?_append_left hlt]
        exact (or_iff_left fun h => hlt.ne h.1).symm
      · rw [List.getElem?_append_right (le_refl _), Nat.sub_self,
          List.getElem?_eq_none (le_refl _)]
        simp [eq_comm]
      · rw [List.getElem?_eq_none (by simpa using Nat.succ_le_of_lt hgt),
          List.getElem?_eq_none hgt.le]
        simp [hgt.ne']
    have hadd : addReader readers copy copies.length = match copy.reads with
        | none => readers
        | some location => readers.insert location
            (insert copies.length ((readers.lookup location).getD ∅)) := by
      unfold addReader PendingCopy.reads
      cases copy.source <;> rfl
    rw [hadd]
    cases hreads : copy.reads with
    | none =>
      refine ⟨fun i => (ih.1 i).trans (exists_congr fun c => ?_), ih.2⟩
      rw [hlast]
      refine and_congr_left fun hc => (or_iff_left ?_).symm
      rintro ⟨-, rfl⟩
      cases hreads.symm.trans hc
    | some location =>
      dsimp only
      by_cases hl : l = location
      · subst hl
        rw [AList.lookup_insert]
        refine ⟨fun i => ?_, fun h => Finset.insert_ne_empty _ _ (Option.some.inj h)⟩
        rw [Option.getD_some, Finset.mem_insert, ih.1]
        constructor
        · rintro (rfl | ⟨c, hc, hread⟩)
          · exact ⟨copy, (hlast _ _).mpr (.inr ⟨rfl, rfl⟩), hreads⟩
          · exact ⟨c, (hlast _ _).mpr (.inl hc), hread⟩
        · rintro ⟨c, hc, hread⟩
          exact ((hlast _ _).mp hc).symm.imp And.left fun hc => ⟨c, hc, hread⟩
      · rw [AList.lookup_insert_ne hl]
        refine ⟨fun i => (ih.1 i).trans (exists_congr fun c => ?_), ih.2⟩
        rw [hlast]
        refine and_congr_left fun hc => (or_iff_left ?_).symm
        rintro ⟨-, rfl⟩
        exact hl (Option.some.inj (hc.symm.trans hreads))

/-! ## Cycles of registers -/

/-- One turn of the loop over a cycle. -/
theorem registerCycleFrom_succ {destinationIndex : AList fun _ : CopyDestination R => Nat}
    {startRegister current : R} {fuel : Nat} {members : List Nat} {swaps : List (R × R)}
    {visited : List R} {found : List Nat × List (R × R)}
    (h : registerCycleFrom copies destinationIndex startRegister (fuel + 1) current members swaps
      visited = some found) :
    current ∉ visited ∧ ∃ i c source, destinationIndex.lookup (.register current) = some i ∧
      PendingAt copies i c ∧ c.source = .value (.register source) ∧
      (source = startRegister ∧ found = (members ++ [i], swaps) ∨ source ≠ startRegister ∧
        registerCycleFrom copies destinationIndex startRegister fuel source (members ++ [i])
          (swaps ++ [(current, source)]) (current :: visited) = some found) := by
  unfold registerCycleFrom at h
  split_ifs at h with hvisited
  obtain ⟨i, hi, h⟩ := Option.bind_eq_some_iff.mp h
  obtain ⟨c, hc, h⟩ := Option.bind_eq_some_iff.mp h
  split_ifs at h with hpending
  split at h
  · rename_i source hsource
    refine ⟨hvisited, i, c, source, hi, ⟨hc, by simpa using hpending⟩, hsource, ?_⟩
    dsimp only at h
    split_ifs at h with hstart hlength
    · exact .inl ⟨hstart, (Option.some.inj h).symm⟩
    · exact .inr ⟨hstart, h⟩
  · cases h

theorem registerCycleFrom_length {destinationIndex : AList fun _ : CopyDestination R => Nat}
    {startRegister current : R} {fuel : Nat} {members : List Nat} {swaps : List (R × R)}
    {visited : List R} {found : List Nat × List (R × R)}
    (h : registerCycleFrom copies destinationIndex startRegister fuel current members swaps
      visited = some found) : members.length < found.1.length := by
  induction fuel generalizing current members swaps visited with
  | zero => cases h
  | succ fuel ih =>
    obtain ⟨-, i, c, source, -, -, -, ⟨-, rfl⟩ | ⟨-, h⟩⟩ := registerCycleFrom_succ h
    · simp
    · have hlt := ih h
      rw [List.length_append] at hlt
      exact Nat.lt_of_succ_lt hlt

/-- A cycle with two members is a pair of registers that are copied to each other. -/
theorem registerCycle_two {destinationIndex : AList fun _ : CopyDestination R => Nat}
    (hindex : ∀ l i, destinationIndex.lookup l = some i ↔
      (copies.map (·.destination))[i]? = some l)
    (hdistinct : (copies.map (·.destination)).Nodup) (hcopy : PendingAt copies index copy)
    {members : List Nat} {swaps : List (R × R)}
    (h : registerCycle copies destinationIndex index = some (members, swaps))
    (htwo : members.length = 2) :
    ∃ j other left right, members = [index, j] ∧ swaps = [(left, right)] ∧ left ≠ right ∧
      copy.destination = .register left ∧ copy.source = .value (.register right) ∧
      PendingAt copies j other ∧ other.destination = .register right ∧
      other.source = .value (.register left) := by
  -- the row with a destination is the one that the index finds
  have hfound : ∀ {l i c}, destinationIndex.lookup l = some i → PendingAt copies i c →
      c.destination = l := by
    intro l i c hl hc
    have hmap := (hindex l i).mp hl
    rw [List.getElem?_map, hc.1] at hmap
    exact Option.some.inj hmap
  unfold registerCycle at h
  rw [hcopy.1, Option.bind_eq_bind, Option.bind_some] at h
  split at h
  swap
  · cases h
  rename_i left hleft
  obtain ⟨-, i, c, right, hi, hc, hright, ⟨-, hone⟩ | ⟨hne, h⟩⟩ := registerCycleFrom_succ h
  · rw [(Prod.mk.inj hone).1] at htwo
    cases htwo
  obtain rfl := hc.unique hdistinct hcopy ((hfound hi hc).trans hleft.symm)
  obtain rfl := Option.some.inj (hc.1.symm.trans hcopy.1)
  cases hlength : copies.length with
  | zero => rw [hlength] at h; cases h
  | succ fuel =>
    rw [hlength] at h
    obtain ⟨-, j, other, back, hj, hother, hback, ⟨rfl, hpair⟩ | ⟨-, h⟩⟩ :=
      registerCycleFrom_succ h
    · obtain ⟨rfl, rfl⟩ := Prod.mk.inj hpair
      exact ⟨j, other, _, right, rfl, rfl, hne.symm, hleft, hright, hother, hfound hj hother,
        hback⟩
    · have hlt := registerCycleFrom_length h
      simp only [List.nil_append, List.cons_append, List.length_cons, List.length_nil] at hlt
      omega

/-- What the books say while row `saved`, if any, reads the temporary. -/
structure Resolver.Books (sources : CopyDestination R → Option (CopyDestination R ⊕ UInt64))
    (saved : Option (CopyDestination R)) (s : Resolver R) : Prop where
  distinct : (s.copies.map (·.destination)).Nodup
  index : ∀ l i, s.destinationIndex.lookup l = some i ↔
    (s.copies.map (·.destination))[i]? = some l
  queuedLength : s.queued.length = s.copies.length
  source : ∀ i copy, PendingAt s.copies i copy → ∃ source,
    sources copy.destination = some source.operand ∧ source.operand ≠ .inl copy.destination ∧
      (saved ≠ some copy.destination ∧ copy.source = .value source ∨
        saved = some copy.destination ∧ copy.source = .temporary)
  readers : ∀ l i, i ∈ (s.readers.lookup l).getD ∅ ↔
    ∃ copy, PendingAt s.copies i copy ∧ copy.reads = some l
  reader : ∀ l, s.readers.lookup l ≠ some ∅
  ready : ∀ i ∈ s.ready, i < s.copies.length ∧
    ∀ copy, PendingAt s.copies i copy → s.readers.lookup copy.destination = none
  blocked : ∀ i copy, PendingAt s.copies i copy →
    i ∈ s.ready ∨ s.readers.lookup copy.destination ≠ none
  queued : ∀ i, s.queued[i]? = some true → i ∈ s.ready
  search : ∀ i copy, i < s.cycleSearchStart → PendingAt s.copies i copy → i ∈ s.ready
  remaining : s.remaining = s.copies.countP (·.pending)
  live : s.temporaryLive = saved.isSome

namespace Resolver

/-- What a turn does for row `index`, but for marking it as done. -/
structure Performed (s s' : Resolver R) (index : Nat) : Prop where
  copies : s'.copies = s.copies
  destinationIndex : s'.destinationIndex = s.destinationIndex
  remaining : s'.remaining = s.remaining
  searchStart : s'.cycleSearchStart = s.cycleSearchStart
  queuedLength : s'.queued.length = s.queued.length
  readers : ∀ l, (s'.readers.lookup l).getD ∅ = ((s.readers.lookup l).getD ∅).erase index
  reader : ∀ l, s'.readers.lookup l ≠ some ∅
  kept : ∀ i ∈ s.ready, i ∈ s'.ready
  added : ∀ i ∈ s'.ready, i ∈ s.ready ∨
    ∃ copy, PendingAt s.copies i copy ∧ s'.readers.lookup copy.destination = none
  released : ∀ i copy, PendingAt s.copies i copy → s.readers.lookup copy.destination ≠ none →
    s'.readers.lookup copy.destination = none → i ∈ s'.ready
  queued : ∀ i, s'.queued[i]? = some true → i ∈ s'.ready
  length : s'.ready.length ≤ s.ready.length + 1

/-- Nothing changes for the other rows where `index` is in no reader set. -/
theorem Performed.of_unread (hcopies : s'.copies = s.copies)
    (hindex : s'.destinationIndex = s.destinationIndex) (hremaining : s'.remaining = s.remaining)
    (hsearch : s'.cycleSearchStart = s.cycleSearchStart) (hqueued : s'.queued = s.queued)
    (hreaders : s'.readers = s.readers) (hready : s'.ready = s.ready)
    (hreader : ∀ l, s.readers.lookup l ≠ some ∅)
    (hflags : ∀ i, s.queued[i]? = some true → i ∈ s.ready)
    (hunread : ∀ l, index ∉ (s.readers.lookup l).getD ∅) : Performed s s' index where
  copies := hcopies
  destinationIndex := hindex
  remaining := hremaining
  searchStart := hsearch
  queuedLength := by rw [hqueued]
  readers l := by rw [hreaders, Finset.erase_eq_of_notMem (hunread l)]
  reader l := by rw [hreaders]; exact hreader l
  kept i hi := hready ▸ hi
  added i hi := .inl (hready ▸ hi)
  released i copy _ hsome hnone := absurd (hreaders ▸ hnone) hsome
  queued i hi := by rw [hready]; exact hflags i (hqueued ▸ hi)
  length := by rw [hready]; exact Nat.le_succ _

/-- The row that writes a location joins the queue once nothing reads the location. -/
theorem release_spec (hindex : ∀ l i, s.destinationIndex.lookup l = some i ↔
      (s.copies.map (·.destination))[i]? = some l)
    (hlength : s.queued.length = s.copies.length)
    (hreader : ∀ l, s.readers.lookup l ≠ some ∅)
    (hflags : ∀ i, s.queued[i]? = some true → i ∈ s.ready)
    (hmem : ∀ l, index ∈ (s.readers.lookup l).getD ∅ → l = location) :
    ∃ s', s.release index location = .ok s' ∧ Performed s s' index ∧
      s'.operations = s.operations ∧ s'.temporaryLive = s.temporaryLive := by
  unfold release
  split
  · rename_i hnone
    refine ⟨s, rfl, .of_unread rfl rfl rfl rfl rfl rfl rfl hreader hflags fun l hl => ?_, rfl, rfl⟩
    obtain rfl := hmem l hl
    simp [hnone] at hl
  rename_i set hset
  -- the other locations have the same readers
  have hother : ∀ l, l ≠ location →
      (s.readers.lookup l).getD ∅ = ((s.readers.lookup l).getD ∅).erase index := fun l hl =>
    (Finset.erase_eq_of_notMem fun hi => hl (hmem l hi)).symm
  split_ifs with hempty
  · have hreaders : ∀ l, ((s.readers.erase location).lookup l).getD ∅ =
        ((s.readers.lookup l).getD ∅).erase index := by
      intro l
      by_cases hl : l = location
      · rw [hl, AList.lookup_erase, hset, Option.getD_some, hempty]
        rfl
      · rw [AList.lookup_erase_ne hl]
        exact hother l hl
    have hreader' : ∀ l, (s.readers.erase location).lookup l ≠ some ∅ := by
      intro l
      by_cases hl : l = location
      · rw [hl, AList.lookup_erase]
        nofun
      · rw [AList.lookup_erase_ne hl]
        exact hreader l
    -- only the row that writes the location has lost its last reader
    have hwriter : ∀ i copy, PendingAt s.copies i copy →
        s.readers.lookup copy.destination ≠ none →
        (s.readers.erase location).lookup copy.destination = none →
        s.destinationIndex.lookup location = some i := by
      intro i copy hi hsome hnone
      have heq : copy.destination = location := by
        by_contra hne
        exact hsome (AList.lookup_erase_ne hne ▸ hnone)
      rw [hindex]
      simp [hi.1, heq]
    dsimp only
    split
    · rename_i hnone
      refine ⟨_, rfl, ⟨rfl, rfl, rfl, rfl, rfl, hreaders, hreader', fun _ hi => hi,
        fun _ hi => .inl hi, fun i copy hi hsome hgone => ?_, hflags, Nat.le_succ _⟩, rfl, rfl⟩
      cases hnone.symm.trans (hwriter i copy hi hsome hgone)
    rename_i writer hfound
    have hdest := (hindex location writer).mp hfound
    rw [List.getElem?_map] at hdest
    obtain ⟨wcopy, hcopy, hlocation⟩ := Option.map_eq_some_iff.mp hdest
    obtain ⟨hlt, -⟩ := List.getElem?_eq_some_iff.mp hcopy
    have hflag := List.getElem?_eq_getElem (hlength.symm ▸ hlt : writer < s.queued.length)
    rw [hcopy, hflag]
    dsimp only
    split_ifs with hqueue
    · have hpending : PendingAt s.copies writer wcopy := ⟨hcopy, hqueue.1⟩
      refine ⟨_, rfl, ⟨rfl, rfl, rfl, rfl, by simp, hreaders, hreader',
        fun i hi => List.mem_append_left _ hi, fun i hi => ?_, fun i copy hi hsome hgone => ?_,
        fun i hi => ?_, by simp⟩, rfl, rfl⟩
      · rcases List.mem_append.mp hi with hi | hi
        · exact .inl hi
        · obtain rfl := List.mem_singleton.mp hi
          exact .inr ⟨wcopy, hpending, by rw [hlocation, AList.lookup_erase]⟩
      · obtain rfl := Option.some.inj (hfound.symm.trans (hwriter i copy hi hsome hgone))
        exact List.mem_append_right _ (List.mem_singleton_self _)
      · rw [List.getElem?_set] at hi
        split_ifs at hi with heq
        · exact List.mem_append_right _ (List.mem_singleton.mpr heq.symm)
        · exact List.mem_append_left _ (hflags i hi)
    · refine ⟨_, rfl, ⟨rfl, rfl, rfl, rfl, rfl, hreaders, hreader', fun _ hi => hi,
        fun _ hi => .inl hi, fun i copy hi hsome hgone => ?_, hflags, Nat.le_succ _⟩, rfl, rfl⟩
      obtain rfl := Option.some.inj (hfound.symm.trans (hwriter i copy hi hsome hgone))
      refine hflags _ (hflag.trans ?_)
      by_contra hqueued
      obtain rfl := Option.some.inj (hcopy.symm.trans hi.1)
      exact hqueue ⟨hi.2, fun htrue => hqueued (congrArg some htrue)⟩
  · have hlookup : ∀ l, l ≠ location →
        (s.readers.insert location (set.erase index)).lookup l = s.readers.lookup l := fun l hl =>
      AList.lookup_insert_ne hl
    have hself : (s.readers.insert location (set.erase index)).lookup location =
        some (set.erase index) := AList.lookup_insert _
    refine ⟨_, rfl, ⟨rfl, rfl, rfl, rfl, rfl, fun l => ?_, fun l => ?_, fun _ hi => hi,
      fun _ hi => .inl hi, fun i copy hi hsome hgone => ?_, hflags, Nat.le_succ _⟩, rfl, rfl⟩
    · by_cases hl : l = location
      · rw [hl, hself, hset]
        rfl
      · rw [hlookup l hl]
        exact hother l hl
    · by_cases hl : l = location
      · rw [hl, hself]
        exact fun h => hempty (Option.some.inj h)
      · rw [hlookup l hl]
        exact hreader l
    · by_cases hl : copy.destination = location
      · rw [hl, hself] at hgone
        cases hgone
      · exact absurd (hlookup _ hl ▸ hgone) hsome

/-- The books after a row is done. -/
theorem Books.retire (h : s.Books sources saved) (hpending : PendingAt s.copies index copy)
    {ready : List Nat} (hready : s.ready = index :: ready) {s₀ : Resolver R}
    (hcopies : s₀.copies = s.copies) (hindex : s₀.destinationIndex = s.destinationIndex)
    (hremaining : s₀.remaining = s.remaining) (hsearch : s₀.cycleSearchStart = s.cycleSearchStart)
    (hlength : s₀.queued.length = s.queued.length) (hreaders : s₀.readers = s.readers)
    (hrest : s₀.ready = ready) (hdone : Performed s₀ s' index)
    (hsaved : ∀ l, l ≠ copy.destination → (saved' = some l ↔ saved = some l))
    (hlive : s'.temporaryLive = saved'.isSome) :
    (s'.retire index copy).Books sources saved' := by
  have hcopies' : s'.copies = s.copies := hdone.copies.trans hcopies
  have hget : s'.copies[index]? = some copy := hcopies' ▸ hpending.1
  have hmap : (s'.copies.set index { copy with pending := false }).map (·.destination) =
      s.copies.map (·.destination) := (map_destination_set hget).trans (by rw [hcopies'])
  -- the rows that are still pending
  have hpend : ∀ i c, PendingAt (s'.copies.set index { copy with pending := false }) i c →
      i ≠ index ∧ PendingAt s.copies i c := by
    intro i c hi
    obtain ⟨hne, hi⟩ := (pendingAt_set hget).mp hi
    exact ⟨hne, hcopies' ▸ hi⟩
  have hlookup : ∀ l, s'.readers.lookup l = none ↔
      ((s.readers.lookup l).getD ∅).erase index = ∅ := by
    intro l
    rw [← hreaders, ← hdone.readers l]
    cases hl : s'.readers.lookup l with
    | none => simp
    | some set => simpa using fun h : set = ∅ => hdone.reader l (h ▸ hl)
  refine ⟨?_, fun l i => ?_, ?_, fun i c hi => ?_, fun l i => ?_, hdone.reader, fun i hi => ?_,
    fun i c hi => ?_, hdone.queued, fun i c hlt hi => ?_, ?_, hlive⟩
  · exact hmap ▸ h.distinct
  · change s'.destinationIndex.lookup l = some i ↔ _
    rw [hdone.destinationIndex, hindex, h.index]
    exact hmap ▸ Iff.rfl
  · change s'.queued.length = (s'.copies.set _ _).length
    rw [List.length_set, hdone.queuedLength, hlength, h.queuedLength, hcopies']
  · obtain ⟨hne, hi⟩ := hpend i c hi
    have hdest : c.destination ≠ copy.destination := fun heq =>
      hne (hi.unique h.distinct hpending heq)
    obtain ⟨source, hsource, hself, hwhere⟩ := h.source i c hi
    refine ⟨source, hsource, hself, ?_⟩
    rwa [ne_eq, hsaved _ hdest]
  · change i ∈ (s'.readers.lookup l).getD ∅ ↔ _
    rw [hdone.readers l, hreaders, Finset.mem_erase, h.readers]
    constructor
    · rintro ⟨hne, c, hi, hreads⟩
      exact ⟨c, (pendingAt_set hget).mpr ⟨hne, hcopies' ▸ hi⟩, hreads⟩
    · rintro ⟨c, hi, hreads⟩
      obtain ⟨hne, hi⟩ := hpend i c hi
      exact ⟨hne, c, hi, hreads⟩
  · have hbound : i < s.copies.length := by
      rcases hdone.added i hi with hi | ⟨c, hi, -⟩
      · exact (h.ready i (hready ▸ List.mem_cons_of_mem _ (hrest ▸ hi))).1
      · obtain ⟨hlt, -⟩ := List.getElem?_eq_some_iff.mp hi.1
        exact hcopies ▸ hlt
    refine ⟨?_, fun c hc => ?_⟩
    · change i < (s'.copies.set _ _).length
      rwa [List.length_set, hcopies']
    · obtain ⟨-, hc⟩ := hpend i c hc
      rcases hdone.added i hi with hi | ⟨c', hi, hnone⟩
      · have hnone := (h.ready i (hready ▸ List.mem_cons_of_mem _ (hrest ▸ hi))).2 c hc
        exact (hlookup _).mpr (by simp [hnone])
      · obtain rfl := Option.some.inj (hc.1.symm.trans (hcopies ▸ hi.1))
        exact hnone
  · obtain ⟨hne, hi⟩ := hpend i c hi
    by_cases hnone : s'.readers.lookup c.destination = none
    · refine .inl ?_
      rcases h.blocked i c hi with hmem | hsome
      · rw [hready] at hmem
        exact hdone.kept i (hrest ▸ (List.mem_cons.mp hmem).resolve_left hne)
      · exact hdone.released i c (hcopies ▸ hi) (hreaders ▸ hsome) hnone
    · exact .inr hnone
  · obtain ⟨hne, hi⟩ := hpend i c hi
    have hmem := h.search i c (hsearch ▸ hdone.searchStart ▸ hlt) hi
    rw [hready] at hmem
    exact hdone.kept i (hrest ▸ (List.mem_cons.mp hmem).resolve_left hne)
  · change s'.remaining - 1 = (s'.copies.set _ _).countP _
    have hcount := countP_set (⟨hget, hpending.2⟩ : PendingAt s'.copies index copy)
    rw [hdone.remaining, hremaining, h.remaining, ← hcopies', ← hcount]
    rfl

end Resolver

end Celox.Regalloc
