import Mathlib

/-! # Memory dependences

`celox-analysis/src/dependence.rs` and the effects of `memory.rs`. A `BTreeMap` is an `AList` whose
keys are looked at in order where the order matters; `stop` is the source's `end`. -/
namespace Celox.Analysis

/-! ## Effects -/

def i64Max : Int := 2 ^ 63 - 1

structure MemoryLocation (O : Type) where
  object : O
  offset : Int
  byteLen : Nat
  deriving DecidableEq, Repr

def MemoryLocation.stop {O : Type} (location : MemoryLocation O) : Option Int :=
  if (location.byteLen : Int) ≤ i64Max ∧ location.offset + location.byteLen ≤ i64Max then
    some (location.offset + location.byteLen)
  else none

inductive MemoryEffect (O : Type) where
  | exact (location : MemoryLocation O)
  | unknownObject (object : O)
  | unknownAll
  deriving DecidableEq, Repr

def effectsMayAlias {O : Type} [DecidableEq O] : MemoryEffect O → MemoryEffect O → Bool
  | .unknownAll, _ | _, .unknownAll => true
  | .unknownObject left, .unknownObject right => left = right
  | .unknownObject object, .exact location | .exact location, .unknownObject object =>
    object = location.object
  | .exact left, .exact right =>
    if left.object ≠ right.object then false
    else match left.stop, right.stop with
      | some leftStop, some rightStop => left.offset < rightStop && right.offset < leftStop
      | _, _ => true

/-! ## Histories of ranges -/

structure AccessHistory (I : Type) where
  lastWriter : Option I
  readersSinceWrite : List I
  deriving DecidableEq, Repr

def AccessHistory.empty {I : Type} : AccessHistory I := ⟨none, []⟩

/-- A reader is added unless it is the last one already. -/
def recordReader {I : Type} [DecidableEq I] (readers : List I) (instruction : I) : List I :=
  if readers.getLast? ≠ some instruction then readers ++ [instruction] else readers

def AccessHistory.recordReader {I : Type} [DecidableEq I] (history : AccessHistory I)
    (instruction : I) : AccessHistory I :=
  { history with readersSinceWrite := Analysis.recordReader history.readersSinceWrite instruction }

structure MemorySegment (I : Type) where
  stop : Int
  history : AccessHistory I
  deriving DecidableEq, Repr

abbrev Segments (I : Type) := AList fun _ : Int => MemorySegment I

section Segments
variable {I : Type} [DecidableEq I]

/-- The starts in a range, in order. -/
def Segments.startsIn (segments : Segments I) (offset stop : Int) : List Int :=
  (segments.keys.filter fun start => offset ≤ start ∧ start < stop).insertionSort (· ≤ ·)

def Segments.splitAt (segments : Segments I) (point : Int) : Segments I :=
  match (segments.keys.filter (· ≤ point)).max? with
  | none => segments
  | some start => match segments.lookup start with
    | none => segments
    | some segment =>
      if start = point ∨ segment.stop ≤ point then segments
      else (segments.insert start { segment with stop := point }).insert point segment

/-- Segments without accesses where there are none, and where the last segment ends. -/
def fillGaps : (existing : List (Int × Int)) → (cursor : Int) → Segments I → Int × Segments I
  | [], cursor, segments => (cursor, segments)
  | (start, stop) :: existing, cursor, segments =>
    fillGaps existing (max cursor stop)
      (if cursor < start then segments.insert cursor ⟨start, .empty⟩ else segments)

def recordAt (instruction : I) (state : Segments I × Finset I) (start : Int) :
    Segments I × Finset I :=
  match state.1.lookup start with
  | none => state
  | some segment =>
    (state.1.insert start { segment with history := segment.history.recordReader instruction },
      state.2 ∪ segment.history.lastWriter.toFinset)

def Segments.read (segments : Segments I) (offset stop : Int) (instruction : I)
    (dependencies : Finset I) : Segments I × Finset I :=
  let segments := (segments.splitAt offset).splitAt stop
  let existing := (segments.startsIn offset stop).filterMap fun start =>
    (segments.lookup start).map fun segment => (start, segment.stop)
  let (cursor, segments) := fillGaps existing offset segments
  let segments := if cursor < stop then segments.insert cursor ⟨stop, .empty⟩ else segments
  (Segments.startsIn segments offset stop).foldl (recordAt instruction) (segments, dependencies)

/-- Writers and readers of a segment. -/
def AccessHistory.all (history : AccessHistory I) : List I :=
  history.lastWriter.toList ++ history.readersSinceWrite

/-- Put the second of two segments that touch into the first. -/
def Segments.absorb (segments : Segments I) (start stop : Int) (absorbed : Int) : Segments I :=
  match (segments.erase absorbed).lookup start with
  | none => segments.erase absorbed
  | some segment => (segments.erase absorbed).insert start { segment with stop }

/-- The segment in front takes the current one in if it ends there with the same accesses. -/
def Segments.joinPredecessor (segments : Segments I) (start : Int) (current : MemorySegment I) :
    Int × Segments I :=
  let predecessor := (segments.keys.filter (· < start)).max?.bind fun other =>
    (segments.lookup other).map fun segment => (other, segment)
  match predecessor with
  | some (otherStart, other) =>
    if other.stop = start ∧ other.history = current.history then
      (otherStart, segments.absorb otherStart current.stop start)
    else (start, segments)
  | none => (start, segments)

def Segments.joinSuccessor (segments : Segments I) (start : Int) (current : MemorySegment I) :
    Segments I :=
  match segments.lookup current.stop with
  | some successor =>
    if successor.history = current.history then segments.absorb start successor.stop current.stop
    else segments
  | none => segments

def Segments.coalesceAround (segments : Segments I) (start : Int) : Segments I :=
  match segments.lookup start with
  | none => segments
  | some current =>
    let (start, segments) := segments.joinPredecessor start current
    segments.joinSuccessor start current

def Segments.write (segments : Segments I) (offset stop : Int) (instruction : I)
    (dependencies : Finset I) : Segments I × Finset I :=
  let segments := (segments.splitAt offset).splitAt stop
  let starts := segments.startsIn offset stop
  let dependencies := dependencies ∪ (starts.flatMap fun start =>
    ((segments.lookup start).map fun segment => segment.history.all).getD []).toFinset
  let segments := starts.foldl (fun segments start => segments.erase start) segments
  (Segments.coalesceAround (segments.insert offset ⟨stop, ⟨some instruction, []⟩⟩) offset,
    dependencies)

def Segments.writers (segments : Segments I) : List I :=
  segments.entries.flatMap fun entry => entry.2.history.lastWriter.toList

def Segments.all (segments : Segments I) : List I :=
  segments.entries.flatMap fun entry => entry.2.history.all

end Segments

/-! ## Histories of objects -/

structure MemoryObjectHistory (I : Type) where
  exact : Segments I
  lastUnknownWriter : Option I
  unknownReadersSinceWrite : List I

section Tracker
variable {I : Type} [DecidableEq I]

def MemoryObjectHistory.empty : MemoryObjectHistory I := ⟨∅, none, []⟩

def MemoryObjectHistory.collectWriters (history : MemoryObjectHistory I) : Finset I :=
  history.lastUnknownWriter.toFinset ∪ history.exact.writers.toFinset

def MemoryObjectHistory.collectReadsAndWrites (history : MemoryObjectHistory I) : Finset I :=
  history.lastUnknownWriter.toFinset ∪ history.unknownReadersSinceWrite.toFinset ∪
    history.exact.all.toFinset

def MemoryObjectHistory.readExact (history : MemoryObjectHistory I) (offset stop : Int)
    (instruction : I) (dependencies : Finset I) : MemoryObjectHistory I × Finset I :=
  let (exact, dependencies) := history.exact.read offset stop instruction
    (dependencies ∪ history.lastUnknownWriter.toFinset)
  ({ history with exact }, dependencies)

def MemoryObjectHistory.writeExact (history : MemoryObjectHistory I) (offset stop : Int)
    (instruction : I) (dependencies : Finset I) : MemoryObjectHistory I × Finset I :=
  let (exact, dependencies) := history.exact.write offset stop instruction
    (dependencies ∪ history.lastUnknownWriter.toFinset ∪ history.unknownReadersSinceWrite.toFinset)
  ({ history with exact }, dependencies)

def MemoryObjectHistory.readUnknown (history : MemoryObjectHistory I) (instruction : I)
    (dependencies : Finset I) : MemoryObjectHistory I × Finset I :=
  ({ history with
      unknownReadersSinceWrite := recordReader history.unknownReadersSinceWrite instruction },
    dependencies ∪ history.collectWriters)

def MemoryObjectHistory.writeUnknown (history : MemoryObjectHistory I) (instruction : I)
    (dependencies : Finset I) : MemoryObjectHistory I × Finset I :=
  (⟨∅, some instruction, []⟩, dependencies ∪ history.collectReadsAndWrites)

/-! ## The tracker -/

structure MemoryDependencyTracker (O I : Type) where
  objects : AList fun _ : O => MemoryObjectHistory I
  lastGlobalWriter : Option I
  globalReadersSinceWrite : List I

variable {O : Type} [DecidableEq O]

def MemoryDependencyTracker.empty : MemoryDependencyTracker O I := ⟨∅, none, []⟩

/-- `entry(object).or_default()`. -/
def MemoryDependencyTracker.objectAt (tracker : MemoryDependencyTracker O I) (object : O) :
    MemoryObjectHistory I :=
  (tracker.objects.lookup object).getD .empty

/-- What an access does to the history of its object. -/
def MemoryDependencyTracker.update (tracker : MemoryDependencyTracker O I) (object : O)
    (access : MemoryObjectHistory I → Finset I → MemoryObjectHistory I × Finset I)
    (dependencies : Finset I) : MemoryDependencyTracker O I × Finset I :=
  let (history, dependencies) := access (tracker.objectAt object) dependencies
  ({ tracker with objects := tracker.objects.insert object history }, dependencies)

def MemoryDependencyTracker.globalHistory (tracker : MemoryDependencyTracker O I) : Finset I :=
  tracker.lastGlobalWriter.toFinset ∪ tracker.globalReadersSinceWrite.toFinset

def MemoryDependencyTracker.read (tracker : MemoryDependencyTracker O I) (instruction : I)
    (dependencies : Finset I) : MemoryEffect O → MemoryDependencyTracker O I × Finset I
  | .exact location =>
    if location.byteLen = 0 then (tracker, dependencies)
    else
      let dependencies := dependencies ∪ tracker.lastGlobalWriter.toFinset
      match location.stop with
      | some stop => tracker.update location.object
          (fun history => history.readExact location.offset stop instruction) dependencies
      | none => tracker.update location.object
          (fun history => history.readUnknown instruction) dependencies
  | .unknownObject object =>
    tracker.update object (fun history => history.readUnknown instruction)
      (dependencies ∪ tracker.lastGlobalWriter.toFinset)
  | .unknownAll =>
    ({ tracker with
        globalReadersSinceWrite := recordReader tracker.globalReadersSinceWrite instruction },
      tracker.objects.entries.foldl (fun dependencies entry => dependencies ∪ entry.2.collectWriters)
        (dependencies ∪ tracker.lastGlobalWriter.toFinset))

def MemoryDependencyTracker.write (tracker : MemoryDependencyTracker O I) (instruction : I)
    (dependencies : Finset I) : MemoryEffect O → MemoryDependencyTracker O I × Finset I
  | .exact location =>
    if location.byteLen = 0 then (tracker, dependencies)
    else
      let dependencies := dependencies ∪ tracker.globalHistory
      match location.stop with
      | some stop => tracker.update location.object
          (fun history => history.writeExact location.offset stop instruction) dependencies
      | none => tracker.update location.object
          (fun history => history.writeUnknown instruction) dependencies
  | .unknownObject object =>
    tracker.update object (fun history => history.writeUnknown instruction)
      (dependencies ∪ tracker.globalHistory)
  | .unknownAll =>
    (⟨∅, some instruction, []⟩,
      tracker.objects.entries.foldl
        (fun dependencies entry => dependencies ∪ entry.2.collectReadsAndWrites)
        (dependencies ∪ tracker.globalHistory))

structure MemoryEvent (O I : Type) where
  instruction : I
  reads : List (MemoryEffect O)
  writes : List (MemoryEffect O)

def MemoryDependencyTracker.addEvent (tracker : MemoryDependencyTracker O I)
    (event : MemoryEvent O I) (dependencies : Finset I) :
    MemoryDependencyTracker O I × Finset I :=
  let state := event.reads.foldl
    (fun state effect => state.1.read event.instruction state.2 effect) (tracker, dependencies)
  let state := event.writes.foldl
    (fun state effect => state.1.write event.instruction state.2 effect) state
  (state.1, state.2.erase event.instruction)

/-- The dependencies of each event of a sequence, from none on. -/
def MemoryDependencyTracker.track (tracker : MemoryDependencyTracker O I) :
    List (MemoryEvent O I) → List (I × Finset I)
  | [] => []
  | event :: events =>
    let (tracker, dependencies) := tracker.addEvent event ∅
    (event.instruction, dependencies) :: track tracker events

end Tracker

/-! ## Histories of ranges

Segments never overlap, and what a range holds is seen byte by byte: reads and writes change it there
only, however segments are split and put together. -/

section Segments
variable {I : Type} {segments : Segments I} {history : AccessHistory I}
  {k instruction : I} {w : Bool} {x point offset stop : Int}

/-- The writer, or one of the readers. -/
def AccessHistory.Has (history : AccessHistory I) (k : I) (w : Bool) : Prop :=
  if w then history.lastWriter = some k else k ∈ history.readersSinceWrite

theorem AccessHistory.mem_all : k ∈ history.all ↔ ∃ w, history.Has k w := by
  simp [AccessHistory.all, AccessHistory.Has, or_comm]

theorem AccessHistory.not_has_empty : ¬ (AccessHistory.empty : AccessHistory I).Has k w := by
  cases w <;> simp [AccessHistory.Has, AccessHistory.empty]

theorem mem_recordReader [DecidableEq I] {readers : List I} :
    k ∈ recordReader readers instruction ↔ k ∈ readers ∨ k = instruction := by
  unfold recordReader
  split
  · simp
  · rename_i hlast
    have hmem := List.mem_of_getLast? (not_not.mp hlast)
    exact ⟨.inl, fun h => h.elim id fun heq => heq ▸ hmem⟩

theorem AccessHistory.has_recordReader [DecidableEq I] :
    (history.recordReader instruction).Has k w ↔ history.Has k w ∨ k = instruction ∧ w = false := by
  cases w with
  | true => simp [AccessHistory.Has, AccessHistory.recordReader]
  | false => simp [AccessHistory.Has, AccessHistory.recordReader, mem_recordReader]

/-- What is held at a byte. -/
def Segments.Holds (segments : Segments I) (k : I) (w : Bool) (x : Int) : Prop :=
  ∃ start segment, segments.lookup start = some segment ∧ start ≤ x ∧ x < segment.stop ∧
    segment.history.Has k w

/-- Segments are not empty and do not overlap. -/
structure Segments.Apart (segments : Segments I) : Prop where
  proper : ∀ start segment, segments.lookup start = some segment → start < segment.stop
  apart : ∀ start segment next segment', segments.lookup start = some segment →
    segments.lookup next = some segment' → start < next → segment.stop ≤ next

theorem Segments.apart_empty : Segments.Apart (∅ : Segments I) where
  proper s segment hs := by
    rw [AList.lookup_empty] at hs
    cases hs
  apart s segment s' segment' hs := by
    rw [AList.lookup_empty] at hs
    cases hs

/-- No segment lies on both sides of the point. -/
def Segments.Cut (segments : Segments I) (point : Int) : Prop :=
  ∀ start segment, segments.lookup start = some segment → start < point → segment.stop ≤ point

theorem lookup_insert_eq (segments : Segments I) (start s : Int) (segment : MemorySegment I) :
    (segments.insert start segment).lookup s =
      if s = start then some segment else segments.lookup s := by
  split
  · rename_i heq
    rw [heq, AList.lookup_insert]
  · rename_i hne
    rw [AList.lookup_insert_ne hne]

theorem lookup_erase_eq (segments : Segments I) (start s : Int) :
    (segments.erase start).lookup s = if s = start then none else segments.lookup s := by
  split
  · rename_i heq
    rw [heq, AList.lookup_erase]
  · rename_i hne
    rw [AList.lookup_erase_ne hne]

theorem mem_keys_iff {start : Int} : start ∈ segments.keys ↔
    ∃ segment, segments.lookup start = some segment := by
  rw [← AList.mem_keys, ← AList.lookup_isSome, Option.isSome_iff_exists]

/-! ## Splitting and joining -/

/-- One segment as a whole and in two halves. -/
structure Halved (whole halves : Segments I) (start point : Int) (segment : MemorySegment I) :
    Prop where
  lt : start < point
  lt_stop : point < segment.stop
  whole_start : whole.lookup start = some segment
  whole_point : whole.lookup point = none
  halves_start : halves.lookup start = some { segment with stop := point }
  halves_point : halves.lookup point = some segment
  rest : ∀ s, s ≠ start → s ≠ point → halves.lookup s = whole.lookup s

section Halved
variable {whole halves : Segments I} {start : Int} {segment : MemorySegment I}

theorem Halved.holds (h : Halved whole halves start point segment) :
    Segments.Holds halves k w x ↔ Segments.Holds whole k w x := by
  obtain ⟨hlt, hstop, hws, hwp, hhs, hhp, hrest⟩ := h
  constructor
  · rintro ⟨s, seg, hs, hle, hx, hhas⟩
    by_cases hss : s = start
    · subst hss
      rw [hhs] at hs
      cases hs
      exact ⟨s, segment, hws, hle, hx.trans hstop, hhas⟩
    · by_cases hsp : s = point
      · subst hsp
        rw [hhp] at hs
        cases hs
        exact ⟨start, segment, hws, hlt.le.trans hle, hx, hhas⟩
      · exact ⟨s, seg, (hrest s hss hsp) ▸ hs, hle, hx, hhas⟩
  · rintro ⟨s, seg, hs, hle, hx, hhas⟩
    by_cases hss : s = start
    · subst hss
      rw [hws] at hs
      cases hs
      by_cases hxp : x < point
      · exact ⟨s, _, hhs, hle, hxp, hhas⟩
      · exact ⟨point, segment, hhp, not_lt.mp hxp, hx, hhas⟩
    · have hsp : s ≠ point := by
        rintro rfl
        rw [hwp] at hs
        cases hs
      exact ⟨s, seg, (hrest s hss hsp).trans hs, hle, hx, hhas⟩

theorem Halved.apart_halves (h : Halved whole halves start point segment)
    (hapart : Segments.Apart whole) : Segments.Apart halves := by
  obtain ⟨hlt, hstop, hws, hwp, hhs, hhp, hrest⟩ := h
  obtain ⟨hproper, hap⟩ := hapart
  constructor
  · intro s seg hs
    grind
  · intro s seg s' seg' hs hs' hss
    grind

theorem Halved.apart_whole (h : Halved whole halves start point segment)
    (hapart : Segments.Apart halves) : Segments.Apart whole := by
  obtain ⟨hlt, hstop, hws, hwp, hhs, hhp, hrest⟩ := h
  obtain ⟨hproper, hap⟩ := hapart
  constructor
  · intro s seg hs
    grind
  · intro s seg s' seg' hs hs' hss
    grind

theorem Halved.cut {q : Int} (h : Halved whole halves start point segment)
    (hcut : Segments.Cut whole q) : Segments.Cut halves q := by
  obtain ⟨hlt, hstop, hws, hwp, hhs, hhp, hrest⟩ := h
  intro s seg hs hsq
  have := hcut start segment hws
  by_cases hss : s = start
  · grind
  · by_cases hsp : s = point
    · grind
    · exact hcut s seg ((hrest s hss hsp) ▸ hs) hsq

end Halved

theorem splitAt_spec (h : Segments.Apart segments) (point : Int) :
    Segments.Apart (segments.splitAt point) ∧ Segments.Cut (segments.splitAt point) point ∧
      (∀ k w x, Segments.Holds (segments.splitAt point) k w x ↔ Segments.Holds segments k w x) ∧
      ∀ q, Segments.Cut segments q → Segments.Cut (segments.splitAt point) q := by
  unfold Segments.splitAt
  split
  · -- all segments start behind the point
    rename_i hnone
    refine ⟨h, fun start segment hs hlt => ?_, fun _ _ _ => Iff.rfl, fun _ hq => hq⟩
    have hmem : start ∈ segments.keys.filter (· ≤ point) :=
      List.mem_filter.mpr ⟨mem_keys_iff.mpr ⟨segment, hs⟩, by simpa using hlt.le⟩
    rw [List.max?_eq_none_iff.mp hnone] at hmem
    exact absurd hmem List.not_mem_nil
  · rename_i start hsome
    obtain ⟨hmem, hmax⟩ := List.max?_eq_some_iff.mp hsome
    obtain ⟨hkey, hle⟩ := List.mem_filter.mp hmem
    simp only [decide_eq_true_eq] at hle
    obtain ⟨segment, hsegment⟩ := mem_keys_iff.mp hkey
    rw [hsegment]
    have hbefore : ∀ s seg, segments.lookup s = some seg → s ≤ point → s ≠ start →
        seg.stop ≤ start := by
      intro s seg hs hsp hne
      have hle' : s ≤ start := hmax s (List.mem_filter.mpr
        ⟨mem_keys_iff.mpr ⟨seg, hs⟩, by simpa using hsp⟩)
      exact h.apart s seg start segment hs hsegment (lt_of_le_of_ne hle' hne)
    dsimp only
    split
    · rename_i hout
      refine ⟨h, fun s seg hs hlt => ?_, fun _ _ _ => Iff.rfl, fun _ hq => hq⟩
      by_cases heq : s = start
      · subst heq
        rw [hsegment] at hs
        cases hs
        omega
      · have := hbefore s seg hs hlt.le heq
        omega
    · rename_i hin
      rw [not_or, not_le] at hin
      have hlt : start < point := lt_of_le_of_ne hle hin.1
      have hpoint : segments.lookup point = none := by
        cases hp : segments.lookup point with
        | none => rfl
        | some seg =>
          have := hmax point (List.mem_filter.mpr ⟨mem_keys_iff.mpr ⟨seg, hp⟩, by simp⟩)
          omega
      have halved : Halved segments ((segments.insert start { segment with stop := point }).insert
          point segment) start point segment := by
        refine ⟨hlt, hin.2, hsegment, hpoint, ?_, AList.lookup_insert _, fun s hs hsp => ?_⟩
        · rw [AList.lookup_insert_ne hin.1, AList.lookup_insert]
        · rw [AList.lookup_insert_ne hsp, AList.lookup_insert_ne hs]
      refine ⟨halved.apart_halves h, fun s seg hs hsp => ?_, fun k w x => halved.holds,
        fun q hq => halved.cut hq⟩
      by_cases hss : s = start
      · subst hss
        rw [halved.halves_start] at hs
        cases hs
        exact le_rfl
      · rw [halved.rest s hss hsp.ne] at hs
        exact (hbefore s seg hs hsp.le hss).trans hle

theorem absorb_halved (h : Segments.Apart segments) {start : Int}
    {segment absorbed : MemorySegment I} (hstart : segments.lookup start = some segment)
    (habsorbed : segments.lookup segment.stop = some absorbed)
    (hhistory : absorbed.history = segment.history) :
    Halved (segments.absorb start absorbed.stop segment.stop) segments start segment.stop
      absorbed := by
  have hlt := h.proper start segment hstart
  have hlookup : (segments.erase segment.stop).lookup start = some segment := by
    rw [AList.lookup_erase_ne hlt.ne, hstart]
  have heq : segments.absorb start absorbed.stop segment.stop =
      (segments.erase segment.stop).insert start absorbed := by
    unfold Segments.absorb
    rw [hlookup]
    obtain ⟨stop, history⟩ := absorbed
    cases hhistory
    rfl
  rw [heq]
  refine ⟨hlt, h.proper _ _ habsorbed, AList.lookup_insert _, ?_, ?_, habsorbed, fun s hs hsp => ?_⟩
  · rw [AList.lookup_insert_ne hlt.ne', AList.lookup_erase]
  · rw [hstart, hhistory]
  · rw [AList.lookup_insert_ne hs, AList.lookup_erase_ne hsp]

theorem joinPredecessor_spec [DecidableEq I] (h : Segments.Apart segments) {start : Int}
    {current : MemorySegment I} (hcurrent : segments.lookup start = some current) :
    Segments.Apart (segments.joinPredecessor start current).2 ∧
      (segments.joinPredecessor start current).2.lookup (segments.joinPredecessor start current).1 =
        some current ∧
      ∀ k w x, Segments.Holds (segments.joinPredecessor start current).2 k w x ↔
        Segments.Holds segments k w x := by
  have hsame : Segments.Apart (start, segments).2 ∧
      (start, segments).2.lookup (start, segments).1 = some current ∧
      ∀ k w x, Segments.Holds (start, segments).2 k w x ↔ Segments.Holds segments k w x :=
    ⟨h, hcurrent, fun _ _ _ => Iff.rfl⟩
  generalize hjoined : segments.joinPredecessor start current = joined
  unfold Segments.joinPredecessor at hjoined
  dsimp only at hjoined
  split at hjoined
  · rename_i otherStart other hpredecessor
    obtain ⟨s, -, hs⟩ := Option.bind_eq_some_iff.mp hpredecessor
    obtain ⟨seg, hother, heq⟩ := Option.map_eq_some_iff.mp hs
    cases heq
    split at hjoined
    · rename_i hjoin
      obtain ⟨rfl, hhistory⟩ := hjoin
      have halved := absorb_halved h hother hcurrent hhistory.symm
      exact hjoined ▸ ⟨halved.apart_whole h, halved.whole_start, fun k w x => halved.holds.symm⟩
    · exact hjoined ▸ hsame
  · exact hjoined ▸ hsame

theorem joinSuccessor_spec [DecidableEq I] (h : Segments.Apart segments) {start : Int}
    {current : MemorySegment I} (hcurrent : segments.lookup start = some current) :
    Segments.Apart (segments.joinSuccessor start current) ∧
      ∀ k w x, Segments.Holds (segments.joinSuccessor start current) k w x ↔
        Segments.Holds segments k w x := by
  unfold Segments.joinSuccessor
  split
  · rename_i successor hsuccessor
    split
    · rename_i hhistory
      have halved := absorb_halved h hcurrent hsuccessor hhistory
      exact ⟨halved.apart_whole h, fun k w x => halved.holds.symm⟩
    · exact ⟨h, fun _ _ _ => Iff.rfl⟩
  · exact ⟨h, fun _ _ _ => Iff.rfl⟩

/-- Segments with the same accesses are put together, with nothing changed at any byte. -/
theorem coalesceAround_spec [DecidableEq I] (h : Segments.Apart segments) (start : Int) :
    Segments.Apart (segments.coalesceAround start) ∧
      ∀ k w x, Segments.Holds (segments.coalesceAround start) k w x ↔
        Segments.Holds segments k w x := by
  unfold Segments.coalesceAround
  split
  · exact ⟨h, fun _ _ _ => Iff.rfl⟩
  · rename_i current hcurrent
    obtain ⟨hapart, hstart, hholds⟩ := joinPredecessor_spec h hcurrent
    obtain ⟨hapart', hholds'⟩ := joinSuccessor_spec hapart hstart
    exact ⟨hapart', fun k w x => (hholds' k w x).trans (hholds k w x)⟩

/-! ## Starts -/

theorem mem_startsIn {s : Int} : s ∈ segments.startsIn offset stop ↔
    (∃ segment, segments.lookup s = some segment) ∧ offset ≤ s ∧ s < stop := by
  rw [Segments.startsIn, List.mem_insertionSort, List.mem_filter, mem_keys_iff, decide_eq_true_eq]

theorem startsIn_sorted : (segments.startsIn offset stop).Pairwise (· < ·) := by
  unfold Segments.startsIn
  exact (List.pairwise_insertionSort (· ≤ ·) _).imp₂ (fun a b hle hne => lt_of_le_of_ne hle hne)
    ((List.perm_insertionSort (· ≤ ·) _).nodup_iff.mpr (segments.keys_nodup.filter _))

/-- Where no segment crosses the ends of a range, those that hold its bytes start in it. -/
theorem Segments.Cut.start_mem (hoffset : Segments.Cut segments offset) {s : Int}
    {segment : MemorySegment I} (hs : segments.lookup s = some segment) (hle : s ≤ x)
    (hlt : x < segment.stop) (hox : offset ≤ x) (hxs : x < stop) :
    s ∈ segments.startsIn offset stop := by
  refine mem_startsIn.mpr ⟨⟨segment, hs⟩, ?_, by omega⟩
  by_contra hlt'
  have := hoffset s segment hs (not_le.mp hlt')
  omega

/-! ## Writing -/

theorem lookup_foldl_erase (starts : List Int) (segments : Segments I) (s : Int) :
    (starts.foldl (fun segments start => segments.erase start) segments).lookup s =
      if s ∈ starts then none else segments.lookup s := by
  induction starts generalizing segments with
  | nil => simp
  | cons start starts ih =>
    rw [List.foldl_cons, ih, lookup_erase_eq]
    simp only [List.mem_cons]
    grind

theorem write_spec [DecidableEq I] (h : Segments.Apart segments) (hlt : offset < stop)
    (dependencies : Finset I) :
    Segments.Apart (segments.write offset stop instruction dependencies).1 ∧
      (∀ k w x, Segments.Holds (segments.write offset stop instruction dependencies).1 k w x ↔
        Segments.Holds segments k w x ∧ ¬ (offset ≤ x ∧ x < stop) ∨
          k = instruction ∧ w = true ∧ offset ≤ x ∧ x < stop) ∧
      ∀ k, k ∈ (segments.write offset stop instruction dependencies).2 ↔ k ∈ dependencies ∨
        ∃ w x, (offset ≤ x ∧ x < stop) ∧ Segments.Holds segments k w x := by
  obtain ⟨h₁, hcut₁, hholds₁, -⟩ := splitAt_spec h offset
  obtain ⟨h₂, hcut₂, hholds₂, hkeep⟩ := splitAt_spec h₁ stop
  have hoffset := hkeep offset hcut₁
  have hholds : ∀ k w x, Segments.Holds ((segments.splitAt offset).splitAt stop) k w x ↔
      Segments.Holds segments k w x := fun k w x => (hholds₂ k w x).trans (hholds₁ k w x)
  unfold Segments.write
  dsimp only
  generalize (segments.splitAt offset).splitAt stop = cut at h₂ hcut₂ hoffset hholds
  simp only [← hholds]
  have hlookup : ∀ s, (((cut.startsIn offset stop).foldl (fun segments start =>
      segments.erase start) cut).insert offset ⟨stop, ⟨some instruction, []⟩⟩).lookup s =
        if s = offset then some ⟨stop, ⟨some instruction, []⟩⟩
        else if s ∈ cut.startsIn offset stop then none else cut.lookup s := by
    intro s
    rw [lookup_insert_eq, lookup_foldl_erase]
  generalize ((cut.startsIn offset stop).foldl (fun segments start => segments.erase start)
    cut).insert offset ⟨stop, ⟨some instruction, []⟩⟩ = written at hlookup
  -- a segment kept lies on one side of the range
  have hkept : ∀ s seg, s ≠ offset → written.lookup s = some seg →
      cut.lookup s = some seg ∧ (seg.stop ≤ offset ∨ stop ≤ s) := by
    intro s seg hne hs
    rw [hlookup, if_neg hne] at hs
    split at hs
    · cases hs
    · rename_i hout
      refine ⟨hs, ?_⟩
      by_cases hso : s < offset
      · exact .inl (hoffset s seg hs hso)
      · right
        by_contra hss
        exact hout (mem_startsIn.mpr ⟨⟨seg, hs⟩, by omega, by omega⟩)
  have hnew : written.lookup offset = some ⟨stop, ⟨some instruction, []⟩⟩ := by
    rw [hlookup, if_pos rfl]
  have hapart : Segments.Apart written := by
    constructor
    · intro s seg hs
      by_cases hne : s = offset
      · rw [hne, hnew] at hs
        cases hs
        rw [hne]
        exact hlt
      · exact h₂.proper s seg (hkept s seg hne hs).1
    · intro s seg s' seg' hs hs' hss
      by_cases hne : s = offset
      · have hne' : s' ≠ offset := by omega
        obtain ⟨hs'', hside⟩ := hkept s' seg' hne' hs'
        have := h₂.proper s' seg' hs''
        rw [hne, hnew] at hs
        cases hs
        dsimp only
        omega
      · obtain ⟨hs₀, hside⟩ := hkept s seg hne hs
        have := h₂.proper s seg hs₀
        by_cases hne' : s' = offset
        · omega
        · exact h₂.apart s seg s' seg' hs₀ (hkept s' seg' hne' hs').1 hss
  obtain ⟨hapart', hholds'⟩ := coalesceAround_spec hapart offset
  refine ⟨hapart', fun k w x => ?_, fun k => ?_⟩
  · rw [hholds']
    constructor
    · rintro ⟨s, seg, hs, hle, hx, hhas⟩
      by_cases hne : s = offset
      · rw [hne, hnew] at hs
        cases hs
        cases w with
        | false => simp [AccessHistory.Has] at hhas
        | true =>
          obtain rfl : instruction = k := by simpa [AccessHistory.Has] using hhas
          exact .inr ⟨rfl, rfl, hne ▸ hle, hx⟩
      · obtain ⟨hs₀, hside⟩ := hkept s seg hne hs
        exact .inl ⟨⟨s, seg, hs₀, hle, hx, hhas⟩, by omega⟩
    · rintro (⟨⟨s, seg, hs, hle, hx, hhas⟩, hout⟩ | ⟨rfl, rfl, hox, hxs⟩)
      · have hno : s ∉ cut.startsIn offset stop := by
          intro hmem
          obtain ⟨-, hos, hss⟩ := mem_startsIn.mp hmem
          have : seg.stop ≤ stop := hcut₂ s seg hs hss
          omega
        have hne : s ≠ offset := fun heq =>
          hno (mem_startsIn.mpr ⟨⟨seg, hs⟩, heq.ge, by omega⟩)
        exact ⟨s, seg, by rw [hlookup, if_neg hne, if_neg hno, hs], hle, hx, hhas⟩
      · exact ⟨offset, _, hnew, hox, hxs, by simp [AccessHistory.Has]⟩
  · rw [Finset.mem_union, List.mem_toFinset, List.mem_flatMap]
    refine or_congr_right ⟨?_, ?_⟩
    · rintro ⟨s, hs, hk⟩
      obtain ⟨⟨seg, hseg⟩, hos, hss⟩ := mem_startsIn.mp hs
      rw [hseg, Option.map_some, Option.getD_some] at hk
      obtain ⟨w, hhas⟩ := AccessHistory.mem_all.mp hk
      exact ⟨w, s, ⟨hos, hss⟩, s, seg, hseg, le_rfl, h₂.proper s seg hseg, hhas⟩
    · rintro ⟨w, x, ⟨hox, hxs⟩, s, seg, hseg, hle, hx, hhas⟩
      refine ⟨s, hoffset.start_mem hseg hle hx hox hxs, ?_⟩
      rw [hseg, Option.map_some, Option.getD_some]
      exact AccessHistory.mem_all.mpr ⟨w, hhas⟩

/-! ## Reading -/

/-- A segment without accesses goes where there is none. -/
theorem insertGap_spec (h : Segments.Apart segments) {start : Int}
    (hcut : Segments.Cut segments start) (hlt : start < stop)
    (hnext : ∀ s segment, segments.lookup s = some segment → start ≤ s → stop ≤ s) :
    Segments.Apart (segments.insert start ⟨stop, .empty⟩) ∧
      ∀ k w x, Segments.Holds (segments.insert start ⟨stop, .empty⟩) k w x ↔
        Segments.Holds segments k w x := by
  have hfree : ∀ s segment, segments.lookup s = some segment → s ≠ start := by
    rintro s segment hs rfl
    have := hnext s segment hs le_rfl
    omega
  refine ⟨⟨fun s seg hs => ?_, fun s seg s' seg' hs hs' hss => ?_⟩, fun k w x => ⟨?_, ?_⟩⟩
  · rw [lookup_insert_eq] at hs
    split at hs
    · rename_i heq
      cases hs
      exact heq ▸ hlt
    · exact h.proper s seg hs
  · rw [lookup_insert_eq] at hs hs'
    split at hs
    · rename_i heq
      cases hs
      rw [if_neg (by omega)] at hs'
      exact hnext s' seg' hs' (by omega)
    · split at hs'
      · rename_i heq
        rw [heq] at hss ⊢
        exact hcut s seg hs hss
      · exact h.apart s seg s' seg' hs hs' hss
  · rintro ⟨s, seg, hs, hle, hx, hhas⟩
    rw [lookup_insert_eq] at hs
    split at hs
    · cases hs
      exact absurd hhas AccessHistory.not_has_empty
    · exact ⟨s, seg, hs, hle, hx, hhas⟩
  · rintro ⟨s, seg, hs, hle, hx, hhas⟩
    refine ⟨s, seg, ?_, hle, hx, hhas⟩
    rw [lookup_insert_eq, if_neg (hfree s seg hs), hs]

/-- Up to the cursor all of the range is in segments. -/
structure Filling (base : Segments I) (offset stop cursor : Int) (existing : List (Int × Int))
    (segments : Segments I) : Prop where
  apart : Segments.Apart segments
  cut_offset : Segments.Cut segments offset
  cut : Segments.Cut segments cursor
  cut_stop : Segments.Cut segments stop
  le : offset ≤ cursor
  le_stop : cursor ≤ stop
  covered : ∀ x, offset ≤ x → x < cursor → ∃ s segment, segments.lookup s = some segment ∧
    offset ≤ s ∧ s ≤ x ∧ x < segment.stop
  rest : ∀ s t, (s, t) ∈ existing ↔
    cursor ≤ s ∧ s < stop ∧ ∃ segment, segments.lookup s = some segment ∧ segment.stop = t
  sorted : existing.Pairwise fun a b => a.1 < b.1
  holds : ∀ k w x, Segments.Holds segments k w x ↔ Segments.Holds base k w x

theorem Filling.gap {base : Segments I} {cursor next : Int} {existing : List (Int × Int)}
    (h : Filling base offset stop cursor existing segments) (hlt : cursor < next)
    (hle : next ≤ stop) (hnext : ∀ s segment, segments.lookup s = some segment → cursor ≤ s →
      next ≤ s) :
    Filling base offset stop next existing (segments.insert cursor ⟨next, .empty⟩) := by
  obtain ⟨hapart, hholds⟩ := insertGap_spec h.apart h.cut hlt hnext
  refine ⟨hapart, fun s seg hs hso => ?_, fun s seg hs hsn => ?_, fun s seg hs hss => ?_,
    h.le.trans hlt.le, hle, fun x hox hxn => ?_, fun s t => ?_, h.sorted,
    fun k w x => (hholds k w x).trans (h.holds k w x)⟩
  · have := h.le
    rw [lookup_insert_eq, if_neg (by omega)] at hs
    exact h.cut_offset s seg hs hso
  · rw [lookup_insert_eq] at hs
    split at hs
    · cases hs
      exact le_rfl
    · by_cases hsc : s < cursor
      · exact (h.cut s seg hs hsc).trans hlt.le
      · have := hnext s seg hs (not_lt.mp hsc)
        omega
  · rw [lookup_insert_eq] at hs
    split at hs
    · cases hs
      exact hle
    · exact h.cut_stop s seg hs hss
  · by_cases hxc : x < cursor
    · obtain ⟨s, seg, hs, hos, hsx, hx⟩ := h.covered x hox hxc
      refine ⟨s, seg, ?_, hos, hsx, hx⟩
      rw [lookup_insert_eq, if_neg (by omega), hs]
    · exact ⟨cursor, ⟨next, .empty⟩, AList.lookup_insert _, h.le, not_lt.mp hxc, hxn⟩
  · rw [h.rest]
    constructor
    · rintro ⟨hcs, hss, seg, hs, ht⟩
      have := hnext s seg hs hcs
      exact ⟨this, hss, seg, by rw [lookup_insert_eq, if_neg (by omega), hs], ht⟩
    · rintro ⟨hns, hss, seg, hs, ht⟩
      rw [lookup_insert_eq, if_neg (by omega)] at hs
      exact ⟨by omega, hss, seg, hs, ht⟩

theorem Filling.pass {base : Segments I} {start t : Int} {existing : List (Int × Int)}
    (h : Filling base offset stop start ((start, t) :: existing) segments) :
    Filling base offset stop t existing segments := by
  obtain ⟨-, hss, seg, hseg, rfl⟩ := (h.rest start t).mp List.mem_cons_self
  have hproper := h.apart.proper start seg hseg
  obtain ⟨hfirst, hsorted⟩ := List.pairwise_cons.mp h.sorted
  refine ⟨h.apart, h.cut_offset, fun s seg' hs hst => ?_, h.cut_stop, h.le.trans hproper.le,
    h.cut_stop start seg hseg hss, fun x hox hxt => ?_, fun s t => ?_, hsorted, h.holds⟩
  · rcases lt_trichotomy s start with hlt | rfl | hlt
    · exact (h.cut s seg' hs hlt).trans hproper.le
    · rw [hseg] at hs
      cases hs
      exact le_rfl
    · have := h.apart.apart start seg s seg' hseg hs hlt
      omega
  · by_cases hxs : x < start
    · exact h.covered x hox hxs
    · exact ⟨start, seg, hseg, h.le, not_lt.mp hxs, hxt⟩
  · constructor
    · intro hmem
      have hlt := hfirst _ hmem
      obtain ⟨hle, hs, seg', hseg', ht⟩ := (h.rest s t).mp (List.mem_cons_of_mem _ hmem)
      exact ⟨h.apart.apart start seg s seg' hseg hseg' hlt, hs, seg', hseg', ht⟩
    · rintro ⟨hle, hs, hex⟩
      rcases List.mem_cons.mp ((h.rest s t).mpr ⟨by omega, hs, hex⟩) with heq | hmem
      · cases heq
        omega
      · exact hmem

theorem fillGaps_spec {base : Segments I} {existing : List (Int × Int)} {cursor : Int}
    (h : Filling base offset stop cursor existing segments) :
    Filling base offset stop (fillGaps existing cursor segments).1 []
      (fillGaps existing cursor segments).2 := by
  induction existing generalizing cursor segments with
  | nil => exact h
  | cons entry existing ih =>
    obtain ⟨start, t⟩ := entry
    obtain ⟨hcs, hss, seg, hseg, rfl⟩ := (h.rest start t).mp List.mem_cons_self
    have hproper := h.apart.proper start seg hseg
    have hmax : max cursor seg.stop = seg.stop := max_eq_right (by omega)
    unfold fillGaps
    rw [hmax]
    refine ih ?_
    split
    · rename_i hlt
      refine Filling.pass (h.gap hlt hss.le fun s seg' hs hle => ?_)
      -- the next segment is the first one behind the cursor
      by_cases hs' : s < stop
      · rcases List.mem_cons.mp ((h.rest s seg'.stop).mpr ⟨hle, hs', seg', hs, rfl⟩) with heq | hmem
        · exact (Prod.mk.inj heq).1.ge
        · exact ((List.pairwise_cons.mp h.sorted).1 _ hmem).le
      · omega
    · obtain rfl : cursor = start := by omega
      exact h.pass

theorem foldl_recordAt [DecidableEq I] {starts : List Int} (hnodup : starts.Nodup)
    (segments : Segments I) (dependencies : Finset I) :
    (∀ s, (starts.foldl (recordAt instruction) (segments, dependencies)).1.lookup s =
      if s ∈ starts then (segments.lookup s).map fun segment =>
        { segment with history := segment.history.recordReader instruction }
      else segments.lookup s) ∧
    ∀ k, k ∈ (starts.foldl (recordAt instruction) (segments, dependencies)).2 ↔
      k ∈ dependencies ∨ ∃ s ∈ starts, ∃ segment, segments.lookup s = some segment ∧
        segment.history.lastWriter = some k := by
  induction starts generalizing segments dependencies with
  | nil => simp
  | cons start starts ih =>
    obtain ⟨hnew, hnodup⟩ := List.nodup_cons.mp hnodup
    rw [List.foldl_cons]
    cases hstart : segments.lookup start with
    | none =>
      have hskip : recordAt instruction (segments, dependencies) start =
          (segments, dependencies) := by
        unfold recordAt
        rw [hstart]
      rw [hskip]
      obtain ⟨hlookup, hdeps⟩ := ih hnodup segments dependencies
      refine ⟨fun s => ?_, fun k => ?_⟩
      · rw [hlookup]
        by_cases heq : s = start
        · rw [heq, if_neg hnew, hstart]
          simp
        · simp only [List.mem_cons, heq, false_or]
      · rw [hdeps]
        simp [hstart]
    | some segment =>
      have hstep : recordAt instruction (segments, dependencies) start =
          (segments.insert start { segment with
            history := segment.history.recordReader instruction },
            dependencies ∪ segment.history.lastWriter.toFinset) := by
        unfold recordAt
        rw [hstart]
      rw [hstep]
      obtain ⟨hlookup, hdeps⟩ := ih hnodup (segments.insert start { segment with
        history := segment.history.recordReader instruction })
        (dependencies ∪ segment.history.lastWriter.toFinset)
      refine ⟨fun s => ?_, fun k => ?_⟩
      · rw [hlookup, lookup_insert_eq]
        by_cases heq : s = start
        · rw [heq, if_neg hnew, if_pos rfl, if_pos List.mem_cons_self, hstart]
          rfl
        · simp only [List.mem_cons, heq, false_or, if_false]
      · rw [hdeps, Finset.mem_union, Option.mem_toFinset, Option.mem_def, or_assoc]
        refine or_congr_right ⟨?_, ?_⟩
        · rintro (hwriter | ⟨s, hs, seg, hseg, hwriter⟩)
          · exact ⟨start, List.mem_cons_self, segment, hstart, hwriter⟩
          · have hne : s ≠ start := fun heq => hnew (heq ▸ hs)
            rw [lookup_insert_eq, if_neg hne] at hseg
            exact ⟨s, List.mem_cons_of_mem _ hs, seg, hseg, hwriter⟩
        · rintro ⟨s, hs, seg, hseg, hwriter⟩
          rcases List.mem_cons.mp hs with rfl | hs
          · rw [hstart] at hseg
            cases hseg
            exact .inl hwriter
          · have hne : s ≠ start := fun heq => hnew (heq ▸ hs)
            refine .inr ⟨s, hs, seg, ?_, hwriter⟩
            rw [lookup_insert_eq, if_neg hne, hseg]

/-- A range without a gap gets the reader at every byte. -/
theorem recordAll_spec [DecidableEq I] (h : Segments.Apart segments)
    (hcut : Segments.Cut segments offset) (hcut' : Segments.Cut segments stop)
    (hcovered : ∀ x, offset ≤ x → x < stop → ∃ s segment, segments.lookup s = some segment ∧
      offset ≤ s ∧ s ≤ x ∧ x < segment.stop) (dependencies : Finset I) {read : Segments I × Finset I}
    (hread : (segments.startsIn offset stop).foldl (recordAt instruction)
      (segments, dependencies) = read) :
    Segments.Apart read.1 ∧ (∀ k w x, Segments.Holds read.1 k w x ↔
      Segments.Holds segments k w x ∨ k = instruction ∧ w = false ∧ offset ≤ x ∧ x < stop) ∧
      ∀ k, k ∈ read.2 ↔ k ∈ dependencies ∨
        ∃ x, (offset ≤ x ∧ x < stop) ∧ Segments.Holds segments k true x := by
  obtain ⟨hlookup, hdeps⟩ := @foldl_recordAt I instruction _ _
    (List.Pairwise.imp ne_of_lt (startsIn_sorted : (segments.startsIn offset stop).Pairwise (· < ·))) segments dependencies
  rw [hread] at hlookup hdeps
  -- every segment is there as before, with the reader if it starts in the range
  have hback : ∀ s seg, read.1.lookup s = some seg → ∃ seg₀, segments.lookup s = some seg₀ ∧
      seg.stop = seg₀.stop ∧ ∀ k w, seg.history.Has k w ↔ seg₀.history.Has k w ∨
        s ∈ segments.startsIn offset stop ∧ k = instruction ∧ w = false := by
    intro s seg hs
    rw [hlookup] at hs
    split at hs
    · rename_i hmem
      obtain ⟨seg₀, hseg₀, rfl⟩ := Option.map_eq_some_iff.mp hs
      refine ⟨seg₀, hseg₀, rfl, fun k w => ?_⟩
      rw [AccessHistory.has_recordReader, and_iff_right hmem]
    · rename_i hno
      exact ⟨seg, hs, rfl, fun k w => by simp [hno]⟩
  have hforth : ∀ s seg₀, segments.lookup s = some seg₀ → ∃ seg, read.1.lookup s = some seg := by
    intro s seg₀ hs
    rw [hlookup, hs]
    split
    · exact ⟨_, rfl⟩
    · exact ⟨seg₀, rfl⟩
  refine ⟨⟨fun s seg hs => ?_, fun s seg s' seg' hs hs' hss => ?_⟩, fun k w x => ⟨?_, ?_⟩,
    fun k => ?_⟩
  · obtain ⟨seg₀, hs₀, hstop, -⟩ := hback s seg hs
    exact hstop ▸ h.proper s seg₀ hs₀
  · obtain ⟨seg₀, hs₀, hstop, -⟩ := hback s seg hs
    obtain ⟨seg₁, hs₁, -, -⟩ := hback s' seg' hs'
    exact hstop ▸ h.apart s seg₀ s' seg₁ hs₀ hs₁ hss
  · rintro ⟨s, seg, hs, hle, hx, hhas⟩
    obtain ⟨seg₀, hs₀, hstop, hhistory⟩ := hback s seg hs
    rcases (hhistory k w).mp hhas with hhas | ⟨hmem, rfl, rfl⟩
    · exact .inl ⟨s, seg₀, hs₀, hle, hstop ▸ hx, hhas⟩
    · obtain ⟨-, hos, hss⟩ := mem_startsIn.mp hmem
      have := hcut' s seg₀ hs₀ hss
      exact .inr ⟨rfl, rfl, by omega, by omega⟩
  · rintro (⟨s, seg₀, hs₀, hle, hx, hhas⟩ | ⟨rfl, rfl, hox, hxs⟩)
    · obtain ⟨seg, hs⟩ := hforth s seg₀ hs₀
      obtain ⟨seg₁, hs₁, hstop, hhistory⟩ := hback s seg hs
      rw [hs₀] at hs₁
      cases hs₁
      exact ⟨s, seg, hs, hle, hstop ▸ hx, (hhistory k w).mpr (.inl hhas)⟩
    · obtain ⟨s, seg₀, hs₀, hos, hsx, hx⟩ := hcovered x hox hxs
      obtain ⟨seg, hs⟩ := hforth s seg₀ hs₀
      obtain ⟨seg₁, hs₁, hstop, hhistory⟩ := hback s seg hs
      rw [hs₀] at hs₁
      cases hs₁
      exact ⟨s, seg, hs, hsx, hstop ▸ hx, (hhistory k false).mpr
        (.inr ⟨mem_startsIn.mpr ⟨⟨seg₀, hs₀⟩, hos, by omega⟩, rfl, rfl⟩)⟩
  · rw [hdeps]
    refine or_congr_right ⟨?_, ?_⟩
    · rintro ⟨s, hs, seg, hseg, hwriter⟩
      obtain ⟨-, hos, hss⟩ := mem_startsIn.mp hs
      exact ⟨s, ⟨hos, hss⟩, s, seg, hseg, le_rfl, h.proper s seg hseg, hwriter⟩
    · rintro ⟨x, ⟨hox, hxs⟩, s, seg, hseg, hle, hx, hwriter⟩
      exact ⟨s, hcut.start_mem hseg hle hx hox hxs, seg, hseg, hwriter⟩

theorem read_spec [DecidableEq I] (h : Segments.Apart segments) (hlt : offset < stop)
    (dependencies : Finset I) :
    Segments.Apart (segments.read offset stop instruction dependencies).1 ∧
      (∀ k w x, Segments.Holds (segments.read offset stop instruction dependencies).1 k w x ↔
        Segments.Holds segments k w x ∨ k = instruction ∧ w = false ∧ offset ≤ x ∧ x < stop) ∧
      ∀ k, k ∈ (segments.read offset stop instruction dependencies).2 ↔ k ∈ dependencies ∨
        ∃ x, (offset ≤ x ∧ x < stop) ∧ Segments.Holds segments k true x := by
  obtain ⟨h₁, hcut₁, hholds₁, -⟩ := splitAt_spec h offset
  obtain ⟨h₂, hcut₂, hholds₂, hkeep⟩ := splitAt_spec h₁ stop
  have hoffset := hkeep offset hcut₁
  have hholds : ∀ k w x, Segments.Holds ((segments.splitAt offset).splitAt stop) k w x ↔
      Segments.Holds segments k w x := fun k w x => (hholds₂ k w x).trans (hholds₁ k w x)
  unfold Segments.read
  dsimp only
  generalize (segments.splitAt offset).splitAt stop = cut at h₂ hcut₂ hoffset hholds
  have hstart : Filling segments offset stop offset ((cut.startsIn offset stop).filterMap
      fun start => (cut.lookup start).map fun segment => (start, segment.stop)) cut := by
    refine ⟨h₂, hoffset, hoffset, hcut₂, le_rfl, hlt.le, fun x hox hxo => by omega, fun s t => ?_, ?_, hholds⟩
    · simp only [List.mem_filterMap, mem_startsIn, Option.map_eq_some_iff, Prod.mk.injEq]
      constructor
      · rintro ⟨s', ⟨-, hos, hss⟩, seg, hseg, rfl, rfl⟩
        exact ⟨hos, hss, seg, hseg, rfl⟩
      · rintro ⟨hos, hss, seg, hseg, rfl⟩
        exact ⟨s, ⟨⟨seg, hseg⟩, hos, hss⟩, seg, hseg, rfl, rfl⟩
    · rw [List.pairwise_filterMap]
      refine startsIn_sorted.imp fun {s s'} hss a ha a' ha' => ?_
      obtain ⟨_, -, rfl⟩ := Option.map_eq_some_iff.mp ha
      obtain ⟨_, -, rfl⟩ := Option.map_eq_some_iff.mp ha'
      exact hss
  have hfilled := fillGaps_spec hstart
  generalize fillGaps _ offset cut = filled at hfilled
  obtain ⟨cursor, filled⟩ := filled
  -- the gap behind the last segment
  have hfull : ∃ last, (if cursor < stop then filled.insert cursor ⟨stop, .empty⟩ else filled) = last ∧
      Filling segments offset stop stop [] last := by
    refine ⟨_, rfl, ?_⟩
    split
    · rename_i hbefore
      refine hfilled.gap hbefore le_rfl fun s seg hs hle => ?_
      by_contra hss
      exact absurd ((hfilled.rest s seg.stop).mpr ⟨hle, not_le.mp hss, seg, hs, rfl⟩)
        List.not_mem_nil
    · obtain rfl : cursor = stop := le_antisymm hfilled.le_stop (not_lt.mp ‹_›)
      exact hfilled
  obtain ⟨last, hlast, hfull⟩ := hfull
  dsimp only
  rw [hlast]
  obtain ⟨hapart, hheld, hdeps⟩ := recordAll_spec hfull.apart hfull.cut_offset hfull.cut_stop
    hfull.covered dependencies rfl
  refine ⟨hapart, fun k w x => ?_, fun k => ?_⟩
  · rw [hheld, hfull.holds]
  · rw [hdeps]
    simp only [hfull.holds]

end Segments
end Celox.Analysis
