import Celox.Analysis.Dependence
import Celox.Data.AccessRecords

/-! # Exact dependences

The tracker keeps records of accesses at bytes, at objects as a whole and at all of memory. What it
emits are the dependences among them. -/
namespace Celox.Analysis
open Celox.Data Relation

/-! ## Regions -/

/-- An effect with a range that has no end touches all of its object. -/
inductive Region (O : Type) where
  | all
  | object (object : O)
  | range (object : O) (offset stop : Int)

/-- Where records are kept. -/
inductive Place (O : Type) where
  | all
  | object (object : O)
  | byte (object : O) (x : Int)

section Region
variable {O : Type}

def MemoryEffect.region : MemoryEffect O → Region O
  | .exact location => match location.stop with
    | some stop => .range location.object location.offset stop
    | none => .object location.object
  | .unknownObject object => .object object
  | .unknownAll => .all

def MemoryEffect.Empty : MemoryEffect O → Prop
  | .exact location => location.byteLen = 0
  | _ => False

instance (effect : MemoryEffect O) : Decidable effect.Empty := by
  cases effect <;> unfold MemoryEffect.Empty <;> infer_instance

def Region.places : Region O → Place O → Prop
  | .all, p => p = .all
  | .object o, p => p = .object o
  | .range o offset stop, p => ∃ x, p = .byte o x ∧ offset ≤ x ∧ x < stop

def Region.meets : Region O → Place O → Prop
  | .all, _ | _, .all => True
  | .object o, .object o' | .object o, .byte o' _ | .range o _ _, .object o' => o = o'
  | .range o offset stop, .byte o' x => o = o' ∧ offset ≤ x ∧ x < stop

def Region.covers : Region O → Place O → Prop
  | .all, _ => True
  | _, .all | .range _ _ _, .object _ => False
  | .object o, .object o' | .object o, .byte o' _ => o = o'
  | .range o offset stop, .byte o' x => o = o' ∧ offset ≤ x ∧ x < stop

/-- Memory as the tracker sees it. -/
def memorySpace (O : Type) : Space (Region O) (Place O) where
  places := Region.places
  meets := Region.meets
  covers := Region.covers
  meets_of_covers r p h := by
    cases r <;> cases p <;> simp_all [Region.covers, Region.meets]
  replaced r p g h hg := by
    cases r with
    | all => exact ⟨.all, rfl, by cases g <;> trivial⟩
    | object o =>
      refine ⟨.object o, rfl, ?_⟩
      cases p <;> cases g <;> simp_all [Region.covers, Region.meets]
    | range o offset stop =>
      cases p with
      | all => exact h.elim
      | object o' => exact h.elim
      | byte o' x =>
        obtain ⟨rfl, hle, hlt⟩ := h
        exact ⟨.byte o x, ⟨x, rfl, hle, hlt⟩, hg⟩

theorem MemoryLocation.lt_stop {location : MemoryLocation O} {stop : Int}
    (h : location.stop = some stop) (hlen : location.byteLen ≠ 0) : location.offset < stop := by
  unfold MemoryLocation.stop at h
  split at h
  · cases h
    omega
  · cases h

/-- Regions whose places are met. -/
theorem exists_place_iff {r r' : Region O} : (∃ p, r.places p ∧ r'.meets p) ↔ match r, r' with
    | .all, _ => True
    | .object _, .all => True
    | .object o, .object o' | .object o, .range o' _ _ => o' = o
    | .range _ offset stop, .all => offset < stop
    | .range o offset stop, .object o' => o' = o ∧ offset < stop
    | .range o offset stop, .range o' offset' stop' =>
      o' = o ∧ max offset offset' < min stop stop' := by
  have hrange : ∀ (o : O) (offset stop : Int) (P : Place O → Prop),
      (∃ p, (Region.range o offset stop).places p ∧ P p) ↔
        ∃ x, (offset ≤ x ∧ x < stop) ∧ P (.byte o x) := by
    intro o offset stop P
    constructor
    · rintro ⟨_, ⟨x, rfl, hx⟩, hp⟩
      exact ⟨x, hx, hp⟩
    · rintro ⟨x, hx, hp⟩
      exact ⟨_, ⟨x, rfl, hx⟩, hp⟩
  cases r with
  | all => cases r' <;> simp [Region.places, Region.meets]
  | object o => cases r' <;> simp [Region.places, Region.meets]
  | range o offset stop =>
    rw [hrange]
    cases r' with
    | all =>
      simp only [Region.meets, and_true]
      exact ⟨fun ⟨x, hx⟩ => by omega, fun h => ⟨offset, by omega⟩⟩
    | object o' =>
      simp only [Region.meets]
      exact ⟨fun ⟨x, hx, ho⟩ => ⟨ho, by omega⟩, fun ⟨ho, h⟩ => ⟨offset, by omega, ho⟩⟩
    | range o' offset' stop' =>
      simp only [Region.meets]
      exact ⟨fun ⟨x, hx, ho, hx'⟩ => ⟨ho, by omega⟩,
        fun ⟨ho, h⟩ => ⟨max offset offset', by omega, ho, by omega⟩⟩

/-- Effects alias when they share a place. -/
theorem effectsMayAlias_iff [DecidableEq O] {e f : MemoryEffect O} (he : ¬ e.Empty)
    (hf : ¬ f.Empty) : effectsMayAlias e f = true ↔
      ∃ p, (memorySpace O).places e.region p ∧ (memorySpace O).meets f.region p := by
  rw [show (∃ p, (memorySpace O).places e.region p ∧ (memorySpace O).meets f.region p) ↔ _ from
    exists_place_iff]
  cases e with
  | unknownAll => simp [MemoryEffect.region, effectsMayAlias]
  | unknownObject o =>
    cases f with
    | unknownAll => simp [MemoryEffect.region, effectsMayAlias]
    | unknownObject o' => simp [MemoryEffect.region, effectsMayAlias, eq_comm]
    | exact right =>
      cases hstop : right.stop <;> simp [MemoryEffect.region, effectsMayAlias, hstop, eq_comm]
  | exact left =>
    have hleft : ∀ stop, left.stop = some stop → left.offset < stop := fun stop hstop =>
      MemoryLocation.lt_stop hstop he
    cases f with
    | unknownAll =>
      cases hstop : left.stop with
      | none => simp [MemoryEffect.region, effectsMayAlias, hstop]
      | some stop => simp [MemoryEffect.region, effectsMayAlias, hstop, hleft stop hstop]
    | unknownObject o' =>
      cases hstop : left.stop with
      | none => simp [MemoryEffect.region, effectsMayAlias, hstop]
      | some stop => simp [MemoryEffect.region, effectsMayAlias, hstop, hleft stop hstop]
    | exact right =>
      have hright : ∀ stop, right.stop = some stop → right.offset < stop := fun stop hstop =>
        MemoryLocation.lt_stop hstop hf
      cases hstop : left.stop with
      | none =>
        cases hstop' : right.stop <;>
          simp [MemoryEffect.region, effectsMayAlias, hstop, hstop', eq_comm]
      | some stop =>
        cases hstop' : right.stop with
        | none =>
          simp [MemoryEffect.region, effectsMayAlias, hstop, hstop', hleft stop hstop, eq_comm]
        | some stop' =>
          have := hleft stop hstop
          have := hright stop' hstop'
          simp only [MemoryEffect.region, effectsMayAlias, hstop, hstop', ne_eq, ite_not,
            eq_comm (a := right.object)]
          split
          · simp only [Bool.and_eq_true, decide_eq_true_eq, true_and, *]
            omega
          · simp [*]

end Region

/-! ## Histories of objects -/

section Object
variable {I : Type} {history : MemoryObjectHistory I} {k instruction : I} {w : Bool}
  {p : Option Int} {offset stop : Int}

/-- What is held for the object as a whole, and at a byte. -/
def MemoryObjectHistory.Holds (history : MemoryObjectHistory I) (k : I) (w : Bool) :
    Option Int → Prop
  | none => if w then history.lastUnknownWriter = some k
    else k ∈ history.unknownReadersSinceWrite
  | some x => Segments.Holds history.exact k w x

def inRange (offset stop : Int) (p : Option Int) : Prop := ∃ x, p = some x ∧ offset ≤ x ∧ x < stop

theorem holds_segment {segments : Segments I} (h : Segments.Apart segments) {P : AccessHistory I → Prop} :
    (∃ entry ∈ segments.entries, P entry.2.history) ↔
      ∃ start segment, segments.lookup start = some segment ∧ start < segment.stop ∧
        P segment.history := by
  constructor
  · rintro ⟨⟨start, segment⟩, hmem, hp⟩
    have hlookup := AList.mem_lookup_iff.mpr hmem
    exact ⟨start, segment, hlookup, h.proper start segment hlookup, hp⟩
  · rintro ⟨start, segment, hlookup, -, hp⟩
    exact ⟨⟨start, segment⟩, AList.mem_lookup_iff.mp hlookup, hp⟩

theorem mem_writers {segments : Segments I} (h : Segments.Apart segments) :
    k ∈ segments.writers ↔ ∃ x, Segments.Holds segments k true x := by
  unfold Segments.writers
  rw [List.mem_flatMap]
  simp only [Option.mem_toList]
  rw [holds_segment h (P := fun history => history.lastWriter = some k)]
  constructor
  · rintro ⟨start, segment, hlookup, hlt, hwriter⟩
    exact ⟨start, start, segment, hlookup, le_rfl, hlt, hwriter⟩
  · rintro ⟨x, start, segment, hlookup, hle, hlt, hwriter⟩
    exact ⟨start, segment, hlookup, h.proper start segment hlookup, hwriter⟩

theorem mem_all {segments : Segments I} (h : Segments.Apart segments) :
    k ∈ segments.all ↔ ∃ w x, Segments.Holds segments k w x := by
  unfold Segments.all
  rw [List.mem_flatMap, holds_segment h (P := fun history => k ∈ history.all)]
  simp only [AccessHistory.mem_all]
  constructor
  · rintro ⟨start, segment, hlookup, hlt, w, hhas⟩
    exact ⟨w, start, start, segment, hlookup, le_rfl, hlt, hhas⟩
  · rintro ⟨w, x, start, segment, hlookup, hle, hlt, hhas⟩
    exact ⟨start, segment, hlookup, h.proper start segment hlookup, w, hhas⟩

variable [DecidableEq I] {dependencies : Finset I}

theorem mem_collectWriters (h : Segments.Apart history.exact) :
    k ∈ history.collectWriters ↔ ∃ p, history.Holds k true p := by
  rw [MemoryObjectHistory.collectWriters, Finset.mem_union, Option.mem_toFinset,
    List.mem_toFinset, mem_writers h, Option.exists]
  rfl

theorem mem_collectReadsAndWrites (h : Segments.Apart history.exact) :
    k ∈ history.collectReadsAndWrites ↔ ∃ w p, history.Holds k w p := by
  simp only [MemoryObjectHistory.collectReadsAndWrites, Finset.mem_union, Option.mem_toFinset,
    List.mem_toFinset, mem_all h, Option.exists, exists_or, Bool.exists_bool,
    MemoryObjectHistory.Holds, Option.mem_def]
  simp only [if_true, Bool.false_eq_true, if_false]
  tauto

/-- What an access leaves in the history of its object and what it depends on there. -/
structure Accessed (history : MemoryObjectHistory I) (instruction : I) (write : Bool)
    (places covers meets : Option Int → Prop) (dependencies : Finset I)
    (result : MemoryObjectHistory I × Finset I) : Prop where
  apart : Segments.Apart result.1.exact
  holds : ∀ k w p, result.1.Holds k w p ↔
    history.Holds k w p ∧ ¬ (write = true ∧ covers p) ∨ k = instruction ∧ w = write ∧ places p
  mem : ∀ k, k ∈ result.2 ↔ k ∈ dependencies ∨
    ∃ w p, history.Holds k w p ∧ meets p ∧ (write = true ∨ w = true)

omit [DecidableEq I] in
theorem exists_holds_range {Q : Bool → Prop} :
    (∃ w p, history.Holds k w p ∧ (p = none ∨ inRange offset stop p) ∧ Q w) ↔
      (∃ w, history.Holds k w none ∧ Q w) ∨
        ∃ w x, (offset ≤ x ∧ x < stop) ∧ Segments.Holds history.exact k w x ∧ Q w := by
  constructor
  · rintro ⟨w, p, hp, rfl | ⟨x, rfl, hx⟩, hw⟩
    · exact .inl ⟨w, hp, hw⟩
    · exact .inr ⟨w, x, hx, hp, hw⟩
  · rintro (⟨w, hp, hw⟩ | ⟨w, x, hx, hp, hw⟩)
    · exact ⟨w, none, hp, .inl rfl, hw⟩
    · exact ⟨w, some x, hp, .inr ⟨x, rfl, hx⟩, hw⟩

omit [DecidableEq I] in
theorem inRange_some {x : Int} : inRange offset stop (some x) ↔ offset ≤ x ∧ x < stop := by
  simp [inRange]

omit [DecidableEq I] in
theorem not_inRange_none : ¬ inRange offset stop none := by
  simp [inRange]

theorem readExact_spec (h : Segments.Apart history.exact) (hlt : offset < stop) :
    Accessed history instruction false (inRange offset stop) (inRange offset stop)
      (fun p => p = none ∨ inRange offset stop p) dependencies
      (history.readExact offset stop instruction dependencies) := by
  obtain ⟨hapart, hholds, hdeps⟩ := @read_spec _ _ instruction _ _ _ h hlt
    (dependencies ∪ history.lastUnknownWriter.toFinset)
  refine ⟨hapart, fun k w p => ?_, fun k => ?_⟩
  · simp only [Bool.false_eq_true, false_and, not_false_eq_true, and_true]
    cases p with
    | none =>
      simp only [not_inRange_none, and_false, or_false]
      rfl
    | some x =>
      rw [inRange_some]
      exact hholds k w x
  · refine (hdeps k).trans ?_
    rw [Finset.mem_union, Option.mem_toFinset, or_assoc, exists_holds_range]
    refine or_congr_right (or_congr ?_ ?_)
    · simp [MemoryObjectHistory.Holds]
    · simp

theorem writeExact_spec (h : Segments.Apart history.exact) (hlt : offset < stop) :
    Accessed history instruction true (inRange offset stop) (inRange offset stop)
      (fun p => p = none ∨ inRange offset stop p) dependencies
      (history.writeExact offset stop instruction dependencies) := by
  obtain ⟨hapart, hholds, hdeps⟩ := @write_spec _ _ instruction _ _ _ h hlt
    (dependencies ∪ history.lastUnknownWriter.toFinset ∪
      history.unknownReadersSinceWrite.toFinset)
  refine ⟨hapart, fun k w p => ?_, fun k => ?_⟩
  · simp only [true_and]
    cases p with
    | none =>
      simp only [not_inRange_none, and_false, or_false, not_false_eq_true, and_true]
      rfl
    | some x =>
      rw [inRange_some]
      exact hholds k w x
  · refine (hdeps k).trans ?_
    rw [Finset.mem_union, Finset.mem_union, Option.mem_toFinset, List.mem_toFinset, or_assoc,
      or_assoc, exists_holds_range, ← or_assoc (b := k ∈ history.unknownReadersSinceWrite)]
    refine or_congr_right (or_congr ?_ ?_)
    · simp [MemoryObjectHistory.Holds, or_comm]
    · simp

theorem readUnknown_spec (h : Segments.Apart history.exact) :
    Accessed history instruction false (· = none) (fun _ => True) (fun _ => True) dependencies
      (history.readUnknown instruction dependencies) := by
  refine ⟨h, fun k w p => ?_, fun k => ?_⟩
  · simp only [Bool.false_eq_true, not_false_eq_true, and_true]
    cases p with
    | none =>
      cases w with
      | true => simp [MemoryObjectHistory.Holds, MemoryObjectHistory.readUnknown]
      | false =>
        simp [MemoryObjectHistory.Holds, MemoryObjectHistory.readUnknown, mem_recordReader]
    | some x => simp [MemoryObjectHistory.Holds, MemoryObjectHistory.readUnknown]
  · rw [MemoryObjectHistory.readUnknown, Finset.mem_union, mem_collectWriters h]
    simp

theorem writeUnknown_spec (h : Segments.Apart history.exact) :
    Accessed history instruction true (· = none) (fun _ => True) (fun _ => True) dependencies
      (history.writeUnknown instruction dependencies) := by
  refine ⟨Segments.apart_empty, fun k w p => ?_, fun k => ?_⟩
  · simp only [true_and, not_true_eq_false, and_false, false_or]
    cases p with
    | none =>
      cases w <;> simp [MemoryObjectHistory.Holds, MemoryObjectHistory.writeUnknown, eq_comm]
    | some x => simp [MemoryObjectHistory.Holds, MemoryObjectHistory.writeUnknown, Segments.Holds]
  · rw [MemoryObjectHistory.writeUnknown, Finset.mem_union, mem_collectReadsAndWrites h]
    simp

end Object

/-! ## The tracker -/

section Tracker
variable {O I : Type} [DecidableEq O] [DecidableEq I] {tracker : MemoryDependencyTracker O I}
  {k instruction : I} {dependencies : Finset I}

/-- What is held at each place. -/
def MemoryDependencyTracker.records (tracker : MemoryDependencyTracker O I) :
    Records I (Place O) := fun k w p => match p with
  | .all => if w then tracker.lastGlobalWriter = some k else k ∈ tracker.globalReadersSinceWrite
  | .object o => (tracker.objectAt o).Holds k w none
  | .byte o x => (tracker.objectAt o).Holds k w (some x)

def MemoryDependencyTracker.Apart (tracker : MemoryDependencyTracker O I) : Prop :=
  ∀ o, Segments.Apart (tracker.objectAt o).exact

/-- The tracker after an access and what the access depends on. -/
structure Tracked (tracker : MemoryDependencyTracker O I) (a : Access I (Region O))
    (dependencies : Finset I) (result : MemoryDependencyTracker O I × Finset I) : Prop where
  apart : result.1.Apart
  records : ∀ k w p, result.1.records k w p ↔ (memorySpace O).record tracker.records a k w p
  mem : ∀ k, k ∈ result.2 ↔ k ∈ dependencies ∨ (memorySpace O).Depends tracker.records a k

omit [DecidableEq I] in
theorem objectAt_update (tracker : MemoryDependencyTracker O I) (object o : O)
    (access : MemoryObjectHistory I → Finset I → MemoryObjectHistory I × Finset I) :
    (tracker.update object access dependencies).1.objectAt o =
      if o = object then (access (tracker.objectAt object) dependencies).1
      else tracker.objectAt o := by
  unfold MemoryDependencyTracker.objectAt MemoryDependencyTracker.update
  dsimp only
  split
  · rename_i heq
    rw [heq, AList.lookup_insert]
    rfl
  · rename_i hne
    rw [AList.lookup_insert_ne hne]

/-- The part of a property of places that is about one object. -/
def within (P : Place O → Prop) (object : O) : Option Int → Prop
  | none => P (.object object)
  | some x => P (.byte object x)

/-- A region that has to do with one object only. -/
structure Region.Of (region : Region O) (object : O) : Prop where
  ne : region ≠ .all
  places : ∀ o p, o ≠ object → ¬ within region.places o p
  covers : ∀ o p, o ≠ object → ¬ within region.covers o p
  meets : ∀ o p, o ≠ object → ¬ within region.meets o p

omit [DecidableEq O] in
theorem Region.Of.not_all {region : Region O} {object : O} (h : region.Of object) :
    ¬ region.places .all ∧ ¬ region.covers .all ∧ region.meets .all := by
  have hne := h.ne
  cases region with
  | all => exact absurd rfl hne
  | object o => simp [Region.places, Region.covers, Region.meets]
  | range o offset stop => simp [Region.places, Region.covers, Region.meets]

omit [DecidableEq I] in
/-- An access to one object. -/
theorem update_spec (h : tracker.Apart) {object : O} {region : Region O} {write : Bool}
    {access : MemoryObjectHistory I → Finset I → MemoryObjectHistory I × Finset I}
    {known : Finset I} (hregion : region.Of object)
    (hknown : ∀ k, k ∈ known ↔ k ∈ dependencies ∨
      ∃ w, tracker.records k w .all ∧ (write = true ∨ w = true))
    (haccess : Accessed (tracker.objectAt object) instruction write (within region.places object)
      (within region.covers object) (within region.meets object) known
      (access (tracker.objectAt object) known)) :
    Tracked tracker ⟨instruction, write, region⟩ dependencies
      (tracker.update object access known) := by
  obtain ⟨hplaces, hcovers, hmeets⟩ := hregion.not_all
  have hwithin : ∀ k w o p, (((tracker.update object access known).1.objectAt o).Holds k w p ↔
      (tracker.objectAt o).Holds k w p ∧ ¬ (write = true ∧ within region.covers o p) ∨
        k = instruction ∧ w = write ∧ within region.places o p) := by
    intro k w o p
    rw [objectAt_update]
    split
    · rename_i heq
      rw [heq]
      exact haccess.holds k w p
    · rename_i hne
      simp [hregion.covers o p hne, hregion.places o p hne]
  refine ⟨fun o => ?_, fun k w p => ?_, fun k => ?_⟩
  · rw [objectAt_update]
    split
    · exact haccess.apart
    · exact h o
  · cases p with
    | all =>
      simp only [Space.record, memorySpace, hplaces, hcovers, and_false, not_false_eq_true,
        and_true, or_false]
      rfl
    | object o => exact hwithin k w o none
    | byte o x => exact hwithin k w o (some x)
  · refine (haccess.mem k).trans ?_
    rw [hknown, or_assoc, Space.Depends]
    refine or_congr_right ⟨?_, ?_⟩
    · rintro (⟨w, hall, hw⟩ | ⟨w, p, hholds, hp, hw⟩)
      · exact ⟨w, .all, hall, hmeets, hw⟩
      · cases p with
        | none => exact ⟨w, .object object, hholds, hp, hw⟩
        | some x => exact ⟨w, .byte object x, hholds, hp, hw⟩
    · rintro ⟨w, p, hrecord, hp, hw⟩
      cases p with
      | all => exact .inl ⟨w, hrecord, hw⟩
      | object o =>
        obtain rfl : o = object := by
          by_contra hne
          exact hregion.meets o none hne hp
        exact .inr ⟨w, none, hrecord, hp, hw⟩
      | byte o x =>
        obtain rfl : o = object := by
          by_contra hne
          exact hregion.meets o (some x) hne hp
        exact .inr ⟨w, some x, hrecord, hp, hw⟩

omit [DecidableEq O] in
theorem Region.of_object (o : O) : (Region.object o).Of o := by
  refine ⟨by simp, fun o' p hne => ?_, fun o' p hne => ?_, fun o' p hne => ?_⟩
  · cases p <;> simp [within, Region.places, hne]
  · cases p <;> simp [within, Region.covers, hne.symm]
  · cases p <;> simp [within, Region.meets, hne.symm]

omit [DecidableEq O] in
theorem Region.of_range (o : O) (offset stop : Int) : (Region.range o offset stop).Of o := by
  refine ⟨by simp, fun o' p hne => ?_, fun o' p hne => ?_, fun o' p hne => ?_⟩
  · cases p <;> simp [within, Region.places, hne]
  · cases p <;> simp [within, Region.covers, hne.symm]
  · cases p <;> simp [within, Region.meets, hne.symm]

omit [DecidableEq O] in
theorem within_range (o : O) (offset stop : Int) :
    within (Region.range o offset stop).places o = inRange offset stop ∧
      within (Region.range o offset stop).covers o = inRange offset stop ∧
      within (Region.range o offset stop).meets o = fun p => p = none ∨ inRange offset stop p := by
  refine ⟨funext fun p => ?_, funext fun p => ?_, funext fun p => ?_⟩ <;>
    cases p <;> simp [within, Region.places, Region.covers, Region.meets, inRange]

omit [DecidableEq O] in
theorem within_object (o : O) : within (Region.object o).places o = (· = none) ∧
    within (Region.object o).covers o = (fun _ => True) ∧
    within (Region.object o).meets o = fun _ => True := by
  refine ⟨funext fun p => ?_, funext fun p => ?_, funext fun p => ?_⟩ <;>
    cases p <;> simp [within, Region.places, Region.covers, Region.meets]

theorem mem_foldl_union {β : Type} (f : β → Finset I) (entries : List β) (dependencies : Finset I) :
    k ∈ entries.foldl (fun dependencies entry => dependencies ∪ f entry) dependencies ↔
      k ∈ dependencies ∨ ∃ entry ∈ entries, k ∈ f entry := by
  induction entries generalizing dependencies with
  | nil => simp
  | cons entry entries ih =>
    rw [List.foldl_cons, ih, Finset.mem_union, or_assoc]
    simp

omit [DecidableEq I] in
/-- Objects that were never accessed hold nothing. -/
theorem exists_entry_iff {Q : Bool → Prop} :
    (∃ entry ∈ tracker.objects.entries, ∃ w p, entry.2.Holds k w p ∧ Q w) ↔
      ∃ o w p, (tracker.objectAt o).Holds k w p ∧ Q w := by
  constructor
  · rintro ⟨⟨o, history⟩, hmem, w, p, hp⟩
    refine ⟨o, w, p, ?_⟩
    rw [MemoryDependencyTracker.objectAt, AList.mem_lookup_iff.mpr hmem]
    exact hp
  · rintro ⟨o, w, p, hp, hw⟩
    cases hlookup : tracker.objects.lookup o with
    | none =>
      rw [MemoryDependencyTracker.objectAt, hlookup] at hp
      cases p <;> cases w <;>
        simp [MemoryObjectHistory.Holds, MemoryObjectHistory.empty, Segments.Holds] at hp
    | some history =>
      rw [MemoryDependencyTracker.objectAt, hlookup] at hp
      exact ⟨⟨o, history⟩, AList.mem_lookup_iff.mp hlookup, w, p, hp, hw⟩

omit [DecidableEq I] in
theorem apart_entry (h : tracker.Apart) {entry : (_ : O) × MemoryObjectHistory I}
    (hentry : entry ∈ tracker.objects.entries) : Segments.Apart entry.2.exact := by
  have hat := h entry.1
  rwa [MemoryDependencyTracker.objectAt, AList.mem_lookup_iff.mpr hentry] at hat

omit [DecidableEq I] in
/-- What touches all of memory depends on all objects. -/
theorem depends_all {write : Bool} :
    (memorySpace O).Depends tracker.records ⟨instruction, write, .all⟩ k ↔
      (∃ w, tracker.records k w .all ∧ (write = true ∨ w = true)) ∨
        ∃ entry ∈ tracker.objects.entries, ∃ w p, entry.2.Holds k w p ∧
          (write = true ∨ w = true) := by
  rw [exists_entry_iff (Q := fun w => write = true ∨ w = true), Space.Depends]
  constructor
  · rintro ⟨w, p, hrecord, -, hw⟩
    cases p with
    | all => exact .inl ⟨w, hrecord, hw⟩
    | object o => exact .inr ⟨o, w, none, hrecord, hw⟩
    | byte o x => exact .inr ⟨o, w, some x, hrecord, hw⟩
  · rintro (⟨w, hrecord, hw⟩ | ⟨o, w, p, hholds, hw⟩)
    · exact ⟨w, .all, hrecord, trivial, hw⟩
    · cases p with
      | none => exact ⟨w, .object o, hholds, trivial, hw⟩
      | some x => exact ⟨w, .byte o x, hholds, trivial, hw⟩

theorem mem_globalHistory : k ∈ tracker.globalHistory ↔ ∃ w, tracker.records k w .all := by
  simp [MemoryDependencyTracker.globalHistory, MemoryDependencyTracker.records, or_comm]

/-- An effect that is not empty leaves its records and depends on those it meets. -/
theorem tracker_read_spec (h : tracker.Apart) {effect : MemoryEffect O} (hne : ¬ effect.Empty) :
    Tracked tracker ⟨instruction, false, effect.region⟩ dependencies
      (tracker.read instruction dependencies effect) := by
  have hknown : ∀ k, k ∈ dependencies ∪ tracker.lastGlobalWriter.toFinset ↔ k ∈ dependencies ∨
      ∃ w, tracker.records k w .all ∧ (false = true ∨ w = true) := by
    intro k
    simp [MemoryDependencyTracker.records]
  cases effect with
  | exact location =>
    have hlen : location.byteLen ≠ 0 := hne
    simp only [MemoryDependencyTracker.read, if_neg hlen]
    cases hstop : location.stop with
    | some stop =>
      obtain ⟨hplaces, hcovers, hmeets⟩ :=
        within_range location.object location.offset stop
      have hregion : (MemoryEffect.exact location).region =
          .range location.object location.offset stop := by
        simp [MemoryEffect.region, hstop]
      rw [hregion]
      refine update_spec h (Region.of_range ..) hknown ?_
      rw [hplaces, hcovers, hmeets]
      exact readExact_spec (h _) (MemoryLocation.lt_stop hstop hlen)
    | none =>
      obtain ⟨hplaces, hcovers, hmeets⟩ := within_object location.object
      have hregion : (MemoryEffect.exact location).region = .object location.object := by
        simp [MemoryEffect.region, hstop]
      rw [hregion]
      refine update_spec h (Region.of_object _) hknown ?_
      rw [hplaces, hcovers, hmeets]
      exact readUnknown_spec (h _)
  | unknownObject object =>
    obtain ⟨hplaces, hcovers, hmeets⟩ := within_object object
    simp only [MemoryDependencyTracker.read, MemoryEffect.region]
    refine update_spec h (Region.of_object object) hknown ?_
    rw [hplaces, hcovers, hmeets]
    exact readUnknown_spec (h _)
  | unknownAll =>
    refine ⟨h, fun k w p => ?_, fun k => ?_⟩
    · simp only [Space.record, Bool.false_eq_true, false_and, not_false_eq_true, and_true]
      cases p with
      | all =>
        cases w with
        | true => simp [MemoryDependencyTracker.records, MemoryDependencyTracker.read]
        | false =>
          simp [MemoryDependencyTracker.records, MemoryDependencyTracker.read, mem_recordReader,
            memorySpace, MemoryEffect.region, Region.places]
      | object o =>
        simp only [memorySpace, MemoryEffect.region, Region.places, reduceCtorEq, and_false, or_false]
        rfl
      | byte o x =>
        simp only [memorySpace, MemoryEffect.region, Region.places, reduceCtorEq, and_false, or_false]
        rfl
    · unfold MemoryDependencyTracker.read
      rw [mem_foldl_union, hknown, or_assoc, MemoryEffect.region, depends_all]
      refine or_congr_right (or_congr_right (exists_congr fun entry => and_congr_right fun hmem => ?_))
      rw [mem_collectWriters (apart_entry h hmem)]
      simp

theorem tracker_write_spec (h : tracker.Apart) {effect : MemoryEffect O} (hne : ¬ effect.Empty) :
    Tracked tracker ⟨instruction, true, effect.region⟩ dependencies
      (tracker.write instruction dependencies effect) := by
  have hknown : ∀ k, k ∈ dependencies ∪ tracker.globalHistory ↔ k ∈ dependencies ∨
      ∃ w, tracker.records k w .all ∧ (true = true ∨ w = true) := by
    intro k
    rw [Finset.mem_union, mem_globalHistory]
    simp
  cases effect with
  | exact location =>
    have hlen : location.byteLen ≠ 0 := hne
    simp only [MemoryDependencyTracker.write, if_neg hlen]
    cases hstop : location.stop with
    | some stop =>
      obtain ⟨hplaces, hcovers, hmeets⟩ :=
        within_range location.object location.offset stop
      have hregion : (MemoryEffect.exact location).region =
          .range location.object location.offset stop := by
        simp [MemoryEffect.region, hstop]
      rw [hregion]
      refine update_spec h (Region.of_range ..) hknown ?_
      rw [hplaces, hcovers, hmeets]
      exact writeExact_spec (h _) (MemoryLocation.lt_stop hstop hlen)
    | none =>
      obtain ⟨hplaces, hcovers, hmeets⟩ := within_object location.object
      have hregion : (MemoryEffect.exact location).region = .object location.object := by
        simp [MemoryEffect.region, hstop]
      rw [hregion]
      refine update_spec h (Region.of_object _) hknown ?_
      rw [hplaces, hcovers, hmeets]
      exact writeUnknown_spec (h _)
  | unknownObject object =>
    obtain ⟨hplaces, hcovers, hmeets⟩ := within_object object
    simp only [MemoryDependencyTracker.write, MemoryEffect.region]
    refine update_spec h (Region.of_object object) hknown ?_
    rw [hplaces, hcovers, hmeets]
    exact writeUnknown_spec (h _)
  | unknownAll =>
    have hempty : ∀ o, (⟨∅, some instruction, []⟩ : MemoryDependencyTracker O I).objectAt o =
        .empty := fun o => by
      rw [MemoryDependencyTracker.objectAt, AList.lookup_empty]
      rfl
    refine ⟨fun o => ?_, fun k w p => ?_, fun k => ?_⟩
    · rw [show ((tracker.write instruction dependencies .unknownAll).1).objectAt o = .empty from
        hempty o]
      exact Segments.apart_empty
    · simp only [Space.record, true_and, memorySpace, MemoryEffect.region, Region.covers,
        not_true_eq_false, and_false, false_or, Region.places]
      cases p with
      | all =>
        cases w <;> simp [MemoryDependencyTracker.records, MemoryDependencyTracker.write, eq_comm]
      | object o =>
        simp only [reduceCtorEq, and_false, iff_false]
        intro hrecord
        have hholds : ((⟨∅, some instruction, []⟩ : MemoryDependencyTracker O I).objectAt o).Holds k
            w none := hrecord
        rw [hempty] at hholds
        cases w <;> simp [MemoryObjectHistory.Holds, MemoryObjectHistory.empty] at hholds
      | byte o x =>
        simp only [reduceCtorEq, and_false, iff_false]
        intro hrecord
        have hholds : ((⟨∅, some instruction, []⟩ : MemoryDependencyTracker O I).objectAt o).Holds k
            w (some x) := hrecord
        rw [hempty] at hholds
        simp [MemoryObjectHistory.Holds, MemoryObjectHistory.empty, Segments.Holds] at hholds
    · unfold MemoryDependencyTracker.write
      rw [mem_foldl_union, hknown, or_assoc, MemoryEffect.region, depends_all]
      refine or_congr_right (or_congr_right (exists_congr fun entry => and_congr_right fun hmem => ?_))
      rw [mem_collectReadsAndWrites (apart_entry h hmem)]
      simp

/-! ## Events -/

/-- The reads of an event, then its writes. -/
def MemoryEvent.effects (event : MemoryEvent O I) : List (Bool × MemoryEffect O) :=
  event.reads.map (false, ·) ++ event.writes.map (true, ·)

def accessesOf (instruction : I) (effects : List (Bool × MemoryEffect O)) :
    List (Access I (Region O)) :=
  (effects.filter fun effect => ¬ effect.2.Empty).map fun effect =>
    ⟨instruction, effect.1, effect.2.region⟩

def MemoryEvent.accesses (event : MemoryEvent O I) : List (Access I (Region O)) :=
  accessesOf event.instruction event.effects

/-- The tracker has the records of the accesses done. -/
structure Tracking (done : List (Access I (Region O))) (tracker : MemoryDependencyTracker O I) :
    Prop where
  apart : tracker.Apart
  records : tracker.records = (memorySpace O).recordAll done

def trackEffect (instruction : I) (state : MemoryDependencyTracker O I × Finset I)
    (effect : Bool × MemoryEffect O) : MemoryDependencyTracker O I × Finset I :=
  if effect.1 then state.1.write instruction state.2 effect.2
  else state.1.read instruction state.2 effect.2

theorem addEvent_eq (event : MemoryEvent O I) : tracker.addEvent event dependencies =
    ((event.effects.foldl (trackEffect event.instruction) (tracker, dependencies)).1,
      (event.effects.foldl (trackEffect event.instruction) (tracker, dependencies)).2.erase
        event.instruction) := by
  rw [MemoryEvent.effects, List.foldl_append, List.foldl_map, List.foldl_map]
  rfl

theorem trackEffect_empty {effect : Bool × MemoryEffect O} (h : effect.2.Empty) :
    trackEffect instruction (tracker, dependencies) effect = (tracker, dependencies) := by
  obtain ⟨w, effect⟩ := effect
  cases effect with
  | exact location =>
    have hlen : location.byteLen = 0 := h
    cases w <;> simp [trackEffect, MemoryDependencyTracker.read, MemoryDependencyTracker.write, hlen]
  | unknownObject object => exact h.elim
  | unknownAll => exact h.elim

theorem Tracking.foldl {done : List (Access I (Region O))} (h : Tracking done tracker)
    (effects : List (Bool × MemoryEffect O)) :
    Tracking (done ++ accessesOf instruction effects)
        (effects.foldl (trackEffect instruction) (tracker, dependencies)).1 ∧
      ∀ k, k ∈ (effects.foldl (trackEffect instruction) (tracker, dependencies)).2 ↔
        k ∈ dependencies ∨ ∃ before a after, accessesOf instruction effects = before ++ a :: after ∧
          (memorySpace O).Depends ((memorySpace O).recordAll (done ++ before)) a k := by
  induction effects generalizing tracker dependencies done with
  | nil =>
    refine ⟨by simpa [accessesOf] using h, fun k => ?_⟩
    simp [accessesOf]
  | cons effect effects ih =>
    rw [List.foldl_cons]
    by_cases hempty : effect.2.Empty
    · have hsame : accessesOf instruction (effect :: effects) = accessesOf instruction effects := by
        simp [accessesOf, hempty]
      rw [trackEffect_empty hempty, hsame]
      exact ih h
    · have htracked : Tracked tracker ⟨instruction, effect.1, effect.2.region⟩ dependencies
          (trackEffect instruction (tracker, dependencies) effect) := by
        obtain ⟨w, effect⟩ := effect
        cases w with
        | false => exact tracker_read_spec h.apart hempty
        | true => exact tracker_write_spec h.apart hempty
      have hmore : accessesOf instruction (effect :: effects) =
          ⟨instruction, effect.1, effect.2.region⟩ :: accessesOf instruction effects := by
        simp [accessesOf, hempty]
      generalize trackEffect instruction (tracker, dependencies) effect = state at htracked
      obtain ⟨tracker', dependencies'⟩ := state
      have hnext : Tracking (done ++ [⟨instruction, effect.1, effect.2.region⟩]) tracker' := by
        refine ⟨htracked.apart, ?_⟩
        funext k w p
        rw [recordAll_concat, ← h.records]
        exact propext (htracked.records k w p)
      obtain ⟨htracking, hmem⟩ := @ih _ dependencies' _ hnext
      rw [hmore]
      refine ⟨by simpa using htracking, fun k => ?_⟩
      rw [hmem, htracked.mem, or_assoc]
      refine or_congr_right ⟨?_, ?_⟩
      · rintro (hdepends | ⟨before, a, after, heq, hdepends⟩)
        · refine ⟨[], _, _, rfl, ?_⟩
          rw [List.append_nil, ← h.records]
          exact hdepends
        · exact ⟨_ :: before, a, after, by rw [heq]; rfl, by simpa using hdepends⟩
      · rintro ⟨before, a, after, heq, hdepends⟩
        cases before with
        | nil =>
          rw [List.nil_append] at heq
          cases heq
          rw [List.append_nil, ← h.records] at hdepends
          exact .inl hdepends
        | cons b before =>
          rw [List.cons_append] at heq
          obtain ⟨rfl, hrest⟩ := List.cons.inj heq
          exact .inr ⟨before, a, after, hrest, by simpa using hdepends⟩

omit [DecidableEq I] in
theorem Tracking.empty : Tracking [] (.empty : MemoryDependencyTracker O I) := by
  have hempty : ∀ o, (.empty : MemoryDependencyTracker O I).objectAt o = .empty := fun o => by
    rw [MemoryDependencyTracker.objectAt, MemoryDependencyTracker.empty, AList.lookup_empty]
    rfl
  refine ⟨fun o => ?_, ?_⟩
  · rw [hempty]
    exact Segments.apart_empty
  · funext k w p
    refine propext (iff_of_false ?_ id)
    cases p with
    | all =>
      cases w <;> simp [MemoryDependencyTracker.records, MemoryDependencyTracker.empty]
    | object o =>
      simp only [MemoryDependencyTracker.records, hempty]
      cases w <;> simp [MemoryObjectHistory.Holds, MemoryObjectHistory.empty]
    | byte o x =>
      simp only [MemoryDependencyTracker.records, hempty]
      simp [MemoryObjectHistory.Holds, MemoryObjectHistory.empty, Segments.Holds]

/-- One identity is listed with a dependency on another. -/
def Emits (events : List (MemoryEvent O I)) (j k : I) : Prop :=
  ∃ dependencies, (j, dependencies) ∈ MemoryDependencyTracker.track .empty events ∧
    k ∈ dependencies

/-- Dependencies event by event. -/
theorem Tracking.track {done : List (Access I (Region O))} (h : Tracking done tracker)
    (events : List (MemoryEvent O I)) (j k : I) :
    (∃ dependencies, (j, dependencies) ∈ tracker.track events ∧ k ∈ dependencies) ↔
      k ≠ j ∧ ∃ before event after, events = before ++ event :: after ∧ event.instruction = j ∧
        ∃ past a rest, event.accesses = past ++ a :: rest ∧ (memorySpace O).Depends
          ((memorySpace O).recordAll (done ++ before.flatMap MemoryEvent.accesses ++ past)) a k := by
  induction events generalizing tracker done with
  | nil => simp [MemoryDependencyTracker.track]
  | cons event events ih =>
    obtain ⟨htracking, hmem⟩ := @Tracking.foldl O I _ _ _ event.instruction ∅ _ h event.effects
    have hevent := @addEvent_eq O I _ _ tracker ∅ event
    generalize event.effects.foldl (trackEffect event.instruction) (tracker, ∅) = state at *
    unfold MemoryDependencyTracker.track
    rw [hevent]
    dsimp only
    have hnext := ih htracking
    constructor
    · rintro ⟨dependencies, hin, hk⟩
      rcases List.mem_cons.mp hin with heq | hin
      · obtain ⟨rfl, rfl⟩ := Prod.mk.inj heq
        obtain ⟨hne, hk⟩ := Finset.mem_erase.mp hk
        obtain ⟨past, a, rest, heq, hdepends⟩ := ((hmem k).mp hk).resolve_left (by simp)
        exact ⟨hne, [], event, events, rfl, rfl, past, a, rest, heq, by simpa using hdepends⟩
      · obtain ⟨hne, before, event', after, rfl, hj, past, a, rest, heq, hdepends⟩ :=
          hnext.mp ⟨dependencies, hin, hk⟩
        refine ⟨hne, event :: before, event', after, rfl, hj, past, a, rest, heq, ?_⟩
        simpa [MemoryEvent.accesses] using hdepends
    · rintro ⟨hne, before, event', after, heq, hj, past, a, rest, hsplit, hdepends⟩
      cases before with
      | nil =>
        rw [List.nil_append] at heq
        obtain ⟨rfl, rfl⟩ := List.cons.inj heq
        subst hj
        refine ⟨_, List.mem_cons_self, Finset.mem_erase.mpr ⟨hne, ?_⟩⟩
        exact (hmem k).mpr (.inr ⟨past, a, rest, hsplit, by simpa using hdepends⟩)
      | cons first before =>
        rw [List.cons_append] at heq
        obtain ⟨rfl, rfl⟩ := List.cons.inj heq
        obtain ⟨dependencies, hin, hk⟩ := hnext.mpr ⟨hne, before, event', after, rfl, hj, past, a,
          rest, hsplit, by simpa [MemoryEvent.accesses] using hdepends⟩
        exact ⟨dependencies, List.mem_cons_of_mem _ hin, hk⟩

/-- A list of lists cut at one of all entries. -/
theorem flatMap_eq_append {α β : Type} {f : α → List β} {l : List α} {before after : List β} {b : β}
    (h : l.flatMap f = before ++ b :: after) : ∃ front a back past rest, l = front ++ a :: back ∧
      f a = past ++ b :: rest ∧ before = front.flatMap f ++ past := by
  induction l generalizing before with
  | nil => simp at h
  | cons a l ih =>
    rw [List.flatMap_cons] at h
    rcases List.append_eq_append_iff.mp h with ⟨between, rfl, htail⟩ | ⟨between, hhead, htail⟩
    · obtain ⟨front, a', back, past, rest, rfl, hsplit, rfl⟩ := ih htail
      exact ⟨a :: front, a', back, past, rest, rfl, hsplit, by simp⟩
    · cases between with
      | nil =>
        obtain ⟨front, a', back, past, rest, rfl, hsplit, hnil⟩ := @ih [] htail.symm
        obtain ⟨hfront, rfl⟩ := List.append_eq_nil_iff.mp hnil.symm
        refine ⟨a :: front, a', back, [], rest, rfl, hsplit, ?_⟩
        rw [List.flatMap_cons, hfront]
        simpa using hhead.symm
      | cons b' between =>
        rw [List.cons_append] at htail
        obtain ⟨rfl, -⟩ := List.cons.inj htail
        exact ⟨[], a, l, before, between, rfl, hhead, rfl⟩

theorem emits_iff (events : List (MemoryEvent O I)) (j k : I) : Emits events j k ↔
    (memorySpace O).DependsOn (events.flatMap MemoryEvent.accesses) j k := by
  have hid : ∀ (event : MemoryEvent O I), ∀ a ∈ event.accesses, a.id = event.instruction := by
    intro event a ha
    obtain ⟨effect, -, rfl⟩ := List.mem_map.mp ha
    rfl
  rw [Emits, Tracking.empty.track]
  simp only [List.nil_append]
  constructor
  · rintro ⟨hne, before, event, after, rfl, rfl, past, a, rest, heq, hdepends⟩
    refine ⟨before.flatMap MemoryEvent.accesses ++ past, a,
      rest ++ after.flatMap MemoryEvent.accesses, ?_, hid event a (by simp [heq]), hne, hdepends⟩
    rw [List.flatMap_append, List.flatMap_cons, heq]
    simp
  · rintro ⟨before, a, after, heq, rfl, hne, hdepends⟩
    obtain ⟨front, event, back, past, rest, rfl, hsplit, rfl⟩ := flatMap_eq_append heq
    exact ⟨hne, front, event, back, rfl, (hid event a (by simp [hsplit])).symm, past, a, rest,
      hsplit, hdepends⟩

/-- Two events of which one writes what the other may touch. -/
def MemoryEvent.Conflicts (event event' : MemoryEvent O I) : Prop :=
  ∃ a ∈ event.effects, ∃ b ∈ event'.effects, (a.1 = true ∨ b.1 = true) ∧ ¬ a.2.Empty ∧
    ¬ b.2.Empty ∧ effectsMayAlias a.2 b.2 = true

omit [DecidableEq I] in
theorem conflicts_iff {event event' : MemoryEvent O I} : event.Conflicts event' ↔
    ∃ a ∈ event.accesses, ∃ b ∈ event'.accesses, (memorySpace O).Conflict a b := by
  constructor
  · rintro ⟨a, ha, b, hb, hwrite, hea, heb, halias⟩
    refine ⟨_, List.mem_map_of_mem (List.mem_filter.mpr ⟨ha, by simpa using hea⟩), _,
      List.mem_map_of_mem (List.mem_filter.mpr ⟨hb, by simpa using heb⟩), hwrite, ?_⟩
    exact (effectsMayAlias_iff hea heb).mp halias
  · rintro ⟨_, hmem, _, hmem', hwrite, hshared⟩
    obtain ⟨a, hin, rfl⟩ := List.mem_map.mp hmem
    obtain ⟨b, hin', rfl⟩ := List.mem_map.mp hmem'
    obtain ⟨ha, hea⟩ := List.mem_filter.mp hin
    obtain ⟨hb, heb⟩ := List.mem_filter.mp hin'
    have hea : ¬ a.2.Empty := by simpa using hea
    have heb : ¬ b.2.Empty := by simpa using heb
    exact ⟨a, ha, b, hb, hwrite, hea, heb, (effectsMayAlias_iff hea heb).mpr hshared⟩

/-- A later event reaches each earlier one that it conflicts with, and depends on no other. -/
theorem track_exact (events : List (MemoryEvent O I)) :
    (∀ before event middle event' after, events = before ++ event :: middle ++ event' :: after →
      event.Conflicts event' →
        ReflTransGen (Emits events) event'.instruction event.instruction) ∧
      ∀ j k, Emits events j k → j ≠ k ∧ ∃ before event middle event' after,
        events = before ++ event :: middle ++ event' :: after ∧ event'.instruction = j ∧
          event.instruction = k ∧ event.Conflicts event' := by
  have hemits : Emits events = (memorySpace O).DependsOn (events.flatMap MemoryEvent.accesses) :=
    funext fun j => funext fun k => propext (emits_iff events j k)
  have hid : ∀ (event : MemoryEvent O I), ∀ a ∈ event.accesses, a.id = event.instruction := by
    intro event a ha
    obtain ⟨effect, -, rfl⟩ := List.mem_map.mp ha
    rfl
  constructor
  · rintro before event middle event' after rfl hconflicts
    obtain ⟨a, ha, b, hb, hconflict⟩ := conflicts_iff.mp hconflicts
    obtain ⟨past, rest, hsplit⟩ := List.append_of_mem hb
    rw [hemits, ← hid event a ha, ← hid event' b hb]
    have hflat : (before ++ event :: middle ++ event' :: after).flatMap MemoryEvent.accesses =
        ((before ++ event :: middle).flatMap MemoryEvent.accesses ++ past) ++
          b :: (rest ++ after.flatMap MemoryEvent.accesses) := by
      rw [List.flatMap_append, List.flatMap_cons (x := event'), hsplit]
      simp
    rw [hflat]
    refine hconflict.reach (List.mem_append_left _ (List.mem_flatMap.mpr ⟨event, by simp, ha⟩))
  · intro j k hdepends
    rw [hemits] at hdepends
    have hne : j ≠ k := by
      obtain ⟨-, -, -, -, -, hne, -⟩ := hdepends
      exact hne.symm
    obtain ⟨before, b, after, heq, rfl, a, ha, rfl, hconflict⟩ := hdepends.conflict
    obtain ⟨front, event', back, past, rest, rfl, hsplit, rfl⟩ := flatMap_eq_append heq
    have hb : b ∈ event'.accesses := by simp [hsplit]
    rcases List.mem_append.mp ha with ha | ha
    · obtain ⟨event, hevent, ha'⟩ := List.mem_flatMap.mp ha
      obtain ⟨before, middle, rfl⟩ := List.append_of_mem hevent
      exact ⟨hne, before, event, middle, event', back, rfl, (hid event' b hb).symm,
        (hid event a ha').symm, conflicts_iff.mpr ⟨a, ha', b, hb, hconflict⟩⟩
    · -- an access of the event itself
      have ha' : a ∈ event'.accesses := by simp [hsplit, ha]
      exact absurd ((hid event' b hb).trans (hid event' a ha').symm) hne

end Tracker
end Celox.Analysis
