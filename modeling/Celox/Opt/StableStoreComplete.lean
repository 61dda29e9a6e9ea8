import Celox.Opt.StableStoreHazards

/-! # What the hazards of direct stable stores report

A bit is pending where a path from the entry has written a working copy of it and no commit has
published it since. The pass reports the bits that are pending at an observation or at the end of a
run, where every access takes its whole range: also a commit whose registers lead elsewhere. -/
namespace Celox.Opt
open Celox.Sir Celox.Layout Celox.Data Relation

variable {A : Type}

/-! ## Paths -/

/-- Which bits an access with an offset and a width touches. -/
abbrev Touches := SIROffset → Nat → Nat → Prop

section Bits
variable [DecidableEq A] (touches : Touches)

def writesBit (inst : Instruction A) (a : A) (bit : Nat) : Prop :=
  match inst with
  | .store addr offset bits _ _ _ =>
    isStateWrite addr ∧ addr.absoluteAddr = a ∧ touches offset bits bit
  | _ => False

/-- By contract a sparse commit at offset zero publishes the whole object. -/
def publishesBit (inst : Instruction A) (a : A) (bit : Nat) : Prop :=
  match inst with
  | .commit src dst offset bits _ => publishes src dst ∧ src.absoluteAddr = a ∧
    (src.region = SPARSE_WORKING_REGION ∧ offset = .static 0 ∨ touches offset bits bit)
  | _ => False

def observesBit (inst : Instruction A) (a : A) (bit : Nat) : Prop :=
  match inst with
  | .load _ addr offset bits =>
    addr.region = STABLE_REGION ∧ addr.absoluteAddr = a ∧ touches offset bits bit
  | .store addr offset bits _ _ _ =>
    addr.region = STABLE_REGION ∧ addr.absoluteAddr = a ∧ touches offset bits bit
  | .commit src dst offset bits _ =>
    (src.region = STABLE_REGION ∧ src.absoluteAddr = a ∨
      dst.region = STABLE_REGION ∧ ¬ publishes src dst ∧ dst.absoluteAddr = a) ∧
      touches offset bits bit
  | _ => False

end Bits

section Paths
variable (eu : RegionedUnit A)

def instructionsOf (b : BlockId) : List (Instruction A) :=
  match eu.blocks.lookup b with
  | some block => block.instructions
  | none => []

def ReachesBlock (b : BlockId) : Prop :=
  ReflTransGen (fun b c => c ∈ successorBlocks eu b) eu.entryBlockId b

/-- Before an instruction of a block, on a path from the entry. -/
inductive Pends (writes published : Instruction A → Prop) : BlockId → Nat → Prop
  | write {b : BlockId} {i : Nat} {inst : Instruction A} : ReachesBlock eu b →
      (instructionsOf eu b)[i]? = some inst → writes inst → Pends writes published b (i + 1)
  | pass {b : BlockId} {i : Nat} {inst : Instruction A} : Pends writes published b i →
      (instructionsOf eu b)[i]? = some inst → ¬ published inst → Pends writes published b (i + 1)
  | edge {b c : BlockId} : Pends writes published b (instructionsOf eu b).length →
      c ∈ successorBlocks eu b → Pends writes published c 0

def EndsRun (b : BlockId) : Prop :=
  ∃ block, eu.blocks.lookup b = some block ∧
    (block.terminator = .ret ∨ ∃ code, block.terminator = .error code)

/-- A bit that is pending where it is observed or where the run ends, with the bits that accesses
may touch, and those that commits publish. -/
def Hazardous [DecidableEq A] (touches surely : Touches) (a : A) (bit : Nat) : Prop :=
  ∃ b, (∃ (i : Nat) (inst : Instruction A), (instructionsOf eu b)[i]? = some inst ∧
      observesBit touches inst a bit ∧
      Pends eu (writesBit touches · a bit) (publishesBit surely · a bit) b i) ∨
    EndsRun eu b ∧
      Pends eu (writesBit touches · a bit) (publishesBit surely · a bit) b
        (instructionsOf eu b).length

end Paths

/-- The values of a register of the declared width. -/
def FitsRegister (registerMap : Table RegisterId RegisterType) (register : RegisterId)
    (value : Nat) : Prop :=
  ∀ type, registerMap.lookup register = some type → value < 2 ^ type.width

/-- Where an access may start. -/
def MayStart (registerMap : Table RegisterId RegisterType) (offset : SIROffset) (start : Nat) :
    Prop :=
  match offset with
  | .static bitOffset | .packedElements bitOffset _ => start = bitOffset
  | .dynamic register => FitsRegister registerMap register start
  | .element index elementWidth bitOffset none =>
    ∃ value, FitsRegister registerMap index value ∧ start = value * elementWidth + bitOffset
  | .element index elementWidth bitOffset (some dynamicBitOffset) =>
    ∃ value bitValue, FitsRegister registerMap index value ∧
      FitsRegister registerMap dynamicBitOffset bitValue ∧
      start = value * elementWidth + bitOffset + bitValue

/-- For some values of the registers. -/
def mayTouch (registerMap : Table RegisterId RegisterType) : Touches := fun offset bits bit =>
  ∃ start, MayStart registerMap offset start ∧ start ≤ bit ∧ bit < start + bits

/-- For all values of the registers. -/
def surelyTouches (registerMap : Table RegisterId RegisterType) : Touches := fun offset bits bit =>
  ∀ start, MayStart registerMap offset start → start ≤ bit ∧ bit < start + bits

/-- Within the range that the pass takes an access to have. -/
def inRange (registerMap : Table RegisterId RegisterType) : Touches := fun offset bits bit =>
  (instructionRange registerMap offset bits).Has bit

theorem registerValueCount_some {registerMap : Table RegisterId RegisterType}
    {register : RegisterId} {count value : Nat}
    (h : registerValueCount registerMap register = some count)
    (hfits : FitsRegister registerMap register value) : value ≤ count - 1 := by
  unfold registerValueCount at h
  rw [Option.bind_eq_bind, Option.bind_eq_some_iff] at h
  obtain ⟨type, htype, h⟩ := h
  split at h
  · cases h
  · cases h
    have := hfits type htype
    omega

theorem saturating_lt {bit a b : Nat} (hbit : bit < usizeMax) (h : bit < a + b) :
    bit < saturatingAdd a b := by
  unfold saturatingAdd
  omega

theorem inRange_of_mayTouch {registerMap : Table RegisterId RegisterType} {offset : SIROffset}
    {bits bit : Nat} (hbit : bit < usizeMax) (h : mayTouch registerMap offset bits bit) :
    inRange registerMap offset bits bit := by
  obtain ⟨start, hstart, hle, hlt⟩ := h
  cases offset with
  | static | packedElements =>
    cases hstart
    exact ⟨hle, saturating_lt hbit hlt⟩
  | dynamic register =>
    simp only [inRange, instructionRange]
    split
    · exact ⟨Nat.zero_le _, hbit⟩
    · rename_i count hcount
      have := registerValueCount_some hcount hstart
      exact ⟨Nat.zero_le _, saturating_lt hbit (by omega)⟩
  | element index elementWidth bitOffset dynamicBitOffset =>
    cases dynamicBitOffset with
    | some => exact ⟨Nat.zero_le _, hbit⟩
    | none =>
      obtain ⟨value, hfits, rfl⟩ := hstart
      simp only [inRange, instructionRange]
      split
      · exact ⟨Nat.zero_le _, hbit⟩
      · rename_i count hcount
        have hmul : value * elementWidth ≤ (count - 1) * elementWidth :=
          Nat.mul_le_mul_right _ (registerValueCount_some hcount hfits)
        refine ⟨Nat.le_trans (Nat.le_add_left _ _) hle, saturating_lt hbit ?_⟩
        unfold saturatingAdd saturatingMul
        omega

/-! ## Lists of ranges -/

/-- The bit is in a range that is reported. -/
def Reported (hazards : DirectStableStoreHazards A) (o : A × Nat) : Prop := Covered (hazards o.1) o.2

section Ranges
variable [DecidableEq A] {hazards : DirectStableStoreHazards A} {addr a : A} {range : Interval Nat}
  {bit : Nat}

namespace DirectStableStoreHazards

omit [DecidableEq A] in
theorem covered_merge {last : Interval Nat} {rest : List (Interval Nat)}
    (h : (last :: rest).Pairwise fun a b => a.start ≤ b.start) :
    Covered (merge last rest) bit ↔ last.Has bit ∨ Covered rest bit := by
  induction rest generalizing last with
  | nil => simp [merge]
  | cons range rest ih =>
    obtain ⟨hlast, hrest⟩ := List.pairwise_cons.mp h
    have hle := hlast range List.mem_cons_self
    rw [merge, covered_cons]
    split
    · rename_i htouch
      have hjoined : ((⟨last.start, max last.stop range.stop⟩ : Interval Nat) :: rest).Pairwise
          fun a b => a.start ≤ b.start := List.pairwise_cons.mpr
        ⟨fun other hother => hlast other (List.mem_cons_of_mem _ hother),
          (List.pairwise_cons.mp hrest).2⟩
      rw [ih hjoined, ← or_assoc]
      simp only [Interval.Has]
      refine or_congr_left ?_
      omega
    · rw [covered_cons, ih hrest]

theorem reported_insert : Reported (hazards.insert addr range) (a, bit) ↔
    Reported hazards (a, bit) ∨ addr = a ∧ range.Has bit := by
  unfold Reported insert
  split
  · rename_i hempty
    refine ⟨.inl, fun h => h.resolve_right fun hhas => ?_⟩
    have := hhas.2
    simp only [Interval.Has] at this
    omega
  · by_cases heq : addr = a
    · subst heq
      simp only [Function.update_self]
      have hsorted := List.pairwise_insertionSort
        (fun a b : Interval Nat => a.start ≤ b.start) (hazards addr ++ [range])
      have hperm := List.perm_insertionSort
        (fun a b : Interval Nat => a.start ≤ b.start) (hazards addr ++ [range])
      have hall : Covered (hazards addr) bit ∨ range.Has bit ↔ Covered
          ((hazards addr ++ [range]).insertionSort fun a b => a.start ≤ b.start) bit := by
        have happend : Covered (hazards addr ++ [range]) bit ↔
            Covered (hazards addr) bit ∨ range.Has bit := by simp
        rw [← happend]
        simp only [Covered, hperm.mem_iff]
      rw [true_and, hall]
      generalize (hazards addr ++ [range]).insertionSort (fun a b : Interval Nat => a.start ≤ b.start) =
        sorted at hsorted
      cases sorted with
      | nil => simp [mergeAll]
      | cons first rest => rw [mergeAll, covered_merge hsorted, covered_cons]
    · simp only [Function.update_of_ne (Ne.symm heq)]
      simp [heq]

end DirectStableStoreHazards
end Ranges

/-! ## Segments -/

section Segments
variable [DecidableEq A] {segments : PendingSegments A} {written : Finset (A × Nat)}
  {hazards : DirectStableStoreHazards A} {a addr : A} {range : Interval Nat} {bit i j : Nat}

/-- The bit is in a segment that may have been written. -/
def PendingSegments.HasBit (segments : PendingSegments A) (written : Finset (A × Nat)) (a : A)
    (bit : Nat) : Prop :=
  ∃ i, (a, i) ∈ written ∧ (segments.segment a i).Has bit

/-- Segments do not overlap, and the objects with segments are known. -/
structure PendingSegments.Proper (segments : PendingSegments A) : Prop where
  sorted : ∀ a, (segments.endpoints a).Pairwise (· < ·)
  mem : ∀ a, 2 ≤ (segments.endpoints a).length → a ∈ segments.addresses

namespace PendingSegments

omit [DecidableEq A] in
theorem segment_ends (h : (segments.segment a i).Has bit) : ∃ start stop,
    (segments.endpoints a)[i]? = some start ∧ (segments.endpoints a)[i + 1]? = some stop ∧
      start ≤ bit ∧ bit < stop := by
  obtain ⟨hle, hlt⟩ := h
  simp only [segment] at hle hlt
  cases hstop : (segments.endpoints a)[i + 1]? with
  | none => simp [hstop] at hlt
  | some stop =>
    have hi : i < (segments.endpoints a).length :=
      Nat.lt_of_succ_lt (List.getElem?_eq_some_iff.mp hstop).1
    rw [hstop] at hlt
    rw [List.getElem?_eq_getElem hi] at hle
    exact ⟨_, stop, List.getElem?_eq_getElem hi, rfl, hle, hlt⟩

omit [DecidableEq A] in
theorem endpoints_le (hsorted : (segments.endpoints a).Pairwise (· < ·)) {x y : Nat}
    (hi : (segments.endpoints a)[i]? = some x) (hj : (segments.endpoints a)[j]? = some y)
    (h : i ≤ j) : x ≤ y := by
  obtain ⟨hi', rfl⟩ := List.getElem?_eq_some_iff.mp hi
  obtain ⟨hj', rfl⟩ := List.getElem?_eq_some_iff.mp hj
  rcases h.lt_or_eq with hlt | rfl
  · exact (List.pairwise_iff_getElem.mp hsorted i j hi' hj' hlt).le
  · exact le_rfl

omit [DecidableEq A] in
theorem exists_number {x : Nat} (h : x ∈ segments.endpoints a) :
    ∃ i, (segments.endpoints a).idxOf? x = some i ∧ (segments.endpoints a)[i]? = some x := by
  obtain ⟨i, hi⟩ := Option.ne_none_iff_exists'.mp
    (mt List.idxOf?_eq_none_iff.mp (not_not.mpr h))
  obtain ⟨hlt, heq, -⟩ := List.idxOf?_eq_some_iff.mp hi
  exact ⟨i, hi, List.getElem?_eq_some_iff.mpr ⟨hlt, heq⟩⟩

omit [DecidableEq A] in
/-- Between two ends there is a segment at every bit. -/
theorem exists_segment {start stop : Nat} (hi : (segments.endpoints a)[i]? = some start)
    (hj : (segments.endpoints a)[j]? = some stop) (hle : start ≤ bit) (hlt : bit < stop)
    (h : i ≤ j) : ∃ k, (segments.segment a k).Has bit := by
  induction j, h using Nat.le_induction generalizing stop with
  | base =>
    rw [hi] at hj
    cases hj
    omega
  | succ j hij ih =>
    have hj' : j < (segments.endpoints a).length :=
      Nat.lt_of_succ_lt (List.getElem?_eq_some_iff.mp hj).1
    by_cases hbit : bit < (segments.endpoints a)[j]
    · exact ih (List.getElem?_eq_getElem hj') hbit
    · refine ⟨j, ?_, ?_⟩
      · simpa [segment, List.getElem?_eq_getElem hj'] using hbit
      · simpa [segment, hj] using hlt

/-- The segments of a range between two ends are those of its bits. -/
theorem mem_segmentRange (h : segments.Proper) (hstart : range.start ∈ segments.endpoints a)
    (hstop : range.stop ∈ segments.endpoints a) (hbit : (segments.segment a i).Has bit) :
    (a, i) ∈ segments.segmentRange a range ↔ range.Has bit := by
  obtain ⟨s, e, hs, he, hle, hlt⟩ := segment_ends hbit
  have hlength : 2 ≤ (segments.endpoints a).length := by
    have := (List.getElem?_eq_some_iff.mp he).1
    omega
  unfold segmentRange
  split
  · rename_i hempty
    refine ⟨fun hmem => absurd hmem (Finset.notMem_empty _), fun hhas => ?_⟩
    rcases hempty with hempty | hnot
    · exact absurd (hhas.1.trans_lt hhas.2) (Nat.not_lt.mpr hempty)
    · exact absurd (h.mem a hlength) hnot
  · obtain ⟨first, hfirstIdx, hfirst⟩ := exists_number hstart
    obtain ⟨limit, hlimitIdx, hlimit⟩ := exists_number hstop
    simp only [hfirstIdx, hlimitIdx, Finset.mem_image, Finset.mem_Ico, Prod.mk.injEq, true_and,
      exists_eq_right, Interval.Has]
    refine and_congr ⟨fun hi => ?_, fun hi => ?_⟩ ⟨fun hi => ?_, fun hi => ?_⟩
    · exact (endpoints_le (h.sorted a) hfirst hs hi).trans hle
    · by_contra hnot
      exact absurd (endpoints_le (h.sorted a) he hfirst (by omega)) (by omega)
    · exact hlt.trans_le (endpoints_le (h.sorted a) he hlimit hi)
    · by_contra hnot
      exact absurd (endpoints_le (h.sorted a) hlimit hs (by omega)) (by omega)

theorem mem_objectRange (h : segments.Proper) (hbit : (segments.segment a i).Has bit) :
    (a, i) ∈ segments.objectRange a := by
  obtain ⟨s, e, -, he, -, -⟩ := segment_ends hbit
  have hlength := (List.getElem?_eq_some_iff.mp he).1
  unfold objectRange
  rw [if_pos (h.mem a (by omega))]
  simp only [numbersOf, Finset.mem_image, List.mem_toFinset, List.mem_range, Prod.mk.injEq,
    true_and, exists_eq_right]
  omega

theorem fst_of_mem_segmentRange {entry : A × Nat} (h : entry ∈ segments.segmentRange a range) :
    entry.1 = a := by
  unfold segmentRange at h
  split at h
  · cases h
  · split at h
    · obtain ⟨i, -, rfl⟩ := Finset.mem_image.mp h
      rfl
    · cases h

theorem fst_of_mem_objectRange {entry : A × Nat} (h : entry ∈ segments.objectRange a) :
    entry.1 = a := by
  unfold objectRange at h
  split at h
  · obtain ⟨i, -, rfl⟩ := Finset.mem_image.mp h
    rfl
  · cases h

theorem mem_all : (a, i) ∈ segments.all ↔
    a ∈ segments.addresses ∧ i + 1 < (segments.endpoints a).length := by
  simp only [all, numbersOf, List.mem_toFinset, List.mem_flatMap, List.mem_map, List.mem_range,
    Prod.mk.injEq]
  constructor
  · rintro ⟨_, hmem, _, hlt, rfl, rfl⟩
    exact ⟨hmem, by omega⟩
  · rintro ⟨hmem, hlt⟩
    exact ⟨a, hmem, i, by omega, rfl, rfl⟩

theorem segmentRange_subset : segments.segmentRange a range ⊆ segments.all := by
  intro entry hentry
  unfold segmentRange at hentry
  split at hentry
  · cases hentry
  · rename_i hnot
    rw [not_or, not_not] at hnot
    split at hentry
    · rename_i first limit hfirst hlimit
      obtain ⟨i, hi, rfl⟩ := Finset.mem_image.mp hentry
      obtain ⟨hlength, -⟩ := List.idxOf?_eq_some_iff.mp hlimit
      have hlt := (Finset.mem_Ico.mp hi).2
      exact mem_all.mpr ⟨hnot.2, by omega⟩
    · cases hentry

/-! ### Recording -/

omit [DecidableEq A] in
theorem foldl_reported {B : Type} {f : DirectStableStoreHazards A → B → DirectStableStoreHazards A}
    (P : B → A × Nat → Prop) (hf : ∀ hazards x o, Reported (f hazards x) o ↔ Reported hazards o ∨ P x o)
    (xs : List B) (hazards : DirectStableStoreHazards A) (o : A × Nat) :
    Reported (xs.foldl f hazards) o ↔ Reported hazards o ∨ ∃ x ∈ xs, P x o := by
  induction xs generalizing hazards with
  | nil => simp
  | cons x xs ih => simp only [List.foldl_cons, ih, hf, or_assoc, List.exists_mem_cons_iff]

theorem reported_recordObservation (h : segments.Proper) :
    Reported (segments.recordObservation hazards written addr range) (a, bit) ↔
      Reported hazards (a, bit) ∨ addr = a ∧ range.Has bit ∧ segments.HasBit written a bit := by
  unfold recordObservation
  split
  · rename_i hmem
    refine (foldl_reported (fun i o => addr = o.1 ∧ range.Has o.2 ∧ (addr, i) ∈ written ∧
      (segments.segment addr i).Has o.2) ?_ _ _ _).trans ?_
    rotate_left
    · refine or_congr_right ⟨?_, ?_⟩
      · rintro ⟨i, -, rfl, hrange, hwritten, hsegment⟩
        exact ⟨rfl, hrange, i, hwritten, hsegment⟩
      · rintro ⟨rfl, hrange, i, hwritten, hsegment⟩
        obtain ⟨s, e, -, he, -, -⟩ := segment_ends hsegment
        have hlength := (List.getElem?_eq_some_iff.mp he).1
        exact ⟨i, List.mem_range.mpr (by omega), rfl, hrange, hwritten, hsegment⟩
    · rintro hazards i ⟨a, bit⟩
      simp only
      split
      · refine ⟨.inl, fun h => h.resolve_right ?_⟩
        rintro ⟨rfl, ⟨hle, hlt⟩, -, hle', hlt'⟩
        omega
      · split
        · rename_i hwritten
          rw [DirectStableStoreHazards.reported_insert]
          refine or_congr_right (and_congr_right fun _ => ?_)
          simp only [Interval.Has, hwritten, true_and]
          omega
        · rename_i hwritten
          simp [hwritten]
  · rename_i hnot
    refine ⟨.inl, fun hall => hall.resolve_right ?_⟩
    rintro ⟨rfl, -, i, -, hsegment⟩
    obtain ⟨s, e, -, he, -, -⟩ := segment_ends hsegment
    have hlength := (List.getElem?_eq_some_iff.mp he).1
    exact hnot (h.mem _ (by omega))

theorem reported_recordPending (h : segments.Proper) :
    Reported (segments.recordPending hazards written) (a, bit) ↔
      Reported hazards (a, bit) ∨ segments.HasBit written a bit := by
  unfold recordPending
  refine (foldl_reported (fun addr o => addr = o.1 ∧ segments.HasBit written addr o.2) ?_ _ _ _).trans
    ?_
  rotate_left
  · refine or_congr_right ⟨?_, fun hbit => ?_⟩
    · rintro ⟨_, -, rfl, hbit⟩
      exact hbit
    · obtain ⟨i, -, hsegment⟩ := id hbit
      obtain ⟨s, e, -, he, -, -⟩ := segment_ends hsegment
      have hlength := (List.getElem?_eq_some_iff.mp he).1
      exact ⟨a, h.mem a (by omega), rfl, hbit⟩
  · rintro hazards addr ⟨a, bit⟩
    refine (foldl_reported (fun i o => addr = o.1 ∧ (addr, i) ∈ written ∧
      (segments.segment addr i).Has o.2) ?_ _ _ _).trans ?_
    rotate_left
    · refine or_congr_right ⟨?_, ?_⟩
      · rintro ⟨i, -, rfl, hwritten, hsegment⟩
        exact ⟨rfl, i, hwritten, hsegment⟩
      · rintro ⟨rfl, i, hwritten, hsegment⟩
        obtain ⟨s, e, -, he, -, -⟩ := segment_ends hsegment
        have hlength := (List.getElem?_eq_some_iff.mp he).1
        exact ⟨i, List.mem_range.mpr (by omega), rfl, hwritten, hsegment⟩
    · rintro hazards i ⟨a, bit⟩
      simp only
      split
      · rename_i hwritten
        rw [DirectStableStoreHazards.reported_insert]
        simp [hwritten]
      · rename_i hwritten
        simp [hwritten]

end PendingSegments
end Segments

/-! ## One instruction -/

section Instruction
variable [DecidableEq A] {eu : RegionedUnit A} {inst : Instruction A} {written : Finset (A × Nat)}
  {hazards : DirectStableStoreHazards A} {a : A} {bit : Nat}

theorem mem_build_endpoints {range : Interval Nat} (hinst : inst ∈ unitInstructions eu)
    (hrange : pendingRange eu.registerMap inst = some (a, range)) (hlt : range.start < range.stop) :
    range.start ∈ (PendingSegments.build eu).endpoints a ∧
      range.stop ∈ (PendingSegments.build eu).endpoints a := by
  have hmem : (a, range) ∈ (((unitInstructions eu).filterMap (pendingRange eu.registerMap)).filter
      fun entry => entry.2.start < entry.2.stop).filter (·.1 = a) := by
    simp only [List.mem_filter, List.mem_filterMap, decide_eq_true_eq]
    exact ⟨⟨⟨inst, hinst, hrange⟩, hlt⟩, trivial⟩
  unfold PendingSegments.build
  simp only [List.mem_insertionSort, List.mem_dedup, List.mem_flatMap]
  exact ⟨⟨_, hmem, List.mem_cons_self⟩, ⟨_, hmem, List.mem_cons_of_mem _ List.mem_cons_self⟩⟩

theorem build_proper (eu : RegionedUnit A) : (PendingSegments.build eu).Proper where
  sorted a := by
    unfold PendingSegments.build
    refine List.Pairwise.imp₂ (fun _ _ hle hne => lt_of_le_of_ne hle hne)
      (List.pairwise_insertionSort _ _) ?_
    exact ((List.perm_insertionSort _ _).nodup_iff).mpr (List.nodup_dedup _)
  mem a h := by
    obtain ⟨x, hx⟩ := List.exists_mem_of_length_pos (Nat.lt_of_lt_of_le Nat.zero_lt_two h)
    unfold PendingSegments.build at h hx ⊢
    simp only [List.mem_insertionSort, List.mem_dedup, List.mem_flatMap, List.mem_filter,
      decide_eq_true_eq] at hx
    obtain ⟨entry, ⟨hentry, rfl⟩, -⟩ := hx
    refine List.mem_filter.mpr ⟨List.mem_dedup.mpr ?_, by simpa using h⟩
    exact List.mem_map.mpr ⟨entry, List.mem_filter.mpr (by simpa using hentry), rfl⟩

theorem mem_segmentRange_build {addr : A} {range : Interval Nat} {i : Nat}
    (hinst : inst ∈ unitInstructions eu)
    (hrange : pendingRange eu.registerMap inst = some (addr, range))
    (hbit : ((PendingSegments.build eu).segment a i).Has bit) :
    (a, i) ∈ (PendingSegments.build eu).segmentRange addr range ↔ addr = a ∧ range.Has bit := by
  by_cases heq : addr = a
  · subst heq
    by_cases hlt : range.start < range.stop
    · obtain ⟨hstart, hstop⟩ := mem_build_endpoints hinst hrange hlt
      rw [PendingSegments.mem_segmentRange (build_proper eu) hstart hstop hbit]
      simp
    · refine iff_of_false (fun hmem => ?_) fun h => hlt (h.2.1.trans_lt h.2.2)
      unfold PendingSegments.segmentRange at hmem
      rw [if_pos (.inl (Nat.not_lt.mp hlt))] at hmem
      cases hmem
  · exact iff_of_false (fun hmem => heq (PendingSegments.fst_of_mem_segmentRange hmem).symm)
      fun h => heq h.1

/-- The bits of a set after an instruction, where accesses take their whole ranges. -/
theorem hasBit_updateWritten (hinst : inst ∈ unitInstructions eu) :
    (PendingSegments.build eu).HasBit
        (updateWritten (PendingSegments.build eu) eu.registerMap inst written) a bit ↔
      writesBit (inRange eu.registerMap) inst a bit ∨
        (PendingSegments.build eu).HasBit written a bit ∧
          ¬ publishesBit (inRange eu.registerMap) inst a bit := by
  have hproper := build_proper eu
  cases inst with
  | store addr offset bits src triggers sites =>
    simp only [updateWritten, writesBit, publishesBit, not_false_eq_true, and_true]
    split
    · rename_i hwrite
      have hrange : pendingRange eu.registerMap (.store addr offset bits src triggers sites) =
          some (addr.absoluteAddr, instructionRange eu.registerMap offset bits) := if_pos hwrite
      simp only [PendingSegments.HasBit, Finset.mem_union, hwrite, true_and]
      constructor
      · rintro ⟨i, hold | hnew, hsegment⟩
        · exact .inr ⟨i, hold, hsegment⟩
        · exact .inl ((mem_segmentRange_build hinst hrange hsegment).mp hnew)
      · rintro (hwrites | ⟨i, hold, hsegment⟩)
        · obtain ⟨rfl, hbit⟩ := id hwrites
          obtain ⟨hstart, hstop⟩ := mem_build_endpoints hinst hrange (hbit.1.trans_lt hbit.2)
          obtain ⟨first, -, hfirst⟩ := PendingSegments.exists_number hstart
          obtain ⟨limit, -, hlimit⟩ := PendingSegments.exists_number hstop
          have hle : first ≤ limit := by
            by_contra hnot
            have := PendingSegments.endpoints_le (hproper.sorted _) hlimit hfirst (by omega)
            exact absurd (hbit.1.trans_lt hbit.2) (Nat.not_lt.mpr this)
          obtain ⟨i, hsegment⟩ :=
            PendingSegments.exists_segment hfirst hlimit hbit.1 hbit.2 hle
          exact ⟨i, .inr ((mem_segmentRange_build hinst hrange hsegment).mpr hwrites), hsegment⟩
        · exact ⟨i, .inl hold, hsegment⟩
    · rename_i hwrite
      simp [hwrite]
  | commit src dst offset bits triggers =>
    simp only [updateWritten, writesBit, publishesBit, false_or]
    split
    · rename_i hpublishes
      have hrange : pendingRange eu.registerMap (.commit src dst offset bits triggers) =
          some (src.absoluteAddr, instructionRange eu.registerMap offset bits) :=
        if_pos hpublishes
      simp only [hpublishes, true_and, PendingSegments.HasBit]
      split
      · rename_i hsparse
        simp only [hsparse, and_self, true_or, and_true, Finset.mem_sdiff]
        constructor
        · rintro ⟨i, ⟨hold, hnot⟩, hsegment⟩
          refine ⟨⟨i, hold, hsegment⟩, ?_⟩
          rintro rfl
          exact hnot (PendingSegments.mem_objectRange hproper hsegment)
        · rintro ⟨⟨i, hold, hsegment⟩, hnot⟩
          exact ⟨i, ⟨hold, fun hmem => hnot (PendingSegments.fst_of_mem_objectRange hmem).symm⟩,
            hsegment⟩
      · rename_i hsparse
        simp only [hsparse, false_or, Finset.mem_sdiff]
        constructor
        · rintro ⟨i, ⟨hold, hnot⟩, hsegment⟩
          exact ⟨⟨i, hold, hsegment⟩, fun h =>
            hnot ((mem_segmentRange_build hinst hrange hsegment).mpr h)⟩
        · rintro ⟨⟨i, hold, hsegment⟩, hnot⟩
          exact ⟨i, ⟨hold, fun hmem =>
            hnot ((mem_segmentRange_build hinst hrange hsegment).mp hmem)⟩, hsegment⟩
    · rename_i hpublishes
      simp [hpublishes]
  | _ => simp [updateWritten, writesBit, publishesBit]

theorem updateWritten_subset (segments : PendingSegments A)
    (registerMap : Table RegisterId RegisterType) (inst : Instruction A)
    (h : written ⊆ segments.all) :
    updateWritten segments registerMap inst written ⊆ segments.all := by
  unfold updateWritten
  split
  · split
    · exact Finset.union_subset h PendingSegments.segmentRange_subset
    · exact h
  · split
    · split <;> exact Finset.sdiff_subset.trans h
    · exact h
  · exact h

omit [DecidableEq A] in
theorem stable_not_written {addr : RegionedAbsoluteAddr A} (h : addr.region = STABLE_REGION) :
    isStateWrite addr = false := by
  unfold isStateWrite
  rw [h]
  rfl

theorem reported_observed (inst : Instruction A) :
    Reported ((observedRanges eu.registerMap inst).foldl (fun hazards observed =>
        (PendingSegments.build eu).recordObservation hazards written observed.1 observed.2)
      hazards) (a, bit) ↔
    Reported hazards (a, bit) ∨ observesBit (inRange eu.registerMap) inst a bit ∧
      (PendingSegments.build eu).HasBit written a bit := by
  refine (PendingSegments.foldl_reported (fun observed o => observed.1 = o.1 ∧
    observed.2.Has o.2 ∧ (PendingSegments.build eu).HasBit written o.1 o.2)
    (fun hazards observed o => PendingSegments.reported_recordObservation (build_proper eu))
    _ _ _).trans (or_congr_right ?_)
  have hobserved : (∃ observed ∈ observedRanges eu.registerMap inst,
      observed.1 = a ∧ observed.2.Has bit) ↔ observesBit (inRange eu.registerMap) inst a bit := by
    cases inst with
    | load dst addr offset bits =>
      by_cases hstable : addr.region = STABLE_REGION <;>
        simp [observedRanges, observesBit, inRange, hstable]
    | store addr offset bits src triggers sites =>
      by_cases hstable : addr.region = STABLE_REGION
      · simp [observedRanges, observesBit, inRange, hstable, stable_not_written hstable]
      · simp only [observedRanges, observesBit, hstable, false_and, iff_false]
        split <;> simp
    | commit src dst offset bits triggers =>
      simp only [observedRanges, observesBit, List.mem_append, or_and_right, exists_or]
      refine or_congr ?_ ?_
      · by_cases hstable : src.region = STABLE_REGION <;> simp [inRange, hstable]
      · by_cases hpublishes : publishes src dst = true
        · simp [hpublishes]
        · by_cases hstable : dst.region = STABLE_REGION <;>
            simp [inRange, hpublishes, hstable]
    | _ => simp [observedRanges, observesBit]
  rw [← hobserved]
  constructor
  · rintro ⟨observed, hmem, heq, hbit, hhas⟩
    exact ⟨⟨observed, hmem, heq, hbit⟩, hhas⟩
  · rintro ⟨⟨observed, hmem, heq, hbit⟩, hhas⟩
    exact ⟨observed, hmem, heq, hbit, hhas⟩

end Instruction

/-! ## Blocks -/

section Block
variable [DecidableEq A] {eu : RegionedUnit A} {written : Finset (A × Nat)}
  {hazards : DirectStableStoreHazards A} {a : A} {bit : Nat} {b : BlockId}

def writtenAfter (eu : RegionedUnit A) (instructions : List (Instruction A))
    (written : Finset (A × Nat)) : Finset (A × Nat) :=
  instructions.foldl (fun written inst =>
    updateWritten (PendingSegments.build eu) eu.registerMap inst written) written

omit [DecidableEq A] in
theorem mem_unitInstructions {inst : Instruction A} (h : inst ∈ instructionsOf eu b) :
    inst ∈ unitInstructions eu := by
  unfold instructionsOf at h
  split at h
  · rename_i block hblock
    exact List.mem_flatMap.mpr ⟨⟨b, block⟩, AList.mem_lookup_iff.mp hblock, h⟩
  · cases h

theorem writtenAfter_subset (instructions : List (Instruction A))
    (h : written ⊆ (PendingSegments.build eu).all) :
    writtenAfter eu instructions written ⊆ (PendingSegments.build eu).all := by
  induction instructions generalizing written with
  | nil => exact h
  | cons inst rest ih => exact ih (updateWritten_subset _ _ inst h)

/-- One more instruction. -/
theorem hasBit_writtenAfter_succ {i : Nat} {inst : Instruction A}
    (hinst : (instructionsOf eu b)[i]? = some inst) :
    (PendingSegments.build eu).HasBit
        (writtenAfter eu ((instructionsOf eu b).take (i + 1)) written) a bit ↔
      writesBit (inRange eu.registerMap) inst a bit ∨
        (PendingSegments.build eu).HasBit
            (writtenAfter eu ((instructionsOf eu b).take i) written) a bit ∧
          ¬ publishesBit (inRange eu.registerMap) inst a bit := by
  rw [List.take_add_one, hinst]
  simp only [writtenAfter, Option.toList_some, List.foldl_append, List.foldl_cons, List.foldl_nil]
  exact hasBit_updateWritten (mem_unitInstructions (List.mem_of_getElem? hinst))

/-- What a block observes of the bits pending before it. -/
def ObservedIn (eu : RegionedUnit A) (b : BlockId) (written : Finset (A × Nat)) (a : A)
    (bit : Nat) : Prop :=
  (∃ (i : Nat) (inst : Instruction A), (instructionsOf eu b)[i]? = some inst ∧
    observesBit (inRange eu.registerMap) inst a bit ∧
      (PendingSegments.build eu).HasBit
        (writtenAfter eu ((instructionsOf eu b).take i) written) a bit) ∨
  EndsRun eu b ∧
    (PendingSegments.build eu).HasBit (writtenAfter eu (instructionsOf eu b) written) a bit

theorem foldl_visitInstruction_fst (written : Finset (A × Nat))
    (hazards : DirectStableStoreHazards A) (instructions : List (Instruction A)) :
    (instructions.foldl (visitInstruction (PendingSegments.build eu) eu.registerMap)
      (written, hazards)).1 = writtenAfter eu instructions written := by
  induction instructions generalizing written hazards with
  | nil => rfl
  | cons inst rest ih => exact ih _ _

theorem reported_visitInstructions (written : Finset (A × Nat))
    (hazards : DirectStableStoreHazards A) (a : A) (bit : Nat) (instructions : List (Instruction A)) :
    Reported (instructions.foldl (visitInstruction (PendingSegments.build eu) eu.registerMap)
        (written, hazards)).2 (a, bit) ↔
      Reported hazards (a, bit) ∨
        ∃ (i : Nat) (inst : Instruction A), instructions[i]? = some inst ∧
          observesBit (inRange eu.registerMap) inst a bit ∧
            (PendingSegments.build eu).HasBit (writtenAfter eu (instructions.take i) written)
              a bit := by
  induction instructions generalizing written hazards with
  | nil => simp
  | cons inst rest ih =>
    rw [List.foldl_cons, visitInstruction, ih, reported_observed, or_assoc]
    refine or_congr_right ⟨?_, ?_⟩
    · rintro (⟨hobserves, hbit⟩ | ⟨i, other, hother, hobserves, hbit⟩)
      · exact ⟨0, inst, rfl, hobserves, hbit⟩
      · exact ⟨i + 1, other, hother, hobserves, hbit⟩
    · rintro ⟨i, other, hother, hobserves, hbit⟩
      cases i with
      | zero =>
        cases hother
        exact .inl ⟨hobserves, hbit⟩
      | succ i => exact .inr ⟨i, other, hother, hobserves, hbit⟩

theorem visitBlock_visits (eu : RegionedUnit A) :
    Visits (visitBlock (PendingSegments.build eu) eu)
      (fun b written => writtenAfter eu (instructionsOf eu b) written) Reported
      fun b written o => ObservedIn eu b written o.1 o.2 where
  out b written hazards := by
    unfold visitBlock instructionsOf
    cases hblock : eu.blocks.lookup b with
    | none => rfl
    | some block =>
      simp only [← foldl_visitInstruction_fst written hazards]
      split <;> rfl
  shows_iff b written hazards o := by
    obtain ⟨a, bit⟩ := o
    unfold visitBlock ObservedIn instructionsOf EndsRun
    cases hblock : eu.blocks.lookup b with
    | none => simp
    | some block =>
      simp only [Option.some.injEq, exists_eq_left', foldl_visitInstruction_fst]
      have hreported := @reported_visitInstructions _ _ eu written hazards a bit
        block.instructions
      generalize block.terminator = terminator
      cases terminator with
      | ret =>
        rw [PendingSegments.reported_recordPending (build_proper eu), hreported, or_assoc]
        simp
      | error code =>
        rw [PendingSegments.reported_recordPending (build_proper eu), hreported, or_assoc]
        simp
      | _ => simpa using hreported

end Block

/-! ## The whole unit -/

section Unit
variable [DecidableEq A] {eu : RegionedUnit A} {written : Finset (A × Nat)} {a : A} {bit : Nat}
  {b c : BlockId}

omit [DecidableEq A] in
theorem mem_mentionedBlocks (h : c ∈ successorBlocks eu b) : c ∈ mentionedBlocks eu := by
  unfold successorBlocks at h
  split at h
  · rename_i block hblock
    exact List.mem_cons_of_mem _
      (List.mem_flatMap.mpr ⟨⟨b, block⟩, AList.mem_lookup_iff.mp hblock, h⟩)
  · cases h

/-- With pending bits alone before a block, the bits before each of its instructions are pending. -/
theorem pends_of_hasBit (hreach : ReachesBlock eu b)
    (hwritten : ∀ a bit, (PendingSegments.build eu).HasBit written a bit →
      Pends eu (writesBit (inRange eu.registerMap) · a bit)
        (publishesBit (inRange eu.registerMap) · a bit) b 0) {i : Nat}
    (hi : i ≤ (instructionsOf eu b).length)
    (h : (PendingSegments.build eu).HasBit
      (writtenAfter eu ((instructionsOf eu b).take i) written) a bit) :
    Pends eu (writesBit (inRange eu.registerMap) · a bit)
      (publishesBit (inRange eu.registerMap) · a bit) b i := by
  induction i with
  | zero => exact hwritten a bit h
  | succ i ih =>
    have hinst := List.getElem?_eq_getElem (l := instructionsOf eu b) hi
    rcases (hasBit_writtenAfter_succ hinst).mp h with hwrites | ⟨hbit, hnot⟩
    · exact .write hreach hinst hwrites
    · exact .pass (ih (by omega) hbit) hinst hnot

/-- A reported range was pending where it was observed, or at the end of a run. -/
theorem hazardous_of_observed (hreach : ReachesBlock eu b)
    (hwritten : ∀ a bit, (PendingSegments.build eu).HasBit written a bit →
      Pends eu (writesBit (inRange eu.registerMap) · a bit)
        (publishesBit (inRange eu.registerMap) · a bit) b 0)
    (h : ObservedIn eu b written a bit) :
    Hazardous eu (inRange eu.registerMap) (inRange eu.registerMap) a bit := by
  rcases h with ⟨i, inst, hinst, hobserves, hbit⟩ | ⟨hends, hbit⟩
  · exact ⟨b, .inl ⟨i, inst, hinst, hobserves, pends_of_hasBit hreach hwritten
      (List.getElem?_eq_some_iff.mp hinst).1.le hbit⟩⟩
  · refine ⟨b, .inr ⟨hends, pends_of_hasBit hreach hwritten le_rfl ?_⟩⟩
    rwa [List.take_length]

/-- A set for every block that is reached, from which the bits pending anywhere can be read. -/
structure Solved (eu : RegionedUnit A) (values : BlockId → Option (Finset (A × Nat))) : Prop where
  entry : ∃ written, values eu.entryBlockId = some written
  next : ∀ b written, values b = some written → ∀ c ∈ successorBlocks eu b,
    ∃ written', values c = some written' ∧ writtenAfter eu (instructionsOf eu b) written ⊆ written'

theorem Solved.reached {values : BlockId → Option (Finset (A × Nat))} (h : Solved eu values)
    (hreach : ReachesBlock eu b) : ∃ written, values b = some written := by
  induction hreach with
  | refl => exact h.entry
  | tail hreach hsucc ih =>
    obtain ⟨written, hwritten⟩ := ih
    obtain ⟨written', hwritten', -⟩ := h.next _ written hwritten _ hsucc
    exact ⟨written', hwritten'⟩

theorem Solved.pends {values : BlockId → Option (Finset (A × Nat))} (h : Solved eu values) {i : Nat}
    (hpends : Pends eu (writesBit (inRange eu.registerMap) · a bit)
      (publishesBit (inRange eu.registerMap) · a bit) b i) :
    ∃ written, values b = some written ∧ (PendingSegments.build eu).HasBit
      (writtenAfter eu ((instructionsOf eu b).take i) written) a bit := by
  induction hpends with
  | @write b i inst hreach hinst hwrites =>
    obtain ⟨written, hvalue⟩ := h.reached hreach
    exact ⟨written, hvalue, (hasBit_writtenAfter_succ hinst).mpr (.inl hwrites)⟩
  | pass _ hinst hnot ih =>
    obtain ⟨written, hvalue, hbit⟩ := ih
    exact ⟨written, hvalue, (hasBit_writtenAfter_succ hinst).mpr (.inr ⟨hbit, hnot⟩)⟩
  | @edge b c _ hsucc ih =>
    obtain ⟨written, hvalue, j, hmem, hsegment⟩ := ih
    obtain ⟨written', hvalue', hle⟩ := h.next b written hvalue c hsucc
    rw [List.take_length] at hmem
    exact ⟨written', hvalue', j, hle hmem, hsegment⟩

theorem initialSpread_rank (eu : RegionedUnit A) :
    (initialSpread eu).rank (mentionedBlocks eu) (PendingSegments.build eu).all ≤
      1 + (mentionedBlocks eu).length * ((PendingSegments.build eu).count + 1) := by
  unfold Spread.rank
  refine Nat.add_le_add le_rfl ?_
  have hroom := List.sum_le_card_nsmul ((mentionedBlocks eu).map fun node =>
    room (PendingSegments.build eu).all ((initialSpread eu).values node))
    ((PendingSegments.build eu).count + 1) ?_
  · simpa using hroom
  · intro x hx
    obtain ⟨node, -, rfl⟩ := List.mem_map.mp hx
    simp only [initialSpread]
    split <;> simp [room, PendingSegments.count]

theorem initialSpread_bounded (eu : RegionedUnit A) :
    (initialSpread eu).Bounded (mentionedBlocks eu) (PendingSegments.build eu).all := by
  refine ⟨fun b hb => ?_, fun b written hb => ?_⟩
  · rw [List.mem_singleton.mp hb]
    exact List.mem_cons_self
  · simp only [initialSpread] at hb
    split at hb
    · cases hb
      exact Finset.empty_subset _
    · cases hb

theorem exists_solved (eu : RegionedUnit A) : ∃ values, Solved eu values ∧
    ∀ b written, values b = some written → ∀ a bit, ObservedIn eu b written a bit →
      Reported (spread (successorBlocks eu) (visitBlock (PendingSegments.build eu) eu)
        (1 + (mentionedBlocks eu).length * ((PendingSegments.build eu).count + 1))
        (initialSpread eu) fun _ => []) (a, bit) := by
  have hwaiting : (initialSpread eu).Waiting (successorBlocks eu)
      (fun b written => writtenAfter eu (instructionsOf eu b) written) Reported
      (fun b written o => ObservedIn eu b written o.1 o.2) fun _ => [] := by
    refine ⟨fun b hb => ?_, fun b written hb hnot => ?_⟩
    · rw [List.mem_singleton.mp hb]
      simp [initialSpread]
    · simp only [initialSpread, List.mem_singleton] at hb hnot
      rw [if_neg hnot] at hb
      cases hb
  obtain ⟨values, hvalues, hsettled⟩ := spread_closed (visitBlock_visits eu)
    (fun b _ c hc => mem_mentionedBlocks hc) (fun b written hwritten => writtenAfter_subset _ hwritten)
    (initialSpread_bounded eu) (initialSpread_rank eu) hwaiting
  refine ⟨values, ⟨?_, fun b written hb => (hsettled b written hb).1⟩,
    fun b written hb a bit hobserved => (hsettled b written hb).2 (a, bit) hobserved⟩
  obtain ⟨written, hwritten, -⟩ := hvalues eu.entryBlockId ∅ (if_pos rfl)
  exact ⟨written, hwritten⟩

/-- Only bits in a segment can be pending. -/
theorem pends_in_segment {i : Nat} (h : Pends eu (writesBit (inRange eu.registerMap) · a bit)
    (publishesBit (inRange eu.registerMap) · a bit) b i) :
    (PendingSegments.build eu).HasBit (PendingSegments.build eu).all a bit := by
  induction h with
  | write _ hinst hwrites =>
    have hbit : (PendingSegments.build eu).HasBit (updateWritten (PendingSegments.build eu)
        eu.registerMap _ (PendingSegments.build eu).all) a bit :=
      (hasBit_updateWritten (mem_unitInstructions (List.mem_of_getElem? hinst))).mpr (.inl hwrites)
    obtain ⟨j, hmem, hsegment⟩ := hbit
    exact ⟨j, updateWritten_subset _ _ _ (Finset.Subset.refl _) hmem, hsegment⟩
  | pass _ _ _ ih => exact ih
  | edge _ _ ih => exact ih

/-- A bit is reported if and only if it is pending at an observation or at the end of a run, with
accesses and commits that take their whole ranges. -/
theorem reported_iff_hazardous (eu : RegionedUnit A) (a : A) (bit : Nat) :
    Covered (directStableStoreHazards eu a) bit ↔
      Hazardous eu (inRange eu.registerMap) (inRange eu.registerMap) a bit := by
  have hnone : ¬ Reported (fun _ => [] : DirectStableStoreHazards A) (a, bit) := covered_nil
  unfold directStableStoreHazards
  split
  · rename_i hcount
    refine iff_of_false hnone fun hhazard => ?_
    have hempty : (PendingSegments.build eu).all = ∅ := Finset.card_eq_zero.mp hcount
    obtain ⟨b, ⟨i, inst, -, -, hpends⟩ | ⟨-, hpends⟩⟩ := hhazard
    all_goals
      obtain ⟨j, hmem, -⟩ := pends_in_segment hpends
      simp [hempty] at hmem
  · constructor
    · intro (hreported : Reported _ (a, bit))
      -- what is in a set is pending before its block
      have hfine : (initialSpread eu).Fine (ReachesBlock eu) fun b (f : A × Nat) =>
          ∀ bit, ((PendingSegments.build eu).segment f.1 f.2).Has bit →
            Pends eu (writesBit (inRange eu.registerMap) · f.1 bit)
              (publishesBit (inRange eu.registerMap) · f.1 bit) b 0 := by
        refine ⟨fun b hb => ?_, fun b written hb f hf => ?_⟩
        · rw [List.mem_singleton.mp hb]
          exact ReflTransGen.refl
        · simp only [initialSpread] at hb
          split at hb
          · cases hb
            cases hf
          · cases hb
      have hstep : ∀ b written, ReachesBlock eu b →
          (∀ f ∈ written, ∀ bit, ((PendingSegments.build eu).segment f.1 f.2).Has bit →
            Pends eu (writesBit (inRange eu.registerMap) · f.1 bit)
              (publishesBit (inRange eu.registerMap) · f.1 bit) b 0) →
          ∀ c ∈ successorBlocks eu b, ReachesBlock eu c ∧
            ∀ f ∈ writtenAfter eu (instructionsOf eu b) written, ∀ bit,
              ((PendingSegments.build eu).segment f.1 f.2).Has bit →
                Pends eu (writesBit (inRange eu.registerMap) · f.1 bit)
                  (publishesBit (inRange eu.registerMap) · f.1 bit) c 0 := by
        refine fun b written hreach hgood c hc => ⟨hreach.tail hc, fun f hf bit hsegment =>
          .edge (pends_of_hasBit hreach
            (by rintro a bit ⟨i, hmem, hhas⟩; exact hgood (a, i) hmem bit hhas) le_rfl ?_) hc⟩
        rw [List.take_length]
        exact ⟨f.2, hf, hsegment⟩
      rcases spread_sound (visitBlock_visits eu) hstep hfine hreported with
        hrecord | ⟨b, written, hreach, hgood, hobserved⟩
      · exact absurd hrecord hnone
      · exact hazardous_of_observed hreach
          (by rintro a bit ⟨i, hmem, hhas⟩; exact hgood (a, i) hmem bit hhas) hobserved
    · intro hhazard
      obtain ⟨values, hsolved, hobserves⟩ := exists_solved eu
      obtain ⟨b, ⟨i, inst, hinst, hobs, hpends⟩ | ⟨hends, hpends⟩⟩ := hhazard
      · obtain ⟨written, hvalue, hbit⟩ := hsolved.pends hpends
        exact hobserves b written hvalue a bit (.inl ⟨i, inst, hinst, hobs, hbit⟩)
      · obtain ⟨written, hvalue, hbit⟩ := hsolved.pends hpends
        rw [List.take_length] at hbit
        exact hobserves b written hvalue a bit (.inr ⟨hends, hbit⟩)

/-- Accesses that touch more, and commits that publish less. -/
theorem Hazardous.mono {touches touches' surely surely' : Touches}
    (htouches : ∀ offset bits, touches offset bits bit → touches' offset bits bit)
    (hsurely : ∀ src dst offset bits triggers,
      (∃ b, (.commit src dst offset bits triggers : Instruction A) ∈ instructionsOf eu b) →
        publishes src dst → surely' offset bits bit → surely offset bits bit)
    (h : Hazardous eu touches surely a bit) : Hazardous eu touches' surely' a bit := by
  have hpends : ∀ {b i}, Pends eu (writesBit touches · a bit) (publishesBit surely · a bit) b i →
      Pends eu (writesBit touches' · a bit) (publishesBit surely' · a bit) b i := by
    intro b i hpends
    induction hpends with
    | @write b i inst hreach hinst hwrites =>
      refine .write hreach hinst ?_
      cases inst with
      | store => exact ⟨hwrites.1, hwrites.2.1, htouches _ _ hwrites.2.2⟩
      | _ => exact hwrites
    | @pass b i inst _ hinst hnot ih =>
      refine .pass ih hinst fun hpublishes => hnot ?_
      cases inst with
      | commit =>
        obtain ⟨hpub, haddr, htouch⟩ := hpublishes
        exact ⟨hpub, haddr, htouch.imp_right
          (hsurely _ _ _ _ _ ⟨b, List.mem_of_getElem? hinst⟩ hpub)⟩
      | _ => exact hpublishes
    | edge _ hsucc ih => exact .edge ih hsucc
  obtain ⟨b, ⟨i, inst, hinst, hobserves, h⟩ | ⟨hends, h⟩⟩ := h
  · refine ⟨b, .inl ⟨i, inst, hinst, ?_, hpends h⟩⟩
    cases inst with
    | load | store => exact ⟨hobserves.1, hobserves.2.1, htouches _ _ hobserves.2.2⟩
    | commit => exact ⟨hobserves.1, htouches _ _ hobserves.2⟩
    | _ => exact hobserves
  · exact ⟨b, .inr ⟨hends, hpends h⟩⟩

/-- Where commits have constant offsets, every hazard is reported. -/
theorem reported_of_constant_commits (hconstant : ∀ b src dst offset bits triggers,
      (.commit src dst offset bits triggers : Instruction A) ∈ instructionsOf eu b →
        publishes src dst → offset.constantBitOffset.isSome)
    (hbit : bit < usizeMax)
    (h : Hazardous eu (mayTouch eu.registerMap) (surelyTouches eu.registerMap) a bit) :
    Covered (directStableStoreHazards eu a) bit := by
  refine (reported_iff_hazardous eu a bit).mpr (h.mono (fun _ _ => inRange_of_mayTouch hbit) ?_)
  rintro src dst offset bits triggers ⟨b, hmem⟩ hpublishes ⟨hle, hlt⟩ start hstart
  have hconst := hconstant b src dst offset bits triggers hmem hpublishes
  cases offset with
  | static | packedElements =>
    cases hstart
    refine ⟨hle, ?_⟩
    simp only [instructionRange, saturatingAdd] at hlt
    omega
  | dynamic | element => cases hconst

end Unit

/-! ## A commit at a dynamic offset -/

/-- One byte of the working copy is written, and a byte somewhere published. -/
def dynamicCommit : RegionedUnit Unit where
  entryBlockId := 0
  blocks := [
    ⟨0, ⟨0, [], [.imm 0 ⟨5, 0⟩, .imm 1 ⟨8, 0⟩,
      .store ⟨WORKING_REGION, ()⟩ (.static 0) 8 0 [] [],
      .commit ⟨WORKING_REGION, ()⟩ ⟨STABLE_REGION, ()⟩ (.dynamic 1) 8 []], .ret⟩⟩].toAList
  registerMap := [⟨0, .bit 8 false⟩, ⟨1, .bit 4 false⟩].toAList

end Celox.Opt
