import Celox.Data.IntervalList
import Celox.Data.Propagation
import Celox.Opt.DeadWorkingStores

/-! # Hazards of direct stable stores

A forward pass over the graph of a unit finds which bits a working store may have written that no
commit has published yet. The bits are cut into segments at the ends of the ranges that are written
or published; the bit vector over all segments is a finite set of segments here. Where stable bits
are observed that are pending so, the pass reports them. -/
namespace Celox.Opt
open Celox.Sir Celox.Layout Celox.Data

variable {A : Type} [DecidableEq A]

/-- The ranges of every object that are reported. -/
abbrev DirectStableStoreHazards (A : Type) := A → List (Interval Nat)

namespace DirectStableStoreHazards

/-- A range with the sorted ones behind it, without gaps between ranges that touch. -/
def merge (last : Interval Nat) : List (Interval Nat) → List (Interval Nat)
  | [] => [last]
  | range :: rest =>
    if range.start ≤ last.stop then merge ⟨last.start, max last.stop range.stop⟩ rest
    else last :: merge range rest

def mergeAll : List (Interval Nat) → List (Interval Nat)
  | [] => []
  | range :: rest => merge range rest

def insert (hazards : DirectStableStoreHazards A) (addr : A) (range : Interval Nat) :
    DirectStableStoreHazards A :=
  if range.stop ≤ range.start then hazards
  else Function.update hazards addr
    (mergeAll ((hazards addr ++ [range]).insertionSort fun a b => a.start ≤ b.start))

end DirectStableStoreHazards

/-! ## Ranges of accesses -/

def saturatingAdd (a b : Nat) : Nat := min (a + b) usizeMax

def saturatingMul (a b : Nat) : Nat := min (a * b) usizeMax

def registerValueCount (registerMap : Table RegisterId RegisterType) (register : RegisterId) :
    Option Nat := do
  let type ← registerMap.lookup register
  if 64 ≤ type.width then none else some (2 ^ type.width)

/-- The bits that an access may touch. -/
def instructionRange (registerMap : Table RegisterId RegisterType) (offset : SIROffset)
    (bits : Nat) : Interval Nat :=
  match offset with
  | .static start | .packedElements start _ => ⟨start, saturatingAdd start bits⟩
  | .dynamic register =>
    match registerValueCount registerMap register with
    | none => ⟨0, usizeMax⟩
    | some valueCount => ⟨0, saturatingAdd (valueCount - 1) bits⟩
  | .element index elementWidth bitOffset none =>
    match registerValueCount registerMap index with
    | none => ⟨0, usizeMax⟩
    | some elementCount => ⟨bitOffset, saturatingAdd
        (saturatingAdd (saturatingMul (elementCount - 1) elementWidth) bitOffset) bits⟩
  | .element _ _ _ (some _) => ⟨0, usizeMax⟩

def isStateWrite (addr : RegionedAbsoluteAddr A) : Bool :=
  addr.region = WORKING_REGION || addr.region = SPARSE_WORKING_REGION

/-- From a working copy of an object to its stable one. -/
def publishes (src dst : RegionedAbsoluteAddr A) : Bool :=
  dst.region = STABLE_REGION && isStateWrite src && src.absoluteAddr = dst.absoluteAddr

/-! ## Segments -/

/-- What an instruction writes of the working copies or publishes of them. -/
def pendingRange (registerMap : Table RegisterId RegisterType) :
    Instruction A → Option (A × Interval Nat)
  | .store addr offset bits _ _ _ =>
    if isStateWrite addr then
      some (addr.absoluteAddr, instructionRange registerMap offset bits)
    else none
  | .commit src dst offset bits _ =>
    if publishes src dst then some (src.absoluteAddr, instructionRange registerMap offset bits)
    else none
  | _ => none

/-- The ends of the segments of every object, in ascending order. -/
structure PendingSegments (A : Type) where
  addresses : List A
  endpoints : A → List Nat

namespace PendingSegments

def build (eu : RegionedUnit A) : PendingSegments A :=
  let ranges := ((unitInstructions eu).filterMap (pendingRange eu.registerMap)).filter
    fun entry => entry.2.start < entry.2.stop
  let endpoints := fun address => (((ranges.filter (·.1 = address)).flatMap fun entry =>
    [entry.2.start, entry.2.stop]).dedup).insertionSort (· ≤ ·)
  { addresses := (ranges.map (·.1)).dedup.filter fun address => 2 ≤ (endpoints address).length
    endpoints }

variable (segments : PendingSegments A)

def numbersOf (address : A) : List Nat := List.range ((segments.endpoints address).length - 1)

/-- Every segment, by its object and its number there. -/
def all : Finset (A × Nat) :=
  (segments.addresses.flatMap fun address => (segments.numbersOf address).map (address, ·)).toFinset

def count : Nat := segments.all.card

/-- The segments between two ends. -/
def segmentRange (address : A) (range : Interval Nat) : Finset (A × Nat) :=
  if range.stop ≤ range.start ∨ address ∉ segments.addresses then ∅
  else
    match (segments.endpoints address).idxOf? range.start,
      (segments.endpoints address).idxOf? range.stop with
    | some first, some limit => (Finset.Ico first limit).image (address, ·)
    | _, _ => ∅

/-- All segments of an object. -/
def objectRange (address : A) : Finset (A × Nat) :=
  if address ∈ segments.addresses then (segments.numbersOf address).toFinset.image (address, ·)
  else ∅

def segment (address : A) (index : Nat) : Interval Nat :=
  ⟨(segments.endpoints address)[index]?.getD 0, (segments.endpoints address)[index + 1]?.getD 0⟩

def recordObservation (hazards : DirectStableStoreHazards A) (written : Finset (A × Nat))
    (address : A) (range : Interval Nat) : DirectStableStoreHazards A :=
  if address ∈ segments.addresses then
    (segments.numbersOf address).foldl (fun hazards index =>
      let segment := segments.segment address index
      if segment.stop ≤ range.start ∨ range.stop ≤ segment.start then hazards
      else if (address, index) ∈ written then
        hazards.insert address ⟨max range.start segment.start, min range.stop segment.stop⟩
      else hazards) hazards
  else hazards

def recordPending (hazards : DirectStableStoreHazards A) (written : Finset (A × Nat)) :
    DirectStableStoreHazards A :=
  segments.addresses.foldl (fun hazards address =>
    (segments.numbersOf address).foldl (fun hazards index =>
      if (address, index) ∈ written then hazards.insert address (segments.segment address index)
      else hazards) hazards) hazards

end PendingSegments

/-! ## The pass -/

section Pass
variable (segments : PendingSegments A) (registerMap : Table RegisterId RegisterType)

/-- The stable bits that an instruction reads, or writes without publishing a working copy. -/
def observedRanges : Instruction A → List (A × Interval Nat)
  | .load _ addr offset bits =>
    if addr.region = STABLE_REGION then
      [(addr.absoluteAddr, instructionRange registerMap offset bits)]
    else []
  | .store addr offset bits _ _ _ =>
    if isStateWrite addr then []
    else if addr.region = STABLE_REGION then
      [(addr.absoluteAddr, instructionRange registerMap offset bits)]
    else []
  | .commit src dst offset bits _ =>
    (if src.region = STABLE_REGION then
      [(src.absoluteAddr, instructionRange registerMap offset bits)] else []) ++
    if publishes src dst then []
    else if dst.region = STABLE_REGION then
      [(dst.absoluteAddr, instructionRange registerMap offset bits)]
    else []
  | _ => []

/-- A sparse commit at offset zero publishes the object. -/
def updateWritten (inst : Instruction A) (written : Finset (A × Nat)) : Finset (A × Nat) :=
  match inst with
  | .store addr offset bits _ _ _ =>
    if isStateWrite addr then
      written ∪ segments.segmentRange addr.absoluteAddr (instructionRange registerMap offset bits)
    else written
  | .commit src dst offset bits _ =>
    if publishes src dst then
      if src.region = SPARSE_WORKING_REGION ∧ offset = .static 0 then
        written \ segments.objectRange src.absoluteAddr
      else
        written \ segments.segmentRange src.absoluteAddr (instructionRange registerMap offset bits)
    else written
  | _ => written

def visitInstruction (state : Finset (A × Nat) × DirectStableStoreHazards A)
    (inst : Instruction A) : Finset (A × Nat) × DirectStableStoreHazards A :=
  (updateWritten segments registerMap inst state.1,
    (observedRanges registerMap inst).foldl (fun hazards observed =>
      segments.recordObservation hazards state.1 observed.1 observed.2) state.2)

def visitBlock (eu : RegionedUnit A) (b : BlockId) (written : Finset (A × Nat))
    (hazards : DirectStableStoreHazards A) : Finset (A × Nat) × DirectStableStoreHazards A :=
  match eu.blocks.lookup b with
  | none => (written, hazards)
  | some block =>
    let (written, hazards) :=
      block.instructions.foldl (visitInstruction segments eu.registerMap) (written, hazards)
    match block.terminator with
    | .ret | .error _ => (written, segments.recordPending hazards written)
    | _ => (written, hazards)

end Pass

/-- The blocks that may be visited. -/
def mentionedBlocks (eu : RegionedUnit A) : List BlockId :=
  eu.entryBlockId :: eu.blocks.entries.flatMap fun entry => entry.2.terminator.successorIds

/-- Nothing is pending at the entry. -/
def initialSpread (eu : RegionedUnit A) : Spread BlockId (A × Nat) :=
  ⟨fun b => if b = eu.entryBlockId then some ∅ else none, [eu.entryBlockId]⟩

/-- As many visits are enough as the sets can grow. -/
def directStableStoreHazards (eu : RegionedUnit A) : DirectStableStoreHazards A :=
  let segments := PendingSegments.build eu
  if segments.count = 0 then fun _ => []
  else
    spread (successorBlocks eu) (visitBlock segments eu)
      (1 + (mentionedBlocks eu).length * (segments.count + 1))
      (initialSpread eu) fun _ => []

end Celox.Opt
