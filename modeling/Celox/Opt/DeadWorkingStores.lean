import Celox.Data.Worklist
import Celox.Layout.Strided
import Celox.Sir.Points

/-! # Elimination of dead working stores

The static reads of the working region are the things that can be live. A backward pass finds for
each block which of them may still read what was stored before, and whether a dynamic read may
follow; stores that no live read overlaps are dropped. Bit sets indexed by the number of a read are
finite sets of the reads here. -/
namespace Celox.Opt
open Celox.Sir Celox.Layout Celox.Data

variable {A : Type} [DecidableEq A]

abbrev Instruction (A : Type) := SIRInstruction (RegionedAbsoluteAddr A)
abbrev RegionedUnit (A : Type) := ExecutionUnit (RegionedAbsoluteAddr A)

structure WorkingKey (A : Type) where
  addr : A
  offset : Nat
  bits : Nat
deriving DecidableEq

namespace WorkingKey

/-- Saturates at the largest `usize`. -/
def endBit (key : WorkingKey A) : Nat := min (key.offset + key.bits) usizeMax

def overlaps (key other : WorkingKey A) : Bool :=
  key.addr = other.addr ∧ key.offset < other.endBit ∧ other.offset < key.endBit

def covers (key other : WorkingKey A) : Bool :=
  key.addr = other.addr ∧ key.offset ≤ other.offset ∧ other.endBit ≤ key.endBit

end WorkingKey

def readWorkingKey : Instruction A → Option (WorkingKey A)
  | .load _ addr (.static offset) bits =>
    if addr.region = WORKING_REGION then some ⟨addr.absoluteAddr, offset, bits⟩ else none
  | .commit src _ (.static offset) bits _ =>
    if src.region = WORKING_REGION then some ⟨src.absoluteAddr, offset, bits⟩ else none
  | _ => none

def isDynamicWorkingRead : Instruction A → Bool
  | .load _ addr (.dynamic _) _ | .load _ addr (.element ..) _ => addr.region = WORKING_REGION
  | .commit src _ (.dynamic _) _ _ | .commit src _ (.element ..) _ _ =>
    src.region = WORKING_REGION
  | _ => false

def workingStoreKey : Instruction A → Option (WorkingKey A)
  | .store addr (.static offset) bits _ _ _ =>
    if addr.region = WORKING_REGION then some ⟨addr.absoluteAddr, offset, bits⟩ else none
  | .commit _ dst (.static offset) bits _ =>
    if dst.region = WORKING_REGION then some ⟨dst.absoluteAddr, offset, bits⟩ else none
  | _ => none

abbrev LiveBits (A : Type) := Finset (WorkingKey A)

structure StoreTransfer (A : Type) where
  overlappingReads : List (WorkingKey A)
  coveredReads : List (WorkingKey A)

def storeTransfer (key : WorkingKey A) (readKeys : List (WorkingKey A)) : StoreTransfer A where
  overlappingReads := readKeys.filter key.overlaps
  coveredReads := readKeys.filter key.covers

def removeAll (live : LiveBits A) (reads : List (WorkingKey A)) : LiveBits A :=
  reads.foldl Finset.erase live

/-- One instruction, from what is live behind it to what is live before it. -/
def transferInstruction (readKeys : List (WorkingKey A)) (inst : Instruction A)
    (state : LiveBits A × Bool) : LiveBits A × Bool :=
  let (live, unknown) := state
  if isDynamicWorkingRead inst then (live, true)
  else
    match readWorkingKey inst with
    | some key => (insert key live, unknown)
    | none =>
      match workingStoreKey inst with
      | some key =>
        if unknown then (live, unknown)
        else (removeAll live (storeTransfer key readKeys).coveredReads, unknown)
      | none => (live, unknown)

def transferBlock (readKeys : List (WorkingKey A)) (instructions : List (Instruction A))
    (state : LiveBits A × Bool) : LiveBits A × Bool :=
  instructions.foldr (transferInstruction readKeys) state

/-- Whether an instruction stays, from what is live behind it. -/
def keeps (readKeys : List (WorkingKey A)) (inst : Instruction A) (state : LiveBits A × Bool) :
    Bool :=
  if isDynamicWorkingRead inst ∨ (readWorkingKey inst).isSome then true
  else
    match workingStoreKey inst with
    | some key =>
      state.2 || (storeTransfer key readKeys).overlappingReads.any (· ∈ state.1)
    | none => true

/-- The block without the stores that are dead before `state`. -/
def retain (readKeys : List (WorkingKey A)) (state : LiveBits A × Bool) :
    List (Instruction A) → List (Instruction A)
  | [] => []
  | inst :: rest =>
    if keeps readKeys inst (transferBlock readKeys rest state) then
      inst :: retain readKeys state rest
    else retain readKeys state rest

section Unit
variable (eu : RegionedUnit A)

/-- The instructions of all blocks, in some order of the blocks. -/
def unitInstructions : List (Instruction A) :=
  eu.blocks.entries.flatMap fun entry => entry.2.instructions

/-- Every static read of the working region once. -/
def collectReadKeys : List (WorkingKey A) :=
  ((unitInstructions eu).filterMap readWorkingKey).dedup

def collectStoreKeys : List (WorkingKey A) :=
  ((unitInstructions eu).filterMap workingStoreKey).dedup

def sortedBlockIds : List BlockId := eu.blocks.keys.insertionSort (· ≤ ·)

def successorBlocks (b : BlockId) : List BlockId :=
  match eu.blocks.lookup b with
  | some block => block.terminator.successorIds
  | none => []

/-- The blocks that pass control to a block, once for each edge. -/
def predecessorBlocks (b : BlockId) : List BlockId :=
  (sortedBlockIds eu).flatMap fun p => ((successorBlocks eu p).filter (· = b)).map fun _ => p

/-- What is live behind a block. -/
def liveOut (values : BlockId → LiveBits A × Bool) (b : BlockId) : LiveBits A × Bool :=
  ((successorBlocks eu b).filter (· ∈ eu.blocks)).foldl
    (fun out target => (out.1 ∪ (values target).1, out.2 || (values target).2)) (∅, false)

def liveStep (readKeys : List (WorkingKey A)) (values : BlockId → LiveBits A × Bool)
    (b : BlockId) : LiveBits A × Bool :=
  match eu.blocks.lookup b with
  | some block => transferBlock readKeys block.instructions (liveOut eu values b)
  | none => values b

/-- What is live before each block. As many rounds are enough as the sets can grow. -/
def liveIn : BlockId → LiveBits A × Bool :=
  let readKeys := collectReadKeys eu
  let blocks := sortedBlockIds eu
  worklist (liveStep eu readKeys) (predecessorBlocks eu)
    (((readKeys.length + 1) * blocks.length) * (blocks.length + 1) + blocks.length) blocks.reverse
    fun _ => (∅, false)

def eliminateDeadWorkingStores : RegionedUnit A :=
  if collectStoreKeys eu = [] then eu
  else
    let readKeys := collectReadKeys eu
    let values := liveIn eu
    eu.mapBlocks fun b block =>
      { block with instructions := retain readKeys (liveOut eu values b) block.instructions }

end Unit
end Celox.Opt
