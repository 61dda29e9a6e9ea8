import Celox.Opt.StableStoreHazards

/-! # Commits forwarded to the stores in front of them

A commit at a constant offset whose range is stored to piece by piece earlier in its block is left
out, and the stores go to the stable copy. Where the stable bits are reported as hazardous the commit
stays. -/
namespace Celox.Opt
open Celox.Sir Celox.Layout Celox.Data

variable {A : Type} [DecidableEq A]

/-- Whether a range of an object meets a reported one. -/
def DirectStableStoreHazards.overlaps (hazards : DirectStableStoreHazards A) (addr : A)
    (start bits : Nat) : Bool :=
  (hazards addr).any fun range => start < range.stop && range.start < saturatingAdd start bits

/-- A store to a part of a committed range. -/
structure FoundStore where
  index : Nat
  offset : Nat
  bits : Nat
deriving DecidableEq, Repr

/-- The stores to parts of a range, going backwards. A dynamic access to the object ends the search
without a result. -/
def findStores (src : RegionedAbsoluteAddr A) (off bits : Nat) :
    List (Instruction A × Nat) → Option (List FoundStore)
  | [] => some []
  | (inst, index) :: rest =>
    match inst with
    | .store addr (.static storeOff) storeBits _ _ _ =>
      if addr = src ∧ off ≤ storeOff ∧ storeOff + storeBits ≤ off + bits then do
        return ⟨index, storeOff, storeBits⟩ :: (← findStores src off bits rest)
      else findStores src off bits rest
    | .store addr (.dynamic _) _ _ _ _ | .store addr (.element ..) _ _ _ _
    | .load _ addr (.dynamic _) _ | .load _ addr (.element ..) _ =>
      if addr = src then none else findStores src off bits rest
    | _ => findStores src off bits rest

/-- Whether stores in the order of their offsets lie behind each other from an offset on. -/
def contiguousFrom : Nat → List FoundStore → Bool
  | _, [] => true
  | expected, store :: rest =>
    store.offset = expected && contiguousFrom (expected + store.bits) rest

/-- A commit that is left out, and where the stores go that stand for it. -/
structure CommitReplacement (A : Type) where
  commit : Nat
  stores : List Nat
  target : RegionedAbsoluteAddr A

/-- What stands for an instruction of a block, if it is a commit that is left out. -/
def commitReplacement (hazards : DirectStableStoreHazards A) (instructions : List (Instruction A))
    (index : Nat) (inst : Instruction A) : Option (CommitReplacement A) :=
  match inst with
  | .commit src dst (.static off) bits _ =>
    if src.region ≠ WORKING_REGION ∨ dst.region ≠ STABLE_REGION ∨
        hazards.overlaps dst.absoluteAddr off bits then none
    else do
      let found ← findStores src off bits (instructions.zipIdx.take index).reverse
      let found := found.insertionSort fun a b => a.offset ≤ b.offset
      if (found.map (·.bits)).sum ≠ bits then none
      else if contiguousFrom off found then some ⟨index, found.map (·.index), dst⟩
      else none
  | _ => none

def commitReplacements (hazards : DirectStableStoreHazards A)
    (instructions : List (Instruction A)) : List (CommitReplacement A) :=
  instructions.zipIdx.filterMap fun entry =>
    commitReplacement hazards instructions entry.2 entry.1

/-- Where a store goes: a later replacement takes it from an earlier one. -/
def newTarget (replacements : List (CommitReplacement A)) (index : Nat) :
    Option (RegionedAbsoluteAddr A) :=
  (replacements.filter fun replacement => index ∈ replacement.stores).getLast?.map (·.target)

def retarget (target : RegionedAbsoluteAddr A) : Instruction A → Instruction A
  | .store _ offset bits src triggers sites => .store target offset bits src triggers sites
  | inst => inst

/-- What an instruction becomes; a commit with a replacement is left out. -/
def forwardedInstruction (replacements : List (CommitReplacement A)) (index : Nat)
    (inst : Instruction A) : Option (Instruction A) :=
  if replacements.any fun replacement => replacement.commit = index then none
  else
    match newTarget replacements index with
    | some target => some (retarget target inst)
    | none => some inst

def forwardBlock (hazards : DirectStableStoreHazards A)
    (block : BasicBlock (RegionedAbsoluteAddr A)) : BasicBlock (RegionedAbsoluteAddr A) :=
  let replacements := commitReplacements hazards block.instructions
  { block with instructions := block.instructions.zipIdx.filterMap fun entry =>
      forwardedInstruction replacements entry.2 entry.1 }

def inlineCommitForwardingWithHazards (hazards : DirectStableStoreHazards A) (eu : RegionedUnit A) :
    RegionedUnit A :=
  eu.mapBlocks fun _ => forwardBlock hazards

/-- With the hazards of the unit itself. -/
def inlineCommitForwarding (eu : RegionedUnit A) : RegionedUnit A :=
  inlineCommitForwardingWithHazards (directStableStoreHazards eu) eu

end Celox.Opt
