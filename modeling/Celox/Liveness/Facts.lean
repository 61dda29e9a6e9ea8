import Celox.Data.ExceptList

/-! # Allocation facts

`celox-backend-common/src/regalloc.rs`: what a backend exports of its machine code before
registers are allocated. Blocks are named by their index; clobbers and the copy hint are not read
here. Values are shown by `ToString` where the source uses `Debug`. -/
namespace Celox.Liveness

structure InstructionConstraints (V R : Type) where
  fixedUses : List (V × R) := []
  fixedDefs : List (V × R) := []

structure InstructionAllocationFacts (V R : Type) where
  uses : List V := []
  defs : List V := []
  constraints : InstructionConstraints V R := {}

structure PhiSource (V : Type) where
  predecessor : Nat
  value : V

structure PhiAllocationFacts (V : Type) where
  destination : V
  sources : List (PhiSource V)

structure BlockAllocationFacts (V R : Type) where
  successors : List Nat
  phis : List (PhiAllocationFacts V)
  instructions : List (InstructionAllocationFacts V R)

structure FunctionAllocationFacts (V R : Type) where
  entry : Nat
  blocks : List (BlockAllocationFacts V R)

inductive AllocationFactsError (V : Type) where
  | missingEntry (entry blockCount : Nat)
  | missingSuccessor (block successor blockCount : Nat)
  | missingPhiPredecessor (block predecessor : Nat) (value : V)
  | fixedUseIsNotUse (block instruction : Nat) (value : V)
  | fixedDefIsNotDef (block instruction : Nat) (value : V)
deriving DecidableEq, Repr

namespace FunctionAllocationFacts
variable {V R : Type} (facts : FunctionAllocationFacts V R)

/-- A block with no rows stands for an index outside the function. -/
def block (b : Nat) : BlockAllocationFacts V R := facts.blocks[b]?.getD ⟨[], [], []⟩

def successors (b : Nat) : List Nat := (facts.block b).successors

/-- The blocks that name a block as successor, once for each edge. -/
def predecessors (b : Nat) : List Nat :=
  (List.range facts.blocks.length).flatMap fun p =>
    ((facts.successors p).filter (· = b)).map fun _ => p

variable [DecidableEq V]

def verifyPhi (block : Nat) (phi : PhiAllocationFacts V) : Except (AllocationFactsError V) Unit :=
  phi.sources.forM fun source =>
    if source.predecessor ∈ facts.predecessors block then .ok ()
    else .error (.missingPhiPredecessor block source.predecessor source.value)

def verifyInstruction (block : Nat) (entry : InstructionAllocationFacts V R × Nat) :
    Except (AllocationFactsError V) Unit := do
  let (instruction, index) := entry
  instruction.constraints.fixedUses.forM fun (value, _) =>
    if value ∈ instruction.uses then .ok () else .error (.fixedUseIsNotUse block index value)
  instruction.constraints.fixedDefs.forM fun (value, _) =>
    if value ∈ instruction.defs then .ok () else .error (.fixedDefIsNotDef block index value)

def verify : Except (AllocationFactsError V) Unit :=
  let blockCount := facts.blocks.length
  if blockCount ≤ facts.entry then .error (.missingEntry facts.entry blockCount)
  else do
    (List.range blockCount).forM fun b => (facts.successors b).forM fun successor =>
      if successor < blockCount then .ok () else .error (.missingSuccessor b successor blockCount)
    (List.range blockCount).forM fun b => do
      (facts.block b).phis.forM (facts.verifyPhi b)
      (facts.block b).instructions.zipIdx.forM (verifyInstruction b)

end FunctionAllocationFacts

/-! ## What verified facts promise -/

section Verified
variable {V R : Type} {facts : FunctionAllocationFacts V R} {b p s : Nat}

theorem mem_predecessors :
    p ∈ facts.predecessors b ↔ p < facts.blocks.length ∧ b ∈ facts.successors p := by
  unfold FunctionAllocationFacts.predecessors
  rw [List.mem_flatMap]
  constructor
  · rintro ⟨q, hq, hp⟩
    obtain ⟨target, ht, rfl⟩ := List.mem_map.mp hp
    rw [List.mem_filter, decide_eq_true_eq] at ht
    exact ⟨List.mem_range.mp hq, ht.2 ▸ ht.1⟩
  · rintro ⟨hp, hb⟩
    exact ⟨p, List.mem_range.mpr hp, List.mem_map.mpr ⟨b, List.mem_filter.mpr ⟨hb, by simp⟩, rfl⟩⟩

theorem block_of_length_le (h : facts.blocks.length ≤ b) : facts.block b = ⟨[], [], []⟩ := by
  unfold FunctionAllocationFacts.block
  rw [List.getElem?_eq_none h, Option.getD_none]

variable [DecidableEq V]

end Verified
end Celox.Liveness

/-! ## What it means to be live

Program points, the flow between them, and the values that are used and defined there. A phi uses
its argument at the end of the predecessor, and defines its destination behind the entry. -/
namespace Celox.Liveness
open Relation

/-- A block and a slot in it. -/
abbrev Point := Nat × Nat

section Points
variable {V R : Type} (facts : FunctionAllocationFacts V R)

def exitSlot (b : Nat) : Nat := 3 * (facts.block b).instructions.length + 2

/-- A point lies inside its block. -/
def Point.Within (p : Point) : Prop := p.1 < facts.blocks.length ∧ p.2 ≤ exitSlot facts p.1

variable (v : V)

/-- The value is the argument of an edge. -/
def EdgeUse (b c : Nat) : Prop :=
  c ∈ facts.successors b ∧ ∃ phi ∈ (facts.block c).phis, ∃ source ∈ phi.sources,
    source.predecessor = b ∧ source.value = v

inductive DefinesAt : Point → Prop
  | phi {b : Nat} {phi : PhiAllocationFacts V} : phi ∈ (facts.block b).phis →
      phi.destination = v → DefinesAt (b, 1)
  | instruction {b i : Nat} {instruction : InstructionAllocationFacts V R} :
      (facts.block b).instructions[i]? = some instruction → v ∈ instruction.defs →
      DefinesAt (b, 3 * i + 4)

/-- No definition behind slot `s` up to slot `u`. -/
def NoDef (b s u : Nat) : Prop := ∀ d, DefinesAt facts v (b, d) → d ≤ s ∨ u < d

end Points

/-! ## Slots of one block -/

section Slots
variable {V R : Type} {facts : FunctionAllocationFacts V R} {v : V} {b s u : Nat} {p : Point}

theorem DefinesAt.pos (h : DefinesAt facts v (b, s)) : 0 < s := by
  cases h with
  | phi => omega
  | instruction => omega

theorem DefinesAt.lt (h : DefinesAt facts v (b, s)) : s < exitSlot facts b := by
  cases h with
  | phi =>
    unfold exitSlot
    omega
  | instruction hi _ =>
    have := (List.getElem?_eq_some_iff.mp hi).1
    unfold exitSlot
    omega

theorem lt_of_instruction {i : Nat} {instruction : InstructionAllocationFacts V R}
    (h : (facts.block b).instructions[i]? = some instruction) : b < facts.blocks.length := by
  by_contra hnot
  rw [block_of_length_le (Nat.le_of_not_lt hnot)] at h
  cases h

theorem lt_of_phi {phi : PhiAllocationFacts V} (h : phi ∈ (facts.block b).phis) :
    b < facts.blocks.length := by
  by_contra hnot
  rw [block_of_length_le (Nat.le_of_not_lt hnot)] at h
  cases h

end Slots
end Celox.Liveness
