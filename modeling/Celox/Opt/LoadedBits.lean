import Celox.Opt.StableStoreComplete
import Celox.Sir.Available
import Celox.Sir.ValueBits

/-! # Registers that hold bits of the memory

What was loaded is still in the memory at a point where the load is available, unless a path from the
load to the point may write it. -/
namespace Celox.Opt
open Celox.Sir Celox.Layout Relation

variable {A : Type} {eu : RegionedUnit A}

/-- On a path to the point a bit may have been written since the register was defined. -/
def OverwrittenSince (eu : RegionedUnit A) (reg : RegisterId) (addr : RegionedAbsoluteAddr A)
    (bit : Nat) (b : BlockId) (i : Nat) : Prop :=
  Pends eu (fun inst => inst.mayWrite addr bit) (fun inst => inst.definedRegister = some reg) b i

section Blocks
variable {b : BlockId} {block : BasicBlock (RegionedAbsoluteAddr A)}

theorem instructionsOf_lookup (hb : eu.blocks.lookup b = some block) :
    instructionsOf eu b = block.instructions := by
  unfold instructionsOf
  rw [hb]

theorem mem_successorBlocks (hb : eu.blocks.lookup b = some block) {c : BlockId} :
    c ∈ successorBlocks eu b ↔ c ∈ block.terminator.successorIds := by
  unfold successorBlocks
  rw [hb]

end Blocks

section Loaded
variable [DecidableEq A] {model : BitModel (RegionedAbsoluteAddr A)}
  {memory : BitMemory (RegionedAbsoluteAddr A)} {home b : BlockId}
  {homeBlock block : BasicBlock (RegionedAbsoluteAddr A)} {k : Nat} {dst : RegisterId}
  {addr : RegionedAbsoluteAddr A} {offset : SIROffset} {start bits : Nat}

/-- The register holds the bits, but for those that may have been written. -/
def HoldsBits (eu : RegionedUnit A) (dst : RegisterId) (addr : RegionedAbsoluteAddr A)
    (start bits : Nat) (b : BlockId) (i : Nat)
    (s : State (RegionedAbsoluteAddr A) (BitMemory (RegionedAbsoluteAddr A))) : Prop :=
  ReachesBlock eu b ∧ ∃ value, s.regs dst = some value ∧ value.fits bits ∧ ∀ j < bits,
    value.bit j = s.memory addr (start + j) ∨ OverwrittenSince eu dst addr (start + j) b i

theorem lasting_holdsBits (regs : List RegisterId) (hdst : dst ∈ regs) :
    Lasting model.machine eu regs (HoldsBits eu dst addr start bits) where
  instruction b block i inst s t hb hi hnot hexec := by
    rintro ⟨hreach, value, hvalue, hfits, hbits⟩
    have hget : (instructionsOf eu b)[i]? = some inst := by rwa [instructionsOf_lookup hb]
    refine ⟨hreach, value, (execInstruction_frame hexec (hnot dst hdst)).trans hvalue, hfits,
      fun j hj => ?_⟩
    by_cases hwrite : inst.mayWrite addr (start + j)
    · exact .inr (.write hreach hget hwrite)
    · rcases hbits j hj with hbit | hover
      · exact .inl (hbit.trans (exec_memory hexec hwrite).symm)
      · exact .inr (.pass hover hget (hnot dst hdst))
  terminator b block s c hb hnot hgo := by
    rintro ⟨hreach, value, hvalue, hfits, hbits⟩
    obtain ⟨hsucc, -, hmemory, -⟩ := execTerminator_goto hgo
    have hnext := (mem_successorBlocks hb).mpr hsucc
    refine ⟨hreach.tail hnext, value, (execTerminator_frame (hnot dst hdst) hgo).trans hvalue, hfits,
      fun j hj => ?_⟩
    rcases hbits j hj with hbit | hover
    · exact .inl (by rw [hbit, hmemory])
    · rw [← instructionsOf_lookup hb] at hover
      exact .inr (.edge hover hnext)

omit [DecidableEq A] in
theorem reachesBlock_of_visits {S : Type} {m : Machine (RegionedAbsoluteAddr A) S} {memory : S}
    {s : State (RegionedAbsoluteAddr A) S} (h : eu.Visits m memory b s) : ReachesBlock eu b := by
  induction h with
  | start => exact .refl
  | next _ hb _ hgo ih => exact ih.tail ((mem_successorBlocks hb).mpr (execTerminator_goto hgo).1)

/-- A register that is loaded at a constant offset holds the bits wherever it is available. -/
theorem holdsBits_of_load (hv : Verified eu) (hhome : eu.blocks.lookup home = some homeBlock)
    (hk : homeBlock.instructions[k]? = some (.load dst addr offset bits))
    (hoffset : offset = .static start ∨ ∃ elementWidth, offset = .packedElements start elementWidth)
    {i : Nat} {s : State (RegionedAbsoluteAddr A) (BitMemory (RegionedAbsoluteAddr A))}
    (hpoint : eu.Point model.machine memory b block i s)
    (havail : eu.Available b i (.inst home k)) : HoldsBits eu dst addr start bits b i s := by
  refine hv.holds_available hhome hk rfl (lasting_holdsBits _ List.mem_cons_self)
    (fun entered u t hvisit _ hinst => ⟨reachesBlock_of_visits hvisit, ?_⟩) hpoint havail
  obtain ⟨type, htype, hwidth⟩ := hv.load_width hhome hk
  have hexec : t = eu.assign u dst (readBits u.memory addr start bits) := by
    rcases hoffset with rfl | ⟨elementWidth, rfl⟩ <;>
      simp only [ExecutionUnit.execInstruction, SIROffset.resolve, Option.bind_eq_bind,
        Option.bind_some, Option.pure_def, Option.some.injEq, BitModel.machine, BitModel.load,
        model.start_static, model.start_packed] at hinst <;>
      exact hinst.symm
  subst hexec
  refine ⟨_, Function.update_self _ _ _, hwidth ▸ kept_fits htype _, fun j hj => .inl ?_⟩
  rw [kept_bit htype _ (hwidth ▸ hj), readBits_bit _ _ _ hj]
  rfl

end Loaded
end Celox.Opt
