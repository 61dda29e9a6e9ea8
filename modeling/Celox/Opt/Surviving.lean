import Celox.Layout.Strided
import Celox.Sir.Unused

/-! # Rewritten units without unused definitions

A pass rewrites the blocks and then leaves out the definitions that nothing reads any more. The
registers that are still defined have the values that they had. -/
namespace Celox.Opt
open Celox.Sir Celox.Layout

variable {A : Type}

/-- A register that the unit still defines. -/
def Survives (eu : ExecutionUnit (RegionedAbsoluteAddr A)) (reg : RegisterId) : Prop :=
  ∃ site, (reg, site) ∈ eu.definitions

/-- The registers of the one unit that survive in the other have the same values. -/
structure SameSurviving (eu eu' : ExecutionUnit (RegionedAbsoluteAddr A))
    (s s' : State (RegionedAbsoluteAddr A) (BitMemory (RegionedAbsoluteAddr A))) : Prop where
  regs : ∀ reg, Declared eu.types reg → Survives eu' reg → s'.regs reg = s.regs reg
  memory : s'.memory = s.memory
  trace : s'.trace = s.trace

/-- Rewritten blocks have the parameters of the old ones, and define a register of the unit only
where the old ones did. -/
structure Redefines (eu eu' : ExecutionUnit (RegionedAbsoluteAddr A)) : Prop where
  params : ∀ b block', eu'.blocks.lookup b = some block' → ∃ block,
    eu.blocks.lookup b = some block ∧ block'.id = block.id ∧ block'.params = block.params
  defines : ∀ b block', eu'.blocks.lookup b = some block' → ∀ inst' ∈ block'.instructions,
    ∀ reg, inst'.definedRegister = some reg → Declared eu.types reg → ∃ block,
      eu.blocks.lookup b = some block ∧ ∃ inst ∈ block.instructions,
        inst.definedRegister = some reg

section Surviving
variable {eu eu' : ExecutionUnit (RegionedAbsoluteAddr A)}

/-- No definition of a register that survives is left out. -/
theorem Redefines.survives (hv : Verified eu) (h : Redefines eu eu') {reg : RegisterId}
    (hdeclared : Declared eu.types reg) (hsurvives : Survives eu'.retainUsed reg) :
    ¬ Unused eu' reg := by
  rintro ⟨hunused, b, block', hb, inst', hinst', hreg⟩
  obtain ⟨site, hsite⟩ := hsurvives
  obtain ⟨c, kept, hc, hdef⟩ := mem_unit_definitions.mp hsite
  rw [show eu'.retainUsed.blocks.lookup c = _ from ExecutionUnit.lookup_mapBlocks _ c,
    Option.map_eq_some_iff] at hc
  obtain ⟨other', hother', rfl⟩ := hc
  cases site with
  | param d =>
    -- a parameter is defined by no instruction
    obtain ⟨rfl, hparam⟩ := mem_definitions_param.mp hdef
    obtain ⟨block, hblock, inst, hinst, hdefines⟩ :=
      h.defines b block' hb inst' hinst' reg hreg hdeclared
    obtain ⟨other, hother, -, hparams⟩ := h.params c other' hother'
    obtain ⟨k, hk⟩ := List.mem_iff_getElem?.mp hinst
    have honly := hv.single.site reg (.param other.id) (.inst block.id k)
      (mem_unit_definitions.mpr ⟨c, other, hother, mem_definitions_param.mpr
        ⟨rfl, hparams ▸ hparam⟩⟩)
      (mem_unit_definitions.mpr ⟨b, block, hblock, mem_definitions_inst.mpr
        ⟨rfl, inst, hk, hdefines⟩⟩)
    cases honly
  | inst d k =>
    -- an instruction stays where its register is used
    obtain ⟨-, inst, hk, hdefines⟩ := mem_definitions_inst.mp hdef
    have hused := (List.mem_filter.mp (List.mem_of_getElem? hk)).2
    unfold isUsed at hused
    rw [hdefines] at hused
    exact hunused (of_decide_eq_true hused)

theorem retainUsed_surviving
    {m : Machine (RegionedAbsoluteAddr A) (BitMemory (RegionedAbsoluteAddr A))}
    {memory : BitMemory (RegionedAbsoluteAddr A)} (hv : Verified eu) (h : Redefines eu eu')
    (halike : EndsAlike m m eu eu' memory (Matches eu fun _ => true)) :
    EndsAlike m m eu eu'.retainUsed memory (SameSurviving eu eu'.retainUsed) := by
  refine EndsAlike.mono (halike.trans ((retainUsed_alike m eu').ends fun _ _ _ => trivial)) ?_
  rintro s s'' ⟨s', hmatch, hsame⟩
  refine ⟨fun reg hdeclared hsurvives => ?_, hsame.memory.trans hmatch.memory, ?_⟩
  · exact (hsame.regs reg (h.survives hv hdeclared hsurvives)).trans (hmatch.regs reg hdeclared)
  · have htrace := hmatch.trace
    rw [List.filter_true, List.filter_true] at htrace
    exact hsame.trace.trans htrace

end Surviving
end Celox.Opt
