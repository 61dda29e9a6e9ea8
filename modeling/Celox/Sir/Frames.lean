import Celox.Sir.Blocks
import Celox.Sir.ExactZero

/-! # Registers between two visits of a block

A register changes in the one block that defines it. On the way from a block that reads it to a block
that it dominates, that block is not passed again. -/
namespace Celox.Sir
open Celox.Graph Relation

variable {A S : Type} {m : Machine A S} {eu : ExecutionUnit A} {s t : State A S}
  {reg : RegisterId} {b : BlockId} {block : BasicBlock A} {c : Config A S}

theorem execList_frame {list : List (SIRInstruction A)}
    (hnot : ∀ inst ∈ list, inst.definedRegister ≠ some reg)
    (h : eu.execList m s list = some t) : t.regs reg = s.regs reg := by
  induction list generalizing s with
  | nil =>
    cases h
    rfl
  | cons inst list ih =>
    obtain ⟨u, hu, h⟩ := Option.bind_eq_some_iff.mp h
    rw [ih (fun other hother => hnot other (List.mem_cons_of_mem _ hother)) h]
    exact execInstruction_frame hu (hnot inst List.mem_cons_self)

theorem enter_frame {target : BlockId} {args : List RegisterId}
    (hnot : ∀ block, eu.blocks.lookup target = some block → reg ∉ block.params)
    (h : eu.enter s target args = .goto c) : c.state.regs reg = s.regs reg := by
  unfold ExecutionUnit.enter at h
  split at h
  · rename_i block values hb hvalues
    split at h
    · cases h
      have hpairs : ∀ e ∈ block.params.zip values, e.1 ≠ reg := fun e he heq =>
        hnot block hb (heq ▸ (List.of_mem_zip he).1)
      simp only
      generalize block.params.zip values = pairs at hpairs
      generalize s.regs = regs
      induction pairs generalizing regs with
      | nil => rfl
      | cons e pairs ih =>
        rw [List.foldl_cons, ih (fun e' he' => hpairs e' (List.mem_cons_of_mem _ he'))]
        exact Function.update_of_ne (hpairs e List.mem_cons_self).symm ..
    · cases h
  · cases h

theorem execTerminator_frame {terminator : SIRTerminator}
    (hnot : ∀ block, eu.blocks.lookup c.block = some block → reg ∉ block.params)
    (h : eu.execTerminator m s terminator = .goto c) : c.state.regs reg = s.regs reg := by
  have henter : ∀ target args, eu.enter s target args = .goto c → c.state.regs reg = s.regs reg :=
    fun target args h => enter_frame (fun block hb => hnot block ((enter_goto h).1 ▸ hb)) h
  cases terminator with
  | jump target args => exact henter target args h
  | branch cond trueBlock falseBlock =>
    simp only [ExecutionUnit.execTerminator] at h
    split at h
    · cases h
    · split at h
      · exact henter _ _ h
      · exact henter _ _ h
  | switch selector cases default =>
    simp only [ExecutionUnit.execTerminator] at h
    split at h
    · cases h
    · split at h
      · exact henter _ _ h
      · exact henter _ _ h
  | ret => cases h
  | error code => cases h

/-- A branch leads to the target of the value of its condition. -/
theorem execTerminator_branch {cond : RegisterId} {trueBlock falseBlock : BlockId × List RegisterId}
    (h : eu.execTerminator m s (.branch cond trueBlock falseBlock) = .goto c) :
    ∃ type value, eu.operand s.regs cond = some (type, value) ∧
      c.block = if m.truthy type value then trueBlock.1 else falseBlock.1 := by
  simp only [ExecutionUnit.execTerminator] at h
  split at h
  · cases h
  · rename_i type value hop
    refine ⟨type, value, hop, ?_⟩
    split at h
    · rename_i htruthy
      rw [if_pos htruthy]
      exact (enter_goto h).1
    · rename_i htruthy
      rw [if_neg htruthy]
      exact (enter_goto h).1

/-! ## Where a register is defined -/

section Defined
variable {home : BlockId}

/-- The one block that defines a register. -/
structure DefinedOnlyIn (eu : ExecutionUnit A) (reg : RegisterId) (home : BlockId) : Prop where
  params : ∀ b block, eu.blocks.lookup b = some block → reg ∈ block.params → b = home
  insts : ∀ b block, eu.blocks.lookup b = some block → ∀ inst ∈ block.instructions,
    inst.definedRegister = some reg → b = home

theorem Verified.flow_of_goto (hv : Verified eu) (hb : eu.blocks.lookup b = some block)
    (h : eu.execTerminator m s block.terminator = .goto c) : eu.Flow b c.block := by
  have hmem := (execTerminator_goto h).1
  exact ExecutionUnit.flow_iff.mpr ⟨(hv.blocks b block hb).targets _ hmem, block, hb, hmem⟩

/-- What a block reads is defined in a block that dominates it. -/
theorem Verified.defined_above (h : Verified eu) (hb : eu.blocks.lookup b = some block) {i : Nat}
    (huse : block.UsesAt i reg) :
    ∃ home, Dom eu.Flow eu.entryBlockId home b ∧ DefinedOnlyIn eu reg home := by
  obtain ⟨-, site, hsite, havail⟩ := (h.blocks b block hb).uses i reg huse
  rw [h.ids b block hb] at havail
  refine ⟨site.block, ?_, fun d other hd hmem => ?_, fun d other hd inst hinst hreg => ?_⟩
  · cases site with
    | param d => exact havail
    | inst d i =>
      rcases havail with ⟨rfl, -⟩ | ⟨-, hdom⟩
      · exact Dom.refl _
      · exact hdom
  · have hdef : (reg, DefSite.param other.id) ∈ eu.definitions :=
      mem_unit_definitions.mpr ⟨d, other, hd, mem_definitions_param.mpr ⟨rfl, hmem⟩⟩
    rw [h.single.site reg _ _ hsite hdef]
    exact (h.ids d other hd).symm
  · obtain ⟨k, hk⟩ := List.mem_iff_getElem?.mp hinst
    have hdef : (reg, DefSite.inst other.id k) ∈ eu.definitions :=
      mem_unit_definitions.mpr ⟨d, other, hd, mem_definitions_inst.mpr ⟨rfl, inst, hk, hreg⟩⟩
    rw [h.single.site reg _ _ hsite hdef]
    exact (h.ids d other hd).symm

/-- A block other than a given one that dominates it is reached past it. -/
theorem avoids_of_above {E : BlockId → BlockId → Prop} {root x b : BlockId}
    (hb : ReflTransGen E root b) (h : Dom E root x b) (hne : x ≠ b) : Avoids E b root x := by
  by_contra hdom
  exact hne (Dom.antisymm h hdom hb)

end Defined
end Celox.Sir
