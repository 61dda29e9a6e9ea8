import Celox.Sir.Extends
import Celox.Sir.Progress

/-! # Units without definitions that nothing reads

Definitions of registers that no instruction and no terminator mentions are left out. The other
registers, the memory and the effects stay what they are. -/
namespace Celox.Sir

variable {A S : Type}

/-- `collect_used_regs_into`: a store mentions its registers also where it only triggers. -/
def SIRInstruction.collectUsed : SIRInstruction A → List RegisterId
  | .store _ offset _ src _ _ => offset.dynamicRegisters ++ [src]
  | inst => inst.uses

theorem SIRInstruction.uses_subset (inst : SIRInstruction A) : inst.uses ⊆ inst.collectUsed := by
  cases inst with
  | store addr offset bits src triggers sites =>
    simp only [uses, collectUsed]
    split
    · exact List.nil_subset _
    · exact List.Subset.refl _
  | _ => exact List.Subset.refl _

def ExecutionUnit.collectAllUsedRegisters (eu : ExecutionUnit A) : List RegisterId :=
  eu.blocks.entries.flatMap fun entry =>
    entry.2.instructions.flatMap SIRInstruction.collectUsed ++ entry.2.terminator.uses

/-- Whether an instruction stays. -/
def isUsed (used : List RegisterId) (inst : SIRInstruction A) : Bool :=
  match inst.definedRegister with
  | some dst => dst ∈ used
  | none => true

def ExecutionUnit.retainUsed (eu : ExecutionUnit A) : ExecutionUnit A :=
  let used := eu.collectAllUsedRegisters
  eu.mapBlocks fun _ block => { block with instructions := block.instructions.filter (isUsed used) }

/-- A register whose definitions are left out. -/
def Unused (eu : ExecutionUnit A) (reg : RegisterId) : Prop :=
  reg ∉ eu.collectAllUsedRegisters ∧
    ∃ b block, eu.blocks.lookup b = some block ∧ ∃ inst ∈ block.instructions,
      inst.definedRegister = some reg

/-! ## Definitions that go -/

/-- Instructions that go define registers that nothing that stays reads. -/
structure LeavesOut (eu : ExecutionUnit A) (stays : SIRInstruction A → Bool)
    (P : RegisterId → Prop) : Prop where
  gone : ∀ b block, eu.blocks.lookup b = some block → ∀ inst ∈ block.instructions,
    stays inst = false → ∃ dst, inst.definedRegister = some dst ∧ P dst
  uses : ∀ b block, eu.blocks.lookup b = some block → ∀ inst ∈ block.instructions,
    stays inst = true → ∀ reg ∈ inst.uses, ¬ P reg
  terminator : ∀ b block, eu.blocks.lookup b = some block →
    ∀ reg ∈ block.terminator.uses, ¬ P reg

def ExecutionUnit.leaveOut (eu : ExecutionUnit A) (stays : SIRInstruction A → Bool) :
    ExecutionUnit A :=
  eu.mapBlocks fun _ block => { block with instructions := block.instructions.filter stays }

/-- States that differ in some registers alone. -/
structure SameOff (P : RegisterId → Prop) (s s' : State A S) : Prop where
  regs : ∀ reg, ¬ P reg → s'.regs reg = s.regs reg
  memory : s'.memory = s.memory
  trace : s'.trace = s.trace

section Steps
variable {m : Machine A S} {eu : ExecutionUnit A} {s s' t : State A S} {inst : SIRInstruction A}
  {b : BlockId} {block : BasicBlock A} {stays : SIRInstruction A → Bool} {P : RegisterId → Prop}

theorem SameOff.refl (P : RegisterId → Prop) (s : State A S) : SameOff P s s :=
  ⟨fun _ _ => rfl, rfl, rfl⟩

theorem SameOff.update (h : SameOff P s s') (dst : RegisterId) (value : Option SIRValue) :
    SameOff P { s with regs := Function.update s.regs dst value }
      { s' with regs := Function.update s'.regs dst value } := by
  refine ⟨fun reg hreg => ?_, h.memory, h.trace⟩
  by_cases heq : reg = dst
  · simp only [heq, Function.update_self]
  · simp only [Function.update_of_ne heq]
    exact h.regs reg hreg

theorem SameOff.exec (h : SameOff P s s') (huses : ∀ reg ∈ inst.uses, ¬ P reg)
    (hexec : eu.execInstruction m s inst = some t) :
    ∃ t', eu.execInstruction m s' inst = some t' ∧ SameOff P t t' := by
  have hregs : ∀ reg ∈ inst.uses, s'.regs reg = s.regs reg := fun reg hreg =>
    h.regs reg (huses reg hreg)
  cases hdef : inst.definedRegister with
  | some dst =>
    rw [execInstruction_value hdef, Option.map_eq_some_iff] at hexec
    obtain ⟨value, hvalue, rfl⟩ := hexec
    refine ⟨eu.assign s' dst value, ?_, h.update dst _⟩
    rw [execInstruction_value hdef, h.memory, value_uses hregs, hvalue]
    rfl
  | none =>
    rw [execInstruction_effect hdef, Option.map_eq_some_iff] at hexec
    obtain ⟨effect, heffect, rfl⟩ := hexec
    refine ⟨s'.perform m effect, ?_, h.regs, ?_, ?_⟩
    · rw [execInstruction_effect hdef, effect_uses hregs, heffect]
      rfl
    · exact congrArg (m.perform · effect) h.memory
    · exact congrArg (· ++ [effect]) h.trace

theorem SameOff.skip (h : SameOff P s s') {dst : RegisterId} (hdst : P dst)
    (hdef : inst.definedRegister = some dst) (hexec : eu.execInstruction m s inst = some t) :
    SameOff P t s' := by
  rw [execInstruction_value hdef, Option.map_eq_some_iff] at hexec
  obtain ⟨value, -, rfl⟩ := hexec
  refine ⟨fun reg hreg => ?_, h.memory, h.trace⟩
  have hne : reg ≠ dst := fun heq => hreg (heq ▸ hdst)
  exact (h.regs reg hreg).trans (Function.update_of_ne hne _ _).symm

theorem SameOff.body (hleaves : LeavesOut eu stays P) (hb : eu.blocks.lookup b = some block)
    {list : List (SIRInstruction A)} (hlist : list ⊆ block.instructions) (h : SameOff P s s')
    (hexec : eu.execList m s list = some t) :
    ∃ t', eu.execList m s' (list.filter stays) = some t' ∧ SameOff P t t' := by
  induction list generalizing s s' with
  | nil =>
    cases hexec
    exact ⟨s', rfl, h⟩
  | cons inst list ih =>
    obtain ⟨u, hu, hrest⟩ := Option.bind_eq_some_iff.mp hexec
    have hinst := hlist List.mem_cons_self
    have hsub : list ⊆ block.instructions := fun _ h => hlist (List.mem_cons_of_mem _ h)
    rw [List.filter_cons]
    split
    · rename_i hstays
      obtain ⟨u', hu', hsame⟩ := h.exec (hleaves.uses b block hb inst hinst hstays) hu
      obtain ⟨t', ht', hend⟩ := ih hsub hsame hrest
      exact ⟨t', by rw [ExecutionUnit.execList, hu', Option.bind_some, ht'], hend⟩
    · rename_i hgone
      obtain ⟨dst, hdef, hdst⟩ :=
        hleaves.gone b block hb inst hinst (Bool.eq_false_iff.mpr hgone)
      exact ih hsub (h.skip hdst hdef hu) hrest

theorem SameOff.enter (h : SameOff P s s') {target : BlockId} {args : List RegisterId}
    (hargs : ∀ reg ∈ args, ¬ P reg) : (eu.enter s target args).Related (SameOff P)
      ((eu.leaveOut stays).enter s' target args) := by
  have hvalues : args.mapM s'.regs = args.mapM s.regs := mapM_congr_mem fun reg hreg =>
    h.regs reg (hargs reg hreg)
  unfold ExecutionUnit.enter
  rw [hvalues, show (eu.leaveOut stays).blocks.lookup target = _ from
    ExecutionUnit.lookup_mapBlocks _ target]
  cases eu.blocks.lookup target with
  | none => exact .done h
  | some block =>
    cases args.mapM s.regs with
    | none => exact .done h
    | some values =>
      simp only [Option.map_some]
      split
      · refine .goto ?_
        generalize block.params.zip values = pairs
        obtain ⟨regs, memory, trace⟩ := s
        obtain ⟨regs', memory', trace'⟩ := s'
        simp only
        induction pairs generalizing regs regs' with
        | nil => exact h
        | cons e pairs ih =>
          refine ih _ _ (h.update e.1 (some e.2)) ?_
          exact mapM_congr_mem fun reg hreg =>
            (h.update e.1 (some e.2)).regs reg (hargs reg hreg)
      · exact .done h

end Steps

/-- The unit runs as before, but for the registers it has no more. -/
theorem leaveOut_alike (m : Machine A S) {eu : ExecutionUnit A} {stays : SIRInstruction A → Bool}
    {P : RegisterId → Prop} (hleaves : LeavesOut eu stays P) :
    BlocksAlike m m eu (eu.leaveOut stays) (fun _ _ => True) (SameOff P) where
  entry := rfl
  start _ := .refl P _
  body b block hb := by
    refine ⟨⟨block.id, block.params, block.instructions.filter stays, block.terminator⟩, ?_, rfl,
      fun s s' t _ h hexec => ?_⟩
    · rw [show (eu.leaveOut stays).blocks.lookup b = _ from ExecutionUnit.lookup_mapBlocks _ b, hb]
      rfl
    · obtain ⟨t', hexec', hsame⟩ := SameOff.body hleaves hb (List.Subset.refl _) h hexec
      refine ⟨t', ?_, hsame⟩
      rwa [execList_congr (show (eu.leaveOut stays).registerMap = eu.registerMap from rfl)]
  terminator b block s s' hb h := by
    have hused := hleaves.terminator b block hb
    generalize block.terminator = terminator at hused
    cases terminator with
    | jump target args => exact h.enter hused
    | branch cond trueBlock falseBlock =>
      have hcond : s'.regs cond = s.regs cond := h.regs cond (hused cond (by
        simp [SIRTerminator.uses]))
      have htrue : ∀ reg ∈ trueBlock.2, ¬ P reg := fun reg hreg =>
        hused reg (by simp [SIRTerminator.uses, hreg])
      have hfalse : ∀ reg ∈ falseBlock.2, ¬ P reg := fun reg hreg =>
        hused reg (by simp [SIRTerminator.uses, hreg])
      simp only [ExecutionUnit.execTerminator]
      rw [show (eu.leaveOut stays).operand s'.regs cond = eu.operand s'.regs cond from rfl,
        operand_uses hcond]
      split
      · exact .done h
      · split
        · exact h.enter htrue
        · exact h.enter hfalse
    | switch selector cases default =>
      have hselector : s'.regs selector = s.regs selector := h.regs selector (hused selector (by
        simp [SIRTerminator.uses]))
      simp only [ExecutionUnit.execTerminator]
      rw [hselector]
      split
      · exact .done h
      · split <;> exact h.enter (fun reg hreg => by cases hreg)
    | ret => exact .done h
    | error code => exact .done h

/-! ## Registers that nothing reads -/

/-- States that differ in the registers without definition alone. -/
abbrev SameButUnused (eu : ExecutionUnit A) : State A S → State A S → Prop := SameOff (Unused eu)

section Used
variable {eu : ExecutionUnit A} {inst : SIRInstruction A} {b : BlockId} {block : BasicBlock A}

theorem mem_used_instruction (hb : eu.blocks.lookup b = some block)
    (hinst : inst ∈ block.instructions) : inst.uses ⊆ eu.collectAllUsedRegisters := fun _ hreg =>
  List.mem_flatMap.mpr ⟨⟨b, block⟩, AList.mem_lookup_iff.mp hb, List.mem_append_left _
    (List.mem_flatMap.mpr ⟨inst, hinst, inst.uses_subset hreg⟩)⟩

theorem mem_used_terminator (hb : eu.blocks.lookup b = some block) :
    block.terminator.uses ⊆ eu.collectAllUsedRegisters := fun _ hreg =>
  List.mem_flatMap.mpr ⟨⟨b, block⟩, AList.mem_lookup_iff.mp hb, List.mem_append_right _ hreg⟩

theorem leavesOut_unused (eu : ExecutionUnit A) :
    LeavesOut eu (isUsed eu.collectAllUsedRegisters) (Unused eu) where
  gone b block hb inst hinst hgone := by
    unfold isUsed at hgone
    split at hgone
    · rename_i dst hdef
      exact ⟨dst, hdef, of_decide_eq_false hgone, b, block, hb, inst, hinst, hdef⟩
    · cases hgone
  uses _ _ hb _ hinst _ _ hreg hunused := hunused.1 (mem_used_instruction hb hinst hreg)
  terminator _ _ hb _ hreg hunused := hunused.1 (mem_used_terminator hb hreg)

theorem retainUsed_alike (m : Machine A S) (eu : ExecutionUnit A) :
    BlocksAlike m m eu eu.retainUsed (fun _ _ => True) (SameButUnused eu) :=
  leaveOut_alike m (leavesOut_unused eu)

/-- Every run goes the same way, also inside of the blocks and up to its end, with the same memory,
effects and other registers. -/
theorem retainUsed_runs (m : Machine A S) (memory : S) (hentry : eu.entryBlockId ∈ eu.blocks) :
    RunsAlike m m eu eu.retainUsed memory (SameButUnused eu) := by
  have halike := retainUsed_alike m eu
  refine ⟨fun c => halike.reaches (fun _ _ _ => trivial) (AList.lookup_isSome.mpr hentry) ?_,
    halike.ends fun _ _ _ => trivial⟩
  intro b block block' hb hb' s s' t front back _ hr hsplit hexec
  rw [show eu.retainUsed.blocks.lookup b = _ from ExecutionUnit.lookup_mapBlocks _ b, hb] at hb'
  cases hb'
  have hfront : front ⊆ block.instructions := hsplit ▸ List.subset_append_left front back
  obtain ⟨t', hexec', hr'⟩ := hr.body (leavesOut_unused eu) hb hfront hexec
  refine ⟨front.filter (isUsed eu.collectAllUsedRegisters),
    back.filter (isUsed eu.collectAllUsedRegisters), t', ?_, ?_, hr'⟩
  · dsimp only
    rw [hsplit, List.filter_append]
  · rwa [execList_congr (show eu.retainUsed.registerMap = eu.registerMap from rfl)]

end Used

/-- A loop with a definition that nothing reads. -/
def unusedUnit : ExecutionUnit Nat where
  entryBlockId := 0
  blocks := [⟨0, ⟨0, [], [.imm 0 ⟨1, 0⟩, .unary 1 .bitNot 0, .store 7 (.static 0) 1 0 [] []],
    .jump 0 []⟩⟩].toAList
  registerMap := [⟨0, .bit 1 false⟩, ⟨1, .bit 1 false⟩].toAList

theorem retainUsed_runs_loop : RunsAlike countingMachine countingMachine unusedUnit
    unusedUnit.retainUsed 0 (SameButUnused unusedUnit) := retainUsed_runs countingMachine 0 (by decide)

end Celox.Sir
