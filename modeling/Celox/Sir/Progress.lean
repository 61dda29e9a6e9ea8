import Celox.Sir.BitMemory
import Celox.Sir.ExactZero
import Celox.Sir.Soundness

/-! # Accepted units do not get stuck

Whatever the operators, the branches and the memory do: every register that a run reads has a value
by then, and every edge that it takes fits its target. -/
namespace Celox.Sir

section
variable {A S : Type} {m : Machine A S} {eu : ExecutionUnit A} {s : State A S}
  {regs : Registers} {inst : SIRInstruction A}

abbrev State.Has (s : State A S) (reg : RegisterId) : Prop := ∃ v, s.regs reg = some v

theorem exists_mapM {α β : Type} {f : α → Option β} {l : List α}
    (h : ∀ a ∈ l, ∃ b, f a = some b) : ∃ bs, l.mapM f = some bs ∧ bs.length = l.length := by
  induction l with
  | nil => exact ⟨[], rfl, rfl⟩
  | cons a l ih =>
    obtain ⟨b, hb⟩ := h a List.mem_cons_self
    obtain ⟨bs, hbs, hlength⟩ := ih fun a ha => h a (List.mem_cons_of_mem _ ha)
    exact ⟨b :: bs, by simp [List.mapM_cons, hb, hbs], congrArg Nat.succ hlength⟩

theorem exists_resolve {offset : SIROffset}
    (h : ∀ reg ∈ offset.dynamicRegisters, ∃ value, regs reg = some value) :
    ∃ value, offset.resolve regs = some value := by
  cases offset with
  | static | packedElements => exact ⟨_, rfl⟩
  | dynamic register =>
    obtain ⟨value, hvalue⟩ := h register (List.mem_singleton_self _)
    exact ⟨_, by rw [SIROffset.resolve, hvalue]; rfl⟩
  | element index elementWidth bitOffset dynamicBitOffset =>
    obtain ⟨value, hvalue⟩ := h index List.mem_cons_self
    cases dynamicBitOffset with
    | none => exact ⟨_, by rw [SIROffset.resolve, hvalue]; rfl⟩
    | some register =>
      obtain ⟨value', hvalue'⟩ := h register (by simp [SIROffset.dynamicRegisters])
      exact ⟨_, by rw [SIROffset.resolve, hvalue, hvalue']; rfl⟩

/-- An instruction whose operands have values and whose registers are declared runs. -/
theorem exec_isSome (huses : ∀ reg ∈ inst.uses, Declared eu.types reg ∧ s.Has reg)
    (hdst : ∀ dst, inst.definedRegister = some dst → Declared eu.types dst) :
    (eu.execInstruction m s inst).isSome := by
  have hvalue : ∀ reg ∈ inst.uses, s.Has reg := fun reg hreg => (huses reg hreg).2
  have hoperand : ∀ reg ∈ inst.uses, ∃ typed, eu.operand s.regs reg = some typed := by
    intro reg hreg
    obtain ⟨⟨type, htype⟩, value, hvalue⟩ := huses reg hreg
    have hlookup : eu.registerMap.lookup reg = some type := htype
    exact ⟨(type, value), by simp [ExecutionUnit.operand, hlookup, hvalue]⟩
  have hdeclared : ∀ dst, inst.definedRegister = some dst →
      ∃ type, eu.registerMap.lookup dst = some type := hdst
  cases inst with
  | imm => rfl
  | binary dst lhs op rhs =>
    obtain ⟨type, htype⟩ := hdeclared dst rfl
    obtain ⟨left, hleft⟩ := hoperand lhs (by simp [SIRInstruction.uses])
    obtain ⟨right, hright⟩ := hoperand rhs (by simp [SIRInstruction.uses])
    simp [ExecutionUnit.execInstruction, htype, hleft, hright]
  | unary dst op src =>
    obtain ⟨type, htype⟩ := hdeclared dst rfl
    obtain ⟨typed, htyped⟩ := hoperand src (by simp [SIRInstruction.uses])
    simp [ExecutionUnit.execInstruction, htype, htyped]
  | load | commit =>
    obtain ⟨offset, hoffset⟩ := exists_resolve hvalue
    simp [ExecutionUnit.execInstruction, hoffset]
  | store addr offset bits src =>
    by_cases hbits : bits = 0
    · simp [ExecutionUnit.execInstruction, hbits]
    · simp only [SIRInstruction.uses, if_neg hbits, List.mem_append] at hvalue
      obtain ⟨offset, hoffset⟩ := exists_resolve fun reg hreg => hvalue reg (.inl hreg)
      obtain ⟨value, hsrc⟩ := hvalue src (.inr (List.mem_singleton_self _))
      simp [ExecutionUnit.execInstruction, hbits, hoffset, hsrc]
  | concat dst args =>
    obtain ⟨values, hvalues, -⟩ := exists_mapM hoperand
    have hargs : args.mapM (eu.operand s.regs) = some values := hvalues
    simp [ExecutionUnit.execInstruction, hargs]
  | slice dst src =>
    obtain ⟨value, hsrc⟩ := hvalue src (List.mem_singleton_self _)
    simp [ExecutionUnit.execInstruction, hsrc]
  | mux dst cond thenVal elseVal =>
    obtain ⟨c, hc⟩ := hvalue cond (by simp [SIRInstruction.uses])
    obtain ⟨t, ht⟩ := hvalue thenVal (by simp [SIRInstruction.uses])
    obtain ⟨e, he⟩ := hvalue elseVal (by simp [SIRInstruction.uses])
    simp [ExecutionUnit.execInstruction, hc, ht, he]
  | runtimeEvent site args | combCaptureEvent site args =>
    obtain ⟨values, hvalues, -⟩ := exists_mapM hvalue
    have hargs : args.mapM s.regs = some values := hvalues
    simp [ExecutionUnit.execInstruction, hargs]
  | combCaptureEnableIfChanged old new =>
    obtain ⟨o, ho⟩ := hvalue old (by simp [SIRInstruction.uses])
    obtain ⟨n, hn⟩ := hvalue new (by simp [SIRInstruction.uses])
    simp [ExecutionUnit.execInstruction, ho, hn]

/-- Registers keep having values, and what an instruction defines has one. -/
theorem exec_defined {t : State A S} (h : eu.execInstruction m s inst = some t) {reg : RegisterId}
    (hreg : s.Has reg ∨ inst.definedRegister = some reg) : ∃ v, t.regs reg = some v := by
  by_cases hdef : inst.definedRegister = some reg
  · rw [execInstruction_value hdef] at h
    obtain ⟨value, -, rfl⟩ := Option.map_eq_some_iff.mp h
    exact ⟨_, Function.update_self ..⟩
  · rw [execInstruction_frame h hdef]
    exact hreg.resolve_right hdef

theorem assigned {entries : List (RegisterId × SIRValue)} {regs : Registers} {reg : RegisterId}
    (h : (∃ v, regs reg = some v) ∨ reg ∈ entries.map Prod.fst) :
    ∃ v, entries.foldl (fun (regs : Registers) e => Function.update regs e.1 (some e.2)) regs reg =
      some v := by
  induction entries generalizing regs with
  | nil => exact h.resolve_right nofun
  | cons e entries ih =>
    refine ih ?_
    by_cases hreg : reg = e.1
    · exact .inl ⟨e.2, hreg ▸ Function.update_self ..⟩
    · refine (h.imp_left fun ⟨v, hv⟩ => ⟨v, ?_⟩).imp_right fun h =>
        (List.mem_cons.mp h).resolve_left hreg
      exact (Function.update_of_ne hreg ..).trans hv

/-- An edge that fits is taken, and its target has its parameters. -/
theorem exists_enter {edge : BlockId × List RegisterId} {target : BasicBlock A}
    (htarget : eu.blocks.lookup edge.1 = some target) (hlength : edge.2.length = target.params.length)
    (hargs : ∀ reg ∈ edge.2, s.Has reg) :
    ∃ t : State A S, eu.enter s edge.1 edge.2 = .goto ⟨edge.1, 0, t⟩ ∧
      ∀ reg, s.Has reg ∨ reg ∈ target.params → t.Has reg := by
  obtain ⟨values, hvalues, hcount⟩ := exists_mapM hargs
  have hsame : target.params.length = values.length := (hcount.trans hlength).symm
  refine ⟨{ s with
    regs := (target.params.zip values).foldl (fun regs e => Function.update regs e.1 (some e.2))
      s.regs }, ?_, fun reg hreg => ?_⟩
  · simp only [ExecutionUnit.enter, htarget, hvalues, if_pos hsame]
  refine assigned (hreg.imp_right fun hreg => ?_)
  rwa [List.map_fst_zip hsame.le]

/-- A terminator whose operands have values goes to a target with its parameters, or ends the run. -/
theorem exists_terminator {terminator : SIRTerminator}
    (huses : ∀ reg ∈ terminator.uses, Declared eu.types reg ∧ s.Has reg)
    (hedges : ∀ edge ∈ terminator.edges, ∃ target, eu.blocks.lookup edge.1 = some target ∧
      edge.2.length = target.params.length) :
    (∃ outcome, outcome ≠ .stuck ∧ eu.execTerminator m s terminator = .done outcome s) ∨
      ∃ b target, ∃ t : State A S, b ∈ terminator.successorIds ∧
        eu.blocks.lookup b = some target ∧ eu.execTerminator m s terminator = .goto ⟨b, 0, t⟩ ∧
        ∀ reg, s.Has reg ∨ reg ∈ target.params → t.Has reg := by
  -- it is enough that an edge is taken
  refine Or.imp_right ?_ (?_ : _ ∨ ∃ edge ∈ terminator.edges, (∀ reg ∈ edge.2, s.Has reg) ∧
    eu.execTerminator m s terminator = eu.enter s edge.1 edge.2)
  · rintro ⟨edge, hedge, hargs, hexec⟩
    obtain ⟨target, htarget, hlength⟩ := hedges edge hedge
    obtain ⟨t, ht, hregs⟩ := exists_enter htarget hlength hargs
    refine ⟨edge.1, target, t, ?_, htarget, hexec.trans ht, hregs⟩
    rw [← SIRTerminator.edges_fst]
    exact List.mem_map_of_mem hedge
  cases terminator with
  | ret => exact .inl ⟨.returned, nofun, rfl⟩
  | error code => exact .inl ⟨.error code, nofun, rfl⟩
  | jump target args =>
    exact .inr ⟨(target, args), List.mem_singleton_self _, fun reg hreg => (huses reg hreg).2, rfl⟩
  | branch cond trueBlock falseBlock =>
    obtain ⟨⟨type, htype⟩, value, hvalue⟩ := huses cond List.mem_cons_self
    have hlookup : eu.registerMap.lookup cond = some type := htype
    have hargs : ∀ reg ∈ trueBlock.2 ++ falseBlock.2, s.Has reg :=
      fun reg hreg => (huses reg (List.mem_cons_of_mem _ hreg)).2
    refine .inr ?_
    by_cases htruthy : m.truthy type value
    · refine ⟨trueBlock, List.mem_cons_self, fun reg hreg => hargs reg (List.mem_append_left _ hreg),
        ?_⟩
      simp [ExecutionUnit.execTerminator, ExecutionUnit.operand, hlookup, hvalue, htruthy]
    · refine ⟨falseBlock, List.mem_cons_of_mem _ List.mem_cons_self, fun reg hreg =>
        hargs reg (List.mem_append_right _ hreg), ?_⟩
      simp [ExecutionUnit.execTerminator, ExecutionUnit.operand, hlookup, hvalue, htruthy]
  | switch selector cases default =>
    obtain ⟨-, value, hvalue⟩ := huses selector (List.mem_singleton_self _)
    have hargs : ∀ reg ∈ ([] : List RegisterId), s.Has reg := by simp
    refine .inr ?_
    cases hfind : cases.find? fun case => value = ⟨case.value, 0⟩ with
    | some case =>
      refine ⟨(case.target, []), List.mem_append_left _
        (List.mem_map_of_mem (List.mem_of_find?_eq_some hfind)), hargs, ?_⟩
      simp only [ExecutionUnit.execTerminator, hvalue, hfind]
    | none =>
      refine ⟨(default, []), List.mem_append_right _ (List.mem_singleton_self _), hargs, ?_⟩
      simp only [ExecutionUnit.execTerminator, hvalue, hfind]

/-- A run has followed a path of the graph, and what is defined on it has a value. -/
def ExecutionUnit.Follows (eu : ExecutionUnit A) (c : Config A S) : Prop :=
  ∃ before block, eu.PathTo before c.block ∧ eu.blocks.lookup c.block = some block ∧
    c.index ≤ block.instructions.length ∧ ∀ reg site, (reg, site) ∈ eu.definitions →
      PassedBefore before c.block c.index site → c.state.Has reg

/-- A step that is not stuck, and after which the run has followed a path again. -/
theorem Verified.step (h : Verified eu)
    (hentry : ∀ block, eu.blocks.lookup eu.entryBlockId = some block → block.params = [])
    {c : Config A S} (hc : eu.Follows c) :
    (∃ outcome, outcome ≠ .stuck ∧ eu.step m c = .done outcome c.state) ∨
      ∃ c', eu.step m c = .goto c' ∧ eu.Follows c' := by
  obtain ⟨before, block, hpath, hblock, hle, hvalues⟩ := hc
  have hb := h.blocks c.block block hblock
  have huses : ∀ reg, block.UsesAt c.index reg →
      Declared eu.types reg ∧ c.state.Has reg := by
    intro reg huse
    obtain ⟨site, hsite, -, hpassed⟩ := h.definedOnPaths hentry before c.block block hpath hblock
      c.index reg huse
    exact ⟨(hb.uses c.index reg huse).1, hvalues reg site hsite hpassed⟩
  unfold ExecutionUnit.step
  rw [hblock]
  dsimp only
  -- a site of the block that is behind the position
  have hhere : ∀ reg i, (reg, DefSite.inst c.block i) ∈ eu.definitions →
      ∃ inst, block.instructions[i]? = some inst ∧ inst.definedRegister = some reg := by
    intro reg i hsite
    obtain ⟨b, other, hother, hmem⟩ := mem_unit_definitions.mp hsite
    obtain ⟨hid, hinst⟩ := mem_definitions_inst.mp hmem
    rw [h.ids b other hother] at hid
    rw [← hid, hblock] at hother
    exact Option.some.inj hother ▸ hinst
  cases hget : block.instructions[c.index]? with
  | some inst =>
    have hmem := List.mem_of_getElem? hget
    obtain ⟨t, ht⟩ := Option.isSome_iff_exists.mp (exec_isSome (m := m)
      (fun reg hreg => huses reg (.inl ⟨inst, hget, hreg⟩)) (hb.typed.defined inst hmem))
    refine .inr ⟨⟨c.block, c.index + 1, t⟩, by simp only [ht], before, block, hpath, hblock,
      Nat.succ_le_of_lt (List.getElem?_eq_some_iff.mp hget).1,
      fun reg site hsite hpassed => exec_defined ht ?_⟩
    cases site with
    | param d => exact .inl (hvalues reg _ hsite hpassed)
    | inst d i =>
      rcases hpassed with hd | ⟨rfl, hi⟩
      · exact .inl (hvalues reg _ hsite (.inl hd))
      · rcases Nat.lt_succ_iff_lt_or_eq.mp hi with hi | rfl
        · exact .inl (hvalues reg _ hsite (.inr ⟨rfl, hi⟩))
        · obtain ⟨other, hother, hdef⟩ := hhere reg _ hsite
          rw [hget] at hother
          exact .inr (Option.some.inj hother ▸ hdef)
  | none =>
    have hend : c.index = block.instructions.length :=
      Nat.le_antisymm hle (List.getElem?_eq_none_iff.mp hget)
    dsimp only
    refine (exists_terminator (m := m) (fun reg hreg => huses reg (.inr ⟨hend, hreg⟩))
      (h.edgesComplete c.block block hblock)).imp_right ?_
    rintro ⟨b, target, t, hb, htarget, hgo, hregs⟩
    refine ⟨_, hgo, before ++ [c.block], target, hpath.step hblock hb, htarget, Nat.zero_le _,
      fun reg site hsite hpassed => hregs reg ?_⟩
    cases site with
    | param d =>
      by_cases hd : d = b
      · obtain ⟨home, other, hother, hmem⟩ := mem_unit_definitions.mp hsite
        obtain ⟨hid, hparam⟩ := mem_definitions_param.mp hmem
        rw [h.ids home other hother] at hid
        rw [← hid, hd, htarget] at hother
        exact .inr (Option.some.inj hother ▸ hparam)
      · refine .inl (hvalues reg _ hsite ?_)
        have hin : d ∈ ((before ++ [c.block]) ++ [b]).tail := hpassed
        rw [List.tail_append_of_ne_nil (by simp), List.mem_append, List.mem_singleton] at hin
        exact hin.resolve_right hd
    | inst d i =>
      have hin : d ∈ before ++ [c.block] := hpassed.resolve_right fun hlt => Nat.not_lt_zero i hlt.2
      rcases List.mem_append.mp hin with hd | hd
      · exact .inl (hvalues reg _ hsite (.inl hd))
      · obtain rfl := List.mem_singleton.mp hd
        obtain ⟨other, hother, -⟩ := hhere reg i hsite
        exact .inl (hvalues reg _ hsite (.inr ⟨rfl, hend ▸ (List.getElem?_eq_some_iff.mp hother).1⟩))

/-- No run of an accepted unit gets stuck, whatever the machine does. -/
theorem verified_progress (m : Machine A S) (hverify : eu.verifyResult = .ok ())
    (hentry : ∀ block, eu.blocks.lookup eu.entryBlockId = some block → block.params = [])
    {c : Config A S} (hc : eu.Reached m c) (s : State A S) : eu.step m c ≠ .done .stuck s := by
  have hv := (verifyResult_ok_iff eu).mp hverify
  have hfollows : eu.Follows c := by
    induction hc with
    | start memory =>
      obtain ⟨block, hblock⟩ := mem_table.mp hv.entry
      refine ⟨[], block, .entry, hblock, Nat.zero_le _, fun reg site _ hpassed => ?_⟩
      cases site with
      | param d => cases hpassed
      | inst d i => exact hpassed.elim nofun fun hlt => absurd hlt.2 (Nat.not_lt_zero i)
    | step _ hgo ih =>
      rcases hv.step (m := m) hentry ih with ⟨outcome, -, hdone⟩ | ⟨c', hgo', hfollows⟩
      · rw [hgo] at hdone
        cases hdone
      · rw [hgo] at hgo'
        cases hgo'
        exact hfollows
  intro hstuck
  rcases hv.step (m := m) hentry hfollows with ⟨outcome, hne, hdone⟩ | ⟨c', hgo, -⟩
  · rw [hstuck] at hdone
    cases hdone
    exact hne rfl
  · rw [hstuck] at hgo
    cases hgo

/-- Memory counts its effects. -/
def countingMachine : Machine Nat Nat where
  binary _ _ _ _ lhs _ := lhs
  unary _ _ _ src := ⟨1 - src.payload, 0⟩
  truthy _ value := value.payload ≠ 0
  load memory _ _ _ := ⟨memory, 0⟩
  perform memory _ := memory + 1

theorem verified_progress_loop : ∃ c, loopUnit.Reached countingMachine c ∧ c.block = 1 ∧
    ∀ s, loopUnit.step countingMachine c ≠ .done .stuck s := by
  have hreached : loopUnit.Reached countingMachine
      (loopUnit.start 0 [] : Config Nat Nat) := .start 0
  exact ⟨_, .step (.step hreached rfl) rfl, rfl, verified_progress countingMachine (by decide)
    (by intro block hblock; cases hblock; rfl) (.step (.step hreached rfl) rfl)⟩

end
end Celox.Sir
