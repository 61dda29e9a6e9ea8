import Celox.Sir.BitMemory
import Celox.Sir.Blocks
import Celox.Sir.Points
import Celox.Sir.Verified

/-! # Units with more registers

A unit that declares the registers of another one in the same shape, and more of its own, does with
an instruction of the other unit what that one does. -/
namespace Celox.Sir

variable {A : Type}

def SIRInstruction.registers (inst : SIRInstruction A) : List RegisterId :=
  inst.definedRegister.toList ++ inst.uses

def DeclaresAll (eu : ExecutionUnit A) (regs : List RegisterId) : Prop :=
  ∀ reg ∈ regs, Declared eu.types reg

/-- Declared registers have the same values. -/
def RegsAgree (eu : ExecutionUnit A) (regs regs' : Registers) : Prop :=
  ∀ reg, Declared eu.types reg → regs' reg = regs reg

def SIRValue.fits (value : SIRValue) (width : Nat) : Prop :=
  value.payload < 2 ^ width ∧ value.mask < 2 ^ width

/-- Registers hold what their types have bits for. -/
def Fits (eu : ExecutionUnit A) (regs : Registers) : Prop :=
  ∀ reg type value, eu.types reg = some type → regs reg = some value → value.fits type.width

/-- All registers of the one unit are declared in the other one, in the same shape. -/
def Extends (eu eu' : ExecutionUnit A) : Prop :=
  ∀ reg type, eu.types reg = some type → ∃ type', eu'.types reg = some type' ∧
    type'.shape = type.shape

section Congr
variable {eu eu' : ExecutionUnit A} {regs regs' : Registers} {reg : RegisterId}

theorem Extends.kept (h : Extends eu eu') {dst : RegisterId} (hdst : Declared eu.types dst)
    (value : SIRValue) : eu'.kept dst value = eu.kept dst value := by
  obtain ⟨type, htype⟩ := hdst
  obtain ⟨type', htype', hshape⟩ := h dst type htype
  unfold ExecutionUnit.types at htype htype'
  unfold ExecutionUnit.kept
  rw [htype, htype']
  exact congrArg value.cut (congrArg RegisterShape.width hshape)

theorem kept_fits {type : RegisterType} (htype : eu.types reg = some type) (value : SIRValue) :
    (eu.kept reg value).fits type.width := by
  unfold ExecutionUnit.types at htype
  unfold ExecutionUnit.kept
  rw [htype]
  exact ⟨Nat.mod_lt _ (Nat.two_pow_pos _), Nat.mod_lt _ (Nat.two_pow_pos _)⟩

theorem kept_of_fits {type : RegisterType} (htype : eu.types reg = some type) {value : SIRValue}
    (h : value.fits type.width) : eu.kept reg value = value := by
  unfold ExecutionUnit.types at htype
  unfold ExecutionUnit.kept
  rw [htype]
  simp only [SIRValue.cut, Nat.mod_eq_of_lt h.1, Nat.mod_eq_of_lt h.2]

theorem RegsAgree.update (h : RegsAgree eu regs regs') (dst : RegisterId)
    (value : Option SIRValue) :
    RegsAgree eu (Function.update regs dst value) (Function.update regs' dst value) := by
  intro reg hreg
  by_cases heq : reg = dst
  · rw [heq, Function.update_self, Function.update_self]
  · rw [Function.update_of_ne heq, Function.update_of_ne heq]
    exact h reg hreg

theorem RegsAgree.resolve (h : RegsAgree eu regs regs') (offset : SIROffset)
    (hoffset : DeclaresAll eu offset.dynamicRegisters) : offset.resolve regs' = offset.resolve regs :=
  resolve_uses fun reg hreg => h reg (hoffset reg hreg)

theorem RegsAgree.mapM (h : RegsAgree eu regs regs') {args : List RegisterId}
    (hargs : DeclaresAll eu args) : args.mapM regs' = args.mapM regs :=
  mapM_congr_mem fun reg hreg => h reg (hargs reg hreg)

/-- An operand has the same value, and a type of the same shape. -/
theorem operand_agree (hext : Extends eu eu') (h : RegsAgree eu regs regs')
    {typed : RegisterType × SIRValue} (hop : eu.operand regs reg = some typed) :
    ∃ type', eu'.operand regs' reg = some (type', typed.2) ∧ type'.shape = typed.1.shape := by
  obtain ⟨type, value⟩ := typed
  simp only [ExecutionUnit.operand, Option.bind_eq_bind, Option.bind_eq_some_iff, Option.pure_def,
    Option.some.injEq] at hop
  obtain ⟨_, htype, _, hvalue, heq⟩ := hop
  cases heq
  obtain ⟨type', htype', hshape⟩ := hext reg type htype
  unfold ExecutionUnit.types at htype'
  refine ⟨type', ?_, hshape⟩
  simp only [ExecutionUnit.operand, htype', h reg ⟨type, htype⟩, hvalue]
  rfl

theorem operands_agree (hext : Extends eu eu') (h : RegsAgree eu regs regs') {args : List RegisterId}
    {values : List (RegisterType × SIRValue)} (hop : args.mapM (eu.operand regs) = some values) :
    ∃ values', args.mapM (eu'.operand regs') = some values' ∧
      evalConcat values' = evalConcat values := by
  suffices hsuff : ∃ values', args.mapM (eu'.operand regs') = some values' ∧
      List.Forall₂ (fun a b : RegisterType × SIRValue => b.2 = a.2 ∧ b.1.shape = a.1.shape)
        values values' by
    obtain ⟨values', hvalues', hall⟩ := hsuff
    refine ⟨values', hvalues', ?_⟩
    unfold evalConcat
    generalize (⟨0, 0⟩ : SIRValue) = start
    clear hvalues' hop
    induction hall generalizing start with
    | nil => rfl
    | cons hhead _ ih =>
      obtain ⟨hvalue, hshape⟩ := hhead
      have hwidth := congrArg RegisterShape.width hshape
      simp only [RegisterType.shape] at hwidth
      rw [List.foldl_cons, List.foldl_cons, hvalue, hwidth]
      exact ih _
  induction args generalizing values with
  | nil =>
    cases hop
    exact ⟨[], rfl, .nil⟩
  | cons arg args ih =>
    simp only [List.mapM_cons, Option.bind_eq_bind, Option.bind_eq_some_iff, Option.pure_def,
      Option.some.injEq] at hop
    obtain ⟨typed, htyped, rest, hrest, rfl⟩ := hop
    obtain ⟨type', hop', hshape⟩ := operand_agree hext h htyped
    obtain ⟨rest', hrest', hall⟩ := ih hrest
    refine ⟨(type', typed.2) :: rest', ?_, .cons ⟨rfl, hshape⟩ hall⟩
    simp only [List.mapM_cons, hop', hrest']
    rfl

variable {model : BitModel A} [DecidableEq A] {inst : SIRInstruction A} {memory : BitMemory A}

theorem evalBinary_shape {op : BinaryOp} {dst dst' lhs lhs' rhs rhs' : RegisterType}
    (hdst : dst'.shape = dst.shape) (hlhs : lhs'.shape = lhs.shape) (hrhs : rhs'.shape = rhs.shape)
    (x y : SIRValue) : evalBinary model.machine op dst' lhs' rhs' x y =
      evalBinary model.machine op dst lhs rhs x y := by
  have hwidth : dst'.width = dst.width := congrArg RegisterShape.width hdst
  unfold evalBinary
  simp only [BitModel.machine, hdst, hlhs, hrhs, hwidth]

theorem evalUnary_shape {op : UnaryOp} {dst dst' src src' : RegisterType}
    (hdst : dst'.shape = dst.shape) (hsrc : src'.shape = src.shape) (x : SIRValue) :
    evalUnary model.machine op dst' src' x = evalUnary model.machine op dst src x := by
  have hwidth : dst'.width = dst.width := congrArg RegisterShape.width hdst
  unfold evalUnary
  simp only [BitModel.machine, hdst, hsrc, hwidth]

theorem value_agree (hext : Extends eu eu') (h : RegsAgree eu regs regs')
    (hdecl : DeclaresAll eu inst.registers) {value : SIRValue}
    (hvalue : eu.value model.machine regs memory inst = some value) :
    eu'.value model.machine regs' memory inst = some value := by
  have huse : ∀ reg ∈ inst.uses, regs' reg = regs reg := fun reg hreg =>
    h reg (hdecl reg (List.mem_append_right _ hreg))
  cases inst with
  | imm dst v => exact hvalue
  | binary dst lhs op rhs =>
    simp only [ExecutionUnit.value, Option.bind_eq_bind, Option.bind_eq_some_iff, Option.pure_def,
      Option.some.injEq] at hvalue ⊢
    obtain ⟨dstType, hdst, lhsTyped, hlhs, rhsTyped, hrhs, rfl⟩ := hvalue
    obtain ⟨dstType', hdst', hshape⟩ := hext dst dstType hdst
    obtain ⟨lhsType', hlhs', hlhsShape⟩ := operand_agree hext h hlhs
    obtain ⟨rhsType', hrhs', hrhsShape⟩ := operand_agree hext h hrhs
    exact ⟨dstType', hdst', _, hlhs', _, hrhs', evalBinary_shape hshape hlhsShape hrhsShape _ _⟩
  | unary dst op src =>
    simp only [ExecutionUnit.value, Option.bind_eq_bind, Option.bind_eq_some_iff, Option.pure_def,
      Option.some.injEq] at hvalue ⊢
    obtain ⟨dstType, hdst, srcTyped, hsrc, rfl⟩ := hvalue
    obtain ⟨dstType', hdst', hshape⟩ := hext dst dstType hdst
    obtain ⟨srcType', hsrc', hsrcShape⟩ := operand_agree hext h hsrc
    exact ⟨dstType', hdst', _, hsrc', evalUnary_shape hshape hsrcShape _⟩
  | load dst addr offset bits =>
    have hresolve := h.resolve offset fun reg hreg =>
      hdecl reg (List.mem_append_right _ hreg)
    simp only [ExecutionUnit.value] at hvalue ⊢
    rw [hresolve]
    exact hvalue
  | concat dst args =>
    simp only [ExecutionUnit.value, Option.bind_eq_bind, Option.bind_eq_some_iff, Option.pure_def,
      Option.some.injEq] at hvalue ⊢
    obtain ⟨values, hvalues, rfl⟩ := hvalue
    exact operands_agree hext h hvalues
  | slice dst src offset width =>
    simp only [ExecutionUnit.value] at hvalue ⊢
    rw [huse src (by simp [SIRInstruction.uses])]
    exact hvalue
  | mux dst cond thenVal elseVal =>
    simp only [ExecutionUnit.value] at hvalue ⊢
    rw [huse cond (by simp [SIRInstruction.uses]), huse thenVal (by simp [SIRInstruction.uses]),
      huse elseVal (by simp [SIRInstruction.uses])]
    exact hvalue
  | store | commit | runtimeEvent | combCaptureEvent | combCaptureEnableIfChanged => cases hvalue

omit [DecidableEq A] in
theorem effect_agree (h : RegsAgree eu regs regs') (hdecl : DeclaresAll eu inst.registers) :
    inst.effect regs' = inst.effect regs :=
  effect_uses fun reg hreg => h reg (hdecl reg (List.mem_append_right _ hreg))

/-- An instruction does the same in both units. Memories that agree on what it reads agree behind it
where it writes, and elsewhere where they did before. -/
theorem exec_agree (hext : Extends eu eu') {s s' t : State A (BitMemory A)}
    (hdecl : DeclaresAll eu inst.registers) (hregs : RegsAgree eu s.regs s'.regs)
    {Q : A → Nat → Prop} (hmemory : ∀ a bit, inst.mayRead a bit ∨ Q a bit ∧ ¬ inst.mustWrite a bit →
      s.memory a bit = s'.memory a bit)
    (h : eu.execInstruction model.machine s inst = some t) :
    ∃ t', eu'.execInstruction model.machine s' inst = some t' ∧ RegsAgree eu t.regs t'.regs ∧
      (∀ a bit, Q a bit → t.memory a bit = t'.memory a bit) ∧
      ∃ effects, t.trace = s.trace ++ effects ∧ t'.trace = s'.trace ++ effects := by
  cases hdef : inst.definedRegister with
  | some dst =>
    rw [execInstruction_value hdef, Option.map_eq_some_iff] at h
    obtain ⟨value, hvalue, rfl⟩ := h
    rw [value_congr fun a bit hread => hmemory a bit (.inl hread)] at hvalue
    have hvalue' := value_agree hext hregs hdecl hvalue
    have hdst := hdecl dst (by simp [SIRInstruction.registers, hdef])
    refine ⟨_, by rw [execInstruction_value hdef, hvalue']; rfl, ?_, fun a bit hq => ?_, [], ?_, ?_⟩
    · simp only [ExecutionUnit.assign, hext.kept hdst]
      exact hregs.update dst _
    · refine hmemory a bit (.inr ⟨hq, fun hwrite => ?_⟩)
      cases inst <;> first | exact hwrite | cases hdef
    · exact (List.append_nil _).symm
    · exact (List.append_nil _).symm
  | none =>
    rw [execInstruction_effect hdef, Option.map_eq_some_iff] at h
    obtain ⟨effect, heffect, rfl⟩ := h
    refine ⟨s'.perform model.machine effect, ?_, hregs, perform_agree model heffect hmemory, [effect],
      rfl, rfl⟩
    rw [execInstruction_effect hdef, effect_agree hregs hdecl, heffect]
    rfl

omit [DecidableEq A] in
theorem Fits.update (h : Fits eu regs) (dst : RegisterId) (value : SIRValue) :
    Fits eu (Function.update regs dst (some (eu.kept dst value))) := by
  intro reg type v htype hv
  by_cases heq : reg = dst
  · subst heq
    rw [Function.update_self] at hv
    cases hv
    exact kept_fits htype value
  · rw [Function.update_of_ne heq] at hv
    exact h reg type v htype hv

omit [DecidableEq A] in
theorem Fits.exec {S : Type} {m : Machine A S} {s t : State A S} (h : Fits eu s.regs)
    (hexec : eu.execInstruction m s inst = some t) : Fits eu t.regs := by
  cases hdef : inst.definedRegister with
  | some dst =>
    rw [execInstruction_value hdef, Option.map_eq_some_iff] at hexec
    obtain ⟨value, -, rfl⟩ := hexec
    exact h.update dst value
  | none =>
    rw [execInstruction_effect hdef, Option.map_eq_some_iff] at hexec
    obtain ⟨effect, -, rfl⟩ := hexec
    exact h

end Congr

/-! ## Verified units -/

section Verified
variable {eu eu' : ExecutionUnit A} {b : BlockId} {block : BasicBlock A}

theorem Verified.declares (h : Verified eu) (hb : eu.blocks.lookup b = some block) {i : Nat}
    {inst : SIRInstruction A} (hi : block.instructions[i]? = some inst) :
    DeclaresAll eu inst.registers := by
  have hv := h.blocks b block hb
  intro reg hreg
  rcases List.mem_append.mp hreg with hreg | hreg
  · exact hv.typed.defined inst (List.mem_of_getElem? hi) reg (Option.mem_toList.mp hreg)
  · exact (hv.uses i reg (.inl ⟨inst, hi, hreg⟩)).1

theorem Verified.load_width (h : Verified eu) (hb : eu.blocks.lookup b = some block) {i : Nat}
    {dst : RegisterId} {addr : A} {offset : SIROffset} {width : Nat}
    (hi : block.instructions[i]? = some (.load dst addr offset width)) :
    HasWidth eu.types dst width :=
  ((h.blocks b block hb).typed.typed _ (List.mem_of_getElem? hi)).2.1

/-- One site defines a register that is defined at a position, so it is not read there before. -/
theorem Verified.not_used_before (h : Verified eu) (hb : eu.blocks.lookup b = some block)
    {i j : Nat} {inst user : SIRInstruction A} {reg : RegisterId}
    (hi : block.instructions[i]? = some inst) (hreg : inst.definedRegister = some reg)
    (hj : block.instructions[j]? = some user) (huse : reg ∈ user.uses) : i < j := by
  obtain ⟨-, site, hsite, havail⟩ := (h.blocks b block hb).uses j reg (.inl ⟨user, hj, huse⟩)
  have hdef : (reg, DefSite.inst block.id i) ∈ eu.definitions :=
    mem_unit_definitions.mpr ⟨b, block, hb, mem_definitions_inst.mpr ⟨rfl, inst, hi, hreg⟩⟩
  obtain rfl := h.single.site reg _ _ hsite hdef
  rcases havail with ⟨-, hlt⟩ | ⟨hne, -⟩
  · exact hlt
  · exact absurd rfl hne

theorem Verified.defined_once (h : Verified eu) (hb : eu.blocks.lookup b = some block) {i j : Nat}
    {inst inst' : SIRInstruction A} {reg : RegisterId} (hi : block.instructions[i]? = some inst)
    (hreg : inst.definedRegister = some reg) (hj : block.instructions[j]? = some inst')
    (hreg' : inst'.definedRegister = some reg) : i = j := by
  have hsite := h.single.site reg (.inst block.id i) (.inst block.id j)
    (mem_unit_definitions.mpr ⟨b, block, hb, mem_definitions_inst.mpr ⟨rfl, inst, hi, hreg⟩⟩)
    (mem_unit_definitions.mpr ⟨b, block, hb, mem_definitions_inst.mpr ⟨rfl, inst', hj, hreg'⟩⟩)
  cases hsite
  rfl

/-- A register is defined once, so no more behind its definition or a use. -/
theorem Verified.undefined_defined (h : Verified eu) (hb : eu.blocks.lookup b = some block) {i : Nat}
    {inst : SIRInstruction A} {reg : RegisterId} (hi : block.instructions[i]? = some inst)
    (hreg : inst.definedRegister = some reg) : UndefinedFrom block.instructions (i + 1) reg :=
  fun k other hk hget heq => by
    have := h.defined_once hb hi hreg hget heq
    omega

theorem Verified.undefined_used (h : Verified eu) (hb : eu.blocks.lookup b = some block) {i : Nat}
    {inst : SIRInstruction A} {reg : RegisterId} (hi : block.instructions[i]? = some inst)
    (huse : reg ∈ inst.uses) : UndefinedFrom block.instructions (i + 1) reg :=
  fun k other hk hget heq => by
    have := h.not_used_before hb hget heq hi huse
    omega

/-! ## Related states -/

/-- States of both units, with the effects that count. -/
structure Matches (eu : ExecutionUnit A) (counts : Effect A → Bool)
    (s s' : State A (BitMemory A)) : Prop where
  regs : RegsAgree eu s.regs s'.regs
  memory : s'.memory = s.memory
  trace : s'.trace.filter counts = s.trace.filter counts
  fits : Fits eu s.regs

variable {counts : Effect A → Bool} {s s' : State A (BitMemory A)}

/-- An instruction leads from matching states to matching states. -/
theorem Matches.exec [DecidableEq A] {model : BitModel A} (hext : Extends eu eu')
    (h : Matches eu counts s s') {inst : SIRInstruction A} (hdecl : DeclaresAll eu inst.registers)
    {t : State A (BitMemory A)} (hexec : eu.execInstruction model.machine s inst = some t) :
    ∃ t', eu'.execInstruction model.machine s' inst = some t' ∧ Matches eu counts t t' := by
  have hmemory : ∀ a bit, s.memory a bit = s'.memory a bit := fun a bit => by rw [h.memory]
  obtain ⟨t', hexec', hregs, hmemory', effects, htrace, htrace'⟩ := exec_agree
    (Q := fun _ _ => True) hext hdecl h.regs (fun a bit _ => hmemory a bit) hexec
  refine ⟨t', hexec', hregs, funext fun a => funext fun bit => (hmemory' a bit trivial).symm, ?_,
    h.fits.exec hexec⟩
  rw [htrace, htrace', List.filter_append, List.filter_append, h.trace]

theorem params_fit {regs : Registers} (hfits : Fits eu regs) {args params : List RegisterId}
    {values : List SIRValue} (hvalues : args.mapM regs = some values)
    (hwidths : ∀ pair ∈ args.zip params, SameWidth eu.types pair.1 pair.2) :
    ∀ e ∈ params.zip values, ∀ type, eu.types e.1 = some type → e.2.fits type.width := by
  induction args generalizing params values with
  | nil =>
    cases hvalues
    intro e he
    simp at he
  | cons arg args ih =>
    simp only [List.mapM_cons, Option.bind_eq_bind, Option.bind_eq_some_iff, Option.pure_def,
      Option.some.injEq] at hvalues
    obtain ⟨value, hvalue, rest, hrest, rfl⟩ := hvalues
    cases params with
    | nil =>
      intro e he
      simp at he
    | cons param params =>
      intro e he type htype
      rw [List.zip_cons_cons] at hwidths he
      rcases List.mem_cons.mp he with rfl | he
      · obtain ⟨ty, ty', hty, hty', hwidth⟩ := hwidths _ List.mem_cons_self
        rw [htype] at hty'
        cases hty'
        exact hwidth ▸ hfits arg ty value hty hvalue
      · exact ih hrest (fun pair hpair => hwidths pair (List.mem_cons_of_mem _ hpair)) e he type htype

theorem assign_params {regs regs' : Registers} (pairs : List (RegisterId × SIRValue))
    (hagree : RegsAgree eu regs regs') (hfits : Fits eu regs)
    (hpairs : ∀ e ∈ pairs, ∀ type, eu.types e.1 = some type → e.2.fits type.width) :
    RegsAgree eu (pairs.foldl (fun regs e => Function.update regs e.1 (some e.2)) regs)
      (pairs.foldl (fun regs e => Function.update regs e.1 (some e.2)) regs') ∧
    Fits eu (pairs.foldl (fun regs e => Function.update regs e.1 (some e.2)) regs) := by
  induction pairs generalizing regs regs' with
  | nil => exact ⟨hagree, hfits⟩
  | cons e pairs ih =>
    refine ih (hagree.update e.1 (some e.2)) (fun reg type value htype hvalue => ?_) fun e' he' =>
      hpairs e' (List.mem_cons_of_mem _ he')
    change Function.update regs e.1 (some e.2) reg = some value at hvalue
    by_cases heq : reg = e.1
    · subst heq
      rw [Function.update_self] at hvalue
      cases hvalue
      exact hpairs e List.mem_cons_self type htype
    · rw [Function.update_of_ne heq] at hvalue
      exact hfits reg type value htype hvalue

/-- The blocks of both units have the same parameters. -/
def SameParams (eu eu' : ExecutionUnit A) : Prop :=
  ∀ b, (eu'.blocks.lookup b).map (·.params) = (eu.blocks.lookup b).map (·.params)

theorem enter_related (hparams : SameParams eu eu') (h : Matches eu counts s s')
    {target : BlockId} {args : List RegisterId} (hargs : DeclaresAll eu args)
    (htyped : EdgeTyped eu (target, args)) :
    (eu.enter s target args).Related (Matches eu counts) (eu'.enter s' target args) := by
  rw [enter_congr hparams]
  unfold ExecutionUnit.enter
  rw [h.regs.mapM hargs]
  cases hb : eu.blocks.lookup target with
  | none => exact .done h
  | some block =>
    cases hvalues : args.mapM s.regs with
    | none => exact .done h
    | some values =>
      simp only
      split
      · have hpairs := params_fit h.fits hvalues (htyped block hb).2
        obtain ⟨hregs, hfits⟩ := assign_params _ h.regs h.fits hpairs
        exact .goto ⟨hregs, h.memory, h.trace, hfits⟩
      · exact .done h

theorem terminator_related [DecidableEq A] {model : BitModel A} (hv : Verified eu)
    (hext : Extends eu eu') (hparams : SameParams eu eu') (hb : eu.blocks.lookup b = some block)
    (h : Matches eu counts s s') :
    (eu.execTerminator model.machine s block.terminator).Related (Matches eu counts)
      (eu'.execTerminator model.machine s' block.terminator) := by
  have hblock := hv.blocks b block hb
  have huses : DeclaresAll eu block.terminator.uses := fun reg hreg =>
    (hblock.uses block.instructions.length reg (.inr ⟨rfl, hreg⟩)).1
  have hedges := hblock.edges
  have hnone : DeclaresAll eu [] := fun reg hreg => by cases hreg
  generalize block.terminator = terminator at huses hedges
  cases terminator with
  | jump target args =>
    exact enter_related hparams h huses (hedges (target, args) (by simp [SIRTerminator.edges]))
  | branch cond trueBlock falseBlock =>
    have htrue := enter_related hparams h (fun reg hreg => huses reg (by
      simp [SIRTerminator.uses, hreg])) (hedges trueBlock (by simp [SIRTerminator.edges]))
    have hfalse := enter_related hparams h (fun reg hreg => huses reg (by
      simp [SIRTerminator.uses, hreg])) (hedges falseBlock (by simp [SIRTerminator.edges]))
    simp only [ExecutionUnit.execTerminator]
    cases hop : eu.operand s.regs cond with
    | none =>
      have hop' : eu'.operand s'.regs cond = none := by
        obtain ⟨type, htype⟩ := huses cond (by simp [SIRTerminator.uses])
        obtain ⟨type', htype', -⟩ := hext cond type htype
        unfold ExecutionUnit.types at htype htype'
        simp only [ExecutionUnit.operand, htype, htype', Option.bind_eq_bind, Option.bind_some,
          Option.pure_def] at hop ⊢
        rw [h.regs cond ⟨type, htype⟩]
        rw [Option.bind_eq_none_iff] at hop ⊢
        intro value hvalue
        cases hop value hvalue
      rw [hop']
      exact .done h
    | some typed =>
      obtain ⟨type', hop', hshape⟩ := operand_agree hext h.regs hop
      obtain ⟨type, value⟩ := typed
      have hsame : model.machine.truthy type' value = model.machine.truthy type value :=
        congrArg (model.truthy · value) hshape
      rw [hop']
      simp only [hsame]
      by_cases htruthy : model.machine.truthy type value = true
      · rw [if_pos htruthy, if_pos htruthy]
        exact htrue
      · rw [if_neg htruthy, if_neg htruthy]
        exact hfalse
  | switch selector cases default =>
    simp only [ExecutionUnit.execTerminator]
    rw [h.regs selector (huses selector (by simp [SIRTerminator.uses]))]
    cases s.regs selector with
    | none => exact .done h
    | some value =>
      simp only
      cases hcase : cases.find? fun case => value = ⟨case.value, 0⟩ with
      | some case =>
        refine enter_related hparams h hnone (hedges _ ?_)
        simp only [SIRTerminator.edges, List.mem_append, List.mem_map]
        exact .inl ⟨case, List.mem_of_find?_eq_some hcase, rfl⟩
      | none => exact enter_related hparams h hnone (hedges _ (by simp [SIRTerminator.edges]))
  | ret => exact .done h
  | error code => exact .done h

/-- Blocks that do the same to matching states make units that run alike. -/
theorem blocksAlike_of_bodies [DecidableEq A] {model : BitModel A} (hv : Verified eu)
    (hext : Extends eu eu') (hentry : eu'.entryBlockId = eu.entryBlockId)
    {meets : BlockId → State A (BitMemory A) → Prop}
    (hbody : ∀ b block, eu.blocks.lookup b = some block → ∃ block',
      eu'.blocks.lookup b = some block' ∧ block'.params = block.params ∧
      block'.terminator = block.terminator ∧ ∀ s s' t, meets b s → Matches eu counts s s' →
        eu.execList model.machine s block.instructions = some t →
        ∃ t', eu'.execList model.machine s' block'.instructions = some t' ∧ Matches eu counts t t')
    (hmissing : ∀ b, eu.blocks.lookup b = none → eu'.blocks.lookup b = none) :
    BlocksAlike model.machine model.machine eu eu' meets (Matches eu counts) where
  entry := hentry
  start := fun memory => ⟨fun _ _ => rfl, rfl, rfl, fun _ _ _ _ h => by cases h⟩
  body := fun b block hb => by
    obtain ⟨block', hb', -, hterminator, hexec⟩ := hbody b block hb
    exact ⟨block', hb', hterminator, hexec⟩
  terminator := fun b block s s' hb h => by
    refine terminator_related hv hext (fun target => ?_) hb h
    cases htarget : eu.blocks.lookup target with
    | none => rw [hmissing target htarget]
    | some block =>
      obtain ⟨block', hb', hparams, -⟩ := hbody target block htarget
      rw [hb', Option.map_some, Option.map_some, hparams]

end Verified
end Celox.Sir

/-! ## What accesses read

Wherever the one list of instructions is in front of an access, the other one is in front of it
too, and it reads the same. -/
namespace Celox.Sir

variable {A : Type}

/-- Loads and commits. -/
def SIRInstruction.readsMemory : SIRInstruction A → Bool
  | .load .. | .commit .. => true
  | _ => false

/-- An instruction finds the same operands in both states, and the same bits to read. -/
structure ReadsSame (inst : SIRInstruction A) (s s' : State A (BitMemory A)) : Prop where
  regs : ∀ reg ∈ inst.uses, s'.regs reg = s.regs reg
  memory : ∀ a bit, inst.mayRead a bit → s'.memory a bit = s.memory a bit

/-- Every load and every commit of the one list is in the other one, and reads the same. -/
def ListReads (m m' : Machine A (BitMemory A)) (eu eu' : ExecutionUnit A)
    (insts insts' : List (SIRInstruction A)) (s s' : State A (BitMemory A)) : Prop :=
  ∀ i u inst, insts[i]? = some inst → inst.readsMemory = true →
    eu.execList m s (insts.take i) = some u → ∃ i' u', insts'[i']? = some inst ∧
      eu'.execList m' s' (insts'.take i') = some u' ∧ ReadsSame inst u u'

/-- The one list does what the other one does: it leaves the same memory and the same values of the
declared registers, and reads the same. -/
def ListAlike (m m' : Machine A (BitMemory A)) (eu eu' : ExecutionUnit A)
    (insts insts' : List (SIRInstruction A)) (s s' : State A (BitMemory A)) : Prop :=
  ∀ t, eu.execList m s insts = some t → ∃ t', eu'.execList m' s' insts' = some t' ∧
    t'.memory = t.memory ∧ RegsAgree eu t.regs t'.regs ∧ ListReads m m' eu eu' insts insts' s s'

end Celox.Sir
