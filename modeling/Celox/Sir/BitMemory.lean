import Celox.Sir.Semantics

/-! # Units over a memory of bits

Every object is an unbounded run of bits, each with its unknown flag. Constant offsets are bit
positions; where the other ones lead, what a read outside of its object gives and what an object
keeps of a bit is left open. -/
namespace Celox.Sir
variable {A : Type}

/-! ## What an instruction gives -/

section Gives
variable {S : Type} (m : Machine A S) (eu : ExecutionUnit A)

/-- The value of the register an instruction defines. -/
def ExecutionUnit.value (regs : Registers) (memory : S) : SIRInstruction A → Option SIRValue
  | .imm _ value => some value
  | .binary dst lhs op rhs => do
    let dstType ← eu.registerMap.lookup dst
    let (lhsType, lhsValue) ← eu.operand regs lhs
    let (rhsType, rhsValue) ← eu.operand regs rhs
    return evalBinary m op dstType lhsType rhsType lhsValue rhsValue
  | .unary dst op src => do
    let dstType ← eu.registerMap.lookup dst
    let (srcType, value) ← eu.operand regs src
    return evalUnary m op dstType srcType value
  | .load _ addr offset bits => do return m.load memory addr (← offset.resolve regs) bits
  | .concat _ args => do return evalConcat (← args.mapM (eu.operand regs))
  | .slice _ src offset width => do return evalSlice (← regs src) offset width
  | .mux _ cond thenVal elseVal => do
    return evalMux (← regs cond) (← regs thenVal) (← regs elseVal)
  | _ => none

/-- The effect of an instruction that defines no register. -/
def SIRInstruction.effect (regs : Registers) : SIRInstruction A → Option (Effect A)
  | .store addr offset bits src triggers combCaptureSites =>
    if bits = 0 then some (.trigger addr triggers combCaptureSites)
    else do
      return .store addr (← offset.resolve regs) bits (← regs src) triggers combCaptureSites
  | .commit src dst offset bits triggers => do
    return .commit src dst (← offset.resolve regs) bits triggers
  | .runtimeEvent siteId args => do return .runtimeEvent siteId (← args.mapM regs)
  | .combCaptureEvent siteId args fatalErrorCode consumeEnabled => do
    return .combCaptureEvent siteId (← args.mapM regs) fatalErrorCode consumeEnabled
  | .combCaptureEnableIfChanged old new sites => do
    return .combCaptureEnableIfChanged (← regs old) (← regs new) sites
  | _ => none

variable {m eu} {inst : SIRInstruction A} {s : State A S}

theorem execInstruction_value {dst : RegisterId} (h : inst.definedRegister = some dst) :
    eu.execInstruction m s inst = (eu.value m s.regs s.memory inst).map (eu.assign s dst) := by
  cases inst <;> cases h
  all_goals
    simp only [ExecutionUnit.execInstruction, ExecutionUnit.value, Option.map_bind,
      Option.bind_eq_bind, Option.pure_def, Option.map_some, Function.comp_def]

theorem execInstruction_effect (h : inst.definedRegister = none) :
    eu.execInstruction m s inst = (inst.effect s.regs).map (s.perform m) := by
  cases inst <;> cases h
  case store addr offset bits src triggers sites =>
    simp only [ExecutionUnit.execInstruction, SIRInstruction.effect]
    split
    · rfl
    · simp only [Option.map_bind, Option.bind_eq_bind, Option.pure_def, Option.map_some,
        Function.comp_def]
  all_goals
    simp only [ExecutionUnit.execInstruction, SIRInstruction.effect, Option.map_bind,
      Option.bind_eq_bind, Option.pure_def, Option.map_some, Function.comp_def]

theorem mapM_congr_mem {B C : Type} {f g : B → Option C} {l : List B} (h : ∀ x ∈ l, f x = g x) :
    l.mapM f = l.mapM g := by
  induction l with
  | nil => rfl
  | cons x l ih =>
    rw [List.mapM_cons, List.mapM_cons, h x List.mem_cons_self,
      ih fun y hy => h y (List.mem_cons_of_mem _ hy)]

theorem resolve_uses {regs regs' : Registers} {offset : SIROffset}
    (h : ∀ reg ∈ offset.dynamicRegisters, regs' reg = regs reg) :
    offset.resolve regs' = offset.resolve regs := by
  cases offset with
  | static | packedElements => rfl
  | dynamic register => simp only [SIROffset.resolve, h register List.mem_cons_self]
  | element index elementWidth bitOffset dynamicBitOffset =>
    have hindex := h index List.mem_cons_self
    cases dynamicBitOffset with
    | none => simp only [SIROffset.resolve, hindex]
    | some dynamicBit =>
      have hbit := h dynamicBit (List.mem_cons_of_mem _ List.mem_cons_self)
      simp only [SIROffset.resolve, hindex, hbit]

theorem operand_uses {regs regs' : Registers} {reg : RegisterId} (h : regs' reg = regs reg) :
    eu.operand regs' reg = eu.operand regs reg := by
  unfold ExecutionUnit.operand
  rw [h]

/-- A value depends on no registers but those that its instruction uses. -/
theorem value_uses {regs regs' : Registers} {memory : S}
    (h : ∀ reg ∈ inst.uses, regs' reg = regs reg) :
    eu.value m regs' memory inst = eu.value m regs memory inst := by
  cases inst with
  | binary dst lhs op rhs =>
    simp only [ExecutionUnit.value, operand_uses (h lhs List.mem_cons_self),
      operand_uses (h rhs (List.mem_cons_of_mem _ List.mem_cons_self))]
  | unary dst op src => simp only [ExecutionUnit.value, operand_uses (h src List.mem_cons_self)]
  | load dst addr offset bits => simp only [ExecutionUnit.value, resolve_uses h]
  | concat dst args =>
    have hargs : args.mapM (eu.operand regs') = args.mapM (eu.operand regs) :=
      mapM_congr_mem fun reg hreg => operand_uses (h reg hreg)
    simp only [ExecutionUnit.value, hargs]
  | slice dst src offset width => simp only [ExecutionUnit.value, h src List.mem_cons_self]
  | mux dst cond thenVal elseVal =>
    simp only [SIRInstruction.uses, List.forall_mem_cons] at h
    simp only [ExecutionUnit.value, h.1, h.2.1, h.2.2.1]
  | _ => rfl

/-- So does an effect. -/
theorem effect_uses {regs regs' : Registers} (h : ∀ reg ∈ inst.uses, regs' reg = regs reg) :
    inst.effect regs' = inst.effect regs := by
  cases inst with
  | store addr offset bits src triggers sites =>
    simp only [SIRInstruction.effect]
    split
    · rfl
    · rename_i hbits
      simp only [SIRInstruction.uses, hbits, if_false] at h
      rw [resolve_uses fun reg hreg => h reg (List.mem_append_left _ hreg), h src (by simp)]
  | commit src dst offset bits triggers => simp only [SIRInstruction.effect, resolve_uses h]
  | runtimeEvent siteId args | combCaptureEvent siteId args code consume =>
    have hargs : args.mapM regs' = args.mapM regs := mapM_congr_mem h
    simp only [SIRInstruction.effect, hargs]
  | combCaptureEnableIfChanged old new sites =>
    simp only [SIRInstruction.uses, List.forall_mem_cons] at h
    simp only [SIRInstruction.effect, h.1, h.2.1]
  | _ => rfl

end Gives

/-! ## The memory -/

/-- Payload and unknown flag of every bit. -/
abbrev BitMemory (A : Type) := A → Nat → Bool × Bool

/-- What operators see of a type. -/
structure RegisterShape where
  width : Nat
  signed : Bool
deriving DecidableEq, Repr

def RegisterType.shape (type : RegisterType) : RegisterShape := ⟨type.width, type.isSigned⟩

structure BitModel (A : Type) where
  binary : BinaryOp → RegisterShape → RegisterShape → RegisterShape → SIRValue → SIRValue → SIRValue
  unary : UnaryOp → RegisterShape → RegisterShape → SIRValue → SIRValue
  truthy : RegisterShape → SIRValue → Bool
  /-- The first bit of an access, if it is in the object. -/
  start : A → OffsetValue → Option Nat
  start_static : ∀ addr bitOffset, start addr (.static bitOffset) = some bitOffset
  start_packed : ∀ addr bitOffset elementWidth,
    start addr (.packedElements bitOffset elementWidth) = some bitOffset
  /-- What a read outside of the object gives. -/
  outside : A → OffsetValue → Nat → SIRValue
  /-- What the object keeps of a bit; one of two states has no unknown bits. -/
  hold : A → Bool × Bool → Bool × Bool

def readBits (memory : BitMemory A) (addr : A) (start bits : Nat) : SIRValue where
  payload := Nat.ofBits fun i : Fin bits => (memory addr (start + i)).1
  mask := Nat.ofBits fun i : Fin bits => (memory addr (start + i)).2

def SIRValue.bit (value : SIRValue) (i : Nat) : Bool × Bool :=
  (value.payload.testBit i, value.mask.testBit i)

section Memory
variable [DecidableEq A] (model : BitModel A)

def writeBits (memory : BitMemory A) (addr : A) (start bits : Nat) (value : SIRValue) :
    BitMemory A := fun a bit =>
  if a = addr ∧ start ≤ bit ∧ bit < start + bits then model.hold addr (value.bit (bit - start))
  else memory a bit

def copyBits (memory : BitMemory A) (src dst : A) (srcStart dstStart bits : Nat) : BitMemory A :=
  fun a bit =>
    if a = dst ∧ dstStart ≤ bit ∧ bit < dstStart + bits then
      model.hold dst (memory src (srcStart + (bit - dstStart)))
    else memory a bit

def BitModel.load (memory : BitMemory A) (addr : A) (offset : OffsetValue) (bits : Nat) :
    SIRValue :=
  match model.start addr offset with
  | some start => readBits memory addr start bits
  | none => model.outside addr offset bits

def BitModel.perform (memory : BitMemory A) : Effect A → BitMemory A
  | .store addr offset bits value _ _ =>
    match model.start addr offset with
    | some start => writeBits model memory addr start bits value
    | none => memory
  | .commit src dst offset bits _ =>
    match model.start src offset, model.start dst offset with
    | some srcStart, some dstStart => copyBits model memory src dst srcStart dstStart bits
    | _, _ => memory
  | _ => memory

def BitModel.machine : Machine A (BitMemory A) where
  binary op dst lhs rhs := model.binary op dst.shape lhs.shape rhs.shape
  unary op dst src := model.unary op dst.shape src.shape
  truthy type := model.truthy type.shape
  load := model.load
  perform := model.perform

end Memory

/-- Objects that hold every bit as it is, and that dynamic accesses do not reach. -/
def BitModel.plain (A : Type) : BitModel A where
  binary _ _ _ _ lhs _ := lhs
  unary _ _ _ src := src
  truthy _ value := value.payload != 0
  start _
    | .static bitOffset | .packedElements bitOffset _ => some bitOffset
    | .dynamic _ | .element .. => none
  start_static _ _ := rfl
  start_packed _ _ _ := rfl
  outside _ _ _ := ⟨0, 0⟩
  hold _ bit := bit

/-! ## Footprints -/

/-- A bit that an access may touch. -/
def SIROffset.reaches (offset : SIROffset) (bits bit : Nat) : Prop :=
  match offset with
  | .static start | .packedElements start _ => start ≤ bit ∧ bit < start + bits
  | .dynamic _ | .element .. => True

/-- A bit that an access touches wherever its registers lead. -/
def SIROffset.fills (offset : SIROffset) (bits bit : Nat) : Prop :=
  match offset with
  | .static start | .packedElements start _ => start ≤ bit ∧ bit < start + bits
  | .dynamic _ | .element .. => False

def SIRInstruction.mayRead (inst : SIRInstruction A) (a : A) (bit : Nat) : Prop :=
  match inst with
  | .load _ addr offset bits => addr = a ∧ offset.reaches bits bit
  | .commit src _ offset bits _ => src = a ∧ offset.reaches bits bit
  | _ => False

def SIRInstruction.mustWrite (inst : SIRInstruction A) (a : A) (bit : Nat) : Prop :=
  match inst with
  | .store addr offset bits _ _ _ => addr = a ∧ offset.fills bits bit
  | .commit _ dst offset bits _ => dst = a ∧ offset.fills bits bit
  | _ => False

def SIRInstruction.mayWrite (inst : SIRInstruction A) (a : A) (bit : Nat) : Prop :=
  match inst with
  | .store addr offset bits _ _ _ => addr = a ∧ offset.reaches bits bit
  | .commit _ dst offset bits _ => dst = a ∧ offset.reaches bits bit
  | _ => False

section Footprint
variable [DecidableEq A] {model : BitModel A} {offset : SIROffset} {value : OffsetValue}
  {regs : Registers} {addr a : A} {start bits bit : Nat}

omit [DecidableEq A] in
theorem reaches_of_start (hvalue : offset.resolve regs = some value)
    (hstart : model.start addr value = some start) (hle : start ≤ bit) (hlt : bit < start + bits) :
    offset.reaches bits bit := by
  cases offset with
  | static o =>
    cases hvalue
    rw [model.start_static] at hstart
    cases hstart
    exact ⟨hle, hlt⟩
  | packedElements o w =>
    cases hvalue
    rw [model.start_packed] at hstart
    cases hstart
    exact ⟨hle, hlt⟩
  | dynamic => trivial
  | element => trivial

omit [DecidableEq A] in
theorem start_of_fills (model : BitModel A) (hvalue : offset.resolve regs = some value) (h : offset.fills bits bit) :
    ∃ start, (∀ addr, model.start addr value = some start) ∧ start ≤ bit ∧ bit < start + bits := by
  cases offset with
  | static o =>
    cases hvalue
    exact ⟨o, fun addr => model.start_static addr o, h⟩
  | packedElements o w =>
    cases hvalue
    exact ⟨o, fun addr => model.start_packed addr o w, h⟩
  | dynamic => exact h.elim
  | element => exact h.elim

omit [DecidableEq A] in
theorem load_congr {memory memory' : BitMemory A} (hvalue : offset.resolve regs = some value)
    (h : ∀ bit, offset.reaches bits bit → memory addr bit = memory' addr bit) :
    model.load memory addr value bits = model.load memory' addr value bits := by
  unfold BitModel.load
  cases hstart : model.start addr value with
  | none => rfl
  | some start =>
    have heq : ∀ i : Fin bits, memory addr (start + i) = memory' addr (start + i) := fun i =>
      h _ (reaches_of_start hvalue hstart (Nat.le_add_right _ _) (by omega))
    simp only [readBits, heq]

/-- A value depends on nothing of the memory but what its instruction may read. -/
theorem value_congr {eu : ExecutionUnit A} {inst : SIRInstruction A}
    {memory memory' : BitMemory A}
    (h : ∀ a bit, inst.mayRead a bit → memory a bit = memory' a bit) :
    eu.value model.machine regs memory inst = eu.value model.machine regs memory' inst := by
  cases inst with
  | load dst addr offset bits =>
    simp only [ExecutionUnit.value]
    cases hvalue : offset.resolve regs with
    | none => rfl
    | some value => exact congrArg some (load_congr hvalue fun bit hbit => h addr bit ⟨rfl, hbit⟩)
  | _ => rfl

/-- Memories that agree on what an effect reads agree behind it where it writes, and elsewhere where
they agreed before. -/
theorem perform_agree (model : BitModel A) {inst : SIRInstruction A} {effect : Effect A} {Q : A → Nat → Prop}
    {memory memory' : BitMemory A} (heffect : inst.effect regs = some effect)
    (h : ∀ a bit, inst.mayRead a bit ∨ Q a bit ∧ ¬ inst.mustWrite a bit →
      memory a bit = memory' a bit) :
    ∀ a bit, Q a bit → model.perform memory effect a bit = model.perform memory' effect a bit := by
  intro a bit hq
  cases inst with
  | store addr offset bits src triggers sites =>
    simp only [SIRInstruction.effect] at heffect
    split at heffect
    · rename_i hbits
      cases heffect
      refine h a bit (.inr ⟨hq, fun hwrite => ?_⟩)
      obtain ⟨-, hfill⟩ := hwrite
      cases offset <;> simp only [SIROffset.fills] at hfill <;> omega
    · rw [Option.bind_eq_bind, Option.bind_eq_some_iff] at heffect
      obtain ⟨value, hvalue, heffect⟩ := heffect
      rw [Option.bind_eq_bind, Option.bind_eq_some_iff] at heffect
      obtain ⟨v, -, ⟨⟩⟩ := heffect
      simp only [BitModel.perform]
      cases hstart : model.start addr value with
      | none =>
        refine h a bit (.inr ⟨hq, fun hwrite => ?_⟩)
        obtain ⟨start, hstart', -⟩ := start_of_fills model hvalue hwrite.2
        rw [hstart'] at hstart
        cases hstart
      | some start =>
        simp only [writeBits]
        split
        · rfl
        · rename_i hout
          refine h a bit (.inr ⟨hq, fun hwrite => hout ?_⟩)
          obtain ⟨start', hstart', hin⟩ := start_of_fills model hvalue hwrite.2
          rw [hstart'] at hstart
          cases hstart
          exact ⟨hwrite.1.symm, hin⟩
  | commit src dst offset bits triggers =>
    simp only [SIRInstruction.effect] at heffect
    rw [Option.bind_eq_bind, Option.bind_eq_some_iff] at heffect
    obtain ⟨value, hvalue, ⟨⟩⟩ := heffect
    simp only [BitModel.perform]
    have houtside : ¬ (SIRInstruction.commit src dst offset bits triggers).mustWrite a bit →
        memory a bit = memory' a bit := fun hnot => h a bit (.inr ⟨hq, hnot⟩)
    cases hsrc : model.start src value with
    | none =>
      refine houtside fun hwrite => ?_
      obtain ⟨start, hstart', -⟩ := start_of_fills model hvalue hwrite.2
      rw [hstart'] at hsrc
      cases hsrc
    | some srcStart =>
      cases hdst : model.start dst value with
      | none =>
        refine houtside fun hwrite => ?_
        obtain ⟨start, hstart', -⟩ := start_of_fills model hvalue hwrite.2
        rw [hstart'] at hdst
        cases hdst
      | some dstStart =>
        simp only [copyBits]
        split
        · rename_i hin
          rw [h src _ (.inl ⟨rfl, reaches_of_start hvalue hsrc (Nat.le_add_right _ _) (by omega)⟩)]
        · rename_i hout
          refine houtside fun hwrite => hout ?_
          obtain ⟨start', hstart', hin⟩ := start_of_fills model hvalue hwrite.2
          rw [hstart'] at hdst
          cases hdst
          exact ⟨hwrite.1.symm, hin⟩
  | runtimeEvent | combCaptureEvent | combCaptureEnableIfChanged =>
    simp only [SIRInstruction.effect] at heffect
    simp only [Option.bind_eq_bind, Option.bind_eq_some_iff] at heffect
    obtain ⟨args, -, heffect⟩ := heffect
    first
      | cases heffect
        exact h a bit (.inr ⟨hq, fun hwrite => hwrite⟩)
      | obtain ⟨new, -, ⟨⟩⟩ := heffect
        exact h a bit (.inr ⟨hq, fun hwrite => hwrite⟩)
  | imm | binary | unary | load | concat | slice | mux => cases heffect

/-- Nothing but what an instruction may write changes. -/
theorem perform_frame {inst : SIRInstruction A} {effect : Effect A} {memory : BitMemory A}
    (heffect : inst.effect regs = some effect) (h : ¬ inst.mayWrite a bit) :
    model.perform memory effect a bit = memory a bit := by
  cases inst with
  | store addr offset bits src triggers sites =>
    simp only [SIRInstruction.effect] at heffect
    split at heffect
    · cases heffect
      rfl
    · rw [Option.bind_eq_bind, Option.bind_eq_some_iff] at heffect
      obtain ⟨value, hvalue, heffect⟩ := heffect
      rw [Option.bind_eq_bind, Option.bind_eq_some_iff] at heffect
      obtain ⟨v, -, ⟨⟩⟩ := heffect
      simp only [BitModel.perform]
      cases hstart : model.start addr value with
      | none => rfl
      | some start =>
        exact if_neg fun hin => h ⟨hin.1.symm, reaches_of_start hvalue hstart hin.2.1 hin.2.2⟩
  | commit src dst offset bits triggers =>
    simp only [SIRInstruction.effect] at heffect
    rw [Option.bind_eq_bind, Option.bind_eq_some_iff] at heffect
    obtain ⟨value, hvalue, ⟨⟩⟩ := heffect
    simp only [BitModel.perform]
    cases hsrc : model.start src value with
    | none => rfl
    | some srcStart =>
      cases hdst : model.start dst value with
      | none => rfl
      | some dstStart =>
        exact if_neg fun hin => h ⟨hin.1.symm, reaches_of_start hvalue hdst hin.2.1 hin.2.2⟩
  | runtimeEvent | combCaptureEvent | combCaptureEnableIfChanged =>
    simp only [SIRInstruction.effect] at heffect
    simp only [Option.bind_eq_bind, Option.bind_eq_some_iff] at heffect
    obtain ⟨args, -, heffect⟩ := heffect
    first
      | cases heffect
        rfl
      | obtain ⟨new, -, ⟨⟩⟩ := heffect
        rfl
  | imm | binary | unary | load | concat | slice | mux => cases heffect

theorem exec_memory {eu : ExecutionUnit A} {inst : SIRInstruction A} {s t : State A (BitMemory A)}
    (h : eu.execInstruction model.machine s inst = some t) (hwrite : ¬ inst.mayWrite a bit) :
    t.memory a bit = s.memory a bit := by
  cases hdef : inst.definedRegister with
  | some dst =>
    rw [execInstruction_value hdef, Option.map_eq_some_iff] at h
    obtain ⟨value, -, rfl⟩ := h
    rfl
  | none =>
    rw [execInstruction_effect hdef, Option.map_eq_some_iff] at h
    obtain ⟨effect, heffect, rfl⟩ := h
    exact perform_frame heffect hwrite

/-- With the same registers an instruction does the same, and memories that agree on what it reads
agree behind it where it writes, and elsewhere where they did before. -/
theorem exec_alike {eu : ExecutionUnit A} {inst : SIRInstruction A}
    {s s' t : State A (BitMemory A)} (hregs : s'.regs = s.regs) {Q : A → Nat → Prop}
    (hmemory : ∀ a bit, inst.mayRead a bit ∨ Q a bit ∧ ¬ inst.mustWrite a bit →
      s.memory a bit = s'.memory a bit)
    (h : eu.execInstruction model.machine s inst = some t) :
    ∃ t', eu.execInstruction model.machine s' inst = some t' ∧ t'.regs = t.regs ∧
      ∀ a bit, Q a bit → t.memory a bit = t'.memory a bit := by
  cases hdef : inst.definedRegister with
  | some dst =>
    rw [execInstruction_value hdef, Option.map_eq_some_iff] at h
    obtain ⟨value, hvalue, rfl⟩ := h
    rw [value_congr fun a bit hread => hmemory a bit (.inl hread), ← hregs] at hvalue
    refine ⟨eu.assign s' dst value, by rw [execInstruction_value hdef, hvalue]; rfl, ?_,
      fun a bit hq => hmemory a bit (.inr ⟨hq, fun hwrite => ?_⟩)⟩
    · simp only [ExecutionUnit.assign, hregs]
    · cases inst <;> first | exact hwrite | cases hdef
  | none =>
    rw [execInstruction_effect hdef, Option.map_eq_some_iff] at h
    obtain ⟨effect, heffect, rfl⟩ := h
    refine ⟨s'.perform model.machine effect, ?_, hregs, perform_agree model heffect hmemory⟩
    rw [execInstruction_effect hdef, hregs, heffect]
    rfl

/-- A store at a constant offset. -/
theorem exec_store {eu : ExecutionUnit A} {s t : State A (BitMemory A)} {src : RegisterId}
    {triggers : List TriggerIdWithKind} {sites : List Nat}
    (hstart : offset = .static start ∨ ∃ elementWidth, offset = .packedElements start elementWidth)
    (hwidth : bits ≠ 0)
    (h : eu.execInstruction model.machine s (.store addr offset bits src triggers sites) = some t) :
    ∃ value effect, s.regs src = some value ∧ t.regs = s.regs ∧
      t.memory = writeBits model s.memory addr start bits value ∧ t.trace = s.trace ++
        [.store addr effect bits value triggers sites] := by
  have hresolve : ∃ value, offset.resolve s.regs = some value ∧
      ∀ addr, model.start addr value = some start := by
    rcases hstart with rfl | ⟨elementWidth, rfl⟩
    · exact ⟨_, rfl, fun addr => model.start_static addr start⟩
    · exact ⟨_, rfl, fun addr => model.start_packed addr start elementWidth⟩
  obtain ⟨offsetValue, hvalue, hstart⟩ := hresolve
  simp only [ExecutionUnit.execInstruction, hwidth, if_false, hvalue,
    Option.bind_eq_bind, Option.bind_some, Option.pure_def, Option.bind_eq_some_iff,
    Option.some.injEq] at h
  obtain ⟨value, hvalue, rfl⟩ := h
  refine ⟨value, offsetValue, hvalue, rfl, ?_, rfl⟩
  simp only [State.perform, BitModel.machine, BitModel.perform, hstart]

theorem exec_store_some (model : BitModel A) (eu : ExecutionUnit A) {s : State A (BitMemory A)}
    {src : RegisterId} (addr : A) (bits : Nat) (triggers : List TriggerIdWithKind) (sites : List Nat)
    (hstart : offset = .static start ∨ ∃ elementWidth, offset = .packedElements start elementWidth)
    {value : SIRValue} (hvalue : s.regs src = some value) :
    ∃ t, eu.execInstruction model.machine s (.store addr offset bits src triggers sites) =
      some t := by
  simp only [ExecutionUnit.execInstruction]
  split
  · exact ⟨_, rfl⟩
  · rcases hstart with rfl | ⟨elementWidth, rfl⟩ <;>
      exact ⟨_, by simp only [SIROffset.resolve, hvalue]; rfl⟩

/-- A store of no bits writes none. -/
theorem exec_static_store (model : BitModel A) (eu : ExecutionUnit A) {s : State A (BitMemory A)}
    {src : RegisterId} (addr : A) (start bits : Nat) (triggers : List TriggerIdWithKind)
    (sites : List Nat) {value : SIRValue} (hvalue : s.regs src = some value) :
    ∃ t, eu.execInstruction model.machine s
        (.store addr (.static start) bits src triggers sites) = some t ∧ t.regs = s.regs ∧
      t.memory = writeBits model s.memory addr start bits value := by
  obtain ⟨t, hexec⟩ := exec_store_some model eu (s := s) addr bits triggers sites (.inl rfl) hvalue
  refine ⟨t, hexec, ?_⟩
  by_cases hbits : bits = 0
  · subst hbits
    simp only [ExecutionUnit.execInstruction, if_true, Option.some.injEq] at hexec
    subst hexec
    refine ⟨rfl, funext fun a => funext fun bit => ?_⟩
    exact (if_neg (by omega)).symm
  · obtain ⟨value', _, hvalue', hregs, hmemory, -⟩ := exec_store (.inl rfl) hbits hexec
    rw [hvalue] at hvalue'
    cases hvalue'
    exact ⟨hregs, hmemory⟩

end Footprint
end Celox.Sir
