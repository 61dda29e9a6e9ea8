import Celox.Sir.Syntax

/-! # Running an execution unit

One instruction or terminator at a time, from the entry block on. Values are a payload with a mask
of unknown bits. The operators are given for known operands; what they make of unknown bits, and
what the memory does, is left open. -/
namespace Celox.Sir

/-- An offset with the values of its registers. -/
inductive OffsetValue where
  | static (bitOffset : Nat)
  | dynamic (value : SIRValue)
  | element (index : SIRValue) (elementWidth bitOffset : Nat) (dynamicBitOffset : Option SIRValue)
  | packedElements (bitOffset elementWidth : Nat)
deriving DecidableEq, Repr

/-- What an instruction does outside the registers. A zero-width store only triggers. -/
inductive Effect (A : Type) where
  | store (addr : A) (offset : OffsetValue) (bits : Nat) (value : SIRValue)
      (triggers : List TriggerIdWithKind) (combCaptureSites : List Nat)
  | trigger (addr : A) (triggers : List TriggerIdWithKind) (combCaptureSites : List Nat)
  | commit (src dst : A) (offset : OffsetValue) (bits : Nat) (triggers : List TriggerIdWithKind)
  | runtimeEvent (siteId : Nat) (args : List SIRValue)
  | combCaptureEvent (siteId : Nat) (args : List SIRValue) (fatalErrorCode : Option Int)
      (consumeEnabled : Bool)
  | combCaptureEnableIfChanged (old new : SIRValue) (sites : List Nat)
deriving DecidableEq, Repr

/-- What is left open: the operators where they are not given here, which values a branch
takes as true, and a memory of type `S`. -/
structure Machine (A S : Type) where
  binary : BinaryOp → RegisterType → RegisterType → RegisterType → SIRValue → SIRValue → SIRValue
  unary : UnaryOp → RegisterType → RegisterType → SIRValue → SIRValue
  truthy : RegisterType → SIRValue → Bool
  load : S → A → OffsetValue → Nat → SIRValue
  perform : S → Effect A → S

/-! ## Operators -/

def SIRValue.isZero (value : SIRValue) : Bool := value.payload = 0 && value.mask = 0

/-- A shift amount beyond `usize` shifts everything out. -/
def shiftLeft (value amount width : Nat) : Nat :=
  if usizeMax < amount then 0 else value <<< amount % 2 ^ width

def shiftRight (value amount : Nat) : Nat := if usizeMax < amount then 0 else value >>> amount

/-- With copies of the sign bit behind the most significant bit. -/
def arithmeticShiftRight (value amount width : Nat) : Nat :=
  if value < 2 ^ (width - 1) then shiftRight value amount
  else 2 ^ width - 1 - shiftRight (2 ^ width - 1 - value) amount

def bitCount (value : Nat) : Nat := ((List.range (bitLength value)).filter value.testBit).length

/-- The operators that are given for known operands of one width. -/
def knownBinary (op : BinaryOp) (width lhs rhs : Nat) : Option Nat :=
  match op with
  | .add => some ((lhs + rhs) % 2 ^ width)
  | .sub => some ((lhs + 2 ^ width - rhs) % 2 ^ width)
  | .mul => some (lhs * rhs % 2 ^ width)
  | .and => some (lhs &&& rhs)
  | .or => some (lhs ||| rhs)
  | .xor => some (lhs ^^^ rhs)
  | .shl => some (shiftLeft lhs rhs width)
  | .shr => some (shiftRight lhs rhs)
  | .sar => some (arithmeticShiftRight lhs rhs width)
  | _ => none

def knownUnary (op : UnaryOp) (width src : Nat) : Option Nat :=
  match op with
  | .minus => some ((2 ^ width - src) % 2 ^ width)
  | .or => some (if src = 0 then 0 else 1)
  | .xor => some (bitCount src % 2)
  | .popCount => some (bitCount src)
  | _ => none

section Eval
variable {A S : Type} (m : Machine A S)

def evalBinary (op : BinaryOp) (dst lhsType rhsType : RegisterType) (lhs rhs : SIRValue) :
    SIRValue :=
  match knownBinary op dst.width lhs.payload rhs.payload with
  | some payload =>
    if lhs.mask = 0 ∧ rhs.mask = 0 then ⟨payload, 0⟩ else m.binary op dst lhsType rhsType lhs rhs
  | none => m.binary op dst lhsType rhsType lhs rhs

def evalUnary (op : UnaryOp) (dst srcType : RegisterType) (src : SIRValue) : SIRValue :=
  match op with
  | .ident => src
  | .toTwoState => ⟨src.payload &&& ((2 ^ dst.width - 1) ^^^ src.mask), 0⟩
  | _ =>
    match knownUnary op dst.width src.payload with
    | some payload => if src.mask = 0 then ⟨payload, 0⟩ else m.unary op dst srcType src
    | none => m.unary op dst srcType src

end Eval

/-- First operand most significant. -/
def evalConcat (args : List (RegisterType × SIRValue)) : SIRValue :=
  args.foldl (fun value arg =>
    ⟨value.payload <<< arg.1.width ||| arg.2.payload, value.mask <<< arg.1.width ||| arg.2.mask⟩)
    ⟨0, 0⟩

def evalSlice (src : SIRValue) (offset width : Nat) : SIRValue :=
  ⟨src.payload >>> offset &&& (2 ^ width - 1), src.mask >>> offset &&& (2 ^ width - 1)⟩

/-- A known one selects; without one, an unknown bit keeps the bits on which both arms agree and
makes the others unknown. -/
def evalMux (cond thenVal elseVal : SIRValue) : SIRValue :=
  if cond.payload &&& cond.mask ≠ cond.payload then thenVal
  else if cond.mask = 0 then elseVal
  else
    let differing := (thenVal.payload ^^^ elseVal.payload) ||| (thenVal.mask ^^^ elseVal.mask)
    ⟨thenVal.payload ||| differing, thenVal.mask ||| differing⟩

/-! ## Steps -/

abbrev Registers := RegisterId → Option SIRValue

structure State (A S : Type) where
  regs : Registers
  memory : S
  trace : List (Effect A)

/-- The effect as the last one of the trace. -/
def State.perform {A S : Type} (m : Machine A S) (s : State A S) (effect : Effect A) : State A S :=
  { s with memory := m.perform s.memory effect, trace := s.trace ++ [effect] }

/-- The bits below a width. -/
def SIRValue.cut (value : SIRValue) (width : Nat) : SIRValue :=
  ⟨value.payload % 2 ^ width, value.mask % 2 ^ width⟩

/-- What a register keeps of a value: as many bits as its type has. -/
def ExecutionUnit.kept {A : Type} (eu : ExecutionUnit A) (dst : RegisterId) (value : SIRValue) :
    SIRValue :=
  match eu.registerMap.lookup dst with
  | some type => value.cut type.width
  | none => value

def ExecutionUnit.assign {A S : Type} (eu : ExecutionUnit A) (s : State A S) (dst : RegisterId)
    (value : SIRValue) : State A S :=
  { s with regs := Function.update s.regs dst (some (eu.kept dst value)) }

def SIROffset.resolve (regs : Registers) : SIROffset → Option OffsetValue
  | .static bitOffset => some (.static bitOffset)
  | .dynamic register => (regs register).map .dynamic
  | .element index elementWidth bitOffset none =>
    (regs index).map fun value => .element value elementWidth bitOffset none
  | .element index elementWidth bitOffset (some dynamicBitOffset) => do
    return .element (← regs index) elementWidth bitOffset (some (← regs dynamicBitOffset))
  | .packedElements bitOffset elementWidth => some (.packedElements bitOffset elementWidth)

section Step
variable {A S : Type} (m : Machine A S) (eu : ExecutionUnit A)

/-- A register with its type. -/
def ExecutionUnit.operand (regs : Registers) (reg : RegisterId) :
    Option (RegisterType × SIRValue) := do
  return (← eu.registerMap.lookup reg, ← regs reg)

/-- `none` where a register has no value or no type. -/
def ExecutionUnit.execInstruction (s : State A S) : SIRInstruction A → Option (State A S)
  | .imm dst value => some (eu.assign s dst value)
  | .binary dst lhs op rhs => do
    let dstType ← eu.registerMap.lookup dst
    let (lhsType, lhsValue) ← eu.operand s.regs lhs
    let (rhsType, rhsValue) ← eu.operand s.regs rhs
    return eu.assign s dst (evalBinary m op dstType lhsType rhsType lhsValue rhsValue)
  | .unary dst op src => do
    let dstType ← eu.registerMap.lookup dst
    let (srcType, value) ← eu.operand s.regs src
    return eu.assign s dst (evalUnary m op dstType srcType value)
  | .load dst addr offset bits => do
    return eu.assign s dst (m.load s.memory addr (← offset.resolve s.regs) bits)
  | .store addr offset bits src triggers combCaptureSites =>
    if bits = 0 then some (s.perform m (.trigger addr triggers combCaptureSites))
    else do
      let offsetValue ← offset.resolve s.regs
      let value ← s.regs src
      return s.perform m (.store addr offsetValue bits value triggers combCaptureSites)
  | .commit src dst offset bits triggers => do
    return s.perform m (.commit src dst (← offset.resolve s.regs) bits triggers)
  | .concat dst args => do
    return eu.assign s dst (evalConcat (← args.mapM (eu.operand s.regs)))
  | .slice dst src offset width => do
    return eu.assign s dst (evalSlice (← s.regs src) offset width)
  | .mux dst cond thenVal elseVal => do
    return eu.assign s dst (evalMux (← s.regs cond) (← s.regs thenVal) (← s.regs elseVal))
  | .runtimeEvent siteId args => do
    return s.perform m (.runtimeEvent siteId (← args.mapM s.regs))
  | .combCaptureEvent siteId args fatalErrorCode consumeEnabled => do
    return s.perform m
      (.combCaptureEvent siteId (← args.mapM s.regs) fatalErrorCode consumeEnabled)
  | .combCaptureEnableIfChanged old new sites => do
    return s.perform m (.combCaptureEnableIfChanged (← s.regs old) (← s.regs new) sites)

/-- The next instruction of a block, or behind the last one its terminator. -/
structure Config (A S : Type) where
  block : BlockId
  index : Nat
  state : State A S

inductive Outcome where
  | returned
  | error (code : Int)
  | stuck
deriving DecidableEq, Repr

inductive Next (A S : Type) where
  | goto (config : Config A S)
  | done (outcome : Outcome) (state : State A S)

/-- The arguments of an edge are read before the first parameter is assigned. -/
def ExecutionUnit.enter (s : State A S) (target : BlockId) (args : List RegisterId) :
    Next A S :=
  match eu.blocks.lookup target, args.mapM s.regs with
  | some block, some values =>
    if block.params.length = values.length then
      .goto ⟨target, 0, { s with
        regs := (block.params.zip values).foldl (fun regs e => Function.update regs e.1 (some e.2))
          s.regs }⟩
    else .done .stuck s
  | _, _ => .done .stuck s

def ExecutionUnit.execTerminator (s : State A S) : SIRTerminator → Next A S
  | .jump target args => eu.enter s target args
  | .branch cond trueBlock falseBlock =>
    match eu.operand s.regs cond with
    | none => .done .stuck s
    | some (type, value) =>
      if m.truthy type value then eu.enter s trueBlock.1 trueBlock.2
      else eu.enter s falseBlock.1 falseBlock.2
  | .switch selector cases default =>
    match s.regs selector with
    | none => .done .stuck s
    | some value =>
      match cases.find? fun case => value = ⟨case.value, 0⟩ with
      | some case => eu.enter s case.target []
      | none => eu.enter s default []
  | .ret => .done .returned s
  | .error code => .done (.error code) s

def ExecutionUnit.step (c : Config A S) : Next A S :=
  match eu.blocks.lookup c.block with
  | none => .done .stuck c.state
  | some block =>
    match block.instructions[c.index]? with
    | some inst =>
      match eu.execInstruction m c.state inst with
      | some s => .goto ⟨c.block, c.index + 1, s⟩
      | none => .done .stuck c.state
    | none => eu.execTerminator m c.state block.terminator

/-- No register has a value at the entry. -/
def ExecutionUnit.start (memory : S) (trace : List (Effect A)) : Config A S :=
  ⟨eu.entryBlockId, 0, ⟨fun _ => none, memory, trace⟩⟩

/-- The configurations of the runs of a unit. -/
inductive ExecutionUnit.Reached : Config A S → Prop
  | start (memory : S) : Reached (eu.start memory [])
  | step {c c' : Config A S} : Reached c → eu.step m c = .goto c' → Reached c'

end Step
end Celox.Sir
