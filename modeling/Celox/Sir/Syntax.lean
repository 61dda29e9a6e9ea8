import Mathlib

/-! # Simulator IR

Execution units are control-flow graphs over typed registers in SSA form with block parameters.
Addresses are a type parameter. Block and register ids are `usize` in the source; they are unbounded
here, as the units a program has are far below the limit. -/
namespace Celox.Sir

/-- A hash map with its entries in some order. -/
abbrev Table (K V : Type) := AList fun _ : K => V

abbrev BlockId := Nat
abbrev RegisterId := Nat

/-- Largest `usize`. -/
def usizeMax : Nat := 2 ^ 64 - 1

def checkedAdd (a b : Nat) : Option Nat := if a + b ≤ usizeMax then some (a + b) else none

inductive RegisterType where
  | logic (width : Nat)
  | bit (width : Nat) (signed : Bool)
deriving DecidableEq, Repr

def RegisterType.width : RegisterType → Nat
  | .logic width => width
  | .bit width _ => width

def RegisterType.isSigned : RegisterType → Bool
  | .bit _ signed => signed
  | .logic _ => false

/-- The `Debug` text of a type. -/
def RegisterType.debug : RegisterType → String
  | .logic width => "Logic \x7b width: " ++ toString width ++ " \x7d"
  | .bit width signed =>
    "Bit \x7b width: " ++ toString width ++ ", signed: " ++ toString signed ++ " \x7d"

structure SIRValue where
  payload : Nat
  mask : Nat
deriving DecidableEq, Repr, Inhabited

inductive SIROffset where
  | static (bitOffset : Nat)
  | dynamic (register : RegisterId)
  /-- One element of an unpacked array; `index` counts elements. -/
  | element (index : RegisterId) (elementWidth bitOffset : Nat)
      (dynamicBitOffset : Option RegisterId)
  | packedElements (bitOffset elementWidth : Nat)
deriving DecidableEq, Repr

/-- The constant offset in the packed logical bit space of the object. -/
def SIROffset.constantBitOffset : SIROffset → Option Nat
  | .static bitOffset => some bitOffset
  | .packedElements bitOffset _ => some bitOffset
  | .dynamic _ => none
  | .element .. => none

/-- The registers an offset reads, in order. -/
def SIROffset.dynamicRegisters : SIROffset → List RegisterId
  | .static _ => []
  | .dynamic register => [register]
  | .element index _ _ dynamicBitOffset => index :: dynamicBitOffset.toList
  | .packedElements _ _ => []

inductive BinaryOp where
  | add | sub | mul | divU | divS | remU | remS
  | and | or | xor | shl | shr | sar
  | eq | ne | eqCase | neCase
  | ltU | ltS | leU | leS | gtU | gtS | geU | geS
  | logicAnd | logicOr | eqWildcard | neWildcard
deriving DecidableEq, Repr

inductive UnaryOp where
  | ident | toTwoState | minus | bitNot | logicNot
  | and | or | xor | popCount | countLeadingZeros | countTrailingZeros
deriving DecidableEq, Repr

def UnaryOp.name : UnaryOp → String
  | .ident => "Ident"
  | .toTwoState => "ToTwoState"
  | .minus => "Minus"
  | .bitNot => "BitNot"
  | .logicNot => "LogicNot"
  | .and => "And"
  | .or => "Or"
  | .xor => "Xor"
  | .popCount => "PopCount"
  | .countLeadingZeros => "CountLeadingZeros"
  | .countTrailingZeros => "CountTrailingZeros"

/-- Number of bits up to the highest one. -/
def bitLength (value : Nat) : Nat := if value = 0 then 0 else Nat.log2 value + 1

def UnaryOp.resultWidth (op : UnaryOp) (operandWidth : Nat) : Nat :=
  match op with
  | .logicNot | .and | .or | .xor => 1
  | .ident | .toTwoState | .minus | .bitNot => operandWidth
  | .popCount | .countLeadingZeros | .countTrailingZeros => bitLength operandWidth

inductive DomainKind where
  | clockPosedge | clockNegedge | resetAsyncHigh | resetAsyncLow | other
deriving DecidableEq, Repr

structure TriggerIdWithKind where
  kind : DomainKind
  id : Nat
deriving DecidableEq, Repr

inductive SIRInstruction (A : Type) where
  | imm (dst : RegisterId) (value : SIRValue)
  | binary (dst lhs : RegisterId) (op : BinaryOp) (rhs : RegisterId)
  | unary (dst : RegisterId) (op : UnaryOp) (src : RegisterId)
  | load (dst : RegisterId) (addr : A) (offset : SIROffset) (bits : Nat)
  | store (addr : A) (offset : SIROffset) (bits : Nat) (src : RegisterId)
      (triggers : List TriggerIdWithKind) (combCaptureSites : List Nat)
  /-- Copies from the region of `src` to that of `dst` at the same offset. -/
  | commit (src dst : A) (offset : SIROffset) (bits : Nat) (triggers : List TriggerIdWithKind)
  /-- First operand most significant. -/
  | concat (dst : RegisterId) (args : List RegisterId)
  | slice (dst src : RegisterId) (offset width : Nat)
  | mux (dst cond thenVal elseVal : RegisterId)
  | runtimeEvent (siteId : Nat) (args : List RegisterId)
  | combCaptureEvent (siteId : Nat) (args : List RegisterId) (fatalErrorCode : Option Int)
      (consumeEnabled : Bool)
  | combCaptureEnableIfChanged (old new : RegisterId) (sites : List Nat)
deriving DecidableEq, Repr

structure SIRSwitchCase where
  value : Nat
  target : BlockId
deriving DecidableEq, Repr

inductive SIRTerminator where
  | jump (target : BlockId) (args : List RegisterId)
  | branch (cond : RegisterId) (trueBlock falseBlock : BlockId × List RegisterId)
  | switch (selector : RegisterId) (cases : List SIRSwitchCase) (default : BlockId)
  | ret
  | error (code : Int)
deriving DecidableEq, Repr

structure BasicBlock (A : Type) where
  id : BlockId
  params : List RegisterId
  instructions : List (SIRInstruction A)
  terminator : SIRTerminator
deriving DecidableEq, Repr

structure ExecutionUnit (A : Type) where
  entryBlockId : BlockId
  blocks : Table BlockId (BasicBlock A)
  registerMap : Table RegisterId RegisterType

variable {A : Type}

def SIRInstruction.definedRegister : SIRInstruction A → Option RegisterId
  | .imm dst _ | .binary dst _ _ _ | .unary dst _ _ | .load dst _ _ _ | .concat dst _
  | .slice dst _ _ _ | .mux dst _ _ _ => some dst
  | .store .. | .commit .. | .runtimeEvent .. | .combCaptureEvent ..
  | .combCaptureEnableIfChanged .. => none

/-- A zero-width store only triggers, and reads no register. -/
def SIRInstruction.uses : SIRInstruction A → List RegisterId
  | .imm .. => []
  | .binary _ lhs _ rhs => [lhs, rhs]
  | .unary _ _ src => [src]
  | .load _ _ offset _ => offset.dynamicRegisters
  | .store _ offset bits src _ _ => if bits = 0 then [] else offset.dynamicRegisters ++ [src]
  | .commit _ _ offset _ _ => offset.dynamicRegisters
  | .concat _ args | .runtimeEvent _ args | .combCaptureEvent _ args _ _ => args
  | .slice _ src _ _ => [src]
  | .mux _ cond thenVal elseVal => [cond, thenVal, elseVal]
  | .combCaptureEnableIfChanged old new _ => [old, new]

def SIRTerminator.uses : SIRTerminator → List RegisterId
  | .jump _ args => args
  | .branch cond trueBlock falseBlock => cond :: trueBlock.2 ++ falseBlock.2
  | .switch selector _ _ => [selector]
  | .ret | .error _ => []

def SIRTerminator.successorIds : SIRTerminator → List BlockId
  | .jump target _ => [target]
  | .branch _ trueBlock falseBlock => [trueBlock.1, falseBlock.1]
  | .switch _ cases default => cases.map (·.target) ++ [default]
  | .ret | .error _ => []

/-- The edges of a terminator with the registers each passes. -/
def SIRTerminator.edges : SIRTerminator → List (BlockId × List RegisterId)
  | .jump target args => [(target, args)]
  | .branch _ trueBlock falseBlock => [trueBlock, falseBlock]
  | .switch _ cases default => cases.map (fun case => (case.target, [])) ++ [(default, [])]
  | .ret | .error _ => []

theorem SIRTerminator.edges_fst (terminator : SIRTerminator) :
    terminator.edges.map Prod.fst = terminator.successorIds := by
  cases terminator <;> simp [edges, successorIds]

end Celox.Sir
