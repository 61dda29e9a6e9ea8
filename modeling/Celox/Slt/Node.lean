import Mathlib

/-! # Symbolic logic trees

The node arena of `celox-slt/src/node.rs` over the operators and bit ranges of
`celox-design/src/lib.rs`. A `NodeId` is the position of a node. -/
namespace Celox.Slt

/-- A range of bits, both ends included. -/
structure BitAccess where
  lsb : Nat
  msb : Nat
  deriving Repr, DecidableEq

namespace BitAccess

/-- The bits of the range. -/
def Has (a : BitAccess) (i : Nat) : Prop := a.lsb ≤ i ∧ i ≤ a.msb

instance (a : BitAccess) (i : Nat) : Decidable (a.Has i) := inferInstanceAs (Decidable (_ ∧ _))

def width (a : BitAccess) : Nat := a.msb - a.lsb + 1

end BitAccess

structure VarAtomBase (A : Type) where
  id : A
  access : BitAccess
  deriving Repr, DecidableEq

inductive BinaryOp where
  | add | sub | mul | divU | divS | remU | remS | and | or | xor | shl | shr | sar
  | eq | ne | eqCase | neCase | ltU | ltS | leU | leS | gtU | gtS | geU | geS
  | logicAnd | logicOr | eqWildcard | neWildcard
  deriving Repr, DecidableEq

inductive UnaryOp where
  | ident | toTwoState | minus | bitNot | logicNot | and | or | xor
  | popCount | countLeadingZeros | countTrailingZeros
  deriving Repr, DecidableEq

abbrev NodeId := Nat

inductive SLTIndexKind where
  | unpacked (elementWidth : Nat)
  | packed
  deriving Repr, DecidableEq

structure SLTIndex where
  node : NodeId
  stride : Nat
  kind : SLTIndexKind
  deriving Repr, DecidableEq

inductive SLTLoopBound where
  | const (value : Nat)
  | expr (node : NodeId)
  deriving Repr, DecidableEq

inductive SLTStepOp where
  | add | mul | shl | bitOr | bitXor
  deriving Repr, DecidableEq

structure SLTForUpdate (A : Type) where
  target : VarAtomBase A
  expr : NodeId
  deriving Repr, DecidableEq

inductive SLTForFoldResult (A : Type) where
  | state (target : VarAtomBase A)
  | transient (initial update : NodeId)
  deriving Repr, DecidableEq

structure SLTForFoldGroupState (A : Type) where
  target : VarAtomBase A
  initial : NodeId
  update : NodeId
  deriving Repr, DecidableEq

inductive SLTForEffect where
  | event (siteId : Nat) (guard : Option NodeId) (emitOnTrue : Bool) (args : List NodeId)
      (fatalErrorCode : Option Int)
  | runner (node : NodeId)
  deriving Repr, DecidableEq

inductive SLTNode (A : Type) where
  | input (variable_ : A) (signed : Bool) (index : List SLTIndex) (access : BitAccess)
  | constant (value mask width : Nat) (signed : Bool)
  | binary (lhs : NodeId) (op : BinaryOp) (rhs : NodeId)
  | unary (op : UnaryOp) (inner : NodeId)
  | mux (cond thenExpr elseExpr : NodeId)
  | forFold (loopVar : A) (loopWidth : Nat) (loopSigned : Bool) (start stop : SLTLoopBound)
      (inclusive : Bool) (step : Nat) (stepOp : SLTStepOp) (reverse : Bool)
      (result : SLTForFoldResult A) (initials updates : List (SLTForUpdate A))
      (effects : List SLTForEffect) (continueCond : NodeId)
  | forFoldGroup (loopVar : A) (loopWidth : Nat) (loopSigned : Bool) (start step : Int)
      (tripCount : Nat) (entryGuard : NodeId) (states : List (SLTForFoldGroupState A))
  | concat (parts : List (NodeId × Nat))
  | slice (expr : NodeId) (access : BitAccess)
  | capture (expr : NodeId) (key : Nat)
  deriving Repr, DecidableEq

def SLTLoopBound.children : SLTLoopBound → List NodeId
  | .const _ => []
  | .expr node => [node]

def SLTForFoldResult.children {A : Type} : SLTForFoldResult A → List NodeId
  | .state _ => []
  | .transient initial update => [initial, update]

def SLTForEffect.children : SLTForEffect → List NodeId
  | .event _ guard _ args _ => guard.toList ++ args
  | .runner node => [node]

namespace SLTNode
variable {A : Type}

/-- `try_for_each_child` and `push_scheduler_node_children`. -/
def children : SLTNode A → List NodeId
  | .input _ _ index _ => index.map SLTIndex.node
  | .constant .. => []
  | .binary lhs _ rhs => [lhs, rhs]
  | .unary _ inner => [inner]
  | .mux cond thenExpr elseExpr => [cond, thenExpr, elseExpr]
  | .forFold _ _ _ start stop _ _ _ _ result initials updates effects continueCond =>
    start.children ++ stop.children ++ result.children ++ initials.map SLTForUpdate.expr ++
      updates.map SLTForUpdate.expr ++ effects.flatMap SLTForEffect.children ++ [continueCond]
  | .forFoldGroup _ _ _ _ _ _ entryGuard states =>
    entryGuard :: states.flatMap fun state => [state.initial, state.update]
  | .concat parts => parts.map Prod.fst
  | .slice expr _ => [expr]
  | .capture expr _ => [expr]

end SLTNode

namespace BinaryOp

/-- `binary_result_width`. -/
def resultWidth (op : BinaryOp) (lhsWidth rhsWidth : Nat) : Nat :=
  match op with
  | .eqWildcard | .neWildcard | .eq | .ne | .eqCase | .neCase | .ltU | .ltS | .leU | .leS | .gtU
  | .gtS | .geU | .geS | .logicAnd | .logicOr => 1
  | .shl | .shr | .sar => lhsWidth
  | .add | .sub | .mul | .divU | .divS | .remU | .remS | .and | .or | .xor => max lhsWidth rhsWidth

end BinaryOp

def UnaryOp.resultWidth (op : UnaryOp) (operandWidth : Nat) : Nat :=
  match op with
  | .logicNot | .and | .or | .xor => 1
  | .ident | .toTwoState | .minus | .bitNot => operandWidth
  | .popCount | .countLeadingZeros | .countTrailingZeros => operandWidth.size

/-- The width `verify_append` derives from the widths of the nodes before. -/
def SLTNode.widthFrom {A : Type} (widths : List Nat) : SLTNode A → Nat
  | .input _ _ _ access => access.width
  | .constant _ _ width _ => width
  | .binary lhs op rhs => op.resultWidth (widths.getD lhs 0) (widths.getD rhs 0)
  | .unary op inner => op.resultWidth (widths.getD inner 0)
  | .mux _ thenExpr elseExpr => max (widths.getD thenExpr 0) (widths.getD elseExpr 0)
  | .forFold _ _ _ _ _ _ _ _ _ (.state target) _ _ _ _ => target.access.width
  | .forFold _ _ _ _ _ _ _ _ _ (.transient initial _) _ _ _ _ => widths.getD initial 0
  | .forFoldGroup _ _ _ _ _ _ _ states => (states.map fun state => state.target.access.width).sum
  | .concat parts => (parts.map Prod.snd).sum
  | .slice _ access => access.width
  | .capture expr _ => widths.getD expr 0

end Celox.Slt
