import Celox.Data.Words
import Celox.Sir.Syntax
import Celox.Slt.ArenaSound

/-! # Constant trees

`eval_const_expr` beside the values of trees. Its operators are given for every operand that is known;
the others, the variables and the loops are left open. -/
namespace Celox.Slt
open Celox.Data (words countOnes)
open Celox.Sir (SIRValue)

/-! ## The evaluator -/

def isConstNode {A : Type} (node : SLTNode A) (isConst : NodeId → Bool) : Bool :=
  match node with
  | .constant .. => true
  | .slice expr _ => isConst expr
  | .binary lhs _ rhs => isConst lhs && isConst rhs
  | .unary _ inner => isConst inner
  | .concat parts => parts.all fun part => isConst part.1
  | _ => false

def isConstExpr {A : Type} (arena : NodeArena A) : NodeId → Bool :=
  recurse arena.nodes false fun _ => isConstNode

structure Evaluated where
  payload : Nat
  mask : Nat
  width : Nat
  deriving Repr, DecidableEq

def widthMask (width : Nat) : Nat := if 0 < width then 1 <<< width - 1 else 0

/-- The operators on payloads without unknown bits. -/
def constBinary (op : BinaryOp) (mask lhs rhs : Nat) : Option Nat :=
  match op with
  | .and => some (lhs &&& rhs)
  | .or => some (lhs ||| rhs)
  | .xor => some (lhs ^^^ rhs)
  | .add => some ((lhs + rhs) &&& mask)
  | .sub => some ((mask + 1 + lhs - rhs) &&& mask)
  | .shl => some (match (words rhs).head? with
      | some shift => (lhs <<< shift) &&& mask
      | none => 0)
  | .shr => some (match (words rhs).head? with
      | some shift => lhs >>> shift
      | none => 0)
  | _ => none

/-- The zeros behind the lowest one of the words, if there is a one. -/
def constTrailingZeros (v : Nat) : Option Nat :=
  (words v).zipIdx.findSome? fun (digit, index) =>
    (trailingZeros digit).map (index * 64 + ·)

/-- The operators on a payload without unknown bits. -/
def constUnary (op : UnaryOp) (mask innerWidth v : Nat) : Option Nat :=
  match op with
  | .bitNot => some (mask ^^^ v)
  | .popCount => some ((words v).map countOnes).sum
  | .countLeadingZeros => some (innerWidth - v.size)
  | .countTrailingZeros => some (min ((constTrailingZeros v).getD innerWidth) innerWidth)
  | _ => none

/-- `LogicNot` and the reduction `Or`, which a known one decides. -/
def constTruth (op : UnaryOp) (inner : Evaluated) : Nat × Nat :=
  let innerMask := widthMask inner.width
  let unknown := inner.mask &&& innerMask
  let known := innerMask ^^^ unknown
  let definiteOnes := inner.payload &&& innerMask &&& known
  if definiteOnes ≠ 0 then (if op = .logicNot then 0 else 1, 0)
  else if unknown ≠ 0 then (1, 1)
  else (if op = .logicNot then 1 else 0, 0)

def evalConstNode {A : Type} (width : Nat) (node : SLTNode A) (eval : NodeId → Evaluated) :
    Evaluated :=
  match node with
  | .constant value mask _ _ => ⟨value, mask, width⟩
  | .slice expr access =>
    let inner := eval expr
    let sliceWidth := access.msb - access.lsb + 1
    let sliceMask := 1 <<< sliceWidth - 1
    ⟨(inner.payload >>> access.lsb) &&& sliceMask, (inner.mask >>> access.lsb) &&& sliceMask,
      sliceWidth⟩
  | .binary lhs op rhs =>
    if (eval lhs).mask ≠ 0 ∨ (eval rhs).mask ≠ 0 then ⟨0, widthMask width, width⟩
    else
      match constBinary op (widthMask width) (eval lhs).payload (eval rhs).payload with
      | none => ⟨0, widthMask width, width⟩
      | some result => ⟨result &&& widthMask width, 0, width⟩
  | .unary .toTwoState inner =>
    ⟨(eval inner).payload &&& (widthMask width ^^^ ((eval inner).mask &&& widthMask width)), 0,
      width⟩
  | .unary op inner =>
    if op = .logicNot ∨ op = .or then
      let (value, mask) := constTruth op (eval inner)
      ⟨value, mask, width⟩
    else if (eval inner).mask ≠ 0 then ⟨0, widthMask width, width⟩
    else
      match constUnary op (widthMask width) (eval inner).width (eval inner).payload with
      | none => ⟨0, widthMask width, width⟩
      | some result => ⟨result &&& widthMask width, 0, width⟩
  | _ => ⟨0, widthMask width, width⟩

def evalConstExpr {A : Type} (arena : NodeArena A) : NodeId → Evaluated :=
  recurse arena.nodes ⟨0, 0, 0⟩ fun id => evalConstNode (arena.width id)

/-! ## The values of trees -/

/-- The operators that are evaluated, with a width to which the result is cut. -/
def exactBinary (op : BinaryOp) (width lhs rhs : Nat) : Option Nat :=
  match op with
  | .and => some (lhs &&& rhs)
  | .or => some (lhs ||| rhs)
  | .xor => some (lhs ^^^ rhs)
  | .add => some (lhs + rhs)
  | .sub => some (lhs + 2 ^ width - rhs)
  | .shl => some (lhs <<< rhs)
  | .shr => some (lhs >>> rhs)
  | _ => none

def exactUnary (op : UnaryOp) (width v : Nat) : Option Nat :=
  match op with
  | .bitNot => some ((2 ^ width - 1) ^^^ v)
  | .popCount => some (countOnes v)
  | .countLeadingZeros => some (width - v.size)
  | .countTrailingZeros => some ((trailingZeros v).getD width)
  | _ => none

/-- The bits that are known to be one. -/
def knownOnes (width : Nat) (v : SIRValue) : Nat := v.payload &&& ((2 ^ width - 1) ^^^ v.mask)

/-- Whether a value has a one, if that is known. -/
def truthOf (width : Nat) (v : SIRValue) : Option Bool :=
  if knownOnes width v ≠ 0 then some true else if v.mask ≠ 0 then none else some false

/-- A truth value, unknown as the bit X. -/
def truthBit : Option Bool → SIRValue
  | some true => ⟨1, 0⟩
  | some false => ⟨0, 0⟩
  | none => ⟨1, 1⟩

/-- What is left open: variables and loops in some state, and operators where they are not given
here. -/
structure Meaning where
  input : NodeId → List SIRValue → SIRValue
  fold : NodeId → SIRValue
  mux : SIRValue → SIRValue → SIRValue → SIRValue
  binary : BinaryOp → Nat → Nat → SIRValue → SIRValue → SIRValue
  unary : UnaryOp → Nat → SIRValue → SIRValue

/-- The first part in the high bits. -/
def joinParts : List (SIRValue × Nat) → SIRValue
  | [] => ⟨0, 0⟩
  | (v, width) :: rest =>
    let low := (rest.map Prod.snd).sum
    ⟨(v.payload % 2 ^ width) <<< low ||| (joinParts rest).payload,
      (v.mask % 2 ^ width) <<< low ||| (joinParts rest).mask⟩

def truncate (width : Nat) (v : SIRValue) : SIRValue := ⟨v.payload % 2 ^ width, v.mask % 2 ^ width⟩

section Values
variable {A : Type} (M : Meaning) (arena : NodeArena A)

def binaryValue (op : BinaryOp) (lhsWidth rhsWidth : Nat) (lhs rhs : SIRValue) : SIRValue :=
  match exactBinary op (op.resultWidth lhsWidth rhsWidth) lhs.payload rhs.payload with
  | some payload =>
    if lhs.mask = 0 ∧ rhs.mask = 0 then ⟨payload, 0⟩ else M.binary op lhsWidth rhsWidth lhs rhs
  | none => M.binary op lhsWidth rhsWidth lhs rhs

def unaryValue (op : UnaryOp) (width : Nat) (v : SIRValue) : SIRValue :=
  match op with
  | .toTwoState => ⟨knownOnes width v, 0⟩
  | .or => truthBit (truthOf width v)
  | .logicNot => truthBit ((truthOf width v).map (!·))
  | op =>
    match exactUnary op width v.payload with
    | some payload => if v.mask = 0 then ⟨payload, 0⟩ else M.unary op width v
    | none => M.unary op width v

def nodeValue (width : NodeId → Nat) (id : NodeId) (node : SLTNode A) (value : NodeId → SIRValue) :
    SIRValue :=
  truncate (width id) <|
    match node with
    | .input _ _ index _ => M.input id (index.map fun entry => value entry.node)
    | .constant payload mask _ _ => ⟨payload, mask⟩
    | .binary lhs op rhs => binaryValue M op (width lhs) (width rhs) (value lhs) (value rhs)
    | .unary op inner => unaryValue M op (width inner) (value inner)
    | .mux cond thenExpr elseExpr => M.mux (value cond) (value thenExpr) (value elseExpr)
    | .forFold .. | .forFoldGroup .. => M.fold id
    | .concat parts => joinParts (parts.map fun part => (value part.1, part.2))
    | .slice expr access =>
      ⟨(value expr).payload >>> access.lsb, (value expr).mask >>> access.lsb⟩
    | .capture expr _ => value expr

/-- The value of a tree, of the width of its node. -/
def treeValue : NodeId → SIRValue := recurse arena.nodes ⟨0, 0⟩ (nodeValue M arena.width)

/-! ## What is evaluated -/

/-- A result without unknown bits is the value of the tree. -/
def Faithful (id : NodeId) : Prop :=
  (evalConstExpr arena id).mask = 0 → treeValue M arena id = ⟨(evalConstExpr arena id).payload, 0⟩

def binaryEvaluated (op : BinaryOp) : Bool := (exactBinary op 0 0 0).isSome

def evaluatesNode (id : NodeId) (node : SLTNode A) (evaluates : NodeId → Bool) : Bool :=
  arena.width id = 0 ||
    match node with
    | .constant .. => true
    | .slice expr _ => evaluates expr
    | .binary lhs op rhs => binaryEvaluated op && evaluates lhs && evaluates rhs &&
        (treeValue M arena lhs).mask = 0 && (treeValue M arena rhs).mask = 0
    | .unary .toTwoState _ => true
    | .unary op inner => evaluates inner && (op = .logicNot || op = .or ||
        ((exactUnary op 0 0).isSome && (treeValue M arena inner).mask = 0))
    | _ => false

/-- The tree has operators that are evaluated, on constants, and no unknown bit where one is not
allowed. -/
def evaluates : NodeId → Bool := recurse arena.nodes true (evaluatesNode M arena)

/-- The operands are evaluated and known. -/
structure KnownShift (id : NodeId) (op : BinaryOp) (lhs rhs : NodeId) : Prop where
  node : arena.nodes[id]? = some (.binary lhs op rhs)
  shifts : op = .shl ∨ op = .shr
  evaluated : evaluates M arena lhs = true ∧ evaluates M arena rhs = true
  known : (treeValue M arena lhs).mask = 0 ∧ (treeValue M arena rhs).mask = 0

/-- The trees at whose root the evaluator is wrong. -/
inductive Strays (id : NodeId) : Prop
  | zeroShift {op : BinaryOp} {lhs rhs : NodeId} (shift : KnownShift M arena id op lhs rhs)
      (amount : (treeValue M arena rhs).payload = 0) (value : (treeValue M arena lhs).payload ≠ 0)
  /-- Only the lowest word of the amount is used. -/
  | wideShift {op : BinaryOp} {lhs rhs : NodeId} (shift : KnownShift M arena id op lhs rhs)
      (amount : 2 ^ 64 ≤ (treeValue M arena rhs).payload)
      (value : (exactBinary op (arena.width id) (treeValue M arena lhs).payload
          ((treeValue M arena rhs).payload % 2 ^ 64)).map (· % 2 ^ arena.width id) ≠
        (exactBinary op (arena.width id) (treeValue M arena lhs).payload
          (treeValue M arena rhs).payload).map (· % 2 ^ arena.width id))
  /-- A tree that is not evaluated is taken to be unknown, so to have no known one. -/
  | twoState {inner : NodeId} (node : arena.nodes[id]? = some (.unary .toTwoState inner))
      (unevaluated : evaluates M arena inner = false) (value : (treeValue M arena id).payload ≠ 0)

/-- The trees in a tree. -/
def Within : NodeId → NodeId → Prop :=
  Relation.ReflTransGen fun parent child =>
    ∃ node, arena.nodes[parent]? = some node ∧ child ∈ node.children

end Values
end Celox.Slt
