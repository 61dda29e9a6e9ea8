import Celox.Analysis.Usize
import Celox.Slt.Node

/-! # Variable selects

`celox-frontend-veryl/src/lowering/bitaccess.rs`: from the indices and the part select of a variable
to a range of its bits. Expressions are opaque; `evalConstexpr` gives the value of the constant ones.
The dimensions are those that `collect_dims` returns. -/
namespace Celox.Lowering
open Celox.Analysis (usizeMax checkedAdd)
open Celox.Slt (BitAccess)

inductive VarSelectOp where
  | colon
  | plusColon
  | minusColon
  | step
  deriving Repr, DecidableEq

structure VarSelect (E : Type) where
  indices : List E
  part : Option (VarSelectOp × E)
  deriving Repr, DecidableEq

/-- `panic` stands for an arithmetic overflow, a division by zero or an index out of bounds. -/
inductive SelectError (E : Type) where
  | illegalContext (feature message : String) (token : Option E)
  | panic
  deriving Repr, DecidableEq

inductive PartSelectGeometry where
  | colon (lsb elements : Nat)
  | plusColon (elements : Nat)
  | minusColon (elements : Nat)
  | step (elements : Nat)
  deriving Repr, DecidableEq

structure SelectGeometry where
  strides : List Nat
  totalWidth : Nat
  /-- The number of indices before the anchor of the part select. -/
  dimensionCount : Nat
  part : Option PartSelectGeometry
  selectedWidth : Nat
  deriving Repr, DecidableEq

/-- `usize::checked_mul`. -/
def checkedMul (a b : Nat) : Option Nat := if a * b ≤ usizeMax then some (a * b) else none

/-- `usize::checked_sub`. -/
def checkedSub (a b : Nat) : Option Nat := if b ≤ a then some (a - b) else none

def checkedDiv (a b : Nat) : Option Nat := if b = 0 then none else some (a / b)

section Select
variable {E α : Type}

/-- `ok_or_else` with `ParserError::illegal_context`. -/
def orIllegal (feature message : String) (token : Option E) :
    Option α → Except (SelectError E) α
  | some a => .ok a
  | none => .error (.illegalContext feature message token)

/-- Arithmetic and indexing without a check of their own. -/
def orPanic : Option α → Except (SelectError E) α
  | some a => .ok a
  | none => .error .panic

def dimensionsToStrides (i : Nat) : List Nat → Except (SelectError E) (List Nat × Nat)
  | [] => .ok ([], 1)
  | dimension :: dims => do
    let (strides, currentStride) ← dimensionsToStrides (i + 1) dims
    if dimension = 0 then
      .error (.illegalContext "variable dimensions" s!"dimension {i} has zero width" none)
    else
      let total ← orIllegal "variable dimensions"
        s!"dimension {dimension} times accumulated stride {currentStride} overflows usize" none
        (checkedMul currentStride dimension)
      .ok (currentStride :: strides, total)

/-- The width of what `i` indices select. -/
def levelWidth (strides : List Nat) (totalWidth i : Nat) : Option Nat :=
  if i = 0 then some totalWidth else strides[i - 1]?

variable (evalConstexpr : E → Option Nat)

def evalConstexprUsize (expr : E) (feature : String) : Except (SelectError E) (Option Nat) :=
  match evalConstexpr expr with
  | none => .ok none
  | some value =>
    if value ≤ usizeMax then .ok (some value)
    else .error (.illegalContext feature "compile-time value cannot be represented as usize"
      (some expr))

def checkedBitAccess (base width : Nat) (feature : String) (token : Option E) :
    Except (SelectError E) BitAccess :=
  if width = 0 then .error (.illegalContext feature "selected width must be nonzero" token)
  else do
    let last ← orPanic (checkedSub width 1)
    let msb ← orIllegal feature "bit range overflows usize" token (checkedAdd base last)
    .ok ⟨base, msb⟩

/-- `select_geometry` without a part select. -/
def indexGeometry (strides : List Nat) (totalWidth totalIndices : Nat) :
    Except (SelectError E) SelectGeometry :=
  if strides.length < totalIndices then
    .error (.illegalContext "variable select"
      s!"{totalIndices} indices exceed the variable's {strides.length} dimensions" none)
  else do
    let selectedWidth ← orIllegal "variable select"
      "selected dimension is absent from the stride table" none
      (levelWidth strides totalWidth totalIndices)
    .ok ⟨strides, totalWidth, totalIndices, none, selectedWidth⟩

/-- The width of the dimension that the part select picks from. -/
def dimensionWidth (strides : List Nat) (totalWidth dimensionCount : Nat) (token : E) :
    Except (SelectError E) Nat :=
  if strides.length ≤ dimensionCount then
    .error (.illegalContext "variable part select"
      s!"part-select dimension {dimensionCount} is outside the {strides.length}-dimension variable"
      (some token))
  else do
    let outer ← orPanic (levelWidth strides totalWidth dimensionCount)
    let inner ← orPanic strides[dimensionCount]?
    orPanic (checkedDiv outer inner)

/-- The test on a constant anchor. -/
def validAnchor (op : VarSelectOp) (anchor range width : Nat) : Bool :=
  match op with
  | .plusColon => (checkedAdd anchor range).any (· ≤ width)
  | .minusColon => anchor < width && (checkedAdd anchor 1).any (range ≤ ·)
  | .step => ((checkedMul anchor range).bind (checkedAdd · range)).any (· ≤ width)
  | .colon => false

def colonGeometry (anchorExpr : E) (anchor : Option Nat) (range width : Nat) :
    Except (SelectError E) PartSelectGeometry := do
  let anchor ← orIllegal "variable part select"
    "colon-select bounds must both be compile-time values" (some anchorExpr) anchor
  if anchor < range ∨ width ≤ anchor then
    .error (.illegalContext "variable part select"
      s!"colon-select [{anchor}:{range}] is outside dimension width {width}" (some anchorExpr))
  else
    let span ← orPanic (checkedSub anchor range)
    let elements ← orPanic (checkedAdd span 1)
    .ok (.colon range elements)

/-- The checks that `+:`, `-:` and `step` share. -/
def checkPart (op : VarSelectOp) (anchorExpr rangeExpr : E) (anchor : Option Nat)
    (range width : Nat) : Except (SelectError E) Unit :=
  if range = 0 then
    .error (.illegalContext "variable part select" "part-select width must be nonzero"
      (some rangeExpr))
  else if width < range then
    .error (.illegalContext "variable part select"
      s!"part-select width {range} exceeds dimension width {width}" (some rangeExpr))
  else
    match anchor with
    | none => .ok ()
    | some anchor =>
      if validAnchor op anchor range width then .ok ()
      else .error (.illegalContext "variable part select"
        s!"part-select anchor {anchor} and width {range} are outside dimension width {width}"
        (some anchorExpr))

def partGeometry (op : VarSelectOp) (anchorExpr rangeExpr : E) (anchor : Option Nat)
    (range width : Nat) : Except (SelectError E) PartSelectGeometry :=
  match op with
  | .colon => colonGeometry anchorExpr anchor range width
  | .plusColon => do
    checkPart .plusColon anchorExpr rangeExpr anchor range width
    .ok (.plusColon range)
  | .minusColon => do
    checkPart .minusColon anchorExpr rangeExpr anchor range width
    .ok (.minusColon range)
  | .step => do
    checkPart .step anchorExpr rangeExpr anchor range width
    .ok (.step range)

def PartSelectGeometry.elements : PartSelectGeometry → Nat
  | .colon _ elements | .plusColon elements | .minusColon elements | .step elements => elements

/-- `select_geometry` with a part select. -/
def partSelectGeometry (strides : List Nat) (totalWidth totalIndices : Nat)
    (anchorExpr : Option E) (op : VarSelectOp) (rangeExpr : E) :
    Except (SelectError E) SelectGeometry := do
  let anchorExpr ← orIllegal "variable part select" "part select is missing its anchor expression"
    (some rangeExpr) anchorExpr
  let dimensionCount ← orIllegal "variable part select"
    "part select is missing its anchor expression" (some rangeExpr) (checkedSub totalIndices 1)
  let width ← dimensionWidth strides totalWidth dimensionCount rangeExpr
  let stride ← orIllegal "variable part select"
    s!"part-select dimension {dimensionCount} is outside the {strides.length}-entry stride table"
    (some rangeExpr) strides[dimensionCount]?
  let range? ← evalConstexprUsize evalConstexpr rangeExpr "variable part-select range"
  let range ← orIllegal "variable part select" "part-select range must be a compile-time value"
    (some rangeExpr) range?
  let anchor ← evalConstexprUsize evalConstexpr anchorExpr "variable part-select anchor"
  let part ← partGeometry op anchorExpr rangeExpr anchor range width
  let selectedWidth ← orIllegal "variable part select"
    s!"select width {part.elements} times stride {stride} overflows usize" (some rangeExpr)
    (checkedMul part.elements stride)
  .ok ⟨strides, totalWidth, dimensionCount, some part, selectedWidth⟩

def selectGeometry (dims : List Nat) (index : List E) (select : VarSelect E) :
    Except (SelectError E) SelectGeometry := do
  let (strides, totalWidth) ← dimensionsToStrides 0 dims
  let totalIndices ← orIllegal "variable select" "index count overflows usize" none
    (checkedAdd index.length select.indices.length)
  match select.part with
  | none => indexGeometry strides totalWidth totalIndices
  | some (op, rangeExpr) =>
    partSelectGeometry evalConstexpr strides totalWidth totalIndices select.indices.getLast? op
      rangeExpr

def getAccessWidth (dims : List Nat) (index : List E) (select : VarSelect E) :
    Except (SelectError E) Nat := do
  let geometry ← selectGeometry evalConstexpr dims index select
  .ok geometry.selectedWidth

/-- A range of the variable that ends before the variable does. -/
def boundedAccess (base width totalWidth : Nat) (message : BitAccess → String) :
    Except (SelectError E) BitAccess := do
  let access ← checkedBitAccess base width "variable select" none
  if totalWidth ≤ access.msb then
    .error (.illegalContext "variable select" (message access) none)
  else .ok access

/-- `get_slice_fallback`: the whole level at the first dynamic index. -/
def getSliceFallback (geometry : SelectGeometry) (base i : Nat) :
    Except (SelectError E) BitAccess := do
  let width ← orIllegal "variable select" s!"fallback dimension {i} is outside the stride table" none
    (levelWidth geometry.strides geometry.totalWidth i)
  boundedAccess base width geometry.totalWidth fun access =>
    s!"dynamic fallback range [{access.msb}:{access.lsb}] is outside width {geometry.totalWidth}"

/-- The loop over the indices: a fallback range, or `base_offset` and `processed_count` behind it. -/
def indexLoop (geometry : SelectGeometry) :
    Nat → Nat → Nat → List E → Except (SelectError E) (BitAccess ⊕ Nat × Nat)
  | _, baseOffset, processedCount, [] => .ok (.inr (baseOffset, processedCount))
  | i, baseOffset, processedCount, indexVal :: rest => do
    let idx ← evalConstexprUsize evalConstexpr indexVal "variable select index"
    match idx, geometry.strides[i]? with
    | some idx, some stride =>
      let term ← orIllegal "variable select" s!"index {idx} times stride {stride} overflows usize"
        (some indexVal) (checkedMul idx stride)
      let baseOffset ← orIllegal "variable select" "selected bit offset overflows usize"
        (some indexVal) (checkedAdd baseOffset term)
      indexLoop geometry (i + 1) baseOffset (processedCount + 1) rest
    | some _, none => indexLoop geometry (i + 1) baseOffset processedCount rest
    | none, _ =>
      let access ← getSliceFallback geometry baseOffset i
      .ok (.inl access)

/-- `(lsb_rel, msb_rel)`, where `last` is `weight - 1`. -/
def relativeRange (op : VarSelectOp) (anchor val weight last : Nat) : Option Nat × Option Nat :=
  match op with
  | .colon => (checkedMul val weight, (checkedMul anchor weight).bind (checkedAdd · last))
  | .plusColon =>
    (checkedMul anchor weight,
      ((checkedAdd anchor val).bind (checkedMul · weight)).bind (checkedSub · 1))
  | .minusColon =>
    let msb := (checkedMul anchor weight).bind (checkedAdd · last)
    let span := checkedMul val weight
    (msb.bind fun msb => span.bind fun span => (checkedAdd msb 1).bind (checkedSub · span), msb)
  | .step =>
    let actualLsb := checkedMul anchor val
    (actualLsb.bind (checkedMul · weight),
      ((actualLsb.bind (checkedAdd · val)).bind (checkedMul · weight)).bind (checkedSub · 1))

/-- The range of a part select whose anchor and range are constants. -/
def partAccess (geometry : SelectGeometry) (baseOffset processedCount : Nat) (anchorExpr : E)
    (op : VarSelectOp) (anchor val : Nat) : Except (SelectError E) BitAccess := do
  let weight ← orIllegal "variable select"
    (s!"part-select dimension {processedCount} is outside the " ++
      s!"{geometry.strides.length}-entry stride table")
    (some anchorExpr) geometry.strides[processedCount]?
  if weight = 0 then
    .error (.illegalContext "variable select" "part-select stride is zero" (some anchorExpr))
  else
    let last ← orPanic (checkedSub weight 1)
    let relative := relativeRange op anchor val weight last
    let (lsbRel, msbRel) ← orIllegal "variable select"
      "part-select range overflows or underflows usize" (some anchorExpr)
      (relative.1.bind fun lsb => relative.2.map (lsb, ·))
    let lsb ← orIllegal "variable select" "part-select LSB overflows usize" (some anchorExpr)
      (checkedAdd baseOffset lsbRel)
    let msb ← orIllegal "variable select" "part-select MSB overflows usize" (some anchorExpr)
      (checkedAdd baseOffset msbRel)
    if msb < lsb ∨ geometry.totalWidth ≤ msb then
      .error (.illegalContext "variable select"
        s!"selected range [{msb}:{lsb}] is outside width {geometry.totalWidth}" (some anchorExpr))
    else .ok ⟨lsb, msb⟩

/-- What comes behind the loop over the indices. -/
def selectBehind (geometry : SelectGeometry) (select : VarSelect E)
    (baseOffset processedCount : Nat) : Except (SelectError E) BitAccess :=
  match select.part with
  | some (op, rangeExpr) => do
    let anchorExpr ← orIllegal "variable select" "part select is missing its anchor expression"
      (some rangeExpr) select.indices.getLast?
    let anchor ← evalConstexprUsize evalConstexpr anchorExpr "variable select anchor"
    match anchor with
    | none => getSliceFallback geometry baseOffset processedCount
    | some anchor =>
      let val ← evalConstexprUsize evalConstexpr rangeExpr "variable select range"
      match val with
      | none => getSliceFallback geometry baseOffset processedCount
      | some val => partAccess geometry baseOffset processedCount anchorExpr op anchor val
  | none => do
    let width ← orIllegal "variable select" "selected dimension is outside the stride table" none
      (levelWidth geometry.strides geometry.totalWidth processedCount)
    boundedAccess baseOffset width geometry.totalWidth fun access =>
      s!"selected range [{access.msb}:{access.lsb}] is outside width {geometry.totalWidth}"

def evalVarSelectWithGeometry (index : List E) (select : VarSelect E) (geometry : SelectGeometry) :
    Except (SelectError E) BitAccess := do
  let reached ← indexLoop evalConstexpr geometry 0 0 0
    ((index ++ select.indices).take geometry.dimensionCount)
  match reached with
  | .inl access => .ok access
  | .inr (baseOffset, processedCount) =>
    selectBehind evalConstexpr geometry select baseOffset processedCount

def evalVarSelect (dims : List Nat) (index : List E) (select : VarSelect E) :
    Except (SelectError E) BitAccess := do
  let geometry ← selectGeometry evalConstexpr dims index select
  evalVarSelectWithGeometry evalConstexpr index select geometry

end Select
end Celox.Lowering
