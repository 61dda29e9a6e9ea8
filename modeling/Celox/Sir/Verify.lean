import Celox.Sir.Syntax
import Celox.Graph.Search
import Celox.Graph.IterativeDominators
import Celox.Graph.TreeIntervals
import Celox.Data.ExceptList

/-! # The SIR verifier

Structure and types of a unit are checked block by block, then every use has to be dominated by its
definition. The maps are visited in the order of their entries; which error is reported first
depends on it, whether one is reported does not. -/
namespace Celox.Sir
open Celox.Graph

structure SirVerifyError where
  invariant : String
  block : Option BlockId
  instruction : Option Nat
  message : String
deriving DecidableEq, Repr

def functionError (invariant message : String) : SirVerifyError :=
  ⟨invariant, none, none, message⟩

def blockError (invariant : String) (block : BlockId) (message : String) : SirVerifyError :=
  ⟨invariant, some block, none, message⟩

def instructionError (invariant : String) (block : BlockId) (instruction : Nat)
    (message : String) : SirVerifyError :=
  ⟨invariant, some block, some instruction, message⟩

/-- A value in the format `{:#x}`. -/
def hex (value : Nat) : String := "0x" ++ String.ofList (Nat.toDigits 16 value)

section Types
variable {A : Type} (eu : ExecutionUnit A) (block : BlockId)

def registerType (instruction : Option Nat) (reg : RegisterId) :
    Except SirVerifyError RegisterType :=
  match eu.registerMap.lookup reg with
  | some ty => .ok ty
  | none => .error <| match instruction with
    | some index => instructionError "REGISTER.DECLARED" block index
        s!"r{reg} is not present in register_map"
    | none => blockError "REGISTER.DECLARED" block s!"r{reg} is not present in register_map"

def requireRegister (instruction : Option Nat) (reg : RegisterId) : Except SirVerifyError Unit := do
  let _ ← registerType eu block instruction reg
  return ()

def fitsWidth (value width : Nat) : Bool := value = 0 || bitLength value ≤ width

variable (index : Nat)

def sameWidth (lhs rhs : RegisterId) (invariant : String) : Except SirVerifyError Unit := do
  let lhsTy ← registerType eu block (some index) lhs
  let rhsTy ← registerType eu block (some index) rhs
  if lhsTy.width ≠ rhsTy.width then
    .error (instructionError invariant block index
      s!"r{lhs} has width {lhsTy.width}, but r{rhs} has width {rhsTy.width}")

def exactWidth (reg : RegisterId) (expected : Nat) (invariant : String) :
    Except SirVerifyError Unit := do
  let ty ← registerType eu block (some index) reg
  if ty.width ≠ expected then
    .error (instructionError invariant block index
      s!"r{reg} has width {ty.width}, expected {expected}")

def unsignedIfBit (reg : RegisterId) (invariant : String) : Except SirVerifyError Unit := do
  let ty ← registerType eu block (some index) reg
  if ty.isSigned then
    .error (instructionError invariant block index s!"r{reg} is a signed Bit result")

def nonZeroWidth (width : Nat) (invariant : String) : Except SirVerifyError Unit :=
  if width = 0 then .error (instructionError invariant block index "width is zero") else .ok ()

def verifyOffset (offset : SIROffset) (accessWidth : Nat) : Except SirVerifyError Unit := do
  match offset with
  | .static _ => return ()
  | .packedElements bitOffset elementWidth =>
    if elementWidth = 0 then
      .error (instructionError "MEMORY.PACKED_ELEMENTS_WIDTH_NON_ZERO" block index
        "packed-elements element width is zero")
    else match checkedAdd bitOffset accessWidth with
      | none => .error (instructionError "MEMORY.PACKED_ELEMENTS_ACCESS_IN_BOUNDS" block index
          "packed-elements access range overflows usize")
      | some accessEnd =>
        if bitOffset % elementWidth ≠ 0 ∨ accessEnd % elementWidth ≠ 0 then
          .error (instructionError "MEMORY.PACKED_ELEMENTS_ACCESS_ALIGNED" block index
            (s!"packed-elements access [{bitOffset}..{accessEnd}) is not aligned " ++
              s!"to element width {elementWidth}"))
        else .ok ()
  | .dynamic reg => requireRegister eu block (some index) reg
  | .element elementIndex elementWidth bitOffset dynamicBitOffset => do
    requireRegister eu block (some index) elementIndex
    dynamicBitOffset.toList.forM (requireRegister eu block (some index))
    if elementWidth = 0 then
      .error (instructionError "MEMORY.ELEMENT_WIDTH_NON_ZERO" block index
        "unpacked-array element width is zero")
    else match checkedAdd bitOffset accessWidth with
      | none => .error (instructionError "MEMORY.ELEMENT_ACCESS_IN_BOUNDS" block index
          "element access range overflows usize")
      | some accessEnd =>
        if elementWidth < accessEnd then
          .error (instructionError "MEMORY.ELEMENT_ACCESS_IN_BOUNDS" block index
            s!"element access [{bitOffset}..{accessEnd}) exceeds element width {elementWidth}")
        else .ok ()

/-- The widths of all operands together. -/
def concatWidth (args : List RegisterId) : Except SirVerifyError Nat :=
  args.foldlM (fun width arg => do
    let ty ← registerType eu block (some index) arg
    match checkedAdd width ty.width with
    | some width => return width
    | none => .error (instructionError "TYPE.WIDTH_OVERFLOW" block index
        "concat width overflows usize")) 0

def verifyBinaryTypes (dst lhs : RegisterId) (op : BinaryOp) (rhs : RegisterId) :
    Except SirVerifyError Unit := do
  match op with
  | .eq | .ne | .eqCase | .neCase | .ltU | .ltS | .leU | .leS | .gtU | .gtS | .geU | .geS
  | .eqWildcard | .neWildcard =>
    exactWidth eu block index dst 1 "TYPE.COMPARISON_RESULT_WIDTH"
    unsignedIfBit eu block index dst "TYPE.BOOLEAN_RESULT_UNSIGNED"
    sameWidth eu block index lhs rhs "TYPE.COMPARISON_OPERAND_WIDTH"
  | .logicAnd | .logicOr =>
    exactWidth eu block index dst 1 "TYPE.LOGICAL_RESULT_WIDTH"
    unsignedIfBit eu block index dst "TYPE.BOOLEAN_RESULT_UNSIGNED"
    requireRegister eu block (some index) lhs
    requireRegister eu block (some index) rhs
  | .divU | .divS | .remU | .remS =>
    sameWidth eu block index dst lhs "TYPE.DIVREM_LHS_WIDTH"
    sameWidth eu block index dst rhs "TYPE.DIVREM_RHS_WIDTH"
  | .add | .sub | .mul | .and | .or | .xor | .shl | .shr | .sar =>
    requireRegister eu block (some index) dst
    requireRegister eu block (some index) lhs
    requireRegister eu block (some index) rhs

def verifyUnaryTypes (dst : RegisterId) (op : UnaryOp) (src : RegisterId) :
    Except SirVerifyError Unit := do
  match op with
  | .logicNot | .and | .or | .xor =>
    exactWidth eu block index dst 1 "TYPE.REDUCTION_RESULT_WIDTH"
    unsignedIfBit eu block index dst "TYPE.BOOLEAN_RESULT_UNSIGNED"
    requireRegister eu block (some index) src
  | .toTwoState =>
    sameWidth eu block index dst src "TYPE.TWO_STATE_WIDTH"
    match ← registerType eu block (some index) dst with
    | .bit .. => return ()
    | .logic _ => .error (instructionError "TYPE.TWO_STATE_DESTINATION" block index
        s!"r{dst} is not a Bit register")
  | .minus | .bitNot => sameWidth eu block index dst src "TYPE.UNARY_VALUE_WIDTH"
  | .ident =>
    requireRegister eu block (some index) dst
    requireRegister eu block (some index) src
  | .popCount | .countLeadingZeros | .countTrailingZeros =>
    let dstTy ← registerType eu block (some index) dst
    let srcTy ← registerType eu block (some index) src
    let requiredWidth := op.resultWidth srcTy.width
    if dstTy.width < requiredWidth then
      .error (instructionError "TYPE.BIT_COUNT_RESULT_WIDTH" block index
        (s!"{op.name} of r{src} width {srcTy.width} may produce {srcTy.width}, " ++
          s!"which requires at least {requiredWidth} result bits, " ++
          s!"but r{dst} has width {dstTy.width}"))

def verifyInstructionTypes (inst : SIRInstruction A) : Except SirVerifyError Unit := do
  match inst with
  | .imm dst value =>
    let ty ← registerType eu block (some index) dst
    if ¬ fitsWidth value.payload ty.width ∨ ¬ fitsWidth value.mask ty.width then
      .error (instructionError "TYPE.IMMEDIATE_FITS_DESTINATION" block index
        s!"immediate does not fit r{dst} width {ty.width}")
    else match ty with
      | .bit .. =>
        if value.mask ≠ 0 then
          .error (instructionError "TYPE.BIT_IMMEDIATE_MASK" block index
            s!"two-state r{dst} has a nonzero immediate mask")
        else return ()
      | .logic _ => return ()
  | .binary dst lhs op rhs => verifyBinaryTypes eu block index dst lhs op rhs
  | .unary dst op src => verifyUnaryTypes eu block index dst op src
  | .load dst _ offset bits =>
    nonZeroWidth block index bits "TYPE.LOAD_NON_ZERO"
    let ty ← registerType eu block (some index) dst
    if ty.width ≠ bits then
      .error (instructionError "TYPE.LOAD_WIDTH" block index
        s!"load width {bits} does not match r{dst} width {ty.width}")
    else verifyOffset eu block index offset bits
  | .store _ offset bits src triggers _ =>
    if bits = 0 then
      match triggers, offset with
      | _ :: _, .static _ => return ()
      | _, _ => .error (instructionError "STORE.TRIGGER_ONLY_FORM" block index
          "zero-width store requires triggers and a static offset")
    else
      let ty ← registerType eu block (some index) src
      if ty.width < bits then
        .error (instructionError "TYPE.STORE_SOURCE_WIDTH" block index
          s!"store width {bits} exceeds r{src} width {ty.width}")
      else verifyOffset eu block index offset bits
  | .commit _ _ offset bits _ =>
    nonZeroWidth block index bits "TYPE.COMMIT_NON_ZERO"
    verifyOffset eu block index offset bits
  | .concat dst args =>
    if args.isEmpty then
      .error (instructionError "TYPE.CONCAT_NON_EMPTY" block index "concat has no operands")
    else
      let width ← concatWidth eu block index args
      let ty ← registerType eu block (some index) dst
      if ty.width ≠ width then
        .error (instructionError "TYPE.CONCAT_WIDTH" block index
          s!"concat operands total {width} bits, r{dst} has width {ty.width}")
  | .slice dst src offset width =>
    nonZeroWidth block index width "TYPE.SLICE_NON_ZERO"
    match checkedAdd offset width with
    | none => .error (instructionError "TYPE.WIDTH_OVERFLOW" block index
        "slice range overflows usize")
    | some sliceEnd =>
      let srcTy ← registerType eu block (some index) src
      if srcTy.width < sliceEnd then
        .error (instructionError "TYPE.SLICE_BOUNDS" block index
          s!"slice [{offset} +: {width}] exceeds r{src} width {srcTy.width}")
      else
        let dstTy ← registerType eu block (some index) dst
        if dstTy.width ≠ width then
          .error (instructionError "TYPE.SLICE_RESULT_WIDTH" block index
            s!"slice width {width} does not match r{dst} width {dstTy.width}")
  | .mux dst cond thenVal elseVal =>
    requireRegister eu block (some index) cond
    sameWidth eu block index dst thenVal "TYPE.MUX_THEN_WIDTH"
    sameWidth eu block index dst elseVal "TYPE.MUX_ELSE_WIDTH"
  | .runtimeEvent _ args | .combCaptureEvent _ args _ _ =>
    args.forM fun arg => requireRegister eu block (some index) arg
  | .combCaptureEnableIfChanged old new _ =>
    sameWidth eu block index old new "TYPE.CAPTURE_COMPARE_OPERANDS"

end Types

/-! ## Edges -/

section Edges
variable {A : Type} (eu : ExecutionUnit A)

def verifyCases (block : BlockId) (width : Nat) (cases : List SIRSwitchCase) :
    Except SirVerifyError Unit := do
  let _ ← cases.foldlM (fun values case => do
    if 2 ^ width ≤ case.value then
      .error (blockError "TYPE.SWITCH_CASE" block
        s!"switch case {hex case.value} does not fit selector width {width}")
    else if case.value ∈ values then
      .error (blockError "CFG.SWITCH_DUPLICATE" block
        s!"duplicate switch case {hex case.value}")
    else return case.value :: values) []

/-- Condition or selector of a terminator. -/
def verifyTerminator (block : BlockId) (terminator : SIRTerminator) :
    Except SirVerifyError Unit := do
  match terminator with
  | .branch cond _ _ =>
    let ty ← registerType eu block none cond
    if ty ≠ .bit 1 false then
      .error (blockError "TYPE.BRANCH_CONDITION" block
        s!"branch condition r{cond} has type {ty.debug}, expected unsigned bit<1>")
  | .switch selector cases _ =>
    let ty ← registerType eu block none selector
    if ty.width = 0 ∨ 8 < ty.width then
      .error (blockError "TYPE.SWITCH_SELECTOR" block
        s!"switch selector r{selector} has width {ty.width}, expected 1..=8")
    else verifyCases block ty.width cases
  | .jump .. | .ret | .error _ => return ()

def verifyEdgeArgument (block target : BlockId) (entry : (RegisterId × RegisterId) × Nat) :
    Except SirVerifyError Unit := do
  let ((arg, param), position) := entry
  let argTy ← registerType eu block none arg
  let paramTy ← registerType eu target none param
  if argTy.width ≠ paramTy.width then
    .error (blockError "TYPE.EDGE_ARGUMENT" block
      (s!"edge argument {position} to b{target} has width {argTy.width}, " ++
        s!"parameter r{param} has width {paramTy.width}"))

/-- Arguments against the parameters of the target; a missing target is reported elsewhere. -/
def verifyEdge (block : BlockId) (edge : BlockId × List RegisterId) :
    Except SirVerifyError Unit := do
  let (target, args) := edge
  match eu.blocks.lookup target with
  | none => return ()
  | some targetBlock =>
    if args.length ≠ targetBlock.params.length then
      .error (blockError "CFG.EDGE_ARITY" block
        (s!"edge to b{target} passes {args.length} arguments, " ++
          s!"expected {targetBlock.params.length}"))
    else (args.zip targetBlock.params).zipIdx.forM (verifyEdgeArgument eu block target)

def verifyEdges (block : BasicBlock A) : Except SirVerifyError Unit := do
  verifyTerminator eu block.id block.terminator
  block.terminator.edges.forM (verifyEdge eu block.id)

def verifyTargets (block : BasicBlock A) : Except SirVerifyError Unit :=
  block.terminator.successorIds.forM fun target =>
    if target ∈ eu.blocks then .ok ()
    else .error (blockError "CFG.TARGET_EXISTS" block.id
      s!"terminator targets missing block b{target}")

def verifyBlock (entry : (_ : BlockId) × BasicBlock A) : Except SirVerifyError Unit := do
  let ⟨key, block⟩ := entry
  if key ≠ block.id then
    .error (blockError "CFG.BLOCK_KEY_MATCHES_ID" key
      s!"map key b{key} contains block with id b{block.id}")
  else
    verifyTargets eu block
    verifyEdges eu block

end Edges

/-! ## Reachability and dominators -/

section Dominators
variable {A : Type} (eu : ExecutionUnit A)

/-- Where a block can go, blocks of the unit only. -/
def ExecutionUnit.successors (b : BlockId) : List BlockId :=
  match eu.blocks.lookup b with
  | some block => block.terminator.successorIds.filter (· ∈ eu.blocks)
  | none => []

def reachableBlocks : List BlockId :=
  reachLoop eu.successors ((eu.blocks.keys.map fun b => (eu.successors b).length).sum + 1)
    [eu.entryBlockId] []

/-- The row of the predecessor map, in the order of a `BTreeSet`. -/
def ExecutionUnit.predecessors (b : BlockId) : List BlockId :=
  ((eu.blocks.entries.filter fun entry => b ∈ entry.2.terminator.successorIds).map
    (·.2.id)).insertionSort (· ≤ ·)

/-- The row of the successor map: targets in ascending order. -/
def successorRow (reachable : List BlockId) (p : BlockId) : List BlockId :=
  (eu.blocks.keys.insertionSort (· ≤ ·)).filter fun b => b ∈ reachable ∧ p ∈ eu.predecessors b

structure Dominators where
  postorder : List BlockId
  enter : Nat → Nat
  exit : Nat → Nat

def Dominators.index (dominators : Dominators) (b : BlockId) : Nat :=
  dominators.postorder.idxOf b

def Dominators.dominates (dominators : Dominators) (dominator block : BlockId) : Bool :=
  dominators.enter (dominators.index dominator) ≤ dominators.enter (dominators.index block) &&
    dominators.exit (dominators.index block) ≤ dominators.exit (dominators.index dominator)

/-- Rows of predecessors by position in an order. -/
def predecessorsAt (order : List BlockId) (i : Nat) : List Nat :=
  match order[i]? with
  | some b => (eu.predecessors b).map (order.idxOf ·)
  | none => []

def childRow (n : Nat) (idom : Nat → Option Nat) (parent : Nat) : List Nat :=
  (List.range' 1 (n - 1)).filter fun b => idom b = some parent

def numberTree (postorder : List BlockId) (idom : Nat → Option Nat) : Dominators :=
  let times := timeLoop (childRow postorder.length idom) (2 * postorder.length) [(0, false)]
    ⟨fun _ => 0, fun _ => 0, 0⟩
  ⟨postorder, times.enter, times.exit⟩

/-- `none` stands for a panic on a missing link. -/
def numberDominators (postorder : List BlockId) : Option Dominators := do
  let idom ← iterativeDominators (predecessorsAt eu postorder) postorder.length
  return numberTree postorder idom

def computeDominators (reachable : List BlockId) : Option Dominators :=
  let rows := successorRow eu reachable
  let fuel := (eu.blocks.keys.map fun b => (rows b).length + 1).sum
  numberDominators eu (reversePostorder rows fuel eu.entryBlockId)

end Dominators

/-! ## Definitions and uses -/

section Uses
variable {A : Type} (eu : ExecutionUnit A)

inductive DefSite where
  | param (block : BlockId)
  | inst (block : BlockId) (index : Nat)
deriving DecidableEq, Repr

def insertDef (defs : Table RegisterId DefSite) (reg : RegisterId) (site : DefSite)
    (block : BlockId) (instruction : Option Nat) :
    Except SirVerifyError (Table RegisterId DefSite) :=
  if reg ∈ defs then
    .error <| match instruction with
      | some index => instructionError "SSA.SINGLE_DEFINITION" block index
          s!"r{reg} is defined more than once"
      | none => blockError "SSA.SINGLE_DEFINITION" block s!"r{reg} is defined more than once"
  else .ok (defs.insert reg site)

def collectParams (block : BasicBlock A) (defs : Table RegisterId DefSite) :
    Except SirVerifyError (Table RegisterId DefSite) := do
  let (_, defs) ← block.params.foldlM (fun (params, defs) param => do
    requireRegister eu block.id none param
    if param ∈ params then
      .error (blockError "SSA.UNIQUE_BLOCK_PARAMS" block.id
        s!"r{param} occurs more than once in block parameters")
    else
      let defs ← insertDef defs param (.param block.id) block.id none
      return (param :: params, defs)) (([] : List RegisterId), defs)
  return defs

def collectInstruction (block : BlockId) (defs : Table RegisterId DefSite)
    (entry : SIRInstruction A × Nat) : Except SirVerifyError (Table RegisterId DefSite) := do
  let (inst, index) := entry
  verifyInstructionTypes eu block index inst
  match inst.definedRegister with
  | some dst =>
    requireRegister eu block (some index) dst
    insertDef defs dst (.inst block index) block (some index)
  | none => return defs

def collectBlock (defs : Table RegisterId DefSite) (block : BasicBlock A) :
    Except SirVerifyError (Table RegisterId DefSite) := do
  let defs ← collectParams eu block defs
  block.instructions.zipIdx.foldlM (collectInstruction eu block.id) defs

def verifyUse (defs : Table RegisterId DefSite) (dominators : Dominators) (block : BlockId)
    (instruction : Nat) (reg : RegisterId) : Except SirVerifyError Unit := do
  requireRegister eu block (some instruction) reg
  match defs.lookup reg with
  | none => .error (instructionError "SSA.USE_HAS_DEFINITION" block instruction
      s!"r{reg} is used but never defined")
  | some site =>
    let valid := match site with
      | .param defBlock => dominators.dominates defBlock block
      | .inst defBlock defIndex => (defBlock = block && defIndex < instruction) ||
          (defBlock ≠ block && dominators.dominates defBlock block)
    if valid then .ok ()
    else .error (instructionError "SSA.DEFINITION_DOMINATES_USE" block instruction
      s!"definition of r{reg} does not dominate this use")

def verifyUses (defs : Table RegisterId DefSite) (dominators : Dominators)
    (block : BasicBlock A) : Except SirVerifyError Unit := do
  block.instructions.zipIdx.forM fun (inst, index) =>
    inst.uses.forM (verifyUse eu defs dominators block.id index)
  block.terminator.uses.forM
    (verifyUse eu defs dominators block.id block.instructions.length)

def verifyRegister (entry : (_ : RegisterId) × RegisterType) : Except SirVerifyError Unit :=
  if entry.2.width = 0 then
    .error (functionError "TYPE.NON_ZERO_WIDTH" s!"r{entry.1} has zero width")
  else .ok ()

/-- Definitions, then uses. -/
def verifySsa (reachable : List BlockId) : Except SirVerifyError Unit := do
  let defs ← eu.blocks.entries.foldlM (fun defs entry => collectBlock eu defs entry.2) ∅
  match computeDominators eu reachable with
  | none => .error (functionError "panic" "processed dominator")
  | some dominators => eu.blocks.entries.forM fun entry => verifyUses eu defs dominators entry.2

def verifyExecutionUnit : Except SirVerifyError Unit := do
  if eu.blocks.entries.isEmpty then
    .error (functionError "CFG.NON_EMPTY" "execution unit has no blocks")
  else if eu.entryBlockId ∉ eu.blocks then
    .error (functionError "CFG.ENTRY_EXISTS" s!"entry block b{eu.entryBlockId} does not exist")
  else
    eu.registerMap.entries.forM verifyRegister
    eu.blocks.entries.forM (verifyBlock eu)
    let reachable := reachableBlocks eu
    if reachable.length ≠ eu.blocks.entries.length then
      let unreachable := (eu.blocks.keys.filter (· ∉ reachable)).map fun id => s!"b{id}"
      .error (functionError "CFG.ALL_BLOCKS_REACHABLE"
        ("unreachable blocks: " ++ ", ".intercalate unreachable))
    else verifySsa eu reachable

/-- Verify the canonical SIR contract without modifying the IR. -/
def ExecutionUnit.verifyResult : Except SirVerifyError Unit := verifyExecutionUnit eu

end Uses
end Celox.Sir

/-! ## What the type checks accept

Each check of the verifier succeeds exactly when a condition on the types of the registers it
names holds. -/
namespace Celox.Sir

section Conditions
variable (types : RegisterId → Option RegisterType)

def Declared (reg : RegisterId) : Prop := ∃ ty, types reg = some ty

def SameWidth (lhs rhs : RegisterId) : Prop :=
  ∃ ty ty', types lhs = some ty ∧ types rhs = some ty' ∧ ty.width = ty'.width

def HasWidth (reg : RegisterId) (width : Nat) : Prop := ∃ ty, types reg = some ty ∧ ty.width = width

def Unsigned (reg : RegisterId) : Prop := ∃ ty, types reg = some ty ∧ ty.isSigned = false

def OffsetTyped (offset : SIROffset) (accessWidth : Nat) : Prop :=
  match offset with
  | .static _ => True
  | .packedElements bitOffset elementWidth =>
    elementWidth ≠ 0 ∧ bitOffset + accessWidth ≤ usizeMax ∧ bitOffset % elementWidth = 0 ∧
      (bitOffset + accessWidth) % elementWidth = 0
  | .dynamic reg => Declared types reg
  | .element index elementWidth bitOffset dynamicBitOffset =>
    Declared types index ∧ (∀ reg ∈ dynamicBitOffset, Declared types reg) ∧ elementWidth ≠ 0 ∧
      bitOffset + accessWidth ≤ usizeMax ∧ bitOffset + accessWidth ≤ elementWidth

/-- The operands of a concatenation, from `width` bits on. -/
def ConcatFrom (width : Nat) : List RegisterId → Nat → Prop
  | [], total => width = total
  | arg :: args, total => ∃ ty, types arg = some ty ∧ width + ty.width ≤ usizeMax ∧
      ConcatFrom (width + ty.width) args total

def BinaryTyped (dst lhs : RegisterId) (op : BinaryOp) (rhs : RegisterId) : Prop :=
  match op with
  | .eq | .ne | .eqCase | .neCase | .ltU | .ltS | .leU | .leS | .gtU | .gtS | .geU | .geS
  | .eqWildcard | .neWildcard =>
    HasWidth types dst 1 ∧ Unsigned types dst ∧ SameWidth types lhs rhs
  | .logicAnd | .logicOr =>
    HasWidth types dst 1 ∧ Unsigned types dst ∧ Declared types lhs ∧ Declared types rhs
  | .divU | .divS | .remU | .remS => SameWidth types dst lhs ∧ SameWidth types dst rhs
  | .add | .sub | .mul | .and | .or | .xor | .shl | .shr | .sar =>
    Declared types dst ∧ Declared types lhs ∧ Declared types rhs

def UnaryTyped (dst : RegisterId) (op : UnaryOp) (src : RegisterId) : Prop :=
  match op with
  | .logicNot | .and | .or | .xor =>
    HasWidth types dst 1 ∧ Unsigned types dst ∧ Declared types src
  | .toTwoState => SameWidth types dst src ∧ ∃ width signed, types dst = some (.bit width signed)
  | .minus | .bitNot => SameWidth types dst src
  | .ident => Declared types dst ∧ Declared types src
  | .popCount | .countLeadingZeros | .countTrailingZeros =>
    ∃ ty ty', types dst = some ty ∧ types src = some ty' ∧ op.resultWidth ty'.width ≤ ty.width

def ImmTyped (dst : RegisterId) (value : SIRValue) : Prop :=
  ∃ ty, types dst = some ty ∧ fitsWidth value.payload ty.width ∧ fitsWidth value.mask ty.width ∧
    (∀ width signed, ty = .bit width signed → value.mask = 0)

def InstructionTyped {A : Type} (inst : SIRInstruction A) : Prop :=
  match inst with
  | .imm dst value => ImmTyped types dst value
  | .binary dst lhs op rhs => BinaryTyped types dst lhs op rhs
  | .unary dst op src => UnaryTyped types dst op src
  | .load dst _ offset bits => bits ≠ 0 ∧ HasWidth types dst bits ∧ OffsetTyped types offset bits
  | .store _ offset bits src triggers _ =>
    if bits = 0 then triggers ≠ [] ∧ ∃ bitOffset, offset = .static bitOffset
    else (∃ ty, types src = some ty ∧ bits ≤ ty.width) ∧ OffsetTyped types offset bits
  | .commit _ _ offset bits _ => bits ≠ 0 ∧ OffsetTyped types offset bits
  | .concat dst args => args ≠ [] ∧ ∃ width, ConcatFrom types 0 args width ∧
      HasWidth types dst width
  | .slice dst src offset width => width ≠ 0 ∧ offset + width ≤ usizeMax ∧
      (∃ ty, types src = some ty ∧ offset + width ≤ ty.width) ∧ HasWidth types dst width
  | .mux dst cond thenVal elseVal =>
    Declared types cond ∧ SameWidth types dst thenVal ∧ SameWidth types dst elseVal
  | .runtimeEvent _ args | .combCaptureEvent _ args _ _ => ∀ arg ∈ args, Declared types arg
  | .combCaptureEnableIfChanged old new _ => SameWidth types old new

def TerminatorTyped (terminator : SIRTerminator) : Prop :=
  match terminator with
  | .branch cond _ _ => types cond = some (.bit 1 false)
  | .switch selector cases _ => ∃ ty, types selector = some ty ∧ ty.width ≠ 0 ∧ ty.width ≤ 8 ∧
      (∀ case ∈ cases, case.value < 2 ^ ty.width) ∧ (cases.map (·.value)).Nodup
  | .jump .. | .ret | .error _ => True

end Conditions

section Checks
variable {A : Type} (eu : ExecutionUnit A) (block : BlockId) (index : Nat)

/-- The declared type of a register. -/
def ExecutionUnit.types (reg : RegisterId) : Option RegisterType := eu.registerMap.lookup reg

variable {eu block index}

theorem registerType_ok {instruction : Option Nat} {reg : RegisterId} {ty : RegisterType} :
    registerType eu block instruction reg = .ok ty ↔ eu.types reg = some ty := by
  unfold registerType ExecutionUnit.types
  cases eu.registerMap.lookup reg <;> simp

theorem requireRegister_ok {instruction : Option Nat} {reg : RegisterId} :
    requireRegister eu block instruction reg = .ok () ↔ Declared eu.types reg := by
  simp only [requireRegister, bind_eq_ok, registerType_ok, Declared]
  exact exists_congr fun ty => and_iff_left rfl

theorem pure_ok {ε : Type} : (pure () : Except ε Unit) = .ok () ↔ True := iff_of_true rfl trivial

theorem ite_error_ok {ε : Type} {p : Prop} [Decidable p] {e : ε} {x : Except ε Unit} :
    (if p then .error e else x) = .ok () ↔ ¬ p ∧ x = .ok () := by
  by_cases hp : p <;> simp [hp]

theorem sameWidth_ok {lhs rhs : RegisterId} {invariant : String} :
    sameWidth eu block index lhs rhs invariant = .ok () ↔ SameWidth eu.types lhs rhs := by
  simp only [sameWidth, bind_eq_ok, registerType_ok, ite_error_ok, SameWidth, ne_eq, not_not, pure_ok,
    and_true]
  exact exists_congr fun ty => ⟨fun ⟨h, ty', h', hw⟩ => ⟨ty', h, h', hw⟩,
    fun ⟨ty', h, h', hw⟩ => ⟨h, ty', h', hw⟩⟩

theorem exactWidth_ok {reg : RegisterId} {expected : Nat} {invariant : String} :
    exactWidth eu block index reg expected invariant = .ok () ↔
      HasWidth eu.types reg expected := by
  simp only [exactWidth, bind_eq_ok, registerType_ok, ite_error_ok, HasWidth, ne_eq, not_not, pure_ok,
    and_true]

theorem unsignedIfBit_ok {reg : RegisterId} {invariant : String} :
    unsignedIfBit eu block index reg invariant = .ok () ↔ Unsigned eu.types reg := by
  simp only [unsignedIfBit, bind_eq_ok, registerType_ok, ite_error_ok, Unsigned,
    Bool.not_eq_true, pure_ok, and_true]

theorem nonZeroWidth_ok {width : Nat} {invariant : String} :
    nonZeroWidth block index width invariant = .ok () ↔ width ≠ 0 := by
  simp [nonZeroWidth]

theorem seq_ok {ε β : Type} {x : Except ε Unit} {y : Except ε β} {b : β} :
    (x >>= fun _ => y) = .ok b ↔ x = .ok () ∧ y = .ok b := by
  rw [bind_eq_ok]
  exact ⟨fun ⟨_, hx, hy⟩ => ⟨hx, hy⟩, fun ⟨hx, hy⟩ => ⟨(), hx, hy⟩⟩

theorem checkedAdd_cases (a b : Nat) :
    (a + b ≤ usizeMax ∧ checkedAdd a b = some (a + b)) ∨
      (¬ a + b ≤ usizeMax ∧ checkedAdd a b = none) := by
  by_cases hfit : a + b ≤ usizeMax
  · exact .inl ⟨hfit, if_pos hfit⟩
  · exact .inr ⟨hfit, if_neg hfit⟩

theorem verifyOffset_ok {offset : SIROffset} {accessWidth : Nat} :
    verifyOffset eu block index offset accessWidth = .ok () ↔
      OffsetTyped eu.types offset accessWidth := by
  cases offset with
  | static => simp [verifyOffset, OffsetTyped, pure, Except.pure]
  | dynamic reg => exact requireRegister_ok
  | packedElements bitOffset elementWidth =>
    simp only [verifyOffset, OffsetTyped, ite_error_ok]
    refine and_congr_right fun _ => ?_
    rcases checkedAdd_cases bitOffset accessWidth with ⟨hfit, hadd⟩ | ⟨hover, hadd⟩
    · simp only [hadd, ite_error_ok, ne_eq, not_or, not_not, and_true, hfit, true_and]
    · simp [hadd, hover]
  | element elementIndex elementWidth bitOffset dynamicBitOffset =>
    simp only [verifyOffset, OffsetTyped, seq_ok, forM_eq_ok, requireRegister_ok,
      ite_error_ok, Option.mem_toList]
    refine and_congr_right fun _ => and_congr_right fun _ => and_congr_right fun _ => ?_
    rcases checkedAdd_cases bitOffset accessWidth with ⟨hfit, hadd⟩ | ⟨hover, hadd⟩
    · simp only [hadd, ite_error_ok, not_lt, and_true, hfit, true_and]
    · simp [hadd, hover]

theorem concatWidth_ok {args : List RegisterId} {width : Nat} :
    concatWidth eu block index args = .ok width ↔ ConcatFrom eu.types 0 args width := by
  have hfrom : ∀ start, args.foldlM (fun width arg => do
      let ty ← registerType eu block (some index) arg
      match checkedAdd width ty.width with
      | some width => return width
      | none => .error (instructionError "TYPE.WIDTH_OVERFLOW" block index
          "concat width overflows usize")) start = .ok width ↔
        ConcatFrom eu.types start args width := by
    induction args with
    | nil => simp [ConcatFrom, pure, Except.pure]
    | cons arg args ih =>
      intro start
      rw [List.foldlM_cons]
      simp only [bind_eq_ok, registerType_ok, ConcatFrom]
      constructor
      · rintro ⟨next, ⟨ty, hty, hnext⟩, hrest⟩
        rcases checkedAdd_cases start ty.width with ⟨hfit, hadd⟩ | ⟨-, hadd⟩
        · simp only [hadd, pure, Except.pure, Except.ok.injEq] at hnext
          exact ⟨ty, hty, hfit, hnext ▸ (ih next).mp hrest⟩
        · simp [hadd] at hnext
      · rintro ⟨ty, hty, hfit, hrest⟩
        refine ⟨_, ⟨ty, hty, ?_⟩, (ih _).mpr hrest⟩
        simp [checkedAdd, hfit, pure, Except.pure]
  exact hfrom 0

theorem verifyBinaryTypes_ok {dst lhs rhs : RegisterId} {op : BinaryOp} :
    verifyBinaryTypes eu block index dst lhs op rhs = .ok () ↔
      BinaryTyped eu.types dst lhs op rhs := by
  cases op <;> simp only [verifyBinaryTypes, BinaryTyped, seq_ok, exactWidth_ok,
    unsignedIfBit_ok, sameWidth_ok, requireRegister_ok]

theorem verifyUnaryTypes_ok {dst src : RegisterId} {op : UnaryOp} :
    verifyUnaryTypes eu block index dst op src = .ok () ↔ UnaryTyped eu.types dst op src := by
  have hcount : ∀ required : Nat → Nat, ∀ e : RegisterType → RegisterType → SirVerifyError,
      (do
        let dstTy ← registerType eu block (some index) dst
        let srcTy ← registerType eu block (some index) src
        if dstTy.width < required srcTy.width then .error (e dstTy srcTy)
        else pure ()) = Except.ok () ↔
      ∃ ty ty', eu.types dst = some ty ∧ eu.types src = some ty' ∧
        required ty'.width ≤ ty.width := by
    intro required e
    simp only [bind_eq_ok, registerType_ok, ite_error_ok, not_lt, pure_ok, and_true]
    exact exists_congr fun ty => ⟨fun ⟨h, ty', h', hw⟩ => ⟨ty', h, h', hw⟩,
      fun ⟨ty', h, h', hw⟩ => ⟨h, ty', h', hw⟩⟩
  cases op with
  | toTwoState =>
    simp only [verifyUnaryTypes, UnaryTyped, seq_ok, sameWidth_ok]
    simp only [bind_eq_ok, registerType_ok]
    refine and_congr_right fun _ => ⟨?_, ?_⟩
    · rintro ⟨ty, hty, hbit⟩
      cases ty with
      | logic => simp at hbit
      | bit width signed => exact ⟨width, signed, hty⟩
    · rintro ⟨width, signed, hty⟩
      exact ⟨_, hty, rfl⟩
  | popCount | countLeadingZeros | countTrailingZeros => exact hcount _ _
  | _ => simp only [verifyUnaryTypes, UnaryTyped, seq_ok, exactWidth_ok, unsignedIfBit_ok,
      sameWidth_ok, requireRegister_ok]

theorem verifyInstructionTypes_ok {inst : SIRInstruction A} :
    verifyInstructionTypes eu block index inst = .ok () ↔ InstructionTyped eu.types inst := by
  cases inst with
  | imm dst value =>
    simp only [verifyInstructionTypes, InstructionTyped, ImmTyped, bind_eq_ok, registerType_ok,
      ite_error_ok, not_or, not_not]
    refine exists_congr fun ty => and_congr_right fun _ => ?_
    rw [and_assoc]
    refine and_congr_right fun _ => and_congr_right fun _ => ?_
    cases ty with
    | logic => simp [pure, Except.pure]
    | bit width signed => simp [pure, Except.pure]
  | binary dst lhs op rhs => exact verifyBinaryTypes_ok
  | unary dst op src => exact verifyUnaryTypes_ok
  | load dst addr offset bits =>
    simp only [verifyInstructionTypes, InstructionTyped, seq_ok, nonZeroWidth_ok]
    simp only [bind_eq_ok, registerType_ok, ite_error_ok, verifyOffset_ok, HasWidth, ne_eq,
      not_not]
    exact and_congr_right fun _ => ⟨fun ⟨ty, hty, hw, ho⟩ => ⟨⟨ty, hty, hw⟩, ho⟩,
      fun ⟨⟨ty, hty, hw⟩, ho⟩ => ⟨ty, hty, hw, ho⟩⟩
  | store addr offset bits src triggers sites =>
    simp only [verifyInstructionTypes, InstructionTyped]
    by_cases hbits : bits = 0
    · rw [if_pos hbits, if_pos hbits]
      cases triggers with
      | nil => simp
      | cons trigger triggers => cases offset <;> simp [pure, Except.pure]
    · rw [if_neg hbits, if_neg hbits]
      simp only [bind_eq_ok, registerType_ok, ite_error_ok, verifyOffset_ok, not_lt]
      exact ⟨fun ⟨ty, hty, hw, ho⟩ => ⟨⟨ty, hty, hw⟩, ho⟩,
        fun ⟨⟨ty, hty, hw⟩, ho⟩ => ⟨ty, hty, hw, ho⟩⟩
  | commit src dst offset bits triggers =>
    simp only [verifyInstructionTypes, InstructionTyped, seq_ok, nonZeroWidth_ok,
      verifyOffset_ok]
  | concat dst args =>
    simp only [verifyInstructionTypes, InstructionTyped, ite_error_ok, bind_eq_ok,
      concatWidth_ok, registerType_ok, HasWidth, ne_eq, not_not, List.isEmpty_iff, pure_ok,
      and_true]
  | slice dst src offset width =>
    simp only [verifyInstructionTypes, InstructionTyped, seq_ok, nonZeroWidth_ok]
    refine and_congr_right fun _ => ?_
    rcases checkedAdd_cases offset width with ⟨hfit, hadd⟩ | ⟨hover, hadd⟩
    · simp only [hadd, bind_eq_ok, registerType_ok, ite_error_ok, HasWidth, hfit, ne_eq, not_not,
        not_lt, true_and, pure_ok, and_true]
      exact ⟨fun ⟨ty, hty, hw, hdst⟩ => ⟨⟨ty, hty, hw⟩, hdst⟩,
        fun ⟨⟨ty, hty, hw⟩, hdst⟩ => ⟨ty, hty, hw, hdst⟩⟩
    · simp [hadd, hover]
  | mux dst cond thenVal elseVal =>
    simp only [verifyInstructionTypes, InstructionTyped, seq_ok, requireRegister_ok,
      sameWidth_ok]
  | runtimeEvent site args =>
    simp only [verifyInstructionTypes, InstructionTyped, forM_eq_ok, requireRegister_ok]
  | combCaptureEvent site args code consume =>
    simp only [verifyInstructionTypes, InstructionTyped, forM_eq_ok, requireRegister_ok]
  | combCaptureEnableIfChanged old new sites => exact sameWidth_ok

theorem verifyCases_ok {width : Nat} {cases : List SIRSwitchCase} :
    verifyCases block width cases = .ok () ↔
      (∀ case ∈ cases, case.value < 2 ^ width) ∧ (cases.map (·.value)).Nodup := by
  -- after some cases, the values seen are those of the cases so far
  have hfrom : ∀ seen : List Nat, (∃ values, cases.foldlM (fun values case => do
      if 2 ^ width ≤ case.value then
        .error (blockError "TYPE.SWITCH_CASE" block
          s!"switch case {hex case.value} does not fit selector width {width}")
      else if case.value ∈ values then
        .error (blockError "CFG.SWITCH_DUPLICATE" block
          s!"duplicate switch case {hex case.value}")
      else return case.value :: values) seen = Except.ok values) ↔
      (∀ case ∈ cases, case.value < 2 ^ width ∧ case.value ∉ seen) ∧
        (cases.map (·.value)).Nodup := by
    induction cases with
    | nil => simp [pure, Except.pure]
    | cons case cases ih =>
      intro seen
      rw [List.foldlM_cons]
      by_cases hfit : 2 ^ width ≤ case.value
      · simp [hfit, bind, Except.bind, Nat.not_lt.mpr hfit]
      · by_cases hseen : case.value ∈ seen
        · simp [hfit, hseen, bind, Except.bind]
        · have hstep := ih (case.value :: seen)
          simp only [if_neg hfit, if_neg hseen, bind, Except.bind, pure, Except.pure]
          refine hstep.trans ?_
          simp only [List.mem_cons, forall_eq_or_imp, List.map_cons, List.nodup_cons,
            List.mem_map, not_or, hseen, not_false_eq_true, and_true, not_exists, not_and]
          have hlt : case.value < 2 ^ width := by omega
          simp only [hlt, true_and]
          constructor
          · rintro ⟨hall, hnodup⟩
            exact ⟨fun c hc => ⟨(hall c hc).1, (hall c hc).2.2⟩, fun c hc => (hall c hc).2.1, hnodup⟩
          · rintro ⟨hall, hne, hnodup⟩
            exact ⟨fun c hc => ⟨(hall c hc).1, hne c hc, (hall c hc).2⟩, hnodup⟩
  have hstart := hfrom []
  simp only [List.not_mem_nil, not_false_eq_true, and_true] at hstart
  rw [← hstart]
  unfold verifyCases
  rw [bind_eq_ok]
  exact exists_congr fun values => and_iff_left rfl

theorem verifyTerminator_ok {terminator : SIRTerminator} :
    verifyTerminator eu block terminator = .ok () ↔ TerminatorTyped eu.types terminator := by
  cases terminator with
  | branch cond trueBlock falseBlock =>
    simp only [verifyTerminator, TerminatorTyped, bind_eq_ok, registerType_ok, ite_error_ok,
      ne_eq, not_not, pure_ok, and_true]
    exact ⟨fun ⟨ty, hty, heq⟩ => heq ▸ hty, fun h => ⟨_, h, rfl⟩⟩
  | switch selector cases default =>
    simp only [verifyTerminator, TerminatorTyped, bind_eq_ok, registerType_ok, ite_error_ok,
      verifyCases_ok, not_or, not_lt, ne_eq, and_assoc]
  | jump => exact pure_ok
  | ret => exact pure_ok
  | error => exact pure_ok

/-- What an edge passes agrees with what its target expects. -/
def EdgeTyped (eu : ExecutionUnit A) (edge : BlockId × List RegisterId) : Prop :=
  ∀ target, eu.blocks.lookup edge.1 = some target → edge.2.length = target.params.length ∧
    ∀ pair ∈ edge.2.zip target.params, SameWidth eu.types pair.1 pair.2

theorem verifyEdgeArgument_ok {target : BlockId} {entry : (RegisterId × RegisterId) × Nat} :
    verifyEdgeArgument eu block target entry = .ok () ↔
      SameWidth eu.types entry.1.1 entry.1.2 := by
  obtain ⟨⟨arg, param⟩, position⟩ := entry
  simp only [verifyEdgeArgument, bind_eq_ok, registerType_ok, ite_error_ok, SameWidth, ne_eq,
    not_not, pure_ok, and_true]
  exact exists_congr fun ty => ⟨fun ⟨h, ty', h', hw⟩ => ⟨ty', h, h', hw⟩,
    fun ⟨ty', h, h', hw⟩ => ⟨h, ty', h', hw⟩⟩

theorem verifyEdge_ok {edge : BlockId × List RegisterId} :
    verifyEdge eu block edge = .ok () ↔ EdgeTyped eu edge := by
  obtain ⟨target, args⟩ := edge
  simp only [verifyEdge, EdgeTyped]
  cases hlookup : eu.blocks.lookup target with
  | none => simp [pure, Except.pure]
  | some targetBlock =>
    simp only [ite_error_ok, Option.some.injEq, forall_eq', ne_eq, not_not,
      forM_eq_ok, verifyEdgeArgument_ok]
    refine and_congr_right fun _ => ⟨fun h pair hmem => ?_, fun h entry hmem => ?_⟩
    · obtain ⟨i, hi⟩ := List.getElem?_of_mem hmem
      exact h (pair, i) (List.mem_zipIdx_iff_getElem?.mpr hi)
    · exact h entry.1 (List.mem_of_getElem? (List.mem_zipIdx_iff_getElem?.mp hmem))

theorem verifyBlock_ok {entry : (_ : BlockId) × BasicBlock A} :
    verifyBlock eu entry = .ok () ↔ entry.2.id = entry.1 ∧
      (∀ target ∈ entry.2.terminator.successorIds, target ∈ eu.blocks) ∧
      TerminatorTyped eu.types entry.2.terminator ∧
      ∀ edge ∈ entry.2.terminator.edges, EdgeTyped eu edge := by
  obtain ⟨key, block⟩ := entry
  have htarget : ∀ target, (if target ∈ eu.blocks then Except.ok ()
      else .error (blockError "CFG.TARGET_EXISTS" block.id
        s!"terminator targets missing block b{target}")) = Except.ok () ↔ target ∈ eu.blocks := by
    intro target
    by_cases h : target ∈ eu.blocks <;> simp [h]
  simp only [verifyBlock, verifyTargets, verifyEdges, ite_error_ok, seq_ok, forM_eq_ok, htarget,
    verifyTerminator_ok, verifyEdge_ok, ne_eq, not_not]
  exact and_congr_left fun _ => eq_comm

end Checks
end Celox.Sir
