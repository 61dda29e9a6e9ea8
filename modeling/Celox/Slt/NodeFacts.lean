import Celox.Analysis.Usize
import Celox.Data.ExceptList
import Celox.Slt.Node

/-! # Facts about nodes

The widths of the nodes, once as a node is appended and once for a whole list of nodes. Where both
accept, they agree. -/
namespace Celox.Slt
open Celox.Analysis (usizeMax checkedAdd)

/-! ## Node rules -/

structure NodeRuleError where
  invariant : String
  message : String
  deriving Repr, DecidableEq

structure SLTNodeFactsError where
  invariant : String
  node : NodeId
  message : String
  deriving Repr, DecidableEq

def ensure {E : Type} (cond : Prop) [Decidable cond] (error : E) : Except E Unit :=
  if cond then .ok () else .error error

def accessWidth (access : BitAccess) (role : String) : Except NodeRuleError Nat :=
  if access.msb < access.lsb then
    .error ⟨"WIDTH.ACCESS_ORDERED",
      s!"{role} access has lsb {access.lsb} greater than msb {access.msb}"⟩
  else
    match checkedAdd (access.msb - access.lsb) 1 with
    | some width => .ok width
    | none => .error ⟨"WIDTH.ACCESS_REPRESENTABLE",
        s!"{role} access [{access.msb}:{access.lsb}] has a width that overflows usize"⟩

def constantWidth (value mask width : Nat) : Except NodeRuleError Nat := do
  ensure (value.size ≤ width) ⟨"CONSTANT.VALUE_FITS_WIDTH",
    s!"constant payload needs {value.size} bits but declares width {width}"⟩
  ensure (mask.size ≤ width) ⟨"CONSTANT.MASK_FITS_WIDTH",
    s!"constant X/Z mask needs {mask.size} bits but declares width {width}"⟩
  return width

def binaryWidth (op : BinaryOp) (lhsWidth rhsWidth : Nat) : Except NodeRuleError Nat := do
  ensure ((op = .eqWildcard ∨ op = .neWildcard) → lhsWidth = rhsWidth)
    ⟨"WIDTH.WILDCARD_OPERANDS_MATCH",
      s!"wildcard comparison operands have widths {lhsWidth} and {rhsWidth}"⟩
  return op.resultWidth lhsWidth rhsWidth

def concatWidthAdd (accumulated partWidth : Nat) : Except NodeRuleError Nat :=
  match checkedAdd accumulated partWidth with
  | some total => .ok total
  | none => .error ⟨"WIDTH.CONCAT_REPRESENTABLE",
      s!"declared concat widths overflow usize while adding {partWidth} to {accumulated}"⟩

def concatWidth (widths : List Nat) : Except NodeRuleError Nat := widths.foldlM concatWidthAdd 0

def sliceWidth (access : BitAccess) (expressionWidth : Nat) (expressionLabel : String) :
    Except NodeRuleError Nat := do
  let width ← accessWidth access "slice"
  ensure (access.msb < expressionWidth) ⟨"WIDTH.SLICE_IN_BOUNDS",
    s!"slice [{access.msb}:{access.lsb}] exceeds child {expressionLabel} width {expressionWidth}"⟩
  return width

def directLowerable (width : Nat) (hasZeroConcatPart : Bool) : Bool :=
  width ≠ 0 && !hasZeroConcatPart

def ruleError {α : Type} (node : NodeId) (result : Except NodeRuleError α) :
    Except SLTNodeFactsError α :=
  result.mapError fun error => ⟨error.invariant, node, error.message⟩

def checkedAccessWidth (node : NodeId) (access : BitAccess) (role : String) :
    Except SLTNodeFactsError Nat :=
  ruleError node (accessWidth access role)

def addPackedWidth (node : NodeId) (index total width : Nat) : Except SLTNodeFactsError Nat :=
  match checkedAdd total width with
  | some total => .ok total
  | none => .error ⟨"FOR_FOLD_GROUP.PACKED_WIDTH_REPRESENTABLE", node,
      s!"ForFoldGroup packed width overflows usize while adding state {index} width {width}"⟩

/-- The widths of group states, one after the other. -/
def packedGroupWidth (node : NodeId) (accesses : List BitAccess) : Except SLTNodeFactsError Nat :=
  accesses.zipIdx.foldlM (fun total (access, index) => do
    let width ← checkedAccessWidth node access "ForFoldGroup state target"
    addPackedWidth node index total width) 0

/-! ## Appending -/

section Append
variable {A : Type}

def appendChildWidth (widths : List Nat) (child : NodeId) : Except SLTNodeFactsError Nat :=
  match widths[child]? with
  | some width => .ok width
  | none => .error ⟨"GRAPH.CHILD_EXISTS", widths.length,
      s!"node n{widths.length} references missing child n{child}; " ++
        s!"arena contains {widths.length} nodes"⟩

def checkChildren (widths : List Nat) (children : List NodeId) : Except SLTNodeFactsError Unit :=
  children.forM fun child => do
    let _ ← appendChildWidth widths child
    return ()

/-- The width of a node to append; its children exist. -/
def verifyAppend (node : SLTNode A) (widths : List Nat) : Except SLTNodeFactsError Nat := do
  let nodeId := widths.length
  match node with
  | .input _ _ index access =>
    checkChildren widths (index.map SLTIndex.node)
    checkedAccessWidth nodeId access "input"
  | .constant _ _ width _ => return width
  | .binary lhs op rhs =>
    return op.resultWidth (← appendChildWidth widths lhs) (← appendChildWidth widths rhs)
  | .unary op inner => return op.resultWidth (← appendChildWidth widths inner)
  | .capture expr _ => appendChildWidth widths expr
  | .mux cond thenExpr elseExpr =>
    let _ ← appendChildWidth widths cond
    return max (← appendChildWidth widths thenExpr) (← appendChildWidth widths elseExpr)
  | .forFold _ _ _ _ _ _ _ _ _ result _ _ _ _ =>
    checkChildren widths node.children
    match result with
    | .state result => checkedAccessWidth nodeId result.access "ForFold result"
    | .transient initial update =>
      let initialWidth ← appendChildWidth widths initial
      let updateWidth ← appendChildWidth widths update
      ensure (initialWidth = updateWidth) ⟨"FOR_FOLD.TRANSIENT_RESULT_WIDTH_MATCHES", nodeId,
        s!"ForFold transient result initial width {initialWidth} " ++
          s!"does not equal update width {updateWidth}"⟩
      return initialWidth
  | .forFoldGroup _ _ _ _ _ _ _ states =>
    checkChildren widths node.children
    packedGroupWidth nodeId (states.map fun state => state.target.access)
  | .concat parts =>
    parts.foldlM (fun total (child, partWidth) => do
      let _ ← appendChildWidth widths child
      ruleError nodeId (concatWidthAdd total partWidth)) 0
  | .slice expr access =>
    let _ ← appendChildWidth widths expr
    checkedAccessWidth nodeId access "slice"

end Append

/-! ## Full verification -/

section Verify
variable {A : Type} [DecidableEq A]

def verifyChildIds (owner : NodeId) (node : SLTNode A) (nodeCount : Nat) :
    Except SLTNodeFactsError Unit :=
  node.children.forM fun child => do
    ensure (child < nodeCount) ⟨"GRAPH.CHILD_EXISTS", owner,
      s!"node n{owner} references missing child n{child}; arena contains {nodeCount} nodes"⟩
    ensure (child < owner) ⟨"GRAPH.CHILD_PRECEDES_OWNER", owner,
      s!"node n{owner} references child n{child}, which does not precede its owner"⟩

/-- The number of zeros behind the lowest one. -/
def trailingZeros (value : Nat) : Option Nat := (List.range value.size).find? value.testBit

/-- The integer is one of the counter's, without truncation. -/
def integerFitsLoopCounter (value : Int) (width : Nat) (signed : Bool) : Bool :=
  if width = 0 then false
  else
    let bits := value.natAbs.size
    if signed then
      if value < 0 then
        bits < width || (bits = width && trailingZeros value.natAbs = some (width - 1))
      else bits < width
    else 0 ≤ value && bits ≤ width

def stepOpDebug : SLTStepOp → String
  | .add => "Add"
  | .mul => "Mul"
  | .shl => "Shl"
  | .bitOr => "BitOr"
  | .bitXor => "BitXor"

def factChildWidth (nodeId : NodeId) (widths : List Nat) (child : NodeId) :
    Except SLTNodeFactsError Nat :=
  match widths[child]? with
  | some width => .ok width
  | none => .error ⟨"FACTS.CHILD_WIDTH_AVAILABLE", nodeId,
      s!"width of child n{child} was not available while evaluating n{nodeId}"⟩

def requireNonzeroChild (nodeId : NodeId) (widths : List Nat) (child : NodeId) (role : String) :
    Except SLTNodeFactsError Nat := do
  let width ← factChildWidth nodeId widths child
  ensure (width ≠ 0) ⟨"FOR_FOLD.OPERAND_NON_ZERO", nodeId, s!"{role} n{child} has zero width"⟩
  return width

/-- The accesses of one variable with their positions, by their low and high ends. -/
def sortAccesses (accesses : List (BitAccess × Nat)) : List (BitAccess × Nat) :=
  accesses.insertionSort fun a b =>
    a.1.lsb < b.1.lsb ∨ (a.1.lsb = b.1.lsb ∧ a.1.msb ≤ b.1.msb)

/-- The targets of each variable are disjoint. The source visits the variables in the order of a hash
map; here they are in the order of their first targets. -/
def checkTargetsDisjoint (nodeId : NodeId) (invariant : String) (label : String)
    (targets : List (VarAtomBase A)) : Except SLTNodeFactsError Unit :=
  (targets.map VarAtomBase.id).dedup.forM fun variable_ =>
    let accesses := sortAccesses ((targets.zipIdx.filter fun entry => entry.1.id = variable_).map
      fun entry => (entry.1.access, entry.2))
    (accesses.zip accesses.tail).forM fun (previous, current) =>
      ensure (previous.1.msb < current.1.lsb) ⟨invariant, nodeId,
        s!"{label} at positions {previous.2} and {current.2} overlap"⟩

/-- The width that a bound of a loop needs. -/
def boundWidth (nodeId : NodeId) (widths : List Nat) (role : String) :
    SLTLoopBound → Except SLTNodeFactsError Nat
  | .const value => return max value.size 1
  | .expr child => requireNonzeroChild nodeId widths child role

def forFoldResultWidth (nodeId : NodeId) (widths : List Nat) (updates : List (SLTForUpdate A)) :
    SLTForFoldResult A → Except SLTNodeFactsError Nat
  | .state result => do
    let width ← checkedAccessWidth nodeId result.access "ForFold result"
    let resultCount := (updates.filter fun update => update.target = result).length
    ensure (resultCount = 1) ⟨"FOR_FOLD.RESULT_TARGET_UNIQUE", nodeId,
      s!"ForFold result occurs {resultCount} times in its update targets"⟩
    return width
  | .transient initial update => do
    let initialWidth ← requireNonzeroChild nodeId widths initial "ForFold transient initial"
    let updateWidth ← requireNonzeroChild nodeId widths update "ForFold transient update"
    ensure (initialWidth = updateWidth) ⟨"FOR_FOLD.TRANSIENT_RESULT_WIDTH_MATCHES", nodeId,
      s!"ForFold transient result initial width {initialWidth} " ++
        s!"does not equal update width {updateWidth}"⟩
    return initialWidth

def checkEffect (nodeId : NodeId) (widths : List Nat) :
    SLTForEffect → Except SLTNodeFactsError Unit
  | .event _ guard _ args _ => do
    guard.toList.forM fun guard => do
      let _ ← requireNonzeroChild nodeId widths guard "ForFold effect guard"
      return ()
    args.forM fun arg => do
      let _ ← requireNonzeroChild nodeId widths arg "ForFold effect argument"
      return ()
  | .runner runner => do
    let _ ← requireNonzeroChild nodeId widths runner "ForFold effect runner"
    return ()

/-- The states of a fold, position by position. -/
def checkForFoldStates (nodeId : NodeId) (widths : List Nat)
    (initials updates : List (SLTForUpdate A)) : Except SLTNodeFactsError Unit := do
  (initials.zip updates).zipIdx.forM fun ((initial, update), index) => do
    ensure (initial.target = update.target) ⟨"FOR_FOLD.POSITIONAL_TARGET_MATCHES", nodeId,
      s!"initial and update target differ at state position {index}"⟩
    let _ ← checkedAccessWidth nodeId update.target.access "ForFold state target"
    let _ ← requireNonzeroChild nodeId widths initial.expr "ForFold initial state"
    let _ ← requireNonzeroChild nodeId widths update.expr "ForFold update state"
    return ()
  checkTargetsDisjoint nodeId "FOR_FOLD.STATE_TARGETS_DISJOINT" "state targets"
    (updates.map SLTForUpdate.target)

/-- The states of a group with the width of their targets. -/
def groupStatesWidth (nodeId : NodeId) (widths : List Nat) (loopVar : A)
    (states : List (SLTForFoldGroupState A)) : Except SLTNodeFactsError Nat :=
  states.zipIdx.foldlM (fun packedWidth (state, index) => do
    ensure (state.target.id ≠ loopVar)
      ⟨"FOR_FOLD_GROUP.LOOP_VARIABLE_DISJOINT_FROM_STATE_TARGETS", nodeId,
        s!"ForFoldGroup state target at position {index} aliases its loop variable"⟩
    ensure (state.target ∉ (states.take index).map SLTForFoldGroupState.target)
      ⟨"FOR_FOLD_GROUP.STATE_TARGETS_UNIQUE", nodeId,
        s!"ForFoldGroup repeats state target at position {index}"⟩
    let targetWidth ← checkedAccessWidth nodeId state.target.access "ForFoldGroup state target"
    let packedWidth ← addPackedWidth nodeId index packedWidth targetWidth
    let initialWidth ← factChildWidth nodeId widths state.initial
    let updateWidth ← factChildWidth nodeId widths state.update
    ensure (initialWidth = targetWidth ∧ updateWidth = targetWidth)
      ⟨"FOR_FOLD_GROUP.STATE_WIDTHS_MATCH", nodeId,
        s!"ForFoldGroup state {index} target width {targetWidth}, " ++
          s!"initial n{state.initial} width {initialWidth}, and " ++
          s!"update n{state.update} width {updateWidth} do not match"⟩
    return packedWidth) 0

def computeWidth (nodeId : NodeId) (node : SLTNode A) (widths : List Nat) :
    Except SLTNodeFactsError Nat := do
  match node with
  | .input _ _ _ access => checkedAccessWidth nodeId access "input"
  | .constant value mask width _ => ruleError nodeId (constantWidth value mask width)
  | .binary lhs op rhs =>
    let lhsWidth ← factChildWidth nodeId widths lhs
    let rhsWidth ← factChildWidth nodeId widths rhs
    ruleError nodeId (binaryWidth op lhsWidth rhsWidth)
  | .unary op inner => return op.resultWidth (← factChildWidth nodeId widths inner)
  | .capture expr _ => factChildWidth nodeId widths expr
  | .mux _ thenExpr elseExpr =>
    return max (← factChildWidth nodeId widths thenExpr) (← factChildWidth nodeId widths elseExpr)
  | .forFold _ loopWidth loopSigned start stop inclusive _ stepOp reverse result initials updates
      effects continueCond =>
    ensure (loopWidth ≠ 0) ⟨"FOR_FOLD.LOOP_WIDTH_NON_ZERO", nodeId, "ForFold loop width is zero"⟩
    ensure (reverse = true → stepOp = .add) ⟨"FOR_FOLD.REVERSE_STEP_IS_ADD", nodeId,
      s!"reverse ForFold ignores unsupported {stepOpDebug stepOp} step semantics"⟩
    ensure (initials.length = updates.length) ⟨"FOR_FOLD.STATE_ARITY_MATCHES", nodeId,
      s!"ForFold has {initials.length} initial states but {updates.length} updates"⟩
    let startWidth ← boundWidth nodeId widths "start" start
    let stopWidth ← boundWidth nodeId widths "end" stop
    let counterWidth := max (max loopWidth startWidth) stopWidth
    ensure (inclusive = true → loopSigned = false → (checkedAdd counterWidth 1).isSome)
      ⟨"FOR_FOLD.INCLUSIVE_WIDTH_REPRESENTABLE", nodeId,
        s!"inclusive unsigned ForFold cannot widen counter width {counterWidth}"⟩
    checkForFoldStates nodeId widths initials updates
    let resultWidth ← forFoldResultWidth nodeId widths updates result
    effects.forM (checkEffect nodeId widths)
    let _ ← requireNonzeroChild nodeId widths continueCond "ForFold continue condition"
    return resultWidth
  | .forFoldGroup loopVar loopWidth loopSigned start step tripCount entryGuard states =>
    ensure (loopWidth ≠ 0) ⟨"FOR_FOLD_GROUP.LOOP_WIDTH_NON_ZERO", nodeId,
      "ForFoldGroup loop width is zero"⟩
    ensure (tripCount ≠ 0) ⟨"FOR_FOLD_GROUP.TRIP_COUNT_NON_ZERO", nodeId,
      "ForFoldGroup trip count is zero"⟩
    ensure (states ≠ []) ⟨"FOR_FOLD_GROUP.STATE_NON_EMPTY", nodeId,
      "ForFoldGroup has no loop-carried states"⟩
    let guardWidth ← factChildWidth nodeId widths entryGuard
    ensure (guardWidth = 1) ⟨"FOR_FOLD_GROUP.ENTRY_GUARD_ONE_BIT", nodeId,
      s!"ForFoldGroup entry guard n{entryGuard} has width {guardWidth}, expected 1"⟩
    let lastIteration := start + step * ((tripCount - 1 : Nat) : Int)
    let counter := if loopSigned then "signed" else "unsigned"
    ensure (integerFitsLoopCounter start loopWidth loopSigned = true ∧
        integerFitsLoopCounter lastIteration loopWidth loopSigned = true)
      ⟨"FOR_FOLD_GROUP.ITERATION_ARITHMETIC_REPRESENTABLE", nodeId,
        s!"ForFoldGroup iteration range {start}..{lastIteration} " ++
          s!"does not fit its {loopWidth}-bit {counter} loop counter"⟩
    let packedWidth ← groupStatesWidth nodeId widths loopVar states
    checkTargetsDisjoint nodeId "FOR_FOLD_GROUP.STATE_TARGETS_DISJOINT" "ForFoldGroup state targets"
      (states.map SLTForFoldGroupState.target)
    return packedWidth
  | .concat parts => ruleError nodeId (concatWidth (parts.map Prod.snd))
  | .slice expr access =>
    let expressionWidth ← factChildWidth nodeId widths expr
    ruleError nodeId (sliceWidth access expressionWidth s!"n{expr}")

structure VerifiedNodeFacts where
  widths : List Nat
  lowerable : List Bool
  unsafeInGroup : List Bool

def hasZeroConcatPart : SLTNode A → Bool
  | .concat parts => parts.any fun entry => entry.2 = 0
  | _ => false

def isForFold : SLTNode A → Bool
  | .forFold .. => true
  | _ => false

def isForFoldGroup : SLTNode A → Bool
  | .forFoldGroup .. => true
  | _ => false

/-- The lowerability and the group safety of a node with those of one more child. -/
def childFacts (nodeId : NodeId) (facts : VerifiedNodeFacts) (sofar : Bool × Bool)
    (child : NodeId) : Except SLTNodeFactsError (Bool × Bool) :=
  match facts.lowerable[child]?, facts.unsafeInGroup[child]? with
  | none, _ => .error ⟨"FACTS.CHILD_LOWERABILITY_AVAILABLE", nodeId,
      s!"lowerability of child n{child} was not available while evaluating n{nodeId}"⟩
  | some _, none => .error ⟨"FACTS.CHILD_EFFECT_AVAILABLE", nodeId,
      s!"group-safety fact of child n{child} was not available while evaluating n{nodeId}"⟩
  | some lowerable, some isUnsafe => .ok (sofar.1 && lowerable, sofar.2 || isUnsafe)

/-- The facts of one more node. The room for them is always there. -/
def verifyNode (facts : VerifiedNodeFacts) (node : SLTNode A) :
    Except SLTNodeFactsError VerifiedNodeFacts := do
  let nodeId := facts.widths.length
  let width ← computeWidth nodeId node facts.widths
  let (nodeLowerable, nodeUnsafe) ← node.children.foldlM (childFacts nodeId facts)
    (directLowerable width (hasZeroConcatPart node), isForFold node)
  ensure (isForFoldGroup node = true → nodeUnsafe = false)
    ⟨"FOR_FOLD_GROUP.CHILDREN_PURE_AND_TOTAL", nodeId,
      "ForFoldGroup guard, initial, or update reaches a legacy ForFold " ++
        "that may emit effects or terminate with an error"⟩
  return ⟨facts.widths ++ [width], facts.lowerable ++ [nodeLowerable],
    facts.unsafeInGroup ++ [nodeUnsafe]⟩

/-- Every id first, then the facts in the order of the ids. -/
def verifyNodes (nodes : List (SLTNode A)) : Except SLTNodeFactsError VerifiedNodeFacts := do
  nodes.zipIdx.forM fun (node, index) => verifyChildIds index node nodes.length
  nodes.foldlM verifyNode ⟨[], [], []⟩

end Verify
/-! ## Both widths agree -/

section Agree
variable {A : Type} {node : SLTNode A} {widths : List Nat} {nodeId width : Nat}

theorem ensure_ok {E : Type} {cond : Prop} [Decidable cond] {error : E} :
    ensure cond error = .ok () ↔ cond := by
  unfold ensure
  split <;> simp_all

theorem ruleError_ok {α : Type} {result : Except NodeRuleError α} {value : α} :
    ruleError nodeId result = .ok value ↔ result = .ok value := by
  cases result <;> simp [ruleError, Except.mapError]

theorem checkedAdd_some {a b total : Nat} (h : checkedAdd a b = some total) : total = a + b := by
  unfold checkedAdd at h
  split at h
  · exact (Option.some.inj h).symm
  · cases h

theorem accessWidth_ok {access : BitAccess} {role : String} (h : accessWidth access role = .ok width) :
    width = access.width := by
  unfold accessWidth at h
  split at h
  · cases h
  · split at h
    · rename_i total hadd
      cases h
      exact checkedAdd_some hadd
    · cases h

theorem checkedAccessWidth_ok {access : BitAccess} {role : String}
    (h : checkedAccessWidth nodeId access role = .ok width) : width = access.width :=
  accessWidth_ok (ruleError_ok.mp h)

theorem appendChildWidth_ok {child : NodeId} (h : appendChildWidth widths child = .ok width) :
    child < widths.length ∧ width = widths.getD child 0 := by
  unfold appendChildWidth at h
  split at h
  · rename_i w hw
    cases h
    obtain ⟨hlt, rfl⟩ := List.getElem?_eq_some_iff.mp hw
    exact ⟨hlt, by simp [hlt]⟩
  · cases h

theorem factChildWidth_ok {child : NodeId} (h : factChildWidth nodeId widths child = .ok width) :
    width = widths.getD child 0 := by
  unfold factChildWidth at h
  split at h
  · rename_i w hw
    cases h
    simp [List.getD, hw]
  · cases h

theorem requireNonzeroChild_ok {child : NodeId} {role : String}
    (h : requireNonzeroChild nodeId widths child role = .ok width) :
    width = widths.getD child 0 := by
  obtain ⟨w, hw, h⟩ := bind_eq_ok.mp h
  obtain ⟨_, _, h⟩ := bind_eq_ok.mp h
  cases h
  exact factChildWidth_ok hw

theorem checkChildren_ok {children : List NodeId} (h : checkChildren widths children = .ok ()) :
    ∀ child ∈ children, child < widths.length := by
  intro child hchild
  obtain ⟨w, hw, _⟩ := bind_eq_ok.mp (forM_eq_ok.mp h child hchild)
  exact (appendChildWidth_ok hw).1

/-- A loop that adds one amount a round. -/
theorem foldlM_sum {X E : Type} {step : Nat → X → Except E Nat} (amount : X → Nat) {l : List X}
    (hstep : ∀ total x total', x ∈ l → step total x = .ok total' → total' = total + amount x)
    {total total' : Nat} (h : l.foldlM step total = .ok total') :
    total' = total + (l.map amount).sum := by
  induction l generalizing total with
  | nil =>
    cases h
    simp
  | cons x l ih =>
    rw [List.foldlM_cons] at h
    obtain ⟨mid, hmid, hrest⟩ := bind_eq_ok.mp h
    rw [ih (fun t y t' hy => hstep t y t' (List.mem_cons_of_mem _ hy)) hrest,
      hstep total x mid (List.mem_cons_self ..) hmid, List.map_cons, List.sum_cons, Nat.add_assoc]

theorem concatWidthAdd_ok {accumulated partWidth total : Nat}
    (h : concatWidthAdd accumulated partWidth = .ok total) : total = accumulated + partWidth := by
  unfold concatWidthAdd at h
  split at h
  · rename_i sum hsum
    cases h
    exact checkedAdd_some hsum
  · cases h

theorem map_fst_zipIdx_sum {X : Type} (amount : X → Nat) (l : List X) :
    (l.zipIdx.map fun entry => amount entry.1).sum = (l.map amount).sum := by
  have hmap : l.zipIdx.map (fun entry => amount entry.1) = (l.zipIdx.map Prod.fst).map amount :=
    List.map_map.symm
  rw [hmap, List.zipIdx_map_fst]

theorem addPackedWidth_ok {index total total' : Nat}
    (h : addPackedWidth nodeId index total width = .ok total') : total' = total + width := by
  unfold addPackedWidth at h
  split at h
  · rename_i sum hsum
    cases h
    exact checkedAdd_some hsum
  · cases h

theorem packedGroupWidth_ok {accesses : List BitAccess}
    (h : packedGroupWidth nodeId accesses = .ok width) :
    width = (accesses.map BitAccess.width).sum := by
  have hsum := foldlM_sum (fun entry : BitAccess × Nat => entry.1.width)
    (fun total entry total' _ hstep => ?_) h
  · rw [hsum, Nat.zero_add, map_fst_zipIdx_sum BitAccess.width]
  · obtain ⟨w, hw, hadd⟩ := bind_eq_ok.mp hstep
    obtain rfl := checkedAccessWidth_ok hw
    exact addPackedWidth_ok hadd

/-- An accepted node has its children in the arena and the width its children give it. -/
theorem verifyAppend_ok (h : verifyAppend node widths = .ok width) :
    (∀ child ∈ node.children, child < widths.length) ∧ width = node.widthFrom widths := by
  cases node with
  | input variable_ signed index access =>
    obtain ⟨_, hchildren, haccess⟩ := bind_eq_ok.mp h
    exact ⟨checkChildren_ok hchildren, checkedAccessWidth_ok haccess⟩
  | constant value mask constantWidth signed =>
    cases h
    exact ⟨by simp [SLTNode.children], rfl⟩
  | binary lhs op rhs =>
    obtain ⟨_, hlhs, h⟩ := bind_eq_ok.mp h
    obtain ⟨_, hrhs, h⟩ := bind_eq_ok.mp h
    obtain ⟨hl, rfl⟩ := appendChildWidth_ok hlhs
    obtain ⟨hr, rfl⟩ := appendChildWidth_ok hrhs
    cases h
    exact ⟨by simp [SLTNode.children, hl, hr], rfl⟩
  | unary op inner =>
    obtain ⟨_, hinner, h⟩ := bind_eq_ok.mp h
    obtain ⟨hlt, rfl⟩ := appendChildWidth_ok hinner
    cases h
    exact ⟨by simp [SLTNode.children, hlt], rfl⟩
  | capture expr key =>
    obtain ⟨hlt, rfl⟩ := appendChildWidth_ok h
    exact ⟨by simp [SLTNode.children, hlt], rfl⟩
  | mux cond thenExpr elseExpr =>
    obtain ⟨_, hcond, h⟩ := bind_eq_ok.mp h
    obtain ⟨_, hthen, h⟩ := bind_eq_ok.mp h
    obtain ⟨_, helse, h⟩ := bind_eq_ok.mp h
    obtain ⟨hc, -⟩ := appendChildWidth_ok hcond
    obtain ⟨ht, rfl⟩ := appendChildWidth_ok hthen
    obtain ⟨he, rfl⟩ := appendChildWidth_ok helse
    cases h
    exact ⟨by simp [SLTNode.children, hc, ht, he], rfl⟩
  | forFold loopVar loopWidth loopSigned start stop inclusive step stepOp reverse result initials
      updates effects continueCond =>
    obtain ⟨_, hchildren, h⟩ := bind_eq_ok.mp h
    refine ⟨checkChildren_ok hchildren, ?_⟩
    cases result with
    | state target => exact checkedAccessWidth_ok h
    | transient initial update =>
      obtain ⟨_, hinitial, h⟩ := bind_eq_ok.mp h
      obtain ⟨_, _, h⟩ := bind_eq_ok.mp h
      obtain ⟨_, _, h⟩ := bind_eq_ok.mp h
      cases h
      exact (appendChildWidth_ok hinitial).2
  | forFoldGroup loopVar loopWidth loopSigned start step tripCount entryGuard states =>
    obtain ⟨_, hchildren, h⟩ := bind_eq_ok.mp h
    refine ⟨checkChildren_ok hchildren, ?_⟩
    rw [packedGroupWidth_ok h, List.map_map]
    rfl
  | concat parts =>
    have hstep : ∀ (l : List (NodeId × Nat)) (total width : Nat), l.foldlM (fun total entry => do
        let _ ← appendChildWidth widths entry.1
        ruleError widths.length (concatWidthAdd total entry.2)) total = .ok width →
        (∀ entry ∈ l, entry.1 < widths.length) ∧ width = total + (l.map Prod.snd).sum := by
      intro l
      induction l with
      | nil =>
        intro total width h
        cases h
        simp
      | cons entry l ih =>
        intro total width h
        rw [List.foldlM_cons] at h
        obtain ⟨mid, hmid, hrest⟩ := bind_eq_ok.mp h
        obtain ⟨_, hchild, hadd⟩ := bind_eq_ok.mp hmid
        obtain ⟨hall, rfl⟩ := ih mid width hrest
        rw [concatWidthAdd_ok (ruleError_ok.mp hadd), List.forall_mem_cons, List.map_cons,
          List.sum_cons, Nat.add_assoc]
        exact ⟨⟨(appendChildWidth_ok hchild).1, hall⟩, rfl⟩
    obtain ⟨hall, rfl⟩ := hstep parts 0 width h
    exact ⟨by simpa [SLTNode.children] using fun a b => hall (a, b), Nat.zero_add _⟩
  | slice expr access =>
    obtain ⟨_, hexpr, h⟩ := bind_eq_ok.mp h
    exact ⟨by simp [SLTNode.children, (appendChildWidth_ok hexpr).1], checkedAccessWidth_ok h⟩

variable [DecidableEq A]

theorem forFoldResultWidth_ok {updates : List (SLTForUpdate A)} {result : SLTForFoldResult A}
    (h : forFoldResultWidth nodeId widths updates result = .ok width) :
    match result with
    | .state target => width = target.access.width
    | .transient initial _ => width = widths.getD initial 0 := by
  cases result with
  | state target =>
    obtain ⟨_, haccess, h⟩ := bind_eq_ok.mp h
    obtain ⟨_, _, h⟩ := bind_eq_ok.mp h
    cases h
    exact checkedAccessWidth_ok haccess
  | transient initial update =>
    obtain ⟨_, hinitial, h⟩ := bind_eq_ok.mp h
    obtain ⟨_, _, h⟩ := bind_eq_ok.mp h
    obtain ⟨_, _, h⟩ := bind_eq_ok.mp h
    cases h
    exact requireNonzeroChild_ok hinitial

theorem groupStatesWidth_ok {loopVar : A} {states : List (SLTForFoldGroupState A)}
    (h : groupStatesWidth nodeId widths loopVar states = .ok width) :
    width = (states.map fun state => state.target.access.width).sum := by
  have hsum := foldlM_sum
    (fun entry : SLTForFoldGroupState A × Nat => entry.1.target.access.width)
    (fun total entry total' _ hstep => ?_) h
  · rw [hsum, Nat.zero_add,
      map_fst_zipIdx_sum fun state : SLTForFoldGroupState A => state.target.access.width]
  · obtain ⟨_, _, hstep⟩ := bind_eq_ok.mp hstep
    obtain ⟨_, _, hstep⟩ := bind_eq_ok.mp hstep
    obtain ⟨w, hw, hstep⟩ := bind_eq_ok.mp hstep
    obtain ⟨sum, hsum, hstep⟩ := bind_eq_ok.mp hstep
    obtain ⟨_, _, hstep⟩ := bind_eq_ok.mp hstep
    obtain ⟨_, _, hstep⟩ := bind_eq_ok.mp hstep
    obtain ⟨_, _, hstep⟩ := bind_eq_ok.mp hstep
    cases hstep
    obtain rfl := checkedAccessWidth_ok hw
    exact addPackedWidth_ok hsum

/-- What full verification accepts has the width its children give it. -/
theorem computeWidth_ok (h : computeWidth nodeId node widths = .ok width) :
    width = node.widthFrom widths := by
  cases node with
  | input variable_ signed index access => exact checkedAccessWidth_ok h
  | constant value mask constantWidth signed =>
    obtain ⟨_, _, h⟩ := bind_eq_ok.mp (ruleError_ok.mp h)
    obtain ⟨_, _, h⟩ := bind_eq_ok.mp h
    cases h
    rfl
  | binary lhs op rhs =>
    obtain ⟨_, hlhs, h⟩ := bind_eq_ok.mp h
    obtain ⟨_, hrhs, h⟩ := bind_eq_ok.mp h
    obtain ⟨_, _, h⟩ := bind_eq_ok.mp (ruleError_ok.mp h)
    cases h
    rw [factChildWidth_ok hlhs, factChildWidth_ok hrhs]
    rfl
  | unary op inner =>
    obtain ⟨_, hinner, h⟩ := bind_eq_ok.mp h
    cases h
    rw [factChildWidth_ok hinner]
    rfl
  | capture expr key => exact factChildWidth_ok h
  | mux cond thenExpr elseExpr =>
    obtain ⟨_, hthen, h⟩ := bind_eq_ok.mp h
    obtain ⟨_, helse, h⟩ := bind_eq_ok.mp h
    cases h
    rw [factChildWidth_ok hthen, factChildWidth_ok helse]
    rfl
  | forFold loopVar loopWidth loopSigned start stop inclusive step stepOp reverse result initials
      updates effects continueCond =>
    obtain ⟨_, _, h⟩ := bind_eq_ok.mp h
    obtain ⟨_, _, h⟩ := bind_eq_ok.mp h
    obtain ⟨_, _, h⟩ := bind_eq_ok.mp h
    obtain ⟨_, _, h⟩ := bind_eq_ok.mp h
    obtain ⟨_, _, h⟩ := bind_eq_ok.mp h
    obtain ⟨_, _, h⟩ := bind_eq_ok.mp h
    obtain ⟨_, _, h⟩ := bind_eq_ok.mp h
    obtain ⟨_, hresult, h⟩ := bind_eq_ok.mp h
    obtain ⟨_, _, h⟩ := bind_eq_ok.mp h
    obtain ⟨_, _, h⟩ := bind_eq_ok.mp h
    cases h
    cases result <;> exact forFoldResultWidth_ok hresult
  | forFoldGroup loopVar loopWidth loopSigned start step tripCount entryGuard states =>
    obtain ⟨_, _, h⟩ := bind_eq_ok.mp h
    obtain ⟨_, _, h⟩ := bind_eq_ok.mp h
    obtain ⟨_, _, h⟩ := bind_eq_ok.mp h
    obtain ⟨_, _, h⟩ := bind_eq_ok.mp h
    obtain ⟨_, _, h⟩ := bind_eq_ok.mp h
    obtain ⟨_, _, h⟩ := bind_eq_ok.mp h
    obtain ⟨_, hstates, h⟩ := bind_eq_ok.mp h
    obtain ⟨_, _, h⟩ := bind_eq_ok.mp h
    cases h
    exact groupStatesWidth_ok hstates
  | concat parts =>
    have hsum := foldlM_sum id (fun _ _ _ _ hstep => concatWidthAdd_ok hstep)
      (ruleError_ok.mp h)
    rw [hsum, Nat.zero_add, List.map_id]
    rfl
  | slice expr access =>
    obtain ⟨_, _, h⟩ := bind_eq_ok.mp h
    obtain ⟨_, haccess, h⟩ := bind_eq_ok.mp (ruleError_ok.mp h)
    obtain ⟨_, _, h⟩ := bind_eq_ok.mp h
    cases h
    exact accessWidth_ok haccess

end Agree
end Celox.Slt
