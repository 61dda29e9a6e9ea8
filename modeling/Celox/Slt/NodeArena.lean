import Celox.Bytes.Integers
import Celox.Slt.NodeFacts

/-! # The arena of nodes

Nodes are appended once each and edited in place at the events of their loops. Beside them the
arena keeps an id for every stored node and the width of every node, and a stored arena is rebuilt
from its nodes alone. -/
namespace Celox.Slt
open Celox.Analysis (checkedAdd)
open Celox.Bytes (ByteForm)

/-- `SLTNodeArena` with all its fields. -/
structure NodeArena (A : Type) where
  nodes : List (SLTNode A)
  cache : SLTNode A → Option NodeId
  widths : List Nat

/-! ## Appending -/

section Alloc
variable {A : Type} [DecidableEq A]

namespace NodeArena

def new : NodeArena A := ⟨[], fun _ => none, []⟩

def alloc (arena : NodeArena A) (node : SLTNode A) :
    NodeArena A × Except SLTNodeFactsError NodeId :=
  match arena.cache node with
  | some id => (arena, .ok id)
  | none =>
    match verifyAppend node arena.widths with
    | .error error => (arena, .error error)
    | .ok width =>
      let id := arena.nodes.length
      ({ nodes := arena.nodes ++ [node]
         cache := Function.update arena.cache node (some id)
         widths := arena.widths ++ [width] }, .ok id)

end NodeArena

/-- `cache.entry(node).or_insert(id)`. -/
def orInsert (cache : SLTNode A → Option NodeId) (entry : SLTNode A × NodeId) :
    SLTNode A → Option NodeId :=
  match cache entry.1 with
  | some _ => cache
  | none => Function.update cache entry.1 (some entry.2)

def rebuildCache (nodes : List (SLTNode A)) : SLTNode A → Option NodeId :=
  nodes.zipIdx.foldl orInsert fun _ => none

end Alloc

/-! ## Editing events -/

inductive SLTNodeArenaEditError where
  | rangeOutOfBounds (start stop nodeCount : Nat)
  | siteIdOverflow (siteId offset : Nat)
  | storageUnavailable (effectCount : Nat)
  | effectCountOverflow
  | editPlanMismatch
  deriving Repr, DecidableEq

structure EffectEdit where
  nodeIndex : Nat
  effectIndex : Nat
  siteId : Nat
  fatalErrorCode : Option Int
  deriving Repr, DecidableEq

namespace SLTNode
variable {A : Type}

def effects : SLTNode A → List SLTForEffect
  | .forFold _ _ _ _ _ _ _ _ _ _ _ _ effects _ => effects
  | _ => []

def withEffects (effects : List SLTForEffect) : SLTNode A → SLTNode A
  | .forFold loopVar loopWidth loopSigned start stop inclusive step stepOp reverse result initials
      updates _ continueCond =>
    .forFold loopVar loopWidth loopSigned start stop inclusive step stepOp reverse result initials
      updates effects continueCond
  | node => node

end SLTNode

section Remap
variable {A : Type} {σ : Type}
variable (remap : σ → Nat → Option Int →
  Except SLTNodeArenaEditError (Option (Nat × Option Int) × σ))

def effectCount (nodes : List (SLTNode A)) : Option Nat :=
  nodes.foldlM (fun count node => checkedAdd count node.effects.length) 0

/-- The edit of one event, where the mapping changes it. -/
def changedEdit (nodeIndex effectIndex siteId : Nat) (fatalErrorCode : Option Int) :
    Option (Nat × Option Int) → List EffectEdit
  | none => []
  | some (mappedSiteId, mappedFatalErrorCode) =>
    if siteId ≠ mappedSiteId ∨ fatalErrorCode ≠ mappedFatalErrorCode then
      [⟨nodeIndex, effectIndex, mappedSiteId, mappedFatalErrorCode⟩]
    else []

/-- The mapping may keep a state of its own. -/
def collectEffect (nodeIndex : Nat) (sofar : σ × List EffectEdit) (entry : SLTForEffect × Nat) :
    Except SLTNodeArenaEditError (σ × List EffectEdit) :=
  match entry.1 with
  | .runner _ => .ok sofar
  | .event siteId _ _ _ fatalErrorCode => do
    let (mapped, state) ← remap sofar.1 siteId fatalErrorCode
    return (state, sofar.2 ++ changedEdit nodeIndex entry.2 siteId fatalErrorCode mapped)

def collectNode (sofar : σ × List EffectEdit) (entry : SLTNode A × Nat) :
    Except SLTNodeArenaEditError (σ × List EffectEdit) :=
  entry.1.effects.zipIdx.foldlM (collectEffect remap entry.2) sofar

def collectEdits (nodes : List (SLTNode A)) (state : σ) :
    Except SLTNodeArenaEditError (σ × List EffectEdit) :=
  nodes.zipIdx.foldlM (collectNode remap) (state, [])

def effectAt (nodes : List (SLTNode A)) (edit : EffectEdit) : Option SLTForEffect :=
  nodes[edit.nodeIndex]?.bind fun node => node.effects[edit.effectIndex]?

/-- The edits in their order; those before a mismatch stay applied. -/
def applyEdits : List EffectEdit → List (SLTNode A) →
    List (SLTNode A) × Except SLTNodeArenaEditError Unit
  | [], nodes => (nodes, .ok ())
  | edit :: edits, nodes =>
    match effectAt nodes edit with
    | none => applyEdits edits nodes
    | some (.runner _) => (nodes, .error .editPlanMismatch)
    | some (.event _ guard emitOnTrue args _) =>
      applyEdits edits (nodes.modify edit.nodeIndex fun node =>
        node.withEffects (node.effects.set edit.effectIndex
          (.event edit.siteId guard emitOnTrue args edit.fatalErrorCode)))

variable [DecidableEq A]

/-- `storage` says how many edits there is room for. -/
def NodeArena.remapForFoldEffectSites (arena : NodeArena A) (start stop : Nat)
    (storage : Nat → Bool) (state : σ) : NodeArena A × Except SLTNodeArenaEditError Unit :=
  if start ≤ stop ∧ stop ≤ arena.nodes.length then
    let nodes := (arena.nodes.take stop).drop start
    match effectCount nodes with
    | none => (arena, .error .effectCountOverflow)
    | some count =>
      if storage count then
        match collectEdits remap nodes state with
        | .error error => (arena, .error error)
        | .ok (_, edits) =>
          if edits = [] then (arena, .ok ())
          else if edits.any fun edit => (effectAt nodes edit).isNone then
            (arena, .error .editPlanMismatch)
          else
            let (edited, applied) := applyEdits edits nodes
            let nodes := arena.nodes.take start ++ edited ++ arena.nodes.drop stop
            match applied with
            | .error error => (⟨nodes, arena.cache, arena.widths⟩, .error error)
            | .ok () => (⟨nodes, rebuildCache nodes, arena.widths⟩, .ok ())
      else (arena, .error (.storageUnavailable count))
  else (arena, .error (.rangeOutOfBounds start stop arena.nodes.length))

end Remap

/-! ## Storing -/

/-- The byte forms of the big integers that nodes hold. -/
structure BigIntegers where
  biguint : ByteForm Nat
  bigint : ByteForm Int

/-- A format reads back what it could write. -/
structure SerdeFormat (W D E : Type) where
  serialize : W → Except E D
  deserialize : D → Except E W
  custom : String → E
  deserialize_serialize : ∀ {wire data}, serialize wire = .ok data → deserialize data = .ok wire

inductive SLTNodeSerde (A : Type) where
  | input (variable_ : A) (signed : Bool) (index : List SLTIndex) (access : BitAccess)
  | constant (payload mask : List UInt8) (width : Nat) (signed : Bool)
  | binary (lhs : NodeId) (op : BinaryOp) (rhs : NodeId)
  | unary (op : UnaryOp) (inner : NodeId)
  | mux (cond thenExpr elseExpr : NodeId)
  | forFold (loopVar : A) (loopWidth : Nat) (loopSigned : Bool) (start stop : SLTLoopBound)
      (inclusive : Bool) (step : Nat) (stepOp : SLTStepOp) (reverse : Bool)
      (result : SLTForFoldResult A) (initials updates : List (SLTForUpdate A))
      (effects : List SLTForEffect) (continueCond : NodeId)
  | forFoldGroup (loopVar : A) (loopWidth : Nat) (loopSigned : Bool) (start step : List UInt8)
      (tripCount : Nat) (entryGuard : NodeId) (states : List (SLTForFoldGroupState A))
  | concat (parts : List (NodeId × Nat))
  | slice (expr : NodeId) (access : BitAccess)
  | capture (expr : NodeId) (key : Nat)
  deriving Repr, DecidableEq

section Serde
variable {A : Type} (numbers : BigIntegers)

def SLTNode.toSerde : SLTNode A → SLTNodeSerde A
  | .input variable_ signed index access => .input variable_ signed index access
  | .constant payload mask width signed =>
    .constant (numbers.biguint.toBytes payload) (numbers.biguint.toBytes mask) width signed
  | .binary lhs op rhs => .binary lhs op rhs
  | .unary op inner => .unary op inner
  | .capture expr key => .capture expr key
  | .mux cond thenExpr elseExpr => .mux cond thenExpr elseExpr
  | .forFold loopVar loopWidth loopSigned start stop inclusive step stepOp reverse result initials
      updates effects continueCond =>
    .forFold loopVar loopWidth loopSigned start stop inclusive step stepOp reverse result initials
      updates effects continueCond
  | .forFoldGroup loopVar loopWidth loopSigned start step tripCount entryGuard states =>
    .forFoldGroup loopVar loopWidth loopSigned (numbers.bigint.toBytes start)
      (numbers.bigint.toBytes step) tripCount entryGuard states
  | .concat parts => .concat parts
  | .slice expr access => .slice expr access

def SLTNodeSerde.toNode : SLTNodeSerde A → SLTNode A
  | .input variable_ signed index access => .input variable_ signed index access
  | .constant payload mask width signed =>
    .constant (numbers.biguint.fromBytes payload) (numbers.biguint.fromBytes mask) width signed
  | .binary lhs op rhs => .binary lhs op rhs
  | .unary op inner => .unary op inner
  | .capture expr key => .capture expr key
  | .mux cond thenExpr elseExpr => .mux cond thenExpr elseExpr
  | .forFold loopVar loopWidth loopSigned start stop inclusive step stepOp reverse result initials
      updates effects continueCond =>
    .forFold loopVar loopWidth loopSigned start stop inclusive step stepOp reverse result initials
      updates effects continueCond
  | .forFoldGroup loopVar loopWidth loopSigned start step tripCount entryGuard states =>
    .forFoldGroup loopVar loopWidth loopSigned (numbers.bigint.fromBytes start)
      (numbers.bigint.fromBytes step) tripCount entryGuard states
  | .concat parts => .concat parts
  | .slice expr access => .slice expr access

theorem SLTNode.toNode_toSerde (node : SLTNode A) : (node.toSerde numbers).toNode numbers = node := by
  cases node <;>
    simp only [SLTNode.toSerde, SLTNodeSerde.toNode, numbers.biguint.fromBytes_toBytes,
      numbers.bigint.fromBytes_toBytes]

variable {numbers} {D E : Type} (format : SerdeFormat (List (SLTNodeSerde A)) D E)

def SLTNodeFactsError.display (error : SLTNodeFactsError) : String :=
  s!"SLT node facts verify [{error.invariant}] at n{error.node}: {error.message}"

variable [DecidableEq A]

def NodeArena.fromRawNodes (nodes : List (SLTNode A)) :
    Except SLTNodeFactsError (NodeArena A) := do
  let facts ← verifyNodes nodes
  return ⟨nodes, rebuildCache nodes, facts.widths⟩

variable (numbers)

/-- The nodes alone are stored. -/
def NodeArena.serialize (arena : NodeArena A) : Except E D :=
  format.serialize (arena.nodes.map (SLTNode.toSerde numbers))

def NodeArena.deserialize (data : D) : Except E (NodeArena A) := do
  let wire ← format.deserialize data
  (NodeArena.fromRawNodes (wire.map (SLTNodeSerde.toNode numbers))).mapError fun error =>
    format.custom error.display

end Serde

/-! ## Verifying an arena -/

section Facts
variable {A : Type} [DecidableEq A]

def optionDebug : Option Nat → String
  | none => "None"
  | some value => s!"Some({value})"

/-- The first position where two lists differ. -/
def firstMismatch (cached verified : List Nat) : Nat :=
  ((cached.zip verified).findIdx? fun entry => entry.1 ≠ entry.2).getD
    (min cached.length verified.length)

/-- `SLTNodeFacts::verify`. -/
def NodeArena.verify (arena : NodeArena A) : Except SLTNodeFactsError VerifiedNodeFacts := do
  let verified ← verifyNodes arena.nodes
  let mismatch := firstMismatch arena.widths verified.widths
  ensure (arena.widths = verified.widths) ⟨"FACTS.CACHED_WIDTH_MATCHES", mismatch,
    "construction width cache differs from independently verified widths at " ++
      s!"n{mismatch} (cached={optionDebug arena.widths[mismatch]?}, " ++
      s!"verified={optionDebug verified.widths[mismatch]?}; " ++
      s!"cache entries={arena.widths.length}, nodes={verified.widths.length})"⟩
  return verified

end Facts
end Celox.Slt

/-! ## Recursion over the nodes

Children come before their owners, so what is said of a node may use what is said of its children. -/
namespace Celox.Slt

section Recursion
variable {A V : Type} (nodes : List (SLTNode A)) (absent : V)
  (step : NodeId → SLTNode A → (NodeId → V) → V)

def recurseFuel : Nat → NodeId → V
  | 0, _ => absent
  | fuel + 1, id =>
    match nodes[id]? with
    | none => absent
    | some node => step id node (recurseFuel fuel)

def recurse (id : NodeId) : V := recurseFuel nodes absent step (id + 1) id

variable {nodes absent step}

theorem recurseFuel_eq (hchild : ∀ (id : Nat) node, nodes[id]? = some node →
      ∀ child ∈ node.children, child < id)
    (hstep : ∀ id node f g, (∀ child ∈ node.children, f child = g child) →
      step id node f = step id node g) {fuel id : Nat} (h : id < fuel) :
    recurseFuel nodes absent step fuel id = recurse nodes absent step id := by
  induction id using Nat.strong_induction_on generalizing fuel with
  | _ id ih =>
    obtain ⟨fuel, rfl⟩ : ∃ k, fuel = k + 1 := ⟨fuel - 1, by omega⟩
    rw [recurse, recurseFuel, recurseFuel]
    cases hnode : nodes[id]? with
    | none => rfl
    | some node =>
      refine hstep id node _ _ fun child hmem => ?_
      have hlt := hchild id node hnode child hmem
      rw [ih child hlt (Nat.lt_of_lt_of_le hlt (Nat.lt_succ_iff.mp h)), ih child hlt hlt]

/-- The value at a node from those at its children. -/
theorem recurse_eq (hchild : ∀ (id : Nat) node, nodes[id]? = some node →
      ∀ child ∈ node.children, child < id)
    (hstep : ∀ id node f g, (∀ child ∈ node.children, f child = g child) →
      step id node f = step id node g) {id : Nat} {node : SLTNode A} (h : nodes[id]? = some node) :
    recurse nodes absent step id = step id node (recurse nodes absent step) := by
  rw [recurse, recurseFuel, h]
  refine hstep id node _ _ fun child hmem => ?_
  exact recurseFuel_eq hchild hstep (hchild id node h child hmem)

end Recursion

namespace NodeArena
variable {A : Type} (arena : NodeArena A)

/-- `get_width`. -/
def width (id : NodeId) : Nat := arena.widths.getD id 0

end NodeArena
end Celox.Slt
