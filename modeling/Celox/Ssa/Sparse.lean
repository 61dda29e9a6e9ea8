import Mathlib

/-! # Sparse pruned SSA over caller-defined variables

Events are ordered within each block. Sets are lists of their members; where the code walks one
in key order, the model sorts it first. -/
namespace Celox.Ssa

/-- The view of a control-flow graph that the construction reads. -/
structure SsaCfg where
  root : Nat
  predecessors : List (List Nat)
  successors : List (List Nat)
  dominatorChildren : List (List Nat)
  dominanceFrontier : List (List Nat)
  deriving DecidableEq, Repr

/-- The row of a block in one of the graph's tables. -/
def row (table : List (List Nat)) (block : Nat) : List Nat := table[block]?.getD []

inductive Version (V D : Type) where
  | entry (var : V)
  | definition (var : V) (definition : D)
  | phi (var : V) (block : Nat)
  deriving DecidableEq, Repr

inductive Event (V D U : Type) where
  | use (var : V) (usage : U)
  | definition (var : V) (definition : D)
  deriving DecidableEq, Repr

structure Phi (V D : Type) where
  var : V
  block : Nat
  version : Version V D
  inputs : List (Nat × Version V D)
  deriving DecidableEq, Repr

structure SparseSsa (V D U : Type) where
  phis : List (Phi V D)
  phisByBlock : List (List Nat)
  uses : List (U × Version V D)
  deriving DecidableEq, Repr

structure SsaError where
  rule : String
  block : Option Nat
  message : String
  deriving DecidableEq, Repr

section Build
variable {V D U : Type} [LinearOrder V] [DecidableEq D] [DecidableEq U]

local instance lawfulVariable : LawfulBEq V := inferInstance

def insertNew {α : Type} [DecidableEq α] (a : α) (s : List α) : List α :=
  if a ∈ s then s else s ++ [a]

/-! ## Collecting definitions and upward exposed uses -/

structure Scan (V D U : Type) where
  definitions : List (V × Nat)
  definitionIds : List (V × D)
  upwardUses : List (V × Nat)
  usageIds : List U

/-- One event, with the variables the block has defined so far. -/
def scanEvent (block : Nat) (state : Scan V D U × List V) (event : Event V D U) :
    Except SsaError (Scan V D U × List V) :=
  let (scan, locallyDefined) := state
  match event with
  | .use var usage =>
    if usage ∈ scan.usageIds then
      .error ⟨"SSA.USE_IDENTITY", some block, "one use identity occurs more than once"⟩
    else
      let scan := { scan with usageIds := scan.usageIds ++ [usage] }
      .ok (if var ∈ locallyDefined then scan
        else { scan with upwardUses := insertNew (var, block) scan.upwardUses }, locallyDefined)
  | .definition var definition =>
    if (var, definition) ∈ scan.definitionIds then
      .error ⟨"SSA.DEFINITION_IDENTITY", some block,
        "one variable-definition identity occurs more than once"⟩
    else
      .ok ({ scan with
        definitionIds := scan.definitionIds ++ [(var, definition)]
        definitions := insertNew (var, block) scan.definitions }, insertNew var locallyDefined)

def scanBlock (scan : Scan V D U) (block : List (Event V D U) × Nat) :
    Except SsaError (Scan V D U) := do
  let (scan, _) ← block.1.foldlM (scanEvent block.2) (scan, [])
  return scan

def scanEvents (events : List (List (Event V D U))) : Except SsaError (Scan V D U) :=
  events.zipIdx.foldlM scanBlock ⟨[], [], [], []⟩

/-! ## Liveness and phi placement -/

def pairLe (p q : V × Nat) : Prop := p.1 < q.1 ∨ p.1 = q.1 ∧ p.2 ≤ q.2

instance : DecidableRel (pairLe (V := V)) := fun _ _ => inferInstanceAs (Decidable (_ ∨ _))

/-- The predecessors of a block into which a variable is live too. -/
def liveStep (definitionPairs : List (V × Nat)) (var : V)
    (state : List (V × Nat) × List (V × Nat)) (predecessor : Nat) :
    List (V × Nat) × List (V × Nat) :=
  let (work, liveIn) := state
  if (var, predecessor) ∉ definitionPairs ∧ (var, predecessor) ∉ liveIn then
    (work ++ [(var, predecessor)], liveIn ++ [(var, predecessor)])
  else (work, liveIn)

def liveLoop (cfg : SsaCfg) (definitionPairs : List (V × Nat)) :
    (fuel : Nat) → (work liveIn : List (V × Nat)) → List (V × Nat)
  | 0, _, liveIn => liveIn
  | _ + 1, [], liveIn => liveIn
  | fuel + 1, (var, block) :: work, liveIn =>
    let (work, liveIn) := (row cfg.predecessors block).foldl (liveStep definitionPairs var)
      (work, liveIn)
    liveLoop cfg definitionPairs fuel work liveIn

/-- Every pair is queued at most once, so the fuel covers the whole list. -/
def liveIn (cfg : SsaCfg) (scan : Scan V D U) : List (V × Nat) :=
  liveLoop cfg scan.definitions (scan.upwardUses.length * (cfg.successors.length + 1))
    (scan.upwardUses.insertionSort pairLe) scan.upwardUses

structure Placement (V : Type) where
  work : List Nat
  queued : List Nat
  phiPairs : List (Nat × V)

def placeStep (live : List (V × Nat)) (var : V) (state : Placement V) (frontier : Nat) :
    Placement V :=
  if (var, frontier) ∉ live ∨ (frontier, var) ∈ state.phiPairs then state
  else
    let state := { state with phiPairs := state.phiPairs ++ [(frontier, var)] }
    if frontier ∈ state.queued then state
    else { state with queued := state.queued ++ [frontier], work := state.work ++ [frontier] }

def placeLoop (cfg : SsaCfg) (live : List (V × Nat)) (var : V) :
    (fuel : Nat) → Placement V → List (Nat × V)
  | 0, state => state.phiPairs
  | fuel + 1, state =>
    match state.work with
    | [] => state.phiPairs
    | definition :: work => placeLoop cfg live var fuel
        ((row cfg.dominanceFrontier definition).foldl (placeStep live var) { state with work })

/-- The phis of one variable, added to those placed before. -/
def placeVariable (cfg : SsaCfg) (scan : Scan V D U) (live : List (V × Nat))
    (phiPairs : List (Nat × V)) (var : V) : List (Nat × V) :=
  let original := ((scan.definitions.filter (·.1 = var)).map (·.2)).insertionSort (· ≤ ·)
  placeLoop cfg live var (original.length + cfg.successors.length) ⟨original, original, phiPairs⟩

def phiPairs (cfg : SsaCfg) (scan : Scan V D U) (live : List (V × Nat)) : List (Nat × V) :=
  (((scan.definitions.map (·.1)).dedup).insertionSort (· ≤ ·)).foldl
    (placeVariable cfg scan live) []

def phiLe (p q : Nat × V) : Prop := p.1 < q.1 ∨ p.1 = q.1 ∧ p.2 ≤ q.2

instance : DecidableRel (phiLe (V := V)) := fun _ _ => inferInstanceAs (Decidable (_ ∨ _))

def makePhis (pairs : List (Nat × V)) : List (Phi V D) :=
  pairs.map fun (block, var) => ⟨var, block, .phi var block, []⟩

def indexPhis (blocks : Nat) (pairs : List (Nat × V)) : List (List Nat) :=
  (List.range blocks).map fun block => (pairs.zipIdx.filter (·.1.1 = block)).map (·.2)

/-! ## Renaming along the dominator tree -/

inductive Action (V D : Type) where
  | enter (block : Nat)
  | exit (changes : List (V × Option (Version V D)))

structure Rename (V D U : Type) where
  current : V → Option (Version V D)
  uses : List (U × Version V D)
  phis : List (Phi V D)

/-- The version a variable has now. -/
def Rename.get (state : Rename V D U) (var : V) : Version V D :=
  (state.current var).getD (.entry var)

abbrev Changes (V D : Type) := List (V × Option (Version V D))

def Rename.insert (state : Rename V D U × Changes V D) (var : V) (version : Version V D) :
    Rename V D U × Changes V D :=
  ({ state.1 with current := Function.update state.1.current var (some version) },
    state.2 ++ [(var, state.1.current var)])

def renamePhi (state : Rename V D U × Changes V D) (phi : Nat) : Rename V D U × Changes V D :=
  match state.1.phis[phi]? with
  | none => state
  | some p => Rename.insert state p.var p.version

def renameEvent (block : Nat) (state : Rename V D U × Changes V D) (event : Event V D U) :
    Except SsaError (Rename V D U × Changes V D) :=
  match event with
  | .use var usage =>
    if usage ∈ state.1.uses.map Prod.fst then
      .error ⟨"SSA.USE_RENAME", some block, "dominator rename visited one use more than once"⟩
    else .ok ({ state.1 with uses := state.1.uses ++ [(usage, state.1.get var)] }, state.2)
  | .definition var definition => .ok (Rename.insert state var (.definition var definition))

/-- What the block hands to one phi of a successor. -/
def pushInput (block : Nat) (state : Rename V D U) (phi : Nat) : Rename V D U :=
  match state.phis[phi]? with
  | none => state
  | some p => { state with
      phis := state.phis.set phi { p with inputs := p.inputs ++ [(block, state.get p.var)] } }

def pushInputs (phisByBlock : List (List Nat)) (block : Nat) (state : Rename V D U)
    (successor : Nat) : Rename V D U :=
  (row phisByBlock successor).foldl (pushInput block) state

/-- Undo the bindings of a block, last first. -/
def restore (current : V → Option (Version V D)) (changes : Changes V D) :
    V → Option (Version V D) :=
  changes.reverse.foldl (fun current (var, previous) => Function.update current var previous)
    current

def renameBlock (cfg : SsaCfg) (events : List (List (Event V D U)))
    (phisByBlock : List (List Nat)) (block : Nat) (state : Rename V D U) :
    Except SsaError (Rename V D U × Changes V D) := do
  let state := (row phisByBlock block).foldl renamePhi (state, [])
  let (state, changes) ← (events[block]?.getD []).foldlM (renameEvent block) state
  return ((row cfg.successors block).foldl (pushInputs phisByBlock block) state, changes)

/-- A tree has every block once, so every block is entered and left once. -/
def renameLoop (cfg : SsaCfg) (events : List (List (Event V D U)))
    (phisByBlock : List (List Nat)) :
    (fuel : Nat) → List (Action V D) → Rename V D U → Except SsaError (Rename V D U)
  | 0, _, state => .ok state
  | _ + 1, [], state => .ok state
  | fuel + 1, .exit changes :: actions, state =>
    renameLoop cfg events phisByBlock fuel actions
      { state with current := restore state.current changes }
  | fuel + 1, .enter block :: actions, state => do
    let (state, changes) ← renameBlock cfg events phisByBlock block state
    renameLoop cfg events phisByBlock fuel
      ((row cfg.dominatorChildren block).map .enter ++ .exit changes :: actions) state

/-! ## The whole construction -/

def inputLe (p q : Nat × Version V D) : Prop := p.1 ≤ q.1

instance : DecidableRel (inputLe (V := V) (D := D)) := fun _ _ => inferInstanceAs (Decidable (_ ≤ _))

/-- The inputs of a phi in predecessor order, one for each predecessor. -/
def finishPhi (cfg : SsaCfg) (phi : Phi V D) : Except SsaError (Phi V D) :=
  let inputs := phi.inputs.insertionSort inputLe
  if inputs.map Prod.fst = row cfg.predecessors phi.block then .ok { phi with inputs }
  else .error ⟨"SSA.PHI_INPUTS", some phi.block,
    "phi inputs do not cover every CFG predecessor exactly once"⟩

def build (cfg : SsaCfg) (events : List (List (Event V D U))) :
    Except SsaError (SparseSsa V D U) := do
  let blocks := cfg.successors.length
  if events.length ≠ blocks ∨ cfg.predecessors.length ≠ blocks ∨
      cfg.dominatorChildren.length ≠ blocks ∨ cfg.dominanceFrontier.length ≠ blocks then
    .error ⟨"SSA.MODEL_SHAPE", none, "CFG and event tables do not cover the same block domain"⟩
  else do
    let scan ← scanEvents events
    let pairs := (phiPairs cfg scan (liveIn cfg scan)).insertionSort phiLe
    let phisByBlock := indexPhis blocks pairs
    let state ← renameLoop cfg events phisByBlock (2 * blocks) [.enter cfg.root]
      ⟨fun _ => none, [], makePhis pairs⟩
    if state.uses.length ≠ scan.usageIds.length then
      .error ⟨"SSA.USE_COVERAGE", none, "dominator rename did not visit every use"⟩
    else do
      let phis ← state.phis.mapM (finishPhi cfg)
      return ⟨phis, phisByBlock, state.uses⟩

end Build
end Celox.Ssa
