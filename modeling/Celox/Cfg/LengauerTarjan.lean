import Celox.Graph.Reach

/-! # Immediate dominators of a dense graph

The algorithm works on depth-first numbers from 1; 0 stands for a node that has none. -/
namespace Celox.Cfg
open Celox.Graph

inductive CfgError where
  | empty
  | invalidRoot (root blocks : Nat)
  | edgeOutOfRange (source target blocks : Nat)
  | unreachable (blocks : List Nat)
  | invalidGraph (message : String)
  deriving DecidableEq, Repr

/-- The first edge that leaves the graph. -/
def outOfRangeEdge (successors : List (List Nat)) : Option (Nat × Nat) :=
  successors.zipIdx.findSome? fun (outgoing, source) =>
    (outgoing.find? fun target => decide (successors.length ≤ target)).map fun target =>
      (source, target)

def validateEdges (successors : List (List Nat)) (root : Nat) : Except CfgError Unit :=
  if successors = [] then .error .empty
  else if successors.length ≤ root then .error (.invalidRoot root successors.length)
  else match outOfRangeEdge successors with
    | some (source, target) => .error (.edgeOutOfRange source target successors.length)
    | none => .ok ()

/-! ## Depth-first numbers -/

/-- The numbers found so far and the stack of blocks with the successors still to look at;
`parent` maps a number to the number of its tree parent. -/
structure Numbering where
  number : Nat → Nat
  vertex : List Nat
  parent : Nat → Nat
  stack : List (Nat × List Nat)

def usizeMax : Nat := 2 ^ 64 - 1

def Numbering.start (successors : List (List Nat)) (root : Nat) : Numbering where
  number := Function.update (fun _ => 0) root 1
  vertex := [usizeMax, root]
  parent := fun _ => 0
  stack := [(root, succ successors root)]

def Numbering.step (successors : List (List Nat)) (state : Numbering) : Numbering :=
  match state.stack with
  | [] => state
  | (_, []) :: stack => { state with stack }
  | (block, successor :: rest) :: stack =>
    if state.number successor = 0 then
      let number := state.vertex.length
      { number := Function.update state.number successor number
        vertex := state.vertex ++ [successor]
        parent := Function.update state.parent number (state.number block)
        stack := (successor, succ successors successor) :: (block, rest) :: stack }
    else { state with stack := (block, rest) :: stack }

def Numbering.run (successors : List (List Nat)) : (fuel : Nat) → Numbering → Numbering
  | 0, state => state
  | fuel + 1, state => run successors fuel (state.step successors)

/-- Every block is left once and every edge is looked at once. -/
def numberBlocks (successors : List (List Nat)) (root : Nat) : Numbering :=
  (Numbering.start successors root).run successors
    (successors.map fun outgoing => outgoing.length + 1).sum

/-- The numbers of the predecessors of a numbered block, by source. -/
def numberedPredecessors (successors : List (List Nat)) (number : Nat → Nat) (target : Nat) :
    List Nat :=
  (List.range successors.length).flatMap fun source =>
    if number source = 0 then []
    else ((succ successors source).filter fun block => number block = target).map
      fun _ => number source

/-! ## The compressed forest -/

structure Forest where
  ancestor : Nat → Nat
  label : Nat → Nat

/-- The nodes on the way up whose ancestor is not a root. -/
def Forest.path (forest : Forest) : (fuel current : Nat) → List Nat
  | 0, _ => []
  | fuel + 1, current =>
    if forest.ancestor current ≠ 0 ∧ forest.ancestor (forest.ancestor current) ≠ 0 then
      current :: forest.path fuel (forest.ancestor current)
    else []

def Forest.compress (semi : Nat → Nat) (forest : Forest) (node : Nat) : Forest :=
  let parent := forest.ancestor node
  { label := if semi (forest.label parent) < semi (forest.label node) then
      Function.update forest.label node (forest.label parent) else forest.label
    ancestor := Function.update forest.ancestor node (forest.ancestor parent) }

/-- A node of least semidominator on the way up. Numbers fall on that way, so `value` bounds
it. -/
def Forest.eval (semi : Nat → Nat) (forest : Forest) (value : Nat) : Nat × Forest :=
  if forest.ancestor value = 0 then (forest.label value, forest)
  else
    let forest := (forest.path value value).reverse.foldl (Forest.compress semi) forest
    (forest.label value, forest)

/-! ## Semidominators and buckets -/

structure Semidominators where
  semi : Nat → Nat
  idom : Nat → Nat
  forest : Forest
  bucket : Nat → List Nat

def Semidominators.start : Semidominators where
  semi := id
  idom := fun _ => 0
  forest := ⟨fun _ => 0, id⟩
  bucket := fun _ => []

def Semidominators.lower (block : Nat) (state : Semidominators) (predecessor : Nat) :
    Semidominators :=
  let (representative, forest) := state.forest.eval state.semi predecessor
  { state with
    semi := Function.update state.semi block (min (state.semi block) (state.semi representative))
    forest }

def Semidominators.settle (blockParent : Nat) (state : Semidominators) (candidate : Nat) :
    Semidominators :=
  let (representative, forest) := state.forest.eval state.semi candidate
  { state with
    idom := Function.update state.idom candidate
      (if state.semi representative < state.semi candidate then representative else blockParent)
    forest }

def Semidominators.process (parent : Nat → Nat) (predecessors : Nat → List Nat)
    (state : Semidominators) (block : Nat) : Except CfgError Semidominators :=
  let state := (predecessors block).foldl (Semidominators.lower block) state
  let home := state.semi block
  let state := { state with
    bucket := Function.update state.bucket home (state.bucket home ++ [block]) }
  let blockParent := parent block
  if blockParent = 0 then .error (.invalidGraph "non-root DFS node has no parent")
  else
    let forest := { state.forest with
      ancestor := Function.update state.forest.ancestor block blockParent }
    let pending := state.bucket blockParent
    let state := { state with forest, bucket := Function.update state.bucket blockParent [] }
    .ok (pending.foldl (Semidominators.settle blockParent) state)

/-- Replace a relative dominator by its own immediate dominator. -/
def correct (semi : Nat → Nat) (idom : Nat → Nat) (block : Nat) : Except CfgError (Nat → Nat) :=
  if idom block ≠ semi block then
    if idom block = 0 then .error (.invalidGraph "dominator correction references no parent")
    else .ok (Function.update idom block (idom (idom block)))
  else .ok idom

def recordIdom (vertex : List Nat) (idom : Nat → Nat) (result : List (Option Nat)) (block : Nat) :
    Except CfgError (List (Option Nat)) :=
  let parent := idom block
  if parent = 0 ∨ vertex.length ≤ parent then
    .error (.invalidGraph "computed immediate dominator is out of range")
  else .ok (result.set (vertex[block]?.getD usizeMax) vertex[parent]?)

def lengauerTarjan (successors : List (List Nat)) (root : Nat) :
    Except CfgError (List (Option Nat)) := do
  validateEdges successors root
  let numbering := numberBlocks successors root
  let reachable := numbering.vertex.length - 1
  let predecessors := numberedPredecessors successors numbering.number
  let blocks := List.range' 2 (reachable - 1)
  let state ← blocks.reverse.foldlM (Semidominators.process numbering.parent predecessors)
    Semidominators.start
  let idom ← blocks.foldlM (correct state.semi) state.idom
  blocks.foldlM (recordIdom numbering.vertex idom) (List.replicate successors.length none)

/-! ## Forward analysis of a dense graph

The part of the analysis that SSA construction reads: predecessors, the dominator tree and the
dominance frontiers. Loops and strongly connected regions are not computed here. -/

/-! ## Reverse postorder -/

structure Postorder where
  visited : List Nat
  postorder : List Nat
  stack : List (Nat × List Nat)

def Postorder.step (successors : List (List Nat)) (state : Postorder) : Postorder :=
  match state.stack with
  | [] => state
  | (block, []) :: stack => { state with postorder := state.postorder ++ [block], stack }
  | (block, successor :: rest) :: stack =>
    if successor ∈ state.visited then { state with stack := (block, rest) :: stack }
    else { state with
      visited := state.visited ++ [successor]
      stack := (successor, succ successors successor) :: (block, rest) :: stack }

def Postorder.run (successors : List (List Nat)) : (fuel : Nat) → Postorder → Postorder
  | 0, state => state
  | fuel + 1, state => run successors fuel (state.step successors)

def reversePostorder (successors : List (List Nat)) (root : Nat) :
    Except CfgError (List Nat) := do
  validateEdges successors root
  let state := Postorder.run successors (successors.map fun outgoing => outgoing.length + 1).sum
    ⟨[root], [], [(root, succ successors root)]⟩
  return state.postorder.reverse

/-! ## The dominator tree -/

structure DominatorTree where
  idom : List (Option Nat)
  children : List (List Nat)
  enter : Nat → Nat
  exit : Nat → Nat
  depth : Nat → Nat

/-- List a block under its immediate dominator. -/
def pushChild (root : Nat) (children : List (List Nat)) (entry : Option Nat × Nat) :
    Except CfgError (List (List Nat)) :=
  let (parent, block) := entry
  if block = root then
    if parent.isSome then .error (.invalidGraph "dominator root has an immediate dominator")
    else .ok children
  else match parent with
    | none => .ok children
    | some parent =>
      if children.length ≤ parent then
        .error (.invalidGraph "immediate dominator is out of range")
      else .ok (children.modify parent (· ++ [block]))

inductive TreeEvent where
  | enter (block depth : Nat)
  | exit (block : Nat)

/-- `usizeMax` marks a block that is not entered or not left yet. -/
structure Intervals where
  enter : Nat → Nat
  exit : Nat → Nat
  depth : Nat → Nat
  time : Nat

/-- A block is entered at most once, so the fuel covers all events. -/
def intervalLoop (children : List (List Nat)) :
    (fuel : Nat) → List TreeEvent → Intervals → Except CfgError Intervals
  | 0, _, state => .ok state
  | _ + 1, [], state => .ok state
  | fuel + 1, .exit block :: events, state =>
    intervalLoop children fuel events
      { state with exit := Function.update state.exit block state.time, time := state.time + 1 }
  | fuel + 1, .enter block depth :: events, state =>
    if state.enter block ≠ usizeMax then
      .error (.invalidGraph "immediate-dominator links contain a cycle")
    else
      intervalLoop children fuel
        ((succ children block).map (TreeEvent.enter · (depth + 1)) ++ .exit block :: events)
        { state with
          enter := Function.update state.enter block state.time
          depth := Function.update state.depth block depth
          time := state.time + 1 }

def DominatorTree.fromIdom (idom : List (Option Nat)) (root : Nat) :
    Except CfgError DominatorTree := do
  if idom.length ≤ root then
    .error (.invalidRoot root idom.length)
  else
    let children ← idom.zipIdx.foldlM (pushChild root) (List.replicate idom.length [])
    let children := children.map (·.insertionSort (· ≤ ·))
    let times ← intervalLoop children (2 * idom.length + 1) [.enter root 0]
      ⟨fun _ => usizeMax, fun _ => usizeMax, fun _ => usizeMax, 0⟩
    return ⟨idom, children, times.enter, times.exit, times.depth⟩

def DominatorTree.compute (successors : List (List Nat)) (root : Nat) :
    Except CfgError DominatorTree := do
  let idom ← lengauerTarjan successors root
  fromIdom idom root

/-- Intervals of blocks that both have one. -/
def DominatorTree.dominates (tree : DominatorTree) (dominator block : Nat) : Bool :=
  dominator < tree.idom.length && block < tree.idom.length &&
    tree.enter dominator ≠ usizeMax && tree.enter block ≠ usizeMax &&
    tree.enter dominator ≤ tree.enter block && tree.exit block ≤ tree.exit dominator

/-! ## Dominance frontiers -/

/-- Blocks in the order in which the walk of the tree leaves them; `true` marks an expanded
block. -/
def treePostorder (children : List (List Nat)) :
    (fuel : Nat) → (stack : List (Nat × Bool)) → (postorder : List Nat) → List Nat
  | 0, _, postorder => postorder
  | _ + 1, [], postorder => postorder
  | fuel + 1, (block, true) :: stack, postorder =>
    treePostorder children fuel stack (postorder ++ [block])
  | fuel + 1, (block, false) :: stack, postorder =>
    treePostorder children fuel
      ((succ children block).map (·, false) ++ (block, true) :: stack) postorder

/-- Add a block to a frontier unless its immediate dominator is the owner. -/
def addFrontier (idom : List (Option Nat)) (block : Nat) (frontier : List Nat) (member : Nat) :
    List Nat :=
  if idom[member]?.join ≠ some block ∧ member ∉ frontier then frontier ++ [member] else frontier

def frontierOf (successors : List (List Nat)) (idom : List (Option Nat))
    (children : List (List Nat)) (frontiers : Nat → List Nat) (block : Nat) : List Nat :=
  let own := (succ successors block).foldl (addFrontier idom block) (frontiers block)
  (succ children block).foldl
    (fun frontier child => (frontiers child).foldl (addFrontier idom block) frontier) own

def dominanceFrontiers (successors : List (List Nat)) (dominators : DominatorTree) (root : Nat) :
    List (List Nat) :=
  let order := treePostorder dominators.children (2 * successors.length) [(root, false)] []
  let frontiers := order.foldl
    (fun frontiers block => Function.update frontiers block
      (frontierOf successors dominators.idom dominators.children frontiers block))
    fun _ => []
  (List.range successors.length).map fun block => (frontiers block).insertionSort (· ≤ ·)

/-! ## The analysis -/

structure ForwardControlFlowGraph where
  root : Nat
  predecessors : List (List Nat)
  successors : List (List Nat)
  dominators : DominatorTree
  dominanceFrontier : List (List Nat)

/-- Keep the first edge to each successor. -/
def retainFirst (outgoing : List Nat) : List Nat :=
  outgoing.foldl (fun seen successor => if successor ∈ seen then seen else seen ++ [successor]) []

/-- The sources of the edges to a block, each once and in order. -/
def predecessorsOf (successors : List (List Nat)) (target : Nat) : List Nat :=
  ((List.range successors.length).flatMap fun block =>
    ((succ successors block).filter (· = target)).map fun _ => block).dedup.insertionSort (· ≤ ·)

def ForwardControlFlowGraph.analyze (successors : List (List Nat)) (root : Nat) :
    Except CfgError ForwardControlFlowGraph := do
  validateEdges successors root
  let successors := successors.map retainFirst
  let order ← reversePostorder successors root
  if order.length ≠ successors.length then
    .error (.unreachable ((List.range successors.length).filter (· ∉ order)))
  else
    let predecessors := (List.range successors.length).map (predecessorsOf successors)
    let dominators ← DominatorTree.compute successors root
    if dominators.idom.zipIdx.any fun (parent, block) => block ≠ root ∧ parent.isNone then
      .error (.invalidGraph "reachable block has no immediate dominator")
    else
      return ⟨root, predecessors, successors, dominators,
        dominanceFrontiers successors dominators root⟩

end Celox.Cfg
