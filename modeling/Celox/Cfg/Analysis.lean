import Celox.Cfg.NaturalLoops
import Celox.Cfg.Regions

/-! # The complete analysis

Post-dominance is dominance in the reversed graph from one exit behind all blocks without
successors, and its frontiers are what blocks depend on. -/
namespace Celox.Cfg
open Celox.Graph Relation

/-! ## Post-dominance -/

structure PostDominatorTree where
  tree : DominatorTree
  virtualExit : Nat
  originalBlocks : Nat

def PostDominatorTree.postdominates (t : PostDominatorTree) (postdominator block : Nat) : Bool :=
  postdominator < t.originalBlocks && block < t.originalBlocks &&
    t.tree.dominates postdominator block

/-- The virtual exit is no block. -/
def PostDominatorTree.original (t : PostDominatorTree) (candidate : Nat) : Option Nat :=
  if candidate ≠ t.virtualExit ∧ candidate < t.originalBlocks then some candidate else none

def PostDominatorTree.commonPostdominator (t : PostDominatorTree) (left right : Nat) :
    Option Nat := (t.tree.lca left right).bind t.original

def PostDominatorTree.immediatePostdominator (t : PostDominatorTree) (block : Nat) : Option Nat :=
  t.tree.idom[block]?.join.bind t.original

/-- The edges turned round, with the virtual exit as the last block. -/
def reverseSuccessors (predecessors successors : List (List Nat)) : List (List Nat) :=
  predecessors ++ [(List.range successors.length).filter fun block =>
    (succ successors block).isEmpty]

def buildPostdominators (predecessors successors : List (List Nat)) :
    Except CfgError (PostDominatorTree × List (List Nat)) := do
  let originalBlocks := successors.length
  let virtualExit := originalBlocks
  let reversed := reverseSuccessors predecessors successors
  let tree ← DominatorTree.compute reversed virtualExit
  let frontiers := (dominanceFrontiers reversed tree virtualExit).take originalBlocks
  return (⟨tree, virtualExit, originalBlocks⟩, frontiers.map (·.filter (· < originalBlocks)))

/-! ## The analysis -/

structure ControlFlowGraph where
  root : Nat
  predecessors : List (List Nat)
  successors : List (List Nat)
  dominators : DominatorTree
  dominanceFrontier : List (List Nat)
  postdominators : PostDominatorTree
  postdominanceFrontier : List (List Nat)
  controllers : List (List Nat)
  controlDependents : List (List Nat)
  sccs : List StronglyConnectedRegion
  sccForBlock : List Nat
  loops : List NaturalLoop

def ControlFlowGraph.analyze (successors : List (List Nat)) (root : Nat) :
    Except CfgError ControlFlowGraph := do
  let forward ← ForwardControlFlowGraph.analyze successors root
  let loops ← naturalLoops forward.predecessors forward.successors forward.dominators
  let (sccs, sccForBlock) :=
    stronglyConnectedRegions forward.predecessors forward.successors forward.dominators root
  let (postdominators, postdominanceFrontier) ←
    buildPostdominators forward.predecessors forward.successors
  return {
    root := forward.root
    predecessors := forward.predecessors
    successors := forward.successors
    dominators := forward.dominators
    dominanceFrontier := forward.dominanceFrontier
    postdominators
    postdominanceFrontier
    controllers := postdominanceFrontier
    controlDependents := (List.range forward.successors.length).map
      (predecessorsOf postdominanceFrontier)
    sccs
    sccForBlock
    loops }

/-! ## The reversed graph -/

section Reversed
variable {successors predecessors : List (List Nat)} {u v p b : Nat}

def IsExit (successors : List (List Nat)) (b : Nat) : Prop :=
  b < successors.length ∧ succ successors b = []

/-- An exit can be reached, and all walks to exits pass the block. -/
def PostDom (successors : List (List Nat)) (b p : Nat) : Prop :=
  (∃ e, IsExit successors e ∧ Reach successors p e) ∧
    ∀ e, IsExit successors e → ¬ Avoids (Edge successors) b p e

/-- Predecessors are listed for every block. -/
structure Reversal (predecessors successors : List (List Nat)) : Prop where
  length : predecessors.length = successors.length
  mem : ∀ b p, p ∈ succ predecessors b ↔ Edge successors p b
  range : InRange successors

theorem Reversal.edge (h : Reversal predecessors successors) :
    Edge (reverseSuccessors predecessors successors) u v ↔
      Edge successors v u ∨ u = successors.length ∧ IsExit successors v := by
  unfold Edge reverseSuccessors
  rcases Nat.lt_trichotomy u successors.length with hu | rfl | hu
  · rw [succ, List.getElem?_append_left (h.length ▸ hu), ← succ, h.mem]
    exact (or_iff_left fun heq => hu.ne heq.1).symm
  · have hno : successors.length ∉ succ successors v := fun hmem => lt_irrefl _ (h.range v _ hmem)
    rw [succ, List.getElem?_append_right h.length.le, h.length, Nat.sub_self,
      List.getElem?_cons_zero, Option.getD_some, List.mem_filter, List.mem_range,
      List.isEmpty_iff, or_iff_right hno, and_iff_right rfl, IsExit]
  · have hno : u ∉ succ successors v := fun hmem => absurd (h.range v _ hmem) (by omega)
    rw [succ, List.getElem?_eq_none (by simp [h.length]; omega)]
    simp only [Option.getD_none, List.not_mem_nil, false_iff, not_or]
    exact ⟨hno, fun heq => by omega⟩

theorem reverseSuccessors_length (h : Reversal predecessors successors) :
    (reverseSuccessors predecessors successors).length = successors.length + 1 := by
  simp [reverseSuccessors, h.length]

theorem Reversal.inRange (h : Reversal predecessors successors) :
    InRange (reverseSuccessors predecessors successors) := by
  intro u v hedge
  rw [reverseSuccessors_length h]
  rcases h.edge.mp hedge with hedge | ⟨-, hexit⟩
  · have := Edge.lt_length hedge
    omega
  · have := hexit.1
    omega

/-- A walk from the virtual exit is a walk to an exit turned round. -/
theorem Reversal.walk (h : Reversal predecessors successors) {P : Nat → Prop}
    (hp : p ≠ successors.length) :
    ReflTransGen (fun u v => Edge (reverseSuccessors predecessors successors) u v ∧ P v)
        successors.length p ↔
      ∃ e, IsExit successors e ∧ P p ∧
        ReflTransGen (fun u v => Edge successors u v ∧ P v) p e := by
  constructor
  · intro hwalk
    induction hwalk with
    | refl => exact absurd rfl hp
    | @tail u v _ huv ih =>
      rcases h.edge.mp huv.1 with hedge | ⟨-, hexit⟩
      · have hu : u ≠ successors.length := (h.range v u hedge).ne
        obtain ⟨e, he, hPu, hwalk⟩ := ih hu
        exact ⟨e, he, huv.2, hwalk.head ⟨hedge, hPu⟩⟩
      · exact ⟨v, hexit, huv.2, .refl⟩
  · rintro ⟨e, he, hP, hwalk⟩
    induction hwalk using ReflTransGen.head_induction_on with
    | refl => exact .single ⟨h.edge.mpr (.inr ⟨rfl, he⟩), hP⟩
    | @head u v huv _ ih =>
      have hv : v ≠ successors.length := (h.range u v huv.1).ne
      exact (ih hv huv.2).tail ⟨h.edge.mpr (.inl huv.1), hP⟩

theorem Reversal.reach (h : Reversal predecessors successors) (hp : p ≠ successors.length) :
    Reach (reverseSuccessors predecessors successors) successors.length p ↔
      ∃ e, IsExit successors e ∧ Reach successors p e := by
  have hwalk := h.walk (P := fun _ => True) hp
  simp only [and_true, true_and] at hwalk
  exact hwalk

theorem Reversal.dom (h : Reversal predecessors successors) (hb : b ≠ successors.length)
    (hp : p ≠ successors.length) :
    Dom (Edge (reverseSuccessors predecessors successors)) successors.length b p ↔
      ∀ e, IsExit successors e → ¬ Avoids (Edge successors) b p e := by
  rw [Dom, Avoids, and_iff_right hb.symm, h.walk (P := (· ≠ b)) hp, not_exists]
  simp only [not_and, Avoids]

theorem Reversal.postDom (h : Reversal predecessors successors) (hb : b ≠ successors.length)
    (hp : p ≠ successors.length) : PostDom successors b p ↔
      Reach (reverseSuccessors predecessors successors) successors.length p ∧
        Dom (Edge (reverseSuccessors predecessors successors)) successors.length b p := by
  rw [h.reach hp, h.dom hb hp, PostDom]

/-- The frontiers of the reversed graph are the blocks on which others depend. -/
theorem Reversal.inFrontier (h : Reversal predecessors successors) (hb : b < successors.length)
    (c : Nat) : c < successors.length ∧
        InFrontier (Edge (reverseSuccessors predecessors successors)) successors.length b c ↔
      (∃ p, Edge successors c p ∧ PostDom successors b p) ∧
        ¬ (PostDom successors b c ∧ b ≠ c) := by
  constructor
  · rintro ⟨hc, p, hreach, hdom, hedge, hno⟩
    have hp : p ≠ successors.length := by
      rintro rfl
      exact hb.ne (dom_root_eq hdom)
    have hcp : Edge successors c p := (h.edge.mp hedge).resolve_right fun heq => hp heq.1
    refine ⟨⟨p, hcp, (h.postDom hb.ne hp).mpr ⟨hreach, hdom⟩⟩, fun ⟨hpost, hne⟩ => hno ⟨?_, hne⟩⟩
    exact ((h.postDom hb.ne hc.ne).mp hpost).2
  · rintro ⟨⟨p, hcp, hpost⟩, hno⟩
    have hp : p ≠ successors.length := (h.range c p hcp).ne
    have hc := Edge.lt_length hcp
    obtain ⟨hreach, hdom⟩ := (h.postDom hb.ne hp).mp hpost
    have hedge := h.edge.mpr (.inl hcp)
    refine ⟨hc, p, hreach, hdom, hedge, fun ⟨hdom', hne⟩ => hno ⟨?_, hne⟩⟩
    exact (h.postDom hb.ne hc.ne).mpr ⟨ReflTransGen.tail hreach hedge, hdom'⟩

theorem buildPostdominators_controllers (h : Reversal predecessors successors)
    {postdominators : PostDominatorTree} {frontiers : List (List Nat)}
    (hok : buildPostdominators predecessors successors = .ok (postdominators, frontiers))
    (hb : b < successors.length) (c : Nat) : c ∈ succ frontiers b ↔
      (∃ p, Edge successors c p ∧ PostDom successors b p) ∧
        ¬ (PostDom successors b c ∧ b ≠ c) := by
  unfold buildPostdominators at hok
  simp only [bind, Except.bind] at hok
  split at hok
  · cases hok
  rename_i tree htree
  cases hok
  have hroot : successors.length < (reverseSuccessors predecessors successors).length := by
    rw [reverseSuccessors_length h]
    omega
  have t := compute_treeAt hroot h.inRange htree
  have hrow : ∀ rows : List (List Nat), succ ((rows.take successors.length).map
      (·.filter (· < successors.length))) b = (succ rows b).filter (· < successors.length) := by
    intro rows
    unfold succ
    rw [List.getElem?_map, List.getElem?_take_of_lt hb]
    cases rows[b]? <;> rfl
  rw [hrow, List.mem_filter, decide_eq_true_eq,
    dominanceFrontiers_exact t (by rw [reverseSuccessors_length h]; omega), ← h.inFrontier hb c]
  constructor
  · rintro ⟨⟨-, hfrontier⟩, hc⟩
    exact ⟨hc, hfrontier⟩
  · rintro ⟨hc, p, hreach, hdom, hfrontier⟩
    exact ⟨⟨hdom.reach hreach, p, hreach, hdom, hfrontier⟩, hc⟩

/-- The query is post-dominance. -/
theorem postdominates_iff (h : Reversal predecessors successors)
    (hsize : 2 * (successors.length + 1) ≤ usizeMax) {postdominators : PostDominatorTree}
    {frontiers : List (List Nat)}
    (hok : buildPostdominators predecessors successors = .ok (postdominators, frontiers)) :
    postdominators.postdominates b p = true ↔
      b < successors.length ∧ p < successors.length ∧ PostDom successors b p := by
  have hroot : successors.length < (reverseSuccessors predecessors successors).length := by
    rw [reverseSuccessors_length h]
    omega
  obtain ⟨tree, htree, hexact⟩ := compute_exact hroot h.inRange
    (by rw [Addressable, reverseSuccessors_length h]; exact hsize)
  simp only [buildPostdominators, htree, bind, Except.bind, pure, Except.pure, Except.ok.injEq,
    Prod.mk.injEq] at hok
  obtain ⟨rfl, -⟩ := hok
  simp only [PostDominatorTree.postdominates, Bool.and_eq_true, decide_eq_true_eq, and_assoc]
  refine and_congr_right fun hb => and_congr_right fun hp => ?_
  rw [hexact.dominates, h.postDom hb.ne hp.ne]
  exact ⟨fun hd => hd.2, fun hd => ⟨hd.2.reach hd.1, hd⟩⟩

/-- The first block passed of some, or none where none is passed. -/
def IsNearest (postDom : Nat → Nat → Prop) (passed : Nat → Prop) : Option Nat → Prop
  | some c => passed c ∧ ∀ e, passed e → postDom e c
  | none => ∀ e, ¬ passed e

theorem PostDom.ne_length (h : PostDom successors b p) (hrange : InRange successors)
    (hp : p < successors.length) : b ≠ successors.length := by
  rintro rfl
  obtain ⟨⟨e, he, hwalk⟩, hpass⟩ := h
  exact hpass e he ⟨hp.ne, hwalk.lift id fun u v huv => ⟨huv, (hrange u v huv).ne⟩⟩

theorem Reversal.nearest (h : Reversal predecessors successors)
    (hsize : 2 * (successors.length + 1) ≤ usizeMax) {postdominators : PostDominatorTree}
    {frontiers : List (List Nat)}
    (hok : buildPostdominators predecessors successors = .ok (postdominators, frontiers))
    (hb : b < successors.length) (hp : p < successors.length) :
    IsNearest (PostDom successors) (fun e => PostDom successors e b ∧ PostDom successors e p)
        (postdominators.commonPostdominator b p) ∧
      IsNearest (PostDom successors) (fun e => PostDom successors e b ∧ e ≠ b)
        (postdominators.immediatePostdominator b) := by
  have hlength := reverseSuccessors_length h
  have hrange := h.inRange
  have hback := fun {e b} => h.postDom (b := e) (p := b)
  rw [buildPostdominators] at hok
  generalize reverseSuccessors predecessors successors = reversed at *
  have hroot : successors.length < reversed.length := by omega
  have hsize : Addressable reversed := by rwa [Addressable, hlength]
  obtain ⟨tree, htree, t⟩ := compute_exact hroot hrange hsize
  simp only [htree, bind, Except.bind, pure, Except.pure, Except.ok.injEq, Prod.mk.injEq] at hok
  obtain ⟨rfl, -⟩ := hok
  have hforth : ∀ {e b}, b < successors.length → PostDom successors e b → e ≠ successors.length ∧
      Reach reversed successors.length b ∧ Dom (Edge reversed) successors.length e b := by
    intro e b hb he
    have hne := he.ne_length h.range hb
    exact ⟨hne, (hback hne hb.ne).mp he⟩
  -- a block of the tree that all the others dominate is the nearest, if it is not the exit
  have hnearest : ∀ (passed : Nat → Prop) c, Reach reversed successors.length c →
      (∀ e, passed e → e ≠ successors.length ∧ Dom (Edge reversed) successors.length e c) →
      (c ≠ successors.length → passed c) → IsNearest (PostDom successors) passed
        (PostDominatorTree.original ⟨tree, successors.length, successors.length⟩ c) := by
    intro passed c hc hleast hpassed
    have hlt := t.treeAt.reach_lt hc
    unfold PostDominatorTree.original
    by_cases hexit : c = successors.length
    · rw [if_neg fun hne => hne.1 hexit]
      exact fun e he => (hleast e he).1 (dom_root_eq (hexit ▸ (hleast e he).2))
    · rw [if_pos ⟨hexit, by dsimp only; omega⟩]
      exact ⟨hpassed hexit, fun e he => (hback (hleast e he).1 hexit).mpr ⟨hc, (hleast e he).2⟩⟩
  by_cases hreach : Reach reversed successors.length b
  swap
  · have hc := t.treeAt.idoms.unreached b (by omega) hreach
    rw [PostDominatorTree.commonPostdominator, DominatorTree.lca,
      if_pos (c := tree.depth b = _ ∨ _) (.inl (t.depth_unreached b hreach)), ite_self,
      PostDominatorTree.immediatePostdominator, hc]
    exact ⟨fun e he => hreach (hforth hb he.1).2.1, fun e he => hreach (hforth hb he.1).2.1⟩
  constructor
  · by_cases hreach' : Reach reversed successors.length p
    · obtain ⟨c, hc, hcb, hcp, hleast⟩ := t.lca hsize hreach hreach'
      rw [PostDominatorTree.commonPostdominator, hc, Option.bind_some]
      exact hnearest _ c (hcb.reach hreach) (fun e he => ⟨(hforth hb he.1).1,
        hleast e (hforth hb he.1).2.2 (hforth hp he.2).2.2⟩) fun hexit =>
        ⟨(hback hexit hb.ne).mpr ⟨hreach, hcb⟩, (hback hexit hp.ne).mpr ⟨hreach', hcp⟩⟩
    · rw [PostDominatorTree.commonPostdominator, DominatorTree.lca,
        if_pos (c := _ ∨ tree.depth p = _) (.inr (t.depth_unreached p hreach')), ite_self]
      exact fun e he => hreach' (hforth hp he.2).2.1
  · obtain ⟨c, hc, hidom⟩ := t.treeAt.idoms.idom b hreach hb.ne
    rw [PostDominatorTree.immediatePostdominator, hc, Option.join_some, Option.bind_some]
    exact hnearest _ c (hidom.reach hreach) (fun e he => ⟨(hforth hb he.1).1,
      hidom.least e he.2 (hforth hb he.1).2.2⟩) fun hexit =>
      ⟨(hback hexit hb.ne).mpr ⟨hreach, hidom.dom⟩, hidom.ne⟩

end Reversed

/-! ## Accepted graphs -/

section Analyzed
variable {successors : List (List Nat)} {root : Nat} {cfg : ControlFlowGraph}

/-- What the analysis is put together from. -/
theorem analyze_parts (h : ControlFlowGraph.analyze successors root = .ok cfg) :
    ∃ forward, ForwardControlFlowGraph.analyze successors root = .ok forward ∧
      naturalLoops forward.predecessors forward.successors forward.dominators = .ok cfg.loops ∧
      stronglyConnectedRegions forward.predecessors forward.successors forward.dominators root =
        (cfg.sccs, cfg.sccForBlock) ∧
      buildPostdominators forward.predecessors forward.successors =
        .ok (cfg.postdominators, cfg.controllers) ∧
      cfg.dominanceFrontier = forward.dominanceFrontier := by
  unfold ControlFlowGraph.analyze at h
  simp only [bind, Except.bind] at h
  split at h
  · cases h
  rename_i forward hforward
  split at h
  · cases h
  rename_i loops hloops
  split at h
  · cases h
  rename_i post hpost
  cases h
  exact ⟨forward, hforward, hloops, rfl, hpost, rfl⟩

theorem Analyzed.reversal {forward : ForwardControlFlowGraph}
    (h : Analyzed successors root forward) :
    Reversal forward.predecessors forward.successors where
  length := h.predecessors_length.trans h.length.symm
  mem b p := by
    by_cases hb : b < successors.length
    · rw [h.predecessors b hb, h.edge]
    · have hno : ¬ Edge forward.successors p b := fun hedge =>
        hb (h.length ▸ h.tree.range p b hedge)
      rw [succ, List.getElem?_eq_none (by rw [h.predecessors_length]; omega)]
      simp [hno]
  range := h.tree.range

theorem Analyzed.dominatorsOf {forward : ForwardControlFlowGraph}
    (hok : ForwardControlFlowGraph.analyze successors root = .ok forward)
    (hsize : Addressable successors) :
    DominatorsOf forward.successors root forward.dominators := by
  have h := analyze_ok hok
  have hcompute : DominatorTree.compute forward.successors root = .ok forward.dominators := by
    unfold ForwardControlFlowGraph.analyze at hok
    simp only [bind, Except.bind] at hok
    split at hok
    · cases hok
    split at hok
    · cases hok
    split at hok
    · cases hok
    split at hok
    · cases hok
    rename_i dominators hdominators
    split at hok
    · cases hok
    cases hok
    exact hdominators
  obtain ⟨tree, htree, hexact⟩ := compute_exact h.tree.root_lt h.tree.range
    (by rw [Addressable, h.length]; exact hsize)
  rw [hcompute] at htree
  cases htree
  exact hexact

/-- An order of as many blocks as there are has all of them. -/
theorem reach_of_full {order : List Nat} {b : Nat} (hroot : root < successors.length)
    (hrange : InRange successors) (hnodup : order.Nodup)
    (hmem : ∀ b, b ∈ order ↔ Reach successors root b) (hlength : order.length = successors.length)
    (hb : b < successors.length) : Reach successors root b := by
  have hsub : order ⊆ List.range successors.length := fun c hc =>
    List.mem_range.mpr (Reach.closed (fun u _ v hv => hrange u v hv) ((hmem c).mp hc) hroot)
  have hperm : order.Perm (List.range successors.length) :=
    (hnodup.subperm hsub).perm_of_length_le (by rw [List.length_range, hlength])
  exact (hmem b).mp (hperm.mem_iff.mpr (List.mem_range.mpr hb))

/-- A graph that the forward analysis accepts, or an error about the graph it was given. -/
theorem forward_analyze_error (hsize : Addressable successors) (message : String) :
    ForwardControlFlowGraph.analyze successors root ≠ .error (.invalidGraph message) := by
  intro h
  unfold ForwardControlFlowGraph.analyze at h
  simp only [bind, Except.bind] at h
  split at h
  · rename_i hvalid
    cases h
    unfold validateEdges at hvalid
    split at hvalid
    · cases hvalid
    split at hvalid
    · cases hvalid
    split at hvalid <;> cases hvalid
  rename_i hvalid
  obtain ⟨hroot, hrange⟩ := validateEdges_eq_ok.mp hvalid
  have hroot' : root < (successors.map retainFirst).length := by simpa using hroot
  have hrange' : InRange (successors.map retainFirst) := by
    intro u v hv
    rw [List.length_map]
    exact hrange u v (edge_map_retainFirst.mp hv)
  have hsize' : Addressable (successors.map retainFirst) := by
    rw [Addressable, List.length_map]
    exact hsize
  split at h
  · rename_i horder
    rw [reversePostorder, validateEdges_eq_ok.mpr ⟨hroot', hrange'⟩] at horder
    cases horder
  rename_i order horder
  split at h
  · cases h
  rename_i hlength
  obtain ⟨hnodup, hmem⟩ := reversePostorder_mem horder
  obtain ⟨tree, htree, hexact⟩ := compute_exact hroot' hrange' hsize'
  rw [htree] at h
  dsimp only at h
  split at h
  · rename_i hnone
    obtain ⟨⟨parent, block⟩, hentry, hcond⟩ := List.any_eq_true.mp hnone
    simp only [decide_eq_true_eq, Option.isNone_iff_eq_none] at hcond
    obtain ⟨hne, rfl⟩ := hcond
    rw [List.mk_mem_zipIdx_iff_getElem?] at hentry
    have hlt : block < (successors.map retainFirst).length :=
      hexact.treeAt.idoms.length ▸ (List.getElem?_eq_some_iff.mp hentry).1
    obtain ⟨d, hd, -⟩ := hexact.treeAt.idoms.idom block
      (reach_of_full hroot' hrange' hnodup hmem (not_not.mp hlength) hlt) hne
    rw [hentry] at hd
    cases hd
  · cases h

theorem Analyzed.edge_eq {forward : ForwardControlFlowGraph}
    (h : Analyzed successors root forward) : Edge forward.successors = Edge successors := by
  funext u v
  exact propext (h.edge u v)

/-- No analysis fails for another reason than the graph it was given. -/
theorem analyze_error (hsize : 2 * (successors.length + 1) ≤ usizeMax) (message : String) :
    ControlFlowGraph.analyze successors root ≠ .error (.invalidGraph message) := by
  have hsize' : Addressable successors := by
    unfold Addressable
    omega
  unfold ControlFlowGraph.analyze
  cases hforward : ForwardControlFlowGraph.analyze successors root with
  | error e =>
    intro h
    cases h
    exact forward_analyze_error hsize' message hforward
  | ok forward =>
    have h := analyze_ok hforward
    obtain ⟨loops, hloops, -⟩ := naturalLoops_exact (Analyzed.dominatorsOf hforward hsize')
      h.tree.reach h.reversal.mem
    have hroot : forward.successors.length <
        (reverseSuccessors forward.predecessors forward.successors).length := by
      rw [reverseSuccessors_length h.reversal]
      omega
    obtain ⟨tree, htree, -⟩ := compute_exact hroot h.reversal.inRange (by
      rw [Addressable, reverseSuccessors_length h.reversal, h.length]
      exact hsize)
    intro hok
    simp only [hloops, buildPostdominators, htree, bind, Except.bind, pure, Except.pure] at hok
    cases hok

/-! ## Frontiers and control dependence -/

theorem Analyzed.isExit {forward : ForwardControlFlowGraph}
    (h : Analyzed successors root forward) : IsExit forward.successors = IsExit successors := by
  have hempty : ∀ rows : List (List Nat), ∀ b, succ rows b = [] ↔ ∀ v, ¬ Edge rows b v :=
    fun rows b => List.eq_nil_iff_forall_not_mem
  funext b
  rw [IsExit, IsExit, h.length, hempty, hempty, h.edge_eq]

theorem Analyzed.postDom {forward : ForwardControlFlowGraph}
    (h : Analyzed successors root forward) :
    PostDom forward.successors = PostDom successors := by
  funext b p
  simp only [PostDom, h.isExit, h.edge_eq, Reach]

/-- The frontier of a block is where its dominance ends, and a block depends on those that choose
whether it is passed. -/
theorem analyze_frontiers (h : ControlFlowGraph.analyze successors root = .ok cfg) {b : Nat}
    (hb : b < successors.length) :
    (∀ y, y ∈ succ cfg.dominanceFrontier b ↔
      (∃ p, Edge successors p y ∧ Dom (Edge successors) root b p) ∧
        ¬ (Dom (Edge successors) root b y ∧ b ≠ y)) ∧
      ((∃ e, IsExit successors e ∧ Reach successors b e) → ∀ c, c ∈ succ cfg.controllers b ↔
        (∃ p, Edge successors c p ∧ PostDom successors b p) ∧
          ¬ (PostDom successors b c ∧ b ≠ c)) := by
  obtain ⟨forward, hforward, -, -, hpost, hfrontier⟩ := analyze_parts h
  have ha := analyze_ok hforward
  have hb' : b < forward.successors.length := ha.length ▸ hb
  refine ⟨fun y => ?_, fun _ c => ?_⟩
  · rw [hfrontier, ha.frontier b hb, InFrontier, ha.edge_eq]
    constructor
    · rintro ⟨p, -, hdom, hedge, hno⟩
      exact ⟨⟨p, hedge, hdom⟩, hno⟩
    · rintro ⟨⟨p, hedge, hdom⟩, hno⟩
      have hp := ha.tree.reach p (ha.length ▸ Edge.lt_length hedge)
      rw [Reach, ha.edge_eq] at hp
      exact ⟨p, hp, hdom, hedge, hno⟩
  · rw [buildPostdominators_controllers ha.reversal hpost hb' c, ha.edge_eq, ha.postDom]

/-- A loop that never ends beside an exit. -/
theorem analyze_frontiers_endless : ∃ cfg, ControlFlowGraph.analyze [[1, 2], [1], []] 0 = .ok cfg ∧
    ∀ c, c ∈ succ cfg.controllers 2 ↔
      (∃ p, Edge [[1, 2], [1], []] c p ∧ PostDom [[1, 2], [1], []] 2 p) ∧
        ¬ (PostDom [[1, 2], [1], []] 2 c ∧ 2 ≠ c) := by
  have hok : (ControlFlowGraph.analyze [[1, 2], [1], []] 0).isOk = true := by decide +kernel
  cases h : ControlFlowGraph.analyze [[1, 2], [1], []] 0 with
  | error e =>
    rw [h] at hok
    cases hok
  | ok cfg =>
    refine ⟨cfg, rfl, (analyze_frontiers h (by decide)).2 ⟨2, ⟨by decide, rfl⟩, .refl 2⟩⟩

/-- The queries decide post-dominance and find the nearest common and the nearest other
post-dominator. -/
theorem analyze_postdominators (hsize : 2 * (successors.length + 1) ≤ usizeMax)
    (h : ControlFlowGraph.analyze successors root = .ok cfg) {l r : Nat}
    (hl : l < successors.length) (hr : r < successors.length) :
    (cfg.postdominators.postdominates l r = true ↔ PostDom successors l r) ∧
      IsNearest (PostDom successors) (fun e => PostDom successors e l ∧ PostDom successors e r)
        (cfg.postdominators.commonPostdominator l r) ∧
      IsNearest (PostDom successors) (fun e => PostDom successors e l ∧ e ≠ l)
        (cfg.postdominators.immediatePostdominator l) := by
  obtain ⟨forward, hforward, -, -, hpost, -⟩ := analyze_parts h
  have ha := analyze_ok hforward
  rw [← ha.length] at hsize hl hr
  rw [← ha.postDom, postdominates_iff ha.reversal hsize hpost, and_iff_right hl, and_iff_right hr]
  exact ⟨Iff.rfl, ha.reversal.nearest hsize hpost hl hr⟩

/-- Two arms that join. -/
theorem analyze_postdominators_diamond : ∃ cfg,
    ControlFlowGraph.analyze [[1, 2], [3], [3], []] 0 = .ok cfg ∧
      (cfg.postdominators.postdominates 3 1 = true ↔ PostDom [[1, 2], [3], [3], []] 3 1) := by
  have hok : (ControlFlowGraph.analyze [[1, 2], [3], [3], []] 0).isOk = true := by
    decide +kernel
  cases h : ControlFlowGraph.analyze [[1, 2], [3], [3], []] 0 with
  | error e =>
    rw [h] at hok
    cases hok
  | ok cfg => exact ⟨cfg, rfl, (analyze_postdominators (by decide) h (by decide) (by decide)).1⟩

/-! ## Loops -/

/-- The loops of an accepted graph are its natural loops, disjoint or nested, and no graph is refused
because they are not. -/
theorem analyze_naturalLoops (hsize : 2 * (successors.length + 1) ≤ usizeMax) :
    ControlFlowGraph.analyze successors root ≠
        .error (.invalidGraph "natural loops overlap without nesting") ∧
      ∀ cfg, ControlFlowGraph.analyze successors root = .ok cfg →
        (∀ h, h ∈ cfg.loops.map NaturalLoop.header ↔ ∃ t, Latch (Edge successors) root h t) ∧
        (∀ l ∈ cfg.loops, ∀ x, x ∈ l.blocks ↔ x = l.header ∨
          ∃ t, Latch (Edge successors) root l.header t ∧ Avoids (Edge successors) l.header x t) ∧
        (∀ l ∈ cfg.loops, ∀ l' ∈ cfg.loops, l.header ≠ l'.header →
          Disjoint l.blocks l'.blocks ∨ l.blocks ⊂ l'.blocks ∨ l'.blocks ⊂ l.blocks) ∧
        ∀ l ∈ cfg.loops, IsParent (cfg.loops.map NaturalLoop.blocks) l.blocks l.parent := by
  refine ⟨analyze_error hsize _, fun cfg h => ?_⟩
  obtain ⟨forward, hforward, hloops, -⟩ := analyze_parts h
  have ha := analyze_ok hforward
  have hexact := Analyzed.dominatorsOf hforward (by unfold Addressable; omega)
  obtain ⟨loops, hok, hforest⟩ := naturalLoops_exact hexact ha.tree.reach ha.reversal.mem
  rw [hloops] at hok
  cases hok
  rw [← ha.edge_eq]
  refine ⟨hforest.headers, fun l hl x => ?_, fun l hl l' hl' hne => ?_, hforest.parent⟩
  · have hlatch := (hforest.headers l.header).mp (List.mem_map_of_mem hl)
    rw [hforest.blocks l hl, InLoop, and_iff_right hlatch]
  · obtain ⟨i, hi, rfl⟩ := List.getElem_of_mem hl
    obtain ⟨j, hj, rfl⟩ := List.getElem_of_mem hl'
    have hpairs := List.pairwise_iff_getElem.mp hforest.nested
    simp only [List.length_map, List.getElem_map] at hpairs
    rcases Nat.lt_trichotomy i j with hij | rfl | hij
    · exact (hpairs i j hi hj hij).imp_right .inl
    · exact absurd rfl hne
    · exact (hpairs j i hj hi hij).imp (fun hd => hd.symm) .inr

/-- Two headers of one loop body, one inside the other. -/
theorem analyze_naturalLoops_nested :
    ControlFlowGraph.analyze [[1], [2], [1, 2, 3], []] 0 ≠
      .error (.invalidGraph "natural loops overlap without nesting") :=
  (analyze_naturalLoops (by decide)).1

/-! ## Regions -/

/-- The regions of an accepted graph are its strong components in an order that no edge goes against. A
single entry is a reducible header, with or without a cycle. -/
theorem analyze_regions (hsize : Addressable successors)
    (h : ControlFlowGraph.analyze successors root = .ok cfg) :
    RegionsOf successors root cfg.sccs cfg.sccForBlock := by
  obtain ⟨forward, hforward, -, hregions, -⟩ := analyze_parts h
  have ha := analyze_ok hforward
  have hexact := stronglyConnectedRegions_exact (Analyzed.dominatorsOf hforward hsize) ha.tree.reach
    ha.reversal.mem
  rw [hregions] at hexact
  dsimp only at hexact
  have hmutual : Mutual forward.successors = Mutual successors := by
    funext u v
    simp only [Mutual, Reach, ha.edge_eq]
  have hcyclic : Cyclic forward.successors = Cyclic successors := by
    funext b
    simp only [Cyclic, ha.edge_eq]
  obtain ⟨hlisted, hmem, hsorted, hsame, hordered, hentries, hcycle, hheader⟩ := hexact
  rw [ha.length, hmutual] at hsame
  rw [ha.length] at hlisted
  rw [ha.edge_eq] at hordered hentries hheader
  rw [hcyclic] at hcycle
  exact ⟨hlisted, hmem, hsorted, hsame, hordered, hentries, hcycle, hheader⟩

/-- A loop with two entries. -/
theorem analyze_regions_irreducible : ∃ cfg,
    ControlFlowGraph.analyze [[1, 2], [2], [1, 3], []] 0 = .ok cfg ∧
      RegionsOf [[1, 2], [2], [1, 3], []] 0 cfg.sccs cfg.sccForBlock := by
  have hok : (ControlFlowGraph.analyze [[1, 2], [2], [1, 3], []] 0).isOk = true := by
    decide +kernel
  cases h : ControlFlowGraph.analyze [[1, 2], [2], [1, 3], []] 0 with
  | error e =>
    rw [h] at hok
    cases hok
  | ok cfg => exact ⟨cfg, rfl, analyze_regions (by unfold Addressable; decide) h⟩

/-- A block on no cycle is the reducible header of its region. -/
theorem header_without_cycle : ¬ ∀ successors root cfg,
    ControlFlowGraph.analyze successors root = .ok cfg → ∀ r ∈ cfg.sccs, ∀ h,
      r.reducibleHeader = some h ↔
        r.cyclic = true ∧ r.entries = [h] ∧ ∀ b ∈ r.blocks, Dom (Edge successors) root h b := by
  intro hall
  have hsccs : (ControlFlowGraph.analyze [[]] 0).map ControlFlowGraph.sccs =
      .ok [⟨[0], [0], false, some 0⟩] := by decide +kernel
  cases h : ControlFlowGraph.analyze [[]] 0 with
  | error e =>
    rw [h] at hsccs
    cases hsccs
  | ok cfg =>
    rw [h] at hsccs
    have hregion : cfg.sccs = [⟨[0], [0], false, some 0⟩] := Except.ok.inj hsccs
    have hcyclic := (hall [[]] 0 cfg h ⟨[0], [0], false, some 0⟩ (by simp [hregion]) 0).mp rfl
    exact Bool.false_ne_true hcyclic.1

end Analyzed
end Celox.Cfg
