import Celox.Cfg.Postorder
import Celox.Sir.Dominance

/-! # The control-flow analysis of a unit

Blocks are numbered in reverse postorder from the entry; the analysis of dense graphs works on these
numbers. Post-dominance, loops and components are not computed here. -/
namespace Celox.Sir
open Celox.Cfg Relation

variable {A : Type}

inductive SirCfgError where
  | empty
  | missingEntry (entry : BlockId)
  | blockIdentity (key embedded : BlockId)
  | missingTarget (source target : BlockId)
  | unreachable (blocks : List BlockId)
  | invalidGraph (message : String)
deriving DecidableEq, Repr

def mapAnalysisError : CfgError → SirCfgError
  | .invalidGraph message => .invalidGraph message
  | .empty => .empty
  | .unreachable _ => .invalidGraph "shared CFG unexpectedly found an unreachable SIR block"
  | .invalidRoot .. | .edgeOutOfRange .. =>
    .invalidGraph "shared CFG rejected validated SIR block indices"

def liftAnalysis {α : Type} : Except CfgError α → Except SirCfgError α
  | .ok value => .ok value
  | .error error => .error (mapAnalysisError error)

structure IndexedSirGraph where
  blockIds : List BlockId
  successors : List (List Nat)

/-- The row of a block in the numbering by id. -/
def sourceRow (eu : ExecutionUnit A) (ids : List BlockId) (id : BlockId) :
    Except SirCfgError (List Nat) :=
  match eu.blocks.lookup id with
  | none => .ok []
  | some block =>
    if block.id ≠ id then .error (.blockIdentity id block.id)
    else (block.terminator.successorIds.insertionSort (· ≤ ·)).dedup.mapM fun target =>
      if target ∈ ids then .ok (ids.idxOf target) else .error (.missingTarget id target)

def indexSirGraph (eu : ExecutionUnit A) : Except SirCfgError IndexedSirGraph := do
  if eu.blocks.keys = [] then .error .empty
  else if eu.entryBlockId ∉ eu.blocks then .error (.missingEntry eu.entryBlockId)
  else
    let ids := eu.blocks.keys.insertionSort (· ≤ ·)
    let rows ← ids.mapM (sourceRow eu ids)
    let order ← liftAnalysis (reversePostorder rows (ids.idxOf eu.entryBlockId))
    if order.length ≠ ids.length then
      .error (.unreachable ((ids.zipIdx.filter (·.2 ∉ order)).map Prod.fst))
    else
      let blockIds := order.map fun source => ids.getD source 0
      return ⟨blockIds, order.map fun source =>
        (Graph.succ rows source).map fun target => blockIds.idxOf (ids.getD target 0)⟩

structure SirCfg where
  blockIds : List BlockId
  predecessors : List (List Nat)
  successors : List (List Nat)
  dominators : DominatorTree
  dominanceFrontier : List (List Nat)

def SirCfg.analyzeForward (eu : ExecutionUnit A) : Except SirCfgError SirCfg := do
  let graph ← indexSirGraph eu
  let analysis ← liftAnalysis (ForwardControlFlowGraph.analyze graph.successors 0)
  return ⟨graph.blockIds, analysis.predecessors, analysis.successors, analysis.dominators,
    analysis.dominanceFrontier⟩

def SirCfg.blockIndex (cfg : SirCfg) (b : BlockId) : Option Nat :=
  if b ∈ cfg.blockIds then some (cfg.blockIds.idxOf b) else none

def SirCfg.dominates (cfg : SirCfg) (dominator b : BlockId) : Bool :=
  match cfg.blockIndex dominator, cfg.blockIndex b with
  | some dominator, some b => cfg.dominators.dominates dominator b
  | _, _ => false

/-! ## The numbering -/

variable {eu : ExecutionUnit A}

/-- Numbers stand for the blocks, the entry first, and edges are the flow of control. -/
structure Numbers (eu : ExecutionUnit A) (blockIds : List BlockId) (successors : List (List Nat)) :
    Prop where
  length : successors.length = blockIds.length
  nodup : blockIds.Nodup
  mem : ∀ b, b ∈ blockIds ↔ b ∈ eu.blocks
  entry : blockIds[0]? = some eu.entryBlockId
  edge : ∀ (i : Nat) j, Graph.Edge successors i j ↔
    ∃ a b, blockIds[i]? = some a ∧ blockIds[j]? = some b ∧ eu.Flow a b

theorem sourceRow_spec {ids : List BlockId} {id : BlockId} {row : List Nat}
    {block : BasicBlock A} (hb : eu.blocks.lookup id = some block)
    (h : sourceRow eu ids id = .ok row) (i : Nat) :
    i ∈ row ↔ ∃ b ∈ block.terminator.successorIds, b ∈ ids ∧ ids.idxOf b = i := by
  unfold sourceRow at h
  rw [hb] at h
  simp only at h
  split at h
  · cases h
  · have hall := forall₂_of_mapM h
    generalize hlist : (block.terminator.successorIds.insertionSort (· ≤ ·)).dedup = targets at hall
    have hmem : ∀ b, b ∈ targets ↔ b ∈ block.terminator.successorIds := fun b => by
      rw [← hlist, List.mem_dedup, List.mem_insertionSort]
    simp only [← hmem]
    clear h hlist hmem
    induction hall with
    | nil => simp
    | @cons target index targets row hhead _ ih =>
      split at hhead
      · rename_i hin
        cases hhead
        constructor
        · intro hi
          rcases List.mem_cons.mp hi with rfl | hi
          · exact ⟨target, List.mem_cons_self, hin, rfl⟩
          · obtain ⟨b, hb, hrest⟩ := ih.mp hi
            exact ⟨b, List.mem_cons_of_mem _ hb, hrest⟩
        · rintro ⟨b, hb, hrest⟩
          rcases List.mem_cons.mp hb with rfl | hb
          · exact hrest.2 ▸ List.mem_cons_self
          · exact List.mem_cons_of_mem _ (ih.mpr ⟨b, hb, hrest⟩)
      · cases hhead

theorem indexSirGraph_ok {graph : IndexedSirGraph} (h : indexSirGraph eu = .ok graph) :
    Numbers eu graph.blockIds graph.successors := by
  unfold indexSirGraph at h
  split at h
  · cases h
  split at h
  · cases h
  rename_i hentry
  rw [not_not] at hentry
  simp only [bind, Except.bind] at h
  split at h
  · cases h
  rename_i rows hrows
  split at h
  · cases h
  rename_i order horder
  split at h
  · cases h
  rename_i hlength
  rw [not_not] at hlength
  cases h
  generalize hidsEq : eu.blocks.keys.insertionSort (· ≤ ·) = ids at hrows horder hlength
  have hmemIds : ∀ b, b ∈ ids ↔ b ∈ eu.blocks := fun b => by
    rw [← hidsEq, List.mem_insertionSort, AList.mem_keys]
  have hnodupIds : ids.Nodup := by
    rw [← hidsEq]
    exact (List.perm_insertionSort _ _).nodup_iff.mpr eu.blocks.keys_nodup
  have hforall := forall₂_of_mapM hrows
  have hrowsLength : rows.length = ids.length := hforall.length_eq.symm
  have horder' : reversePostorder rows (ids.idxOf eu.entryBlockId) = .ok order := by
    unfold liftAnalysis at horder
    split at horder
    · cases horder
      assumption
    · cases horder
  obtain ⟨hnodup, hlt, hhead⟩ := reversePostorder_ok horder'
  rw [hrowsLength] at hlt hhead
  have hgetD : ∀ i (hi : i < ids.length), ids.getD i 0 = ids[i] := fun i hi => by
    rw [List.getD_eq_getElem?_getD, List.getElem?_eq_getElem hi]
    rfl
  have hidxOf : ∀ b ∈ ids, ids.getD (ids.idxOf b) 0 = b := fun b hb => by
    rw [List.getD_eq_getElem?_getD, List.getElem?_idxOf hb]
    rfl
  have hall : ∀ i, i ∈ order ↔ i < ids.length := fun i => by
    refine ⟨hlt i, fun hi => ?_⟩
    have hsub : order ⊆ List.range ids.length := fun k hk => List.mem_range.mpr (hlt k hk)
    have hperm := (hnodup.subperm hsub).perm_of_length_le (by rw [List.length_range, hlength])
    exact hperm.mem_iff.mpr (List.mem_range.mpr hi)
  have hnodupBlocks : (order.map fun source => ids.getD source 0).Nodup := by
    refine List.Nodup.map_on (fun i hi j hj heq => ?_) hnodup
    rw [hgetD i (hlt i hi), hgetD j (hlt j hj)] at heq
    exact (List.Nodup.getElem_inj_iff hnodupIds).mp heq
  have hmem : ∀ b, b ∈ (order.map fun source => ids.getD source 0) ↔ b ∈ eu.blocks := fun b => by
    rw [← hmemIds, List.mem_map]
    constructor
    · rintro ⟨i, hi, rfl⟩
      rw [hgetD i (hlt i hi)]
      exact List.getElem_mem _
    · intro hb
      exact ⟨ids.idxOf b, (hall _).mpr (List.idxOf_lt_length_iff.mpr hb), hidxOf b hb⟩
  have hentryIds : eu.entryBlockId ∈ ids := (hmemIds _).mpr hentry
  refine ⟨by simp, hnodupBlocks, hmem, ?_, fun i j => ?_⟩
  · have hfirst := hhead hlength
    rw [List.head?_eq_getElem?] at hfirst
    rw [List.getElem?_map, hfirst, Option.map_some, hidxOf _ hentryIds]
  · generalize hblockIds : (order.map fun source => ids.getD source 0) = blockIds
      at hnodupBlocks hmem
    have hrow : ∀ source a, source < ids.length → ids.getD source 0 = a → ∀ t,
        t ∈ Graph.succ rows source ↔ ∃ b, eu.Flow a b ∧ ids.idxOf b = t := by
      intro source a hsource ha t
      rw [hgetD source hsource] at ha
      obtain ⟨block, hblock⟩ := mem_table.mp ((hmemIds a).mp (ha ▸ List.getElem_mem hsource))
      have hsucc : Graph.succ rows source = rows[source] := by
        unfold Graph.succ
        rw [List.getElem?_eq_getElem (hrowsLength ▸ hsource)]
        rfl
      have hok : sourceRow eu ids a = .ok (rows[source]) := by
        have hget := List.forall₂_iff_get.mp hforall |>.2 source hsource (hrowsLength ▸ hsource)
        rw [← ha]
        exact hget
      rw [hsucc, sourceRow_spec hblock hok]
      simp only [ExecutionUnit.flow_iff, hblock, Option.some.injEq, exists_eq_left']
      constructor
      · rintro ⟨b, hb, hin, hidx⟩
        exact ⟨b, ⟨(hmemIds b).mp hin, hb⟩, hidx⟩
      · rintro ⟨b, ⟨hin, hb⟩, hidx⟩
        exact ⟨b, hb, (hmemIds b).mpr hin, hidx⟩
    have hget : ∀ (k : Nat) b, blockIds[k]? = some b ↔ b ∈ blockIds ∧ blockIds.idxOf b = k := by
      intro k b
      constructor
      · intro hk
        obtain ⟨hlt', rfl⟩ := List.getElem?_eq_some_iff.mp hk
        exact ⟨List.getElem_mem _, hnodupBlocks.idxOf_getElem k hlt'⟩
      · rintro ⟨hb, rfl⟩
        exact List.getElem?_idxOf hb
    unfold Graph.Edge Graph.succ
    rw [List.getElem?_map]
    cases hi : order[i]? with
    | none =>
      have hnone : blockIds[i]? = none := by
        rw [← hblockIds, List.getElem?_map, hi]
        rfl
      simp [hnone]
    | some source =>
      have hsource : source < ids.length := hlt source (List.mem_of_getElem? hi)
      have hat : blockIds[i]? = some (ids.getD source 0) := by
        rw [← hblockIds, List.getElem?_map, hi]
        rfl
      simp only [Option.map_some, Option.getD_some, List.mem_map, hat, Option.some.injEq]
      constructor
      · rintro ⟨t, ht, rfl⟩
        obtain ⟨b, hflow, rfl⟩ := (hrow source _ hsource rfl t).mp ht
        have hb : b ∈ eu.blocks := (ExecutionUnit.flow_iff.mp hflow).1
        rw [hidxOf b ((hmemIds b).mpr hb)]
        exact ⟨_, b, rfl, (hget _ b).mpr ⟨(hmem b).mpr hb, rfl⟩, hflow⟩
      · rintro ⟨a, b, rfl, hj, hflow⟩
        have hb : b ∈ eu.blocks := (ExecutionUnit.flow_iff.mp hflow).1
        refine ⟨ids.idxOf b, (hrow source _ hsource rfl _).mpr ⟨b, hflow, rfl⟩, ?_⟩
        rw [hidxOf b ((hmemIds b).mpr hb)]
        exact ((hget j b).mp hj).2

variable {blockIds : List BlockId} {successors : List (List Nat)} {i d : Nat} {a b : BlockId}

theorem Numbers.get (h : Numbers eu blockIds successors) :
    blockIds[i]? = some b ↔ b ∈ eu.blocks ∧ blockIds.idxOf b = i := by
  rw [← h.mem]
  constructor
  · intro hi
    obtain ⟨hlt, rfl⟩ := List.getElem?_eq_some_iff.mp hi
    exact ⟨List.getElem_mem _, h.nodup.idxOf_getElem i hlt⟩
  · rintro ⟨hb, rfl⟩
    exact List.getElem?_idxOf hb

/-- Blocks dominate as their numbers do. -/
theorem Numbers.dom (h : Numbers eu blockIds successors) (hd : blockIds[d]? = some a)
    (hi : blockIds[i]? = some b) (hdom : Graph.Dom (Graph.Edge successors) 0 d i) :
    Graph.Dom eu.Flow eu.entryBlockId a b := by
  have hentry := (h.get.mp h.entry).1
  obtain ⟨ha, rfl⟩ := h.get.mp hd
  obtain ⟨hb, rfl⟩ := h.get.mp hi
  have hmem : ∀ v, ReflTransGen eu.Flow eu.entryBlockId v → blockIds[blockIds.idxOf v]? = some v :=
    fun v hv => h.get.mpr ⟨ExecutionUnit.mem_of_reach hentry hv, rfl⟩
  refine Graph.Dom.of_map (f := blockIds.idxOf) (fun u v hu huv => ?_) (fun v hv heq => ?_)
    ((h.get.mp h.entry).2 ▸ hdom)
  · exact (h.edge _ _).mpr ⟨u, v, hmem u hu, hmem v (hu.tail huv), huv⟩
  · have hv' := hmem v hv
    rw [heq, hd] at hv'
    exact (Option.some.inj hv').symm

/-- What the analysis promises of a unit it accepts. -/
structure SirCfg.Exact (eu : ExecutionUnit A) (cfg : SirCfg) : Prop where
  numbers : Numbers eu cfg.blockIds cfg.successors
  idom : ∀ (i d : Nat), cfg.dominators.idom[i]? = some (some d) → ∃ a b,
    cfg.blockIds[d]? = some a ∧ cfg.blockIds[i]? = some b ∧ a ≠ b ∧
      Graph.Dom eu.Flow eu.entryBlockId a b

theorem SirCfg.analyzeForward_ok {cfg : SirCfg} (h : analyzeForward eu = .ok cfg) :
    cfg.Exact eu := by
  unfold analyzeForward at h
  simp only [bind, Except.bind] at h
  split at h
  · cases h
  rename_i graph hgraph
  split at h
  · cases h
  rename_i analysis hanalysis
  cases h
  have hok : ForwardControlFlowGraph.analyze graph.successors 0 = .ok analysis := by
    unfold liftAnalysis at hanalysis
    split at hanalysis
    · cases hanalysis
      assumption
    · cases hanalysis
  have hnumbers := indexSirGraph_ok hgraph
  have hanalyzed := analyze_ok hok
  have hkept : Numbers eu graph.blockIds analysis.successors := { hnumbers with
    length := hanalyzed.length.trans hnumbers.length
    edge := fun i j => (hanalyzed.edge i j).trans (hnumbers.edge i j) }
  refine ⟨hkept, fun i d hidom => ?_⟩
  have hi : i < analysis.successors.length := by
    rw [← hanalyzed.tree.idoms.length]
    exact (List.getElem?_eq_some_iff.mp hidom).1
  have hid := (hanalyzed.tree.idom_eq hi).mp hidom
  have hd := hanalyzed.tree.reach_lt (hid.reach (hanalyzed.tree.reach i hi))
  have hat : ∀ k < analysis.successors.length, ∃ c, graph.blockIds[k]? = some c := fun k hk =>
    ⟨_, List.getElem?_eq_getElem (hkept.length ▸ hk)⟩
  obtain ⟨a, ha⟩ := hat d hd
  obtain ⟨b, hb⟩ := hat i hi
  refine ⟨a, b, ha, hb, fun heq => hid.ne ?_, hkept.dom ha hb hid.dom⟩
  subst heq
  exact (hkept.get.mp ha).2.symm.trans (hkept.get.mp hb).2

end Celox.Sir
