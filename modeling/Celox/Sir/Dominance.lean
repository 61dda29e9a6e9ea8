import Celox.Sir.Verify

/-! # The dominators the verifier computes

When all blocks are reachable, the intervals decide dominance in the graph of the unit. -/
namespace Celox.Sir
open Celox.Graph Relation

variable {A : Type} {eu : ExecutionUnit A}

theorem mem_entries {K V : Type} [DecidableEq K] {table : Table K V} {k : K} {v : V} :
    ⟨k, v⟩ ∈ table.entries ↔ table.lookup k = some v :=
  AList.mem_lookup_iff.symm

theorem mem_table {K V : Type} [DecidableEq K] {table : Table K V} {k : K} :
    k ∈ table ↔ ∃ v, table.lookup k = some v := by
  rw [← AList.lookup_isSome, Option.isSome_iff_exists]

/-- Control can pass from one block to another. -/
def ExecutionUnit.Flow (eu : ExecutionUnit A) (a b : BlockId) : Prop := b ∈ eu.successors a

theorem ExecutionUnit.flow_iff {a b : BlockId} : eu.Flow a b ↔
    b ∈ eu.blocks ∧ ∃ block, eu.blocks.lookup a = some block ∧
      b ∈ block.terminator.successorIds := by
  unfold Flow successors
  cases eu.blocks.lookup a with
  | none => simp
  | some block => simp [and_comm]

theorem ExecutionUnit.mem_of_reach (hentry : eu.entryBlockId ∈ eu.blocks) {b : BlockId}
    (hb : ReflTransGen eu.Flow eu.entryBlockId b) : b ∈ eu.blocks := by
  rcases hb.cases_tail with rfl | ⟨a, -, hab⟩
  · exact hentry
  · exact (flow_iff.mp hab).1

theorem reachableBlocks_spec (hentry : eu.entryBlockId ∈ eu.blocks) :
    (reachableBlocks eu).Nodup ∧
      ∀ b, b ∈ reachableBlocks eu ↔ ReflTransGen eu.Flow eu.entryBlockId b :=
  mem_reachLoop (fun _ hb => AList.mem_keys.mp (ExecutionUnit.mem_of_reach hentry hb))
    (Nat.le_refl _)

/-- Comparing sizes is enough, as only blocks of the unit are reached. -/
theorem reachableBlocks_length (hentry : eu.entryBlockId ∈ eu.blocks) :
    (reachableBlocks eu).length = eu.blocks.entries.length ↔
      ∀ b ∈ eu.blocks, ReflTransGen eu.Flow eu.entryBlockId b := by
  obtain ⟨hnodup, hmem⟩ := reachableBlocks_spec hentry
  have hsub : reachableBlocks eu ⊆ eu.blocks.keys := fun b hb =>
    AList.mem_keys.mp (ExecutionUnit.mem_of_reach hentry ((hmem b).mp hb))
  have hlen : eu.blocks.keys.length = eu.blocks.entries.length := by simp [AList.keys, List.keys]
  rw [← hlen]
  constructor
  · intro heq b hb
    have hperm := (hnodup.subperm hsub).perm_of_length_le heq.ge
    exact (hmem b).mp (hperm.mem_iff.mpr (AList.mem_keys.mp hb))
  · intro hall
    have hsub' : eu.blocks.keys ⊆ reachableBlocks eu := fun b hb =>
      (hmem b).mpr (hall b (AList.mem_keys.mpr hb))
    exact Nat.le_antisymm (hnodup.subperm hsub).length_le
      ((AList.keys_nodup eu.blocks).subperm hsub').length_le

/-- Blocks carry the id they are stored under. -/
def ExecutionUnit.Keyed (eu : ExecutionUnit A) : Prop :=
  ∀ b block, eu.blocks.lookup b = some block → block.id = b

theorem ExecutionUnit.mem_predecessors (hids : eu.Keyed) {p b : BlockId} :
    p ∈ eu.predecessors b ↔ ∃ block, eu.blocks.lookup p = some block ∧
      b ∈ block.terminator.successorIds := by
  simp only [predecessors, List.mem_insertionSort, List.mem_map, List.mem_filter,
    decide_eq_true_eq, Sigma.exists, mem_entries]
  constructor
  · rintro ⟨q, block, ⟨hlookup, hb⟩, rfl⟩
    exact ⟨block, (hids q block hlookup).symm ▸ hlookup, hb⟩
  · rintro ⟨block, hlookup, hb⟩
    exact ⟨p, block, ⟨hlookup, hb⟩, hids p block hlookup⟩

variable {reachable : List BlockId}

theorem mem_successorRow (hids : eu.Keyed) (hreach : ∀ b ∈ eu.blocks, b ∈ reachable)
    {p b : BlockId} : b ∈ successorRow eu reachable p ↔ eu.Flow p b := by
  simp only [successorRow, List.mem_filter, List.mem_insertionSort, decide_eq_true_eq,
    ExecutionUnit.mem_predecessors hids, ExecutionUnit.flow_iff, ← AList.mem_keys]
  exact ⟨fun ⟨hb, _, hp⟩ => ⟨hb, hp⟩, fun ⟨hb, hp⟩ => ⟨hb, hreach b hb, hp⟩⟩

/-- An order of the blocks that the dominators are numbered by. -/
structure BlockOrder (eu : ExecutionUnit A) (order : List BlockId) : Prop where
  nodup : order.Nodup
  mem : ∀ b, b ∈ order ↔ b ∈ eu.blocks
  head : order[0]? = some eu.entryBlockId
  earlier : ∀ i b, order[i]? = some b → 0 < i → ∃ j p, j < i ∧ order[j]? = some p ∧ eu.Flow p b

theorem blockOrder_postorder (hentry : eu.entryBlockId ∈ eu.blocks) (hids : eu.Keyed)
    (hall : ∀ b ∈ eu.blocks, ReflTransGen eu.Flow eu.entryBlockId b)
    (hreach : ∀ b ∈ eu.blocks, b ∈ reachable) :
    BlockOrder eu (reversePostorder (successorRow eu reachable)
      (eu.blocks.keys.map fun b => (successorRow eu reachable b).length + 1).sum
      eu.entryBlockId) := by
  have hrel : (fun u v => v ∈ successorRow eu reachable u) = eu.Flow := by
    funext u v
    exact propext (mem_successorRow hids hreach)
  have hnodes : ∀ b, ReflTransGen (fun u v => v ∈ successorRow eu reachable u)
      eu.entryBlockId b → b ∈ eu.blocks.keys := fun b hb =>
    AList.mem_keys.mp (ExecutionUnit.mem_of_reach hentry (hrel ▸ hb))
  have hspec := reversePostorder_spec hnodes (Nat.le_refl _)
  refine ⟨hspec.nodup, fun b => ?_, hspec.head, fun i b hi hpos => ?_⟩
  · rw [hspec.mem b, hrel]
    exact ⟨ExecutionUnit.mem_of_reach hentry, hall b⟩
  · obtain ⟨j, p, hj, hp, hb⟩ := hspec.earlier i b hi hpos
    exact ⟨j, p, hj, hp, (mem_successorRow hids hreach).mp hb⟩

section Order
variable {order : List BlockId}

theorem BlockOrder.idxOf_lt (h : BlockOrder eu order) {b : BlockId} (hb : b ∈ eu.blocks) :
    order.idxOf b < order.length :=
  List.idxOf_lt_length_of_mem ((h.mem b).mpr hb)

theorem BlockOrder.getElem?_idxOf (h : BlockOrder eu order) {b : BlockId} (hb : b ∈ eu.blocks) :
    order[order.idxOf b]? = some b := by
  rw [List.getElem?_eq_getElem (h.idxOf_lt hb), List.getElem_idxOf]

theorem BlockOrder.idxOf_eq (h : BlockOrder eu order) {i : Nat} {b : BlockId}
    (hi : order[i]? = some b) : order.idxOf b = i := by
  obtain ⟨hlt, rfl⟩ := List.getElem?_eq_some_iff.mp hi
  exact h.nodup.idxOf_getElem i hlt

theorem BlockOrder.idxOf_entry (h : BlockOrder eu order) : order.idxOf eu.entryBlockId = 0 :=
  h.idxOf_eq h.head

theorem predEdge_iff (hids : eu.Keyed) {i j : Nat} :
    PredEdge (predecessorsAt eu order) order.length i j ↔
      ∃ p b, order[j]? = some b ∧ order.idxOf p = i ∧
        ∃ block, eu.blocks.lookup p = some block ∧ b ∈ block.terminator.successorIds := by
  unfold PredEdge predecessorsAt
  cases hj : order[j]? with
  | none => simp
  | some b =>
    have hlt : j < order.length := (List.getElem?_eq_some_iff.mp hj).1
    simp only [hlt, List.mem_map, ExecutionUnit.mem_predecessors hids, true_and,
      Option.some.injEq]
    constructor
    · rintro ⟨p, hp, rfl⟩
      exact ⟨p, b, rfl, rfl, hp⟩
    · rintro ⟨p, c, rfl, rfl, hp⟩
      exact ⟨p, hp, rfl⟩

theorem BlockOrder.predEdge (h : BlockOrder eu order) (hids : eu.Keyed) {u v : BlockId}
    (huv : eu.Flow u v) :
    PredEdge (predecessorsAt eu order) order.length (order.idxOf u) (order.idxOf v) := by
  obtain ⟨hv, hblock⟩ := ExecutionUnit.flow_iff.mp huv
  exact (predEdge_iff hids).mpr ⟨u, v, h.getElem?_idxOf hv, rfl, hblock⟩

theorem BlockOrder.forward (h : BlockOrder eu order) (hids : eu.Keyed) :
    Forward (predecessorsAt eu order) order.length where
  pos := (List.getElem?_eq_some_iff.mp h.head).1
  lt b hb p hp := by
    obtain ⟨q, c, -, rfl, block, hq, -⟩ := (predEdge_iff hids).mp ⟨hb, hp⟩
    exact h.idxOf_lt (mem_table.mpr ⟨block, hq⟩)
  earlier b hb hpos := by
    obtain ⟨j, p, hj, hp, hflow⟩ := h.earlier b order[b] (List.getElem?_eq_getElem hb) hpos
    have hedge := h.predEdge hids hflow
    rw [h.idxOf_eq hp, h.idxOf_eq (List.getElem?_eq_getElem hb)] at hedge
    exact ⟨j, hedge.2, hj⟩

/-- Positions dominate as their blocks do. -/
theorem BlockOrder.dom_iff (h : BlockOrder eu order) (hids : eu.Keyed)
    (hentry : eu.entryBlockId ∈ eu.blocks) {d b : BlockId} (hd : d ∈ eu.blocks)
    (hb : b ∈ eu.blocks) :
    Dom (PredEdge (predecessorsAt eu order) order.length) 0 (order.idxOf d) (order.idxOf b) ↔
      Dom eu.Flow eu.entryBlockId d b := by
  have hinj : ∀ u ∈ eu.blocks, ∀ v ∈ eu.blocks, order.idxOf u = order.idxOf v → u = v := by
    intro u hu v hv heq
    exact Option.some.inj ((h.getElem?_idxOf hu).symm.trans (heq ▸ h.getElem?_idxOf hv))
  constructor
  · intro hdom
    refine Dom.of_map (f := order.idxOf) (fun u v _ => h.predEdge hids) (fun v hv heq => ?_)
      (h.idxOf_entry ▸ hdom)
    exact hinj v (ExecutionUnit.mem_of_reach hentry hv) d hd heq
  · intro hdom
    have hget : ∀ c ∈ eu.blocks, order.getD (order.idxOf c) 0 = c := by
      intro c hc
      rw [List.getD_eq_getElem?_getD, h.getElem?_idxOf hc]
      rfl
    have hdom' : Dom eu.Flow (order.getD 0 0) (order.getD (order.idxOf d) 0)
        (order.getD (order.idxOf b) 0) := by
      rw [hget d hd, hget b hb, List.getD_eq_getElem?_getD, h.head]
      exact hdom
    refine Dom.of_map (f := fun i => order.getD i 0) (fun i j _ hij => ?_) (fun j hj heq => ?_) hdom'
    · obtain ⟨p, c, hc, rfl, hblock⟩ := (predEdge_iff hids).mp hij
      obtain ⟨block, hp, hsucc⟩ := hblock
      have hcb : c ∈ eu.blocks := (h.mem c).mp (List.mem_of_getElem? hc)
      have hj' := h.idxOf_eq hc
      subst hj'
      rw [hget c hcb, hget p (mem_table.mpr ⟨block, hp⟩)]
      exact ExecutionUnit.flow_iff.mpr ⟨hcb, block, hp, hsucc⟩
    · have hjlt : j < order.length := by
        rcases hj.cases_tail with rfl | ⟨i, -, hij⟩
        · exact (h.forward hids).pos
        · exact hij.1
      rw [hget d hd, List.getD_eq_getElem?_getD, List.getElem?_eq_getElem hjlt] at heq
      exact (h.idxOf_eq ((List.getElem?_eq_getElem hjlt).trans (congrArg some heq))).symm

end Order

/-- The computed intervals nest exactly under dominance. -/
theorem computeDominators_exact (hentry : eu.entryBlockId ∈ eu.blocks) (hids : eu.Keyed)
    (hall : ∀ b ∈ eu.blocks, ReflTransGen eu.Flow eu.entryBlockId b)
    (hreach : ∀ b ∈ eu.blocks, b ∈ reachable) :
    ∃ dominators, computeDominators eu reachable = some dominators ∧
      ∀ d ∈ eu.blocks, ∀ b ∈ eu.blocks, dominators.dominates d b = true ↔
        Dom eu.Flow eu.entryBlockId d b := by
  have horder := blockOrder_postorder hentry hids hall hreach
  unfold computeDominators
  dsimp only
  generalize reversePostorder (successorRow eu reachable) _ eu.entryBlockId = order at horder ⊢
  have hforward := horder.forward hids
  obtain ⟨idom, hidom, hfall, -, -, hroot, hexact⟩ := iterativeDominators_exact hforward
  have hrows : ChildRows idom (childRow order.length idom) order.length := by
    refine ⟨hfall, fun b c => ?_, fun b => List.Nodup.filter _ List.nodup_range'⟩
    have := hforward.pos
    simp only [childRow, List.mem_filter, List.mem_range'_1, decide_eq_true_eq, Up]
    constructor
    · rintro ⟨hc, hlink⟩
      exact ⟨by omega, by omega, hlink⟩
    · rintro ⟨hc, hne, hlink⟩
      exact ⟨by omega, hlink⟩
  refine ⟨numberTree order idom, by rw [numberDominators, hidom]; rfl, fun d hd b hb => ?_⟩
  have hnested := timeLoop_nested hrows hforward.pos hroot ⟨fun _ => 0, fun _ => 0, 0⟩
    (horder.idxOf_lt hd) (horder.idxOf_lt hb)
  rw [hexact _ (horder.idxOf_lt hb), horder.dom_iff hids hentry hd hb] at hnested
  rw [← hnested, Dominators.dominates, Bool.and_eq_true]
  exact and_congr decide_eq_true_iff decide_eq_true_iff

end Celox.Sir
