import Celox.Graph.PushSearch
import Celox.Graph.TreeWalk

/-! # Blocks in preorder of the dominator tree

Blocks are handled by their index in the sorted list of ids, and links to immediate dominators by
the position of a block in the reverse postorder, the `rpo_number` that `intersect` compares. -/
namespace Celox.Cfg
open Celox.Graph

def adjacentDedup {α : Type} [DecidableEq α] (items : List α) : List α :=
  items.destutter (· ≠ ·)

/-- Rows of predecessors among the discovered blocks, with one entry for each edge. -/
def discoveredPreds (rows : List (List Nat)) (discovered : List Nat) (block : Nat) : List Nat :=
  if block ∈ discovered then
    (List.range rows.length).flatMap fun pred =>
      if pred ∈ discovered then List.replicate ((rows.getD pred []).count block) pred else []
  else []

/-- `none` when the chain does not end within the fuel. -/
def dominatesIndex (idom : Nat → Option Nat) (dominator : Nat) :
    (fuel : Nat) → (block : Nat) → Option Bool
  | 0, _ => none
  | fuel + 1, block =>
    if dominator = block then some true
    else match idom block with
      | none => some false
      | some parent =>
        if parent = block then some false else dominatesIndex idom dominator fuel parent

/-- A merge has several ways in, none of them from a block it dominates. -/
def isMerge (preds : Nat → List Nat) (idom : Nat → Option Nat) (fuel block : Nat) :
    Option Bool := do
  if 1 < (preds block).length then
    return !(← (preds block).anyM (dominatesIndex idom block fuel))
  else return false

/-- Siblings in order of discovery, merges behind all others. -/
def siblingLe (merges : List Bool) (discoveryOrder : List Nat) (a b : Nat) : Prop :=
  toLex (merges.getD a false, discoveryOrder.idxOf a) ≤
    toLex (merges.getD b false, discoveryOrder.idxOf b)

instance (merges : List Bool) (discoveryOrder : List Nat) :
    DecidableRel (siblingLe merges discoveryOrder) :=
  fun _ _ => inferInstanceAs (Decidable (_ ≤ _))

def domChildren (idom : Nat → Option Nat) (merges : List Bool) (discoveryOrder : List Nat)
    (entryIndex parent : Nat) : List Nat :=
  (discoveryOrder.filter fun block => block ≠ entryIndex ∧ idom block = some parent).insertionSort
    (siblingLe merges discoveryOrder)

/-- The top of the stack is in front. -/
def treeOrder (children : Nat → List Nat) :
    (fuel : Nat) → (order stack : List Nat) → Option (List Nat)
  | _, order, [] => some order
  | 0, _, _ :: _ => none
  | fuel + 1, order, block :: stack =>
    treeOrder children fuel (order ++ [block]) (children block ++ stack)

/-- The order of the indices of `size` blocks, given their rows of successors. -/
def dominanceIndices (rows : List (List Nat)) (entryIndex : Nat) : Option (List Nat) := do
  let size := rows.length
  let search := PushSearch.run (fun block => rows.getD block []) entryIndex (2 * size)
    (PushSearch.start entryIndex)
  if search.stack ≠ [] then none else
  let rpo := search.postorder.reverse
  let preds := discoveredPreds rows search.discovered
  let links ← iterativeDominators (rowsAt preds rpo) rpo.length
  let idom := nodeLinks rpo links
  let merges ← (List.range size).mapM (isMerge preds idom (size + 1))
  let children := domChildren idom merges search.discoveryOrder entryIndex
  let order ← treeOrder children size [] [entryIndex]
  return order ++ (List.range size).filter (· ∉ search.discovered)

/-- Rows of successors by index, without edges to unknown ids. -/
def indexRows {K : Type} [DecidableEq K] (ids : List K) (successors : K → List K) :
    List (List Nat) :=
  ids.map fun id => adjacentDedup ((successors id).filterMap (ids.idxOf? ·))

/-- `none` stands for a panic or a loop that does not end. -/
def dominanceOrder {K : Type} [LinearOrder K] (entry : K) (blocks : List K)
    (successors : K → List K) : Option (List K) := do
  let ids := adjacentDedup (blocks.insertionSort (· ≤ ·))
  if entry ∉ ids then return ids
  let order ← dominanceIndices (indexRows ids successors) (ids.idxOf entry)
  order.mapM (ids[·]?)

example : dominanceOrder 0 [0, 1, 2, 3, 4] (fun block => match block with
    | 0 => [3, 1] | 1 => [2] | 2 => [4] | 3 => [2] | _ => []) = some [0, 3, 1, 2, 4] := by
  decide +kernel

end Celox.Cfg

/-! ## The order respects dominance

On every graph the order is computed, has each block once, and has a block that the entry reaches
behind all blocks that dominate it. -/
namespace Celox.Cfg
open Celox.Graph Relation

/-! ## Sorted ids -/

section Dedup
variable {α : Type} [DecidableEq α]

theorem mem_destutter' (a x : α) (items : List α) :
    x ∈ items.destutter' (· ≠ ·) a ↔ x = a ∨ x ∈ items := by
  induction items generalizing a with
  | nil => simp
  | cons b items ih =>
    rw [List.destutter'_cons]
    split
    · rw [List.mem_cons, ih, List.mem_cons]
    · rename_i heq
      obtain rfl : a = b := not_not.mp heq
      rw [ih, List.mem_cons, ← or_assoc, or_self]

theorem mem_adjacentDedup {x : α} {items : List α} : x ∈ adjacentDedup items ↔ x ∈ items := by
  cases items with
  | nil => rfl
  | cons a items => exact (mem_destutter' a x items).trans List.mem_cons.symm

end Dedup

theorem nodup_sortedIds {K : Type} [LinearOrder K] (blocks : List K) :
    (adjacentDedup (blocks.insertionSort (· ≤ ·))).Nodup := by
  have hle : (adjacentDedup (blocks.insertionSort (· ≤ ·))).Pairwise (· ≤ ·) :=
    (List.pairwise_insertionSort _ _).sublist (List.destutter_sublist _ _)
  have hne : (adjacentDedup (blocks.insertionSort (· ≤ ·))).IsChain (· ≠ ·) :=
    List.isChain_destutter _ _
  have hlt : (adjacentDedup (blocks.insertionSort (· ≤ ·))).IsChain (· < ·) := by
    rw [List.isChain_iff_getElem] at hne ⊢
    exact fun i hi => lt_of_le_of_ne (List.pairwise_iff_getElem.mp hle i (i + 1) _ hi (by omega))
      (hne i hi)
  exact (List.isChain_iff_pairwise.mp hlt).imp fun h => h.ne

theorem mem_sortedIds {K : Type} [LinearOrder K] {blocks : List K} {x : K} :
    x ∈ adjacentDedup (blocks.insertionSort (· ≤ ·)) ↔ x ∈ blocks := by
  rw [mem_adjacentDedup, List.mem_insertionSort]

/-! ## The parts of the computation -/

theorem mem_discoveredPreds {rows : List (List Nat)} {discovered : List Nat} {b p : Nat} :
    p ∈ discoveredPreds rows discovered b ↔
      b ∈ discovered ∧ p < rows.length ∧ p ∈ discovered ∧ b ∈ rows.getD p [] := by
  unfold discoveredPreds
  split
  · rename_i hb
    simp only [List.mem_flatMap, List.mem_range, hb, true_and]
    constructor
    · rintro ⟨q, hq, hp⟩
      split at hp
      · rename_i hdisc
        obtain ⟨hcount, rfl⟩ := List.mem_replicate.mp hp
        exact ⟨hq, hdisc, List.count_pos_iff.mp (Nat.pos_of_ne_zero hcount)⟩
      · cases hp
    · rintro ⟨hlt, hdisc, hmem⟩
      refine ⟨p, hlt, ?_⟩
      rw [if_pos hdisc]
      exact List.mem_replicate.mpr ⟨(List.count_pos_iff.mpr hmem).ne', rfl⟩
  · rename_i hb
    simp [hb]

theorem dominatesIndex_ok {idom : Nat → Option Nat} {rank : Nat → Nat} (dominator : Nat)
    (hrank : ∀ b p, idom b = some p → p ≠ b → rank p < rank b) (fuel block : Nat)
    (hfuel : rank block < fuel) :
    ∃ answer, dominatesIndex idom dominator fuel block = some answer := by
  induction fuel generalizing block with
  | zero => omega
  | succ fuel ih =>
    unfold dominatesIndex
    split
    · exact ⟨_, rfl⟩
    · split
      · exact ⟨_, rfl⟩
      · rename_i parent hparent
        split
        · exact ⟨_, rfl⟩
        · rename_i hne
          have := hrank block parent hparent hne
          exact ih parent (by omega)

theorem anyM_ok {α : Type} {f : α → Option Bool} {items : List α}
    (h : ∀ x ∈ items, ∃ answer, f x = some answer) : ∃ answer, items.anyM f = some answer := by
  induction items with
  | nil => exact ⟨false, rfl⟩
  | cons x items ih =>
    obtain ⟨answer, hx⟩ := h x (by simp)
    rw [List.anyM_cons, hx]
    cases answer with
    | true => exact ⟨true, rfl⟩
    | false => exact ih fun y hy => h y (by simp [hy])

theorem mapM_eq_map {α β : Type} {f : α → Option β} {g : α → β} {items : List α}
    (h : ∀ x ∈ items, f x = some (g x)) : items.mapM f = some (items.map g) := by
  induction items with
  | nil => rfl
  | cons x items ih =>
    rw [List.mapM_cons, h x (by simp), ih fun y hy => h y (by simp [hy])]
    rfl

theorem isMerge_ok (preds : Nat → List Nat) {idom : Nat → Option Nat} {rank : Nat → Nat}
    (hrank : ∀ b p, idom b = some p → p ≠ b → rank p < rank b) {fuel : Nat}
    (hfuel : ∀ b, rank b < fuel) (block : Nat) :
    ∃ merge, isMerge preds idom fuel block = some merge := by
  unfold isMerge
  split
  · have heach : ∀ p ∈ preds block, ∃ answer, dominatesIndex idom block fuel p = some answer :=
      fun p _ => dominatesIndex_ok block hrank fuel p (hfuel p)
    obtain ⟨answer, hanswer⟩ := anyM_ok heach
    exact ⟨!answer, by rw [hanswer]; rfl⟩
  · exact ⟨false, rfl⟩

theorem mem_domChildren {idom : Nat → Option Nat} {merges : List Bool}
    {discoveryOrder : List Nat} {entryIndex parent b : Nat} :
    b ∈ domChildren idom merges discoveryOrder entryIndex parent ↔
      b ∈ discoveryOrder ∧ b ≠ entryIndex ∧ idom b = some parent := by
  unfold domChildren
  rw [List.mem_insertionSort, List.mem_filter, decide_eq_true_iff]

/-- The walk ends with all nodes entered, each behind its parent. -/
theorem treeOrder_ok {children : Nat → List Nat} {root size : Nat} (t : IsTree children root size)
    (fuel : Nat) {order stack : List Nat} (h : Entering children root order stack)
    (hfirst : ParentFirst children root order) (hfuel : size ≤ order.length + fuel) :
    ∃ walked, treeOrder children fuel order stack = some walked ∧
      Entering children root walked [] ∧ ParentFirst children root walked := by
  induction fuel generalizing order stack with
  | zero =>
    cases stack with
    | nil => exact ⟨order, rfl, h, hfirst⟩
    | cons b stack =>
      have := h.length_le t
      rw [List.length_cons] at this
      omega
  | succ fuel ih =>
    cases stack with
    | nil => exact ⟨order, rfl, h, hfirst⟩
    | cons b stack =>
      refine ih (h.enter t) (h.parentFirst hfirst) ?_
      rw [List.length_append, List.length_singleton]
      omega

theorem ParentFirst.idxOf_lt {children : Nat → List Nat} {root size : Nat} {walked : List Nat}
    (hfirst : ParentFirst children root walked) (t : IsTree children root size)
    {p b : Nat} (hb : b ∈ walked) (hpb : b ∈ children p) : walked.idxOf p < walked.idxOf b := by
  have hlt := List.idxOf_lt_length_of_mem hb
  have hsplit : walked = walked.take (walked.idxOf b) ++ b :: walked.drop (walked.idxOf b + 1) := by
    have := List.take_append_drop (walked.idxOf b) walked
    rw [List.drop_eq_getElem_cons hlt, List.getElem_idxOf] at this
    exact this.symm
  rcases hfirst _ _ _ hsplit with rfl | ⟨d, hd, hbd⟩
  · exact absurd hpb (t.root_free p)
  · obtain rfl := t.unique p d b hpb hbd
    exact (List.mem_take_iff_idxOf_lt (List.mem_of_mem_take hd)).mp hd

/-! ## The order of indices -/

def RowEdge (rows : List (List Nat)) (u v : Nat) : Prop := v ∈ rows.getD u []

section Indices
variable {rows : List (List Nat)} {root : Nat} {search : PushSearch Nat}
  {links : Nat → Option Nat} {merges : List Bool}

theorem lt_of_rowReach (hroot : root < rows.length)
    (hrows : ∀ u v, RowEdge rows u v → v < rows.length) {b : Nat}
    (hb : ReflTransGen (RowEdge rows) root b) : b < rows.length := by
  rcases hb.cases_tail with rfl | ⟨u, -, huv⟩
  · exact hroot
  · exact hrows u b huv

theorem reachedRows_discoveredPreds (h : search.Found (fun block => rows.getD block []) root)
    (hroot : root < rows.length) (hrows : ∀ u v, RowEdge rows u v → v < rows.length) :
    ReachedRows (RowEdge rows) root (discoveredPreds rows search.discovered) := by
  intro b hb p
  rw [mem_discoveredPreds, h.discovered, h.discovered]
  constructor
  · exact fun ⟨_, _, hp, hedge⟩ => ⟨hp, hedge⟩
  · exact fun ⟨hp, hedge⟩ => ⟨hb, lt_of_rowReach hroot hrows hp, hp, hedge⟩

variable (h : search.Found (fun block => rows.getD block []) root)
  (hlinks : DomLinks (RowEdge rows) root search.postorder.reverse links)
include h hlinks

omit hlinks in
theorem isTree_domChildren (hroot : root < rows.length)
    (hrows : ∀ u v, RowEdge rows u v → v < rows.length) :
    IsTree (domChildren (nodeLinks search.postorder.reverse links) merges search.discoveryOrder
      root) root rows.length where
  root_lt := hroot
  lt _ c hc := lt_of_rowReach hroot hrows ((h.visited c).mp (mem_domChildren.mp hc).1)
  nodup _ := ((List.perm_insertionSort _ _).nodup_iff).mpr (h.visited_nodup.filter _)
  unique _ _ _ hd he :=
    Option.some.inj ((mem_domChildren.mp hd).2.2.symm.trans (mem_domChildren.mp he).2.2)
  root_free _ hd := (mem_domChildren.mp hd).2.1 rfl

/-- A link is a parent in the tree. -/
theorem domChild_of_up {b p : Nat} (hb : ReflTransGen (RowEdge rows) root b)
    (hp : ReflTransGen (RowEdge rows) root p)
    (hup : Up links (search.postorder.reverse.idxOf b) (search.postorder.reverse.idxOf p)) :
    b ∈ domChildren (nodeLinks search.postorder.reverse links) merges search.discoveryOrder root
      p := by
  refine mem_domChildren.mpr ⟨(h.visited b).mpr hb, ?_,
    (hlinks.nodeLinks_eq_some h.order).mpr ⟨hb, hp, hup.2⟩⟩
  rintro rfl
  exact hup.1 h.order.idxOf_root

/-- What is above a position is the position of a node. -/
theorem node_of_up {b i : Nat} (hup : Up links (search.postorder.reverse.idxOf b) i) :
    ∃ p, ReflTransGen (RowEdge rows) root p ∧ i = search.postorder.reverse.idxOf p := by
  have hlt := hlinks.falling _ _ hup
  have hfrom : search.postorder.reverse.idxOf b < search.postorder.reverse.length :=
    (hlinks.linked _).mp (by rw [hup.2]; rfl)
  have hget := List.getElem?_eq_getElem (hlt.trans hfrom)
  exact ⟨_, h.order.reach hget, (h.order.idxOf_eq hget).symm⟩

/-- All that is reached is in the tree. -/
theorem domTree_reach {b : Nat} (hb : ReflTransGen (RowEdge rows) root b) :
    ReflTransGen (fun d c => c ∈ domChildren (nodeLinks search.postorder.reverse links) merges
      search.discoveryOrder root d) root b := by
  generalize hi : search.postorder.reverse.idxOf b = i
  induction i using Nat.strong_induction_on generalizing b with
  | _ i ih =>
    subst hi
    have habove := hlinks.above_root _ (h.order.idxOf_lt hb)
    rcases habove.cases with hzero | ⟨j, hne, hj, -⟩
    · have heq : b = root := Option.some.inj
        ((h.order.getElem?_idxOf hb).symm.trans (hzero ▸ h.order.head))
      rw [heq]
    · obtain ⟨p, hp, rfl⟩ := node_of_up h hlinks ⟨hne, hj⟩
      exact (ih _ (hlinks.falling _ _ ⟨hne, hj⟩) hp rfl).tail
        (domChild_of_up h hlinks hb hp ⟨hne, hj⟩)

/-- A walk with parents first has dominators first. -/
theorem dominators_first (hroot : root < rows.length)
    (hrows : ∀ u v, RowEdge rows u v → v < rows.length) {walked : List Nat}
    (hfirst : ParentFirst (domChildren (nodeLinks search.postorder.reverse links) merges
      search.discoveryOrder root) root walked)
    (hall : ∀ b, ReflTransGen (RowEdge rows) root b → b ∈ walked) {d b : Nat}
    (hb : ReflTransGen (RowEdge rows) root b) (hd : ReflTransGen (RowEdge rows) root d)
    (hdom : Dom (RowEdge rows) root d b) (hne : d ≠ b) : walked.idxOf d < walked.idxOf b := by
  have habove := (hlinks.exact d b hd hb).mpr hdom
  generalize hi : search.postorder.reverse.idxOf b = i at habove
  induction habove using ReflTransGen.head_induction_on generalizing b with
  | refl =>
    refine absurd ?_ hne
    exact Option.some.inj ((h.order.getElem?_idxOf hd).symm.trans (hi ▸ h.order.getElem?_idxOf hb))
  | @head i j hup hrest ih =>
    subst hi
    obtain ⟨p, hp, rfl⟩ := node_of_up h hlinks hup
    have hchild : b ∈ domChildren (nodeLinks search.postorder.reverse links) merges
        search.discoveryOrder root p := domChild_of_up h hlinks hb hp hup
    have hlt := ParentFirst.idxOf_lt hfirst (isTree_domChildren h hroot hrows) (hall b hb) hchild
    by_cases hdp : d = p
    · rwa [hdp]
    · exact (ih hp ((hlinks.exact d p hd hp).mp hrest) hdp rfl).trans hlt

end Indices

/-- The indices of all blocks, dominators first. -/
theorem dominanceIndices_ok {rows : List (List Nat)} {root : Nat} (hroot : root < rows.length)
    (hrows : ∀ u v, RowEdge rows u v → v < rows.length) :
    ∃ order, dominanceIndices rows root = some order ∧ order.Nodup ∧
      (∀ b, b ∈ order ↔ b < rows.length) ∧
      ∀ d b, ReflTransGen (RowEdge rows) root b → Dom (RowEdge rows) root d b → d ≠ b →
        order.idxOf d < order.idxOf b := by
  have hfound : (PushSearch.run (fun block => rows.getD block []) root
      (2 * (List.range rows.length).length) (PushSearch.start root)).Found
        (fun block => rows.getD block []) root :=
    PushSearch.run_found List.nodup_range (List.mem_range.mpr hroot) fun u v hv =>
      List.mem_range.mpr (hrows u v hv)
  rw [List.length_range] at hfound
  generalize hsearch : PushSearch.run (fun block => rows.getD block []) root (2 * rows.length)
    (PushSearch.start root) = search at hfound
  obtain ⟨links, hrun, hlinks⟩ := hfound.order.dominators
    (reachedRows_discoveredPreds hfound hroot hrows)
  have hrank : ∀ b p, nodeLinks search.postorder.reverse links b = some p → p ≠ b →
      search.postorder.reverse.idxOf p < search.postorder.reverse.idxOf b :=
    fun b p hlink hne => hlinks.rank hfound.order hlink hne
  have hlength : search.postorder.reverse.length ≤ rows.length := by
    have hsub : search.postorder.reverse ⊆ List.range rows.length := fun b hb =>
      List.mem_range.mpr (lt_of_rowReach hroot hrows ((hfound.order.mem b).mp hb))
    simpa using (hfound.order.nodup.subperm hsub).length_le
  have hfuel : ∀ b, search.postorder.reverse.idxOf b < rows.length + 1 := fun b =>
    Nat.lt_succ_of_le (List.idxOf_le_length.trans hlength)
  have hmerge : ∀ b ∈ List.range rows.length, isMerge (discoveredPreds rows search.discovered)
      (nodeLinks search.postorder.reverse links) (rows.length + 1) b =
        some ((isMerge (discoveredPreds rows search.discovered)
          (nodeLinks search.postorder.reverse links) (rows.length + 1) b).getD false) := by
    intro b _
    obtain ⟨merge, h⟩ := isMerge_ok (discoveredPreds rows search.discovered) hrank hfuel b
    rw [h, Option.getD_some]
  have hmerges := mapM_eq_map hmerge
  generalize (List.range rows.length).map _ = merges at hmerges
  have htree : IsTree (domChildren (nodeLinks search.postorder.reverse links) merges
      search.discoveryOrder root) root rows.length := isTree_domChildren hfound hroot hrows
  obtain ⟨walked, hwalk, hentered, hfirst⟩ := treeOrder_ok htree rows.length Entering.start
    (fun before b after hsplit => by simp at hsplit) (Nat.le_add_left _ _)
  have hwalked : ∀ b, b ∈ walked ↔ ReflTransGen (RowEdge rows) root b := by
    intro b
    constructor
    · intro hb
      rcases hentered.origin b (by simpa using hb) with rfl | ⟨d, -, hbd⟩
      · exact .refl
      · exact (hfound.visited b).mp (mem_domChildren.mp hbd).1
    · exact fun hb => hentered.all (domTree_reach hfound hlinks hb)
  refine ⟨walked ++ (List.range rows.length).filter (· ∉ search.discovered), ?_, ?_, ?_, ?_⟩
  · unfold dominanceIndices
    simp only [hsearch]
    rw [if_neg (not_not.mpr hfound.finished), hrun]
    simp only [Option.bind_eq_bind, Option.bind_some, hmerges, hwalk]
    rfl
  · refine List.Nodup.append (by simpa using hentered.nodup) (List.nodup_range.filter _) ?_
    intro b hb hrest
    have hnot := (List.mem_filter.mp hrest).2
    rw [decide_eq_true_iff, hfound.discovered] at hnot
    exact hnot ((hwalked b).mp hb)
  · intro b
    rw [List.mem_append, hwalked, List.mem_filter, List.mem_range, decide_eq_true_iff,
      hfound.discovered]
    constructor
    · rintro (hb | ⟨hb, -⟩)
      · exact lt_of_rowReach hroot hrows hb
      · exact hb
    · exact fun hb => or_iff_not_imp_left.mpr fun hnot => ⟨hb, hnot⟩
  · intro d b hb hdom hne
    have hd := hdom.reach hb
    rw [List.idxOf_append_of_mem ((hwalked d).mpr hd),
      List.idxOf_append_of_mem ((hwalked b).mpr hb)]
    exact dominators_first hfound hlinks hroot hrows hfirst (fun c hc => (hwalked c).mpr hc) hb hd
      hdom hne

/-! ## The order of blocks -/

section Blocks
variable {K : Type} [LinearOrder K]

/-- Edges between blocks that are listed. -/
def BlockEdge (blocks : List K) (successors : K → List K) (a b : K) : Prop :=
  a ∈ blocks ∧ b ∈ blocks ∧ b ∈ successors a

/-- An earlier node is in front in the list with the names of the nodes. -/
theorem pair_sublist_of_idxOf_lt {α : Type} [DecidableEq α] {items : List α} {a b : α}
    (hb : b ∈ items) (hlt : items.idxOf a < items.idxOf b) : [a, b].Sublist items := by
  have ha : a ∈ items := List.idxOf_lt_length_iff.mp (hlt.trans (List.idxOf_lt_length_of_mem hb))
  have hcut := List.take_append_drop (items.idxOf b) items
  rw [List.drop_eq_getElem_cons (List.idxOf_lt_length_of_mem hb), List.getElem_idxOf] at hcut
  rw [← hcut]
  have hfront : [a].Sublist (items.take (items.idxOf b)) :=
    List.singleton_sublist.mpr ((List.mem_take_iff_idxOf_lt ha).mpr hlt)
  exact hfront.append ((List.nil_sublist _).cons_cons b)

omit [LinearOrder K] in
theorem getD_of_getElem? {ids : List K} {entry b : K} {v : Nat} (hb : ids[v]? = some b) :
    ids.getD v entry = b := by
  rw [List.getD_eq_getElem?_getD, hb, Option.getD_some]

omit [LinearOrder K] in
theorem getD_inj {ids : List K} (hids : ids.Nodup) {entry : K} {u v : Nat} (hu : u < ids.length)
    (hv : v < ids.length) (heq : ids.getD u entry = ids.getD v entry) : u = v := by
  rw [getD_of_getElem? (List.getElem?_eq_getElem hu),
    getD_of_getElem? (List.getElem?_eq_getElem hv)] at heq
  exact hids.getElem_inj_iff.mp heq

theorem rowEdge_iff {ids : List K} (hids : ids.Nodup) {successors : K → List K} {u v : Nat} :
    RowEdge (indexRows ids successors) u v ↔
      ∃ a b, ids[u]? = some a ∧ ids[v]? = some b ∧ b ∈ successors a := by
  have hfind : ∀ b, ids.idxOf? b = some v ↔ ids[v]? = some b := by
    intro b
    rw [List.idxOf?_eq_some_iff, List.getElem?_eq_some_iff]
    refine exists_congr fun hv => and_iff_left_of_imp fun hb j hj heq => ?_
    have := hids.getElem_inj_iff.mp (heq.trans hb.symm)
    omega
  unfold RowEdge indexRows
  rw [List.getD_eq_getElem?_getD, List.getElem?_map]
  cases hu : ids[u]? with
  | none => simp
  | some a =>
    rw [Option.map_some, Option.getD_some, mem_adjacentDedup, List.mem_filterMap]
    simp only [hfind, Option.some.injEq, exists_and_left, exists_eq_left']
    exact exists_congr fun b => and_comm

variable {entry : K} {blocks ids : List K} {successors : K → List K}

/-- A walk between blocks is one between their indices. -/
theorem index_walk (hids : ids.Nodup) (hmem : ∀ x, x ∈ ids ↔ x ∈ blocks) (hentry : entry ∈ ids)
    {b : K} (hb : ReflTransGen (BlockEdge blocks successors) entry b) :
    b ∈ ids ∧ ReflTransGen (RowEdge (indexRows ids successors)) (ids.idxOf entry) (ids.idxOf b) := by
  induction hb with
  | refl => exact ⟨hentry, .refl⟩
  | @tail u v _ huv ih =>
    have hv : v ∈ ids := (hmem v).mpr huv.2.1
    exact ⟨hv, ih.2.tail ((rowEdge_iff hids).mpr
      ⟨u, v, List.getElem?_idxOf ih.1, List.getElem?_idxOf hv, huv.2.2⟩)⟩

/-- Indices dominate as their blocks do. -/
theorem index_dom (hids : ids.Nodup) (hmem : ∀ x, x ∈ ids ↔ x ∈ blocks) (hentry : entry ∈ ids)
    {d b : K} (hd : d ∈ ids) (hb : b ∈ ids)
    (hdom : Dom (BlockEdge blocks successors) entry d b) :
    Dom (RowEdge (indexRows ids successors)) (ids.idxOf entry) (ids.idxOf d) (ids.idxOf b) := by
  have hnode : ∀ {c : K}, c ∈ ids → ids.getD (ids.idxOf c) entry = c :=
    fun hc => getD_of_getElem? (List.getElem?_idxOf hc)
  have hdom' : Dom (BlockEdge blocks successors) (ids.getD (ids.idxOf entry) entry)
      (ids.getD (ids.idxOf d) entry) (ids.getD (ids.idxOf b) entry) := by
    rwa [hnode hentry, hnode hd, hnode hb]
  refine Dom.of_map (f := fun i => ids.getD i entry) (fun u v _ huv => ?_) (fun v hv heq => ?_)
    hdom'
  · obtain ⟨a, c, ha, hc, hsucc⟩ := (rowEdge_iff hids).mp huv
    rw [getD_of_getElem? ha, getD_of_getElem? hc]
    exact ⟨(hmem a).mp (List.mem_of_getElem? ha), (hmem c).mp (List.mem_of_getElem? hc), hsucc⟩
  · refine getD_inj hids ?_ (List.idxOf_lt_length_of_mem hd) heq
    rcases hv.cases_tail with rfl | ⟨u, -, huv⟩
    · exact List.idxOf_lt_length_of_mem hentry
    · obtain ⟨a, c, -, hc, -⟩ := (rowEdge_iff hids).mp huv
      exact (List.getElem?_eq_some_iff.mp hc).1

/-- The order always exists, has each block once, and dominators in front. -/
theorem dominanceOrder_ok (entry : K) (blocks : List K) (successors : K → List K) :
    ∃ order, dominanceOrder entry blocks successors = some order ∧ order.Nodup ∧
      (∀ b, b ∈ order ↔ b ∈ blocks) ∧
      ∀ d b, ReflTransGen (BlockEdge blocks successors) entry b →
        Dom (BlockEdge blocks successors) entry d b → d ≠ b → [d, b].Sublist order := by
  unfold dominanceOrder
  have hids := nodup_sortedIds blocks
  have hmem : ∀ x, x ∈ adjacentDedup (blocks.insertionSort (· ≤ ·)) ↔ x ∈ blocks :=
    fun x => mem_sortedIds
  generalize adjacentDedup (blocks.insertionSort (· ≤ ·)) = ids at hids hmem
  by_cases hentry : entry ∈ ids
  case neg =>
    refine ⟨ids, by simp [hentry], hids, hmem, fun d b hb hdom hne => absurd ?_ hne⟩
    rcases hb.cases_head with rfl | ⟨c, hedge, -⟩
    · exact dom_root_eq hdom
    · exact absurd ((hmem entry).mpr hedge.1) hentry
  have hlength : (indexRows ids successors).length = ids.length := List.length_map _
  have hrows : ∀ u v, RowEdge (indexRows ids successors) u v →
      v < (indexRows ids successors).length := by
    intro u v huv
    obtain ⟨a, b, -, hb, -⟩ := (rowEdge_iff hids).mp huv
    rw [hlength]
    exact (List.getElem?_eq_some_iff.mp hb).1
  obtain ⟨order, horder, hnodup, hall, hdoms⟩ :=
    dominanceIndices_ok (hlength ▸ List.idxOf_lt_length_of_mem hentry) hrows
  have hlt : ∀ i ∈ order, i < ids.length := fun i hi => hlength ▸ (hall i).mp hi
  have hnames : order.mapM (ids[·]?) = some (order.map fun i => ids.getD i entry) := by
    refine mapM_eq_map fun i hi => ?_
    rw [getD_of_getElem? (List.getElem?_eq_getElem (hlt i hi)), List.getElem?_eq_getElem (hlt i hi)]
  refine ⟨order.map fun i => ids.getD i entry, ?_, ?_, fun b => ?_, fun d b hb hdom hne => ?_⟩
  · rw [if_neg (not_not.mpr hentry)]
    rw [Option.bind_eq_bind, horder]
    exact hnames
  · exact hnodup.map_on fun u hu v hv heq => getD_inj hids (hlt u hu) (hlt v hv) heq
  · rw [← hmem, List.mem_map]
    constructor
    · rintro ⟨i, hi, rfl⟩
      rw [getD_of_getElem? (List.getElem?_eq_getElem (hlt i hi))]
      exact List.getElem_mem _
    · intro hb
      exact ⟨ids.idxOf b, (hall _).mpr (hlength ▸ List.idxOf_lt_length_of_mem hb),
        getD_of_getElem? (List.getElem?_idxOf hb)⟩
  · obtain ⟨hbmem, hbwalk⟩ := index_walk hids hmem hentry hb
    obtain ⟨hdmem, -⟩ := index_walk hids hmem hentry (hdom.reach hb)
    have hfirst := hdoms _ _ hbwalk (index_dom hids hmem hentry hdmem hbmem hdom)
      fun heq => hne ((List.idxOf_inj hdmem).mp heq)
    have hpair := (pair_sublist_of_idxOf_lt
      ((hall _).mpr (hlength ▸ List.idxOf_lt_length_of_mem hbmem)) hfirst).map
        fun i => ids.getD i entry
    rwa [List.map_cons, List.map_singleton, getD_of_getElem? (List.getElem?_idxOf hdmem),
      getD_of_getElem? (List.getElem?_idxOf hbmem)] at hpair

end Blocks
end Celox.Cfg
