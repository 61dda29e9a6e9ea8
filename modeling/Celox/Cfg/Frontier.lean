import Celox.Cfg.Immediate
import Celox.Graph.TreeWalk

/-! # The analysed graph

What an accepted graph comes with: a dominator tree, predecessors and exact frontiers. -/
namespace Celox.Cfg
open Celox.Graph Relation

/-! ## Edges kept and turned round -/

theorem mem_foldl_retain {seen outgoing : List Nat} {v : Nat} :
    v ∈ outgoing.foldl (fun seen successor =>
      if successor ∈ seen then seen else seen ++ [successor]) seen ↔ v ∈ seen ∨ v ∈ outgoing := by
  induction outgoing generalizing seen with
  | nil => simp
  | cons a outgoing ih =>
    rw [List.foldl_cons, ih]
    split <;> grind

theorem nodup_foldl_retain {seen outgoing : List Nat} (h : seen.Nodup) :
    (outgoing.foldl (fun seen successor =>
      if successor ∈ seen then seen else seen ++ [successor]) seen).Nodup := by
  induction outgoing generalizing seen with
  | nil => exact h
  | cons a outgoing ih =>
    rw [List.foldl_cons]
    refine ih ?_
    split <;> grind

theorem mem_retainFirst {outgoing : List Nat} {v : Nat} :
    v ∈ retainFirst outgoing ↔ v ∈ outgoing := by
  simp [retainFirst, mem_foldl_retain]

theorem succ_map_retainFirst (successors : List (List Nat)) (u : Nat) :
    succ (successors.map retainFirst) u = retainFirst (succ successors u) := by
  unfold succ
  rw [List.getElem?_map]
  cases successors[u]? <;> rfl

theorem edge_map_retainFirst {successors : List (List Nat)} {u v : Nat} :
    Edge (successors.map retainFirst) u v ↔ Edge successors u v := by
  rw [Edge, succ_map_retainFirst, mem_retainFirst, Edge]

theorem mem_predecessorsOf {successors : List (List Nat)} {target block : Nat} :
    block ∈ predecessorsOf successors target ↔ Edge successors block target := by
  unfold predecessorsOf Edge
  simp only [List.mem_insertionSort, List.mem_dedup, List.mem_flatMap, List.mem_range,
    List.mem_map, List.mem_filter, decide_eq_true_eq]
  constructor
  · rintro ⟨u, -, v, ⟨hv, rfl⟩, rfl⟩
    exact hv
  · intro h
    exact ⟨block, Edge.lt_length h, target, ⟨h, rfl⟩, rfl⟩

theorem predecessorsOf_sorted (successors : List (List Nat)) (target : Nat) :
    (predecessorsOf successors target).Pairwise (· < ·) := by
  unfold predecessorsOf
  have hsorted := List.pairwise_insertionSort (· ≤ ·) ((List.range successors.length).flatMap
    fun block => ((succ successors block).filter (· = target)).map fun _ => block).dedup
  have hnodup := (List.perm_insertionSort (· ≤ ·) ((List.range successors.length).flatMap
    fun block => ((succ successors block).filter (· = target)).map fun _ => block).dedup).nodup_iff.mpr
      (List.nodup_dedup _)
  exact hsorted.imp₂ (fun a b hle hne => lt_of_le_of_ne hle hne) hnodup

/-! ## Children -/

/-- The rows of children after some of the blocks. -/
structure Listed (root : Nat) (done : List (Option Nat × Nat)) (blocks : Nat)
    (children : List (List Nat)) : Prop where
  length : children.length = blocks
  mem : ∀ d c, c ∈ succ children d ↔ c ≠ root ∧ (some d, c) ∈ done
  nodup : ∀ d, (succ children d).Nodup

theorem succ_modify {children : List (List Nat)} {parent d : Nat} {f : List Nat → List Nat}
    (h : parent < children.length) :
    succ (children.modify parent f) d = if parent = d then f (succ children d) else succ children d := by
  unfold succ
  rw [List.getElem?_modify]
  split
  · rename_i heq
    subst heq
    simp [List.getElem?_eq_getElem h]
  · simp

theorem Listed.push {root blocks : Nat} {done : List (Option Nat × Nat)}
    {children children' : List (List Nat)} {parent : Option Nat} {block : Nat}
    (h : Listed root done blocks children) (hnew : ∀ d, (d, block) ∉ done)
    (hpush : pushChild root children (parent, block) = .ok children') :
    Listed root (done ++ [(parent, block)]) blocks children' := by
  unfold pushChild at hpush
  dsimp only at hpush
  split at hpush
  · rename_i hroot
    split at hpush
    · cases hpush
    · cases hpush
      refine ⟨h.length, fun d c => ?_, h.nodup⟩
      rw [h.mem]
      grind
  · rename_i hroot
    cases parent with
    | none =>
      cases hpush
      refine ⟨h.length, fun d c => ?_, h.nodup⟩
      rw [h.mem]
      grind
    | some parent =>
      dsimp only at hpush
      split at hpush
      · cases hpush
      · rename_i hlt
        cases hpush
        have hlt : parent < children.length := by omega
        refine ⟨by rw [List.length_modify, h.length], fun d c => ?_, fun d => ?_⟩
        · rw [succ_modify hlt]
          split
          · rename_i heq
            subst heq
            rw [List.mem_append, h.mem]
            grind
          · rw [h.mem]
            grind
        · rw [succ_modify hlt]
          split
          · have hno : block ∉ succ children d := fun hmem => hnew _ ((h.mem d block).mp hmem).2
            exact (h.nodup d).append (by simp) (by simpa using hno)
          · exact h.nodup d

theorem Listed.foldlM {root blocks : Nat} {rest : List (Option Nat × Nat)}
    {done : List (Option Nat × Nat)} {children children' : List (List Nat)}
    (h : Listed root done blocks children) (hnodup : ((done ++ rest).map Prod.snd).Nodup)
    (hfold : rest.foldlM (pushChild root) children = .ok children') :
    Listed root (done ++ rest) blocks children' := by
  induction rest generalizing done children with
  | nil =>
    cases hfold
    simpa using h
  | cons entry rest ih =>
    rw [List.foldlM_cons] at hfold
    cases hpush : pushChild root children entry with
    | error e => simp [hpush, bind, Except.bind] at hfold
    | ok next =>
      rw [hpush] at hfold
      have hnew : ∀ d, (d, entry.2) ∉ done := by
        intro d hd
        rw [List.map_append, List.map_cons, List.nodup_append] at hnodup
        exact hnodup.2.2 _ (List.mem_map_of_mem hd) _ List.mem_cons_self rfl
      have hnext := ih (h.push hnew hpush) (by simpa using hnodup) hfold
      simpa using hnext

/-- A block is listed under its immediate dominator only. -/
theorem sortedChildren_spec {idom : List (Option Nat)} {root : Nat} {children : List (List Nat)}
    (h : idom.zipIdx.foldlM (pushChild root) (List.replicate idom.length []) = .ok children) :
    (children.map (·.insertionSort (· ≤ ·))).length = idom.length ∧
      (∀ d c, c ∈ succ (children.map (·.insertionSort (· ≤ ·))) d ↔
        c ≠ root ∧ idom[c]? = some (some d)) ∧
      ∀ d, (succ (children.map (·.insertionSort (· ≤ ·))) d).Nodup := by
  have hempty : Listed root [] idom.length (List.replicate idom.length []) := by
    have hrow : ∀ d, succ (List.replicate idom.length ([] : List Nat)) d = [] := by
      intro d
      unfold succ
      rw [List.getElem?_replicate]
      split <;> rfl
    exact ⟨by simp, fun d c => by simp [hrow], fun d => by simp [hrow]⟩
  have hnodup : (([] ++ idom.zipIdx).map Prod.snd).Nodup := by
    rw [List.nil_append, List.zipIdx_map_snd]
    exact List.nodup_range'
  have hlisted := hempty.foldlM hnodup h
  have hrow : ∀ d, succ (children.map (·.insertionSort (· ≤ ·))) d =
      (succ children d).insertionSort (· ≤ ·) := by
    intro d
    unfold succ
    rw [List.getElem?_map]
    cases children[d]? <;> rfl
  refine ⟨by simp [hlisted.length], fun d c => ?_, fun d => ?_⟩
  · rw [hrow, List.mem_insertionSort, hlisted.mem, List.nil_append,
      List.mk_mem_zipIdx_iff_getElem?]
  · rw [hrow, (List.perm_insertionSort _ _).nodup_iff]
    exact hlisted.nodup d

theorem fromIdom_children {idom : List (Option Nat)} {root : Nat} {tree : DominatorTree}
    (h : DominatorTree.fromIdom idom root = .ok tree) :
    tree.idom = idom ∧ root < idom.length ∧ tree.children.length = idom.length ∧
      (∀ d c, c ∈ succ tree.children d ↔ c ≠ root ∧ idom[c]? = some (some d)) ∧
      ∀ d, (succ tree.children d).Nodup := by
  unfold DominatorTree.fromIdom at h
  split at h
  · cases h
  · rename_i hroot
    simp only [bind, Except.bind] at h
    split at h
    · cases h
    · rename_i children hchildren
      split at h
      · cases h
      · cases h
        exact ⟨rfl, by omega, sortedChildren_spec hchildren⟩

/-! ## Postorder of the tree -/

section Postorder
variable {children : List (List Nat)} {root size : Nat}

/-- Below an expanded block its children are on the stack above it or left already. -/
def ChildrenAbove (children : List (List Nat)) (postorder : List Nat) :
    (above : List Nat) → (stack : List (Nat × Bool)) → Prop
  | _, [] => True
  | above, (block, expanded) :: stack =>
    (expanded = true → ∀ c ∈ succ children block, c ∈ postorder ∨ c ∈ above) ∧
      ChildrenAbove children postorder (block :: above) stack

theorem ChildrenAbove.mono {postorder postorder' above above' : List Nat}
    {stack : List (Nat × Bool)}
    (hsub : ∀ c, c ∈ postorder ∨ c ∈ above → c ∈ postorder' ∨ c ∈ above')
    (h : ChildrenAbove children postorder above stack) :
    ChildrenAbove children postorder' above' stack := by
  induction stack generalizing above above' with
  | nil => trivial
  | cons frame stack ih =>
    refine ⟨fun he c hc => hsub c (h.1 he c hc), ih (fun c hc => ?_) h.2⟩
    rcases hc with hc | hc
    · exact (hsub c (.inl hc)).imp id (List.mem_cons_of_mem _)
    · rcases List.mem_cons.mp hc with rfl | hc
      · exact .inr List.mem_cons_self
      · exact (hsub c (.inr hc)).imp id (List.mem_cons_of_mem _)

theorem childrenAbove_append {postorder above blocks : List Nat} {stack : List (Nat × Bool)}
    (h : ChildrenAbove children postorder (blocks.reverse ++ above) stack) :
    ChildrenAbove children postorder above (blocks.map (·, false) ++ stack) := by
  induction blocks generalizing above with
  | nil => exact h
  | cons block blocks ih =>
    refine ⟨fun he => absurd he Bool.false_ne_true, ih ?_⟩
    simpa using h

/-- The blocks of the stack that are still to be entered, and those that are expanded. -/
def pendingOf (stack : List (Nat × Bool)) : List Nat :=
  (stack.filter fun frame => !frame.2).map Prod.fst

def expandedOf (stack : List (Nat × Bool)) : List Nat :=
  (stack.filter fun frame => frame.2).map Prod.fst

/-- No block is left before its children. -/
def ChildrenFirst (children : List (List Nat)) (postorder : List Nat) : Prop :=
  ∀ before block after, postorder = before ++ block :: after →
    ∀ c ∈ succ children block, c ∈ before

structure Leaving (children : List (List Nat)) (root : Nat) (entered : List Nat)
    (stack : List (Nat × Bool)) (postorder : List Nat) : Prop where
  entering : Entering (succ children) root entered (pendingOf stack)
  perm : entered.Perm (postorder ++ expandedOf stack)
  above : ChildrenAbove children postorder [] stack
  first : ChildrenFirst children postorder

theorem pendingOf_children (blocks : List Nat) (block : Nat) (stack : List (Nat × Bool)) :
    pendingOf (blocks.map (·, false) ++ (block, true) :: stack) = blocks ++ pendingOf stack := by
  simp [pendingOf, List.filter_map, Function.comp_def]

theorem expandedOf_children (blocks : List Nat) (block : Nat) (stack : List (Nat × Bool)) :
    expandedOf (blocks.map (·, false) ++ (block, true) :: stack) = block :: expandedOf stack := by
  simp [expandedOf, List.filter_map, Function.comp_def]

theorem Leaving.enter (t : IsTree (succ children) root size) {entered postorder : List Nat}
    {block : Nat} {stack : List (Nat × Bool)}
    (h : Leaving children root entered ((block, false) :: stack) postorder) :
    Leaving children root (entered ++ [block])
      ((succ children block).map (·, false) ++ (block, true) :: stack) postorder := by
  refine ⟨?_, ?_, ?_, h.first⟩
  · rw [pendingOf_children]
    exact Entering.enter t h.entering
  · rw [expandedOf_children]
    calc entered ++ [block]
      _ |>.Perm (block :: entered) := List.perm_append_comm
      _ |>.Perm (block :: (postorder ++ expandedOf stack)) := h.perm.cons block
      _ |>.Perm (postorder ++ block :: expandedOf stack) := List.perm_middle.symm
  · refine childrenAbove_append ⟨fun _ c hc => .inr (by simpa using hc), ?_⟩
    exact h.above.2.mono fun c hc => hc.imp id (by simp +contextual)

theorem Leaving.leave {entered postorder : List Nat} {block : Nat} {stack : List (Nat × Bool)}
    (h : Leaving children root entered ((block, true) :: stack) postorder) :
    Leaving children root entered stack (postorder ++ [block]) := by
  refine ⟨h.entering, ?_, ?_, fun before b after heq c hc => ?_⟩
  · have hperm : entered.Perm (postorder ++ block :: expandedOf stack) := h.perm
    simpa using hperm
  · exact h.above.2.mono fun c hc => by simpa [or_assoc] using hc
  · rcases List.eq_nil_or_concat after with rfl | ⟨after, last, rfl⟩
    · obtain ⟨rfl, hlast⟩ := List.append_inj' heq rfl
      cases hlast
      have hchildren := h.above.1 rfl c hc
      simpa using hchildren
    · have hsplit : postorder ++ [block] = (before ++ b :: after) ++ [last] := by simpa using heq
      exact h.first before b after (List.append_inj' hsplit rfl).1 c hc

theorem treePostorder_spec (t : IsTree (succ children) root size) (fuel : Nat)
    {entered postorder : List Nat} {stack : List (Nat × Bool)}
    (h : Leaving children root entered stack postorder)
    (hfuel : 2 * size + (expandedOf stack).length ≤ fuel + 2 * entered.length) :
    ∃ entered, Leaving children root entered [] (treePostorder children fuel stack postorder) := by
  induction fuel generalizing entered stack postorder with
  | zero =>
    -- all blocks are entered and left
    have hlength := h.entering.length_le t
    match stack with
    | [] => exact ⟨entered, h⟩
    | (block, true) :: stack =>
      have hcount : (expandedOf ((block, true) :: stack)).length =
          (expandedOf stack).length + 1 := rfl
      omega
    | (block, false) :: stack =>
      have hcount : (pendingOf ((block, false) :: stack)).length =
          (pendingOf stack).length + 1 := rfl
      omega
  | succ fuel ih =>
    match stack with
    | [] => exact ⟨entered, h⟩
    | (block, true) :: stack =>
      have hcount : (expandedOf ((block, true) :: stack)).length =
          (expandedOf stack).length + 1 := rfl
      exact ih h.leave (by omega)
    | (block, false) :: stack =>
      have hcount : (expandedOf ((block, false) :: stack)).length =
          (expandedOf stack).length := rfl
      refine ih (h.enter t) ?_
      rw [expandedOf_children, List.length_append, List.length_cons, List.length_cons,
        List.length_nil]
      omega

end Postorder

/-! ## Frontiers -/

section Frontiers
variable {successors : List (List Nat)} {root : Nat} {idom : List (Option Nat)}
  {children : List (List Nat)}

theorem mem_foldl_addFrontier {block : Nat} {members frontier : List Nat} {y : Nat} :
    y ∈ members.foldl (addFrontier idom block) frontier ↔
      y ∈ frontier ∨ y ∈ members ∧ idom[y]?.join ≠ some block := by
  induction members generalizing frontier with
  | nil => simp
  | cons member members ih =>
    rw [List.foldl_cons, ih, addFrontier]
    split <;> grind

theorem mem_foldl_frontiers {block : Nat} {frontiers : Nat → List Nat} {below frontier : List Nat}
    {y : Nat} :
    y ∈ below.foldl (fun frontier child =>
        (frontiers child).foldl (addFrontier idom block) frontier) frontier ↔
      y ∈ frontier ∨ ∃ child ∈ below, y ∈ frontiers child ∧ idom[y]?.join ≠ some block := by
  induction below generalizing frontier with
  | nil => simp
  | cons child below ih =>
    rw [List.foldl_cons, ih, mem_foldl_addFrontier]
    grind

theorem mem_frontierOf {block : Nat} {frontiers : Nat → List Nat} {y : Nat}
    (hempty : frontiers block = []) :
    y ∈ frontierOf successors idom children frontiers block ↔
      idom[y]?.join ≠ some block ∧
        (Edge successors block y ∨ ∃ c ∈ succ children block, y ∈ frontiers c) := by
  unfold frontierOf Edge
  dsimp only
  rw [mem_foldl_frontiers, mem_foldl_addFrontier, hempty]
  grind

/-- A dominator tree of what the root of a graph reaches. -/
structure TreeAt (successors : List (List Nat)) (root : Nat) (idom : List (Option Nat))
    (children : List (List Nat)) : Prop where
  root_lt : root < successors.length
  range : InRange successors
  idoms : Idoms successors root idom
  mem : ∀ d c, c ∈ succ children d ↔ c ≠ root ∧ idom[c]? = some (some d)
  nodup : ∀ d, (succ children d).Nodup

theorem TreeAt.reach_lt (h : TreeAt successors root idom children) {b : Nat}
    (hb : Reach successors root b) : b < successors.length :=
  Reach.closed (fun u _ v hv => h.range u v hv) hb h.root_lt

theorem TreeAt.idom_eq (h : TreeAt successors root idom children) {d c : Nat} :
    idom[c]? = some (some d) ↔ Reach successors root c ∧ IsIdom (Edge successors) root d c := by
  constructor
  · intro heq
    have hlt : c < successors.length := by
      rw [← h.idoms.length]
      exact (List.getElem?_eq_some_iff.mp heq).1
    have hreach : Reach successors root c := by
      by_contra hno
      rw [h.idoms.unreached c hlt hno] at heq
      cases heq
    have hne : c ≠ root := by
      rintro rfl
      rw [h.idoms.root_none] at heq
      cases heq
    obtain ⟨e, he, hidom⟩ := h.idoms.idom c hreach hne
    rw [heq] at he
    cases he
    exact ⟨hreach, hidom⟩
  · rintro ⟨hreach, hidom⟩
    obtain ⟨e, he, hidom'⟩ := h.idoms.idom c hreach hidom.ne_root
    rw [he, hidom.unique hidom' hreach]

theorem TreeAt.join_eq (h : TreeAt successors root idom children) {d c : Nat} :
    idom[c]?.join = some d ↔ Reach successors root c ∧ IsIdom (Edge successors) root d c := by
  rw [← h.idom_eq, Option.join_eq_some_iff]

theorem TreeAt.child_iff (h : TreeAt successors root idom children) {d c : Nat} :
    c ∈ succ children d ↔ Reach successors root c ∧ IsIdom (Edge successors) root d c := by
  rw [h.mem, h.idom_eq]
  exact ⟨fun hc => hc.2, fun hc => ⟨hc.2.ne_root, hc⟩⟩

theorem TreeAt.hasIdoms (h : TreeAt successors root idom children) :
    HasIdoms (Edge successors) root := by
  intro b hb hne
  obtain ⟨d, -, hd⟩ := h.idoms.idom b hb hne
  exact ⟨d, hd⟩

theorem TreeAt.isTree (h : TreeAt successors root idom children) :
    IsTree (succ children) root successors.length where
  root_lt := h.root_lt
  lt _ _ hc := h.reach_lt (h.child_iff.mp hc).1
  nodup := h.nodup
  unique d e c hd he := by
    obtain ⟨hreach, hd⟩ := h.child_iff.mp hd
    exact hd.unique (h.child_iff.mp he).2 hreach
  root_free d hroot := (h.child_iff.mp hroot).2.ne_root rfl

/-- Every block that is reached is a descendant of the root. -/
theorem TreeAt.descendant (h : TreeAt successors root idom children) {b : Nat}
    (hb : Reach successors root b) : ReflTransGen (fun d c => c ∈ succ children d) root b := by
  refine idom_induction h.hasIdoms .refl (fun c d hc hidom ih => ?_) hb
  exact ih.tail (h.child_iff.mpr ⟨hc, hidom⟩)

/-- The frontiers once the blocks of `done` are computed. -/
structure Computed (successors : List (List Nat)) (root : Nat) (done : List Nat)
    (frontiers : Nat → List Nat) : Prop where
  exact : ∀ b ∈ done, ∀ y, y ∈ frontiers b ↔ InFrontier (Edge successors) root b y
  empty : ∀ b, b ∉ done → frontiers b = []

theorem Computed.step (t : TreeAt successors root idom children) {done : List Nat} {block : Nat}
    {frontiers : Nat → List Nat} (h : Computed successors root done frontiers)
    (hreach : Reach successors root block) (hnew : block ∉ done)
    (hchildren : ∀ c ∈ succ children block, c ∈ done) :
    Computed successors root (done ++ [block]) (Function.update frontiers block
      (frontierOf successors idom children frontiers block)) := by
  refine ⟨fun b hb y => ?_, fun b hb => ?_⟩
  · rcases eq_or_ne b block with rfl | hne
    · rw [Function.update_self, mem_frontierOf (h.empty b hnew),
        inFrontier_iff t.hasIdoms hreach]
      have hbelow : (∃ c ∈ succ children b, y ∈ frontiers c) ↔
          ∃ c, ReflTransGen (Edge successors) root c ∧ IsIdom (Edge successors) root b c ∧
            InFrontier (Edge successors) root c y := by
        refine exists_congr fun c => ⟨fun ⟨hc, hy⟩ => ?_, fun ⟨hc, hidom, hy⟩ => ?_⟩
        · obtain ⟨hreach, hidom⟩ := t.child_iff.mp hc
          exact ⟨hreach, hidom, (h.exact c (hchildren c hc) y).mp hy⟩
        · have hmem := t.child_iff.mpr ⟨hc, hidom⟩
          exact ⟨hmem, (h.exact c (hchildren c hmem) y).mpr hy⟩
      rw [hbelow, and_congr_left]
      -- members of a frontier are reached
      intro hy
      have hyreach : Reach successors root y := by
        rcases hy with hedge | ⟨c, hc, -, p, hp, -, hedge, -⟩
        · exact ReflTransGen.tail hreach hedge
        · exact ReflTransGen.tail hp hedge
      rw [ne_eq, t.join_eq, and_iff_right hyreach]
    · rw [Function.update_of_ne hne]
      exact h.exact b (by simpa [hne] using hb) y
  · have hb : b ∉ done ∧ b ≠ block := by simpa using hb
    rw [Function.update_of_ne hb.2]
    exact h.empty b hb.1

theorem Computed.foldl (t : TreeAt successors root idom children) {rest done : List Nat}
    {frontiers : Nat → List Nat} (h : Computed successors root done frontiers)
    (hreach : ∀ b ∈ rest, Reach successors root b) (hnodup : (done ++ rest).Nodup)
    (hfirst : ChildrenFirst children (done ++ rest)) :
    Computed successors root (done ++ rest) (rest.foldl
      (fun frontiers block => Function.update frontiers block
        (frontierOf successors idom children frontiers block)) frontiers) := by
  induction rest generalizing done frontiers with
  | nil => simpa using h
  | cons block rest ih =>
    have hnew : block ∉ done := by
      have := hnodup
      grind
    have hstep := h.step t (hreach block List.mem_cons_self) hnew (hfirst done block rest rfl)
    have hrest := ih hstep (fun b hb => hreach b (List.mem_cons_of_mem _ hb)) (by simpa using hnodup)
      (by simpa using hfirst)
    simpa using hrest

/-- Blocks that the root reaches have their frontiers, all others none. -/
theorem dominanceFrontiers_exact {dominators : DominatorTree}
    (t : TreeAt successors root dominators.idom dominators.children) {b y : Nat}
    (hb : b < successors.length) :
    y ∈ succ (dominanceFrontiers successors dominators root) b ↔
      Reach successors root b ∧ InFrontier (Edge successors) root b y := by
  have hstart : Leaving dominators.children root [] [(root, false)] [] :=
    ⟨.start, .nil, ⟨fun he => absurd he Bool.false_ne_true, trivial⟩,
      fun before _ _ heq => by simp at heq⟩
  obtain ⟨entered, hdone⟩ := treePostorder_spec t.isTree (2 * successors.length) hstart
    (by simp [expandedOf])
  unfold dominanceFrontiers
  generalize treePostorder dominators.children (2 * successors.length) [(root, false)] [] = order
    at hdone
  have hperm : entered.Perm order := by simpa [expandedOf] using hdone.perm
  have hentered : Entering (succ dominators.children) root entered [] := hdone.entering
  have hnodup : order.Nodup := hperm.nodup_iff.mp (by simpa using hentered.nodup)
  have hmem : ∀ c, c ∈ order ↔ Reach successors root c := by
    intro c
    rw [← hperm.mem_iff]
    constructor
    · intro hc
      rcases hentered.origin c (by simpa using hc) with rfl | ⟨d, -, hd⟩
      · exact .refl c
      · exact (t.child_iff.mp hd).1
    · exact fun hc => hentered.all (t.descendant hc)
  have hcomputed := Computed.foldl t (⟨by simp, fun _ _ => rfl⟩ : Computed successors root []
    fun _ => []) (fun c hc => (hmem c).mp hc) (by simpa using hnodup) (by simpa using hdone.first)
  have hrow : ∀ f : Nat → List Nat, succ ((List.range successors.length).map f) b = f b := by
    intro f
    simp [succ, hb]
  dsimp only
  rw [hrow, List.mem_insertionSort]
  by_cases hreach : Reach successors root b
  · rw [and_iff_right hreach]
    exact hcomputed.exact b (by simpa using (hmem b).mpr hreach) y
  · rw [hcomputed.empty b (by simpa using (hmem b).not.mpr hreach)]
    simp [hreach]

/-- A dominator tree of a graph all of whose blocks are reached. -/
structure TreeOf (successors : List (List Nat)) (root : Nat) (idom : List (Option Nat))
    (children : List (List Nat)) : Prop where
  root_lt : root < successors.length
  range : InRange successors
  reach : ∀ b < successors.length, Reach successors root b
  idoms : Idoms successors root idom
  mem : ∀ d c, c ∈ succ children d ↔ c ≠ root ∧ idom[c]? = some (some d)
  nodup : ∀ d, (succ children d).Nodup

theorem TreeOf.tree (h : TreeOf successors root idom children) :
    TreeAt successors root idom children :=
  ⟨h.root_lt, h.range, h.idoms, h.mem, h.nodup⟩

theorem TreeOf.idom_eq (h : TreeOf successors root idom children) {d c : Nat}
    (hc : c < successors.length) :
    idom[c]? = some (some d) ↔ IsIdom (Edge successors) root d c := by
  rw [h.tree.idom_eq, and_iff_right (h.reach c hc)]

theorem TreeOf.reach_lt (h : TreeOf successors root idom children) {b : Nat}
    (hb : Reach successors root b) : b < successors.length :=
  h.tree.reach_lt hb

theorem TreeOf.child_iff (h : TreeOf successors root idom children) {d c : Nat} :
    c ∈ succ children d ↔ c < successors.length ∧ IsIdom (Edge successors) root d c := by
  rw [h.tree.child_iff]
  exact ⟨fun hc => ⟨h.reach_lt hc.1, hc.2⟩, fun hc => ⟨h.reach c hc.1, hc.2⟩⟩

theorem TreeOf.hasIdoms (h : TreeOf successors root idom children) :
    HasIdoms (Edge successors) root := h.tree.hasIdoms

theorem TreeOf.isTree (h : TreeOf successors root idom children) :
    IsTree (succ children) root successors.length := h.tree.isTree

/-- Every block is a descendant of the root. -/
theorem TreeOf.descendant (h : TreeOf successors root idom children) {b : Nat}
    (hb : b < successors.length) : ReflTransGen (fun d c => c ∈ succ children d) root b :=
  h.tree.descendant (h.reach b hb)

end Frontiers

/-! ## Accepted graphs -/

/-- What the analysis promises of a graph it accepts. -/
structure Analyzed (successors : List (List Nat)) (root : Nat) (cfg : ForwardControlFlowGraph) :
    Prop where
  root_eq : cfg.root = root
  edge : ∀ u v, Edge cfg.successors u v ↔ Edge successors u v
  length : cfg.successors.length = successors.length
  nodup : ∀ b, (succ cfg.successors b).Nodup
  tree : TreeOf cfg.successors root cfg.dominators.idom cfg.dominators.children
  children_length : cfg.dominators.children.length = successors.length
  predecessors_length : cfg.predecessors.length = successors.length
  predecessors : ∀ b < successors.length, ∀ p, p ∈ succ cfg.predecessors b ↔ Edge successors p b
  predecessors_sorted : ∀ b < successors.length, (succ cfg.predecessors b).Pairwise (· < ·)
  frontier_length : cfg.dominanceFrontier.length = successors.length
  frontier : ∀ b < successors.length, ∀ y, y ∈ succ cfg.dominanceFrontier b ↔
    InFrontier (Edge cfg.successors) root b y

theorem analyze_ok {successors : List (List Nat)} {root : Nat} {cfg : ForwardControlFlowGraph}
    (h : ForwardControlFlowGraph.analyze successors root = .ok cfg) :
    Analyzed successors root cfg := by
  unfold ForwardControlFlowGraph.analyze at h
  simp only [bind, Except.bind] at h
  split at h
  · cases h
  rename_i hvalid
  obtain ⟨hroot, hrange⟩ := validateEdges_eq_ok.mp hvalid
  split at h
  · cases h
  split at h
  · cases h
  split at h
  · cases h
  rename_i dominators hdominators
  split at h
  · cases h
  rename_i hidom
  cases h
  -- the table of immediate dominators
  have hrange' : InRange (successors.map retainFirst) := by
    intro u v hv
    rw [List.length_map]
    exact hrange u v (edge_map_retainFirst.mp hv)
  have hroot' : root < (successors.map retainFirst).length := by simpa using hroot
  obtain ⟨idom, hlt, hidoms⟩ := lengauerTarjan_idoms hroot' hrange'
  unfold DominatorTree.compute at hdominators
  rw [hlt] at hdominators
  obtain ⟨hidom_eq, -, hlength, hmem, hnodup⟩ := fromIdom_children hdominators
  have hreach : ∀ b < (successors.map retainFirst).length,
      Reach (successors.map retainFirst) root b := by
    intro b hb
    by_contra hno
    have hnone := hidoms.unreached b hb hno
    have hbr : b ≠ root := fun heq => hno (heq ▸ .refl b)
    refine hidom ?_
    rw [List.any_eq_true]
    refine ⟨(none, b), ?_, by simp [hbr]⟩
    rw [List.mk_mem_zipIdx_iff_getElem?, hidom_eq]
    exact hnone
  have htree : TreeOf (successors.map retainFirst) root dominators.idom dominators.children :=
    ⟨hroot', hrange', hreach, hidom_eq ▸ hidoms, hidom_eq ▸ hmem, hnodup⟩
  have hrow : ∀ (f : Nat → List Nat) (b : Nat), b < successors.length →
      succ ((List.range (successors.map retainFirst).length).map f) b = f b := by
    intro f b hb
    simp [succ, hb]
  refine ⟨rfl, fun u v => edge_map_retainFirst, by simp, fun b => ?_, htree, ?_, by simp,
    fun b hb p => ?_, fun b hb => ?_, by simp [dominanceFrontiers], fun b hb y => ?_⟩
  · dsimp only
    rw [succ_map_retainFirst]
    exact nodup_foldl_retain List.nodup_nil
  · rw [hlength, hidoms.length, List.length_map]
  · dsimp only
    rw [hrow _ b hb, mem_predecessorsOf, edge_map_retainFirst]
  · dsimp only
    rw [hrow _ b hb]
    exact predecessorsOf_sorted ..
  · dsimp only
    rw [dominanceFrontiers_exact htree.tree (by simpa using hb),
      and_iff_right (hreach b (by simpa using hb))]
end Celox.Cfg
