import Celox.Cfg.Frontier
import Celox.Graph.TreeIntervals

/-! # Dominance by intervals

A walk of the dominator tree gives every block an interval and a depth. Intervals nest exactly under
dominance, and climbing to equal depths leads to the nearest common dominator. -/
namespace Celox.Cfg
open Celox.Graph Relation

/-! ## The lowest common ancestor -/

/-- Up to a block of the given depth at most. -/
def DominatorTree.climb (tree : DominatorTree) (depth : Nat) : (fuel : Nat) → Nat → Option Nat
  | 0, block => some block
  | fuel + 1, block =>
    if depth < tree.depth block then tree.idom[block]?.join.bind (tree.climb depth fuel)
    else some block

/-- Up from both blocks at once until they meet. -/
def DominatorTree.meet (tree : DominatorTree) : (fuel : Nat) → Nat → Nat → Option Nat
  | 0, left, _ => some left
  | fuel + 1, left, right =>
    if left ≠ right then
      tree.idom[left]?.join.bind fun left => tree.idom[right]?.join.bind (tree.meet fuel left)
    else some left

/-- No block is deeper than there are blocks, so the fuel covers all steps. -/
def DominatorTree.lca (tree : DominatorTree) (left right : Nat) : Option Nat :=
  if tree.idom.length ≤ left ∨ tree.idom.length ≤ right then none
  else if tree.depth left = usizeMax ∨ tree.depth right = usizeMax then none
  else do
    let left ← tree.climb (tree.depth right) tree.idom.length left
    let right ← tree.climb (tree.depth left) tree.idom.length right
    tree.meet tree.idom.length left right

/-! ## The walk -/

def Intervals.enterAt (s : Intervals) (b depth : Nat) : Intervals where
  enter := Function.update s.enter b s.time
  exit := s.exit
  depth := Function.update s.depth b depth
  time := s.time + 1

def Intervals.exitAt (s : Intervals) (b : Nat) : Intervals :=
  { s with exit := Function.update s.exit b s.time, time := s.time + 1 }

def Intervals.times (s : Intervals) : Times := ⟨s.enter, s.exit, s.time⟩

/-- The walk over whole subtrees at one depth, none of whose blocks is entered yet. -/
inductive Entered (children : List (List Nat)) :
    Nat → Intervals → List Nat → Intervals → Prop where
  | nil (depth : Nat) (s : Intervals) : Entered children depth s [] s
  | cons {depth b : Nat} {s u v : Intervals} {bs : List Nat} : s.enter b = usizeMax →
      Entered children (depth + 1) (s.enterAt b depth) (succ children b) u →
      Entered children depth (u.exitAt b) bs v → Entered children depth s (b :: bs) v

section Walk
variable {children : List (List Nat)} {rank : Nat → Nat} {n depth : Nat} {s v : Intervals}
  {bs : List Nat}

theorem Entered.timing (h : Entered children depth s bs v) :
    Timing (succ children) s.times bs v.times := by
  induction h with
  | nil => exact .nil _
  | cons _ _ _ ih ih' => exact .cons ih ih'

/-- The loop makes the walk without an error, one step for each tick. -/
theorem Entered.loop (h : Entered children depth s bs v) (fuel : Nat) (rest : List TreeEvent) :
    intervalLoop children (fuel + (v.time - s.time))
      (bs.map (TreeEvent.enter · depth) ++ rest) s = intervalLoop children fuel rest v := by
  induction h generalizing fuel rest with
  | nil => simp
  | @cons depth b s u v bs hnew hsub hrest ih ih' =>
    have hle : (s.enterAt b depth).time ≤ u.time := hsub.timing.le
    have hle' : (u.exitAt b).time ≤ v.time := hrest.timing.le
    simp only [Intervals.enterAt, Intervals.exitAt] at hle hle'
    have hfuel : fuel + (v.time - s.time) =
        fuel + (v.time - (u.exitAt b).time) + 1 + (u.time - (s.enterAt b depth).time) + 1 := by
      simp only [Intervals.enterAt, Intervals.exitAt]
      omega
    rw [hfuel, List.map_cons, List.cons_append, intervalLoop, if_neg (not_not.mpr hnew)]
    have hsubLoop := ih (fuel + (v.time - (u.exitAt b).time) + 1)
      (.exit b :: (bs.map (TreeEvent.enter · depth) ++ rest))
    simp only [Intervals.enterAt] at hsubLoop ⊢
    rw [hsubLoop, intervalLoop]
    exact ih' fuel rest

theorem exists_entered (h : RankedRows (succ children) rank n) (m depth : Nat)
    (s : Intervals) (bs : List Nat) (hbs : ∀ b ∈ bs, b < n ∧ n < m + rank b) (hapart : Graph.Apart (succ children) bs)
    (hnew : ∀ x, Under (succ children) bs x → s.enter x = usizeMax) :
    ∃ v, Entered children depth s bs v ∧
      ∀ x, ¬ Under (succ children) bs x → v.enter x = s.enter x := by
  induction m generalizing depth s bs with
  | zero =>
    cases bs with
    | nil => exact ⟨s, .nil depth s, fun _ _ => rfl⟩
    | cons b bs =>
      obtain ⟨hb, hrank⟩ := hbs b List.mem_cons_self
      have := h.bound b hb
      omega
  | succ m ihm =>
    induction bs generalizing s with
    | nil => exact ⟨s, .nil depth s, fun _ _ => rfl⟩
    | cons b bs ih =>
      obtain ⟨hb, hrest⟩ := List.pairwise_cons.mp hapart
      have hself : ¬ Under (succ children) (succ children b) b := fun hu => by
        have := h.rank_of_under hu
        omega
      have hother : ∀ x, x ≠ b → (s.enterAt b depth).enter x = s.enter x := fun x hx =>
        Function.update_of_ne hx _ _
      obtain ⟨u, hsub, hframe⟩ := ihm (depth + 1) (s.enterAt b depth) (succ children b)
        (fun c hc => by
          have := h.rank_lt b c hc
          have := (hbs b List.mem_cons_self).2
          exact ⟨h.lt b c hc, by omega⟩) (h.apart b) fun x hx => by
          rw [hother x fun heq => hself (heq ▸ hx)]
          exact hnew x (under_cons.mpr (.inl (below_iff.mpr (.inr hx))))
      -- blocks outside of the subtree are as they were
      have hkept : ∀ x, ¬ Below (succ children) b x → (u.exitAt b).enter x = s.enter x := by
        intro x hx
        rw [below_iff, not_or] at hx
        exact (hframe x hx.2).trans (hother x hx.1)
      obtain ⟨v, hv, hframe'⟩ := ih (u.exitAt b)
        (fun c hc => hbs c (List.mem_cons_of_mem _ hc)) hrest fun x hx => by
          rw [hkept x fun hbx => ?_]
          · exact hnew x (under_cons.mpr (.inr hx))
          · obtain ⟨c, hc, hcx⟩ := hx
            exact hb c hc x hbx hcx
      refine ⟨v, .cons (hnew b (under_cons.mpr (.inl .refl))) hsub hv, fun x hx => ?_⟩
      rw [under_cons, not_or] at hx
      rw [hframe' x hx.2, hkept x hx.1]

/-- What the walk records of depths. -/
structure Deep (children : List (List Nat)) (depth : Nat) (s : Intervals) (bs : List Nat)
    (v : Intervals) : Prop where
  frame : ∀ x, ¬ Under (succ children) bs x → v.depth x = s.depth x
  top : ∀ b ∈ bs, v.depth b = depth
  child : ∀ x, Under (succ children) bs x → ∀ c ∈ succ children x, v.depth c = v.depth x + 1

theorem Entered.deep (h : RankedRows (succ children) rank n) (hentered : Entered children depth s bs v)
    (hapart : Graph.Apart (succ children) bs) : Deep children depth s bs v := by
  induction hentered with
  | nil => exact ⟨fun _ _ => rfl, by simp, by simp [Under]⟩
  | @cons depth b s u v bs _ _ _ ih ih' =>
    obtain ⟨hb, hrest⟩ := List.pairwise_cons.mp hapart
    have hc := ih (h.apart b)
    have hr := ih' hrest
    have hself : ¬ Under (succ children) (succ children b) b := fun hu => by
      have := h.rank_of_under hu
      omega
    have hbelow : ∀ x, Below (succ children) b x → v.depth x = u.depth x := fun x hx =>
      hr.frame x (by rintro ⟨c, hc, hcx⟩; exact hb c hc x hx hcx)
    have hdepth : v.depth b = depth := by
      rw [hbelow b .refl, hc.frame b hself]
      exact Function.update_self ..
    refine ⟨fun x hx => ?_, fun c hc => ?_, fun x hx c hcx => ?_⟩
    · rw [under_cons, not_or] at hx
      have hx' := hx.1
      rw [below_iff, not_or] at hx'
      rw [hr.frame x hx.2]
      exact (hc.frame x hx'.2).trans (Function.update_of_ne hx'.1 _ _)
    · rcases List.mem_cons.mp hc with rfl | hc
      · exact hdepth
      · exact hr.top c hc
    · rcases under_cons.mp hx with hx | hx
      · rw [hbelow c (hx.tail hcx), hbelow x hx]
        rcases below_iff.mp hx with rfl | hx
        · rw [hc.top c hcx, ← hbelow x .refl, hdepth]
        · exact hc.child x hx c hcx
      · exact hr.child x hx c hcx

end Walk

/-! ## Computed trees -/

section Computed
variable {successors : List (List Nat)} {root : Nat} {idom : List (Option Nat)}
  {children : List (List Nat)} {tree : DominatorTree}

open Classical in
/-- The dominators of a block, of which its children have more. -/
noncomputable def dominatorCount (successors : List (List Nat)) (root b : Nat) : Nat :=
  ((Finset.range successors.length).filter fun d => Dom (Edge successors) root d b).card

open Classical in
theorem TreeAt.ranked (t : TreeAt successors root idom children) :
    RankedRows (succ children) (dominatorCount successors root) successors.length where
  lt _ _ hc := t.reach_lt (t.child_iff.mp hc).1
  rank_lt b c hc := by
    obtain ⟨hreach, hidom⟩ := t.child_iff.mp hc
    refine Finset.card_lt_card (Finset.ssubset_iff_of_subset ?_ |>.mpr ⟨c, ?_, ?_⟩)
    · intro d hd
      rw [Finset.mem_filter] at hd ⊢
      exact ⟨hd.1, hidom.dom.trans hd.2⟩
    · rw [Finset.mem_filter, Finset.mem_range]
      exact ⟨t.reach_lt hreach, .refl c⟩
    · rw [Finset.mem_filter, not_and]
      exact fun _ hdom => hidom.ne (hidom.dom.antisymm hdom hreach)
  bound b _ := (Finset.card_filter_le _ _).trans_eq (Finset.card_range _)
  unique := t.isTree.unique
  nodup := t.nodup

theorem TreeAt.below_iff (t : TreeAt successors root idom children) {d b : Nat}
    (hd : Reach successors root d) : Below (succ children) d b ↔
      Reach successors root b ∧ Dom (Edge successors) root d b := by
  constructor
  · intro hdb
    induction hdb with
    | refl => exact ⟨hd, .refl d⟩
    | tail _ hbc ih =>
      obtain ⟨hreach, hidom⟩ := t.child_iff.mp hbc
      exact ⟨hreach, hidom.dom.trans ih.2⟩
  · rintro ⟨hreach, hdom⟩
    have hchain := hdom.chain t.hasIdoms hreach
    clear hdom
    induction hchain with
    | refl => exact .refl
    | @tail b c _ hidom ih =>
      exact (ih (hidom.reach hreach)).tail (t.child_iff.mpr ⟨hreach, hidom⟩)

theorem pushChild_foldlM {rest : List (Option Nat × Nat)} {children : List (List Nat)}
    (h : ∀ entry ∈ rest, (entry.2 = root → entry.1 = none) ∧
      ∀ d, entry.1 = some d → d < children.length) :
    ∃ children', rest.foldlM (pushChild root) children = .ok children' := by
  induction rest generalizing children with
  | nil => exact ⟨children, rfl⟩
  | cons entry rest ih =>
    obtain ⟨parent, block⟩ := entry
    obtain ⟨hroot, hlt⟩ : (block = root → parent = none) ∧ ∀ d, parent = some d →
        d < children.length := h _ List.mem_cons_self
    have hpush : ∃ next, pushChild root children (parent, block) = .ok next ∧
        next.length = children.length := by
      unfold pushChild
      by_cases heq : block = root
      · rw [hroot heq]
        exact ⟨children, by simp [heq], rfl⟩
      · cases parent with
        | none => exact ⟨children, by simp [heq], rfl⟩
        | some d =>
          have hd := hlt d rfl
          exact ⟨children.modify d (· ++ [block]),
          by simp only [heq, if_false, if_neg (Nat.not_le.mpr hd)], List.length_modify ..⟩
    obtain ⟨next, hnext, hlength⟩ := hpush
    rw [List.foldlM_cons, hnext]
    refine ih fun entry hentry => ?_
    rw [hlength]
    exact h entry (List.mem_cons_of_mem _ hentry)

/-- Vectors are no longer, so no tick of the clock is the mark of a block that is not entered. -/
def Addressable (successors : List (List Nat)) : Prop := 2 * successors.length ≤ usizeMax

/-- What is computed for a graph: the tree, the intervals that decide dominance, and depths. -/
structure DominatorsOf (successors : List (List Nat)) (root : Nat) (tree : DominatorTree) :
    Prop where
  treeAt : TreeAt successors root tree.idom tree.children
  dominates : ∀ d b, tree.dominates d b = true ↔
    Reach successors root d ∧ Reach successors root b ∧ Dom (Edge successors) root d b
  depth_root : tree.depth root = 0
  depth_child : ∀ d b, Reach successors root b → IsIdom (Edge successors) root d b →
    tree.depth b = tree.depth d + 1
  depth_unreached : ∀ b, ¬ Reach successors root b → tree.depth b = usizeMax

theorem fromIdom_exact (hroot : root < successors.length) (hrange : InRange successors)
    (hsize : Addressable successors) (hidoms : Idoms successors root idom) :
    ∃ tree, DominatorTree.fromIdom idom root = .ok tree ∧ tree.idom = idom ∧
      DominatorsOf successors root tree := by
  obtain ⟨rows, hrows⟩ : ∃ rows, idom.zipIdx.foldlM (pushChild root)
      (List.replicate idom.length []) = .ok rows := pushChild_foldlM fun entry hentry => by
      have hat := List.mk_mem_zipIdx_iff_getElem?.mp
        (show (entry.1, entry.2) ∈ idom.zipIdx from hentry)
      have hlt : entry.2 < successors.length := by
        rw [← hidoms.length]
        exact (List.getElem?_eq_some_iff.mp hat).1
      refine ⟨fun heq => ?_, fun d hd => ?_⟩
      · rw [heq, hidoms.root_none] at hat
        exact (Option.some.inj hat).symm
      · rw [List.length_replicate, hidoms.length]
        rw [hd] at hat
        have hreach : Reach successors root entry.2 := by
          by_contra hno
          rw [hidoms.unreached _ hlt hno] at hat
          cases hat
        have hne : entry.2 ≠ root := fun heq => by
          rw [heq, hidoms.root_none] at hat
          cases hat
        obtain ⟨e, he, hidom⟩ := hidoms.idom _ hreach hne
        rw [hat] at he
        cases he
        exact Reach.closed (fun u _ v hv => hrange u v hv) (hidom.reach hreach) hroot
  obtain ⟨-, hmem, hnodup⟩ := sortedChildren_spec hrows
  generalize hchildren : rows.map (·.insertionSort (· ≤ ·)) = children at hmem hnodup
  have t : TreeAt successors root idom children := ⟨hroot, hrange, hidoms, hmem, hnodup⟩
  -- the walk from the root
  let start : Intervals := ⟨fun _ => usizeMax, fun _ => usizeMax, fun _ => usizeMax, 0⟩
  obtain ⟨v, hentered, hframe⟩ := exists_entered t.ranked (successors.length + 1) 0 start [root]
    (fun b hb => by
      obtain rfl := List.mem_singleton.mp hb
      exact ⟨hroot, by omega⟩) (List.pairwise_singleton _ _) fun _ _ => rfl
  have hplaced := hentered.timing.placed t.ranked (List.pairwise_singleton _ _)
  have hdeep := hentered.deep t.ranked (List.pairwise_singleton _ _)
  have htime : v.time ≤ 2 * successors.length := by
    have := hplaced.time_le t.ranked (by simpa using hroot)
    simpa [Intervals.times, start] using this
  have hunder : ∀ x, Under (succ children) [root] x ↔ Reach successors root x := by
    intro x
    simp only [Under, List.mem_singleton, exists_eq_left, t.below_iff (.refl root), dom_root,
      and_true]
  have hloop : intervalLoop children (2 * idom.length + 1) [.enter root 0] start = .ok v := by
    have hrun := hentered.loop (2 * idom.length + 1 - v.time) []
    have hfuel : 2 * idom.length + 1 - v.time + (v.time - start.time) = 2 * idom.length + 1 := by
      rw [hidoms.length]
      simp only [start]
      omega
    rw [hfuel] at hrun
    refine hrun.trans ?_
    cases 2 * idom.length + 1 - v.time <;> rfl
  refine ⟨⟨idom, children, v.enter, v.exit, v.depth⟩, ?_, rfl, t, fun d b => ?_, ?_,
    fun d b hreach hidom => ?_, fun b hno => ?_⟩
  · unfold DominatorTree.fromIdom
    rw [if_neg (by rw [hidoms.length]; omega), hrows]
    simp only [bind, Except.bind, hchildren]
    rw [hloop]
    rfl
  · have henter : ∀ x, v.enter x ≠ usizeMax ↔ Reach successors root x := by
      intro x
      rw [← hunder]
      constructor
      · intro hne
        by_contra hno
        exact hne (hframe x hno)
      · intro hx
        have := hplaced.bounds x hx
        simp only [Intervals.times] at this
        unfold Addressable at hsize
        omega
    have hlt : ∀ x, Reach successors root x → x < idom.length := fun x hx => by
      rw [hidoms.length]
      exact t.reach_lt hx
    simp only [DominatorTree.dominates, Bool.and_eq_true, decide_eq_true_eq, henter]
    constructor
    · rintro ⟨⟨⟨⟨⟨-, -⟩, hd⟩, hb⟩, hle⟩, hle'⟩
      have hbelow := (hplaced.nested d b ((hunder d).mpr hd) ((hunder b).mpr hb)).mp ⟨hle, hle'⟩
      exact ⟨hd, (t.below_iff hd).mp hbelow⟩
    · rintro ⟨hd, hb, hdom⟩
      have hnested := (hplaced.nested d b ((hunder d).mpr hd) ((hunder b).mpr hb)).mpr
        ((t.below_iff hd).mpr ⟨hb, hdom⟩)
      exact ⟨⟨⟨⟨⟨hlt d hd, hlt b hb⟩, hd⟩, hb⟩, hnested.1⟩, hnested.2⟩
  · exact hdeep.top root (List.mem_singleton_self root)
  · exact hdeep.child d ((hunder d).mpr (hidom.reach hreach)) b (t.child_iff.mpr ⟨hreach, hidom⟩)
  · exact hdeep.frame b ((hunder b).not.mpr hno)

theorem compute_treeAt (hroot : root < successors.length) (hrange : InRange successors)
    (h : DominatorTree.compute successors root = .ok tree) :
    TreeAt successors root tree.idom tree.children := by
  obtain ⟨idom, hlt, hidoms⟩ := lengauerTarjan_idoms hroot hrange
  rw [DominatorTree.compute, hlt] at h
  obtain ⟨hidom, -, -, hmem, hnodup⟩ := fromIdom_children h
  exact ⟨hroot, hrange, hidom ▸ hidoms, hidom ▸ hmem, hnodup⟩

theorem compute_exact (hroot : root < successors.length) (hrange : InRange successors)
    (hsize : Addressable successors) : ∃ tree, DominatorTree.compute successors root = .ok tree ∧
      DominatorsOf successors root tree := by
  obtain ⟨idom, hlt, hidoms⟩ := lengauerTarjan_idoms hroot hrange
  obtain ⟨tree, htree, -, hexact⟩ := fromIdom_exact hroot hrange hsize hidoms
  exact ⟨tree, by rw [DominatorTree.compute, hlt]; exact htree, hexact⟩

/-! ## Climbing -/

section Climb
variable (h : DominatorsOf successors root tree) {b l r : Nat}
include h

theorem DominatorsOf.parent (hb : Reach successors root b) (hne : b ≠ root) :
    ∃ d, tree.idom[b]?.join = some d ∧ Reach successors root d ∧
      IsIdom (Edge successors) root d b ∧ tree.depth b = tree.depth d + 1 := by
  obtain ⟨d, hd⟩ := h.treeAt.hasIdoms b hb hne
  exact ⟨d, h.treeAt.join_eq.mpr ⟨hb, hd⟩, hd.reach hb, hd, h.depth_child d b hb hd⟩

theorem DominatorsOf.depth_lt (hb : Reach successors root b) :
    tree.depth b < successors.length := by
  have hle : tree.depth b < dominatorCount successors root b := by
    refine idom_induction (P := fun b => tree.depth b < dominatorCount successors root b)
      h.treeAt.hasIdoms ?_ (fun c d hc hidom ih => ?_) hb
    · rw [h.depth_root]
      refine Finset.card_pos.mpr ⟨root, ?_⟩
      simp only [Finset.mem_filter, Finset.mem_range]
      exact ⟨h.treeAt.root_lt, .refl root⟩
    · have := h.treeAt.ranked.rank_lt d c (h.treeAt.child_iff.mpr ⟨hc, hidom⟩)
      rw [h.depth_child d c hc hidom]
      omega
  exact hle.trans_le (h.treeAt.ranked.bound b (h.treeAt.reach_lt hb))

/-- Dominators are less deep. -/
theorem DominatorsOf.depth_dom (hb : Reach successors root b) {e : Nat}
    (hdom : Dom (Edge successors) root e b) : e = b ∨ tree.depth e < tree.depth b := by
  have hchain := hdom.chain h.treeAt.hasIdoms hb
  clear hdom
  induction hchain with
  | refl => exact .inl rfl
  | @tail d c _ hidom ih =>
    have hdepth := h.depth_child d c hb hidom
    rcases ih (hidom.reach hb) with rfl | hlt
    · exact .inr (by omega)
    · exact .inr (by omega)

/-- The dominator of the given depth, or the block itself if it is less deep. -/
theorem DominatorsOf.climb (depth fuel : Nat) (hb : Reach successors root b)
    (hfuel : tree.depth b ≤ fuel) : ∃ a, tree.climb depth fuel b = some a ∧
      Reach successors root a ∧ tree.depth a = min depth (tree.depth b) ∧
      Dom (Edge successors) root a b ∧
      ∀ e, Dom (Edge successors) root e b → tree.depth e ≤ depth → Dom (Edge successors) root e a := by
  induction fuel generalizing b with
  | zero => exact ⟨b, rfl, hb, by omega, .refl b, fun _ he _ => he⟩
  | succ fuel ih =>
    unfold DominatorTree.climb
    split
    · rename_i hdeep
      have hne : b ≠ root := by
        rintro rfl
        rw [h.depth_root] at hdeep
        omega
      obtain ⟨d, hd, hreach, hidom, hdepth⟩ := h.parent hb hne
      obtain ⟨a, ha, hreach', hdepth', hdom, hleast⟩ := ih hreach (by omega)
      refine ⟨a, by rw [hd, Option.bind_some, ha], hreach', by omega, hidom.dom.trans hdom,
        fun e he hle => hleast e (hidom.least e ?_ he) hle⟩
      rintro rfl
      omega
    · exact ⟨b, rfl, hb, by omega, .refl b, fun _ he _ => he⟩

/-- Of two blocks of one depth neither dominates the other. -/
theorem DominatorsOf.apart (hr : Reach successors root r) (hdepth : tree.depth l = tree.depth r)
    (hne : l ≠ r) : l ≠ root ∧ ¬ Dom (Edge successors) root l r := by
  have hdom : ¬ Dom (Edge successors) root l r := fun hdom => by
    rcases h.depth_dom hr hdom with rfl | hlt
    · exact hne rfl
    · omega
  refine ⟨?_, hdom⟩
  rintro rfl
  exact hdom (dom_root r)

/-- Two blocks of one depth meet at their nearest common dominator. -/
theorem DominatorsOf.meet (fuel : Nat) (hl : Reach successors root l)
    (hr : Reach successors root r) (hdepth : tree.depth l = tree.depth r)
    (hfuel : tree.depth l ≤ fuel) : ∃ c, tree.meet fuel l r = some c ∧
      Dom (Edge successors) root c l ∧ Dom (Edge successors) root c r ∧
      ∀ e, Dom (Edge successors) root e l → Dom (Edge successors) root e r →
        Dom (Edge successors) root e c := by
  induction fuel generalizing l r with
  | zero =>
    have heq : l = r := by
      by_contra hne
      obtain ⟨d, -, -, -, hd⟩ := h.parent hl (h.apart hr hdepth hne).1
      omega
    subst heq
    exact ⟨l, rfl, .refl l, .refl l, fun _ he _ => he⟩
  | succ fuel ih =>
    unfold DominatorTree.meet
    split
    · rename_i hne
      obtain ⟨hlr, hnot⟩ := h.apart hr hdepth hne
      obtain ⟨hrr, hnot'⟩ := h.apart hl hdepth.symm (Ne.symm hne)
      obtain ⟨l', hl', hlreach, hlidom, hldepth⟩ := h.parent hl hlr
      obtain ⟨r', hr', hrreach, hridom, hrdepth⟩ := h.parent hr hrr
      obtain ⟨c, hc, hcl, hcr, hleast⟩ := ih hlreach hrreach (by omega) (by omega)
      refine ⟨c, by rw [hl', hr', Option.bind_some, Option.bind_some, hc], hlidom.dom.trans hcl,
        hridom.dom.trans hcr, fun e hel her => ?_⟩
      refine hleast e (hlidom.least e ?_ hel) (hridom.least e ?_ her)
      · rintro rfl
        exact hnot her
      · rintro rfl
        exact hnot' hel
    · rename_i heq
      obtain rfl := not_not.mp heq
      exact ⟨l, rfl, .refl l, .refl l, fun _ he _ => he⟩

theorem DominatorsOf.lca (hsize : Addressable successors) (hl : Reach successors root l)
    (hr : Reach successors root r) : ∃ c, tree.lca l r = some c ∧
      Dom (Edge successors) root c l ∧ Dom (Edge successors) root c r ∧
      ∀ e, Dom (Edge successors) root e l → Dom (Edge successors) root e r →
        Dom (Edge successors) root e c := by
  have hlength : tree.idom.length = successors.length := h.treeAt.idoms.length
  have hshallow : ∀ b, Reach successors root b → b < successors.length ∧ tree.depth b ≠ usizeMax ∧
      tree.depth b ≤ successors.length := fun b hb => by
    have := h.depth_lt hb
    unfold Addressable at hsize
    exact ⟨h.treeAt.reach_lt hb, by omega, by omega⟩
  obtain ⟨hllt, hldepth, hlfuel⟩ := hshallow l hl
  obtain ⟨hrlt, hrdepth, hrfuel⟩ := hshallow r hr
  obtain ⟨l', hl', hlreach, hlmin, hldom, hlleast⟩ :=
    h.climb (tree.depth r) successors.length hl hlfuel
  obtain ⟨r', hr', hrreach, hrmin, hrdom, hrleast⟩ :=
    h.climb (tree.depth l') successors.length hr hrfuel
  obtain ⟨c, hc, hcl, hcr, hleast⟩ := h.meet successors.length hlreach hrreach (by omega) (by omega)
  refine ⟨c, ?_, hldom.trans hcl, hrdom.trans hcr, fun e hel her => ?_⟩
  · unfold DominatorTree.lca
    rw [hlength, if_neg (by omega), if_neg (by omega), hl', Option.bind_eq_bind, Option.bind_some,
      hr', Option.bind_some, hc]
  · -- a common dominator is no deeper than either block
    have hle : ∀ {b : Nat}, Reach successors root b → Dom (Edge successors) root e b →
        tree.depth e ≤ tree.depth b := fun hb hdom => by
      rcases h.depth_dom hb hdom with rfl | hlt
      · exact le_rfl
      · exact hlt.le
    have := hle hl hel
    have := hle hr her
    exact hleast e (hlleast e hel (by omega)) (hrleast e her (by omega))

end Climb

/-- The tree decides dominance, has the immediate dominators, which are unique, and finds the nearest
common dominators. -/
theorem compute_dominators (hroot : root < successors.length) (hrange : InRange successors)
    (hreach : ∀ b < successors.length, Reach successors root b) (hsize : Addressable successors) :
    ∃ tree, DominatorTree.compute successors root = .ok tree ∧
      (∀ a < successors.length, ∀ b < successors.length,
        tree.dominates a b = true ↔ Dom (Edge successors) root a b) ∧
      tree.idom[root]? = some none ∧
      (∀ b < successors.length, b ≠ root → ∃ d, tree.idom[b]? = some (some d) ∧
        ∀ e, IsIdom (Edge successors) root e b ↔ e = d) ∧
      ∀ l < successors.length, ∀ r < successors.length, ∃ c, tree.lca l r = some c ∧
        Dom (Edge successors) root c l ∧ Dom (Edge successors) root c r ∧
        ∀ e, Dom (Edge successors) root e l → Dom (Edge successors) root e r →
          Dom (Edge successors) root e c := by
  obtain ⟨tree, htree, h⟩ := compute_exact hroot hrange hsize
  refine ⟨tree, htree, fun a ha b hb => ?_, h.treeAt.idoms.root_none, fun b hb hne => ?_,
    fun l hl r hr => h.lca hsize (hreach l hl) (hreach r hr)⟩
  · rw [h.dominates, and_iff_right (hreach a ha), and_iff_right (hreach b hb)]
  · obtain ⟨d, hd, hidom⟩ := h.treeAt.idoms.idom b (hreach b hb) hne
    exact ⟨d, hd, fun e => ⟨fun he => he.unique hidom (hreach b hb), fun heq => heq ▸ hidom⟩⟩

/-- A loop with two entries. -/
theorem compute_dominators_irreducible : ∃ tree,
    DominatorTree.compute [[1, 2], [2], [1, 3], []] 0 = .ok tree ∧
      ∀ b < 4, b ≠ 0 → ∃ d, tree.idom[b]? = some (some d) ∧
        ∀ e, IsIdom (Edge [[1, 2], [2], [1, 3], []]) 0 e b ↔ e = d := by
  have hreach : ∀ b < 4, Reach [[1, 2], [2], [1, 3], []] 0 b := by
    have h1 : Reach [[1, 2], [2], [1, 3], []] 0 1 := .of_edge (by unfold Edge; decide)
    have h2 : Reach [[1, 2], [2], [1, 3], []] 0 2 := .of_edge (by unfold Edge; decide)
    have h3 : Reach [[1, 2], [2], [1, 3], []] 0 3 := h2.trans (.of_edge (by unfold Edge; decide))
    intro b hb
    match b, hb with
    | 0, _ => exact .refl 0
    | 1, _ => exact h1
    | 2, _ => exact h2
    | 3, _ => exact h3
  obtain ⟨tree, htree, -, -, hidom, -⟩ :=
    @compute_dominators [[1, 2], [2], [1, 3], []] 0 (by decide) (by decide) hreach
      (by unfold Addressable; decide)
  exact ⟨tree, htree, hidom⟩

end Computed
end Celox.Cfg
