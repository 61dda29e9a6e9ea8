import Celox.Graph.IterativeDominators
import Celox.Graph.TreeIntervals

/-! # Dominators by position in an order of visit

Nodes are numbered by an order in which each one but the root comes after one that leads to it.
Links between the numbers give the dominators of the nodes themselves. -/
namespace Celox.Graph
open Relation

section Order
variable {α : Type} {E : α → α → Prop} {root : α} {order : List α}

/-- All that the root reaches, each node behind one that leads to it. -/
structure VisitOrder (E : α → α → Prop) (root : α) (order : List α) : Prop where
  nodup : order.Nodup
  mem : ∀ b, b ∈ order ↔ ReflTransGen E root b
  head : order[0]? = some root
  earlier : ∀ i b, order[i]? = some b → 0 < i → ∃ j p, j < i ∧ order[j]? = some p ∧ E p b

variable [DecidableEq α]

/-- Rows of predecessors by position. -/
def rowsAt (preds : α → List α) (order : List α) (i : Nat) : List Nat :=
  match order[i]? with
  | some b => (preds b).map (order.idxOf ·)
  | none => []

theorem VisitOrder.idxOf_lt (h : VisitOrder E root order) {b : α} (hb : ReflTransGen E root b) :
    order.idxOf b < order.length :=
  List.idxOf_lt_length_of_mem ((h.mem b).mpr hb)

theorem VisitOrder.getElem?_idxOf (h : VisitOrder E root order) {b : α}
    (hb : ReflTransGen E root b) : order[order.idxOf b]? = some b := by
  rw [List.getElem?_eq_getElem (h.idxOf_lt hb), List.getElem_idxOf]

theorem VisitOrder.idxOf_eq (h : VisitOrder E root order) {i : Nat} {b : α}
    (hi : order[i]? = some b) : order.idxOf b = i := by
  obtain ⟨hlt, rfl⟩ := List.getElem?_eq_some_iff.mp hi
  exact h.nodup.idxOf_getElem i hlt

theorem VisitOrder.idxOf_root (h : VisitOrder E root order) : order.idxOf root = 0 :=
  h.idxOf_eq h.head

omit [DecidableEq α] in
theorem VisitOrder.reach (h : VisitOrder E root order) {i : Nat} {b : α}
    (hi : order[i]? = some b) : ReflTransGen E root b :=
  (h.mem b).mp (List.mem_of_getElem? hi)

/-- The rows have the predecessors that are visited. -/
def ReachedRows (E : α → α → Prop) (root : α) (preds : α → List α) : Prop :=
  ∀ b, ReflTransGen E root b → ∀ p, p ∈ preds b ↔ ReflTransGen E root p ∧ E p b

variable {preds : α → List α}

theorem VisitOrder.predEdge_iff (h : VisitOrder E root order) (hpreds : ReachedRows E root preds)
    {i j : Nat} : PredEdge (rowsAt preds order) order.length i j ↔
      ∃ p b, order[i]? = some p ∧ order[j]? = some b ∧ E p b := by
  unfold PredEdge rowsAt
  cases hj : order[j]? with
  | none => simp
  | some b =>
    have hlt : j < order.length := (List.getElem?_eq_some_iff.mp hj).1
    simp only [hlt, true_and, List.mem_map, hpreds b (h.reach hj), Option.some.injEq]
    constructor
    · rintro ⟨p, ⟨hp, hedge⟩, rfl⟩
      exact ⟨p, b, h.getElem?_idxOf hp, rfl, hedge⟩
    · rintro ⟨p, c, hp, rfl, hedge⟩
      exact ⟨p, ⟨h.reach hp, hedge⟩, h.idxOf_eq hp⟩

theorem VisitOrder.forward (h : VisitOrder E root order) (hpreds : ReachedRows E root preds) :
    Forward (rowsAt preds order) order.length where
  pos := (List.getElem?_eq_some_iff.mp h.head).1
  lt b hb p hp := by
    obtain ⟨q, c, hq, -, -⟩ := (h.predEdge_iff hpreds).mp ⟨hb, hp⟩
    exact (List.getElem?_eq_some_iff.mp hq).1
  earlier b hb hpos := by
    obtain ⟨j, p, hj, hp, hedge⟩ := h.earlier b order[b] (List.getElem?_eq_getElem hb) hpos
    exact ⟨j, ((h.predEdge_iff hpreds).mpr
      ⟨p, order[b], hp, List.getElem?_eq_getElem hb, hedge⟩).2, hj⟩

/-- Positions dominate as their nodes do. -/
theorem VisitOrder.dom_iff (h : VisitOrder E root order) (hpreds : ReachedRows E root preds)
    {d b : α} (hd : ReflTransGen E root d) (hb : ReflTransGen E root b) :
    Dom (PredEdge (rowsAt preds order) order.length) 0 (order.idxOf d) (order.idxOf b) ↔
      Dom E root d b := by
  constructor
  · intro hdom
    refine Dom.of_map (f := order.idxOf) (fun u v hu huv => ?_) (fun v hv heq => ?_)
      (h.idxOf_root ▸ hdom)
    · exact (h.predEdge_iff hpreds).mpr
        ⟨u, v, h.getElem?_idxOf hu, h.getElem?_idxOf (hu.tail huv), huv⟩
    · exact Option.some.inj ((h.getElem?_idxOf hv).symm.trans (heq ▸ h.getElem?_idxOf hd))
  · intro hdom
    have hget : ∀ {i : Nat} {c : α}, order[i]? = some c → order.getD i root = c := by
      intro i c hc
      rw [List.getD_eq_getElem?_getD, hc]
      rfl
    have hdom' : Dom E (order.getD 0 root) (order.getD (order.idxOf d) root)
        (order.getD (order.idxOf b) root) := by
      rw [hget (h.getElem?_idxOf hd), hget (h.getElem?_idxOf hb), hget h.head]
      exact hdom
    refine Dom.of_map (f := fun i => order.getD i root) (fun i j _ hij => ?_) (fun j hj heq => ?_)
      hdom'
    · obtain ⟨p, c, hp, hc, hedge⟩ := (h.predEdge_iff hpreds).mp hij
      rw [hget hp, hget hc]
      exact hedge
    · have hjlt : j < order.length := by
        rcases hj.cases_tail with rfl | ⟨i, -, hij⟩
        · exact (h.forward hpreds).pos
        · exact hij.1
      rw [hget (h.getElem?_idxOf hd), hget (List.getElem?_eq_getElem hjlt)] at heq
      exact (h.idxOf_eq ((List.getElem?_eq_getElem hjlt).trans (congrArg some heq))).symm

/-- Links between positions whose chains end at the root and have the dominators. -/
structure DomLinks (E : α → α → Prop) (root : α) (order : List α) (links : Nat → Option Nat) :
    Prop where
  falling : Falling links
  root_self : links 0 = some 0
  linked : ∀ i, (links i).isSome ↔ i < order.length
  above_root : ∀ i < order.length, Above links i 0
  exact : ∀ d b, ReflTransGen E root d → ReflTransGen E root b →
    (Above links (order.idxOf b) (order.idxOf d) ↔ Dom E root d b)

/-- Refinement over the positions ends with such links. -/
theorem VisitOrder.dominators (h : VisitOrder E root order) (hpreds : ReachedRows E root preds) :
    ∃ links, iterativeDominators (rowsAt preds order) order.length = some links ∧
      DomLinks E root order links := by
  obtain ⟨links, hrun, hfall, hself, hsome, hroot, hexact⟩ :=
    iterativeDominators_exact (h.forward hpreds)
  refine ⟨links, hrun, hfall, hself, hsome, hroot, fun d b hd hb => ?_⟩
  rw [hexact _ (h.idxOf_lt hb), h.dom_iff hpreds hd hb]

/-- Links between nodes for links between their positions. -/
def nodeLinks (order : List α) (links : Nat → Option Nat) (b : α) : Option α :=
  (links (order.idxOf b)).bind (order[·]?)

theorem DomLinks.nodeLinks_eq_some {links : Nat → Option Nat} (h : DomLinks E root order links)
    (ho : VisitOrder E root order) {b p : α} :
    nodeLinks order links b = some p ↔ ReflTransGen E root b ∧ ReflTransGen E root p ∧
      links (order.idxOf b) = some (order.idxOf p) := by
  unfold nodeLinks
  rw [Option.bind_eq_some_iff]
  constructor
  · rintro ⟨i, hi, hp⟩
    have hb : b ∈ order := List.idxOf_lt_length_iff.mp ((h.linked _).mp (by rw [hi]; rfl))
    refine ⟨(ho.mem b).mp hb, ho.reach hp, ?_⟩
    rw [hi, ho.idxOf_eq hp]
  · rintro ⟨-, hp, hi⟩
    exact ⟨_, hi, ho.getElem?_idxOf hp⟩

/-- A node is linked to one before it, but for the root. -/
theorem DomLinks.rank {links : Nat → Option Nat} (h : DomLinks E root order links)
    (ho : VisitOrder E root order) {b p : α} (hlink : nodeLinks order links b = some p)
    (hne : p ≠ b) : order.idxOf p < order.idxOf b := by
  obtain ⟨hb, hp, hi⟩ := (h.nodeLinks_eq_some ho).mp hlink
  refine h.falling _ _ ⟨fun hzero => hne ?_, hi⟩
  rw [hzero, h.root_self, Option.some.injEq] at hi
  have heq : order.idxOf p = order.idxOf b := by omega
  exact Option.some.inj ((ho.getElem?_idxOf hp).symm.trans (heq ▸ ho.getElem?_idxOf hb))

end Order

/-! ## A search that marks nodes when it pushes them

Depth first with one entry a node on the stack: an entry is first opened, which pushes what it
leads to and is not marked yet, and closed when it comes up again. The order in which nodes are
closed need not be that of a depth-first search, but a node is still closed before the one that
pushed it. -/

/-- `stack` has the next entry in front; `true` marks a node that is open. -/
structure PushSearch (α : Type) where
  discovered : List α
  discoveryOrder : List α
  postorder : List α
  stack : List (α × Bool)

section Search
variable {α : Type} [DecidableEq α]

def PushSearch.start (root : α) : PushSearch α := ⟨[root], [root], [], [(root, false)]⟩

def PushSearch.push (state : PushSearch α) (successor : α) : PushSearch α :=
  if successor ∈ state.discovered then state
  else { state with
    discovered := successor :: state.discovered
    stack := (successor, false) :: state.stack }

def PushSearch.step (next : α → List α) (root : α) (state : PushSearch α) : PushSearch α :=
  match state.stack with
  | [] => state
  | (node, true) :: stack => { state with postorder := state.postorder ++ [node], stack }
  | (node, false) :: stack =>
    (next node).reverse.foldl PushSearch.push { state with
      discoveryOrder :=
        if node = root then state.discoveryOrder else state.discoveryOrder ++ [node]
      stack := (node, true) :: stack }

def PushSearch.run (next : α → List α) (root : α) : (fuel : Nat) → PushSearch α → PushSearch α
  | 0, state => state
  | fuel + 1, state => run next root fuel (state.step next root)

/-- Opened, whether closed again or not. -/
def PushSearch.Opened (state : PushSearch α) (b : α) : Prop :=
  b ∈ state.postorder ∨ (b, true) ∈ state.stack

/-- An entry was pushed by an open node below it, which is closed later. -/
structure PushSearch.Core (next : α → List α) (root : α) (state : PushSearch α) : Prop where
  nodup : (state.postorder ++ state.stack.map Prod.fst).Nodup
  discovered : ∀ b, b ∈ state.discovered ↔ b ∈ state.postorder ++ state.stack.map Prod.fst
  reach : ∀ b ∈ state.discovered, ReflTransGen (fun u v => v ∈ next u) root b
  waiting : ∀ front b e back, state.stack = front ++ (b, e) :: back → b ≠ root →
    ∃ p, (p, true) ∈ back ∧ b ∈ next p
  closed : ∀ before b after, state.postorder = before ++ b :: after → b ≠ root →
    ∃ p, (p ∈ after ∨ (p, true) ∈ state.stack) ∧ b ∈ next p
  last : ∀ b e, state.stack.getLast? = some (b, e) → b = root
  root_last : state.stack = [] → state.postorder.getLast? = some root
  visited : ∀ b, b ∈ state.discoveryOrder ↔ b = root ∨ state.Opened b
  visited_nodup : state.discoveryOrder.Nodup

structure PushSearch.Inv (next : α → List α) (root : α) (state : PushSearch α) : Prop
    extends PushSearch.Core next root state where
  expanded : ∀ b c, state.Opened b → c ∈ next b → c ∈ state.discovered

variable {next : α → List α} {root : α} {state : PushSearch α}

omit [DecidableEq α] in
theorem PushSearch.Inv.start (next : α → List α) (root : α) :
    (PushSearch.start root).Inv next root where
  nodup := by simp [PushSearch.start]
  discovered := by simp [PushSearch.start]
  reach b hb := by
    obtain rfl := List.mem_singleton.mp hb
    exact .refl
  waiting front b e back h hb := by
    cases front with
    | nil =>
      cases h
      exact absurd rfl hb
    | cons first front => simp [PushSearch.start] at h
  closed before b after h := by simp [PushSearch.start] at h
  last b e h := by
    simp only [PushSearch.start, List.getLast?_singleton, Option.some.injEq, Prod.mk.injEq] at h
    exact h.1.symm
  root_last h := by simp [PushSearch.start] at h
  visited := by simp [PushSearch.start, PushSearch.Opened]
  visited_nodup := List.nodup_singleton _
  expanded b c h := by simp [PushSearch.start, PushSearch.Opened] at h

/-! ## Pushing -/

/-- What pushing leaves as it is. -/
structure PushSearch.Pushed (state state' : PushSearch α) : Prop where
  postorder : state'.postorder = state.postorder
  discoveryOrder : state'.discoveryOrder = state.discoveryOrder
  opened : ∀ b, (b, true) ∈ state'.stack ↔ (b, true) ∈ state.stack
  grows : ∀ b ∈ state.discovered, b ∈ state'.discovered

theorem PushSearch.Core.push {node successor : α} (h : state.Core next root)
    (hnode : (node, true) ∈ state.stack) (hedge : successor ∈ next node) :
    (state.push successor).Core next root ∧ state.Pushed (state.push successor) ∧
      successor ∈ (state.push successor).discovered := by
  unfold PushSearch.push
  split
  · rename_i hold
    exact ⟨h, ⟨rfl, rfl, fun _ => Iff.rfl, fun _ hb => hb⟩, hold⟩
  rename_i hnew
  have hout : successor ∉ state.postorder ++ state.stack.map Prod.fst :=
    fun hmem => hnew ((h.discovered _).mpr hmem)
  have hopened : ∀ b, (b, true) ∈ (successor, false) :: state.stack ↔ (b, true) ∈ state.stack := by
    simp
  refine ⟨?_, ⟨rfl, rfl, hopened, fun b hb => List.mem_cons_of_mem _ hb⟩, List.mem_cons_self⟩
  exact {
    nodup := by
      rw [List.map_cons]
      exact List.nodup_middle.mpr (List.nodup_cons.mpr ⟨hout, h.nodup⟩)
    discovered := fun b => by
      rw [List.mem_cons, h.discovered, List.map_cons, List.mem_append, List.mem_append,
        List.mem_cons, or_left_comm]
    reach := fun b hb => by
      rcases List.mem_cons.mp hb with rfl | hb
      · refine (h.reach node ((h.discovered node).mpr (List.mem_append_right _ ?_))).tail hedge
        exact List.mem_map.mpr ⟨_, hnode, rfl⟩
      · exact h.reach b hb
    waiting := fun front b e back hsplit hb => by
      cases front with
      | nil =>
        cases hsplit
        exact ⟨node, hnode, hedge⟩
      | cons first front =>
        rw [List.cons_append, List.cons.injEq] at hsplit
        exact h.waiting front b e back hsplit.2 hb
    closed := fun before b after hsplit hb => by
      obtain ⟨p, hp, hbp⟩ := h.closed before b after hsplit hb
      exact ⟨p, hp.imp_right (hopened p).mpr, hbp⟩
    last := fun b e hlast => by
      have hne : state.stack ≠ [] := List.ne_nil_of_mem hnode
      refine h.last b e ?_
      dsimp only at hlast
      rwa [List.getLast?_cons_of_ne_nil hne] at hlast
    root_last := fun hempty => by cases hempty
    visited := fun b => by
      rw [h.visited b]
      exact or_congr_right (or_congr_right (hopened b).symm)
    visited_nodup := h.visited_nodup }

theorem PushSearch.Core.pushAll {node : α} (row : List α) (h : state.Core next root)
    (hnode : (node, true) ∈ state.stack) (hrow : ∀ c ∈ row, c ∈ next node) :
    (row.foldl PushSearch.push state).Core next root ∧
      state.Pushed (row.foldl PushSearch.push state) ∧
        ∀ c ∈ row, c ∈ (row.foldl PushSearch.push state).discovered := by
  induction row generalizing state with
  | nil => exact ⟨h, ⟨rfl, rfl, fun _ => Iff.rfl, fun _ hb => hb⟩, by simp⟩
  | cons first row ih =>
    rw [List.foldl_cons]
    obtain ⟨hpush, hpushed, hfirst⟩ := h.push hnode (hrow first List.mem_cons_self)
    obtain ⟨hcore, hrest, hall⟩ := ih hpush ((hpushed.opened node).mpr hnode)
      fun c hc => hrow c (List.mem_cons_of_mem _ hc)
    refine ⟨hcore, ⟨hrest.postorder.trans hpushed.postorder,
      hrest.discoveryOrder.trans hpushed.discoveryOrder,
      fun b => (hrest.opened b).trans (hpushed.opened b),
      fun b hb => hrest.grows b (hpushed.grows b hb)⟩, fun c hc => ?_⟩
    rcases List.mem_cons.mp hc with rfl | hc
    · exact hrest.grows c hfirst
    · exact hall c hc

/-! ## One step -/

omit [DecidableEq α] in
theorem PushSearch.Inv.close {node : α} {stack : List (α × Bool)} (h : state.Inv next root)
    (hstack : state.stack = (node, true) :: stack) :
    ({ state with postorder := state.postorder ++ [node], stack } : PushSearch α).Inv next root := by
  have hopened : ∀ b, b ∈ state.postorder ++ [node] ∨ (b, true) ∈ stack ↔ state.Opened b := by
    intro b
    unfold PushSearch.Opened
    rw [hstack, List.mem_append, List.mem_singleton, List.mem_cons, Prod.mk.injEq, or_assoc]
    simp
  have hmem : state.postorder ++ [node] ++ stack.map Prod.fst =
      state.postorder ++ state.stack.map Prod.fst := by
    rw [hstack, List.map_cons, List.append_assoc, List.singleton_append]
  exact {
    nodup := hmem ▸ h.nodup
    discovered := fun b => (h.discovered b).trans (hmem ▸ Iff.rfl)
    reach := h.reach
    waiting := fun front b e back hsplit hb =>
      h.waiting ((node, true) :: front) b e back (by rw [hstack, List.cons_append, ← hsplit]) hb
    closed := fun before b after hsplit hb => by
      dsimp only at hsplit
      rcases List.eq_nil_or_concat after with rfl | ⟨rest, x, rfl⟩
      · obtain ⟨rfl, heq⟩ := List.append_inj' hsplit rfl
        obtain rfl : node = b := by simpa using heq
        obtain ⟨p, hp, hbp⟩ := h.waiting [] node true stack (by rw [hstack]; rfl) hb
        exact ⟨p, .inr hp, hbp⟩
      · rw [List.concat_eq_append, ← List.cons_append, ← List.append_assoc] at hsplit
        obtain ⟨hbefore, heq⟩ := List.append_inj' hsplit rfl
        obtain rfl : node = x := by simpa using heq
        obtain ⟨p, hp, hbp⟩ := h.closed before b rest hbefore hb
        rw [hstack, List.mem_cons, Prod.mk.injEq] at hp
        refine ⟨p, ?_, hbp⟩
        rw [List.concat_eq_append, List.mem_append, List.mem_singleton]
        rcases hp with hp | ⟨rfl, -⟩ | hp
        · exact .inl (.inl hp)
        · exact .inl (.inr rfl)
        · exact .inr hp
    last := fun b e hlast => by
      dsimp only at hlast
      have hne : stack ≠ [] := by
        rintro rfl
        cases hlast
      refine h.last b e ?_
      rw [hstack, List.getLast?_cons_of_ne_nil hne]
      exact hlast
    root_last := fun hempty => by
      dsimp only at hempty
      subst hempty
      rw [List.getLast?_append, List.getLast?_singleton, Option.some_or]
      exact congrArg some (h.last node true (by rw [hstack]; rfl))
    visited := fun b => (h.visited b).trans (or_congr_right (hopened b).symm)
    visited_nodup := h.visited_nodup
    expanded := fun b c hb hc => h.expanded b c ((hopened b).mp hb) hc }

theorem PushSearch.Inv.opening {node : α} {stack : List (α × Bool)} (h : state.Inv next root)
    (hstack : state.stack = (node, false) :: stack) :
    ({ state with
      discoveryOrder :=
        if node = root then state.discoveryOrder else state.discoveryOrder ++ [node]
      stack := (node, true) :: stack } : PushSearch α).Core next root := by
  have hnodup := h.nodup
  rw [hstack, List.map_cons] at hnodup
  have hnode : node ∉ state.postorder ++ stack.map Prod.fst :=
    (List.nodup_cons.mp (List.nodup_middle.mp hnodup)).1
  have hopened : ∀ b, b ∈ state.postorder ∨ (b, true) ∈ (node, true) :: stack ↔
      b = node ∨ state.Opened b := by
    intro b
    unfold PushSearch.Opened
    rw [hstack, List.mem_cons, List.mem_cons, Prod.mk.injEq, Prod.mk.injEq]
    simp only [and_true, Bool.true_eq_false, and_false, false_or]
    rw [or_left_comm]
  have hnot : ¬ state.Opened node := by
    rintro (hmem | hmem)
    · exact hnode (List.mem_append_left _ hmem)
    · rw [hstack, List.mem_cons, Prod.mk.injEq] at hmem
      rcases hmem with ⟨-, h⟩ | hmem
      · cases h
      · exact hnode (List.mem_append_right _ (List.mem_map.mpr ⟨_, hmem, rfl⟩))
  have hfst : ((node, true) :: stack).map Prod.fst = state.stack.map Prod.fst := by
    rw [hstack]
    rfl
  exact {
    nodup := by
      dsimp only
      rw [hfst]
      exact h.nodup
    discovered := fun b => by
      dsimp only
      rw [hfst]
      exact h.discovered b
    reach := h.reach
    waiting := fun front b e back hsplit hb => by
      cases front with
      | nil =>
        cases hsplit
        exact h.waiting [] node false stack (by rw [hstack]; rfl) hb
      | cons first front =>
        rw [List.cons_append, List.cons.injEq] at hsplit
        exact h.waiting ((node, false) :: front) b e back
          (by rw [hstack, List.cons_append, hsplit.2]) hb
    closed := fun before b after hsplit hb => by
      obtain ⟨p, hp, hbp⟩ := h.closed before b after hsplit hb
      refine ⟨p, hp.imp_right fun hp => ?_, hbp⟩
      rw [hstack, List.mem_cons, Prod.mk.injEq] at hp
      exact List.mem_cons_of_mem _ (hp.resolve_left (by simp))
    last := fun b e hlast => by
      dsimp only at hlast
      cases stack with
      | nil =>
        rw [List.getLast?_singleton, Option.some.injEq, Prod.mk.injEq] at hlast
        exact h.last b false (by rw [hstack, ← hlast.1]; rfl)
      | cons frame rest =>
        rw [List.getLast?_cons_cons] at hlast
        exact h.last b e (by rw [hstack, List.getLast?_cons_cons]; exact hlast)
    root_last := fun hempty => by cases hempty
    visited := fun b => by
      refine Iff.trans ?_ (or_congr_right (hopened b).symm)
      dsimp only
      split
      · rename_i hroot
        rw [h.visited b]
        constructor
        · exact fun hb => hb.imp_right .inr
        · rintro (hb | rfl | hb)
          · exact .inl hb
          · exact .inl hroot
          · exact .inr hb
      · rw [List.mem_append, List.mem_singleton, h.visited b]
        tauto
    visited_nodup := by
      dsimp only
      split
      · exact h.visited_nodup
      · rename_i hroot
        refine List.nodup_append.mpr ⟨h.visited_nodup, List.nodup_singleton _, ?_⟩
        rintro b hb c hc rfl
        obtain rfl := List.mem_singleton.mp hc
        exact ((h.visited b).mp hb).elim hroot hnot }

theorem PushSearch.Inv.step (h : state.Inv next root) : (state.step next root).Inv next root := by
  unfold PushSearch.step
  split
  · exact h
  · rename_i node stack hstack
    exact h.close hstack
  · rename_i node stack hstack
    obtain ⟨hcore, hpushed, hall⟩ := (h.opening hstack).pushAll (next node).reverse
      List.mem_cons_self fun c hc => List.mem_reverse.mp hc
    refine { hcore with expanded := fun b c hb hc => ?_ }
    have hb' : b = node ∨ state.Opened b := by
      rcases hb with hb | hb
      · rw [hpushed.postorder] at hb
        exact .inr (.inl hb)
      · rcases List.mem_cons.mp ((hpushed.opened b).mp hb) with heq | hb
        · exact .inl (congrArg Prod.fst heq)
        · exact .inr (.inr (hstack ▸ List.mem_cons_of_mem _ hb))
    rcases hb' with rfl | hb'
    · exact hall c (List.mem_reverse.mpr hc)
    · exact hpushed.grows c (h.expanded b c hb' hc)

/-! ## A whole run -/

/-- Nodes still to discover, and entries still to open or to close. -/
def PushSearch.work (nodes : List α) (state : PushSearch α) : Nat :=
  2 * (nodes.filter (· ∉ state.discovered)).length +
    (state.stack.map fun entry => if entry.2 then 1 else 2).sum

theorem PushSearch.work_push {nodes : List α} (hnodup : nodes.Nodup) (state : PushSearch α)
    {successor : α} (hmem : successor ∈ nodes) :
    (state.push successor).work nodes = state.work nodes := by
  unfold PushSearch.push
  split
  · rfl
  rename_i hnew
  have hperm : (nodes.filter (· ∉ state.discovered)).Perm
      (successor :: nodes.filter (· ∉ successor :: state.discovered)) := by
    refine (List.perm_ext_iff_of_nodup (hnodup.filter _) ?_).mpr fun b => ?_
    · exact List.nodup_cons.mpr ⟨by simp, hnodup.filter _⟩
    · simp only [List.mem_filter, List.mem_cons, decide_eq_true_eq, not_or]
      by_cases hb : b = successor
      · subst hb
        simp [hmem, hnew]
      · simp [hb]
  have hlen := hperm.length_eq
  rw [List.length_cons] at hlen
  unfold PushSearch.work
  simp only [List.map_cons, List.sum_cons, Bool.false_eq_true, if_false]
  omega

theorem PushSearch.work_pushAll {nodes : List α} (hnodup : nodes.Nodup) (row : List α)
    (hrow : ∀ c ∈ row, c ∈ nodes) (state : PushSearch α) :
    (row.foldl PushSearch.push state).work nodes = state.work nodes := by
  induction row generalizing state with
  | nil => rfl
  | cons first row ih =>
    rw [List.foldl_cons, ih fun c hc => hrow c (List.mem_cons_of_mem _ hc),
      state.work_push hnodup (hrow first List.mem_cons_self)]

theorem PushSearch.work_step {nodes : List α} (hnodup : nodes.Nodup)
    (hnext : ∀ b, ∀ c ∈ next b, c ∈ nodes) (hstack : state.stack ≠ []) :
    (state.step next root).work nodes < state.work nodes := by
  unfold PushSearch.step
  split
  · rename_i hempty
    exact absurd hempty hstack
  · rename_i node stack heq
    unfold PushSearch.work
    simp only [heq, List.map_cons, List.sum_cons, if_true]
    omega
  · rename_i node stack heq
    rw [PushSearch.work_pushAll hnodup _ fun c hc => hnext node c (List.mem_reverse.mp hc)]
    unfold PushSearch.work
    simp only [heq, List.map_cons, List.sum_cons, if_true, Bool.false_eq_true, if_false]
    omega

theorem PushSearch.run_done (fuel : Nat) (hstack : state.stack = []) :
    PushSearch.run next root fuel state = state := by
  induction fuel with
  | zero => rfl
  | succ fuel ih =>
    have hsame : state.step next root = state := by
      unfold PushSearch.step
      rw [hstack]
    rw [PushSearch.run, hsame, ih]

theorem PushSearch.Inv.run {nodes : List α} (hnodup : nodes.Nodup)
    (hnext : ∀ b, ∀ c ∈ next b, c ∈ nodes) (fuel : Nat) (h : state.Inv next root)
    (hfuel : state.work nodes ≤ fuel) : (PushSearch.run next root fuel state).Inv next root ∧
      (PushSearch.run next root fuel state).stack = [] := by
  induction fuel generalizing state with
  | zero =>
    refine ⟨h, ?_⟩
    cases hstack : state.stack with
    | nil => exact hstack
    | cons entry stack =>
      unfold PushSearch.work at hfuel
      rw [hstack, List.map_cons, List.sum_cons] at hfuel
      split at hfuel <;> omega
  | succ fuel ih =>
    by_cases hstack : state.stack = []
    · rw [PushSearch.run_done _ hstack]
      exact ⟨h, hstack⟩
    · have : (state.step next root).work nodes < state.work nodes :=
        PushSearch.work_step hnodup hnext hstack
      exact ih h.step (by omega)

/-- What a finished search has found. -/
structure PushSearch.Found (next : α → List α) (root : α) (state : PushSearch α) : Prop where
  finished : state.stack = []
  order : VisitOrder (fun u v => v ∈ next u) root state.postorder.reverse
  discovered : ∀ b, b ∈ state.discovered ↔ ReflTransGen (fun u v => v ∈ next u) root b
  visited : ∀ b, b ∈ state.discoveryOrder ↔ ReflTransGen (fun u v => v ∈ next u) root b
  visited_nodup : state.discoveryOrder.Nodup

omit [DecidableEq α] in
theorem PushSearch.Inv.found (h : state.Inv next root) (hstack : state.stack = []) :
    state.Found next root := by
  have hpostorder : ∀ b, b ∈ state.discovered ↔ b ∈ state.postorder := by
    intro b
    rw [h.discovered, hstack, List.map_nil, List.append_nil]
  have hroot : root ∈ state.postorder := List.mem_of_getLast? (h.root_last hstack)
  have hreach : ∀ b, b ∈ state.discovered ↔ ReflTransGen (fun u v => v ∈ next u) root b := by
    intro b
    refine ⟨h.reach b, fun hb => ?_⟩
    induction hb with
    | refl => exact (hpostorder root).mpr hroot
    | @tail u v _ huv ih => exact h.expanded u v (.inl ((hpostorder u).mp ih)) huv
  have hnodup := h.nodup
  rw [hstack, List.map_nil, List.append_nil] at hnodup
  refine ⟨hstack, ⟨List.nodup_reverse.mpr hnodup, fun b => ?_, ?_, fun i b hi hpos => ?_⟩, hreach,
    fun b => ?_, h.visited_nodup⟩
  · rw [List.mem_reverse, ← hpostorder, hreach]
  · rw [← List.head?_eq_getElem?, List.head?_reverse]
    exact h.root_last hstack
  · obtain ⟨hlt, hget⟩ := List.getElem?_eq_some_iff.mp hi
    have hsplit : state.postorder = (state.postorder.reverse.drop (i + 1)).reverse ++
        b :: (state.postorder.reverse.take i).reverse := by
      have hcut := List.take_append_drop i state.postorder.reverse
      rw [List.drop_eq_getElem_cons hlt, hget] at hcut
      have := congrArg List.reverse hcut
      rw [List.reverse_reverse, List.reverse_append, List.reverse_cons, List.append_assoc] at this
      exact this.symm
    have hb : b ≠ root := by
      rintro rfl
      have hfirst : state.postorder.reverse[0]? = some b := by
        rw [← List.head?_eq_getElem?, List.head?_reverse]
        exact h.root_last hstack
      have := (List.nodup_reverse.mpr hnodup).getElem_inj_iff.mp
        (hget.trans (List.getElem?_eq_some_iff.mp hfirst).2.symm)
      omega
    obtain ⟨p, hp, hbp⟩ := h.closed _ _ _ hsplit hb
    rw [hstack, or_iff_left (List.not_mem_nil), List.mem_reverse] at hp
    obtain ⟨j, hj⟩ := List.getElem?_of_mem hp
    rw [List.getElem?_take] at hj
    split at hj
    · exact ⟨j, p, by assumption, hj, hbp⟩
    · cases hj
  · rw [h.visited, PushSearch.Opened, hstack, ← hreach, hpostorder]
    constructor
    · rintro (rfl | hb | hb)
      · exact hroot
      · exact hb
      · cases hb
    · exact fun hb => .inr (.inl hb)

/-- Two turns for each node are enough. -/
theorem PushSearch.run_found {nodes : List α} (hnodup : nodes.Nodup) (hroot : root ∈ nodes)
    (hnext : ∀ b, ∀ c ∈ next b, c ∈ nodes) :
    (PushSearch.run next root (2 * nodes.length) (PushSearch.start root)).Found next root := by
  have hwork : (PushSearch.start root).work nodes ≤ 2 * nodes.length := by
    have hperm : nodes.Perm
        (root :: nodes.filter (· ∉ (PushSearch.start root).discovered)) := by
      refine (List.perm_ext_iff_of_nodup hnodup ?_).mpr fun b => ?_
      · exact List.nodup_cons.mpr ⟨by simp [PushSearch.start], hnodup.filter _⟩
      · by_cases hb : b = root
        · simp [hb, hroot]
        · simp [PushSearch.start, hb]
    have hlen := hperm.length_eq
    have hstack : (PushSearch.start root).stack = [(root, false)] := rfl
    rw [List.length_cons] at hlen
    unfold PushSearch.work
    rw [hstack, List.map_singleton, List.sum_singleton, if_neg (by simp)]
    omega
  obtain ⟨hinv, hstack⟩ := (PushSearch.Inv.start next root).run hnodup hnext _ hwork
  exact hinv.found hstack

end Search
end Celox.Graph
