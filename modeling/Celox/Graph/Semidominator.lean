import Celox.Graph.Dominance

/-! # Semidominators in a depth-first numbering

Nodes are numbered from 1 in the order a depth-first search finds them. The semidominator of a
node is the least node with a walk to it through greater numbers; it leads to the immediate
dominator. -/
namespace Celox.Graph
open Relation

section Semidominator
variable (size : Nat) (E : Nat → Nat → Prop) (parent : Nat → Nat)

def TreeEdge (u v : Nat) : Prop := 1 < v ∧ v ≤ size ∧ u = parent v

/-- Tree ancestors, the node itself included. -/
def Anc (a b : Nat) : Prop := ReflTransGen (TreeEdge size parent) a b

/-- A depth-first numbering of a graph: an edge to a greater number follows the tree, and the
descendants of a node are consecutive. -/
structure DfsTree : Prop where
  range : ∀ u v, E u v → 1 ≤ u ∧ u ≤ size ∧ 1 ≤ v ∧ v ≤ size
  parent_pos : ∀ v, 1 < v → v ≤ size → 1 ≤ parent v
  parent_lt : ∀ v, 1 < v → v ≤ size → parent v < v
  parent_edge : ∀ v, 1 < v → v ≤ size → E (parent v) v
  forward : ∀ u v, E u v → u < v → Anc size parent u v
  interval : ∀ a b c, Anc size parent a b → a ≤ c → c ≤ b → Anc size parent a c

/-- A walk from `v` to `w` whose inner nodes are greater than `w`. -/
def SemiWalk (v w : Nat) : Prop :=
  ∃ u, ReflTransGen (fun a b => E a b ∧ w < b) v u ∧ E u w

structure IsSemi (w s : Nat) : Prop where
  walk : SemiWalk E s w
  least : ∀ v, SemiWalk E v w → s ≤ v

variable {size E parent} {a b c d e s u v w x y : Nat}

/-! ## Ancestors -/

theorem Anc.refl (a : Nat) : Anc size parent a a := ReflTransGen.refl

theorem Anc.trans (h : Anc size parent a b) (h' : Anc size parent b c) : Anc size parent a c :=
  ReflTransGen.trans h h'

theorem Anc.of_parent (h : 1 < v) (hv : v ≤ size) : Anc size parent (parent v) v :=
  ReflTransGen.single ⟨h, hv, rfl⟩

/-- A proper ancestor is an ancestor of the parent. -/
theorem Anc.of_ne (h : Anc size parent a b) (hne : a ≠ b) :
    1 < b ∧ b ≤ size ∧ Anc size parent a (parent b) := by
  rcases ReflTransGen.cases_tail h with heq | ⟨c, hac, h1, hb, rfl⟩
  · exact absurd heq.symm hne
  · exact ⟨h1, hb, hac⟩

namespace DfsTree
variable (t : DfsTree size E parent)
include t

/-- A tree walk goes along edges to ever greater numbers. -/
theorem anc_walk (h : Anc size parent a b) :
    ReflTransGen (fun u v => E u v ∧ a < v ∧ v ≤ b) a b ∧ a ≤ b := by
  induction h with
  | refl => exact ⟨.refl, le_refl _⟩
  | @tail b c _ hbc ih =>
    obtain ⟨h1, hc, rfl⟩ := hbc
    have hlt := t.parent_lt c h1 hc
    refine ⟨ReflTransGen.tail (walk_imp ih.1 fun u v huv => ⟨huv.1, huv.2.1, by omega⟩)
      ⟨t.parent_edge c h1 hc, by omega, le_refl c⟩, by omega⟩

theorem anc_le (h : Anc size parent a b) : a ≤ b := (t.anc_walk h).2

theorem anc_le_parent (h : Anc size parent a b) (hne : a ≠ b) : a ≤ parent b :=
  t.anc_le (h.of_ne hne).2.2

theorem root_anc (hv : 1 ≤ v) (hsize : v ≤ size) : Anc size parent 1 v := by
  induction v using Nat.strong_induction_on with
  | _ v ih =>
    by_cases h1 : v = 1
    · subst h1
      exact .refl 1
    · have hlt := t.parent_lt v (by omega) hsize
      have hpos := t.parent_pos v (by omega) hsize
      exact (ih _ hlt hpos (by omega)).trans (Anc.of_parent (by omega) hsize)

/-- Walks that stay above their start stay below it in the tree. -/
theorem anc_of_walk (h : ReflTransGen (fun u v => E u v ∧ a ≤ v) a b) :
    Anc size parent a b := by
  induction h with
  | refl => exact .refl a
  | @tail b c _ hbc ih =>
    by_cases hlt : b < c
    · exact ih.trans (t.forward b c hbc.1 hlt)
    · exact t.interval a b c ih hbc.2 (by omega)

end DfsTree

/-! ## Semidominators -/

theorem SemiWalk.of_edge (h : E v w) : SemiWalk E v w := ⟨v, .refl, h⟩

/-- The least node of a walk above `a`, first reached. -/
theorem exists_least (h : TransGen (fun u v => E u v ∧ a < v) x b) :
    ∃ y, a < y ∧ SemiWalk E x y ∧ ReflTransGen (fun u v => E u v ∧ y ≤ v) y b := by
  induction h with
  | @single b hxb => exact ⟨b, hxb.2, .of_edge hxb.1, .refl⟩
  | @tail b c _ hbc ih =>
    obtain ⟨y, hy, ⟨u, hxu, huy⟩, hyb⟩ := ih
    by_cases hle : y ≤ c
    · exact ⟨y, hy, ⟨u, hxu, huy⟩, hyb.tail ⟨hbc.1, hle⟩⟩
    · refine ⟨c, hbc.2, ⟨b, ?_, hbc.1⟩, .refl⟩
      have hfirst : ReflTransGen (fun u v => E u v ∧ c < v) x u :=
        walk_imp hxu fun _ _ h => ⟨h.1, by omega⟩
      have hsecond : ReflTransGen (fun u v => E u v ∧ c < v) y b :=
        walk_imp hyb fun _ _ h => ⟨h.1, by omega⟩
      exact (hfirst.tail ⟨huy, by omega⟩).trans hsecond

namespace DfsTree
variable (t : DfsTree size E parent)
include t

/-- The inner nodes of a walk to `w` may be left out up to the least of them. -/
theorem semiWalk_cases (h : SemiWalk E x w) :
    E x w ∨ ∃ y v, w < y ∧ SemiWalk E x y ∧ Anc size parent y v ∧ E v w := by
  obtain ⟨u, hwalk, huw⟩ := h
  rcases reflTransGen_iff_eq_or_transGen.mp hwalk with rfl | hwalk
  · exact .inl huw
  · obtain ⟨y, hy, hsemi, hrest⟩ := exists_least hwalk
    exact .inr ⟨y, u, hy, hsemi, t.anc_of_walk hrest, huw⟩

theorem semiWalk_of_anc (h : SemiWalk E x u) (hu : w < u) (hanc : Anc size parent u v)
    (hvw : E v w) : SemiWalk E x w := by
  obtain ⟨z, hxz, hzu⟩ := h
  refine ⟨v, ?_, hvw⟩
  have hfirst : ReflTransGen (fun a b => E a b ∧ w < b) x z :=
    walk_imp hxz fun _ _ h => ⟨h.1, by omega⟩
  have hsecond : ReflTransGen (fun a b => E a b ∧ w < b) u v :=
    walk_imp (t.anc_walk hanc).1 fun _ _ h => ⟨h.1, by omega⟩
  exact (hfirst.tail ⟨hzu, hu⟩).trans hsecond

theorem exists_isSemi (h : 1 < w) (hw : w ≤ size) : ∃ s, IsSemi E w s := by
  classical
  have hex : ∃ v, SemiWalk E v w := ⟨parent w, .of_edge (t.parent_edge w h hw)⟩
  exact ⟨Nat.find hex, Nat.find_spec hex, fun v hv => Nat.find_min' hex hv⟩

theorem semi_le_parent (hs : IsSemi E w s) (h : 1 < w) (hw : w ≤ size) : s ≤ parent w :=
  hs.least _ (.of_edge (t.parent_edge w h hw))

theorem semi_lt (hs : IsSemi E w s) (h : 1 < w) (hw : w ≤ size) : s < w :=
  (t.semi_le_parent hs h hw).trans_lt (t.parent_lt w h hw)

/-- The semidominator is a proper ancestor. -/
theorem semi_anc (hs : IsSemi E w s) (h : 1 < w) (hw : w ≤ size) : Anc size parent s w := by
  have hlt := t.semi_lt hs h hw
  obtain ⟨u, hwalk, huw⟩ := hs.walk
  refine t.anc_of_walk (ReflTransGen.tail (walk_imp hwalk fun _ _ h => ⟨h.1, by omega⟩)
    ⟨huw, by omega⟩)

theorem semi_pos (hs : IsSemi E w s) : 1 ≤ s := by
  obtain ⟨u, hwalk, huw⟩ := hs.walk
  rcases hwalk.cases_head with rfl | ⟨c, hsc, -⟩
  · exact (t.range _ _ huw).1
  · exact (t.range _ _ hsc.1).1

/-! ## Immediate dominators -/

/-- Dominators are ancestors. -/
theorem dom_anc (h : Dom E 1 d b) (hb : 1 ≤ b) (hsize : b ≤ size) : Anc size parent d b := by
  by_contra hno
  have hwalk : ∀ c, Anc size parent 1 c → ¬ Anc size parent d c → Avoids E d 1 c := by
    intro c hc
    induction hc with
    | refl => exact fun hd => ⟨fun heq => hd (heq ▸ .refl 1), .refl⟩
    | @tail b c _ hbc ih =>
      intro hd
      obtain ⟨h1, hc, rfl⟩ := hbc
      have hparent : Anc size parent (parent c) c := .of_parent h1 hc
      refine (ih fun h => hd (h.trans hparent)).step (t.parent_edge c h1 hc) ?_
      rintro rfl
      exact hd (.refl _)
  exact h (hwalk b (t.root_anc hb hsize) hno)

/-- A proper dominator dominates the semidominator. -/
theorem dom_semi (hs : IsSemi E w s) (h1 : 1 < w) (hw : w ≤ size) (h : Dom E 1 e w)
    (hne : e ≠ w) : Dom E 1 e s := by
  intro havoid
  have hle := t.anc_le (t.dom_anc h (by omega) hw)
  obtain ⟨u, hwalk, huw⟩ := hs.walk
  refine h ((havoid.trans (walk_imp hwalk fun _ _ h => ⟨h.1, ?_⟩)).step huw hne.symm)
  have := h.2
  omega

/-- A walk that misses an ancestor `d` of `w` enters the nodes between them from below. -/
theorem exists_bypass (hd : 1 ≤ d) (hlt : d < w) (h : Avoids E d 1 w) :
    ∃ x y, x < d ∧ d < y ∧ SemiWalk E x y ∧ Anc size parent y w := by
  have hroot : 1 < d := lt_of_le_of_ne hd h.1
  obtain ⟨x, z, hx, hxz, hz, hwalk⟩ :=
    exists_exit (P := (· < d)) h.2 hroot (by omega)
  have hwalk' : TransGen (fun u v => E u v ∧ d < v) x w := by
    refine TransGen.head' ⟨hxz.1, by have := hxz.2; omega⟩ (walk_imp hwalk fun u v huv => ⟨huv.1.1, ?_⟩)
    have := huv.1.2
    have := huv.2
    omega
  obtain ⟨y, hy, hsemi, hrest⟩ := exists_least hwalk'
  exact ⟨x, y, hx, hy, hsemi, t.anc_of_walk hrest⟩

/-- The semidominator is the immediate dominator when no node between has a smaller one. -/
theorem isIdom_of_semi (hs : IsSemi E w s) (h1 : 1 < w) (hw : w ≤ size)
    (hleast : ∀ u su, s < u → Anc size parent u w → IsSemi E u su → s ≤ su) : IsIdom E 1 s w := by
  have hlt := t.semi_lt hs h1 hw
  refine ⟨by omega, fun havoid => ?_, fun e hne hdom => t.dom_semi hs h1 hw hdom hne⟩
  obtain ⟨x, y, hx, hy, hsemi, hanc⟩ := t.exists_bypass (t.semi_pos hs) hlt havoid
  have hyw := t.anc_le hanc
  obtain ⟨sy, hsy⟩ := t.exists_isSemi (w := y) (by have := t.semi_pos hs; omega) (by omega)
  have := hsy.least x hsemi
  have := hleast y sy hy hanc hsy
  omega

/-- Else it is the immediate dominator of the node between with the least semidominator. -/
theorem isIdom_of_relative {su : Nat} (hs : IsSemi E w s) (h1 : 1 < w) (hw : w ≤ size)
    (hsu : s < u) (huw : Anc size parent u w) (hu : IsSemi E u su)
    (hleast : ∀ u' su', s < u' → Anc size parent u' w → IsSemi E u' su' → su ≤ su')
    (hd : IsIdom E 1 d u) : IsIdom E 1 d w := by
  have hspos := t.semi_pos hs
  have huw' := t.anc_le huw
  have hdanc := t.dom_anc hd.dom (by omega) (by omega)
  have hdu : d < u := lt_of_le_of_ne (t.anc_le hdanc) hd.ne
  have hdpos : 1 ≤ d := by
    by_contra h0
    exact hd.dom ⟨by omega, walk_imp (t.anc_walk (t.root_anc (by omega) (by omega))).1
      fun _ _ h => ⟨h.1, by omega⟩⟩
  -- `d` dominates the semidominator of `u`
  have hdsu : d ≤ su := by
    have hdom := t.dom_semi hu (by omega) (by omega) hd.dom hd.ne
    have hsulr := t.semi_lt hu (by omega) (by omega)
    exact t.anc_le (t.dom_anc hdom (t.semi_pos hu) (by omega))
  refine ⟨by omega, fun havoid => ?_, fun e hne hdom => ?_⟩
  · obtain ⟨x, y, hx, hy, hsemi, hanc⟩ := t.exists_bypass hdpos (by omega) havoid
    have hyw := t.anc_le hanc
    obtain ⟨sy, hsy⟩ := t.exists_isSemi (w := y) (by omega) (by omega)
    have hsyx := hsy.least x hsemi
    by_cases hbetween : s < y
    · have := hleast y sy hbetween hanc hsy
      omega
    · -- `y` is above `u`, and a walk through it misses `d`
      have hsanc := t.semi_anc hs h1 hw
      have hys := t.interval y w s hanc (by omega) (t.anc_le hsanc)
      have hyu := hys.trans (t.interval s w u hsanc (by omega) huw')
      have hsypos := t.semi_pos hsy
      have hsyy := t.semi_lt hsy (by omega) (by omega)
      have hup := (t.anc_walk (t.root_anc hsypos (by omega))).1
      obtain ⟨z, hwalk, hzy⟩ := hsy.walk
      have hto : Avoids E d 1 sy := ⟨by omega, walk_imp hup fun _ _ h => ⟨h.1, by omega⟩⟩
      have hto' : Avoids E d 1 y :=
        (hto.trans (walk_imp hwalk fun _ _ h => ⟨h.1, by omega⟩)).step hzy (by omega)
      exact hd.dom (hto'.trans (walk_imp (t.anc_walk hyu).1 fun _ _ h => ⟨h.1, by omega⟩))
  · have hes := t.dom_semi hs h1 hw hdom hne
    have hsw := t.semi_lt hs h1 hw
    have hle := t.anc_le (t.dom_anc hes hspos (by omega))
    refine hd.least e (by omega) fun havoid => hdom ?_
    exact havoid.trans (walk_imp (t.anc_walk huw).1 fun _ _ h => ⟨h.1, by omega⟩)

end DfsTree
end Semidominator
end Celox.Graph
