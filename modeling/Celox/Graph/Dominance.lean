import Mathlib

/-! # Dominance in a rooted graph

A node dominates another when it lies on every walk from the root to it. Walks that miss a node
are walks along the edges that do not enter it. -/
namespace Celox.Graph
open Relation

section Dominance
variable {α : Type} (E : α → α → Prop) (root : α)

/-- A walk from `a` to `b` that misses `d`. -/
def Avoids (d a b : α) : Prop := a ≠ d ∧ ReflTransGen (fun u v => E u v ∧ v ≠ d) a b

def Dom (d b : α) : Prop := ¬ Avoids E d root b

/-- The dominator other than the node that all others dominate. -/
structure IsIdom (d b : α) : Prop where
  ne : d ≠ b
  dom : Dom E root d b
  least : ∀ e, e ≠ b → Dom E root e b → Dom E root e d

variable {E root} {a b c d e : α}

theorem Avoids.ne_right (h : Avoids E d a b) : b ≠ d := by
  rcases h.2.cases_tail with rfl | ⟨c, -, hcb⟩
  · exact h.1
  · exact hcb.2

theorem Avoids.trans (h : Avoids E d a b) (h' : ReflTransGen (fun u v => E u v ∧ v ≠ d) b c) :
    Avoids E d a c :=
  ⟨h.1, h.2.trans h'⟩

theorem Avoids.step (h : Avoids E d a b) (hbc : E b c) (hc : c ≠ d) : Avoids E d a c :=
  ⟨h.1, h.2.tail ⟨hbc, hc⟩⟩

theorem Dom.refl (b : α) : Dom E root b b := fun h => h.ne_right rfl

theorem dom_root (b : α) : Dom E root root b := fun h => h.1 rfl

/-- A dominator of a node other than the node dominates what leads to it. -/
theorem Dom.of_edge (h : Dom E root d b) (hne : d ≠ b) (hab : E a b) : Dom E root d a :=
  fun ha => h (ha.step hab hne.symm)

theorem walk_imp {R S : α → α → Prop} (h : ReflTransGen R a b) (hRS : ∀ u v, R u v → S u v) :
    ReflTransGen S a b := by
  induction h with
  | refl => exact .refl
  | tail _ hbc ih => exact ih.tail (hRS _ _ hbc)

/-- Dominators of what the root reaches are reached. -/
theorem Dom.reach (h : Dom E root d b) (hb : ReflTransGen E root b) : ReflTransGen E root d := by
  by_contra hd
  refine h ⟨fun heq => hd (heq ▸ .refl), ?_⟩
  clear h
  induction hb with
  | refl => exact .refl
  | @tail u v hu huv ih =>
    refine ih.tail ⟨huv, ?_⟩
    rintro rfl
    exact hd (hu.tail huv)

/-- A dominator leads to what it dominates. -/
theorem Dom.walk (h : Dom E root d b) (hb : ReflTransGen E root b) : ReflTransGen E d b := by
  induction hb with
  | refl =>
    by_contra hno
    exact h ⟨fun heq => hno (heq ▸ .refl), .refl⟩
  | @tail a b _ hab ih =>
    by_cases hdb : d = b
    · exact hdb ▸ .refl
    · exact (ih (h.of_edge hdb hab)).tail hab

/-- The last step of a walk out of a set. -/
theorem exists_exit {R : α → α → Prop} {P : α → Prop} (h : ReflTransGen R a b) (ha : P a)
    (hb : ¬ P b) : ∃ x y, P x ∧ R x y ∧ ¬ P y ∧ ReflTransGen (fun u v => R u v ∧ ¬ P v) y b := by
  induction h with
  | refl => exact absurd ha hb
  | @tail b c _ hbc ih =>
    by_cases hp : P b
    · exact ⟨b, c, hp, hbc, hb, .refl⟩
    · obtain ⟨x, y, hx, hxy, hy, hwalk⟩ := ih hp
      exact ⟨x, y, hx, hxy, hy, hwalk.tail ⟨hbc, hb⟩⟩

/-- A walk to a node that `d` dominates passes `d`, and misses any other node when its two parts
do. -/
theorem Dom.trans (h : Dom E root d b) (h' : Dom E root e d) : Dom E root e b := by
  intro hb
  by_cases hde : d = e
  · exact h (hde ▸ hb)
  · -- the walk to `b` meets `d`; its part up to there misses `e`
    by_cases hmeet : ReflTransGen (fun u v => E u v ∧ v ≠ e) root d
    · exact h' ⟨hb.1, hmeet⟩
    · refine h ⟨?_, ?_⟩
      · rintro rfl
        exact hmeet .refl
      · have hall : ∀ c, ReflTransGen (fun u v => E u v ∧ v ≠ e) root c →
            ReflTransGen (fun u v => E u v ∧ v ≠ d) root c := by
          intro c hc
          induction hc with
          | refl => exact .refl
          | @tail u v hu huv ih =>
            refine ih.tail ⟨huv.1, ?_⟩
            rintro rfl
            exact hmeet (hu.tail huv)
        exact hall b hb.2

/-- Dominance pulls back along a map of graphs that no other node sends to where `d` goes. -/
theorem Dom.of_map {β : Type} {E' : β → β → Prop} {f : α → β}
    (hedge : ∀ u v, ReflTransGen E root u → E u v → E' (f u) (f v))
    (hinj : ∀ v, ReflTransGen E root v → f v = f d → v = d)
    (h : Dom E' (f root) (f d) (f b)) : Dom E root d b := by
  rintro ⟨hne, hwalk⟩
  refine h ⟨fun heq => hne (hinj root .refl heq), ?_⟩
  have hkey : ∀ c, ReflTransGen (fun u v => E u v ∧ v ≠ d) root c → ReflTransGen E root c ∧
      ReflTransGen (fun u v => E' u v ∧ v ≠ f d) (f root) (f c) := by
    intro c hc
    induction hc with
    | refl => exact ⟨.refl, .refl⟩
    | @tail u v _ huv ih =>
      have hv := ih.1.tail huv.1
      exact ⟨hv, ih.2.tail ⟨hedge u v ih.1 huv.1, fun heq => huv.2 (hinj v hv heq)⟩⟩
  exact (hkey b hwalk).2

/-- The first step of a walk into a set. -/
theorem exists_entry {R : α → α → Prop} {P : α → Prop} (h : ReflTransGen R a b) (ha : ¬ P a)
    (hb : P b) : ∃ x y, ReflTransGen (fun u v => R u v ∧ ¬ P v) a x ∧ R x y ∧ P y := by
  induction h using ReflTransGen.head_induction_on with
  | refl => exact absurd hb ha
  | @head a c hac _ ih =>
    by_cases hp : P c
    · exact ⟨a, c, .refl, hac, hp⟩
    · obtain ⟨x, y, hwalk, hxy, hy⟩ := ih hp
      exact ⟨x, y, hwalk.head ⟨hac, hp⟩, hxy, hy⟩

theorem Dom.antisymm (h : Dom E root d b) (h' : Dom E root b d) (hb : ReflTransGen E root b) :
    d = b := by
  by_contra hne
  by_cases hroot : root = d ∨ root = b
  · rcases hroot with rfl | rfl
    · exact h' ⟨hne, .refl⟩
    · exact h ⟨fun heq => hne heq.symm, .refl⟩
  · obtain ⟨x, y, hwalk, hxy, hy⟩ := exists_entry (P := fun v => v = d ∨ v = b) hb hroot (.inr rfl)
    rw [not_or] at hroot
    -- the first of the two nodes on the walk is reached without the other
    rcases hy with rfl | rfl
    · refine h' ⟨hroot.2, ReflTransGen.tail (walk_imp hwalk fun u v huv => ⟨huv.1, ?_⟩) ⟨hxy, hne⟩⟩
      exact fun hv => huv.2 (.inr hv)
    · refine h ⟨hroot.1, ReflTransGen.tail (walk_imp hwalk fun u v huv => ⟨huv.1, ?_⟩)
        ⟨hxy, fun heq => hne heq.symm⟩⟩
      exact fun hv => huv.2 (.inl hv)

/-! ## Immediate dominators -/

theorem dom_root_eq (h : Dom E root d root) : d = root := by
  by_contra hne
  exact h ⟨fun heq => hne heq.symm, .refl⟩

theorem IsIdom.reach (h : IsIdom E root d b) (hb : ReflTransGen E root b) :
    ReflTransGen E root d :=
  h.dom.reach hb

theorem IsIdom.ne_root (h : IsIdom E root d b) : b ≠ root := by
  rintro rfl
  exact h.ne (dom_root_eq h.dom)

theorem IsIdom.unique (h : IsIdom E root d b) (h' : IsIdom E root e b)
    (hb : ReflTransGen E root b) : d = e :=
  Dom.antisymm (h'.least d h.ne h.dom) (h.least e h'.ne h'.dom) (h'.reach hb)

/-- A proper dominator of the target with an edge to it is the immediate one. -/
theorem IsIdom.of_edge (h : Dom E root d b) (hne : d ≠ b) (hdb : E d b) : IsIdom E root d b :=
  ⟨hne, h, fun _ hne' he => he.of_edge hne' hdb⟩

/-- Every node but the root has an immediate dominator. -/
def HasIdoms (E : α → α → Prop) (root : α) : Prop :=
  ∀ b, ReflTransGen E root b → b ≠ root → ∃ d, IsIdom E root d b

/-- What passes from immediate dominators on holds of all nodes that are reached. -/
theorem idom_induction {P : α → Prop} (hidoms : HasIdoms E root) (hroot : P root)
    (hstep : ∀ b d, ReflTransGen E root b → IsIdom E root d b → P d → P b)
    (hb : ReflTransGen E root b) : P b := by
  -- along a walk all dominators of its end have the property
  have hall : ∀ c, ReflTransGen E root c → ∀ d, Dom E root d c → P d := by
    intro c hc
    induction hc with
    | refl => exact fun d hd => dom_root_eq hd ▸ hroot
    | @tail a c ha hac ih =>
      intro d hd
      by_cases hdc : d = c
      · by_cases hcr : c = root
        · exact hdc ▸ hcr ▸ hroot
        · obtain ⟨i, hi⟩ := hidoms c (ha.tail hac) hcr
          exact hdc ▸ hstep c i (ha.tail hac) hi (ih i (hi.dom.of_edge hi.ne hac))
      · exact ih d (hd.of_edge hdc hac)
  exact hall b hb b (.refl b)

/-- The dominators of a node are its ancestors in the tree of immediate dominators. -/
theorem Dom.chain (hidoms : HasIdoms E root) (hb : ReflTransGen E root b) (h : Dom E root d b) :
    ReflTransGen (IsIdom E root) d b := by
  refine idom_induction (P := fun b => Dom E root d b → ReflTransGen (IsIdom E root) d b) hidoms
    (fun h => dom_root_eq h ▸ .refl) (fun b i _ hi ih h => ?_) hb h
  by_cases hdb : d = b
  · exact hdb ▸ .refl
  · exact (ih (hi.least d hdb h)).tail hi

theorem Dom.of_chain (h : ReflTransGen (IsIdom E root) d b) : Dom E root d b := by
  induction h with
  | refl => exact .refl d
  | tail _ hbc ih => exact hbc.dom.trans ih

/-- Of two dominators of a node one dominates the other. -/
theorem Dom.total (hidoms : HasIdoms E root) (hb : ReflTransGen E root b) (h : Dom E root d b)
    (h' : Dom E root e b) : Dom E root d e ∨ Dom E root e d := by
  refine idom_induction
    (P := fun b => Dom E root d b → Dom E root e b → Dom E root d e ∨ Dom E root e d) hidoms
    (fun h h' => .inl (dom_root_eq h' ▸ h)) (fun b i _ hi ih h h' => ?_) hb h h'
  by_cases hdb : d = b
  · exact .inr (hdb ▸ h')
  · by_cases heb : e = b
    · exact .inl (heb ▸ h)
    · exact ih (hi.least d hdb h) (hi.least e heb h')

/-! ## Frontiers -/

/-- The nodes where the dominance of `b` ends. -/
def InFrontier (E : α → α → Prop) (root b y : α) : Prop :=
  ∃ p, ReflTransGen E root p ∧ Dom E root b p ∧ E p y ∧ ¬ (Dom E root b y ∧ b ≠ y)

/-- A frontier comes from the edges of the node and from the frontiers of its children. -/
theorem inFrontier_iff (hidoms : HasIdoms E root) {y : α} (hb : ReflTransGen E root b) :
    InFrontier E root b y ↔ ¬ IsIdom E root b y ∧
      (E b y ∨ ∃ c, ReflTransGen E root c ∧ IsIdom E root b c ∧ InFrontier E root c y) := by
  constructor
  · rintro ⟨p, hp, hbp, hpy, hno⟩
    refine ⟨fun hidom => hno ⟨hidom.dom, hidom.ne⟩, ?_⟩
    rcases (hbp.chain hidoms hp).cases_head with rfl | ⟨c, hbc, hcp⟩
    · exact .inl hpy
    · have hcdom : Dom E root c p := .of_chain hcp
      have hc := hcdom.reach hp
      refine .inr ⟨c, hc, hbc, p, hp, hcdom, hpy, fun ⟨hcy, hne⟩ => hno ⟨hcy.trans hbc.dom, ?_⟩⟩
      rintro rfl
      exact hbc.ne (hbc.dom.antisymm hcy hc)
  · rintro ⟨hno, hby | ⟨c, hc, hbc, p, hp, hcp, hpy, hcy⟩⟩
    · exact ⟨b, hb, .refl b, hby, fun ⟨hdom, hne⟩ => hno (.of_edge hdom hne hby)⟩
    · refine ⟨p, hp, hcp.trans hbc.dom, hpy, fun ⟨hdom, hne⟩ => ?_⟩
      have hy : ReflTransGen E root y := hp.tail hpy
      have hyr : y ≠ root := by
        rintro rfl
        exact hne (dom_root_eq hdom)
      obtain ⟨i, hi⟩ := hidoms y hy hyr
      have hbi := hi.least b hne hdom
      have hib : i ≠ b := fun heq => hno (heq ▸ hi)
      have hne' : c ≠ y := fun heq => hno (heq ▸ hbc)
      -- `c` and the immediate dominator of `y` both dominate `p`
      rcases hcp.total hidoms hp (hi.dom.of_edge hi.ne hpy) with hci | hic
      · exact hcy ⟨hi.dom.trans hci, hne'⟩
      · by_cases heq : i = c
        · exact hcy ⟨heq ▸ hi.dom, hne'⟩
        · exact hib ((hbc.least i heq hic).antisymm hbi hb)

end Dominance

/-! ## Natural loops

The loop of a header has the header and what leads to one of its latches without passing the header.
Two loops that meet are nested. -/

section Loop
variable {α : Type} (E : α → α → Prop) (root : α)

/-- The source of an edge back to a dominator. -/
def Latch (h t : α) : Prop := E t h ∧ Dom E root h t

/-- A header without a latch has no loop. -/
def InLoop (h x : α) : Prop :=
  (∃ t, Latch E root h t) ∧ (x = h ∨ ∃ t, Latch E root h t ∧ Avoids E h x t)

variable {E root} {h h' x y t : α}

theorem InLoop.of_avoids (ht : Latch E root h t) (hx : Avoids E h x t) : InLoop E root h x :=
  ⟨⟨t, ht⟩, .inr ⟨t, ht, hx⟩⟩

theorem InLoop.dom (hx : InLoop E root h x) : Dom E root h x := by
  obtain ⟨-, rfl | ⟨t, ht, havoids⟩⟩ := hx
  · exact .refl _
  · exact fun hroot => ht.2 (hroot.trans havoids.2)

/-- What leads to a block of the loop without passing the header is in the loop. -/
theorem InLoop.back (hx : InLoop E root h x) (hy : Avoids E h y x) : InLoop E root h y := by
  obtain ⟨-, rfl | ⟨t, ht, havoids⟩⟩ := hx
  · exact absurd rfl hy.ne_right
  · exact .of_avoids ht (hy.trans havoids.2)

/-- A walk within the loop. -/
def Inside (E : α → α → Prop) (root h : α) : α → α → Prop :=
  ReflTransGen fun u v => E u v ∧ InLoop E root h v

theorem Inside.of_avoids (hx : InLoop E root h x) (hy : Avoids E h y x) : Inside E root h y x := by
  obtain ⟨hne, hwalk⟩ := hy
  induction hwalk with
  | refl => exact .refl
  | @tail u v huv hstep ih =>
    have havoids : Avoids E h y u := ⟨hne, huv⟩
    have hu : InLoop E root h u := hx.back ⟨havoids.ne_right, .single hstep⟩
    exact (ih hu).tail ⟨hstep.1, hx⟩

/-- A loop leads back to its header. -/
theorem InLoop.to_header (hx : InLoop E root h x) : Inside E root h x h := by
  obtain ⟨hlatch, rfl | ⟨t, ht, havoids⟩⟩ := hx
  · exact .refl
  · have hin : InLoop E root h t := .of_avoids ht ⟨havoids.ne_right, .refl⟩
    exact (Inside.of_avoids hin havoids).tail ⟨ht.1, hlatch, .inl rfl⟩

theorem InLoop.of_header (hx : InLoop E root h x) (hreach : ReflTransGen E root x) :
    Inside E root h h x := by
  by_cases heq : x = h
  · exact heq ▸ .refl
  · -- the walk after its last visit of the header
    obtain ⟨u, v, rfl, huv, hv, hwalk⟩ := exists_exit (P := (· = h)) (hx.dom.walk hreach) rfl heq
    have havoids : Avoids E u v x := ⟨hv, hwalk⟩
    exact ReflTransGen.head ⟨huv, hx.back havoids⟩ (Inside.of_avoids hx havoids)

/-- Of two loops that meet, the one with the dominated header lies within the other and misses the
other header. -/
theorem InLoop.nested (hx : InLoop E root h x) (hx' : InLoop E root h' x)
    (hreach : ReflTransGen E root x) (hdom : Dom E root h h') (hne : h ≠ h') :
    ¬ InLoop E root h' h ∧ ∀ y, InLoop E root h' y → InLoop E root h y := by
  have hout : ¬ InLoop E root h' h := fun hin =>
    hne (hdom.antisymm hin.dom (hx'.dom.reach hreach))
  refine ⟨hout, fun y hy => ?_⟩
  have hmiss : ∀ z, InLoop E root h' z → z ≠ h := fun z hz heq => hout (heq ▸ hz)
  have hwalk : Inside E root h' y x := hy.to_header.trans (hx'.of_header hreach)
  exact hx.back ⟨hmiss y hy, walk_imp hwalk fun u v huv => ⟨huv.1, hmiss v huv.2⟩⟩

/-- Two loops are disjoint, or one of them lies within the other and misses its header. -/
theorem InLoop.apart_or_nested (hidoms : HasIdoms E root) (hne : h ≠ h')
    (hreach : ∀ x, InLoop E root h x → ReflTransGen E root x) :
    (∀ x, InLoop E root h x → ¬ InLoop E root h' x) ∨
      (¬ InLoop E root h' h ∧ ∀ y, InLoop E root h' y → InLoop E root h y) ∨
      (¬ InLoop E root h h' ∧ ∀ y, InLoop E root h y → InLoop E root h' y) := by
  by_cases hmeet : ∃ x, InLoop E root h x ∧ InLoop E root h' x
  · obtain ⟨x, hx, hx'⟩ := hmeet
    right
    rcases hx.dom.total hidoms (hreach x hx) hx'.dom with hdom | hdom
    · exact .inl (hx.nested hx' (hreach x hx) hdom hne)
    · exact .inr (hx'.nested hx (hreach x hx) hdom hne.symm)
  · exact .inl fun x hx hx' => hmeet ⟨x, hx, hx'⟩

end Loop
end Celox.Graph
