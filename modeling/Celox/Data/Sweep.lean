import Mathlib

/-! # Sweeping over lifetimes

Items are taken by their starts, and each is given a colour that no item still alive has. Then items
that share a point differ in colour, and a colour is only missing where as many items meet. -/
namespace Celox.Sweep

/-- When items start, and that they are alive up to some end. -/
structure Lifetimes (α P : Type) [LinearOrder P] where
  start : α → P
  alive : α → P → Prop
  alive_of_le : ∀ {item p q}, p ≤ q → alive item q → alive item p

section Sweep
variable {α P C : Type} [LinearOrder P] (l : Lifetimes α P)

def Lifetimes.Covers (item : α) (p : P) : Prop := l.start item ≤ p ∧ l.alive item p

/-- Two items share a point. -/
def Lifetimes.Meet (item other : α) : Prop := ∃ p, l.Covers item p ∧ l.Covers other p

/-- What is known when the sweep is at a point: the items with their colours, and those still kept. -/
structure Lifetimes.Books (given active : List (α × C)) (now : P) : Prop where
  started : ∀ item ∈ given, l.start item.1 ≤ now
  mem_given : ∀ item ∈ active, item ∈ given
  kept : ∀ item ∈ given, l.alive item.1 now → item ∈ active
  distinct : (active.map Prod.snd).Nodup
  safe : given.Pairwise fun item other => item.2 = other.2 → ¬ l.Meet item.1 other.1

variable {l} {given active active' : List (α × C)} {now next : P}

theorem books_nil (now : P) : l.Books ([] : List (α × C)) [] now :=
  ⟨by simp, by simp, by simp, by simp, by simp⟩

theorem Lifetimes.Books.perm (h : l.Books given active now) (hperm : active'.Perm active) :
    l.Books given active' now where
  started := h.started
  mem_given item hitem := h.mem_given item (hperm.mem_iff.mp hitem)
  kept item hitem halive := hperm.mem_iff.mpr (h.kept item hitem halive)
  distinct := (hperm.map Prod.snd).nodup_iff.mpr h.distinct
  safe := h.safe

/-- What has ended may be dropped. -/
theorem Lifetimes.Books.expire (h : l.Books given active now) (hnext : now ≤ next)
    (hsub : active'.Sublist active) (hkeep : ∀ item ∈ active, l.alive item.1 next → item ∈ active') :
    l.Books given active' next where
  started item hitem := (h.started item hitem).trans hnext
  mem_given item hitem := h.mem_given item (hsub.subset hitem)
  kept item hitem halive := hkeep item (h.kept item hitem (l.alive_of_le hnext halive)) halive
  distinct := h.distinct.sublist (hsub.map Prod.snd)
  safe := h.safe

/-- A new item takes a colour that no kept one has. -/
theorem Lifetimes.Books.give (h : l.Books given active now) {item : α} {colour : C}
    (hstart : l.start item = now) (hfree : colour ∉ active.map Prod.snd) :
    l.Books (given ++ [(item, colour)]) ((item, colour) :: active) now where
  started other hother := by
    rcases List.mem_append.mp hother with hother | hother
    · exact h.started other hother
    · rw [List.mem_singleton.mp hother, hstart]
  mem_given other hother := by
    rcases List.mem_cons.mp hother with rfl | hother
    · exact List.mem_append_right _ (List.mem_singleton_self _)
    · exact List.mem_append_left _ (h.mem_given other hother)
  kept other hother halive := by
    rcases List.mem_append.mp hother with hother | hother
    · exact List.mem_cons_of_mem _ (h.kept other hother halive)
    · rw [List.mem_singleton.mp hother]
      exact List.mem_cons_self ..
  distinct := List.nodup_cons.mpr ⟨hfree, h.distinct⟩
  safe := by
    refine List.pairwise_append.mpr ⟨h.safe, List.pairwise_singleton .., ?_⟩
    rintro other hother _ hnew hcolour ⟨p, hcovers, hitem⟩
    obtain rfl := List.mem_singleton.mp hnew
    -- the other one is still alive where the new one starts, so it is kept
    have halive := l.alive_of_le (hstart ▸ hitem.1) hcovers.2
    exact hfree (List.mem_map.mpr ⟨other, h.kept other hother halive, hcolour⟩)

/-- Where all that are kept are alive they meet there. -/
theorem Lifetimes.Books.pressure [DecidablePred fun item => l.Covers item now]
    (h : l.Books given active now) (halive : ∀ item ∈ active, l.alive item.1 now) :
    active.length ≤ (given.map Prod.fst).countP (l.Covers · now) := by
  have hsub : active.Subperm given :=
    List.subperm_of_subset (List.Nodup.of_map _ h.distinct) h.mem_given
  have hall : active.countP (fun item => l.Covers item.1 now) = active.length := by
    rw [List.countP_eq_length]
    exact fun item hitem => decide_eq_true ⟨h.started item (h.mem_given item hitem), halive item hitem⟩
  calc active.length = active.countP (fun item => l.Covers item.1 now) := hall.symm
    _ ≤ given.countP (fun item => l.Covers item.1 now) := hsub.countP_le _
    _ = (given.map Prod.fst).countP (l.Covers · now) := by rw [List.countP_map]; rfl

/-- No more items meet at a point than there are colours. -/
theorem countP_le_colours [DecidableEq C]
    (safe : given.Pairwise fun item other => item.2 = other.2 → ¬ l.Meet item.1 other.1)
    {colours : List C} (hcolours : ∀ item ∈ given, item.2 ∈ colours) (p : P)
    [DecidablePred fun item => l.Covers item p] :
    (given.map Prod.fst).countP (l.Covers · p) ≤ colours.dedup.length := by
  have hnodup : ((given.filter fun item => l.Covers item.1 p).map Prod.snd).Nodup := by
    rw [List.Nodup, List.pairwise_map, List.pairwise_filter]
    refine safe.imp fun hsafe hitem hother heq => ?_
    exact hsafe heq ⟨p, of_decide_eq_true hitem, of_decide_eq_true hother⟩
  have hsub : ((given.filter fun item => l.Covers item.1 p).map Prod.snd).Subperm colours.dedup := by
    refine List.subperm_of_subset hnodup fun colour hcolour => ?_
    obtain ⟨item, hitem, rfl⟩ := List.mem_map.mp hcolour
    exact List.mem_dedup.mpr (hcolours item (List.mem_of_mem_filter hitem))
  rw [List.countP_map, List.countP_eq_length_filter]
  calc (given.filter fun item => l.Covers item.1 p).length
      = ((given.filter fun item => l.Covers item.1 p).map Prod.snd).length := (List.length_map _).symm
    _ ≤ colours.dedup.length := hsub.length_le

/-- Items of one colour in a list do not share a point, wherever they stand. -/
theorem not_meet_of_safe
    (safe : given.Pairwise fun item other => item.2 = other.2 → ¬ l.Meet item.1 other.1)
    {item other : α × C} (hitem : item ∈ given) (hother : other ∈ given) (hne : item ≠ other)
    (hcolour : item.2 = other.2) : ¬ l.Meet item.1 other.1 := by
  have : Std.Symm fun item other : α × C => item.2 = other.2 → ¬ l.Meet item.1 other.1 :=
    ⟨fun a b h hcolour ⟨p, hb, ha⟩ => h hcolour.symm ⟨p, ha, hb⟩⟩
  exact safe.forall hitem hother hne hcolour

end Sweep
end Celox.Sweep
