import Mathlib

/-! # Reordering by swaps of independent neighbours

A permutation of a list that keeps all dependent pairs in order is reached by swapping neighbours
that do not depend on each other. -/
namespace Celox.Data

variable {α β : Type*}

/-- Like `List.Perm`, but neighbours change places only where they may. -/
inductive Swaps (may : α → α → Prop) : List α → List α → Prop
  | refl (l) : Swaps may l l
  | cons (x) {l l'} : Swaps may l l' → Swaps may (x :: l) (x :: l')
  | swap {x y} (l) : may x y → Swaps may (x :: y :: l) (y :: x :: l)
  | trans {l l' l''} : Swaps may l l' → Swaps may l' l'' → Swaps may l l''

namespace Swaps
variable {may : α → α → Prop} {l l' : List α}

theorem perm (h : Swaps may l l') : l.Perm l' := by
  induction h with
  | refl => exact .refl _
  | cons x _ ih => exact ih.cons x
  | swap l _ => exact .swap _ _ l
  | trans _ _ ih ih' => exact ih.trans ih'

theorem mono {may' : α → α → Prop} (hmay : ∀ x y, may x y → may' x y) (h : Swaps may l l') :
    Swaps may' l l' := by
  induction h with
  | refl => exact .refl _
  | cons x _ ih => exact ih.cons x
  | swap l hswap => exact .swap l (hmay _ _ hswap)
  | trans _ _ ih ih' => exact ih.trans ih'

/-- An element is moved to the front of all that it may be swapped with. -/
theorem front {x : α} {before : List α} (after : List α) (h : ∀ a ∈ before, may a x) :
    Swaps may (before ++ x :: after) (x :: (before ++ after)) := by
  induction before with
  | nil => exact .refl _
  | cons a before ih =>
    obtain ⟨ha, hbefore⟩ := List.forall_mem_cons.mp h
    exact (cons a (ih hbefore)).trans (swap _ ha)

/-- Where the old order is `R` and the new one never turns a dependent pair round, each swap is of an
independent pair in the old order. -/
theorem of_pairwise {R dep : α → α → Prop} (hperm : l.Perm l') (hold : l.Pairwise R)
    (hnew : l'.Pairwise fun a b => ¬ dep b a) : Swaps (fun a b => R a b ∧ ¬ dep a b) l l' := by
  induction l' generalizing l with
  | nil =>
    rw [List.perm_nil.mp hperm]
    exact .refl _
  | cons x l' ih =>
    obtain ⟨before, after, rfl⟩ := List.append_of_mem (hperm.mem_iff.mpr List.mem_cons_self)
    have hrest : (before ++ after).Perm l' := (List.perm_middle.symm.trans hperm).cons_inv
    obtain ⟨hx, hnew⟩ := List.pairwise_cons.mp hnew
    have hbefore : ∀ a ∈ before, R a x ∧ ¬ dep a x := fun a ha =>
      ⟨(List.pairwise_append.mp hold).2.2 a ha x List.mem_cons_self,
        hx a (hrest.mem_iff.mp (List.mem_append_left _ ha))⟩
    have hsub : (before ++ after).Sublist (before ++ x :: after) :=
      (List.sublist_cons_self _ _).append_left _
    exact (front after hbefore).trans (cons x (ih hrest (hold.sublist hsub) hnew))

/-- Swaps carry over to the images. -/
theorem filterMap {may' : β → β → Prop} {f : α → Option β}
    (hmay : ∀ x y, may x y → ∀ a b, f x = some a → f y = some b → may' a b)
    (h : Swaps may l l') : Swaps may' (l.filterMap f) (l'.filterMap f) := by
  induction h with
  | refl => exact .refl _
  | cons x _ ih =>
    simp only [List.filterMap_cons]
    split
    · exact ih
    · exact ih.cons _
  | @swap x y l hswap =>
    simp only [List.filterMap_cons]
    cases hx : f x with
    | none => exact .refl _
    | some a =>
      cases hy : f y with
      | none => exact .refl _
      | some b => exact .swap _ (hmay x y hswap a b hx hy)
  | trans _ _ ih ih' => exact ih.trans ih'

end Swaps
end Celox.Data
