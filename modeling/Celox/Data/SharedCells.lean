import Mathlib

/-! # Cells behind shared pointers

Places hold pointers to cells, and several places may hold the same one. What a write shows is
what it changes at the places: one place if the pointer is new or held nowhere else. -/
namespace Celox.Shared

abbrev Ptr := Nat

variable {L C : Type} {ptr : L → Option Ptr} {cell : Ptr → C} {place : L} {p next : Ptr}

/-- The place holds the pointer, and no other place does. -/
def Exclusive (ptr : L → Option Ptr) (place : L) (p : Ptr) : Prop :=
  ptr place = some p ∧ ∀ other, ptr other = some p → other = place

/-- A pointer no place holds belongs to the place it is given to. -/
theorem exclusive_update [DecidableEq L] (hfresh : ∀ other p, ptr other = some p → p < next) :
    Exclusive (Function.update ptr place (some next)) place next := by
  refine ⟨Function.update_self .., fun other hother => ?_⟩
  by_contra hne
  rw [Function.update_of_ne hne] at hother
  exact Nat.lt_irrefl next (hfresh other next hother)

/-- A new cell given to one place. -/
theorem map_fresh [DecidableEq L] (hfresh : ∀ other p, ptr other = some p → p < next) (c : C)
    (other : L) :
    (Function.update ptr place (some next) other).map (Function.update cell next c) =
      if other = place then some c else (ptr other).map cell := by
  by_cases h : other = place
  · subst h
    simp
  · rw [Function.update_of_ne h, if_neg h]
    cases hp : ptr other with
    | none => rfl
    | some p =>
      exact congrArg some (Function.update_of_ne (Nat.ne_of_lt (hfresh other p hp)) c cell)

variable (cell) in
/-- A write to a cell that one place has for itself. -/
theorem map_exclusive [DecidableEq L] (h : Exclusive ptr place p) (c : C) (other : L) :
    (ptr other).map (Function.update cell p c) =
      if other = place then some c else (ptr other).map cell := by
  by_cases hother : other = place
  · subst hother
    simp [h.1]
  · rw [if_neg hother]
    cases hq : ptr other with
    | none => rfl
    | some q =>
      have hne : q ≠ p := fun heq => hother (h.2 other (hq.trans (congrArg some heq)))
      exact congrArg some (Function.update_of_ne hne c cell)

end Celox.Shared
