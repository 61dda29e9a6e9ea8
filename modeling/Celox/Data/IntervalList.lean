import Mathlib

/-! # Lists of intervals

Half-open intervals and the points that a list of them covers. -/
namespace Celox

structure Interval (α : Type) where
  start : α
  stop : α
  deriving Repr, DecidableEq

variable {α : Type} [LinearOrder α]

def Interval.Has (iv : Interval α) (x : α) : Prop := iv.start ≤ x ∧ x < iv.stop

/-- The points of the intervals. -/
def Covered (l : List (Interval α)) (x : α) : Prop := ∃ iv ∈ l, iv.Has x

variable {l xs ys : List (Interval α)} {a : Interval α} {x : α}

@[simp] theorem covered_nil : ¬ Covered ([] : List (Interval α)) x := by simp [Covered]

@[simp] theorem covered_cons : Covered (a :: l) x ↔ a.Has x ∨ Covered l x := by simp [Covered]

@[simp] theorem covered_append : Covered (xs ++ ys) x ↔ Covered xs x ∨ Covered ys x := by
  simp [Covered, or_and_right, exists_or]

end Celox
