import Mathlib

/-! # Checked arithmetic -/
namespace Celox.Analysis

/-- The largest value of `usize`. -/
def usizeMax : Nat := 2 ^ 64 - 1

/-- `usize::checked_add`. -/
def checkedAdd (a b : Nat) : Option Nat := if a + b ≤ usizeMax then some (a + b) else none

end Celox.Analysis
