import Mathlib

/-! # Parities of bits

Positions of bits, some of them more than once, are read one after the other or all at once through
a mask. Both give the same parity where the mask has the positions that occur an odd number of
times. -/
namespace Celox.Bits

/-- The number of positions, as often as they occur, at which a value has a one. -/
theorem countP_testBit (value : Nat) {positions : List Nat} {n : Nat}
    (h : ∀ p ∈ positions, p < n) : positions.countP value.testBit =
      ∑ p ∈ Finset.range n, if value.testBit p then positions.count p else 0 := by
  induction positions with
  | nil => simp
  | cons q positions ih =>
    obtain ⟨hq, hrest⟩ := List.forall_mem_cons.mp h
    have hsplit : ∀ p, (if value.testBit p then (q :: positions).count p else 0) =
        (if value.testBit p then positions.count p else 0) +
          if q = p then (if value.testBit q then 1 else 0) else 0 := by
      intro p
      by_cases heq : q = p
      · subst heq
        by_cases hbit : value.testBit q <;> simp [hbit]
      · simp [List.count_cons_of_ne heq, heq]
    rw [List.countP_cons, ih hrest, Finset.sum_congr rfl fun p _ => hsplit p,
      Finset.sum_add_distrib, Finset.sum_ite_eq, if_pos (Finset.mem_range.mpr hq)]

/-- The ones of a value below a bound. -/
theorem countP_range (value n : Nat) : (List.range n).countP value.testBit =
    ∑ p ∈ Finset.range n, if value.testBit p then 1 else 0 := by
  rw [countP_testBit value fun p hp => List.mem_range.mp hp]
  refine Finset.sum_congr rfl fun p hp => ?_
  rw [List.count_eq_one_of_mem List.nodup_range (List.mem_range.mpr (Finset.mem_range.mp hp))]

/-- Positions and a mask have the same parity of ones in a value, if they have so at each one. -/
theorem parity_mask (value mask : Nat) {positions : List Nat} {n : Nat}
    (h : ∀ p ∈ positions, p < n)
    (hmask : ∀ p < n, value.testBit p = true → (mask.testBit p = true ↔ Odd (positions.count p))) :
    positions.countP value.testBit % 2 = (List.range n).countP (value &&& mask).testBit % 2 := by
  rw [countP_testBit value h, countP_range, Finset.sum_nat_mod, Finset.sum_nat_mod _ _ fun p =>
    if (value &&& mask).testBit p then 1 else 0]
  refine congrArg (· % 2) (Finset.sum_congr rfl fun p hp => ?_)
  rw [Nat.testBit_and]
  by_cases hbit : value.testBit p = true
  · have hodd := hmask p (Finset.mem_range.mp hp) hbit
    by_cases hm : mask.testBit p = true
    · simp [hbit, hm, Nat.odd_iff.mp (hodd.mp hm)]
    · have heven := Nat.not_odd_iff_even.mp fun hcount => hm (hodd.mpr hcount)
      simp [hbit, hm, Nat.even_iff.mp heven]
  · simp [hbit]

/-- A power of two is read with the number of times that its position occurs. -/
theorem countP_two_pow (positions : List Nat) (p : Nat) :
    positions.countP (2 ^ p).testBit = positions.count p := by
  rw [List.count_eq_countP]
  refine List.countP_congr fun q _ => ?_
  rw [Nat.testBit_two_pow, decide_eq_true_iff, beq_iff_eq]
  exact eq_comm

end Celox.Bits
