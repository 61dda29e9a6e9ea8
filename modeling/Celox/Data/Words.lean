import Mathlib

/-! # Numbers in words

A natural number as words of 64 bits, the lowest first and none for zero: its first word, its ones
and its lowest one. -/
namespace Celox.Data

def wordBits : Nat := 64

def words (v : Nat) : List Nat := Nat.digits (2 ^ wordBits) v

theorem words_zero : words 0 = [] := Nat.digits_zero _

theorem words_of_pos {v : Nat} (h : 0 < v) :
    words v = v % 2 ^ wordBits :: words (v / 2 ^ wordBits) :=
  Nat.digits_def' (by decide) h

theorem word_induction {P : Nat → Prop} (zero : P 0)
    (step : ∀ v, 0 < v → P (v / 2 ^ wordBits) → P v) (v : Nat) : P v := by
  induction v using Nat.strong_induction_on with
  | _ v ih =>
    rcases Nat.eq_zero_or_pos v with rfl | hpos
    · exact zero
    · exact step v hpos (ih _ (Nat.div_lt_self hpos (by decide)))

/-! ## Ones -/

def countOnes (v : Nat) : Nat := (Nat.digits 2 v).sum

theorem countOnes_half (v : Nat) : countOnes v = v % 2 + countOnes (v / 2) := by
  rcases Nat.eq_zero_or_pos v with rfl | hpos
  · rfl
  · rw [countOnes, Nat.digits_def' (by decide) hpos, List.sum_cons, countOnes]

theorem countOnes_split (v k : Nat) : countOnes v = countOnes (v % 2 ^ k) + countOnes (v / 2 ^ k) := by
  induction k generalizing v with
  | zero => simp [Nat.mod_one, countOnes]
  | succ k ih =>
    rw [countOnes_half v, ih (v / 2), countOnes_half (v % 2 ^ (k + 1)), Nat.div_div_eq_div_mul]
    have hlow : v % 2 ^ (k + 1) % 2 = v % 2 := Nat.mod_mod_of_dvd _ ⟨2 ^ k, by rw [pow_succ']⟩
    have hhigh : v % 2 ^ (k + 1) / 2 = v / 2 % 2 ^ k := by
      rw [pow_succ', Nat.mod_mul_right_div_self]
    rw [hlow, hhigh, pow_succ', Nat.add_assoc]

theorem sum_countOnes_words (v : Nat) : ((words v).map countOnes).sum = countOnes v := by
  induction v using word_induction with
  | zero => rfl
  | step v hpos ih => rw [words_of_pos hpos, List.map_cons, List.sum_cons, ih,
      ← countOnes_split v wordBits]

/-! ## The lowest one -/

def LowestOne (v i : Nat) : Prop := v.testBit i = true ∧ ∀ j < i, v.testBit j = false

theorem LowestOne.unique {v i j : Nat} (hi : LowestOne v i) (hj : LowestOne v j) : i = j := by
  rcases Nat.lt_trichotomy i j with hlt | heq | hgt
  · exact absurd hi.1 (by simp [hj.2 i hlt])
  · exact heq
  · exact absurd hj.1 (by simp [hi.2 j hgt])

/-- The lowest one of the low word. -/
theorem LowestOne.of_mod {v k i : Nat} (h : LowestOne (v % 2 ^ k) i) : LowestOne v i := by
  have hlt : i < k := by
    have hbit := h.1
    rw [Nat.testBit_mod_two_pow] at hbit
    exact of_decide_eq_true (Bool.and_eq_true _ _ ▸ hbit).1
  refine ⟨?_, fun j hj => ?_⟩
  · have hbit := h.1
    rwa [Nat.testBit_mod_two_pow, decide_eq_true hlt, Bool.true_and] at hbit
  · have hbit := h.2 j hj
    rwa [Nat.testBit_mod_two_pow, decide_eq_true (hj.trans hlt), Bool.true_and] at hbit

/-- The lowest one behind a low word without ones. -/
theorem LowestOne.of_div {v k i : Nat} (hlow : v % 2 ^ k = 0) (h : LowestOne (v / 2 ^ k) i) :
    LowestOne v (k + i) := by
  refine ⟨?_, fun j hj => ?_⟩
  · have hbit := h.1
    rwa [Nat.testBit_div_two_pow, Nat.add_comm] at hbit
  · by_cases hjk : j < k
    · have hbit : (v % 2 ^ k).testBit j = false := by rw [hlow, Nat.zero_testBit]
      rwa [Nat.testBit_mod_two_pow, decide_eq_true hjk, Bool.true_and] at hbit
    · have hbit := h.2 (j - k) (by omega)
      rwa [Nat.testBit_div_two_pow, Nat.sub_add_cancel (Nat.not_lt.mp hjk)] at hbit

end Celox.Data
