import Celox.Bytes.Integers

/-! # Integers modulo a power of two

A word of some width stands for all integers with one residue. Ring operations keep residues, so
words of different widths can be compared through the integers they come from. -/
namespace Celox.Bits
open Celox.Bytes (ofTwosComplement)

def residue (width : Nat) (a : Int) : Nat := (a % (2 ^ width : Nat)).toNat

theorem residue_cast (width : Nat) (a : Int) : (residue width a : Int) = a % (2 ^ width : Nat) :=
  Int.toNat_of_nonneg (Int.emod_nonneg _ (Int.natCast_pos.mpr (Nat.two_pow_pos width)).ne')

theorem residue_lt (width : Nat) (a : Int) : residue width a < 2 ^ width := by
  have h := Int.emod_lt_of_pos a (Int.natCast_pos.mpr (Nat.two_pow_pos width))
  rw [← residue_cast] at h
  exact_mod_cast h

theorem residue_natCast (width n : Nat) : residue width n = n % 2 ^ width := by
  have h := residue_cast width n
  rw [← Int.natCast_emod] at h
  exact_mod_cast h

theorem residue_congr {width : Nat} {a b : Int} (h : a ≡ b [ZMOD (2 ^ width : Nat)]) :
    residue width a = residue width b := by
  unfold residue
  rw [h]

/-- A wider word has the bits of a narrower one. -/
theorem residue_mod {width wide : Nat} (h : width ≤ wide) (a : Int) :
    residue wide a % 2 ^ width = residue width a := by
  have hdvd : ((2 ^ width : Nat) : Int) ∣ (2 ^ wide : Nat) :=
    Int.natCast_dvd_natCast.mpr (Nat.pow_dvd_pow 2 h)
  have hcast : ((residue wide a % 2 ^ width : Nat) : Int) = residue width a := by
    rw [Int.natCast_emod, residue_cast, residue_cast, Int.emod_emod_of_dvd _ hdvd]
  exact_mod_cast hcast

theorem residue_zero_width (a : Int) : residue 0 a = 0 := by
  have h := residue_lt 0 a
  omega

theorem modEq_residue (width : Nat) (a : Int) : (residue width a : Int) ≡ a [ZMOD (2 ^ width : Nat)] := by
  rw [residue_cast]
  exact Int.mod_modEq a _

/-- All bits inverted. -/
theorem residue_neg_succ (width n : Nat) :
    residue width (-1 - n) = 2 ^ width - 1 - n % 2 ^ width := by
  have hlt := Nat.mod_lt n (Nat.two_pow_pos width)
  have hmod : (-1 - n : Int) ≡ ((2 ^ width - 1 - n % 2 ^ width : Nat) : Int) [ZMOD (2 ^ width : Nat)] := by
    rw [Int.natCast_sub (by omega), Int.natCast_sub (by omega), Int.modEq_iff_dvd]
    refine ⟨1 + (n / 2 ^ width : Nat), ?_⟩
    have hdiv := Nat.div_add_mod n (2 ^ width)
    generalize n % 2 ^ width = low at hdiv ⊢
    generalize n / 2 ^ width = high at hdiv ⊢
    subst hdiv
    push_cast
    ring
  rw [residue_congr hmod, residue_natCast, Nat.mod_eq_of_lt (by omega)]

theorem xor_mask_mod (width n : Nat) :
    (n ^^^ (2 ^ width - 1)) % 2 ^ width = 2 ^ width - 1 - n % 2 ^ width := by
  have hlt := Nat.mod_lt n (Nat.two_pow_pos width)
  have hsub : 2 ^ width - 1 - n % 2 ^ width = 2 ^ width - (n % 2 ^ width + 1) := by omega
  refine Nat.eq_of_testBit_eq fun i => ?_
  rw [hsub, Nat.testBit_two_pow_sub_succ hlt, Nat.testBit_mod_two_pow, Nat.testBit_xor,
    Nat.testBit_two_pow_sub_one, Nat.testBit_mod_two_pow]
  by_cases hi : i < width <;> simp [hi]

/-- The sign is the highest bit. -/
theorem testBit_pred_iff {width n : Nat} (hwidth : width ≠ 0) (h : n < 2 ^ width) :
    n.testBit (width - 1) = true ↔ 2 ^ width ≤ 2 * n := by
  have hpow : 2 ^ width = 2 * 2 ^ (width - 1) := by
    rw [← Nat.pow_succ', Nat.succ_eq_add_one, Nat.sub_add_cancel (Nat.pos_of_ne_zero hwidth)]
  constructor
  · intro hbit
    have := Nat.ge_two_pow_of_testBit hbit
    omega
  · intro hle
    by_contra hbit
    have hall : ∀ i, width - 1 ≤ i → n.testBit i = false := by
      intro i hi
      rcases Nat.eq_or_lt_of_le hi with rfl | hlt
      · simpa using hbit
      · exact Nat.testBit_lt_two_pow
          (Nat.lt_of_lt_of_le h (Nat.pow_le_pow_right (by decide) (by omega)))
    have := Nat.lt_pow_two_of_testBit n hall
    omega

end Celox.Bits
