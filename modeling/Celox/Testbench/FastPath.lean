import Celox.Bits.Residue
import Celox.Testbench.Vm

/-! # Both bodies of an operator

Each operator has a meaning over the integers. The body over 64 bits and the body over big integers
both give its residue, with few exceptions. -/
namespace Celox.Testbench
open Celox.Bits
open Celox.Bytes (ofTwosComplement)

/-! ## Masks and signs -/

section Masks
variable {width : Nat}

theorem and_widthMask (n : Nat) : n &&& widthMask width = n % 2 ^ width := by
  unfold widthMask
  split
  · rename_i h
    subst h
    simp [Nat.mod_one]
  · exact Nat.and_two_pow_sub_one_eq_mod n width

theorem toNat_one_shiftLeft {n : Nat} (h : n < 64) :
    ((1 : UInt64) <<< UInt64.ofNat n).toNat = 2 ^ n := by
  have hlt : 2 ^ n < 2 ^ 64 := Nat.pow_lt_pow_right (by decide) h
  rw [UInt64.toNat_shiftLeft, UInt64.toNat_ofNat', Nat.mod_eq_of_lt (by omega : n < 2 ^ 64),
    Nat.mod_eq_of_lt h, UInt64.toNat_one, Nat.shiftLeft_eq, Nat.one_mul, Nat.mod_eq_of_lt hlt]

theorem toNat_widthMaskU64 (h : width ≤ 64) : (widthMaskU64 width).toNat = 2 ^ width - 1 := by
  unfold widthMaskU64
  split
  · rename_i h0
    subst h0
    rfl
  · split
    · rename_i h63
      have hpos : 1 ≤ 2 ^ width := Nat.one_le_two_pow
      have hshift := toNat_one_shiftLeft (show width < 64 by omega)
      rw [UInt64.toNat_sub_of_le _ _ (by rw [UInt64.le_iff_toNat_le, hshift]; simpa using hpos),
        hshift]
      rfl
    · obtain rfl : width = 64 := by omega
      rfl

theorem toNat_and_widthMaskU64 (h : width ≤ 64) (value : UInt64) :
    (value &&& widthMaskU64 width).toNat = value.toNat % 2 ^ width := by
  rw [UInt64.toNat_and, toNat_widthMaskU64 h, Nat.and_two_pow_sub_one_eq_mod]

/-- A word over 64 bits that is congruent to an integer. -/
theorem toNat_and_of_modEq (h : width ≤ 64) {value : UInt64} {a : Int}
    (hvalue : (value.toNat : Int) ≡ a [ZMOD (2 ^ 64 : Nat)]) :
    (value &&& widthMaskU64 width).toNat = residue width a := by
  rw [toNat_and_widthMaskU64 h, ← residue_mod h a, ← residue_congr hvalue, residue_natCast,
    Nat.mod_eq_of_lt value.toNat_lt]

theorem toNat_asU64 (a : Int) : (asU64 a).toNat = residue 64 a := by
  have hlt := residue_lt 64 a
  rw [asU64, UInt64.toNat_ofNat']
  exact Nat.mod_eq_of_lt hlt

theorem asU64_modEq (a : Int) : ((asU64 a).toNat : Int) ≡ a [ZMOD (2 ^ 64 : Nat)] := by
  rw [toNat_asU64]
  exact modEq_residue 64 a

theorem toBiguint_tbValueFromBits (value width : Nat) :
    (tbValueFromBits value width).toBiguint = value % 2 ^ width := by
  have hlt := Nat.mod_lt value (Nat.two_pow_pos width)
  rw [tbValueFromBits, and_widthMask]
  split
  · rename_i h
    have hle : 2 ^ width ≤ 2 ^ 64 := Nat.pow_le_pow_right (by decide) h
    rw [TestbenchValue.toBiguint, UInt64.toNat_ofNat', Nat.mod_eq_of_lt (by omega)]
  · rfl

theorem signedBits_eq (a : Int) (width : Nat) : signedBits a width = residue width a := by
  unfold signedBits
  split
  · rename_i h
    subst h
    exact (residue_zero_width a).symm
  · dsimp only
    split
    · rename_i hneg
      have hlt := Nat.mod_lt (-a).toNat (Nat.two_pow_pos width)
      have hdiv := Nat.div_add_mod (-a).toNat (2 ^ width)
      have hmod : a ≡ ((2 ^ width - (-a).toNat % 2 ^ width : Nat) : Int) [ZMOD (2 ^ width : Nat)] := by
        rw [Int.natCast_sub (by omega), Int.modEq_iff_dvd]
        refine ⟨1 + ((-a).toNat / 2 ^ width : Nat), ?_⟩
        have ha : a = -(((-a).toNat : Nat) : Int) := by omega
        generalize (-a).toNat % 2 ^ width = low at hdiv ⊢
        generalize (-a).toNat / 2 ^ width = high at hdiv ⊢
        rw [← hdiv] at ha
        rw [ha]
        push_cast
        ring
      rw [residue_congr hmod, residue_natCast]
      split
      · rename_i h0
        rw [h0, Nat.sub_zero, Nat.mod_self]
      · exact (Nat.mod_eq_of_lt (by omega)).symm
    · rename_i hnonneg
      obtain ⟨n, rfl⟩ := Int.eq_ofNat_of_zero_le (Int.not_lt.mp hnonneg)
      rw [residue_natCast, Int.toNat_natCast]

theorem ofTwosComplement_zero_width (n : Nat) : ofTwosComplement (2 ^ 0) (n % 2 ^ 0) = 0 := by
  simp [Nat.mod_one, ofTwosComplement]

theorem signedBigint_eq (value : TestbenchValue) (width : Nat) :
    signedBigint value width = ofTwosComplement (2 ^ width) (value.toBiguint % 2 ^ width) := by
  have hlt := Nat.mod_lt value.toBiguint (Nat.two_pow_pos width)
  rw [signedBigint, normalizedBits, and_widthMask]
  by_cases h0 : width = 0
  · subst h0
    rw [if_pos (.inl rfl), ofTwosComplement_zero_width]
    simp [Nat.mod_one]
  · have hbit := testBit_pred_iff h0 hlt
    unfold ofTwosComplement
    by_cases hsign : 2 ^ width ≤ 2 * (value.toBiguint % 2 ^ width)
    · rw [if_neg (by rw [hbit.mpr hsign]; simp [h0]), if_pos hsign]
      push_cast
      rfl
    · rw [if_pos (.inr (by rw [← Bool.not_eq_true, hbit]; exact hsign)), if_neg hsign]

theorem and_bit_eq_zero {value : UInt64} (h : width ≤ 64) :
    value &&& (1 <<< UInt64.ofNat (width - 1)) = 0 ↔ value.toNat.testBit (width - 1) = false := by
  rw [← UInt64.toNat_inj, UInt64.toNat_and, toNat_one_shiftLeft (by omega), Nat.and_two_pow]
  cases value.toNat.testBit (width - 1) <;> simp

theorem signedI128_eq (h : width ≤ 64) (value : UInt64) :
    signedI128 value width = ofTwosComplement (2 ^ width) (value.toNat % 2 ^ width) := by
  have hlt := Nat.mod_lt value.toNat (Nat.two_pow_pos width)
  unfold signedI128
  dsimp only
  have hmask := toNat_and_widthMaskU64 h value
  by_cases h0 : width = 0
  · subst h0
    rw [if_pos (.inl rfl), ofTwosComplement_zero_width, asI64, hmask]
    simp [Nat.mod_one]
  · by_cases h64 : width = 64
    · subst h64
      rw [if_pos (.inr le_rfl), asI64, hmask]
      unfold ofTwosComplement
      split <;> split <;> omega
    · rw [if_neg (by omega)]
      unfold ofTwosComplement
      have hbit := testBit_pred_iff h0 hlt
      by_cases hsign : 2 ^ width ≤ 2 * (value.toNat % 2 ^ width)
      · rw [if_neg, if_pos hsign, hmask]
        · push_cast
          rfl
        · rw [and_bit_eq_zero h, hmask, hbit.mpr hsign]
          simp
      · rw [if_pos, if_neg hsign, hmask]
        rw [and_bit_eq_zero h, hmask, ← Bool.not_eq_true, hbit]
        exact hsign

end Masks

/-! ## Binary operators -/

/-- The integer that an operand stands for. -/
def operand (signed : Bool) (width n : Nat) : Int :=
  if signed then ofTwosComplement (2 ^ width) n else n

namespace Op

def isComparison : Op → Bool
  | .eq | .eqWildcard | .ne | .neWildcard | .less | .lessEq | .greater | .greaterEq
  | .logicAnd | .logicOr => true
  | _ => false

/-- The binary operators of the source language. -/
def isTypedBinary : Op → Bool
  | .logicNot | .bitNot => false
  | _ => true

/-- What a comparison says of its operands. -/
def Compares (op : Op) (signed : Bool) (lhsWidth rhsWidth l r : Nat) : Prop :=
  match op with
  | .eq | .eqWildcard => l = r
  | .ne | .neWildcard => l ≠ r
  | .less => operand signed lhsWidth l < operand signed rhsWidth r
  | .lessEq => operand signed lhsWidth l ≤ operand signed rhsWidth r
  | .greater => operand signed lhsWidth l > operand signed rhsWidth r
  | .greaterEq => operand signed lhsWidth l ≥ operand signed rhsWidth r
  | .logicAnd => l ≠ 0 ∧ r ≠ 0
  | .logicOr => l ≠ 0 ∨ r ≠ 0
  | _ => False

instance (op : Op) (signed : Bool) (lhsWidth rhsWidth l r : Nat) :
    Decidable (op.Compares signed lhsWidth rhsWidth l r) :=
  match op with
  | .eq | .eqWildcard => inferInstanceAs (Decidable (l = r))
  | .ne | .neWildcard => inferInstanceAs (Decidable (l ≠ r))
  | .less => inferInstanceAs (Decidable (operand signed lhsWidth l < operand signed rhsWidth r))
  | .lessEq => inferInstanceAs (Decidable (operand signed lhsWidth l ≤ operand signed rhsWidth r))
  | .greater => inferInstanceAs (Decidable (operand signed lhsWidth l > operand signed rhsWidth r))
  | .greaterEq =>
    inferInstanceAs (Decidable (operand signed lhsWidth l ≥ operand signed rhsWidth r))
  | .logicAnd => inferInstanceAs (Decidable (l ≠ 0 ∧ r ≠ 0))
  | .logicOr => inferInstanceAs (Decidable (l ≠ 0 ∨ r ≠ 0))
  | .add | .sub | .mul | .div | .rem | .pow | .bitAnd | .bitOr | .bitXor | .bitXnor | .bitNand
  | .bitNor | .logicShiftL | .logicShiftR | .arithShiftL | .arithShiftR | .logicNot | .bitNot =>
    .isFalse id

/-- The integer that the other operators give before it is cut to the result width. -/
def meaning (op : Op) (lhsSigned rhsSigned : Bool) (lhsWidth rhsWidth resultWidth l r : Nat) : Int :=
  let signed := lhsSigned && rhsSigned
  let dividend := operand signed lhsWidth l
  let divisor := operand signed rhsWidth r
  match op with
  | .add => l + r
  | .sub => l - r
  | .mul => l * r
  | .div => if divisor = 0 then 0 else dividend.tdiv divisor
  | .rem => if divisor = 0 then 0 else dividend.tmod divisor
  | .pow => (l ^ r : Nat)
  | .bitAnd => (l &&& r : Nat)
  | .bitOr => (l ||| r : Nat)
  | .bitXor => (l ^^^ r : Nat)
  | .bitXnor => -1 - (l ^^^ r : Nat)
  | .bitNand => -1 - (l &&& r : Nat)
  | .bitNor => -1 - (l ||| r : Nat)
  | .logicShiftL | .arithShiftL =>
    let shift := toUsizeOrMax r
    if resultWidth ≤ shift then 0 else (l <<< shift : Nat)
  | .logicShiftR =>
    let shift := toUsizeOrMax r
    if resultWidth ≤ shift then 0 else (l >>> shift : Nat)
  | .arithShiftR =>
    let value := operand lhsSigned lhsWidth l
    let shift := toUsizeOrMax r
    if resultWidth ≤ shift then (if value < 0 then -1 else 0)
    else value >>> shift
  | _ => 0

/-- The result of a typed operator on operands of their widths. -/
def result (op : Op) (lhsSigned rhsSigned : Bool) (lhsWidth rhsWidth resultWidth l r : Nat) : Nat :=
  if op.isComparison then
    if op.Compares (lhsSigned && rhsSigned) lhsWidth rhsWidth l r then 1 else 0
  else residue resultWidth (op.meaning lhsSigned rhsSigned lhsWidth rhsWidth resultWidth l r)

end Op

section Binary
variable {op : Op} {lhsWidth rhsWidth resultWidth : Nat} {lhsSigned rhsSigned : Bool}

theorem toNat_boolValue {b : Bool} {p : Prop} [Decidable p] (h : b = true ↔ p) :
    (boolValue b).toNat = if p then 1 else 0 := by
  cases b
  · rw [if_neg (by simpa using h)]
    rfl
  · rw [if_pos (h.mp rfl)]
    rfl

theorem powLoop_eq (hw : resultWidth ≤ 64) (exponent : Nat) {base value : UInt64} {b v : Nat}
    (hbase : base.toNat % 2 ^ resultWidth = b % 2 ^ resultWidth)
    (hvalue : value.toNat = v % 2 ^ resultWidth) :
    (powLoop (widthMaskU64 resultWidth) base value exponent).toNat =
      v * b ^ exponent % 2 ^ resultWidth := by
  induction exponent using Nat.strong_induction_on generalizing base value b v with
  | _ exponent ih =>
    -- a product of two words, cut to 64 bits and then to the width
    have hmul : ∀ {x y : UInt64} {m n : Nat}, x.toNat % 2 ^ resultWidth = m % 2 ^ resultWidth →
        y.toNat % 2 ^ resultWidth = n % 2 ^ resultWidth →
        (UInt64.ofNat (x.toNat * y.toNat) &&& widthMaskU64 resultWidth).toNat =
          m * n % 2 ^ resultWidth := by
      intro x y m n hx hy
      rw [toNat_and_widthMaskU64 hw, UInt64.toNat_ofNat',
        Nat.mod_mod_of_dvd _ (Nat.pow_dvd_pow 2 hw), Nat.mul_mod, hx, hy, ← Nat.mul_mod]
    unfold powLoop
    by_cases h0 : exponent = 0
    · subst h0
      simpa using hvalue
    · rw [if_neg h0]
      have hv : value.toNat % 2 ^ resultWidth = v % 2 ^ resultWidth := by rw [hvalue, Nat.mod_mod]
      have hhalf : exponent / 2 < exponent := Nat.div_lt_self (Nat.pos_of_ne_zero h0) (by decide)
      have hpow : b ^ exponent = (b * b) ^ (exponent / 2) * b ^ (exponent % 2) := by
        rw [← Nat.pow_two, ← Nat.pow_mul, ← Nat.pow_add, Nat.div_add_mod]
      have hbase' : (if exponent / 2 ≠ 0 then UInt64.ofNat (base.toNat * base.toNat) &&&
          widthMaskU64 resultWidth else base).toNat % 2 ^ resultWidth = b * b % 2 ^ resultWidth ∨
          exponent / 2 = 0 := by
        by_cases hlast : exponent / 2 = 0
        · exact .inr hlast
        · rw [if_pos hlast, hmul hbase hbase, Nat.mod_mod]
          exact .inl rfl
      have hvalue' : (if exponent % 2 ≠ 0 then UInt64.ofNat (value.toNat * base.toNat) &&&
          widthMaskU64 resultWidth else value).toNat =
          v * b ^ (exponent % 2) % 2 ^ resultWidth := by
        rcases Nat.mod_two_eq_zero_or_one exponent with heven | hodd
        · rw [heven]
          simpa using hvalue
        · rw [hodd, if_pos (by decide), hmul hv hbase, Nat.pow_one]
      rcases hbase' with hbase' | hlast
      · rw [ih _ hhalf hbase' hvalue', hpow, Nat.mul_comm ((b * b) ^ _), Nat.mul_assoc]
      · rw [hlast] at hpow ⊢
        unfold powLoop
        rw [if_pos rfl, hvalue', hpow, Nat.pow_zero, Nat.one_mul]

theorem operand_unsigned (width n : Nat) : operand false width n = n := rfl

theorem operand_u64 (hw : lhsWidth ≤ 64) (value : UInt64) :
    signedI128 (value &&& widthMaskU64 lhsWidth) lhsWidth =
      operand true lhsWidth (value.toNat % 2 ^ lhsWidth) := by
  rw [signedI128_eq hw, toNat_and_widthMaskU64 hw, Nat.mod_mod]
  rfl

theorem toUsizeOrMax_u64 (value : UInt64) : toUsizeOrMax value.toNat = value.toNat := by
  have := value.toNat_lt
  rw [toUsizeOrMax, if_pos (by rw [usizeMax]; omega)]

theorem operand_tdiv (m n : Nat) :
    (if operand false rhsWidth n = 0 then 0
      else (operand false lhsWidth m).tdiv (operand false rhsWidth n)) =
      ((if n = 0 then 0 else m / n : Nat) : Int) := by
  by_cases h : n = 0
  · subst h
    rfl
  · rw [if_neg (by rw [operand_unsigned]; exact_mod_cast h), if_neg h]
    rfl

theorem operand_tmod (m n : Nat) :
    (if operand false rhsWidth n = 0 then 0
      else (operand false lhsWidth m).tmod (operand false rhsWidth n)) =
      ((if n = 0 then 0 else m % n : Nat) : Int) := by
  by_cases h : n = 0
  · subst h
    rfl
  · rw [if_neg (by rw [operand_unsigned]; exact_mod_cast h), if_neg h]
    rfl

theorem toNat_and_of_eq (hw : resultWidth ≤ 64) {value : UInt64} {n : Nat}
    (h : value.toNat = n) : (value &&& widthMaskU64 resultWidth).toNat = residue resultWidth n := by
  rw [toNat_and_widthMaskU64 hw, residue_natCast, h]

theorem toNat_and_of_mod_eq (hw : resultWidth ≤ 64) {value : UInt64} {n : Nat}
    (h : value.toNat = n % 2 ^ 64) :
    (value &&& widthMaskU64 resultWidth).toNat = residue resultWidth n := by
  rw [toNat_and_widthMaskU64 hw, residue_natCast, h,
    Nat.mod_mod_of_dvd _ (Nat.pow_dvd_pow 2 hw)]

theorem toNat_not_and (hw : resultWidth ≤ 64) (value : UInt64) :
    (~~~value &&& widthMaskU64 resultWidth).toNat = residue resultWidth (-1 - value.toNat) := by
  refine toNat_and_of_modEq hw ?_
  have hlt := value.toNat_lt
  rw [UInt64.toNat_not, Int.modEq_iff_dvd]
  refine ⟨-1, ?_⟩
  rw [UInt64.size]
  push_cast
  omega

theorem toNat_sub_and (hw : resultWidth ≤ 64) (l r : UInt64) :
    ((l - r) &&& widthMaskU64 resultWidth).toNat =
      residue resultWidth ((l.toNat : Int) - r.toNat) := by
  refine toNat_and_of_modEq hw ?_
  have hl := l.toNat_lt
  have hr := r.toNat_lt
  rw [UInt64.toNat_sub]
  push_cast [Int.natCast_sub hr.le]
  refine (Int.mod_modEq _ _).trans (Int.modEq_iff_dvd.mpr ⟨-1, ?_⟩)
  push_cast
  ring

theorem toNat_shiftLeft_and (hw : resultWidth ≤ 64) (l r : UInt64) (hr : r.toNat < resultWidth) :
    ((l <<< r) &&& widthMaskU64 resultWidth).toNat =
      residue resultWidth ((l.toNat <<< r.toNat : Nat) : Int) := by
  refine toNat_and_of_mod_eq hw ?_
  rw [UInt64.toNat_shiftLeft, Nat.mod_eq_of_lt (by omega : r.toNat < 64)]

theorem toNat_shiftRight_and (hw : resultWidth ≤ 64) (l r : UInt64) (hr : r.toNat < resultWidth) :
    ((l >>> r) &&& widthMaskU64 resultWidth).toNat =
      residue resultWidth ((l.toNat >>> r.toNat : Nat) : Int) := by
  refine toNat_and_of_eq hw ?_
  rw [UInt64.toNat_shiftRight, Nat.mod_eq_of_lt (by omega : r.toNat < 64)]

/-- The body over 64 bits. -/
theorem evalTypedBinopU64_eq (hl : lhsWidth ≤ 64) (hr : rhsWidth ≤ 64) (hw : resultWidth ≤ 64)
    (hop : op.isTypedBinary = true) (l r : UInt64) :
    (evalTypedBinopU64 l op r lhsWidth rhsWidth resultWidth lhsSigned rhsSigned).map
        UInt64.toNat =
      some (op.result lhsSigned rhsSigned lhsWidth rhsWidth resultWidth
        (l.toNat % 2 ^ lhsWidth) (r.toNat % 2 ^ rhsWidth)) := by
  have hlv := toNat_and_widthMaskU64 hl l
  have hrv := toNat_and_widthMaskU64 hr r
  have hls := operand_u64 hl l
  have hrs := operand_u64 hr r
  have hrmax := toUsizeOrMax_u64 (r &&& widthMaskU64 rhsWidth)
  rw [hrv] at hrmax
  unfold evalTypedBinopU64
  dsimp only
  rw [← hlv] at hls ⊢
  rw [← hrv] at hrs hrmax ⊢
  generalize l &&& widthMaskU64 lhsWidth = lv at hls ⊢
  generalize r &&& widthMaskU64 rhsWidth = rv at hrs hrmax ⊢
  have hzero_l : (lv = 0) = (lv.toNat = 0) := by
    rw [← UInt64.toNat_inj]
    rfl
  have hzero : (rv = 0) = (rv.toNat = 0) := by
    rw [← UInt64.toNat_inj]
    rfl
  cases op <;>
    simp only [Op.isTypedBinary, Bool.false_eq_true] at hop <;>
    simp only [Op.result, Op.isComparison, Op.Compares, Op.meaning, if_true, Bool.false_eq_true,
      if_false, Option.map_some, Option.some.injEq]
  case add =>
    refine toNat_and_of_mod_eq hw ?_
    rw [UInt64.toNat_add]
  case sub => exact toNat_sub_and hw lv rv
  case mul =>
    refine toNat_and_of_mod_eq hw ?_
    rw [UInt64.toNat_mul]
  case div =>
    cases hsigned : lhsSigned && rhsSigned
    · rw [operand_tdiv, if_neg (by decide), Option.map_some, Option.some.injEq]
      refine toNat_and_of_eq hw ?_
      by_cases h0 : rv.toNat = 0
      · rw [if_pos (hzero.mpr h0), if_pos h0]
        rfl
      · rw [if_neg (by rwa [hzero]), if_neg h0, UInt64.toNat_div]
    · simp only [if_true, Option.map_some, Option.some.injEq, hls, hrs]
      split
      · simp [residue]
      · exact toNat_and_of_modEq hw (asU64_modEq _)
  case rem =>
    cases hsigned : lhsSigned && rhsSigned
    · rw [operand_tmod, if_neg (by decide), Option.map_some, Option.some.injEq]
      refine toNat_and_of_eq hw ?_
      by_cases h0 : rv.toNat = 0
      · rw [if_pos (hzero.mpr h0), if_pos h0]
        rfl
      · rw [if_neg (by rwa [hzero]), if_neg h0, UInt64.toNat_mod]
    · simp only [if_true, Option.map_some, Option.some.injEq, hls, hrs]
      split
      · simp [residue]
      · exact toNat_and_of_modEq hw (asU64_modEq _)
  case pow =>
    rw [powLoop_eq hw rv.toNat (by rw [toNat_and_widthMaskU64 hw, Nat.mod_mod])
      (toNat_and_widthMaskU64 hw 1), residue_natCast, UInt64.toNat_one, Nat.one_mul,
      ← Nat.pow_mod]
  case bitAnd => exact toNat_and_of_eq hw (UInt64.toNat_and _ _)
  case bitOr => exact toNat_and_of_eq hw (UInt64.toNat_or _ _)
  case bitXor => exact toNat_and_of_eq hw (UInt64.toNat_xor _ _)
  case bitXnor => rw [toNat_not_and hw, UInt64.toNat_xor]
  case bitNand => rw [toNat_not_and hw, UInt64.toNat_and]
  case bitNor => rw [toNat_not_and hw, UInt64.toNat_or]
  case logicShiftL | arithShiftL =>
    rw [hrmax]
    split
    · simp [residue]
    · exact toNat_shiftLeft_and hw lv rv (by omega)
  case logicShiftR =>
    rw [hrmax]
    split
    · simp [residue]
    · exact toNat_shiftRight_and hw lv rv (by omega)
  case arithShiftR =>
    rw [hrmax]
    cases lhsSigned
    · rw [if_neg (by decide), Option.map_some, Option.some.injEq]
      split
      · rw [if_neg (by rw [operand_unsigned]; omega)]
        simp [residue]
      · exact toNat_shiftRight_and hw lv rv (by omega)
    · simp only [if_true, Option.map_some, Option.some.injEq, hls]
      split
      · split
        · rw [toNat_widthMaskU64 hw]
          simpa using (residue_neg_succ resultWidth 0).symm
        · simp [residue]
      · exact toNat_and_of_modEq hw (asU64_modEq _)
  case eq | eqWildcard => exact toNat_boolValue (by rw [decide_eq_true_iff, UInt64.toNat_inj])
  case ne | neWildcard =>
    exact toNat_boolValue (by rw [decide_eq_true_iff, ne_eq, ne_eq, UInt64.toNat_inj])
  case logicAnd =>
    exact toNat_boolValue (by simp only [decide_eq_true_iff, ne_eq, hzero, hzero_l])
  case logicOr =>
    exact toNat_boolValue (by simp only [decide_eq_true_iff, ne_eq, hzero, hzero_l])
  case less =>
    refine toNat_boolValue ?_
    cases hsigned : lhsSigned && rhsSigned
    · rw [if_neg (by decide), decide_eq_true_iff, UInt64.lt_iff_toNat_lt]
      exact Int.ofNat_lt.symm
    · rw [if_pos rfl, decide_eq_true_iff, hls, hrs]
  case lessEq =>
    refine toNat_boolValue ?_
    cases hsigned : lhsSigned && rhsSigned
    · rw [if_neg (by decide), decide_eq_true_iff, UInt64.le_iff_toNat_le]
      exact Int.ofNat_le.symm
    · rw [if_pos rfl, decide_eq_true_iff, hls, hrs]
  case greater =>
    refine toNat_boolValue ?_
    cases hsigned : lhsSigned && rhsSigned
    · rw [if_neg (by decide), decide_eq_true_iff, gt_iff_lt, UInt64.lt_iff_toNat_lt]
      exact Int.ofNat_lt.symm
    · rw [if_pos rfl, decide_eq_true_iff, hls, hrs]
  case greaterEq =>
    refine toNat_boolValue ?_
    cases hsigned : lhsSigned && rhsSigned
    · rw [if_neg (by decide), decide_eq_true_iff, ge_iff_le, UInt64.le_iff_toNat_le]
      exact Int.ofNat_le.symm
    · rw [if_pos rfl, decide_eq_true_iff, hls, hrs]

theorem widthMask_eq (width : Nat) : widthMask width = 2 ^ width - 1 := by
  unfold widthMask
  split
  · rename_i h
    subst h
    rfl
  · rfl

theorem toBiguint_tbValueFromBits_natCast (n width : Nat) :
    (tbValueFromBits n width).toBiguint = residue width n := by
  rw [toBiguint_tbValueFromBits, residue_natCast]

theorem toBiguint_tbValueFromBits_signedBits (a : Int) (width : Nat) :
    (tbValueFromBits (signedBits a width) width).toBiguint = residue width a := by
  rw [toBiguint_tbValueFromBits, signedBits_eq, residue_mod le_rfl]

theorem toBiguint_tbValueFromBits_inverted (n width : Nat) :
    (tbValueFromBits (n ^^^ widthMask width) width).toBiguint = residue width (-1 - n) := by
  rw [toBiguint_tbValueFromBits, widthMask_eq, xor_mask_mod, residue_neg_succ]

theorem residue_zero (width : Nat) : residue width 0 = 0 := by
  rw [← Nat.cast_zero, residue_natCast, Nat.zero_mod]

/-- The body over big integers. -/
theorem evalTypedBinopWide_eq (hop : op.isTypedBinary = true) (l r : TestbenchValue) :
    (evalTypedBinopWide l op r lhsWidth rhsWidth resultWidth lhsSigned rhsSigned).map
        TestbenchValue.toBiguint =
      some (op.result lhsSigned rhsSigned lhsWidth rhsWidth resultWidth
        (l.toBiguint % 2 ^ lhsWidth) (r.toBiguint % 2 ^ rhsWidth)) := by
  have hls : signedBigint l lhsWidth = operand true lhsWidth (l.toBiguint % 2 ^ lhsWidth) :=
    signedBigint_eq l lhsWidth
  have hrs : signedBigint r rhsWidth = operand true rhsWidth (r.toBiguint % 2 ^ rhsWidth) :=
    signedBigint_eq r rhsWidth
  unfold evalTypedBinopWide normalizedBits
  rw [and_widthMask, and_widthMask, hls, hrs]
  dsimp only
  generalize l.toBiguint % 2 ^ lhsWidth = lv
  generalize r.toBiguint % 2 ^ rhsWidth = rv
  have hzero : (TestbenchValue.u64 0).toBiguint = residue resultWidth 0 := (residue_zero _).symm
  cases op <;>
    simp only [Op.isTypedBinary, Bool.false_eq_true] at hop <;>
    simp only [Op.result, Op.isComparison, Op.Compares, Op.meaning, if_true, Bool.false_eq_true,
      if_false, Option.map_some, Option.some.injEq]
  case add => exact toBiguint_tbValueFromBits_natCast _ _
  case mul => exact toBiguint_tbValueFromBits_natCast _ _
  case sub => exact toBiguint_tbValueFromBits_signedBits _ _
  case div =>
    cases hsigned : lhsSigned && rhsSigned
    · rw [operand_tdiv, if_neg (by decide), Option.map_some, Option.some.injEq]
      split
      · exact hzero
      · exact toBiguint_tbValueFromBits_natCast _ _
    · rw [if_pos rfl, Option.map_some, Option.some.injEq]
      split
      · exact hzero
      · exact toBiguint_tbValueFromBits_signedBits _ _
  case rem =>
    cases hsigned : lhsSigned && rhsSigned
    · rw [operand_tmod, if_neg (by decide), Option.map_some, Option.some.injEq]
      split
      · exact hzero
      · exact toBiguint_tbValueFromBits_natCast _ _
    · rw [if_pos rfl, Option.map_some, Option.some.injEq]
      split
      · exact hzero
      · exact toBiguint_tbValueFromBits_signedBits _ _
  case pow =>
    split
    · rename_i h
      subst h
      exact (residue_zero_width _).symm
    · rw [toBiguint_tbValueFromBits, residue_natCast, Nat.mod_mod]
  case bitAnd | bitOr | bitXor => exact toBiguint_tbValueFromBits_natCast _ _
  case bitXnor | bitNand | bitNor => exact toBiguint_tbValueFromBits_inverted _ _
  case logicShiftL | arithShiftL | logicShiftR =>
    split
    · exact hzero
    · exact toBiguint_tbValueFromBits_natCast _ _
  case arithShiftR =>
    cases lhsSigned
    · rw [if_neg (by decide), Option.map_some, Option.some.injEq]
      split
      · rw [if_neg (by rw [operand_unsigned]; omega)]
        exact hzero
      · exact toBiguint_tbValueFromBits_natCast _ _
    · rw [if_pos rfl, Option.map_some, Option.some.injEq]
      exact toBiguint_tbValueFromBits_signedBits _ _
  case less | lessEq | greater | greaterEq =>
    refine toNat_boolValue ?_
    cases hsigned : lhsSigned && rhsSigned
    · rw [if_neg (by decide), decide_eq_true_iff, operand_unsigned, operand_unsigned]
      omega
    · rw [if_pos rfl, decide_eq_true_iff]
  all_goals exact toNat_boolValue decide_eq_true_iff

/-! ## Agreement -/

/-- Both results exist, are one integer and fit into the width. -/
def Agree (width : Nat) (a b : Option TestbenchValue) : Prop :=
  ∃ x y, a = some x ∧ b = some y ∧ x.toBiguint = y.toBiguint ∧ x.toBiguint < 2 ^ width

theorem agree_iff_of_map {width n : Nat} {a b : Option TestbenchValue}
    (ha : a.map TestbenchValue.toBiguint = some n) (hb : b.map TestbenchValue.toBiguint = some n) :
    Agree width a b ↔ n < 2 ^ width := by
  obtain ⟨x, rfl, hx⟩ := Option.map_eq_some_iff.mp ha
  obtain ⟨y, rfl, hy⟩ := Option.map_eq_some_iff.mp hb
  constructor
  · rintro ⟨x', y', hx', -, -, hlt⟩
    obtain rfl : x = x' := Option.some.inj hx'
    rwa [← hx]
  · intro hlt
    exact ⟨x, y, rfl, rfl, by rw [hx, hy], by rwa [hx]⟩

theorem evalTypedBinop_eq (hop : op.isTypedBinary = true) (l r : TestbenchValue) :
    (evalTypedBinop l op r lhsWidth rhsWidth resultWidth lhsSigned rhsSigned).map
        TestbenchValue.toBiguint =
      some (op.result lhsSigned rhsSigned lhsWidth rhsWidth resultWidth
        (l.toBiguint % 2 ^ lhsWidth) (r.toBiguint % 2 ^ rhsWidth)) := by
  unfold evalTypedBinop
  split
  · rename_i lv rv
    split
    · rename_i h
      obtain ⟨hl, hr, hw⟩ := h
      rw [Option.map_map]
      exact evalTypedBinopU64_eq hl hr hw hop lv rv
    · exact evalTypedBinopWide_eq hop _ _
  · exact evalTypedBinopWide_eq hop _ _

theorem evalTypedBinop_none (hop : op.isTypedBinary = false) (l r : TestbenchValue) :
    evalTypedBinop l op r lhsWidth rhsWidth resultWidth lhsSigned rhsSigned = none := by
  unfold evalTypedBinop
  split
  · split
    · cases op <;> first | rfl | simp [Op.isTypedBinary] at hop
    · cases op <;> first | rfl | simp [Op.isTypedBinary] at hop
  · cases op <;> first | rfl | simp [Op.isTypedBinary] at hop

theorem Op.not_compares (h : op.isComparison = false) {signed : Bool} {l r : Nat} :
    ¬ op.Compares signed lhsWidth rhsWidth l r := by
  cases op <;> first | exact id | cases h

/-- A truth value can only be one where the result has a bit for it. -/
theorem truth_lt_iff {p : Prop} [Decidable p] :
    (if p then 1 else 0) < 2 ^ resultWidth ↔ (resultWidth = 0 → ¬ p) := by
  by_cases hp : p
  · rw [if_pos hp]
    simp [hp]
  · rw [if_neg hp]
    simp [hp]

theorem Op.result_lt_iff {l r : Nat} :
    op.result lhsSigned rhsSigned lhsWidth rhsWidth resultWidth l r < 2 ^ resultWidth ↔
      (resultWidth = 0 → ¬ op.Compares (lhsSigned && rhsSigned) lhsWidth rhsWidth l r) := by
  unfold Op.result
  split
  · exact truth_lt_iff
  · rename_i hcmp
    exact ⟨fun _ _ => Op.not_compares (Bool.eq_false_iff.mpr hcmp), fun _ => residue_lt _ _⟩

/-- `TypedBinOp` on any two ways to hold its operands. -/
theorem agree_typedBinop {l l' r r' : TestbenchValue} (hl : l.toBiguint = l'.toBiguint)
    (hr : r.toBiguint = r'.toBiguint) :
    Agree resultWidth
        (evalTypedBinop l op r lhsWidth rhsWidth resultWidth lhsSigned rhsSigned)
        (evalTypedBinop l' op r' lhsWidth rhsWidth resultWidth lhsSigned rhsSigned) ↔
      op.isTypedBinary = true ∧ (resultWidth = 0 →
        ¬ op.Compares (lhsSigned && rhsSigned) lhsWidth rhsWidth
          (l.toBiguint % 2 ^ lhsWidth) (r.toBiguint % 2 ^ rhsWidth)) := by
  cases hop : op.isTypedBinary
  · rw [evalTypedBinop_none hop]
    simp [Agree]
  · rw [agree_iff_of_map (evalTypedBinop_eq hop l r)
      (by rw [hl, hr]; exact evalTypedBinop_eq hop l' r'), Op.result_lt_iff]
    simp

end Binary

end Celox.Testbench
