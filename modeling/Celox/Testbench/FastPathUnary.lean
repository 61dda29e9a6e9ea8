import Celox.Testbench.FastPath

/-! # Both bodies of the other opcodes

A unary operator, a change of width, a concatenation and a selection of bits, each on every two
ways to hold its operands. -/
namespace Celox.Testbench
open Celox.Bits

/-! ## Unary operators -/

section Unary
variable {op : Op} {operandWidth resultWidth : Nat}

namespace Op

def isTypedUnary : Op → Bool
  | .logicNot | .bitAnd | .bitNand | .bitOr | .bitNor | .bitXor | .bitXnor | .add | .sub | .bitNot =>
    true
  | _ => false

/-- What a reduction says of the bits of its operand. -/
def Reduces (op : Op) (operandWidth bits : Nat) : Prop :=
  match op with
  | .logicNot | .bitNor => bits = 0
  | .bitAnd => bits = 2 ^ operandWidth - 1
  | .bitNand => bits ≠ 2 ^ operandWidth - 1
  | .bitOr => bits ≠ 0
  | .bitXor => countOnes bits % 2 ≠ 0
  | .bitXnor => countOnes bits % 2 = 0
  | _ => False

instance (op : Op) (operandWidth bits : Nat) : Decidable (op.Reduces operandWidth bits) :=
  match op with
  | .logicNot | .bitNor => inferInstanceAs (Decidable (bits = 0))
  | .bitAnd => inferInstanceAs (Decidable (bits = 2 ^ operandWidth - 1))
  | .bitNand => inferInstanceAs (Decidable (bits ≠ 2 ^ operandWidth - 1))
  | .bitOr => inferInstanceAs (Decidable (bits ≠ 0))
  | .bitXor => inferInstanceAs (Decidable (countOnes bits % 2 ≠ 0))
  | .bitXnor => inferInstanceAs (Decidable (countOnes bits % 2 = 0))
  | .add | .sub | .mul | .div | .rem | .pow | .logicShiftL | .logicShiftR | .arithShiftL
  | .arithShiftR | .eq | .eqWildcard | .ne | .neWildcard | .less | .lessEq | .greater | .greaterEq
  | .logicAnd | .logicOr | .bitNot => .isFalse id

/-- The result of a unary operator; an inversion is done at the width `inverted`. -/
def unaryResult (op : Op) (inverted operandWidth resultWidth bits : Nat) : Nat :=
  match op with
  | .add => residue resultWidth bits
  | .sub => residue resultWidth (-bits)
  | .bitNot => residue inverted (-1 - bits) % 2 ^ resultWidth
  | _ => if op.Reduces operandWidth bits then 1 else 0

end Op

theorem evalTypedUnopU64_eq (ho : operandWidth ≤ 64) (hw : resultWidth ≤ 64)
    (hop : op.isTypedUnary = true) (value : UInt64) :
    (evalTypedUnopU64 op value operandWidth resultWidth).map UInt64.toNat =
      some (op.unaryResult resultWidth operandWidth resultWidth
        (value.toNat % 2 ^ operandWidth)) := by
  unfold evalTypedUnopU64
  dsimp only
  rw [← toNat_and_widthMaskU64 ho value]
  generalize value &&& widthMaskU64 operandWidth = bits
  have hzero : bits = 0 ↔ bits.toNat = 0 := by
    rw [← UInt64.toNat_inj]
    rfl
  have hones : bits = widthMaskU64 operandWidth ↔ bits.toNat = 2 ^ operandWidth - 1 := by
    rw [← UInt64.toNat_inj, toNat_widthMaskU64 ho]
  cases op <;>
    simp only [Op.isTypedUnary, Bool.false_eq_true] at hop <;>
    simp only [Op.unaryResult, Op.Reduces, Option.map_some, Option.some.injEq]
  case add => exact toNat_and_of_eq hw rfl
  case sub =>
    have h := toNat_sub_and hw 0 bits
    rwa [UInt64.zero_sub, UInt64.toNat_zero, Nat.cast_zero, Int.zero_sub] at h
  case bitNot => rw [toNat_not_and hw, Nat.mod_eq_of_lt (residue_lt _ _)]
  case logicNot | bitNor => exact toNat_boolValue (by rw [decide_eq_true_iff, hzero])
  case bitOr => exact toNat_boolValue (by rw [decide_eq_true_iff, ne_eq, ne_eq, hzero])
  case bitAnd => exact toNat_boolValue (by rw [decide_eq_true_iff, hones])
  case bitNand => exact toNat_boolValue (by rw [decide_eq_true_iff, ne_eq, ne_eq, hones])
  case bitXor | bitXnor => exact toNat_boolValue decide_eq_true_iff

theorem evalTypedUnopWide_eq (hop : op.isTypedUnary = true) (value : TestbenchValue) :
    (evalTypedUnopWide op value operandWidth resultWidth).map TestbenchValue.toBiguint =
      some (op.unaryResult operandWidth operandWidth resultWidth
        (value.toBiguint % 2 ^ operandWidth)) := by
  unfold evalTypedUnopWide normalizedBits
  rw [and_widthMask]
  dsimp only
  have hlt := Nat.mod_lt value.toBiguint (Nat.two_pow_pos operandWidth)
  generalize value.toBiguint % 2 ^ operandWidth = bits at hlt
  cases op <;>
    simp only [Op.isTypedUnary, Bool.false_eq_true] at hop <;>
    simp only [Op.unaryResult, Op.Reduces, Option.map_some, Option.some.injEq, widthMask_eq]
  case add => exact toBiguint_tbValueFromBits_natCast _ _
  case sub => exact toBiguint_tbValueFromBits_signedBits _ _
  case bitNot =>
    have hxor := xor_mask_mod operandWidth bits
    have hbound : bits ^^^ (2 ^ operandWidth - 1) < 2 ^ operandWidth :=
      Nat.xor_lt_two_pow hlt (by omega)
    rw [toBiguint_tbValueFromBits, residue_neg_succ, ← hxor, Nat.mod_eq_of_lt hbound]
  all_goals exact toNat_boolValue decide_eq_true_iff

/-- The width an inversion is done at. -/
def invertedWidth (operandWidth resultWidth : Nat) : TestbenchValue → Nat
  | .u64 _ => if operandWidth ≤ 64 ∧ resultWidth ≤ 64 then resultWidth else operandWidth
  | .wide _ => operandWidth

theorem le_invertedWidth (h : resultWidth ≤ operandWidth) (value : TestbenchValue) :
    resultWidth ≤ invertedWidth operandWidth resultWidth value := by
  cases value with
  | u64 bits =>
    rw [invertedWidth]
    split
    · exact le_rfl
    · exact h
  | wide bits => exact h

theorem evalTypedUnop_eq (operandWidth resultWidth : Nat) (hop : op.isTypedUnary = true)
    (value : TestbenchValue) :
    (evalTypedUnop op value operandWidth resultWidth).map TestbenchValue.toBiguint =
      some (op.unaryResult (invertedWidth operandWidth resultWidth value) operandWidth resultWidth
        (value.toBiguint % 2 ^ operandWidth)) := by
  cases value with
  | u64 bits =>
    rw [evalTypedUnop, invertedWidth]
    by_cases h : operandWidth ≤ 64 ∧ resultWidth ≤ 64
    · rw [if_pos h, if_pos h, Option.map_map]
      exact evalTypedUnopU64_eq h.1 h.2 hop bits
    · rw [if_neg h, if_neg h]
      exact evalTypedUnopWide_eq hop _
  | wide bits => exact evalTypedUnopWide_eq hop _

theorem evalTypedUnop_none (hop : op.isTypedUnary = false) (value : TestbenchValue) :
    evalTypedUnop op value operandWidth resultWidth = none := by
  cases value with
  | u64 bits =>
    rw [evalTypedUnop]
    split <;> cases op <;> first | rfl | cases hop
  | wide bits => cases op <;> first | rfl | cases hop

/-- An inversion may be done at any width from the result's on. -/
theorem Op.unaryResult_inverted {bits i j : Nat}
    (h : op = .bitNot → i = j ∨ resultWidth ≤ i ∧ resultWidth ≤ j) :
    op.unaryResult i operandWidth resultWidth bits =
      op.unaryResult j operandWidth resultWidth bits := by
  cases op
  case bitNot =>
    obtain rfl | ⟨hi, hj⟩ := h rfl
    · rfl
    · rw [unaryResult, unaryResult, residue_mod hi, residue_mod hj]
  all_goals rfl

/-- Inverted bits above the operand are ones at the width of the result only. -/
theorem Op.unaryResult_ne (h : operandWidth < resultWidth) {bits : Nat}
    (hbits : bits < 2 ^ operandWidth) :
    bitNot.unaryResult resultWidth operandWidth resultWidth bits ≠
      bitNot.unaryResult operandWidth operandWidth resultWidth bits := by
  have hpow : 2 ^ operandWidth < 2 ^ resultWidth := Nat.pow_lt_pow_right (by decide) h
  rw [unaryResult, unaryResult, residue_neg_succ, residue_neg_succ, Nat.mod_eq_of_lt hbits,
    Nat.mod_eq_of_lt (by omega : bits < 2 ^ resultWidth), Nat.mod_eq_of_lt (by omega),
    Nat.mod_eq_of_lt (by omega)]
  omega

theorem Op.unaryResult_lt_iff {bits i : Nat} :
    op.unaryResult i operandWidth resultWidth bits < 2 ^ resultWidth ↔
      (resultWidth = 0 → ¬ op.Reduces operandWidth bits) := by
  cases op
  case add => simp [unaryResult, Reduces, residue_lt]
  case sub => simp [unaryResult, Reduces, residue_lt]
  case bitNot => simp [unaryResult, Reduces, Nat.mod_lt _ (Nat.two_pow_pos resultWidth)]
  all_goals
    simp only [unaryResult]
    exact truth_lt_iff

/-- `TypedUnary` on every two ways to hold its operand. -/
theorem agree_typedUnary (n : Nat) :
    (∀ v v' : TestbenchValue, v.toBiguint = n → v'.toBiguint = n →
      Agree resultWidth (evalTypedUnop op v operandWidth resultWidth)
        (evalTypedUnop op v' operandWidth resultWidth)) ↔
      op.isTypedUnary = true ∧
        (op = .bitNot → resultWidth ≤ operandWidth ∨ 64 < resultWidth ∨ 2 ^ 64 ≤ n) ∧
        (resultWidth = 0 → ¬ op.Reduces operandWidth (n % 2 ^ operandWidth)) := by
  cases hop : op.isTypedUnary
  · simp only [evalTypedUnop_none hop, Bool.false_eq_true, false_and, iff_false, not_forall]
    exact ⟨.wide n, .wide n, rfl, rfl, by rintro ⟨x, y, hx, -⟩; cases hx⟩
  simp only [true_and]
  constructor
  · intro h
    have hinverted : op = .bitNot → resultWidth ≤ operandWidth ∨ 64 < resultWidth ∨ 2 ^ 64 ≤ n := by
      rintro rfl
      by_contra hcond
      obtain ⟨hwider, hfits, hn⟩ : operandWidth < resultWidth ∧ resultWidth ≤ 64 ∧ n < 2 ^ 64 := by
        omega
      have hword : (UInt64.ofNat n).toNat = n := by
        rw [UInt64.toNat_ofNat', Nat.mod_eq_of_lt hn]
      obtain ⟨x, y, hx, hy, hxy, -⟩ := h (.u64 (UInt64.ofNat n)) (.wide n) hword rfl
      have hfast := evalTypedUnop_eq operandWidth resultWidth hop (.u64 (UInt64.ofNat n))
      have hwide := evalTypedUnop_eq operandWidth resultWidth hop (.wide n)
      rw [hx, Option.map_some, invertedWidth, if_pos (by omega), TestbenchValue.toBiguint,
        hword] at hfast
      rw [hy, Option.map_some] at hwide
      refine Op.unaryResult_ne hwider (Nat.mod_lt n (Nat.two_pow_pos _)) ?_
      rw [← Option.some.inj hfast, hxy]
      exact Option.some.inj hwide
    refine ⟨hinverted, ?_⟩
    obtain ⟨x, y, hx, -, -, hlt⟩ := h (.wide n) (.wide n) rfl rfl
    have hwide := evalTypedUnop_eq operandWidth resultWidth hop (.wide n)
    rw [hx, Option.map_some, Option.some.injEq] at hwide
    rwa [hwide, Op.unaryResult_lt_iff] at hlt
  · rintro ⟨hinverted, hzero⟩ v v' rfl hv'
    have hsame : op = .bitNot → invertedWidth operandWidth resultWidth v' =
          invertedWidth operandWidth resultWidth v ∨
        resultWidth ≤ invertedWidth operandWidth resultWidth v' ∧
          resultWidth ≤ invertedWidth operandWidth resultWidth v := by
      intro hnot
      rcases hinverted hnot with hle | hbig | hn
      · exact .inr ⟨le_invertedWidth hle v', le_invertedWidth hle v⟩
      · have hown : ∀ u, invertedWidth operandWidth resultWidth u = operandWidth := by
          intro u
          cases u
          · rw [invertedWidth, if_neg (by omega)]
          · rfl
        exact .inl ((hown v').trans (hown v).symm)
      · have hown : ∀ u : TestbenchValue, 2 ^ 64 ≤ u.toBiguint →
            invertedWidth operandWidth resultWidth u = operandWidth := by
          intro u hu
          cases u with
          | u64 bits => exact absurd bits.toNat_lt (Nat.not_lt.mpr hu)
          | wide bits => rfl
        exact .inl ((hown v' (by rwa [hv'])).trans (hown v hn).symm)
    have hother := evalTypedUnop_eq operandWidth resultWidth hop v'
    rw [hv', Op.unaryResult_inverted hsame] at hother
    rw [agree_iff_of_map (evalTypedUnop_eq operandWidth resultWidth hop v) hother, Op.unaryResult_lt_iff]
    exact hzero

end Unary

/-! ## Resizing, concatenation and selection -/

section Shape

/-- The bits of a word at another width; a word of width zero repeats its lowest bit. -/
def resized (signed : Bool) (sourceWidth targetWidth n : Nat) : Nat :=
  if sourceWidth = 0 then (if n.testBit 0 = true then 2 ^ targetWidth - 1 else 0)
  else
    let bits := n % 2 ^ sourceWidth
    if targetWidth > sourceWidth ∧ signed = true ∧ bits.testBit (sourceWidth - 1) = true then
      bits ||| ((2 ^ targetWidth - 1) ^^^ (2 ^ sourceWidth - 1))
    else bits % 2 ^ targetWidth

theorem resized_lt (signed : Bool) (sourceWidth targetWidth n : Nat) :
    resized signed sourceWidth targetWidth n < 2 ^ targetWidth := by
  have hpos := Nat.two_pow_pos targetWidth
  unfold resized
  split
  · split <;> omega
  · dsimp only
    split
    · rename_i h
      have hlt := Nat.mod_lt n (Nat.two_pow_pos sourceWidth)
      have hle : 2 ^ sourceWidth ≤ 2 ^ targetWidth := Nat.pow_le_pow_right (by decide) h.1.le
      exact Nat.or_lt_two_pow (by omega) (Nat.xor_lt_two_pow (by omega) (by omega))
    · exact Nat.mod_lt _ hpos

theorem testBit_toU64 (value : TestbenchValue) :
    value.toU64 &&& 1 = 0 ↔ value.toBiguint.testBit 0 = false := by
  have hlow : value.toU64.toNat % 2 = value.toBiguint % 2 := by
    cases value with
    | u64 bits => rfl
    | wide bits =>
      rw [TestbenchValue.toU64, UInt64.toNat_ofNat', TestbenchValue.toBiguint]
      omega
  rw [← UInt64.toNat_inj, UInt64.toNat_and, UInt64.toNat_one, Nat.and_one_is_mod, hlow,
    UInt64.toNat_zero, Nat.testBit_zero]
  simp

theorem resizeWide_eq {sourceWidth targetWidth : Nat} (hs : sourceWidth ≠ 0)
    (value : TestbenchValue) (signed : Bool) :
    (resizeWide value sourceWidth targetWidth signed).toBiguint =
      resized signed sourceWidth targetWidth value.toBiguint := by
  have hlt := resized_lt signed sourceWidth targetWidth value.toBiguint
  unfold resizeWide normalizedBits
  rw [and_widthMask, toBiguint_tbValueFromBits, widthMask_eq, widthMask_eq]
  unfold resized at hlt ⊢
  rw [if_neg hs] at hlt ⊢
  dsimp only at hlt ⊢
  split
  · rename_i h
    rw [if_pos h] at hlt
    exact Nat.mod_eq_of_lt hlt
  · rfl

theorem resizeU64_eq {sourceWidth targetWidth : Nat} (hs : sourceWidth ≠ 0)
    (hs64 : sourceWidth ≤ 64) (ht64 : targetWidth ≤ 64) (value : UInt64) (signed : Bool) :
    (resizeU64 value sourceWidth targetWidth signed).toNat =
      resized signed sourceWidth targetWidth value.toNat := by
  have hlt := resized_lt signed sourceWidth targetWidth value.toNat
  have hmask := toNat_and_widthMaskU64 hs64 value
  unfold resizeU64
  rw [toNat_and_widthMaskU64 ht64]
  unfold resized at hlt ⊢
  rw [if_neg hs] at hlt ⊢
  dsimp only at hlt ⊢
  rw [← hmask] at hlt ⊢
  generalize value &&& widthMaskU64 sourceWidth = bits at hlt ⊢
  simp only [ne_eq, and_bit_eq_zero hs64, Bool.not_eq_false]
  split
  · rename_i h
    rw [if_pos h] at hlt
    rw [UInt64.toNat_or, UInt64.toNat_xor, toNat_widthMaskU64 hs64, toNat_widthMaskU64 ht64]
    exact Nat.mod_eq_of_lt hlt
  · rfl

theorem resizeTbValue_eq (value : TestbenchValue) (sourceWidth targetWidth : Nat) (signed : Bool) :
    (resizeTbValue value sourceWidth targetWidth signed).toBiguint =
      resized signed sourceWidth targetWidth value.toBiguint := by
  unfold resizeTbValue
  split
  · rename_i h
    subst h
    have hlt := resized_lt signed sourceWidth 0 value.toBiguint
    rw [TestbenchValue.toBiguint, UInt64.toNat_zero]
    omega
  · split
    · rename_i h
      subst h
      rw [resized, if_pos rfl, toBiguint_tbValueFromBits, widthMask_eq]
      have hpos := Nat.two_pow_pos targetWidth
      cases hbit : value.toBiguint.testBit 0
      · rw [if_pos ((testBit_toU64 value).mpr hbit), if_neg (by decide), Nat.zero_mod]
      · rw [if_neg (by rw [testBit_toU64, hbit]; decide), if_pos rfl]
        exact Nat.mod_eq_of_lt (by omega)
    · rename_i hs
      cases value with
      | u64 bits =>
        dsimp only
        split
        · rename_i h
          exact resizeU64_eq hs h.1 h.2 bits signed
        · exact resizeWide_eq hs _ signed
      | wide bits => exact resizeWide_eq hs _ signed

/-- `Resize` on any two ways to hold its operand. -/
theorem agree_resize {v v' : TestbenchValue} (h : v.toBiguint = v'.toBiguint)
    (sourceWidth targetWidth : Nat) (signed : Bool) :
    Agree targetWidth (some (resizeTbValue v sourceWidth targetWidth signed))
      (some (resizeTbValue v' sourceWidth targetWidth signed)) := by
  refine ⟨_, _, rfl, rfl, ?_, ?_⟩
  · rw [resizeTbValue_eq, resizeTbValue_eq, h]
  · rw [resizeTbValue_eq]
    exact resized_lt _ _ _ _

/-- The two parts in a row. -/
def concatenation (partWidth accumulator part : Nat) : Nat :=
  accumulator <<< partWidth ||| part % 2 ^ partWidth

theorem testBit_concatenation (partWidth accumulator part i : Nat) :
    (concatenation partWidth accumulator part).testBit i =
      if i < partWidth then part.testBit i else accumulator.testBit (i - partWidth) := by
  rw [concatenation, Nat.testBit_or, Nat.testBit_shiftLeft, Nat.testBit_mod_two_pow]
  by_cases hi : i < partWidth
  · simp [hi, Nat.not_le.mpr hi]
  · simp [hi, Nat.not_lt.mp hi]

theorem concatPartU64_eq (accumulator part : UInt64) (partWidth : Nat) :
    (concatPartU64 accumulator part partWidth).toNat =
      concatenation partWidth accumulator.toNat part.toNat % 2 ^ 64 := by
  have hpart := part.toNat_lt
  unfold concatPartU64 concatenation
  dsimp only
  rw [UInt64.toNat_or, Nat.or_mod_two_pow]
  have hmod : part.toNat % 2 ^ partWidth % 2 ^ 64 = part.toNat % 2 ^ partWidth :=
    Nat.mod_eq_of_lt (Nat.lt_of_le_of_lt (Nat.mod_le _ _) hpart)
  rw [hmod]
  split
  · rename_i h
    have hpow : 2 ^ 64 ≤ 2 ^ partWidth := Nat.pow_le_pow_right (by decide) h
    have hdvd : 2 ^ 64 ∣ accumulator.toNat <<< partWidth := by
      rw [Nat.shiftLeft_eq]
      exact Dvd.dvd.mul_left (Nat.pow_dvd_pow 2 h) _
    rw [Nat.mod_eq_zero_of_dvd hdvd, Nat.mod_eq_of_lt (by omega), UInt64.toNat_zero, Nat.zero_or,
      Nat.zero_or, UInt64.toNat_and]
    have hones : (widthMaskU64 partWidth).toNat = 2 ^ 64 - 1 := by
      rw [widthMaskU64, if_neg (by omega), if_neg (by omega)]
      rfl
    rw [hones, Nat.and_two_pow_sub_one_eq_mod, Nat.mod_eq_of_lt hpart]
  · rw [toNat_and_widthMaskU64 (by omega), UInt64.toNat_shiftLeft, UInt64.toNat_ofNat',
      Nat.mod_eq_of_lt (by omega : partWidth < 2 ^ 64), Nat.mod_eq_of_lt (by omega : partWidth < 64)]

theorem concatPartWide_eq (accumulator part : TestbenchValue) (partWidth resultWidth : Nat) :
    (concatPartWide accumulator part partWidth resultWidth).toBiguint =
      concatenation partWidth accumulator.toBiguint part.toBiguint % 2 ^ resultWidth := by
  rw [concatPartWide, toBiguint_tbValueFromBits, normalizedBits, and_widthMask]
  rfl

/-- Words below a power of two have no bit from there on. -/
theorem mod_lt_two_pow_iff {n width wide : Nat} :
    n % 2 ^ wide < 2 ^ width ↔ ∀ i, width ≤ i → i < wide → n.testBit i = false := by
  constructor
  · intro h i hi hwide
    have hbit := Nat.testBit_lt_two_pow (Nat.lt_of_lt_of_le h (Nat.pow_le_pow_right (by decide) hi))
    rwa [Nat.testBit_mod_two_pow, decide_eq_true hwide, Bool.true_and] at hbit
  · intro h
    refine Nat.lt_pow_two_of_testBit _ fun i hi => ?_
    rw [Nat.testBit_mod_two_pow]
    by_cases hwide : i < wide
    · rw [h i hi hwide, Bool.and_false]
    · simp [hwide]

/-- `ConcatPart` on every two ways to hold its operands. -/
theorem agree_concatPart (a p partWidth resultWidth : Nat) :
    (∀ x x' y y' : TestbenchValue, x.toBiguint = a → x'.toBiguint = a → y.toBiguint = p →
      y'.toBiguint = p →
      Agree resultWidth (some (concatPart x y partWidth resultWidth))
        (some (concatPart x' y' partWidth resultWidth))) ↔
      (resultWidth ≤ 64 → a < 2 ^ 64 → p < 2 ^ 64 → ∀ i, resultWidth ≤ i → i < 64 →
        (if i < partWidth then p.testBit i else a.testBit (i - partWidth)) = false) := by
  constructor
  · intro h hw ha hp
    have hword : ∀ n, n < 2 ^ 64 → (UInt64.ofNat n).toNat = n := by
      intro n hn
      rw [UInt64.toNat_ofNat', Nat.mod_eq_of_lt hn]
    obtain ⟨x, y, hx, -, -, hlt⟩ := h (.u64 (UInt64.ofNat a)) (.wide a) (.u64 (UInt64.ofNat p))
      (.wide p) (hword a ha) rfl (hword p hp) rfl
    rw [concatPart, if_pos hw, Option.some.injEq] at hx
    subst hx
    rw [TestbenchValue.toBiguint, concatPartU64_eq, hword a ha, hword p hp,
      mod_lt_two_pow_iff] at hlt
    simpa only [testBit_concatenation] using hlt
  · intro h
    have hvalue : ∀ x y : TestbenchValue, x.toBiguint = a → y.toBiguint = p →
        (concatPart x y partWidth resultWidth).toBiguint =
          concatenation partWidth a p % 2 ^ resultWidth := by
      rintro x y rfl rfl
      unfold concatPart
      split
      · rename_i accumulator part
        split
        · rename_i hw
          have hbits := h hw accumulator.toNat_lt part.toNat_lt
          simp only [← testBit_concatenation] at hbits
          rw [TestbenchValue.toBiguint, concatPartU64_eq,
            ← Nat.mod_mod_of_dvd _ (Nat.pow_dvd_pow 2 hw)]
          exact (Nat.mod_eq_of_lt (mod_lt_two_pow_iff.mpr hbits)).symm
        · exact concatPartWide_eq _ _ _ _
      · exact concatPartWide_eq _ _ _ _
    rintro x x' y y' hx hx' hy hy'
    refine ⟨_, _, rfl, rfl, ?_, ?_⟩
    · rw [hvalue x y hx hy, hvalue x' y' hx' hy']
    · rw [hvalue x y hx hy]
      exact Nat.mod_lt _ (Nat.two_pow_pos _)

theorem readLe_lt (memory : Memory) (location byteSize : Nat) :
    readLe memory location byteSize < 2 ^ (8 * byteSize) := by
  induction byteSize generalizing location with
  | zero => simp [readLe]
  | succ byteSize ih =>
    have hlow := (memory location).toNat_lt
    have hhigh := ih (location + 1)
    have hpow : 2 ^ (8 * (byteSize + 1)) = 256 * 2 ^ (8 * byteSize) := by
      rw [Nat.mul_succ, Nat.pow_add]
      ring
    rw [readLe, hpow]
    omega

theorem toNat_readLeU64 (memory : Memory) (location : Nat) {byteSize : Nat} (h : byteSize ≤ 8) :
    (readLeU64 memory location byteSize).toNat = readLe memory location byteSize := by
  have hlt := readLe_lt memory location byteSize
  have hpow : 2 ^ (8 * byteSize) ≤ 2 ^ 64 := Nat.pow_le_pow_right (by decide) (by omega)
  rw [readLeU64, Nat.min_eq_left h, UInt64.toNat_ofNat']
  exact Nat.mod_eq_of_lt (by omega)

theorem loadBitSelectU64_eq (memory : Memory) (location : Nat) {baseByteSize selectWidth shift : Nat}
    (hbase : baseByteSize ≤ 8) (hselect : selectWidth ≤ 64) (hshift : shift < 64) :
    (loadBitSelectU64 memory location baseByteSize selectWidth shift).map
        TestbenchValue.toBiguint =
      some (readLe memory location baseByteSize >>> shift % 2 ^ selectWidth) := by
  have hmask : (if selectWidth = 64 then UInt64.ofNat (2 ^ 64 - 1)
      else (1 <<< UInt64.ofNat selectWidth) - 1).toNat = 2 ^ selectWidth - 1 := by
    split
    · rename_i h
      subst h
      rfl
    · have hone := toNat_one_shiftLeft (show selectWidth < 64 by omega)
      have hpos : 1 ≤ 2 ^ selectWidth := Nat.one_le_two_pow
      rw [UInt64.toNat_sub_of_le _ _ (by rw [UInt64.le_iff_toNat_le, hone]; exact hpos), hone]
      rfl
  rw [loadBitSelectU64, if_pos hshift, Option.map_some, Option.some.injEq,
    TestbenchValue.toBiguint, UInt64.toNat_and, hmask, Nat.and_two_pow_sub_one_eq_mod,
    UInt64.toNat_shiftRight, toNat_readLeU64 memory location hbase, UInt64.toNat_ofNat',
    Nat.mod_eq_of_lt (by omega : shift < 2 ^ 64), Nat.mod_eq_of_lt hshift]

theorem loadBitSelectWide_eq (memory : Memory) (location baseByteSize selectWidth shift : Nat) :
    ∃ value, readLeWide memory location baseByteSize (saturatingMul baseByteSize 8) = some value ∧
      (baseByteSize ≤ 8 → value = readLe memory location baseByteSize) ∧
      (loadBitSelectWide memory location baseByteSize selectWidth shift).map
        TestbenchValue.toBiguint = some (value >>> shift % 2 ^ selectWidth) := by
  have hread : ∃ value,
      readLeWide memory location baseByteSize (saturatingMul baseByteSize 8) = some value ∧
      (baseByteSize ≤ 8 → value = readLe memory location baseByteSize) := by
    have hle : saturatingMul baseByteSize 8 ≤ baseByteSize * 8 := Nat.min_le_left _ _
    rw [readLeWide, if_neg (Nat.not_lt.mpr hle)]
    refine ⟨_, rfl, fun h => if_neg ?_⟩
    rw [saturatingMul, usizeMax]
    omega
  obtain ⟨value, hvalue, hsmall⟩ := hread
  refine ⟨value, hvalue, hsmall, ?_⟩
  rw [loadBitSelectWide, hvalue, Option.map_some, Option.map_some, Option.some.injEq,
    toBiguint_tbValueFromBits, and_widthMask, Nat.mod_mod]

/-- `LoadBitSelect` against its body over big integers. -/
theorem agree_loadBitSelect (memory : Memory) (location baseByteSize selectWidth : Nat)
    (index : TestbenchValue) :
    Agree selectWidth (loadBitSelect memory location baseByteSize selectWidth index)
        (loadBitSelectWide memory location baseByteSize selectWidth index.toU64.toNat) ↔
      (baseByteSize ≤ 8 → selectWidth ≤ 64 → index.toU64.toNat < 64) := by
  obtain ⟨value, -, hsmall, hwide⟩ :=
    loadBitSelectWide_eq memory location baseByteSize selectWidth index.toU64.toNat
  have hlt := Nat.mod_lt (value >>> index.toU64.toNat) (Nat.two_pow_pos selectWidth)
  unfold loadBitSelect
  dsimp only
  by_cases hfast : baseByteSize ≤ 8 ∧ selectWidth ≤ 64
  · rw [if_pos hfast]
    by_cases hshift : index.toU64.toNat < 64
    · have hu64 := loadBitSelectU64_eq memory location hfast.1 hfast.2 hshift
      rw [← hsmall hfast.1] at hu64
      rw [agree_iff_of_map hu64 hwide]
      exact ⟨fun _ _ _ => hshift, fun _ => hlt⟩
    · rw [loadBitSelectU64, if_neg hshift]
      refine ⟨?_, fun h => absurd (h hfast.1 hfast.2) hshift⟩
      rintro ⟨x, y, hx, -⟩
      cases hx
  · rw [if_neg hfast, agree_iff_of_map hwide hwide]
    exact ⟨fun _ hb hs => absurd ⟨hb, hs⟩ hfast, fun _ => hlt⟩

end Shape
end Celox.Testbench
