import Celox.Bits.Residue

/-! # Constant expressions

`eval_constexpr` of `celox-frontend-veryl/src/lowering/bitaccess.rs` on the expression trees of the
analyzer, with the parts of a tree and of its types that the evaluation reads. -/
namespace Celox.Lowering

/-- The operators that are evaluated; `other` stands for the rest. -/
inductive Op where
  | add | sub | mul | div | rem
  | bitAnd | bitOr | bitXor | bitNot
  | logicShiftL | arithShiftL | logicShiftR | arithShiftR
  | eq | ne | less | lessEq | greater | greaterEq
  | other
  deriving Repr, DecidableEq

/-- What the analyzer knows at compile time. The source reads `signed` nowhere. -/
structure Comptime where
  isConst : Bool
  evaluated : Bool
  /-- The payload of `get_value()`. -/
  value : Option Nat
  totalWidth : Option Nat
  signed : Bool
  deriving Repr, DecidableEq

/-- `otherFactor` and `other` stand for the factors and expressions that are not evaluated. -/
inductive Expression where
  | varFactor (ct : Comptime)
  | valueFactor (ct : Comptime)
  | otherFactor (ct : Comptime)
  | binary (lhs : Expression) (op : Op) (rhs : Expression) (ct : Comptime)
  | unary (op : Op) (inner : Expression) (ct : Comptime)
  | other (ct : Comptime)
  deriving Repr, DecidableEq

def Expression.comptime : Expression → Comptime
  | .varFactor ct | .valueFactor ct | .otherFactor ct | .binary _ _ _ ct | .unary _ _ ct | .other ct => ct

/-- Why there is no value: `unknown` is `None`, `panic` a subtraction below zero. -/
inductive NoValue where
  | unknown
  | panic
  deriving Repr, DecidableEq

/-- The subtraction of a `BigUint`. -/
def bigSub (a b : Nat) : Except NoValue Nat := if b ≤ a then .ok (a - b) else .error .panic

/-- `total_width().unwrap_or(64)`. -/
def Comptime.width (ct : Comptime) : Nat := ct.totalWidth.getD 64

/-- `to_usize()?` of a shift amount. -/
def toUsize (n : Nat) : Except NoValue Nat := if n < 2 ^ 64 then .ok n else .error .unknown

def evalBinary (op : Op) (width l r : Nat) : Except NoValue Nat :=
  match op with
  | .add => .ok (l + r)
  | .sub =>
    if r ≤ l then .ok (l - r)
    else do
      let gap ← bigSub r l
      bigSub (2 ^ width) gap
  | .mul => .ok (l * r)
  | .div => if r = 0 then .error .unknown else .ok (l / r)
  | .rem => if r = 0 then .error .unknown else .ok (l % r)
  | .bitAnd => .ok (l &&& r)
  | .bitOr => .ok (l ||| r)
  | .bitXor => .ok (l ^^^ r)
  | .logicShiftL | .arithShiftL => do
    let amount ← toUsize r
    .ok (l <<< amount)
  | .logicShiftR | .arithShiftR => do
    let amount ← toUsize r
    .ok (l >>> amount)
  | .eq => .ok (l == r).toNat
  | .ne => .ok (l != r).toNat
  | .less => .ok (decide (l < r)).toNat
  | .lessEq => .ok (decide (l ≤ r)).toNat
  | .greater => .ok (decide (r < l)).toNat
  | .greaterEq => .ok (decide (r ≤ l)).toNat
  | .bitNot | .other => .error .unknown

def evalUnary (op : Op) (width v : Nat) : Except NoValue Nat :=
  match op with
  | .add => .ok v
  | .sub => if v = 0 then .ok v else bigSub (2 ^ width) v
  | .bitNot => do
    let mask ← bigSub (2 ^ width) 1
    .ok (v ^^^ mask)
  | _ => .error .unknown

/-- The value that the analyzer computed, else the recursive evaluation of a constant. -/
def knownOr (ct : Comptime) (isValue : Bool) (recursive : Except NoValue Nat) :
    Except NoValue Nat :=
  if ct.isConst || (isValue && ct.evaluated) then
    match ct.value with
    | some v => .ok v
    | none => recursive
  else .error .unknown

/-- `get_value().ok()`. -/
def Comptime.payload (ct : Comptime) : Except NoValue Nat :=
  match ct.value with
  | some v => .ok v
  | none => .error .unknown

def evalConstexpr : Expression → Except NoValue Nat
  | .varFactor ct => knownOr ct false ct.payload
  | .valueFactor ct => knownOr ct true ct.payload
  | .binary lhs op rhs ct => knownOr ct false do
    let l ← evalConstexpr lhs
    let r ← evalConstexpr rhs
    evalBinary op ct.width l r
  | .unary op inner ct => knownOr ct false do
    let v ← evalConstexpr inner
    evalUnary op ct.width v
  | .otherFactor ct | .other ct => knownOr ct false (.error .unknown)

end Celox.Lowering

/-! ## Constant expressions at their width

The meaning of a constant expression performs every operation at the width and the signedness of its
type, as `resolve_binary_op` chooses the operators of the running design. `eval_constexpr` keeps
unbounded unsigned numbers. The two agree where no operation leaves its width and no sign counts. -/
namespace Celox.Lowering
open Celox.Bits (residue residue_lt modEq_residue residue_congr residue_natCast xor_mask_mod)
open Celox.Bytes (ofTwosComplement)

/-- A value with its type. -/
structure Operand where
  payload : Nat
  width : Nat
  signed : Bool
  deriving Repr, DecidableEq

def Expression.operand (e : Expression) (payload : Nat) : Operand :=
  ⟨payload, e.comptime.width, e.comptime.signed⟩

/-- The number that an operand stands for in an operation with or without signs. -/
def Operand.read (a : Operand) (signed : Bool) : Int :=
  if signed then ofTwosComplement (2 ^ a.width) a.payload else a.payload

/-- The numbers of both operands, signed where both are. -/
def reads (a b : Operand) : Int × Int :=
  (a.read (a.signed && b.signed), b.read (a.signed && b.signed))

def denoteBinary (op : Op) (width : Nat) (a b : Operand) : Option Nat :=
  match op with
  | .add => some (residue width ((reads a b).1 + (reads a b).2))
  | .sub => some (residue width ((reads a b).1 - (reads a b).2))
  | .mul => some (residue width ((reads a b).1 * (reads a b).2))
  | .div => if b.payload = 0 then none else some (residue width ((reads a b).1.tdiv (reads a b).2))
  | .rem => if b.payload = 0 then none else some (residue width ((reads a b).1.tmod (reads a b).2))
  | .bitAnd => some (residue width (reads a b).1 &&& residue width (reads a b).2)
  | .bitOr => some (residue width (reads a b).1 ||| residue width (reads a b).2)
  | .bitXor => some (residue width (reads a b).1 ^^^ residue width (reads a b).2)
  -- The amount of a shift has no sign, whatever its type.
  | .logicShiftL | .arithShiftL =>
    if b.payload < 2 ^ 64 then some (residue width (a.read a.signed * 2 ^ b.payload)) else none
  | .logicShiftR =>
    if b.payload < 2 ^ 64 then some (residue width (a.read a.signed) >>> b.payload) else none
  | .arithShiftR =>
    if b.payload < 2 ^ 64 then some (residue width (a.read a.signed / 2 ^ b.payload)) else none
  | .eq => some (decide ((reads a b).1 = (reads a b).2)).toNat
  | .ne => some (decide ((reads a b).1 ≠ (reads a b).2)).toNat
  | .less => some (decide ((reads a b).1 < (reads a b).2)).toNat
  | .lessEq => some (decide ((reads a b).1 ≤ (reads a b).2)).toNat
  | .greater => some (decide ((reads a b).2 < (reads a b).1)).toNat
  | .greaterEq => some (decide ((reads a b).2 ≤ (reads a b).1)).toNat
  | .bitNot | .other => none

def denoteUnary (op : Op) (width : Nat) (a : Operand) : Option Nat :=
  match op with
  | .add => some (residue width (a.read a.signed))
  | .sub => some (residue width (-a.read a.signed))
  | .bitNot => some (residue width (-a.read a.signed - 1))
  | _ => none

/-- The value of the analyzer is taken as it is. -/
def denoteOr (ct : Comptime) (isValue : Bool) (recursive : Option Nat) : Option Nat :=
  if ct.isConst || (isValue && ct.evaluated) then ct.value.or recursive else none

/-- The value of a constant expression; none where an operand is unknown, the operator is not
evaluated, a divisor is zero or the amount of a shift is no `usize`. -/
def denote : Expression → Option Nat
  | .varFactor ct => denoteOr ct false none
  | .valueFactor ct => denoteOr ct true none
  | .binary lhs op rhs ct => denoteOr ct false do
    let l ← denote lhs
    let r ← denote rhs
    denoteBinary op ct.width (lhs.operand l) (rhs.operand r)
  | .unary op inner ct => denoteOr ct false do
    let v ← denote inner
    denoteUnary op ct.width (inner.operand v)
  | .otherFactor ct | .other ct => denoteOr ct false none

/-- `none` is what the evaluator calls unknown. -/
def outcome : Option Nat → Except NoValue Nat
  | some v => .ok v
  | none => .error .unknown

/-! ## Operations that fit -/

/-- The operation on the payloads, as unbounded numbers without signs, is in the width and is the
one on the numbers that the operands stand for. -/
def FitsBinary (op : Op) (width : Nat) (a b : Operand) : Prop :=
  match op with
  | .add => a.payload + b.payload < 2 ^ width ∧
      (a.payload + b.payload : Int) ≡ (reads a b).1 + (reads a b).2 [ZMOD (2 ^ width : Nat)]
  | .sub => a.payload < b.payload + 2 ^ width ∧ b.payload ≤ a.payload + 2 ^ width ∧
      (a.payload - b.payload : Int) ≡ (reads a b).1 - (reads a b).2 [ZMOD (2 ^ width : Nat)]
  | .mul => a.payload * b.payload < 2 ^ width ∧
      (a.payload * b.payload : Int) ≡ (reads a b).1 * (reads a b).2 [ZMOD (2 ^ width : Nat)]
  | .div => b.payload ≠ 0 → a.payload / b.payload < 2 ^ width ∧
      (a.payload / b.payload : Int) ≡ (reads a b).1.tdiv (reads a b).2 [ZMOD (2 ^ width : Nat)]
  | .rem => b.payload ≠ 0 → a.payload % b.payload < 2 ^ width ∧
      (a.payload % b.payload : Int) ≡ (reads a b).1.tmod (reads a b).2 [ZMOD (2 ^ width : Nat)]
  | .bitAnd => a.payload &&& b.payload = residue width (reads a b).1 &&& residue width (reads a b).2
  | .bitOr => a.payload ||| b.payload = residue width (reads a b).1 ||| residue width (reads a b).2
  | .bitXor => a.payload ^^^ b.payload = residue width (reads a b).1 ^^^ residue width (reads a b).2
  | .logicShiftL | .arithShiftL => b.payload < 2 ^ 64 → a.payload * 2 ^ b.payload < 2 ^ width ∧
      (a.payload * 2 ^ b.payload : Int) ≡ a.read a.signed * 2 ^ b.payload [ZMOD (2 ^ width : Nat)]
  | .logicShiftR => b.payload < 2 ^ 64 →
      a.payload >>> b.payload = residue width (a.read a.signed) >>> b.payload
  | .arithShiftR => b.payload < 2 ^ 64 → a.payload / 2 ^ b.payload < 2 ^ width ∧
      (a.payload / 2 ^ b.payload : Int) ≡ a.read a.signed / 2 ^ b.payload [ZMOD (2 ^ width : Nat)]
  | .eq | .ne => a.payload = b.payload ↔ (reads a b).1 = (reads a b).2
  | .less | .greaterEq => a.payload < b.payload ↔ (reads a b).1 < (reads a b).2
  | .lessEq | .greater => a.payload ≤ b.payload ↔ (reads a b).1 ≤ (reads a b).2
  | .bitNot | .other => True

def FitsUnary (op : Op) (width : Nat) (a : Operand) : Prop :=
  match op with
  | .add | .bitNot => a.payload < 2 ^ width ∧ (a.payload : Int) ≡ a.read a.signed [ZMOD (2 ^ width : Nat)]
  | .sub => a.payload ≤ 2 ^ width ∧ (a.payload : Int) ≡ a.read a.signed [ZMOD (2 ^ width : Nat)]
  | _ => True

section Operations
variable {width : Nat} {a b : Operand}

theorem eq_residue_iff {n : Nat} {z : Int} :
    n = residue width z ↔ n < 2 ^ width ∧ (n : Int) ≡ z [ZMOD (2 ^ width : Nat)] := by
  constructor
  · rintro rfl
    exact ⟨residue_lt width z, modEq_residue width z⟩
  · rintro ⟨hn, hmod⟩
    rw [← residue_congr hmod, residue_natCast, Nat.mod_eq_of_lt hn]

theorem eq_some_residue_iff {n : Nat} {z : Int} :
    (.ok n : Except NoValue Nat) = outcome (some (residue width z)) ↔
      n < 2 ^ width ∧ (n : Int) ≡ z [ZMOD (2 ^ width : Nat)] := by
  rw [outcome, Except.ok.injEq, eq_residue_iff]

theorem bigSub_eq_residue_iff {m n : Nat} {z : Int} :
    bigSub m n = outcome (some (residue width z)) ↔
      n ≤ m ∧ m < n + 2 ^ width ∧ (m - n : Int) ≡ z [ZMOD (2 ^ width : Nat)] := by
  unfold bigSub
  by_cases hle : n ≤ m
  · rw [if_pos hle, eq_some_residue_iff, Nat.cast_sub hle]
    constructor
    · exact fun h => ⟨hle, by omega, h.2⟩
    · exact fun h => ⟨by omega, h.2.2⟩
  · rw [if_neg hle]
    exact ⟨nofun, fun h => absurd h.1 hle⟩

theorem evalSub_iff {l r : Nat} {z : Int} :
    evalBinary .sub width l r = outcome (some (residue width z)) ↔
      l < r + 2 ^ width ∧ r ≤ l + 2 ^ width ∧ (l - r : Int) ≡ z [ZMOD (2 ^ width : Nat)] := by
  have hpos : 0 < 2 ^ width := Nat.two_pow_pos width
  unfold evalBinary
  dsimp only
  by_cases hle : r ≤ l
  · rw [if_pos hle, eq_some_residue_iff, Nat.cast_sub hle]
    constructor
    · exact fun h => ⟨by omega, by omega, h.2⟩
    · exact fun h => ⟨by omega, h.2.2⟩
  · have hgap : bigSub r l = .ok (r - l) := if_pos (by omega)
    rw [if_neg hle, hgap]
    show bigSub (2 ^ width) (r - l) = _ ↔ _
    rw [bigSub_eq_residue_iff, Nat.cast_sub (by omega)]
    -- The modulus that is added does not count.
    have hmod : ((2 ^ width : Nat) - (r - l) : Int) ≡ l - r [ZMOD (2 ^ width : Nat)] := by
      have hcast : ((2 ^ width : Nat) - (r - l) : Int) = l - r + (2 ^ width : Nat) := by ring
      rw [hcast]
      exact Int.add_modEq_right
    constructor
    · exact fun h => ⟨by omega, by omega, hmod.symm.trans h.2.2⟩
    · exact fun h => ⟨by omega, by omega, hmod.trans h.2.2⟩

theorem ok_toNat_iff {p q : Prop} [Decidable p] [Decidable q] :
    (.ok (decide p).toNat : Except NoValue Nat) = outcome (some (decide q).toNat) ↔ (p ↔ q) := by
  by_cases hp : p <;> by_cases hq : q <;> simp [hp, hq, outcome]

theorem toUsize_of_lt {n : Nat} (h : n < 2 ^ 64) : toUsize n = .ok n := if_pos h

theorem toUsize_of_not_lt {n : Nat} (h : ¬n < 2 ^ 64) : toUsize n = .error .unknown := if_neg h

/-- A binary operation is the one at its width exactly where it fits. -/
theorem evalBinary_iff {op : Op} :
    evalBinary op width a.payload b.payload = outcome (denoteBinary op width a b) ↔
      FitsBinary op width a b := by
  cases op with
  | sub => exact evalSub_iff
  | add | mul =>
    simp only [evalBinary, denoteBinary, FitsBinary, eq_some_residue_iff]
    push_cast
    rfl
  | div | rem =>
    simp only [evalBinary, denoteBinary, FitsBinary]
    by_cases hzero : b.payload = 0
    · simp [hzero, outcome]
    · simp only [hzero, if_false, eq_some_residue_iff, ne_eq, not_false_eq_true, forall_const]
      push_cast
      rfl
  | bitAnd | bitOr | bitXor =>
    simp only [evalBinary, denoteBinary, FitsBinary, outcome, Except.ok.injEq]
  | logicShiftL | arithShiftL =>
    simp only [evalBinary, denoteBinary, FitsBinary]
    by_cases hlt : b.payload < 2 ^ 64
    · simp only [toUsize_of_lt hlt, hlt, if_true, forall_const]
      show (.ok (a.payload <<< b.payload) : Except NoValue Nat) = _ ↔ _
      rw [eq_some_residue_iff, Nat.shiftLeft_eq]
      push_cast
      rfl
    · simp only [toUsize_of_not_lt hlt, hlt, if_false, false_imp_iff, iff_true]
      rfl
  | logicShiftR =>
    simp only [evalBinary, denoteBinary, FitsBinary]
    by_cases hlt : b.payload < 2 ^ 64
    · simp only [toUsize_of_lt hlt, hlt, if_true, forall_const]
      show (.ok (a.payload >>> b.payload) : Except NoValue Nat) = _ ↔ _
      rw [outcome, Except.ok.injEq]
    · simp only [toUsize_of_not_lt hlt, hlt, if_false, false_imp_iff, iff_true]
      rfl
  | arithShiftR =>
    simp only [evalBinary, denoteBinary, FitsBinary]
    by_cases hlt : b.payload < 2 ^ 64
    · simp only [toUsize_of_lt hlt, hlt, if_true, forall_const]
      show (.ok (a.payload >>> b.payload) : Except NoValue Nat) = _ ↔ _
      rw [eq_some_residue_iff, Nat.shiftRight_eq_div_pow]
      push_cast
      rfl
    · simp only [toUsize_of_not_lt hlt, hlt, if_false, false_imp_iff, iff_true]
      rfl
  | eq =>
    have heq : (a.payload == b.payload) = decide (a.payload = b.payload) := by
      rw [Bool.eq_iff_iff]
      simp
    simp only [evalBinary, heq]
    exact ok_toNat_iff
  | ne =>
    have hne : (a.payload != b.payload) = decide (a.payload ≠ b.payload) := by
      rw [Bool.eq_iff_iff]
      simp
    simp only [evalBinary, hne]
    exact ok_toNat_iff.trans not_iff_not
  | less | lessEq => exact ok_toNat_iff
  | greater => exact ok_toNat_iff.trans (by simp only [FitsBinary]; omega)
  | greaterEq => exact ok_toNat_iff.trans (by simp only [FitsBinary]; omega)
  | bitNot | other => exact iff_of_true rfl trivial

theorem xor_mask_lt_iff {v : Nat} : v ^^^ (2 ^ width - 1) < 2 ^ width ↔ v < 2 ^ width := by
  have hmask : 2 ^ width - 1 < 2 ^ width := Nat.sub_one_lt (Nat.two_pow_pos width).ne'
  constructor
  · intro h
    have hback := Nat.xor_lt_two_pow h hmask
    rwa [Nat.xor_assoc, Nat.xor_self, Nat.xor_zero] at hback
  · exact fun h => Nat.xor_lt_two_pow h hmask

theorem xor_mask {v : Nat} (h : v < 2 ^ width) : v ^^^ (2 ^ width - 1) = 2 ^ width - 1 - v := by
  have hnot := xor_mask_mod width v
  rwa [Nat.mod_eq_of_lt h, Nat.mod_eq_of_lt (xor_mask_lt_iff.mpr h)] at hnot

theorem evalNot_iff {v : Nat} {z : Int} :
    evalUnary .bitNot width v = outcome (some (residue width (-z - 1))) ↔
      v < 2 ^ width ∧ (v : Int) ≡ z [ZMOD (2 ^ width : Nat)] := by
  have hmask : bigSub (2 ^ width) 1 = .ok (2 ^ width - 1) := if_pos (Nat.two_pow_pos width)
  unfold evalUnary
  dsimp only
  rw [hmask]
  show (.ok (v ^^^ (2 ^ width - 1)) : Except NoValue Nat) = _ ↔ _
  rw [eq_some_residue_iff, xor_mask_lt_iff]
  refine and_congr_right fun hlt => ?_
  have hcast : ((2 ^ width - 1 - v : Nat) : Int) = -v - 1 + (2 ^ width : Nat) := by
    rw [Nat.cast_sub (by omega), Nat.cast_sub (Nat.two_pow_pos width)]
    ring
  rw [xor_mask hlt, hcast]
  constructor
  · intro h
    have hneg : (-v - 1 : Int) ≡ -z - 1 [ZMOD (2 ^ width : Nat)] := Int.add_modEq_right.symm.trans h
    have hadd := (hneg.add_right 1).neg
    simpa using hadd
  · intro h
    exact Int.add_modEq_right.trans (h.neg.sub_right 1)

theorem modEq_neg_iff {x z : Int} : -x ≡ -z [ZMOD (2 ^ width : Nat)] ↔ x ≡ z [ZMOD (2 ^ width : Nat)] :=
  ⟨fun h => by simpa using h.neg, fun h => h.neg⟩

theorem evalNeg_iff {v : Nat} {z : Int} :
    evalUnary .sub width v = outcome (some (residue width (-z))) ↔
      v ≤ 2 ^ width ∧ (v : Int) ≡ z [ZMOD (2 ^ width : Nat)] := by
  have hpos : 0 < 2 ^ width := Nat.two_pow_pos width
  unfold evalUnary
  dsimp only
  by_cases hzero : v = 0
  · subst hzero
    rw [if_pos rfl, eq_some_residue_iff, ← modEq_neg_iff (z := z)]
    simp
  · have hcast : ((2 ^ width : Nat) - v : Int) = -v + (2 ^ width : Nat) := by ring
    rw [if_neg hzero, bigSub_eq_residue_iff, hcast, ← modEq_neg_iff (z := z)]
    constructor
    · exact fun h => ⟨h.1, Int.add_modEq_right.symm.trans h.2.2⟩
    · exact fun h => ⟨h.1, by omega, Int.add_modEq_right.trans h.2⟩

/-- A unary operation is the one at its width exactly where it fits. -/
theorem evalUnary_iff {op : Op} :
    evalUnary op width a.payload = outcome (denoteUnary op width a) ↔ FitsUnary op width a := by
  cases op with
  | add => exact eq_some_residue_iff
  | sub => exact evalNeg_iff
  | bitNot => exact evalNot_iff
  | _ => exact iff_of_true rfl trivial

theorem evalBinary_unknown {op : Op} (h : evalBinary op width a.payload b.payload = .error .unknown) :
    denoteBinary op width a b = none := by
  cases op with
  | sub =>
    simp only [evalBinary, bigSub] at h
    split at h
    · cases h
    · rename_i hlt
      rw [if_pos (by omega)] at h
      change (if _ then _ else _) = _ at h
      split at h <;> cases h
  | div | rem =>
    simp only [evalBinary] at h
    split at h
    · exact if_pos ‹_›
    · cases h
  | logicShiftL | arithShiftL | logicShiftR | arithShiftR =>
    by_cases hlt : b.payload < 2 ^ 64
    · simp only [evalBinary, toUsize_of_lt hlt] at h
      cases h
    · exact if_neg hlt
  | bitNot | other => rfl
  | _ => cases h

theorem evalUnary_unknown {op : Op} (h : evalUnary op width a.payload = .error .unknown) :
    denoteUnary op width a = none := by
  cases op with
  | sub =>
    simp only [evalUnary, bigSub] at h
    split at h
    · cases h
    · split at h <;> cases h
  | bitNot =>
    have hmask : bigSub (2 ^ width) 1 = .ok (2 ^ width - 1) := if_pos (Nat.two_pow_pos width)
    simp only [evalUnary, hmask] at h
    cases h
  | add => cases h
  | _ => rfl

end Operations

/-! ## Trees -/

/-- A constant whose value the analyzer left open. -/
def Comptime.Recursed (ct : Comptime) : Prop := ct.isConst = true ∧ ct.value = none

/-- Every operation that is evaluated fits. -/
def Fits : Expression → Prop
  | .binary lhs op rhs ct => ct.Recursed → Fits lhs ∧ (denote lhs ≠ none → Fits rhs) ∧
      ∀ l r, denote lhs = some l → denote rhs = some r →
        FitsBinary op ct.width (lhs.operand l) (rhs.operand r)
  | .unary op inner ct => ct.Recursed → Fits inner ∧
      ∀ v, denote inner = some v → FitsUnary op ct.width (inner.operand v)
  | _ => True

/-- An operation whose result can leave the width of its type. -/
def Wraps : Expression → Prop
  | .binary _ op _ ct => ct.Recursed ∧ op ∈ [Op.add, .sub, .mul, .logicShiftL, .arithShiftL]
  | .unary op _ ct => ct.Recursed ∧ op ∈ [Op.sub, .bitNot]
  | _ => False

/-- Where there is a value, the evaluation does not panic and gives the value of the expression. -/
def ExactAt (e : Expression) : Prop :=
  evalConstexpr e ≠ .error .unknown →
    ∃ v, evalConstexpr e = .ok v ∧ denote e = some v ∧ (Wraps e → v < 2 ^ e.comptime.width)

/-- The evaluation is exact at the expression and at every one that it evaluates on the way. -/
def Exact : Expression → Prop
  | .binary lhs op rhs ct => ExactAt (.binary lhs op rhs ct) ∧
      (ct.Recursed → Exact lhs ∧ (evalConstexpr lhs ≠ .error .unknown → Exact rhs))
  | .unary op inner ct => ExactAt (.unary op inner ct) ∧ (ct.Recursed → Exact inner)
  | e => ExactAt e

section Trees
variable {e lhs rhs inner : Expression} {op : Op} {ct : Comptime}

theorem outcome_ne_unknown {o : Option Nat} : outcome o ≠ .error .unknown ↔ o ≠ none := by
  cases o <;> simp [outcome]

/-- Outside the recursion there is the value of the analyzer or none. -/
theorem knownOr_eq {isValue : Bool} {x : Except NoValue Nat} {o : Option Nat}
    (h : ct.value = none → ct.isConst || (isValue && ct.evaluated) → x = outcome o) :
    knownOr ct isValue x = outcome (denoteOr ct isValue o) := by
  unfold knownOr denoteOr
  split
  · cases hvalue : ct.value with
    | some v => rfl
    | none => exact h hvalue ‹_›
  · rfl

theorem knownOr_recursed (h : ct.Recursed) {isValue : Bool} {x : Except NoValue Nat} :
    knownOr ct isValue x = x := by
  simp [knownOr, h.1, h.2]

theorem denoteOr_recursed (h : ct.Recursed) {isValue : Bool} {o : Option Nat} :
    denoteOr ct isValue o = o := by
  simp [denoteOr, h.1, h.2]

theorem evalConstexpr_binary (h : ct.Recursed) : evalConstexpr (.binary lhs op rhs ct) =
    evalConstexpr lhs >>= fun l => evalConstexpr rhs >>= fun r => evalBinary op ct.width l r :=
  knownOr_recursed h

theorem denote_binary (h : ct.Recursed) : denote (.binary lhs op rhs ct) =
    denote lhs >>= fun l => denote rhs >>= fun r =>
      denoteBinary op ct.width (lhs.operand l) (rhs.operand r) :=
  denoteOr_recursed h

theorem evalConstexpr_unary (h : ct.Recursed) : evalConstexpr (.unary op inner ct) =
    evalConstexpr inner >>= fun v => evalUnary op ct.width v :=
  knownOr_recursed h

theorem denote_unary (h : ct.Recursed) : denote (.unary op inner ct) =
    denote inner >>= fun v => denoteUnary op ct.width (inner.operand v) :=
  denoteOr_recursed h

theorem denote_lt (hwraps : Wraps e) {v : Nat} (h : denote e = some v) :
    v < 2 ^ e.comptime.width := by
  cases e with
  | varFactor | valueFactor | otherFactor | other => exact hwraps.elim
  | binary lhs op rhs ct =>
    obtain ⟨hct, hop⟩ := hwraps
    rw [denote_binary hct] at h
    obtain ⟨l, -, h⟩ := Option.bind_eq_some_iff.mp h
    obtain ⟨r, -, h⟩ := Option.bind_eq_some_iff.mp h
    simp only [List.mem_cons, List.not_mem_nil, or_false] at hop
    rcases hop with rfl | rfl | rfl | rfl | rfl
    case inl | inr.inl | inr.inr.inl =>
      cases h
      exact residue_lt ..
    all_goals
      obtain ⟨-, ⟨⟩⟩ := Option.ite_none_right_eq_some.mp h
      exact residue_lt ..
  | unary op inner ct =>
    obtain ⟨hct, hop⟩ := hwraps
    rw [denote_unary hct] at h
    obtain ⟨v, -, h⟩ := Option.bind_eq_some_iff.mp h
    simp only [List.mem_cons, List.not_mem_nil, or_false] at hop
    rcases hop with rfl | rfl <;> cases h <;> exact residue_lt ..

theorem exactAt_of_eq (h : evalConstexpr e = outcome (denote e)) : ExactAt e := by
  intro hne
  rw [h, outcome_ne_unknown] at hne
  obtain ⟨v, hv⟩ := Option.ne_none_iff_exists'.mp hne
  exact ⟨v, by rw [h, hv, outcome], hv, fun hwraps => denote_lt hwraps hv⟩

/-- The evaluation of a tree all of whose operations fit. -/
theorem Fits.eval (h : Fits e) : evalConstexpr e = outcome (denote e) := by
  induction e with
  | varFactor ct | valueFactor ct => exact knownOr_eq fun hvalue _ => by rw [Comptime.payload, hvalue]; rfl
  | otherFactor ct | other ct => exact knownOr_eq fun _ _ => rfl
  | binary lhs op rhs ct ihl ihr =>
    refine knownOr_eq fun hvalue hconst => ?_
    obtain ⟨hlhs, hrhs, hop⟩ := h ⟨by simpa using hconst, hvalue⟩
    rw [ihl hlhs]
    cases hl : denote lhs with
    | none => rfl
    | some l =>
      rw [ihr (hrhs (by simp [hl]))]
      cases hr : denote rhs with
      | none => rfl
      | some r => exact evalBinary_iff.mpr (hop l r hl hr)
  | unary op inner ct ih =>
    refine knownOr_eq fun hvalue hconst => ?_
    obtain ⟨hinner, hop⟩ := h ⟨by simpa using hconst, hvalue⟩
    rw [ih hinner]
    cases hv : denote inner with
    | none => rfl
    | some v => exact evalUnary_iff.mpr (hop v hv)

theorem Fits.exact (h : Fits e) : Exact e := by
  induction e with
  | varFactor ct | valueFactor ct | otherFactor ct | other ct => exact exactAt_of_eq h.eval
  | binary lhs op rhs ct ihl ihr =>
    refine ⟨exactAt_of_eq h.eval, fun hct => ?_⟩
    obtain ⟨hlhs, hrhs, -⟩ := h hct
    refine ⟨ihl hlhs, fun hne => ihr (hrhs ?_)⟩
    rwa [hlhs.eval, outcome_ne_unknown] at hne
  | unary op inner ct ih => exact ⟨exactAt_of_eq h.eval, fun hct => ih (h hct).1⟩

theorem Exact.fits (h : Exact e) : Fits e := by
  induction e with
  | varFactor | valueFactor | otherFactor | other => trivial
  | binary lhs op rhs ct ihl ihr =>
    intro hct
    obtain ⟨hl, hr⟩ := h.2 hct
    have hlhs := ihl hl
    have hrhs : denote lhs ≠ none → Fits rhs := fun hne =>
      ihr (hr (by rwa [hlhs.eval, outcome_ne_unknown]))
    refine ⟨hlhs, hrhs, fun l r hdl hdr => evalBinary_iff.mp ?_⟩
    have heval : evalConstexpr (.binary lhs op rhs ct) = evalBinary op ct.width l r := by
      rw [evalConstexpr_binary hct, hlhs.eval, (hrhs (by simp [hdl])).eval, hdl, hdr]
      rfl
    have hdenote : denote (.binary lhs op rhs ct) =
        denoteBinary op ct.width (lhs.operand l) (rhs.operand r) := by
      rw [denote_binary hct, hdl, hdr]
      rfl
    show evalBinary op ct.width l r = _
    by_cases hunknown : evalBinary op ct.width l r = .error .unknown
    · rw [evalBinary_unknown (a := lhs.operand l) (b := rhs.operand r) hunknown]
      exact hunknown
    · obtain ⟨v, hv, hd, -⟩ := h.1 (by rwa [heval])
      rw [← heval, hv, ← hdenote, hd, outcome]
  | unary op inner ct ih =>
    intro hct
    have hinner := ih (h.2 hct)
    refine ⟨hinner, fun v hdv => evalUnary_iff.mp ?_⟩
    have heval : evalConstexpr (.unary op inner ct) = evalUnary op ct.width v := by
      rw [evalConstexpr_unary hct, hinner.eval, hdv]
      rfl
    have hdenote : denote (.unary op inner ct) =
        denoteUnary op ct.width (inner.operand v) := by
      rw [denote_unary hct, hdv]
      rfl
    show evalUnary op ct.width v = _
    by_cases hunknown : evalUnary op ct.width v = .error .unknown
    · rw [evalUnary_unknown (a := inner.operand v) hunknown]
      exact hunknown
    · obtain ⟨w, hw, hd, -⟩ := h.1 (by rwa [heval])
      rw [← heval, hw, ← hdenote, hd, outcome]

/-- A literal of eight bits. -/
def byte (signed : Bool) (payload : Nat) : Expression :=
  .valueFactor ⟨true, true, some payload, some 8, signed⟩

/-- A constant whose value the analyzer left open. -/
def openType (width : Nat) (signed : Bool) : Comptime := ⟨true, false, none, some width, signed⟩

def byteSum (l r : Nat) : Expression := .binary (byte false l) .add (byte false r) (openType 8 false)

end Trees
end Celox.Lowering
