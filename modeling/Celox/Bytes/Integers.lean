import Mathlib

/-! # Little-endian byte strings of a fixed width -/
namespace Celox.Bytes

/-- The `width` low bytes of `value`, least significant first. -/
def leBytes : (width value : Nat) → List UInt8
  | 0, _ => []
  | width + 1, value => UInt8.ofNat value :: leBytes width (value / 256)

def ofLeBytes : List UInt8 → Nat
  | [] => 0
  | b :: bytes => b.toNat + 256 * ofLeBytes bytes

@[simp] theorem length_leBytes (width value : Nat) : (leBytes width value).length = width := by
  induction width generalizing value with
  | zero => rfl
  | succ width ih => simp [leBytes, ih]

theorem ofLeBytes_leBytes {width value : Nat} (h : value < 256 ^ width) :
    ofLeBytes (leBytes width value) = value := by
  induction width generalizing value with
  | zero => simp at h; simp [leBytes, ofLeBytes, h]
  | succ width ih =>
    have hdiv : value / 256 < 256 ^ width := by
      rw [Nat.div_lt_iff_lt_mul (by decide)]
      simpa [Nat.pow_succ] using h
    simp only [leBytes, ofLeBytes, ih hdiv, UInt8.toNat_ofNat']
    omega

/-- A part of a byte string, or `none` where the bounds do not fit it. -/
def slice? (bytes : List UInt8) (start stop : Nat) : Option (List UInt8) :=
  if start ≤ stop ∧ stop ≤ bytes.length then some ((bytes.take stop).drop start) else none

theorem slice?_eq {bytes : List UInt8} {start stop : Nat} (hle : start ≤ stop)
    (hlen : stop ≤ bytes.length) :
    slice? bytes start stop = some ((bytes.take stop).drop start) := if_pos ⟨hle, hlen⟩

theorem length_of_slice? {bytes part : List UInt8} {start stop : Nat}
    (h : slice? bytes start stop = some part) : part.length = stop - start := by
  unfold slice? at h
  split at h
  · simp only [Option.some.injEq] at h
    subst h
    simp only [List.length_drop, List.length_take]
    omega
  · simp at h

/-- The middle of three parts is found at its own bounds. -/
theorem slice?_append (before part after : List UInt8) :
    slice? (before ++ part ++ after) before.length (before.length + part.length) = some part := by
  rw [slice?_eq (by omega) (by simp)]
  rw [List.append_assoc, ← List.append_assoc, ← List.length_append, List.take_left,
    List.drop_left]

/-! ## Integers as bytes

Naturals with as few bytes as they need, and integers in two's complement, the low byte first. -/

/-- Numbers as bytes; what is written reads back. -/
structure ByteForm (α : Type) where
  toBytes : α → List UInt8
  fromBytes : List UInt8 → α
  fromBytes_toBytes : ∀ value, fromBytes (toBytes value) = value

def biguintBytes : ByteForm Nat where
  toBytes value := if value = 0 then [0] else leBytes ((value.size + 7) / 8) value
  fromBytes := ofLeBytes
  fromBytes_toBytes value := by
    split
    · rename_i h
      subst h
      rfl
    · refine ofLeBytes_leBytes ?_
      rw [show (256 : Nat) = 2 ^ 8 from rfl, ← Nat.pow_mul]
      exact Nat.lt_of_lt_of_le (Nat.lt_size_self value) (Nat.pow_le_pow_right (by decide) (by omega))

/-- The bytes of a number in two's complement, as few as there can be. -/
def signedByteCount (value : Int) : Nat :=
  (if 0 ≤ value then value.natAbs.size else (value.natAbs - 1).size) / 8 + 1

theorem signedByteCount_bounds (value : Int) :
    -((256 ^ signedByteCount value : Nat) : Int) ≤ 2 * value ∧
      2 * value < ((256 ^ signedByteCount value : Nat) : Int) := by
  have hpow : ∀ n : Nat, (2 : Nat) * 2 ^ n ≤ 256 ^ (n / 8 + 1) := by
    intro n
    rw [show (256 : Nat) = 2 ^ 8 from rfl, ← Nat.pow_mul, ← Nat.pow_succ']
    exact Nat.pow_le_pow_right (by decide) (by omega)
  unfold signedByteCount
  split
  · have hsize := Nat.lt_size_self value.natAbs
    have hle := hpow value.natAbs.size
    generalize 256 ^ (value.natAbs.size / 8 + 1) = modulus at hle ⊢
    omega
  · have hsize := Nat.lt_size_self (value.natAbs - 1)
    have hle := hpow (value.natAbs - 1).size
    generalize 256 ^ ((value.natAbs - 1).size / 8 + 1) = modulus at hle ⊢
    omega

/-- A number of a half below or above zero from its remainder. -/
def ofTwosComplement (modulus remainder : Nat) : Int :=
  if modulus ≤ 2 * remainder then (remainder : Int) - modulus else remainder

theorem ofTwosComplement_emod {modulus : Nat} {value : Int} (hlow : -(modulus : Int) ≤ 2 * value)
    (hhigh : 2 * value < modulus) :
    ofTwosComplement modulus (value % modulus).toNat = value := by
  unfold ofTwosComplement
  by_cases hneg : value < 0
  · have hmod : value % modulus = value + modulus := by
      rw [← Int.add_emod_right, Int.emod_eq_of_lt (by omega) (by omega)]
    rw [hmod, if_pos (by omega)]
    omega
  · rw [Int.emod_eq_of_lt (by omega) (by omega), if_neg (by omega)]
    omega

def bigintBytes : ByteForm Int where
  toBytes value :=
    leBytes (signedByteCount value) (value % (256 ^ signedByteCount value : Nat)).toNat
  fromBytes bytes := ofTwosComplement (256 ^ bytes.length) (ofLeBytes bytes)
  fromBytes_toBytes value := by
    obtain ⟨hlow, hhigh⟩ := signedByteCount_bounds value
    have hpos : 0 < 256 ^ signedByteCount value := Nat.pow_pos (by decide)
    rw [length_leBytes, ofLeBytes_leBytes, ofTwosComplement_emod hlow hhigh]
    have hlt := Int.emod_lt_of_pos value (Int.natCast_pos.mpr hpos)
    have hnonneg := Int.emod_nonneg value (Int.natCast_pos.mpr hpos).ne'
    omega

end Celox.Bytes
