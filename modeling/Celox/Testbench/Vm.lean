import Mathlib

/-! # The stack machine of testbench expressions

Values are held in 64 bits where they fit and as big integers elsewhere; most operators have one
body for each. A panic is `none`. -/
namespace Celox.Testbench

inductive Op where
  | add | sub | mul | div | rem | pow
  | bitAnd | bitOr | bitXor | bitXnor | bitNand | bitNor
  | logicShiftL | logicShiftR | arithShiftL | arithShiftR
  | eq | eqWildcard | ne | neWildcard | less | lessEq | greater | greaterEq
  | logicAnd | logicOr | logicNot | bitNot
  deriving Repr, DecidableEq

inductive TestbenchValue where
  | u64 (value : UInt64)
  | wide (value : Nat)
  deriving Repr, DecidableEq

namespace TestbenchValue

def toU64 : TestbenchValue → UInt64
  | .u64 value => value
  | .wide value => UInt64.ofNat value

def isZero : TestbenchValue → Bool
  | .u64 value => value = 0
  | .wide value => value = 0

def toBiguint : TestbenchValue → Nat
  | .u64 value => value.toNat
  | .wide value => value

end TestbenchValue

/-! ## Widths and signs -/

def widthMask (width : Nat) : Nat := if width = 0 then 0 else 2 ^ width - 1

def widthMaskU64 (width : Nat) : UInt64 :=
  if width = 0 then 0
  else if width ≤ 63 then (1 <<< UInt64.ofNat width) - 1
  else UInt64.ofNat (2 ^ 64 - 1)

/-- `value as i64`. -/
def asI64 (value : UInt64) : Int :=
  if value.toNat < 2 ^ 63 then value.toNat else value.toNat - 2 ^ 64

def signedI128 (value : UInt64) (width : Nat) : Int :=
  let value := value &&& widthMaskU64 width
  if width = 0 ∨ 64 ≤ width then asI64 value
  else if value &&& (1 <<< UInt64.ofNat (width - 1)) = 0 then value.toNat
  else value.toNat - 2 ^ width

/-- `value as u64` of an `i128`. -/
def asU64 (value : Int) : UInt64 := UInt64.ofNat (value % 2 ^ 64).toNat

def normalizedBits (value : TestbenchValue) (width : Nat) : Nat :=
  value.toBiguint &&& widthMask width

def tbValueFromBits (value width : Nat) : TestbenchValue :=
  let value := value &&& widthMask width
  if width ≤ 64 then .u64 (UInt64.ofNat value) else .wide value

def signedBigint (value : TestbenchValue) (width : Nat) : Int :=
  let raw := normalizedBits value width
  if width = 0 ∨ raw.testBit (width - 1) = false then raw else raw - 2 ^ width

def signedBits (value : Int) (width : Nat) : Nat :=
  if width = 0 then 0
  else
    let modulus := 2 ^ width
    if value < 0 then
      let magnitude := (-value).toNat % modulus
      if magnitude = 0 then 0 else modulus - magnitude
    else value.toNat % modulus

def usizeMax : Nat := 2 ^ 64 - 1

/-- `to_usize().unwrap_or(usize::MAX)`. -/
def toUsizeOrMax (value : Nat) : Nat := if value ≤ usizeMax then value else usizeMax

def boolValue (value : Bool) : UInt64 := if value then 1 else 0

/-! ## Typed operators -/

/-- The rounds of the power loop, from the low bit of the exponent on. -/
def powLoop (resultMask base value : UInt64) (exponent : Nat) : UInt64 :=
  if exponent = 0 then value
  else
    let value := if exponent % 2 ≠ 0 then
      UInt64.ofNat (value.toNat * base.toNat) &&& resultMask else value
    let exponent := exponent / 2
    let base := if exponent ≠ 0 then
      UInt64.ofNat (base.toNat * base.toNat) &&& resultMask else base
    powLoop resultMask base value exponent
termination_by exponent

def evalTypedBinopU64 (l : UInt64) (op : Op) (r : UInt64) (lhsWidth rhsWidth resultWidth : Nat)
    (lhsSigned rhsSigned : Bool) : Option UInt64 :=
  let l := l &&& widthMaskU64 lhsWidth
  let r := r &&& widthMaskU64 rhsWidth
  let resultMask := widthMaskU64 resultWidth
  let signed := lhsSigned && rhsSigned
  match op with
  | .eq | .eqWildcard => some (boolValue (l = r))
  | .ne | .neWildcard => some (boolValue (l ≠ r))
  | .less => some (boolValue
      (if signed then signedI128 l lhsWidth < signedI128 r rhsWidth else l < r))
  | .lessEq => some (boolValue
      (if signed then signedI128 l lhsWidth ≤ signedI128 r rhsWidth else l ≤ r))
  | .greater => some (boolValue
      (if signed then signedI128 l lhsWidth > signedI128 r rhsWidth else l > r))
  | .greaterEq => some (boolValue
      (if signed then signedI128 l lhsWidth ≥ signedI128 r rhsWidth else l ≥ r))
  | .logicAnd => some (boolValue (l ≠ 0 ∧ r ≠ 0))
  | .logicOr => some (boolValue (l ≠ 0 ∨ r ≠ 0))
  | .add => some ((l + r) &&& resultMask)
  | .sub => some ((l - r) &&& resultMask)
  | .mul => some ((l * r) &&& resultMask)
  | .div =>
    if signed then
      let divisor := signedI128 r rhsWidth
      some (if divisor = 0 then 0
        else asU64 ((signedI128 l lhsWidth).tdiv divisor) &&& resultMask)
    else some ((if r = 0 then 0 else l / r) &&& resultMask)
  | .rem =>
    if signed then
      let divisor := signedI128 r rhsWidth
      some (if divisor = 0 then 0
        else asU64 ((signedI128 l lhsWidth).tmod divisor) &&& resultMask)
    else some ((if r = 0 then 0 else l % r) &&& resultMask)
  | .pow => some (powLoop resultMask (l &&& resultMask) (1 &&& resultMask) r.toNat)
  | .bitAnd => some ((l &&& r) &&& resultMask)
  | .bitOr => some ((l ||| r) &&& resultMask)
  | .bitXor => some ((l ^^^ r) &&& resultMask)
  | .bitXnor => some (~~~(l ^^^ r) &&& resultMask)
  | .bitNand => some (~~~(l &&& r) &&& resultMask)
  | .bitNor => some (~~~(l ||| r) &&& resultMask)
  | .logicShiftL | .arithShiftL =>
    some (if resultWidth ≤ r.toNat then 0 else (l <<< r) &&& resultMask)
  | .logicShiftR => some (if resultWidth ≤ r.toNat then 0 else (l >>> r) &&& resultMask)
  | .arithShiftR =>
    if lhsSigned then
      let value := signedI128 l lhsWidth
      some (if resultWidth ≤ r.toNat then (if value < 0 then resultMask else 0)
        else asU64 (value >>> r.toNat) &&& resultMask)
    else some (if resultWidth ≤ r.toNat then 0 else (l >>> r) &&& resultMask)
  | .logicNot | .bitNot => none

/-- The same operators over big integers. -/
def evalTypedBinopWide (l : TestbenchValue) (op : Op) (r : TestbenchValue)
    (lhsWidth rhsWidth resultWidth : Nat) (lhsSigned rhsSigned : Bool) : Option TestbenchValue :=
  let lb := normalizedBits l lhsWidth
  let rb := normalizedBits r rhsWidth
  let signed := lhsSigned && rhsSigned
  let comparison := fun value : Bool => TestbenchValue.u64 (boolValue value)
  match op with
  | .eq | .eqWildcard => some (comparison (lb = rb))
  | .ne | .neWildcard => some (comparison (lb ≠ rb))
  | .less => some (comparison
      (if signed then signedBigint l lhsWidth < signedBigint r rhsWidth else lb < rb))
  | .lessEq => some (comparison
      (if signed then signedBigint l lhsWidth ≤ signedBigint r rhsWidth else lb ≤ rb))
  | .greater => some (comparison
      (if signed then signedBigint l lhsWidth > signedBigint r rhsWidth else lb > rb))
  | .greaterEq => some (comparison
      (if signed then signedBigint l lhsWidth ≥ signedBigint r rhsWidth else lb ≥ rb))
  | .logicAnd => some (comparison (lb ≠ 0 ∧ rb ≠ 0))
  | .logicOr => some (comparison (lb ≠ 0 ∨ rb ≠ 0))
  | .add => some (tbValueFromBits (lb + rb) resultWidth)
  | .sub => some (tbValueFromBits (signedBits ((lb : Int) - rb) resultWidth) resultWidth)
  | .mul => some (tbValueFromBits (lb * rb) resultWidth)
  | .div =>
    if signed then
      let divisor := signedBigint r rhsWidth
      some (if divisor = 0 then .u64 0
        else tbValueFromBits
          (signedBits ((signedBigint l lhsWidth).tdiv divisor) resultWidth) resultWidth)
    else some (if rb = 0 then .u64 0 else tbValueFromBits (lb / rb) resultWidth)
  | .rem =>
    if signed then
      let divisor := signedBigint r rhsWidth
      some (if divisor = 0 then .u64 0
        else tbValueFromBits
          (signedBits ((signedBigint l lhsWidth).tmod divisor) resultWidth) resultWidth)
    else some (if rb = 0 then .u64 0 else tbValueFromBits (lb % rb) resultWidth)
  | .pow =>
    some (if resultWidth = 0 then .u64 0
      else tbValueFromBits (lb ^ rb % 2 ^ resultWidth) resultWidth)
  | .bitAnd => some (tbValueFromBits (lb &&& rb) resultWidth)
  | .bitOr => some (tbValueFromBits (lb ||| rb) resultWidth)
  | .bitXor => some (tbValueFromBits (lb ^^^ rb) resultWidth)
  | .bitXnor => some (tbValueFromBits ((lb ^^^ rb) ^^^ widthMask resultWidth) resultWidth)
  | .logicShiftL | .arithShiftL =>
    let shift := toUsizeOrMax rb
    some (if resultWidth ≤ shift then .u64 0 else tbValueFromBits (lb <<< shift) resultWidth)
  | .logicShiftR =>
    let shift := toUsizeOrMax rb
    some (if resultWidth ≤ shift then .u64 0 else tbValueFromBits (lb >>> shift) resultWidth)
  | .arithShiftR =>
    let shift := toUsizeOrMax rb
    if lhsSigned then
      let value := signedBigint l lhsWidth
      let shifted := if resultWidth ≤ shift then (if value < 0 then -1 else 0) else value >>> shift
      some (tbValueFromBits (signedBits shifted resultWidth) resultWidth)
    else
      some (if resultWidth ≤ shift then .u64 0 else tbValueFromBits (lb >>> shift) resultWidth)
  | .bitNand => some (tbValueFromBits ((lb &&& rb) ^^^ widthMask resultWidth) resultWidth)
  | .bitNor => some (tbValueFromBits ((lb ||| rb) ^^^ widthMask resultWidth) resultWidth)
  | .logicNot | .bitNot => none

def evalTypedBinop (l : TestbenchValue) (op : Op) (r : TestbenchValue)
    (lhsWidth rhsWidth resultWidth : Nat) (lhsSigned rhsSigned : Bool) : Option TestbenchValue :=
  match l, r with
  | .u64 lv, .u64 rv =>
    if lhsWidth ≤ 64 ∧ rhsWidth ≤ 64 ∧ resultWidth ≤ 64 then
      (evalTypedBinopU64 lv op rv lhsWidth rhsWidth resultWidth lhsSigned rhsSigned).map .u64
    else evalTypedBinopWide l op r lhsWidth rhsWidth resultWidth lhsSigned rhsSigned
  | _, _ => evalTypedBinopWide l op r lhsWidth rhsWidth resultWidth lhsSigned rhsSigned

def countOnes (value : Nat) : Nat := ((List.range value.size).filter value.testBit).length

def evalTypedUnopU64 (op : Op) (value : UInt64) (operandWidth resultWidth : Nat) :
    Option UInt64 :=
  let bits := value &&& widthMaskU64 operandWidth
  match op with
  | .logicNot | .bitNor => some (boolValue (bits = 0))
  | .bitAnd => some (boolValue (bits = widthMaskU64 operandWidth))
  | .bitNand => some (boolValue (bits ≠ widthMaskU64 operandWidth))
  | .bitOr => some (boolValue (bits ≠ 0))
  | .bitXor => some (boolValue (countOnes bits.toNat % 2 ≠ 0))
  | .bitXnor => some (boolValue (countOnes bits.toNat % 2 = 0))
  | .add => some (bits &&& widthMaskU64 resultWidth)
  | .sub => some (-bits &&& widthMaskU64 resultWidth)
  | .bitNot => some (~~~bits &&& widthMaskU64 resultWidth)
  | _ => none

def evalTypedUnopWide (op : Op) (value : TestbenchValue) (operandWidth resultWidth : Nat) :
    Option TestbenchValue :=
  let bits := normalizedBits value operandWidth
  match op with
  | .logicNot | .bitNor => some (.u64 (boolValue (bits = 0)))
  | .bitAnd => some (.u64 (boolValue (bits = widthMask operandWidth)))
  | .bitNand => some (.u64 (boolValue (bits ≠ widthMask operandWidth)))
  | .bitOr => some (.u64 (boolValue (bits ≠ 0)))
  | .bitXor => some (.u64 (boolValue (countOnes bits % 2 ≠ 0)))
  | .bitXnor => some (.u64 (boolValue (countOnes bits % 2 = 0)))
  | .add => some (tbValueFromBits bits resultWidth)
  | .sub => some (tbValueFromBits (signedBits (-(bits : Int)) resultWidth) resultWidth)
  | .bitNot => some (tbValueFromBits (bits ^^^ widthMask operandWidth) resultWidth)
  | _ => none

def evalTypedUnop (op : Op) (value : TestbenchValue) (operandWidth resultWidth : Nat) :
    Option TestbenchValue :=
  match value with
  | .u64 bits =>
    if operandWidth ≤ 64 ∧ resultWidth ≤ 64 then
      (evalTypedUnopU64 op bits operandWidth resultWidth).map .u64
    else evalTypedUnopWide op value operandWidth resultWidth
  | .wide _ => evalTypedUnopWide op value operandWidth resultWidth

def resizeU64 (value : UInt64) (sourceWidth targetWidth : Nat) (signed : Bool) : UInt64 :=
  let value := value &&& widthMaskU64 sourceWidth
  let value := if targetWidth > sourceWidth ∧ signed = true ∧
      value &&& (1 <<< UInt64.ofNat (sourceWidth - 1)) ≠ 0 then
    value ||| (widthMaskU64 targetWidth ^^^ widthMaskU64 sourceWidth) else value
  value &&& widthMaskU64 targetWidth

def resizeWide (value : TestbenchValue) (sourceWidth targetWidth : Nat) (signed : Bool) :
    TestbenchValue :=
  let value := normalizedBits value sourceWidth
  let value := if targetWidth > sourceWidth ∧ signed = true ∧
      value.testBit (sourceWidth - 1) = true then
    value ||| (widthMask targetWidth ^^^ widthMask sourceWidth) else value
  tbValueFromBits value targetWidth

def resizeTbValue (value : TestbenchValue) (sourceWidth targetWidth : Nat) (signed : Bool) :
    TestbenchValue :=
  if targetWidth = 0 then .u64 0
  else if sourceWidth = 0 then
    tbValueFromBits (if value.toU64 &&& 1 = 0 then 0 else widthMask targetWidth) targetWidth
  else
    match value with
    | .u64 bits =>
      if sourceWidth ≤ 64 ∧ targetWidth ≤ 64 then
        .u64 (resizeU64 bits sourceWidth targetWidth signed)
      else resizeWide value sourceWidth targetWidth signed
    | .wide _ => resizeWide value sourceWidth targetWidth signed

def concatPartU64 (accumulator part : UInt64) (partWidth : Nat) : UInt64 :=
  let shifted := if 64 ≤ partWidth then 0 else accumulator <<< UInt64.ofNat partWidth
  shifted ||| (part &&& widthMaskU64 partWidth)

def concatPartWide (accumulator part : TestbenchValue) (partWidth resultWidth : Nat) :
    TestbenchValue :=
  tbValueFromBits (accumulator.toBiguint <<< partWidth ||| normalizedBits part partWidth)
    resultWidth

def concatPart (accumulator part : TestbenchValue) (partWidth resultWidth : Nat) :
    TestbenchValue :=
  match accumulator, part with
  | .u64 accumulatorBits, .u64 partBits =>
    if resultWidth ≤ 64 then .u64 (concatPartU64 accumulatorBits partBits partWidth)
    else concatPartWide accumulator part partWidth resultWidth
  | _, _ => concatPartWide accumulator part partWidth resultWidth

/-! ## Untyped operators -/

def evalBinopU64 (l : UInt64) (op : Op) (r : UInt64) : Option UInt64 :=
  match op with
  | .add => some (l + r)
  | .sub => some (l - r)
  | .mul => some (l * r)
  | .div => some (if r = 0 then 0 else l / r)
  | .rem => some (if r = 0 then 0 else l % r)
  | .bitAnd => some (l &&& r)
  | .bitOr => some (l ||| r)
  | .bitXor => some (l ^^^ r)
  | .logicShiftL | .arithShiftL => some (if 64 ≤ r.toNat then 0 else l <<< r)
  | .logicShiftR => some (if 64 ≤ r.toNat then 0 else l >>> r)
  | .arithShiftR =>
    some (asU64 (asI64 l >>> (if 64 ≤ r.toNat then 63 else r.toNat)))
  | .eq => some (boolValue (l = r))
  | .ne => some (boolValue (l ≠ r))
  | .less => some (boolValue (l < r))
  | .lessEq => some (boolValue (l ≤ r))
  | .greater => some (boolValue (l > r))
  | .greaterEq => some (boolValue (l ≥ r))
  | .logicAnd => some (boolValue (l ≠ 0 ∧ r ≠ 0))
  | .logicOr => some (boolValue (l ≠ 0 ∨ r ≠ 0))
  | _ => none

/-- `(&r).try_into().unwrap_or(256)`. -/
def shiftAmount (r : Nat) : Nat := if r < 2 ^ 64 then r else 256

def evalBinopWide (l : Nat) (op : Op) (r : Nat) : Option TestbenchValue :=
  match op with
  | .eq => some (.u64 (boolValue (l = r)))
  | .ne => some (.u64 (boolValue (l ≠ r)))
  | .less => some (.u64 (boolValue (l < r)))
  | .lessEq => some (.u64 (boolValue (l ≤ r)))
  | .greater => some (.u64 (boolValue (l > r)))
  | .greaterEq => some (.u64 (boolValue (l ≥ r)))
  | .logicAnd => some (.u64 (boolValue (l ≠ 0 ∧ r ≠ 0)))
  | .logicOr => some (.u64 (boolValue (l ≠ 0 ∨ r ≠ 0)))
  | .add => some (.wide (l + r))
  | .sub => some (.wide (if l ≥ r then l - r else 0))
  | .mul => some (.wide (l * r))
  | .div => some (.wide (if r = 0 then 0 else l / r))
  | .rem => some (.wide (if r = 0 then 0 else l % r))
  | .bitAnd => some (.wide (l &&& r))
  | .bitOr => some (.wide (l ||| r))
  | .bitXor => some (.wide (l ^^^ r))
  | .logicShiftL => some (.wide (l <<< shiftAmount r))
  | .logicShiftR => some (.wide (l >>> shiftAmount r))
  | _ => none

def evalBinop (l : TestbenchValue) (op : Op) (r : TestbenchValue) : Option TestbenchValue :=
  match l, r with
  | .u64 lv, .u64 rv => (evalBinopU64 lv op rv).map .u64
  | _, _ => evalBinopWide l.toBiguint op r.toBiguint

/-! ## Memory -/

abbrev Memory := Nat → UInt8

def readLe (memory : Memory) (location : Nat) : Nat → Nat
  | 0 => 0
  | byteSize + 1 => (memory location).toNat + 256 * readLe memory (location + 1) byteSize

def readLeU64 (memory : Memory) (location byteSize : Nat) : UInt64 :=
  UInt64.ofNat (readLe memory location (min byteSize 8))

/-- Fails where the width exceeds the bytes. -/
def readLeWide (memory : Memory) (location byteSize width : Nat) : Option Nat :=
  if byteSize * 8 < width then none
  else
    let value := readLe memory location byteSize
    some (if byteSize * 8 - width > 0 then value &&& (2 ^ width - 1) else value)

def saturatingAdd (a b : Nat) : Nat := min (a + b) usizeMax

def saturatingMul (a b : Nat) : Nat := min (a * b) usizeMax

def readBits (memory : Memory) (location bitOffset width : Nat) : Option TestbenchValue :=
  let start := location + bitOffset / 8
  let sub := bitOffset % 8
  let spanWidth := saturatingAdd sub width
  let byteSize := (spanWidth + 7) / 8
  if spanWidth ≤ 64 then
    some (.u64 ((readLeU64 memory start byteSize >>> UInt64.ofNat sub) &&& widthMaskU64 width))
  else (readLeWide memory start byteSize spanWidth).map fun value =>
    tbValueFromBits (value >>> sub &&& widthMask width) width

def loadBitSelectU64 (memory : Memory) (location baseByteSize selectWidth shift : Nat) :
    Option TestbenchValue :=
  if shift < 64 then
    some (.u64 ((readLeU64 memory location baseByteSize >>> UInt64.ofNat shift) &&&
      if selectWidth = 64 then UInt64.ofNat (2 ^ 64 - 1)
      else (1 <<< UInt64.ofNat selectWidth) - 1))
  else none

def loadBitSelectWide (memory : Memory) (location baseByteSize selectWidth shift : Nat) :
    Option TestbenchValue :=
  (readLeWide memory location baseByteSize (saturatingMul baseByteSize 8)).map fun value =>
    tbValueFromBits (value >>> shift &&& widthMask selectWidth) selectWidth

def loadBitSelect (memory : Memory) (location baseByteSize selectWidth : Nat)
    (index : TestbenchValue) : Option TestbenchValue :=
  let shift := index.toU64.toNat
  if baseByteSize ≤ 8 ∧ selectWidth ≤ 64 then
    loadBitSelectU64 memory location baseByteSize selectWidth shift
  else loadBitSelectWide memory location baseByteSize selectWidth shift

/-- The low bytes of a word. -/
def storeLe (memory : Memory) (location byteSize : Nat) (value : UInt64) : Memory := fun address =>
  if location ≤ address ∧ address < location + min byteSize 8 then
    UInt8.ofNat (value.toNat / 256 ^ (address - location))
  else memory address

/-! ## The machine -/

inductive ExprOpcode where
  | constU64 (value : UInt64)
  | constWide (value : Nat)
  | loadU64 (location byteSize : Nat) (mask : UInt64)
  | loadWide (location byteSize width : Nat)
  | binOp (op : Op)
  | typedBinOp (op : Op) (lhsWidth rhsWidth resultWidth : Nat) (lhsSigned rhsSigned : Bool)
  | typedUnary (op : Op) (operandWidth resultWidth : Nat)
  | resize (sourceWidth targetWidth : Nat) (signed : Bool)
  | concatPart (partWidth resultWidth : Nat)
  | ternary (thenLen elseLen : Nat)
  | loadIndexed (location strideBits baseBitOffset elementWidth : Nat)
  | loadBitSelect (location baseByteSize selectWidth : Nat)
  | storeU64 (location byteSize : Nat)
  deriving Repr, DecidableEq

/-- The top of the stack comes first. -/
structure Vm where
  pc : Nat
  stack : List TestbenchValue
  memory : Memory

/-- Every opcode but `Ternary`; an empty stack fails a debug assertion. -/
def exec (memory : Memory) : ExprOpcode → List TestbenchValue →
    Option (List TestbenchValue × Memory)
  | .constU64 value, stack => some (.u64 value :: stack, memory)
  | .constWide value, stack => some (.wide value :: stack, memory)
  | .loadU64 location byteSize mask, stack =>
    some (.u64 (readLeU64 memory location byteSize &&& mask) :: stack, memory)
  | .loadWide location byteSize width, stack =>
    (readLeWide memory location byteSize width).map fun value => (.wide value :: stack, memory)
  | .binOp op, r :: l :: stack => (evalBinop l op r).map fun value => (value :: stack, memory)
  | .typedBinOp op lhsWidth rhsWidth resultWidth lhsSigned rhsSigned, r :: l :: stack =>
    (evalTypedBinop l op r lhsWidth rhsWidth resultWidth lhsSigned rhsSigned).map fun value =>
      (value :: stack, memory)
  | .typedUnary op operandWidth resultWidth, top :: stack =>
    (evalTypedUnop op top operandWidth resultWidth).map fun value => (value :: stack, memory)
  | .resize sourceWidth targetWidth signed, top :: stack =>
    some (resizeTbValue top sourceWidth targetWidth signed :: stack, memory)
  | .concatPart partWidth resultWidth, part :: accumulator :: stack =>
    some (concatPart accumulator part partWidth resultWidth :: stack, memory)
  | .loadIndexed location strideBits baseBitOffset elementWidth, idx :: stack =>
    (readBits memory location
      (saturatingAdd baseBitOffset (saturatingMul idx.toU64.toNat strideBits)) elementWidth).map
      fun value => (value :: stack, memory)
  | .loadBitSelect location baseByteSize selectWidth, index :: stack =>
    (loadBitSelect memory location baseByteSize selectWidth index).map fun value =>
      (value :: stack, memory)
  | .storeU64 location byteSize, value :: stack =>
    some (stack, storeLe memory location byteSize value.toU64)
  | _, _ => none

/-- Executes until `stop`. The program counter grows with every opcode, so as many rounds as there
are opcodes suffice. -/
def runTo (ops : List ExprOpcode) : Nat → Nat → Vm → Option Vm
  | 0, stop, vm => if vm.pc < stop then none else some vm
  | fuel + 1, stop, vm =>
    if vm.pc < stop then
      match ops[vm.pc]? with
      | none => none
      | some (.ternary thenLen elseLen) =>
        match vm.stack with
        | [] => none
        | cond :: stack =>
          if cond.isZero then do
            let vm ← runTo ops fuel (vm.pc + 1 + thenLen + elseLen)
              ⟨vm.pc + 1 + thenLen, stack, vm.memory⟩
            runTo ops fuel stop vm
          else do
            let vm ← runTo ops fuel (vm.pc + 1 + thenLen) ⟨vm.pc + 1, stack, vm.memory⟩
            runTo ops fuel stop ⟨vm.pc + elseLen, vm.stack, vm.memory⟩
      | some op => do
        let (stack, memory) ← exec vm.memory op vm.stack
        runTo ops fuel stop ⟨vm.pc + 1, stack, memory⟩
    else some vm

/-- The value on top of the stack, with the memory behind the last opcode. -/
def eval (ops : List ExprOpcode) (memory : Memory) : Option (TestbenchValue × Memory) := do
  let vm ← runTo ops ops.length ops.length ⟨0, [], memory⟩
  return (← vm.stack.head?, vm.memory)

end Celox.Testbench
