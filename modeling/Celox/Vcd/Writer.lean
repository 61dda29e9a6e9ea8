import Celox.Bytes.Integers
import Celox.Layout.Build
import Celox.Text.Words

/-! # The waveform writer

A dump appends what has changed since the last one to the file. -/
namespace Celox.Vcd
open Celox.Bytes Celox.Text
open Celox.Layout (getByteSize)

structure VcdSignalDesc where
  scope : Word
  name : Word
  offset : Nat
  width : Nat
  is4state : Bool

structure VcdExternalSignalDesc where
  scope : Word
  name : Word
  width : Nat

inductive VcdWriterSource where
  | memory (offset : Nat) (is4state : Bool)
  | external (index : Nat)
  deriving DecidableEq

structure VcdWriterSignal where
  vcdId : List Char
  scope : Word
  name : Word
  width : Nat
  source : VcdWriterSource
  deriving DecidableEq

/-- `written` is the file. -/
structure VcdWriter where
  written : List Char
  signals : List VcdWriterSignal
  lastValues : List (Option (Nat × Nat))
  timestamp : Nat
  headerWritten : Bool
  externalCount : Nat

/-- `outOfBounds` is a panic. -/
inductive VcdError where
  | externalAfterHeader
  | externalCount (expected actual : Nat)
  | outOfBounds
  deriving DecidableEq, Repr

/-- The local time, as the header shows it. -/
structure LocalTime where
  year : Nat
  month : Nat
  day : Nat
  hour : Nat
  minute : Nat
  second : Nat

namespace LocalTime

def padded (length value : Nat) : List Char :=
  let digits := Nat.toDigits 10 value
  List.replicate (length - digits.length) '0' ++ digits

def date (time : LocalTime) : List Char :=
  padded 4 time.year ++ '-' :: padded 2 time.month ++ '-' :: padded 2 time.day

def clock (time : LocalTime) : List Char :=
  padded 2 time.hour ++ ':' :: padded 2 time.minute ++ ':' :: padded 2 time.second

end LocalTime

/-- The characters in the order they are pushed, the last one first in the identifier. -/
def vcdIdChars (n : Nat) : List Char :=
  let char := Char.ofNat (n % 94 + 33)
  if n < 94 then [char] else char :: vcdIdChars (n / 94 - 1)
termination_by n
decreasing_by omega

def generateVcdId (num : Nat) : List Char := (vcdIdChars num).reverse

def readValue (memory : List UInt8) (offset width : Nat) : Except VcdError Nat :=
  let byteSize := getByteSize width
  match slice? memory offset (offset + byteSize) with
  | none => .error .outOfBounds
  | some bytes =>
    let value := ofLeBytes bytes
    .ok (if byteSize * 8 - width > 0 then value &&& (2 ^ width - 1) else value)

/-- `value.bits()` is the position behind the highest one. -/
def maskToWidth (value width : Nat) : Nat :=
  if Nat.size value > width then value &&& (2 ^ width - 1) else value

namespace VcdWriter

def new (descs : List VcdSignalDesc) : VcdWriter where
  written := []
  signals := descs.map fun desc =>
    ⟨[], desc.scope, desc.name, desc.width, .memory desc.offset desc.is4state⟩
  lastValues := descs.map fun _ => none
  timestamp := 0
  headerWritten := false
  externalCount := 0

def isExternal (signal : VcdWriterSignal) : Bool :=
  match signal.source with
  | .external _ => true
  | .memory _ _ => false

def pushExternal (w : VcdWriter) (desc : VcdExternalSignalDesc) : VcdWriter :=
  { w with
    externalCount := w.externalCount + 1
    signals := w.signals ++ [⟨[], desc.scope, desc.name, desc.width, .external w.externalCount⟩]
    lastValues := w.lastValues ++ [none] }

def addExternalSignals (w : VcdWriter) (descs : List VcdExternalSignalDesc) :
    Except VcdError VcdWriter :=
  let existing := ((w.signals.filter isExternal).zip descs).all fun (signal, desc) =>
    signal.scope = desc.scope ∧ signal.name = desc.name ∧ signal.width = desc.width
  if descs = [] then .ok w
  else if w.externalCount ≠ 0 ∧ existing ∧ w.externalCount = descs.length then .ok w
  else if w.headerWritten then .error .externalAfterHeader
  else .ok (descs.foldl pushExternal w)

/-! ## The header -/

/-- Groups in the order their scopes are first met. -/
def pushGroup (scope : Word) (index : Nat) : List (Word × List Nat) → List (Word × List Nat)
  | [] => [(scope, [index])]
  | (other, group) :: groups =>
    if other = scope then (other, group ++ [index]) :: groups
    else (other, group) :: pushGroup scope index groups

def scopeGroups (signals : List VcdWriterSignal) : List (Word × List Nat) :=
  signals.zipIdx.foldl (fun groups (signal, index) => pushGroup signal.scope index groups) []

def write (w : VcdWriter) (text : List Char) : VcdWriter := { w with written := w.written ++ text }

/-- One `$var` line; the signal takes the next identifier. -/
def writeVar : VcdWriter × Nat → Nat → VcdWriter × Nat
  | (w, nextId), index =>
    match w.signals[index]? with
    | none => (w, nextId)
    | some signal =>
      let id := generateVcdId nextId
      ({ w.write (line ["$var".toList, "wire".toList, Nat.toDigits 10 signal.width, id,
          signal.name.chars, "$end".toList]) with
        signals := w.signals.set index { signal with vcdId := id } }, nextId + 1)

def writeScope : VcdWriter × Nat → Word × List Nat → VcdWriter × Nat
  | (w, nextId), (scope, group) =>
    let (w, nextId) := group.foldl writeVar
      (w.write (line ["$scope".toList, "module".toList, scope.chars, "$end".toList]), nextId)
    (w.write (line ["$upscope".toList, "$end".toList]), nextId)

def preamble (time : LocalTime) : List Char :=
  line ["$date".toList] ++ line [[], [], time.date, time.clock] ++ line ["$end".toList] ++
    line ["$version".toList] ++ line [[], [], "celox".toList] ++ line ["$end".toList] ++
    line ["$timescale".toList, "1ns".toList, "$end".toList]

def writeHeader (w : VcdWriter) (time : LocalTime) : VcdWriter :=
  if w.headerWritten then w
  else
    let groups := scopeGroups w.signals
    let (w, _) := groups.foldl writeScope (w.write (preamble time), 0)
    { w.write (line ["$enddefinitions".toList, "$end".toList] ++ line ["$dumpvars".toList] ++
        line ["$end".toList]) with
      headerWritten := true }

/-! ## Dumps -/

/-- The value, its unknown mask and whether it may be unknown. -/
def currentValue (memory : List UInt8) (external : List (Nat × Nat)) (signal : VcdWriterSignal) :
    Except VcdError (Nat × Nat × Bool) :=
  match signal.source with
  | .memory offset is4state => do
    let value ← readValue memory offset signal.width
    let mask ← if is4state then readValue memory (offset + getByteSize signal.width) signal.width
      else .ok 0
    .ok (value, mask, is4state)
  | .external index =>
    match external[index]? with
    | none => .error .outOfBounds
    | some (value, mask) =>
      let value := maskToWidth value signal.width
      let mask := maskToWidth mask signal.width
      .ok (value, mask, mask ≠ 0)

def fourStateChar (mask value : Bool) : Char :=
  match mask, value with
  | false, false => '0'
  | false, true => '1'
  | true, false => 'z'
  | true, true => 'x'

def fourStateValue (width value mask : Nat) (id : List Char) : List Char :=
  if width = 1 then line [fourStateChar (mask.testBit 0) (value.testBit 0) :: id]
  else
    line ['b' :: (List.range width).reverse.map fun i =>
      fourStateChar (mask.testBit i) (value.testBit i), id]

def changeText (signal : VcdWriterSignal) (value mask : Nat) (is4state : Bool) : List Char :=
  if is4state = true ∧ mask ≠ 0 then fourStateValue signal.width value mask signal.vcdId
  else if signal.width = 1 then line [Nat.toDigits 10 value ++ signal.vcdId]
  else line ['b' :: Nat.toDigits 2 value, signal.vcdId]

def dumpSignal (memory : List UInt8) (external : List (Nat × Nat)) (w : VcdWriter)
    (entry : VcdWriterSignal × Nat) : Except VcdError VcdWriter :=
  match currentValue memory external entry.1 with
  | .error error => .error error
  | .ok (value, mask, is4state) =>
    if w.lastValues[entry.2]? = some (some (value, mask)) then .ok w
    else .ok { w.write (changeText entry.1 value mask is4state) with
      lastValues := w.lastValues.set entry.2 (some (value, mask)) }

def stamp (w : VcdWriter) (timestamp : Nat) : VcdWriter :=
  if timestamp > w.timestamp ∨ timestamp = 0 then
    { w.write (line ['#' :: Nat.toDigits 10 timestamp]) with timestamp }
  else w

/-- What a dump is given; `time` is read for the header only. -/
structure Dump where
  timestamp : Nat
  memory : List UInt8
  external : List (Nat × Nat)
  time : LocalTime

def dumpWithExternal (w : VcdWriter) (dump : Dump) : Except VcdError VcdWriter :=
  if dump.external.length ≠ w.externalCount then
    .error (.externalCount w.externalCount dump.external.length)
  else
    let w := (w.writeHeader dump.time).stamp dump.timestamp
    w.signals.zipIdx.foldlM (dumpSignal dump.memory dump.external) w

/-- Dumps in a row, up to the first that fails. -/
def dumpAll (w : VcdWriter) (dumps : List Dump) : Except VcdError VcdWriter :=
  dumps.foldlM dumpWithExternal w

end VcdWriter
end Celox.Vcd
