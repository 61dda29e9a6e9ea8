import Celox.Bytes.Integers

/-! # Attaching a native program image to a runtime executable

The container is the runtime, the encoded image and a trailer of fixed size at the end of the
file. An outcome is `none` where an access leaves its slice or an assertion fails. -/
namespace Celox.Image
open Celox.Bytes

def trailerMagic : List UInt8 := [0x43, 0x45, 0x4c, 0x4f, 0x58, 0x4e, 0x50, 0x49]
def containerVersion : Nat := 4
def trailerSize : Nat := 32
def fnvOffsetBasis : UInt64 := 0xcbf29ce484222325
def fnvPrime : UInt64 := 0x00000100000001b3

inductive NativeImageArchitecture where
  | x86_64
  | aarch64
  deriving DecidableEq, Repr

/-- What encoding or discovering a container can report. -/
inductive NativeImageContainerError (CodecError : Type) where
  | postcard (error : CodecError)
  | sizeOverflow
  | missingTrailer
  | unsupportedTrailerSize (size : Nat)
  | unsupportedVersion (version : Nat)
  | unknownArchitecture (tag : UInt8)
  | architectureMismatch (expected found : NativeImageArchitecture)
  | truncatedPayload
  | checksumMismatch
  | invalidImage (message : String)
  | unexpectedRuntimePrefix
  deriving DecidableEq, Repr

def NativeImageArchitecture.tag : NativeImageArchitecture → UInt8
  | .x86_64 => 1
  | .aarch64 => 2

def NativeImageArchitecture.decode {C : Type} (value : UInt8) :
    Except (NativeImageContainerError C) NativeImageArchitecture :=
  if value = 1 then .ok .x86_64
  else if value = 2 then .ok .aarch64
  else .error (.unknownArchitecture value)

theorem NativeImageArchitecture.decode_tag {C : Type} (a : NativeImageArchitecture) :
    (decode a.tag : Except (NativeImageContainerError C) _) = .ok a := by
  cases a <;> rfl

def checksum (bytes : List UInt8) : UInt64 :=
  bytes.foldl (fun hash byte => (hash ^^^ byte.toUInt64) * fnvPrime) fnvOffsetBasis

/-- What the container rests on: the pointer width and the instruction set of the host, the
`postcard` codec and the image's own validation. -/
structure Host (Image CodecError : Type) where
  usizeBits : Nat
  current : NativeImageArchitecture
  toAllocvec : Image → Except CodecError (List UInt8)
  fromBytes : List UInt8 → Except CodecError Image
  validate : Image → Except String Unit

/-- Decoding what was encoded gives the image back. -/
def Host.RoundTrips {Image CodecError : Type} (host : Host Image CodecError) : Prop :=
  ∀ image bytes, host.toAllocvec image = .ok bytes → host.fromBytes bytes = .ok image

/-- A result, an error, or `none` for a panic. -/
abbrev Outcome (CodecError α : Type) :=
  ExceptT (NativeImageContainerError CodecError) Option α

structure AppendedNativePayload where
  runtimeLen : Nat
  version : Nat
  architecture : UInt8
  payload : List UInt8
  deriving DecidableEq, Repr

structure AppendedNativeImage (Image : Type) where
  runtimeLen : Nat
  image : Image
  deriving DecidableEq, Repr

section Model
variable {Image CodecError : Type} (host : Host Image CodecError)

/-- An index or a slice that the code takes without a check of its own. -/
def access {α : Type} (value : Option α) : Outcome CodecError α := ExceptT.mk (value.map .ok)

/-- `result.map_err(f)?`. -/
def mapErr {ε α : Type} (result : Except ε α) (f : ε → NativeImageContainerError CodecError) :
    Outcome CodecError α := ExceptT.mk (some (result.mapError f))

/-- Report `error` unless the condition holds. -/
def require (p : Prop) [Decidable p] (error : NativeImageContainerError CodecError) :
    Outcome CodecError Unit :=
  if p then pure () else throw error

/-- `usize::checked_add`. -/
def checkedAdd (a b : Nat) : Outcome CodecError Nat :=
  if a + b < 2 ^ host.usizeBits then pure (a + b) else throw .sizeOverflow

/-- `slice.try_into().unwrap()` into an array, read as a little-endian integer. -/
def readLe (bytes : List UInt8) (start stop width : Nat) : Outcome CodecError Nat := do
  let part ← access (slice? bytes start stop)
  if part.length = width then pure (ofLeBytes part) else access none

def trailer (payload : List UInt8) : List UInt8 :=
  trailerMagic ++ leBytes 2 containerVersion ++ [host.current.tag] ++ [0] ++
    leBytes 4 trailerSize ++ leBytes 8 payload.length ++ leBytes 8 (checksum payload).toNat

def appendToRuntime (image : Image) (runtime : List UInt8) : Outcome CodecError (List UInt8) := do
  mapErr (host.validate image) .invalidImage
  let payload ← mapErr (host.toAllocvec image) .postcard
  let size ← checkedAdd host runtime.length payload.length
  let totalLen ← checkedAdd host size trailerSize
  require (payload.length < 2 ^ 64) .sizeOverflow
  let output := runtime ++ payload ++ trailer host payload
  if output.length = totalLen then pure output else access none

def discoverAppendedPayload (bytes : List UInt8) :
    Outcome CodecError (Option AppendedNativePayload) := do
  if bytes.length < trailerSize then return none
  let trailerStart := bytes.length - trailerSize
  let trailer ← access (slice? bytes trailerStart bytes.length)
  let magic ← access (slice? trailer 0 8)
  if magic ≠ trailerMagic then return none
  let size ← readLe trailer 12 16 4
  require (size = trailerSize) (.unsupportedTrailerSize size)
  let payloadLen ← readLe trailer 16 24 8
  require (payloadLen < 2 ^ host.usizeBits) .sizeOverflow
  require (payloadLen ≤ trailerStart) .truncatedPayload
  let runtimeLen := trailerStart - payloadLen
  let payload ← access (slice? bytes runtimeLen trailerStart)
  let expectedChecksum ← readLe trailer 24 32 8
  require ((checksum payload).toNat = expectedChecksum) .checksumMismatch
  let version ← readLe trailer 8 10 2
  let architecture ← access trailer[10]?
  return some { runtimeLen, version, architecture, payload }

def discoverAppended (bytes : List UInt8) :
    Outcome CodecError (Option (AppendedNativeImage Image)) := do
  match ← discoverAppendedPayload host bytes with
  | none => return none
  | some appended =>
    require (appended.version = containerVersion) (.unsupportedVersion appended.version)
    let found ← mapErr (NativeImageArchitecture.decode appended.architecture) id
    require (found = host.current) (.architectureMismatch host.current found)
    let image ← mapErr (host.fromBytes appended.payload) .postcard
    mapErr (host.validate image) .invalidImage
    return some { runtimeLen := appended.runtimeLen, image }

/-- `write_attached_runtime` on the contents of the two files. -/
def writeAttachedRuntime (image : Image) (runtime : List UInt8) :
    Outcome CodecError (List UInt8) := do
  let appended ← discoverAppendedPayload host runtime
  let runtimeLen := (appended.map (·.runtimeLen)).getD runtime.length
  let bare ← access (slice? runtime 0 runtimeLen)
  appendToRuntime host image bare

def fromContainerBytes (bytes : List UInt8) : Outcome CodecError Image := do
  match ← discoverAppended host bytes with
  | none => throw .missingTrailer
  | some appended =>
    require (appended.runtimeLen = 0) .unexpectedRuntimePrefix
    return appended.image

end Model

section Panics
variable {CodecError : Type} {α β : Type}

/-- The computation ends with a value or an error. -/
def NoPanic (x : Outcome CodecError α) : Prop := ∃ result, x.run = some result

theorem NoPanic.pure (a : α) : NoPanic (pure a : Outcome CodecError α) := ⟨.ok a, rfl⟩

theorem NoPanic.throw (e : NativeImageContainerError CodecError) :
    NoPanic (throw e : Outcome CodecError α) := ⟨.error e, rfl⟩

theorem NoPanic.bind {x : Outcome CodecError α} {f : α → Outcome CodecError β} (hx : NoPanic x)
    (hf : ∀ a, x = Pure.pure a → NoPanic (f a)) : NoPanic (x >>= f) := by
  obtain ⟨result, hrun⟩ := hx
  cases result with
  | error e =>
    obtain rfl : x = ExceptT.mk (some (.error e)) := hrun
    exact ⟨.error e, rfl⟩
  | ok a =>
    obtain rfl : x = Pure.pure a := hrun
    rw [pure_bind]
    exact hf a rfl

theorem access_some {x : Option α} {a : α} (h : x = some a) :
    (access x : Outcome CodecError α) = Pure.pure a := by subst h; rfl

theorem mapErr_ok {ε : Type} {f : ε → NativeImageContainerError CodecError} {x : Except ε α} {a : α}
    (h : x = .ok a) : mapErr x f = Pure.pure a := by subst h; rfl

theorem ok_of_mapErr_bind {ε : Type} {f : ε → NativeImageContainerError CodecError}
    {x : Except ε α} {k : α → Outcome CodecError β} {b : β}
    (h : mapErr x f >>= k = Pure.pure b) : ∃ a, x = .ok a ∧ k a = Pure.pure b := by
  cases x with
  | error e => cases h
  | ok a => exact ⟨a, rfl, h⟩

theorem NoPanic.mapErr {ε : Type} {f : ε → NativeImageContainerError CodecError}
    {x : Except ε α} : NoPanic (mapErr x f) := ⟨_, rfl⟩

theorem NoPanic.access {x : Option α} (h : x.isSome) :
    NoPanic (access x : Outcome CodecError α) := by
  obtain ⟨a, rfl⟩ := Option.isSome_iff_exists.mp h
  exact NoPanic.pure a

theorem require_pos {p : Prop} [Decidable p] {e : NativeImageContainerError CodecError} (h : p) :
    require p e = Pure.pure () := if_pos h

theorem NoPanic.require {p : Prop} [Decidable p] {e : NativeImageContainerError CodecError} :
    NoPanic (require p e) := by
  unfold Image.require
  split
  · exact .pure ()
  · exact .throw e

theorem of_require_eq_pure {p : Prop} [Decidable p] {e : NativeImageContainerError CodecError}
    (h : require p e = Pure.pure ()) : p := by
  by_contra hp
  rw [Image.require, if_neg hp] at h
  cases h

theorem NoPanic.ite {p : Prop} [Decidable p] {x y : Outcome CodecError α} (hx : p → NoPanic x)
    (hy : ¬ p → NoPanic y) : NoPanic (if p then x else y) := by
  split
  · exact hx ‹_›
  · exact hy ‹_›

end Panics

section RoundTrip
variable {Image CodecError : Type} {host : Host Image CodecError}

/-! ## The trailer's fields -/

theorem length_trailer (payload : List UInt8) : (trailer host payload).length = trailerSize := rfl

theorem trailer_magic (payload : List UInt8) :
    slice? (trailer host payload) 0 8 = some trailerMagic := rfl

theorem trailer_version (payload : List UInt8) :
    (readLe (trailer host payload) 8 10 2 : Outcome CodecError Nat) = pure containerVersion := rfl

theorem trailer_architecture (payload : List UInt8) :
    (trailer host payload)[10]? = some host.current.tag := rfl

theorem trailer_size (payload : List UInt8) :
    (readLe (trailer host payload) 12 16 4 : Outcome CodecError Nat) = pure trailerSize := rfl

theorem trailer_payloadLen {payload : List UInt8} (h : payload.length < 2 ^ 64) :
    (readLe (trailer host payload) 16 24 8 : Outcome CodecError Nat) = pure payload.length := by
  have hread : (readLe (trailer host payload) 16 24 8 : Outcome CodecError Nat) =
      pure (ofLeBytes (leBytes 8 payload.length)) := rfl
  rw [hread, ofLeBytes_leBytes (by omega)]

theorem trailer_checksum (payload : List UInt8) :
    (readLe (trailer host payload) 24 32 8 : Outcome CodecError Nat) =
      pure (checksum payload).toNat := by
  have hread : (readLe (trailer host payload) 24 32 8 : Outcome CodecError Nat) =
      pure (ofLeBytes (leBytes 8 (checksum payload).toNat)) := rfl
  rw [hread, ofLeBytes_leBytes (UInt64.toNat_lt _)]

/-! ## Appending and discovering -/

/-- A container that was written is the runtime, the encoding and the trailer. -/
theorem appendToRuntime_eq_pure {image : Image} {runtime output : List UInt8}
    (h : appendToRuntime host image runtime = pure output) :
    ∃ payload, host.validate image = .ok () ∧ host.toAllocvec image = .ok payload ∧
      payload.length < 2 ^ host.usizeBits ∧ payload.length < 2 ^ 64 ∧
      output = runtime ++ payload ++ trailer host payload := by
  unfold appendToRuntime at h
  obtain ⟨_, hvalid, h⟩ := ok_of_mapErr_bind h
  obtain ⟨payload, hencode, h⟩ := ok_of_mapErr_bind h
  refine ⟨payload, hvalid, hencode, ?_⟩
  unfold checkedAdd at h
  split at h
  · rw [pure_bind] at h
    split at h
    · rw [pure_bind] at h
      by_cases hlen : payload.length < 2 ^ 64
      · rw [require_pos hlen, pure_bind, if_pos (by simp [length_trailer]; omega)] at h
        refine ⟨by omega, hlen, ?_⟩
        injection h with h
        injection h with h
        exact h.symm
      · rw [require, if_neg hlen] at h
        cases h
    · cases h
  · cases h

theorem discoverAppendedPayload_append {runtime payload : List UInt8}
    (husize : payload.length < 2 ^ host.usizeBits) (hlen : payload.length < 2 ^ 64) :
    discoverAppendedPayload host (runtime ++ payload ++ trailer host payload) =
      pure (some ⟨runtime.length, containerVersion, host.current.tag, payload⟩) := by
  have htotal : (runtime ++ payload ++ trailer host payload).length =
      runtime.length + payload.length + trailerSize := by
    simp [length_trailer, Nat.add_assoc]
  have htrailer : slice? (runtime ++ payload ++ trailer host payload)
      (runtime.length + payload.length) (runtime.length + payload.length + trailerSize) =
        some (trailer host payload) := by
    have h := slice?_append (runtime ++ payload) (trailer host payload) []
    simpa only [List.append_nil, List.length_append, length_trailer] using h
  have hpayload := slice?_append runtime payload (trailer host payload)
  unfold discoverAppendedPayload
  rw [htotal, if_neg (by omega)]
  simp only [Nat.add_sub_cancel, access_some htrailer, access_some (trailer_magic payload),
    pure_bind, ne_eq, not_true, if_false, trailer_size, trailer_payloadLen hlen, require_pos,
    husize, Nat.le_add_left, access_some hpayload, trailer_checksum, trailer_version,
    access_some (trailer_architecture payload)]

theorem discoverAppended_append {image : Image} {runtime output : List UInt8}
    (hcodec : host.RoundTrips) (h : appendToRuntime host image runtime = pure output) :
    discoverAppended host output = pure (some { runtimeLen := runtime.length, image }) := by
  obtain ⟨payload, hvalid, hencode, husize, hlen, rfl⟩ := appendToRuntime_eq_pure h
  have hdecode := hcodec image payload hencode
  have harch := NativeImageArchitecture.decode_tag (C := CodecError) host.current
  simp only [discoverAppended, discoverAppendedPayload_append husize hlen, pure_bind,
    require_pos, mapErr_ok harch, mapErr_ok hdecode, mapErr_ok hvalid]

/-- Attaching strips the payload that is there, whatever the runtime under it is. -/
theorem writeAttachedRuntime_append {a b : Image} {runtime output : List UInt8}
    (h : appendToRuntime host a runtime = pure output) :
    writeAttachedRuntime host b output = appendToRuntime host b runtime := by
  obtain ⟨payload, -, -, husize, hlen, rfl⟩ := appendToRuntime_eq_pure h
  have hbare : slice? (runtime ++ payload ++ trailer host payload) 0 runtime.length =
      some runtime := by
    have h := slice?_append [] runtime (payload ++ trailer host payload)
    simpa [List.append_assoc] using h
  simp only [writeAttachedRuntime, discoverAppendedPayload_append husize hlen, pure_bind,
    Option.map_some, Option.getD_some, access_some hbare]

/-- A runtime that carries no trailer: an executable without a design. -/
def Bare (host : Host Image CodecError) (runtime : List UInt8) : Prop :=
  discoverAppendedPayload host runtime = pure none

theorem Bare.attach {b : Image} {runtime : List UInt8} (h : Bare host runtime) :
    writeAttachedRuntime host b runtime = appendToRuntime host b runtime := by
  have hwhole : slice? runtime 0 runtime.length = some runtime := by
    simpa using slice?_append [] runtime []
  have hnone : discoverAppendedPayload host runtime = pure none := h
  simp only [writeAttachedRuntime, hnone, pure_bind, Option.map_none, Option.getD_none,
    access_some hwhole]

/-! ## Arbitrary bytes -/

theorem readLe_noPanic {bytes : List UInt8} {start stop : Nat} (hle : start ≤ stop)
    (hlen : stop ≤ bytes.length) :
    NoPanic (readLe bytes start stop (stop - start) : Outcome CodecError Nat) := by
  have hslice := slice?_eq hle hlen
  rw [readLe, access_some hslice, pure_bind, if_pos (length_of_slice? hslice)]
  exact .pure _

theorem discoverAppendedPayload_noPanic (bytes : List UInt8) :
    NoPanic (discoverAppendedPayload host bytes) := by
  unfold discoverAppendedPayload
  refine .ite (fun _ => .pure _) fun hlong => ?_
  have hstart : bytes.length - trailerSize ≤ bytes.length := Nat.sub_le _ _
  have hslice := slice?_eq hstart (Nat.le_refl bytes.length)
  have htrailer := length_of_slice? hslice
  simp only [access_some hslice, pure_bind]
  generalize ((bytes.take bytes.length).drop (bytes.length - trailerSize)) = trailer at htrailer ⊢
  have hlength : trailer.length = 32 := by
    have : trailerSize = 32 := rfl
    omega
  rw [access_some (slice?_eq (Nat.zero_le 8) (by omega))]
  simp only [pure_bind]
  refine .ite (fun _ => .pure _) fun _ => ?_
  refine (readLe_noPanic (by decide) (by omega)).bind fun size _ => ?_
  refine NoPanic.require.bind fun _ _ => ?_
  refine (readLe_noPanic (by decide) (by omega)).bind fun payloadLen _ => ?_
  refine NoPanic.require.bind fun _ _ => ?_
  refine NoPanic.require.bind fun _ hfits => ?_
  have hfits := of_require_eq_pure hfits
  rw [access_some (slice?_eq (by omega) (by omega))]
  simp only [pure_bind]
  refine (readLe_noPanic (by decide) (by omega)).bind fun expectedChecksum _ => ?_
  refine NoPanic.require.bind fun _ _ => ?_
  refine (readLe_noPanic (by decide) (by omega)).bind fun version _ => ?_
  refine (NoPanic.access ?_).bind fun architecture _ => .pure _
  simp [hlength]

theorem discoverAppended_noPanic (bytes : List UInt8) : NoPanic (discoverAppended host bytes) := by
  unfold discoverAppended
  refine (discoverAppendedPayload_noPanic bytes).bind fun appended _ => ?_
  cases appended with
  | none => exact .pure _
  | some appended =>
    refine NoPanic.require.bind fun _ _ => ?_
    refine NoPanic.mapErr.bind fun found _ => ?_
    refine NoPanic.require.bind fun _ _ => ?_
    refine NoPanic.mapErr.bind fun image _ => ?_
    exact NoPanic.mapErr.bind fun _ _ => .pure _

end RoundTrip

/-- A host whose images are single bytes. -/
def byteHost : Host UInt8 Unit where
  usizeBits := 64
  current := .x86_64
  toAllocvec image := .ok [image]
  fromBytes
    | [image] => .ok image
    | _ => .error ()
  validate _ := .ok ()

theorem byteHost_roundTrips : byteHost.RoundTrips := by
  intro image bytes h
  cases h
  rfl

end Celox.Image
