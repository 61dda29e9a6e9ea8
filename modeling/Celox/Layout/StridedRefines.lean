import Celox.Layout.Strided
import Celox.Memory.Planes

/-! # Strided planes hold what packed planes hold

Each access of a unit moves the logical bits as one range of the plane, or is a transfer of the
whole object: a clear, or a commit that copies planes or chunks that are one range in both. -/
namespace Celox.Layout
open Celox.Memory
open Celox.Sir (Config ExecutionUnit Machine OffsetValue RegisterId Registers SIRInstruction
  SIROffset SIRValue checkedAdd verifyResult_ok_iff)

/-! ## Physical offsets -/

/-- The offset in the packed logical bit space. -/
def logicalOffset : OffsetValue → Nat
  | .static bitOffset | .packedElements bitOffset _ => bitOffset
  | .dynamic value => value.payload
  | .element index elementWidth bitOffset dynamicBitOffset =>
    index.payload * elementWidth + bitOffset + (dynamicBitOffset.map (·.payload)).getD 0

section Offsets
variable {A : Type} (layout : MemoryLayout A)

/-- The bit of the plane that stores a bit of the object. -/
def MemoryLayout.physicalBit (address : A) (bit : Nat) : Nat :=
  let (byteOffset, intra) := layout.mapStaticBitOffset address bit
  byteOffset * 8 + intra

/-- Where a backend reads or writes the plane. No strided array has an arbitrary dynamic offset. -/
def MemoryLayout.memoryOffset (address : A) (offset : OffsetValue) : Option Nat :=
  match layout.unpackedArrays address with
  | none => some (logicalOffset offset)
  | some array =>
    match offset with
    | .element index _ bitOffset dynamicBitOffset =>
      some (index.payload * (array.elementStride * 8) + bitOffset +
        (dynamicBitOffset.map (·.payload)).getD 0)
    | .static bitOffset | .packedElements bitOffset _ => some (layout.physicalBit address bitOffset)
    | .dynamic _ => none

/-! ## Static commits -/

/-- Bits that one access can copy from here without leaving the element. -/
def MemoryLayout.commitChunkCapacity (address : A) (bitOffset : Nat) : Nat :=
  match layout.unpackedArrays address with
  | none => 64 - bitOffset % 8
  | some array =>
    let elementBit := bitOffset % array.elementWidth
    let bytesLeft := array.elementStride - elementBit / 8
    let nativeBits := if 8 ≤ bytesLeft then 64 else if 4 ≤ bytesLeft then 32
      else if 2 ≤ bytesLeft then 16 else 8
    min (array.elementWidth - elementBit) (nativeBits - elementBit % 8)

/-- The bits of the next chunk. Where both ends start at bytes it is one native access. -/
def MemoryLayout.commitPartWidth (src dst : A) (bitOffset width : Nat) : Nat :=
  let part := min (min width (layout.commitChunkCapacity src bitOffset))
    (layout.commitChunkCapacity dst bitOffset)
  if (layout.mapStaticBitOffset src bitOffset).2 = 0 ∧
      (layout.mapStaticBitOffset dst bitOffset).2 = 0 then
    if 64 ≤ part then 64 else if 32 ≤ part then 32 else if 16 ≤ part then 16
    else if 8 ≤ part then 8 else part
  else part

/-- The chunks of a static commit. The first argument bounds their number. -/
def MemoryLayout.commitChunks (src dst : A) : Nat → Nat → Nat → List (Nat × Nat)
  | 0, _, _ => []
  | fuel + 1, bitOffset, width =>
    if width = 0 then []
    else
      let part := layout.commitPartWidth src dst bitOffset width
      (bitOffset, part) :: commitChunks src dst fuel (bitOffset + part) (width - part)

/-- A commit at a static offset: one copy of the plane between whole arrays of one layout, else
chunk by chunk. -/
def MemoryLayout.commitPlane (src dst : A) (offset : SIROffset) (width : Nat)
    (srcPlane dstPlane : Bits) : Option Bits :=
  let chunked (bitOffset : Nat) := copyChunks (layout.physicalBit src) (layout.physicalBit dst)
    (layout.commitChunks src dst width bitOffset width) srcPlane dstPlane
  match offset with
  | .static bitOffset =>
    match layout.unpackedArrays src, layout.unpackedArrays dst with
    | some srcArray, some dstArray =>
      if bitOffset = 0 ∧ srcArray = dstArray ∧
          width = srcArray.elementWidth * srcArray.elementCount then
        some (writeBits dstPlane 0 (readBits srcPlane 0 (srcArray.planeSize * 8)))
      else some (chunked bitOffset)
    | _, _ => some (chunked bitOffset)
  | .packedElements bitOffset _ => some (chunked bitOffset)
  | .dynamic _ | .element .. => none

end Offsets

/-! ## Placements -/

section Placements
variable {A : Type} {layout : MemoryLayout A} {address : A}
  {array : UnpackedArrayLayout}

/-- A bit in its element, elements at their strides. -/
theorem physicalBit_strided (h : layout.unpackedArrays address = some array) (bit : Nat) :
    layout.physicalBit address bit =
      bit / array.elementWidth * (array.elementStride * 8) + bit % array.elementWidth := by
  simp only [MemoryLayout.physicalBit, MemoryLayout.mapStaticBitOffset, h]
  have := Nat.div_add_mod (bit % array.elementWidth) 8
  rw [Nat.add_mul, Nat.mul_assoc]
  omega

theorem physicalBit_packed (h : layout.unpackedArrays address = none) (bit : Nat) :
    layout.physicalBit address bit = bit := by
  simp only [MemoryLayout.physicalBit, MemoryLayout.mapStaticBitOffset, h]
  omega

/-- Elements have a width, and their strides room for it. -/
def MemoryLayout.Strides (layout : MemoryLayout A) (address : A) : Prop :=
  ∀ array, layout.unpackedArrays address = some array → 0 < array.elementWidth ∧
    array.elementStride = getByteSize array.elementWidth

/-- The stride of a declared array has room for an element. -/
theorem element_le_stride (h : array.elementStride = getByteSize array.elementWidth) :
    array.elementWidth ≤ array.elementStride * 8 :=
  h ▸ le_getByteSize_mul array.elementWidth

theorem physicalBit_injective
    (hstride : layout.Strides address) {i j : Nat}
    (h : layout.physicalBit address i = layout.physicalBit address j) : i = j := by
  cases harray : layout.unpackedArrays address with
  | none => simpa only [physicalBit_packed harray] using h
  | some array =>
    obtain ⟨hpos, hstride⟩ := hstride array harray
    rw [physicalBit_strided harray, physicalBit_strided harray] at h
    have hle := element_le_stride hstride
    have hi := Nat.mod_lt i hpos
    have hj := Nat.mod_lt j hpos
    have hstride_pos : 0 < array.elementStride * 8 := by omega
    have hdiv : i / array.elementWidth = j / array.elementWidth := by
      have := congrArg (· / (array.elementStride * 8)) h
      simpa [Nat.mul_add_div, Nat.add_comm, Nat.add_mul_div_right _ _ hstride_pos,
        Nat.div_eq_of_lt (Nat.lt_of_lt_of_le hi hle), Nat.div_eq_of_lt (Nat.lt_of_lt_of_le hj hle)]
        using this
    rw [hdiv, Nat.add_left_cancel_iff] at h
    rw [← Nat.div_add_mod i array.elementWidth, ← Nat.div_add_mod j array.elementWidth, hdiv, h]

/-- Within one element the bits follow each other. -/
theorem contiguous_in_element (harray : layout.unpackedArrays address = some array)
    {start bits : Nat} (h : start % array.elementWidth + bits ≤ array.elementWidth) :
    Contiguous (layout.physicalBit address) start bits (layout.physicalBit address start) := by
  intro k hk
  have hmod : (start + k) % array.elementWidth = start % array.elementWidth + k := by
    rw [Nat.add_mod, Nat.mod_eq_of_lt (by omega : k < array.elementWidth), Nat.mod_eq_of_lt]
    omega
  have hdiv : (start + k) / array.elementWidth = start / array.elementWidth := by
    have hpos : 0 < array.elementWidth := by omega
    have h1 := Nat.div_add_mod (start + k) array.elementWidth
    have h2 := Nat.div_add_mod start array.elementWidth
    rw [hmod] at h1
    exact Nat.eq_of_mul_eq_mul_left hpos (by omega)
  rw [physicalBit_strided harray, physicalBit_strided harray, hmod, hdiv, Nat.add_assoc]

end Placements
/-! ## Chunks -/

section Chunks
variable {A : Type} {layout : MemoryLayout A} {src dst : A}

theorem commitChunkCapacity_pos {address : A} (h : layout.Strides address) (bitOffset : Nat) :
    0 < layout.commitChunkCapacity address bitOffset := by
  unfold MemoryLayout.commitChunkCapacity
  split
  · omega
  · rename_i array harray
    obtain ⟨hpos, hstride⟩ := h array harray
    have hmod := Nat.mod_lt bitOffset hpos
    have hle := element_le_stride hstride
    dsimp only
    split_ifs <;> omega

theorem contiguous_of_le_capacity {address : A} (hstrides : layout.Strides address)
    {bitOffset bits : Nat} (h : bits ≤ layout.commitChunkCapacity address bitOffset) :
    Contiguous (layout.physicalBit address) bitOffset bits
      (layout.physicalBit address bitOffset) := by
  unfold MemoryLayout.commitChunkCapacity at h
  split at h
  · rename_i harray
    intro k _
    rw [physicalBit_packed harray, physicalBit_packed harray]
  · rename_i array harray
    refine contiguous_in_element harray ?_
    have hle := le_trans h (Nat.min_le_left ..)
    have hmod := Nat.mod_lt bitOffset (hstrides array harray).1
    omega

theorem commitPartWidth_bounds (hsrc : layout.Strides src) (hdst : layout.Strides dst)
    (bitOffset : Nat) {width : Nat} (hwidth : 0 < width) :
    0 < layout.commitPartWidth src dst bitOffset width ∧
      layout.commitPartWidth src dst bitOffset width ≤ width ∧
      layout.commitPartWidth src dst bitOffset width ≤ layout.commitChunkCapacity src bitOffset ∧
      layout.commitPartWidth src dst bitOffset width ≤
        layout.commitChunkCapacity dst bitOffset := by
  have hs := commitChunkCapacity_pos hsrc bitOffset
  have hd := commitChunkCapacity_pos hdst bitOffset
  unfold MemoryLayout.commitPartWidth
  dsimp only
  split_ifs <;> omega

theorem commitChunks_tiles (hsrc : layout.Strides src) (hdst : layout.Strides dst)
    (bitOffset : Nat) {fuel width : Nat} (hfuel : width ≤ fuel) :
    Tiles bitOffset width (layout.commitChunks src dst fuel bitOffset width) ∧
      ∀ chunk ∈ layout.commitChunks src dst fuel bitOffset width,
        Contiguous (layout.physicalBit src) chunk.1 chunk.2 (layout.physicalBit src chunk.1) ∧
        Contiguous (layout.physicalBit dst) chunk.1 chunk.2 (layout.physicalBit dst chunk.1) := by
  induction fuel generalizing bitOffset width with
  | zero =>
    obtain rfl : width = 0 := by omega
    exact ⟨.nil, by simp [MemoryLayout.commitChunks]⟩
  | succ fuel ih =>
    unfold MemoryLayout.commitChunks
    split_ifs with hzero
    · subst hzero
      exact ⟨.nil, by simp⟩
    · obtain ⟨hpos, hle, hcapSrc, hcapDst⟩ :=
        commitPartWidth_bounds hsrc hdst bitOffset (Nat.pos_of_ne_zero hzero)
      have hrest : width - layout.commitPartWidth src dst bitOffset width ≤ fuel := by omega
      obtain ⟨htiles, hcontiguous⟩ :=
        ih (bitOffset + layout.commitPartWidth src dst bitOffset width) hrest
      refine ⟨?_, ?_⟩
      · have hcons := Tiles.cons htiles
        rwa [Nat.add_sub_cancel' hle] at hcons
      · dsimp only
        rw [List.forall_mem_cons]
        exact ⟨⟨contiguous_of_le_capacity hsrc hcapSrc, contiguous_of_le_capacity hdst hcapDst⟩, hcontiguous⟩

end Chunks
/-! ## Accesses -/

section Access
variable {A : Type} {layout : MemoryLayout A} {address : A} {array : UnpackedArrayLayout}

/-- The access is inside the object, and inside the element it names. -/
def StaysIn (objectWidth bits : Nat) (value : OffsetValue) : Prop :=
  logicalOffset value + bits ≤ objectWidth ∧
    match value with
    | .element _ elementWidth bitOffset dynamicBitOffset =>
      bitOffset + (dynamicBitOffset.map (·.payload)).getD 0 + bits ≤ elementWidth
    | _ => True

/-- The forms whose bits follow each other in the plane. -/
def Straight (array : UnpackedArrayLayout) (bits : Nat) : SIROffset → Prop
  | .element _ elementWidth bitOffset _ =>
    elementWidth = array.elementWidth ∧ bitOffset + bits ≤ array.elementWidth
  | .static start => array.elementStride * 8 = array.elementWidth ∨
    start / array.elementWidth = (start + (bits - 1)) / array.elementWidth
  | .packedElements _ _ => array.elementStride * 8 = array.elementWidth
  | .dynamic _ => False

/-- All the bits of an object. -/
def WholeObject (objectWidth : Nat) (offset : SIROffset) (bits : Nat) : Prop :=
  offset.constantBitOffset = some 0 ∧ bits = objectWidth

theorem checkedAdd_eq_some {a b c : Nat} (h : checkedAdd a b = some c) : c = a + b := by
  unfold checkedAdd at h
  split at h
  · exact (Option.some.inj h).symm
  · cases h

theorem supportsStridedAccess_spec {offset : SIROffset} {bits : Nat} {whole : Bool}
    (h : supportsStridedAccess array offset bits whole = some true) :
    Straight array bits offset ∨
      whole = true ∧ WholeObject (array.elementWidth * array.elementCount) offset bits := by
  cases offset with
  | dynamic register => cases h
  | element index elementWidth bitOffset dynamicBitOffset =>
    simp only [supportsStridedAccess, Option.some.injEq, decide_eq_true_eq, Option.any_eq_true]
      at h
    obtain ⟨hwidth, last, hlast, hle⟩ := h
    obtain rfl := checkedAdd_eq_some hlast
    exact .inl ⟨hwidth, hle⟩
  | packedElements bitOffset elementWidth =>
    simp only [supportsStridedAccess, Option.some.injEq, decide_eq_true_eq] at h
    obtain ⟨-, ⟨hstride, -⟩ | ⟨hwhole, hzero, hbits⟩⟩ := h
    · exact .inl hstride
    · exact .inr ⟨hwhole, congrArg some hzero, hbits⟩
  | static start =>
    simp only [supportsStridedAccess, Option.map_eq_some_iff, Bool.or_eq_true, Bool.and_eq_true,
      decide_eq_true_eq] at h
    obtain ⟨singleElement, hsingle, (hstride | rfl) | ⟨hwhole, hzero, hbits⟩⟩ := h
    · exact .inl (.inl hstride)
    · refine .inl (.inr ?_)
      split at hsingle
      · cases hsingle
      · rename_i last hlast
        obtain rfl := checkedAdd_eq_some hlast
        unfold checkedDiv at hsingle
        split at hsingle
        · cases hsingle
        · simpa using hsingle
    · exact .inr ⟨hwhole, congrArg some hzero, hbits⟩

theorem contiguous_of_full_stride (harray : layout.unpackedArrays address = some array)
    (h : array.elementStride * 8 = array.elementWidth) (start bits : Nat) :
    Contiguous (layout.physicalBit address) start bits (layout.physicalBit address start) := by
  have hid (bit : Nat) : layout.physicalBit address bit = bit := by
    rw [physicalBit_strided harray, h, Nat.mul_comm, Nat.div_add_mod]
  intro k _
  rw [hid, hid]

/-- A form that is straight is one range of the plane, wherever its registers point to in the
object. -/
theorem Straight.contiguous (harray : layout.unpackedArrays address = some array)
    {offset : SIROffset} {bits : Nat} (h : Straight array bits offset) {regs : Registers}
    {value : OffsetValue} (hresolve : offset.resolve regs = some value)
    (hstays : StaysIn (array.elementWidth * array.elementCount) bits value) :
    ∃ position, layout.memoryOffset address value = some position ∧
      Contiguous (layout.physicalBit address) (logicalOffset value) bits position := by
  unfold MemoryLayout.memoryOffset
  rw [harray]
  cases offset with
  | dynamic register => cases h
  | packedElements bitOffset elementWidth =>
    cases hresolve
    exact ⟨_, rfl, contiguous_of_full_stride harray h _ _⟩
  | static start =>
    cases hresolve
    refine ⟨_, rfl, ?_⟩
    rcases h with h | h
    · exact contiguous_of_full_stride harray h _ _
    · rcases Nat.eq_zero_or_pos bits with rfl | hbits
      · exact fun k hk => by omega
      · refine contiguous_in_element harray ?_
        have hpos : 0 < array.elementWidth := by
          have hin := hstays.1
          exact Nat.pos_of_ne_zero fun h0 => by
            rw [h0, Nat.zero_mul] at hin
            omega
        have h1 := Nat.div_add_mod start array.elementWidth
        have h2 := Nat.div_add_mod (start + (bits - 1)) array.elementWidth
        have h3 := Nat.mod_lt (start + (bits - 1)) hpos
        rw [← h] at h2
        simp only [logicalOffset]
        omega
  | element index elementWidth bitOffset dynamicBitOffset =>
    obtain ⟨rfl, -⟩ := h
    obtain ⟨indexValue, dynamicValue, rfl⟩ : ∃ indexValue dynamicValue,
        value = .element indexValue array.elementWidth bitOffset dynamicValue := by
      cases dynamicBitOffset with
      | none =>
        simp only [SIROffset.resolve, Option.map_eq_some_iff] at hresolve
        obtain ⟨v, -, rfl⟩ := hresolve
        exact ⟨v, none, rfl⟩
      | some register =>
        simp only [SIROffset.resolve, Option.bind_eq_bind, Option.bind_eq_some_iff,
          Option.pure_def, Option.some.injEq] at hresolve
        obtain ⟨v, -, v', -, rfl⟩ := hresolve
        exact ⟨v, some v', rfl⟩
    refine ⟨_, rfl, fun k hk => ?_⟩
    have hin := hstays.2
    dsimp only at hin
    simp only [logicalOffset]
    rw [physicalBit_strided harray, Nat.add_assoc, Nat.add_assoc, Nat.mul_comm indexValue.payload,
      Nat.mul_add_div (by omega), Nat.mul_add_mod, Nat.div_eq_of_lt (by omega),
      Nat.mod_eq_of_lt (by omega), Nat.add_zero]
    omega

/-- One read or write of the plane moves exactly the logical bits. -/
def ExactAccess (layout : MemoryLayout A) (address : A) (objectWidth : Nat) (offset : SIROffset)
    (bits : Nat) : Prop :=
  ∀ regs value, offset.resolve regs = some value → StaysIn objectWidth bits value →
    ∃ position, layout.memoryOffset address value = some position ∧
      ∀ plane object, Holds (layout.physicalBit address) objectWidth plane object →
        readBits plane position bits = readBits object (logicalOffset value) bits ∧
        ∀ data : List Bool, data.length = bits →
          Holds (layout.physicalBit address) objectWidth (writeBits plane position data)
            (writeBits object (logicalOffset value) data) ∧
          ∀ p, (∀ k < bits, p ≠ layout.physicalBit address (logicalOffset value + k)) →
            writeBits plane position data p = plane p

/-- The strides of an object that is not empty. -/
theorem strides_of_declared {objectWidth : Nat}
    (hdeclared : ∀ array, layout.unpackedArrays address = some array →
      objectWidth = array.elementWidth * array.elementCount ∧
      array.elementStride = getByteSize array.elementWidth) (hpos : 0 < objectWidth) :
    layout.Strides address := by
  intro array harray
  obtain ⟨hwidth, hstride⟩ := hdeclared array harray
  refine ⟨Nat.pos_of_ne_zero fun h0 => ?_, hstride⟩
  rw [h0, Nat.zero_mul] at hwidth
  omega

theorem exactAccess_of_contiguous {objectWidth bits : Nat} {offset : SIROffset}
    (hstrides : 0 < objectWidth → layout.Strides address)
    (h : ∀ regs value, offset.resolve regs = some value → StaysIn objectWidth bits value →
      ∃ position, layout.memoryOffset address value = some position ∧
        Contiguous (layout.physicalBit address) (logicalOffset value) bits position) :
    ExactAccess layout address objectWidth offset bits := by
  intro regs value hresolve hstays
  obtain ⟨position, hposition, hcontiguous⟩ := h regs value hresolve hstays
  refine ⟨position, hposition, fun plane object hholds => ⟨hcontiguous.read hholds hstays.1, ?_⟩⟩
  rintro data rfl
  refine ⟨hcontiguous.write hholds hstays.1 fun i hi j hj => ?_, fun p => hcontiguous.write_frame⟩
  exact physicalBit_injective (hstrides (by omega))

theorem exactAccess_packed (h : layout.unpackedArrays address = none) (objectWidth : Nat)
    (offset : SIROffset) (bits : Nat) : ExactAccess layout address objectWidth offset bits := by
  refine exactAccess_of_contiguous (fun _ array harray => ?_) fun regs value _ _ => ?_
  · rw [h] at harray
    cases harray
  · refine ⟨logicalOffset value, by simp [MemoryLayout.memoryOffset, h], fun k _ => ?_⟩
    rw [physicalBit_packed h]

end Access
/-! ## Whole programs -/

section Program
variable {A : Type} [LinearOrder A] {program : OptimizedSir A} {arrays : Candidates A}
  {layout : MemoryLayout A}

def OptimizedSir.objectWidth (program : OptimizedSir A) (address : A) : Option Nat :=
  (program.stateObjects.find? (·.address = address)).map (·.width)

/-- The store clears the whole object: its source is zero whenever a run reaches it, and the
cleared plane holds the cleared object. -/
def ZeroStore (layout : MemoryLayout A) (eu : ExecutionUnit (RegionedAbsoluteAddr A)) (address : A)
    (objectWidth : Nat) (offset : SIROffset) (bits : Nat) (source : RegisterId) : Prop :=
  WholeObject objectWidth offset bits ∧
    (∀ (S : Type) (m : Machine (RegionedAbsoluteAddr A) S) (c : Config (RegionedAbsoluteAddr A) S),
      eu.Reached m c → ∀ value, c.state.regs source = some value → value = ⟨0, 0⟩) ∧
    ∀ plane object, Holds (layout.physicalBit address) objectWidth plane object →
      Holds (layout.physicalBit address) objectWidth
        (writeBits plane 0 (List.replicate (layout.planeSize address * 8) false))
        (writeBits object 0 (List.replicate bits false))

/-- A commit at a static offset in both objects copies exactly the logical bits. -/
def CommitExact (layout : MemoryLayout A) (src dst : A) (srcWidth dstWidth : Nat)
    (offset : SIROffset) (bits : Nat) : Prop :=
  ∀ bitOffset, offset.constantBitOffset = some bitOffset → bitOffset + bits ≤ srcWidth →
    bitOffset + bits ≤ dstWidth → ∀ srcPlane dstPlane srcObject dstObject,
      Holds (layout.physicalBit src) srcWidth srcPlane srcObject →
      Holds (layout.physicalBit dst) dstWidth dstPlane dstObject →
      ∃ plane, layout.commitPlane src dst offset bits srcPlane dstPlane = some plane ∧
        Holds (layout.physicalBit dst) dstWidth plane
          (writeBits dstObject bitOffset (readBits srcObject bitOffset bits))

/-- What holds of the accesses of an instruction. -/
def InstructionRefines (program : OptimizedSir A) (layout : MemoryLayout A)
    (eu : ExecutionUnit (RegionedAbsoluteAddr A)) :
    SIRInstruction (RegionedAbsoluteAddr A) → Prop
  | .load _ addr offset bits => ∀ objectWidth, program.objectWidth addr.absoluteAddr =
      some objectWidth → ExactAccess layout addr.absoluteAddr objectWidth offset bits
  | .store addr offset bits source _ _ => ∀ objectWidth, program.objectWidth addr.absoluteAddr =
      some objectWidth → ExactAccess layout addr.absoluteAddr objectWidth offset bits ∨
        ZeroStore layout eu addr.absoluteAddr objectWidth offset bits source
  | .commit src dst offset bits _ => ∀ srcWidth dstWidth,
      program.objectWidth src.absoluteAddr = some srcWidth →
      program.objectWidth dst.absoluteAddr = some dstWidth →
      (ExactAccess layout src.absoluteAddr srcWidth offset bits ∨
        WholeObject srcWidth offset bits) ∧
      (ExactAccess layout dst.absoluteAddr dstWidth offset bits ∨
        WholeObject dstWidth offset bits) ∧
      CommitExact layout src.absoluteAddr dst.absoluteAddr srcWidth dstWidth offset bits
  | _ => True

theorem declared_of_collect (hcollect : collectStridedArrayLayouts program = some arrays)
    {address : A} {array : UnpackedArrayLayout} (harray : arrays address = some array)
    {objectWidth : Nat} (hwidth : program.objectWidth address = some objectWidth) :
    objectWidth = array.elementWidth * array.elementCount ∧
      array.elementStride = getByteSize array.elementWidth ∧
      array.planeSize = array.elementStride * array.elementCount := by
  have h := (collectStridedArrayLayouts_spec hcollect).1 address array harray
  unfold stridedCandidates declaredStridedArrayLayouts at h
  split_ifs at h
  obtain ⟨object, hobject, hlayout⟩ := Option.bind_eq_some_iff.mp h
  rw [OptimizedSir.objectWidth, hobject] at hwidth
  obtain rfl := Option.some.inj hwidth
  exact declaredStridedArrayLayout_eq hlayout

omit [LinearOrder A] in
/-- A kept array holds the bits of its object in its plane. -/
theorem physicalBit_lt_plane {address : A} {array : UnpackedArrayLayout}
    (harray : layout.unpackedArrays address = some array)
    (hstride : array.elementStride = getByteSize array.elementWidth)
    (hplane : array.planeSize = array.elementStride * array.elementCount) {bit : Nat}
    (hbit : bit < array.elementWidth * array.elementCount) :
    layout.physicalBit address bit < array.planeSize * 8 := by
  have hpos : 0 < array.elementWidth := Nat.pos_of_ne_zero fun h0 => by simp [h0] at hbit
  have hmod := Nat.mod_lt bit hpos
  have hle := element_le_stride hstride
  have hdiv : bit / array.elementWidth + 1 ≤ array.elementCount :=
    Nat.div_lt_of_lt_mul hbit
  have hmul := Nat.mul_le_mul_right (array.elementStride * 8) hdiv
  rw [Nat.add_mul, Nat.one_mul] at hmul
  rw [physicalBit_strided harray, hplane, Nat.mul_right_comm, Nat.mul_comm _ array.elementCount]
  omega

theorem access_refines (hcollect : collectStridedArrayLayouts program = some arrays)
    (hlayout : layout.unpackedArrays = arrays) {addr : RegionedAbsoluteAddr A}
    {offset : SIROffset} {bits : Nat} {whole : Bool} (h : AccessKept arrays addr offset bits whole)
    {objectWidth : Nat} (hwidth : program.objectWidth addr.absoluteAddr = some objectWidth) :
    ExactAccess layout addr.absoluteAddr objectWidth offset bits ∨
      whole = true ∧ WholeObject objectWidth offset bits ∧
        ∃ array, layout.unpackedArrays addr.absoluteAddr = some array := by
  cases harray : arrays addr.absoluteAddr with
  | none => exact .inl (exactAccess_packed (by rw [hlayout, harray]) _ _ _)
  | some array =>
    obtain ⟨rfl, hstride, -⟩ := declared_of_collect hcollect harray hwidth
    have hkept : layout.unpackedArrays addr.absoluteAddr = some array := by rw [hlayout, harray]
    rcases supportsStridedAccess_spec (h array harray) with hstraight | ⟨hwhole, hobject⟩
    · refine .inl (exactAccess_of_contiguous (strides_of_declared fun array' harray' => ?_)
        fun regs value hresolve hstays => hstraight.contiguous hkept hresolve hstays)
      rw [hkept] at harray'
      cases harray'
      exact ⟨rfl, hstride⟩
    · exact .inr ⟨hwhole, hobject, array, hkept⟩

theorem strides_of_collect (hcollect : collectStridedArrayLayouts program = some arrays)
    (hlayout : layout.unpackedArrays = arrays) {address : A} {objectWidth : Nat}
    (hwidth : program.objectWidth address = some objectWidth) (hpos : 0 < objectWidth) :
    layout.Strides address := by
  refine strides_of_declared (fun array harray => ?_) hpos
  rw [hlayout] at harray
  obtain ⟨hw, hs, -⟩ := declared_of_collect hcollect harray hwidth
  exact ⟨hw, hs⟩

theorem zeroStore_holds (hcollect : collectStridedArrayLayouts program = some arrays)
    (hlayout : layout.unpackedArrays = arrays) {address : A} {array : UnpackedArrayLayout}
    (harray : layout.unpackedArrays address = some array) {objectWidth : Nat}
    (hwidth : program.objectWidth address = some objectWidth) (plane object : Bits) :
    Holds (layout.physicalBit address) objectWidth
      (writeBits plane 0 (List.replicate (layout.planeSize address * 8) false))
      (writeBits object 0 (List.replicate objectWidth false)) := by
  intro i hi
  obtain ⟨rfl, hstride, hplane⟩ := declared_of_collect hcollect (hlayout ▸ harray) hwidth
  have hlt := physicalBit_lt_plane harray hstride hplane hi
  have hsize : layout.planeSize address = array.planeSize := by
    simp [MemoryLayout.planeSize, objectSize, harray]
  simp [writeBits, hsize, hlt, hi]

theorem commitExact_of_collect (hcollect : collectStridedArrayLayouts program = some arrays)
    (hlayout : layout.unpackedArrays = arrays) {src dst : A} {srcWidth dstWidth : Nat}
    (hsrc : program.objectWidth src = some srcWidth)
    (hdst : program.objectWidth dst = some dstWidth) (offset : SIROffset) (bits : Nat) :
    CommitExact layout src dst srcWidth dstWidth offset bits := by
  intro bitOffset hoffset hinSrc hinDst srcPlane dstPlane srcObject dstObject hsrcHolds hdstHolds
  have hchunked : Holds (layout.physicalBit dst) dstWidth
      (copyChunks (layout.physicalBit src) (layout.physicalBit dst)
        (layout.commitChunks src dst bits bitOffset bits) srcPlane dstPlane)
      (writeBits dstObject bitOffset (readBits srcObject bitOffset bits)) := by
    rcases Nat.eq_zero_or_pos bits with rfl | hbits
    · simpa [MemoryLayout.commitChunks, copyChunks, writeBits, readBits, Holds] using hdstHolds
    · have hsrcStrides := strides_of_collect hcollect hlayout hsrc (by omega)
      have hdstStrides := strides_of_collect hcollect hlayout hdst (by omega)
      obtain ⟨htiles, hchunks⟩ := commitChunks_tiles hsrcStrides hdstStrides bitOffset (le_refl bits)
      exact htiles.copy hchunks hinSrc hinDst (fun i _ j _ => physicalBit_injective hdstStrides)
        hsrcHolds hdstHolds
  unfold MemoryLayout.commitPlane
  dsimp only
  cases offset with
  | dynamic => cases hoffset
  | element => cases hoffset
  | packedElements =>
    cases hoffset
    exact ⟨_, rfl, hchunked⟩
  | static start =>
    cases hoffset
    dsimp only
    split
    · rename_i srcArray dstArray hsrcArray hdstArray
      split_ifs with hwhole
      · obtain ⟨rfl, rfl, rfl⟩ := hwhole
        refine ⟨_, rfl, fun i hi => ?_⟩
        obtain ⟨rfl, hstride, hplane⟩ := declared_of_collect hcollect (hlayout ▸ hdstArray) hdst
        obtain ⟨rfl, -, -⟩ := declared_of_collect hcollect (hlayout ▸ hsrcArray) hsrc
        have hlt := physicalBit_lt_plane hdstArray hstride hplane hi
        have hsame : layout.physicalBit dst i = layout.physicalBit src i := by
          rw [physicalBit_strided hsrcArray, physicalBit_strided hdstArray]
        simp only [writeBits, Nat.zero_le, if_true, Nat.sub_zero, getElem?_readBits hlt,
          getElem?_readBits hi, Option.getD_some, Nat.zero_add]
        rw [hsame]
        exact hsrcHolds i hi
      · exact ⟨_, rfl, hchunked⟩
    · exact ⟨_, rfl, hchunked⟩

/-- With the arrays that are kept strided, every access of every unit moves the bits that the
packed layout would, or is a clear or a commit of the whole object. -/
theorem strided_layout_refines_packed
    (hcollect : collectStridedArrayLayouts program = some arrays)
    (hverified : ∀ eu ∈ program.sir.units, eu.verifyResult = .ok ())
    (hlayout : layout.unpackedArrays = arrays) :
    ∀ eu ∈ program.sir.units, ∀ inst ∈ eu.instructions,
      InstructionRefines program layout eu inst := by
  intro eu heu inst hinst
  obtain ⟨exactZeros, hexact, hkept⟩ := (collectStridedArrayLayouts_spec hcollect).2 eu heu
  have hinst := hkept inst hinst
  cases inst with
  | load dst addr offset bits =>
    intro objectWidth hwidth
    rcases access_refines hcollect hlayout hinst hwidth with h | ⟨h, -⟩
    · exact h
    · cases h
  | store addr offset bits source triggers captureSites =>
    intro objectWidth hwidth
    obtain ⟨whole, haccess, hzero⟩ := hinst
    rcases access_refines hcollect hlayout haccess hwidth with h | ⟨hwhole, hobject, array, harray⟩
    · exact .inl h
    · refine .inr ⟨hobject, fun S m c hreached value hvalue => ?_, fun plane object _ => ?_⟩
      · have hv := (verifyResult_ok_iff eu).mp (hverified eu heu)
        exact hreached.zero hv.singleAssignment source (hexact source (hzero hwhole)) value hvalue
      · obtain ⟨-, rfl⟩ := hobject
        exact zeroStore_holds hcollect hlayout harray hwidth plane object
  | commit src dst offset bits triggers =>
    intro srcWidth dstWidth hsrc hdst
    refine ⟨?_, ?_, commitExact_of_collect hcollect hlayout hsrc hdst offset bits⟩
    · exact (access_refines hcollect hlayout hinst.1 hsrc).imp_right fun h => h.2.1
    · exact (access_refines hcollect hlayout hinst.2 hdst).imp_right fun h => h.2.1
  | _ => trivial

end Program
/-! ## Where the layouts differ -/

/-- A clear, and a commit to an object that is packed. -/
def clearUnit : ExecutionUnit (RegionedAbsoluteAddr Nat) where
  entryBlockId := 0
  blocks := [⟨0, ⟨0, [], [.imm 0 ⟨0, 0⟩, .store ⟨0, 0⟩ (.static 0) 130 0 [] [],
    .commit ⟨0, 0⟩ ⟨0, 1⟩ (.static 0) 130 []], .ret⟩⟩].toAList
  registerMap := [⟨0, .bit 130 false⟩].toAList

/-- A read of some bits of an element. -/
def elementUnit : ExecutionUnit (RegionedAbsoluteAddr Nat) where
  entryBlockId := 0
  blocks := [⟨0, ⟨0, [], [.imm 0 ⟨0, 0⟩, .imm 1 ⟨64, 0⟩,
    .load 2 ⟨0, 0⟩ (.element 0 65 0 (some 1)) 4], .ret⟩⟩].toAList
  registerMap := [⟨0, .bit 8 false⟩, ⟨1, .bit 8 false⟩, ⟨2, .bit 4 false⟩].toAList

/-- An array of two elements of 65 bits, and an object of 130 bits. -/
def rowsProgram : OptimizedSir Nat where
  sir := ⟨[clearUnit, elementUnit], ∅, ∅, ∅, ∅⟩
  stateObjects := [⟨0, 130, false⟩, ⟨1, 130, false⟩]
  arrayDims := fun address => if address = 0 then [2] else []
  layoutRequirements := ⟨[], List.nodup_nil⟩
  testbenchReadRoots := []

def rowsArrays : Candidates Nat := fun address => if address = 0 then some ⟨65, 2, 9, 18⟩ else none

def rowsInput : LayoutInput Nat where
  stateObjects := rowsProgram.stateObjects
  workingAddresses := []
  sparseAddresses := []
  unpackedArrays := rowsArrays
  requirements := rowsProgram.layoutRequirements
  ffReferencedAddresses := []
  numEvents := 0
  runtimeEventSites := []

theorem rowsProgram_arrays : collectStridedArrayLayouts rowsProgram = some rowsArrays := by
  have hkept : (collectStridedArrayLayouts rowsProgram).map (fun arrays => (arrays 0, arrays 1)) =
      some (rowsArrays 0, rowsArrays 1) := by decide
  obtain ⟨arrays, harrays, heq⟩ := Option.map_eq_some_iff.mp hkept
  rw [harrays]
  congr 1
  funext address
  match address with
  | 0 => exact congrArg Prod.fst heq
  | 1 => exact congrArg Prod.snd heq
  | address + 2 =>
    have hnone : stridedCandidates rowsProgram (address + 2) = none := by
      simp [stridedCandidates, declaredStridedArrayLayouts, rowsProgram]
    have hshrink := (collectStridedArrayLayouts_spec harrays).1 (address + 2)
    cases h : arrays (address + 2) with
    | none => rfl
    | some array =>
      rw [hshrink array h] at hnone
      cases hnone

theorem rows_hold {layout : MemoryLayout Nat}
    (h : layout.unpackedArrays 0 = some ⟨65, 2, 9, 18⟩) :
    Holds (layout.physicalBit 0) 130 (fun p => p = 72) (fun i => i = 65) := by
  intro i hi
  rw [physicalBit_strided h, decide_eq_decide]
  dsimp only
  omega

/-- A commit connects a strided array with a packed object; and where the register of an offset
leaves its element, padding is read in place of the next element. -/
theorem strided_layout_differs :
    ∃ arrays layout, collectStridedArrayLayouts rowsProgram = some arrays ∧
      build { rowsInput with unpackedArrays := arrays } false .elementStrided = some layout ∧
      (.commit ⟨0, 0⟩ ⟨0, 1⟩ (.static 0) 130 [] ∈ clearUnit.instructions ∧
        arrays 0 ≠ none ∧ arrays 1 = none) ∧
      (.load 2 ⟨0, 0⟩ (.element 0 65 0 (some 1)) 4 ∈ elementUnit.instructions ∧
        layout.memoryOffset 0 (.element ⟨0, 0⟩ 65 0 (some ⟨64, 0⟩)) = some 64 ∧
        ∃ plane object, Holds (layout.physicalBit 0) 130 plane object ∧
          readBits plane 64 4 ≠ readBits object 64 4) := by
  refine ⟨_, _, rowsProgram_arrays, rfl, ⟨by decide, by decide, rfl⟩, by decide, rfl,
    _, _, rows_hold rfl, by decide⟩

/-- A clear, a commit to a packed object and a read in an element. -/
theorem rows_refine_packed : ∃ layout,
    build rowsInput false .elementStrided = some layout ∧
      ∀ eu ∈ rowsProgram.sir.units, ∀ inst ∈ eu.instructions,
        InstructionRefines rowsProgram layout eu inst :=
  ⟨_, rfl, strided_layout_refines_packed rowsProgram_arrays (by decide) rfl⟩

end Celox.Layout
