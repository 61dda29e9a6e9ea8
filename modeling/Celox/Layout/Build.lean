import Celox.Events.Ring
import Celox.Memory.Placement

/-! # Physical layout of the simulation state

Stable objects, working objects, sparse objects, their metadata and the event bits are placed one
region after the other. Optimized aliases then share the stable home of another object.
Sizes and offsets are bytes. -/
namespace Celox.Layout
open Celox.Events Celox.Memory

def stateHeaderSize : Nat := 32

/-- `(offset + alignment - 1) & !(alignment - 1)`, where `!(0 - 1)` is 0. -/
def alignUp (offset alignment : Nat) : Nat :=
  if alignment = 0 then 0
  else (offset + alignment - 1) - ((offset + alignment - 1) &&& (alignment - 1))

def divCeil (a b : Nat) : Nat := (a + b - 1) / b

def getByteSize (width : Nat) : Nat := divCeil width 8

def getAlignment (width : Nat) : Nat :=
  let size := getByteSize width
  if size = 0 then 1
  else if size ≤ 8 then size.nextPowerOfTwo
  else 8

structure UnpackedArrayLayout where
  elementWidth : Nat
  elementCount : Nat
  elementStride : Nat
  planeSize : Nat
  deriving DecidableEq, Repr

/-- One state object that needs stable storage. -/
structure StateObjectLayout (A : Type) where
  address : A
  width : Nat
  is4state : Bool
  deriving DecidableEq, Repr

/-- Alias pairs by their alias: two objects that may share one home. -/
structure LayoutRequirements (A : Type) where
  stateAliases : List (A × A)
  nodup : (stateAliases.map Prod.fst).Nodup

structure LayoutInput (A : Type) where
  stateObjects : List (StateObjectLayout A)
  workingAddresses : List A
  sparseAddresses : List A
  unpackedArrays : A → Option UnpackedArrayLayout
  requirements : LayoutRequirements A
  ffReferencedAddresses : List A
  numEvents : Nat
  runtimeEventSites : List RuntimeEventSite

inductive MemoryLayoutMode where
  | packed
  | elementStrided
  deriving DecidableEq, Repr

structure SparseWorkingLayout where
  activeIndex : Nat
  chunkCount : Nat
  dirtyWordsOffset : Nat
  dirtyWordCount : Nat
  summaryWordsOffset : Nat
  summaryWordCount : Nat
  deriving DecidableEq, Repr

structure MemoryLayout (A : Type) where
  fourState : Bool
  mode : MemoryLayoutMode
  offsets : A → Option Nat
  widths : A → Option Nat
  is4states : A → Option Bool
  unpackedArrays : A → Option UnpackedArrayLayout
  totalSize : Nat
  workingOffsets : A → Option Nat
  workingBaseOffset : Nat
  sparseOffsets : A → Option Nat
  sparseBaseOffset : Nat
  sparseLayouts : A → Option SparseWorkingLayout
  sparseActiveBitsOffset : Nat
  sparseActiveCapacity : Nat
  mergedTotalSize : Nat
  triggeredBitsOffset : Nat
  triggeredBitsTotalSize : Nat
  scratchBaseOffset : Nat
  scratchSize : Nat
  events : EventLayout

section Build
variable {A : Type} [LinearOrder A]

/-! ## Strided arrays -/

/-- The layout of an array whose elements start at bytes. -/
def declaredStridedArrayLayout (width : Nat) (arrayDims : List Nat) : Option UnpackedArrayLayout :=
  let elementCount := arrayDims.prod
  if elementCount ≤ 1 ∨ width % elementCount ≠ 0 then none
  else
    let elementWidth := width / elementCount
    let elementStride := getByteSize elementWidth
    some ⟨elementWidth, elementCount, elementStride, elementStride * elementCount⟩

/-- `declared_strided_array_layouts`: the arrays that are not the end of an alias pair. -/
def declaredStridedArrayLayouts (objects : List (StateObjectLayout A)) (arrayDims : A → List Nat)
    (requirements : LayoutRequirements A) (address : A) : Option UnpackedArrayLayout :=
  if requirements.stateAliases.any fun (aliased, canonical) => aliased = address ∨ canonical = address
  then none
  else (objects.find? (·.address = address)).bind fun object =>
    declaredStridedArrayLayout object.width (arrayDims address)

/-! ## Objects -/

structure PhysicalLayoutObject (A : Type) where
  address : A
  width : Nat
  is4state : Bool
  size : Nat
  alignment : Nat
  deriving DecidableEq, Repr

def objectSize (unpackedArrays : A → Option UnpackedArrayLayout) (address : A) (width : Nat) :
    Nat :=
  match unpackedArrays address with
  | some layout => layout.planeSize
  | none => getByteSize width

def objectAlignment (unpackedArrays : A → Option UnpackedArrayLayout) (address : A)
    (width : Nat) : Nat :=
  match unpackedArrays address with
  | some layout => min layout.elementStride 8
  | none => getAlignment width

def physicalObject (unpackedArrays : A → Option UnpackedArrayLayout) (address : A) (width : Nat)
    (is4state : Bool) : PhysicalLayoutObject A :=
  { address, width, is4state
    size := objectSize unpackedArrays address width
    alignment := objectAlignment unpackedArrays address width }

/-- By decreasing alignment, then by address. -/
def layoutLe (x y : PhysicalLayoutObject A) : Bool :=
  y.alignment < x.alignment ∨ (x.alignment = y.alignment ∧ x.address ≤ y.address)

def sortLayoutObjects (objects : List (PhysicalLayoutObject A)) :
    List (PhysicalLayoutObject A) :=
  objects.insertionSort fun x y => layoutLe x y

/-- The placement loop of a region whose objects take `extent` bytes. -/
def placeObjects (extent : PhysicalLayoutObject A → Nat) (start : Nat)
    (objects : List (PhysicalLayoutObject A)) : (A → Option Nat) × Nat :=
  placeAll (·.address) (fun object cursor => alignUp cursor object.alignment) extent start
    (sortLayoutObjects objects)

def recordField {B : Type} (field : PhysicalLayoutObject A → B) (entries : A → Option B)
    (object : PhysicalLayoutObject A) : A → Option B :=
  Function.update entries object.address (some (field object))

/-- A field of the objects by address, as the placement loop records it. -/
def fieldMap {B : Type} (field : PhysicalLayoutObject A → B)
    (objects : List (PhysicalLayoutObject A)) : A → Option B :=
  objects.foldl (recordField field) fun _ => none

/-- A value plane, and a mask plane in four-state mode. -/
def planeExtent (fourState : Bool) (size : Nat) : Nat :=
  if fourState then size + size else size

/-- The last plane of a sparse object ends with a whole chunk. -/
def sparseExtent (fourState : Bool) (size : Nat) : Nat :=
  let planeCount := if fourState then 2 else 1
  (planeCount - 1) * size + alignUp size 8

/-! ## Sparse metadata -/

def sparseChunkCount (unpackedArrays : A → Option UnpackedArrayLayout) (widths : A → Option Nat)
    (address : A) : Option Nat :=
  match unpackedArrays address with
  | some layout => some (divCeil layout.planeSize 8)
  | none => (widths address).map fun width => divCeil width 64

/-- The dirty words and the summary words of one sparse object. -/
def placeMetadata (unpackedArrays : A → Option UnpackedArrayLayout) (widths : A → Option Nat)
    (state : (A → Option SparseWorkingLayout) × Nat) (item : A × Nat) :
    Option ((A → Option SparseWorkingLayout) × Nat) := do
  let (address, activeIndex) := item
  let chunkCount ← sparseChunkCount unpackedArrays widths address
  let dirtyWordCount := divCeil chunkCount 64
  let summaryWordCount := divCeil dirtyWordCount 64
  let dirtyWordsOffset := state.2
  let summaryWordsOffset := dirtyWordsOffset + dirtyWordCount * 8
  let layout : SparseWorkingLayout :=
    { activeIndex, chunkCount, dirtyWordsOffset, dirtyWordCount, summaryWordsOffset,
      summaryWordCount }
  return (Function.update state.1 address (some layout), summaryWordsOffset + summaryWordCount * 8)

/-! ## Aliases -/

def aliasFits (widths : A → Option Nat) (aliased canonical : A) : Bool :=
  match widths aliased, widths canonical with
  | some aliasWidth, some canonicalWidth => aliasWidth ≤ canonicalWidth
  | _, _ => false

def fourstateOk (fourState : Bool) (is4states : A → Option Bool) (aliased canonical : A) : Bool :=
  !fourState || (is4states aliased = some false && is4states canonical = some false)

/-- Give the alias the home of its canonical object. -/
def applyAlias (fourState : Bool) (widths : A → Option Nat) (is4states : A → Option Bool)
    (ffReferencedAddresses : List A) (offsets : A → Option Nat) (pair : A × A) : A → Option Nat :=
  let (aliased, canonical) := pair
  if fourstateOk fourState is4states aliased canonical && aliasFits widths aliased canonical &&
      !(ffReferencedAddresses.contains aliased) then
    match offsets canonical with
    | some canonicalOffset => Function.update offsets aliased (some canonicalOffset)
    | none => offsets
  else offsets

def aliasLe (x y : A × A) : Bool := x.1 < y.1 ∨ (x.1 = y.1 ∧ x.2 ≤ y.2)

/-! ## The whole layout -/

def stableObjects (input : LayoutInput A) : List (PhysicalLayoutObject A) :=
  input.stateObjects.map fun object =>
    physicalObject input.unpackedArrays object.address object.width object.is4state

/-- The working or sparse object of a state object. -/
def resolveObject (unpackedArrays : A → Option UnpackedArrayLayout) (widths : A → Option Nat)
    (is4states : A → Option Bool) (address : A) : Option (PhysicalLayoutObject A) := do
  let width ← widths address
  let is4state ← is4states address
  return physicalObject unpackedArrays address width is4state

/-- `MemoryLayout::build`; `none` when an address is not a state object. -/
def build (input : LayoutInput A) (fourState : Bool) (mode : MemoryLayoutMode) :
    Option (MemoryLayout A) := do
  let arrays := input.unpackedArrays
  let (offsets, totalSize) := placeObjects (fun object => planeExtent fourState object.size)
    stateHeaderSize (stableObjects input)
  let sorted := sortLayoutObjects (stableObjects input)
  let widths := fieldMap (·.width) sorted
  let is4states := fieldMap (·.is4state) sorted
  let workingObjects ← input.workingAddresses.mapM (resolveObject arrays widths is4states)
  let (workingOffsets, workingSize) :=
    placeObjects (fun object => planeExtent fourState object.size) 0 workingObjects
  let sparseObjects ← input.sparseAddresses.mapM (resolveObject arrays widths is4states)
  let (sparseOffsets, sparseSize) :=
    placeObjects (fun object => alignUp (sparseExtent fourState object.size) 8) 0 sparseObjects
  let workingBaseOffset := alignUp totalSize 8
  let sparseBaseOffset := alignUp (workingBaseOffset + workingSize) 8
  let sparseOrder := input.sparseAddresses.insertionSort (· ≤ ·)
  let (sparseLayouts, sparseMetadataOffset) ← sparseOrder.zipIdx.foldlM
    (placeMetadata arrays widths) (fun _ => none, alignUp (sparseBaseOffset + sparseSize) 8)
  let sparseActiveCapacity := sparseOrder.length
  let sparseActiveBitsOffset := alignUp sparseMetadataOffset 8
  let sparseMetadataOffset := sparseActiveBitsOffset + divCeil sparseActiveCapacity 64 * 8
  let triggeredBitsOffset := alignUp sparseMetadataOffset 8
  let triggeredBitsTotalSize := divCeil input.numEvents 8
  let scratchBaseOffset := alignUp (triggeredBitsOffset + triggeredBitsTotalSize) 8
  let addressAliases := input.requirements.stateAliases.insertionSort fun x y => aliasLe x y
  return {
    fourState, mode
    offsets := addressAliases.foldl
      (applyAlias fourState widths is4states input.ffReferencedAddresses) offsets
    widths, is4states
    unpackedArrays := arrays
    totalSize, workingOffsets, workingBaseOffset, sparseOffsets, sparseBaseOffset
    sparseLayouts, sparseActiveBitsOffset, sparseActiveCapacity
    mergedTotalSize := scratchBaseOffset
    triggeredBitsOffset, triggeredBitsTotalSize, scratchBaseOffset
    scratchSize := 0
    events := buildEventLayout input.runtimeEventSites }

/-! ## Reading a layout -/

def MemoryLayout.planeSize (layout : MemoryLayout A) (address : A) : Nat :=
  objectSize layout.unpackedArrays address ((layout.widths address).getD 0)

/-- The byte of a plane and the bit in it. -/
def MemoryLayout.mapStaticBitOffset (layout : MemoryLayout A) (address : A) (bitOffset : Nat) :
    Nat × Nat :=
  match layout.unpackedArrays address with
  | none => (bitOffset / 8, bitOffset % 8)
  | some array =>
    let element := bitOffset / array.elementWidth
    let intraElement := bitOffset % array.elementWidth
    (element * array.elementStride + intraElement / 8, intraElement % 8)

end Build
end Celox.Layout

/-! ## The regions of a layout lie apart

Each placement loop keeps its objects apart, and each region starts behind the one before it. -/
namespace Celox.Layout
open Celox.Memory

/-! ## Alignment -/

theorem le_alignUp {offset alignment : Nat} (h : 0 < alignment) :
    offset ≤ alignUp offset alignment := by
  have hmask := @Nat.and_le_right (offset + alignment - 1) (alignment - 1)
  rw [alignUp, if_neg (by omega)]
  omega

theorem le_alignUp_eight (offset : Nat) : offset ≤ alignUp offset 8 := le_alignUp (by decide)

theorem getAlignment_pos (width : Nat) : 0 < getAlignment width := by
  unfold getAlignment
  dsimp only
  split
  · exact Nat.one_pos
  · split
    · exact Nat.pos_of_isPowerOfTwo (Nat.isPowerOfTwo_nextPowerOfTwo _)
    · omega

theorem le_getByteSize_mul (width : Nat) : width ≤ getByteSize width * 8 := by
  unfold getByteSize divCeil
  omega

theorem getByteSize_mono {width width' : Nat} (h : width ≤ width') :
    getByteSize width ≤ getByteSize width' := by
  unfold getByteSize divCeil
  omega

section Regions
variable {A : Type} [LinearOrder A]

/-! ## Declared arrays -/

/-- The arrays a layout is built with: some of the declared ones, with elements of some width. -/
structure ArraysDeclared (input : LayoutInput A) (arrayDims : A → List Nat) : Prop where
  declared : ∀ address array, input.unpackedArrays address = some array →
    declaredStridedArrayLayouts input.stateObjects arrayDims input.requirements address = some array
  width_pos : ∀ address array, input.unpackedArrays address = some array → 0 < array.elementWidth

theorem declaredStridedArrayLayout_eq {width : Nat} {arrayDims : List Nat}
    {array : UnpackedArrayLayout} (h : declaredStridedArrayLayout width arrayDims = some array) :
    width = array.elementWidth * array.elementCount ∧
      array.elementStride = getByteSize array.elementWidth ∧
      array.planeSize = array.elementStride * array.elementCount := by
  unfold declaredStridedArrayLayout at h
  dsimp only at h
  split at h
  · cases h
  · rename_i hdims
    cases h
    refine ⟨?_, rfl, rfl⟩
    exact (Nat.div_mul_cancel (Nat.dvd_of_mod_eq_zero (by omega))).symm

/-- The object an array belongs to. -/
theorem ArraysDeclared.object {input : LayoutInput A} {arrayDims : A → List Nat}
    (h : ArraysDeclared input arrayDims) {address : A} {array : UnpackedArrayLayout}
    (ha : input.unpackedArrays address = some array) :
    ∃ object ∈ input.stateObjects, object.address = address ∧
      declaredStridedArrayLayout object.width (arrayDims address) = some array := by
  have hd := h.declared address array ha
  unfold declaredStridedArrayLayouts at hd
  split at hd
  · cases hd
  · obtain ⟨object, hfind, hlayout⟩ := Option.bind_eq_some_iff.mp hd
    refine ⟨object, List.mem_of_find?_eq_some hfind, ?_, hlayout⟩
    simpa using List.find?_some hfind

/-- The ends of alias pairs are not strided. -/
theorem ArraysDeclared.alias_packed {input : LayoutInput A} {arrayDims : A → List Nat}
    (h : ArraysDeclared input arrayDims) {aliased canonical : A}
    (hpair : (aliased, canonical) ∈ input.requirements.stateAliases) :
    input.unpackedArrays aliased = none ∧ input.unpackedArrays canonical = none := by
  constructor
  all_goals
    rw [Option.eq_none_iff_forall_ne_some]
    intro array ha
    have hd := h.declared _ array ha
    rw [declaredStridedArrayLayouts, if_pos] at hd
    · cases hd
    · exact List.any_eq_true.mpr ⟨_, hpair, by simp⟩

theorem ArraysDeclared.alignment_pos {input : LayoutInput A} {arrayDims : A → List Nat}
    (h : ArraysDeclared input arrayDims) (address : A) (width : Nat) :
    0 < objectAlignment input.unpackedArrays address width := by
  unfold objectAlignment
  split
  · rename_i array harray
    obtain ⟨object, -, -, hlayout⟩ := h.object harray
    have hpos := h.width_pos address array harray
    have hstride := (declaredStridedArrayLayout_eq hlayout).2.1
    have := le_getByteSize_mul array.elementWidth
    omega
  · exact getAlignment_pos width

/-! ## Placement loops -/

theorem mem_sortLayoutObjects {objects : List (PhysicalLayoutObject A)}
    {object : PhysicalLayoutObject A} :
    object ∈ sortLayoutObjects objects ↔ object ∈ objects :=
  (List.perm_insertionSort _ objects).mem_iff

theorem placeObjects_placed {extent : PhysicalLayoutObject A → Nat} {size : A → Nat} {start : Nat}
    {objects : List (PhysicalLayoutObject A)} (halign : ∀ object ∈ objects, 0 < object.alignment)
    (hsize : ∀ object ∈ objects, extent object = size object.address) :
    Placed size start (placeObjects extent start objects) :=
  placeAll_placed (fun object hmem _ => le_alignUp (halign object (mem_sortLayoutObjects.mp hmem)))
    fun object hmem => hsize object (mem_sortLayoutObjects.mp hmem)

theorem placeObjects_isSome {extent : PhysicalLayoutObject A → Nat} {start : Nat}
    {objects : List (PhysicalLayoutObject A)} {address : A} :
    ((placeObjects extent start objects).1 address).isSome ↔ address ∈ objects.map (·.address) := by
  rw [placeObjects, placeAll_isSome]
  simp [mem_sortLayoutObjects]

theorem foldl_fieldMap_of_notMem {B : Type} {field : PhysicalLayoutObject A → B}
    {objects : List (PhysicalLayoutObject A)} {entries : A → Option B} {address : A}
    (h : address ∉ objects.map (·.address)) :
    objects.foldl (recordField field) entries address = entries address := by
  induction objects generalizing entries with
  | nil => rfl
  | cons object objects ih =>
    simp only [List.map_cons, List.mem_cons, not_or] at h
    rw [List.foldl_cons, ih h.2, recordField, Function.update_of_ne h.1]

theorem fieldMap_of_notMem {B : Type} {field : PhysicalLayoutObject A → B}
    {objects : List (PhysicalLayoutObject A)} {address : A}
    (h : address ∉ objects.map (·.address)) : fieldMap field objects address = none :=
  foldl_fieldMap_of_notMem h

theorem fieldMap_of_mem {B : Type} {field : PhysicalLayoutObject A → B}
    {objects : List (PhysicalLayoutObject A)} (hnodup : (objects.map (·.address)).Nodup)
    {object : PhysicalLayoutObject A} (h : object ∈ objects) :
    fieldMap field objects object.address = some (field object) := by
  unfold fieldMap
  generalize (fun _ => none : A → Option B) = entries
  induction objects generalizing entries with
  | nil => cases h
  | cons head objects ih =>
    rw [List.map_cons, List.nodup_cons] at hnodup
    rw [List.foldl_cons]
    rcases List.mem_cons.mp h with rfl | h
    · rw [foldl_fieldMap_of_notMem hnodup.1, recordField, Function.update_self]
    · exact ih hnodup.2 h _

/-! ## What a build is given -/

/-- Distinct state objects, of which the working and the sparse objects are some. -/
structure InputOk (input : LayoutInput A) : Prop where
  distinct : (input.stateObjects.map (·.address)).Nodup
  working : ∀ address ∈ input.workingAddresses, address ∈ input.stateObjects.map (·.address)
  sparse : ∀ address ∈ input.sparseAddresses, address ∈ input.stateObjects.map (·.address)

def widthsOf (input : LayoutInput A) : A → Option Nat :=
  fieldMap (·.width) (sortLayoutObjects (stableObjects input))

def is4statesOf (input : LayoutInput A) : A → Option Bool :=
  fieldMap (·.is4state) (sortLayoutObjects (stableObjects input))

/-- The bytes of one plane of an object. -/
def sizeOf (input : LayoutInput A) (address : A) : Nat :=
  objectSize input.unpackedArrays address ((widthsOf input address).getD 0)

variable {input : LayoutInput A}

theorem sorted_addresses_perm :
    ((sortLayoutObjects (stableObjects input)).map (·.address)).Perm
      (input.stateObjects.map (·.address)) := by
  have hperm := (List.perm_insertionSort (fun x y : PhysicalLayoutObject A => layoutLe x y)
    (stableObjects input)).map (·.address)
  simpa [stableObjects, physicalObject, Function.comp_def, sortLayoutObjects] using hperm

theorem InputOk.sorted_nodup (h : InputOk input) :
    ((sortLayoutObjects (stableObjects input)).map (·.address)).Nodup :=
  sorted_addresses_perm.nodup_iff.mpr h.distinct

theorem InputOk.fields (h : InputOk input) {object : StateObjectLayout A}
    (hmem : object ∈ input.stateObjects) :
    widthsOf input object.address = some object.width ∧
      is4statesOf input object.address = some object.is4state := by
  have hsorted : physicalObject input.unpackedArrays object.address object.width object.is4state ∈
      sortLayoutObjects (stableObjects input) :=
    mem_sortLayoutObjects.mpr (List.mem_map.mpr ⟨object, hmem, rfl⟩)
  exact ⟨fieldMap_of_mem h.sorted_nodup hsorted, fieldMap_of_mem h.sorted_nodup hsorted⟩

theorem widthsOf_of_notMem {address : A} (h : address ∉ input.stateObjects.map (·.address)) :
    widthsOf input address = none :=
  fieldMap_of_notMem fun hmem => h (sorted_addresses_perm.mem_iff.mp hmem)

/-- The object of an address among the working or the sparse ones. -/
def regionObject (input : LayoutInput A) (address : A) : PhysicalLayoutObject A :=
  physicalObject input.unpackedArrays address ((widthsOf input address).getD 0)
    ((is4statesOf input address).getD false)

theorem InputOk.resolve (h : InputOk input) {address : A}
    (hmem : address ∈ input.stateObjects.map (·.address)) :
    resolveObject input.unpackedArrays (widthsOf input) (is4statesOf input) address =
      some (regionObject input address) := by
  obtain ⟨object, hobject, rfl⟩ := List.mem_map.mp hmem
  obtain ⟨hw, hs⟩ := h.fields hobject
  simp [resolveObject, regionObject, hw, hs]

theorem mapM_some {α β : Type} {f : α → Option β} {g : α → β} {as : List α}
    (h : ∀ a ∈ as, f a = some (g a)) : as.mapM f = some (as.map g) := by
  induction as with
  | nil => rfl
  | cons a as ih =>
    rw [List.mapM_cons, h a (List.mem_cons_self ..),
      ih fun b hb => h b (List.mem_cons_of_mem _ hb)]
    rfl

/-! ## Sparse metadata -/

def chunkCountOf (input : LayoutInput A) (address : A) : Nat :=
  (sparseChunkCount input.unpackedArrays (widthsOf input) address).getD 0

def dirtyWordsOf (input : LayoutInput A) (address : A) : Nat :=
  divCeil (chunkCountOf input address) 64

def summaryWordsOf (input : LayoutInput A) (address : A) : Nat :=
  divCeil (dirtyWordsOf input address) 64

def metadataSize (input : LayoutInput A) (address : A) : Nat :=
  dirtyWordsOf input address * 8 + summaryWordsOf input address * 8

/-- The metadata of an object is its dirty words and then its summary words. -/
structure MetadataShape (input : LayoutInput A) (address : A) (layout : SparseWorkingLayout) :
    Prop where
  dirty : layout.dirtyWordCount = dirtyWordsOf input address
  summary : layout.summaryWordCount = summaryWordsOf input address
  behind : layout.summaryWordsOffset = layout.dirtyWordsOffset + layout.dirtyWordCount * 8

theorem InputOk.chunkCount (h : InputOk input) {address : A}
    (hmem : address ∈ input.stateObjects.map (·.address)) :
    sparseChunkCount input.unpackedArrays (widthsOf input) address =
      some (chunkCountOf input address) := by
  obtain ⟨object, hobject, rfl⟩ := List.mem_map.mp hmem
  unfold chunkCountOf sparseChunkCount
  rw [(h.fields hobject).1]
  split <;> rfl

theorem InputOk.placeMetadata (h : InputOk input) {address : A}
    (hmem : address ∈ input.stateObjects.map (·.address)) (index : Nat)
    (layouts : A → Option SparseWorkingLayout) (cursor : Nat) :
    ∃ layout : SparseWorkingLayout, MetadataShape input address layout ∧
      layout.dirtyWordsOffset = cursor ∧
      placeMetadata input.unpackedArrays (widthsOf input) (layouts, cursor) (address, index) =
        some (Function.update layouts address (some layout),
          cursor + metadataSize input address) := by
  refine ⟨⟨index, chunkCountOf input address, cursor, dirtyWordsOf input address,
    cursor + dirtyWordsOf input address * 8, summaryWordsOf input address⟩, ⟨rfl, rfl, rfl⟩, rfl, ?_⟩
  simp only [Layout.placeMetadata, h.chunkCount hmem, bind, Option.bind, pure]
  simp only [metadataSize, dirtyWordsOf, summaryWordsOf, Nat.add_assoc]

/-- The metadata loop is a placement of the dirty words. -/
theorem placeMetadata_foldlM (h : InputOk input) {items : List (A × Nat)}
    (hmem : ∀ item ∈ items, item.1 ∈ input.stateObjects.map (·.address))
    (layouts : A → Option SparseWorkingLayout) (cursor : Nat)
    (hshape : ∀ a layout, layouts a = some layout → MetadataShape input a layout) :
    ∃ layouts' cursor', items.foldlM (placeMetadata input.unpackedArrays (widthsOf input))
        (layouts, cursor) = some (layouts', cursor') ∧
      (∀ a layout, layouts' a = some layout → MetadataShape input a layout) ∧
      ((fun a => (layouts' a).map (·.dirtyWordsOffset)), cursor') =
        items.foldl (placeOne Prod.fst (fun _ cursor => cursor) fun item => metadataSize input item.1)
          ((fun a => (layouts a).map (·.dirtyWordsOffset)), cursor) := by
  induction items generalizing layouts cursor with
  | nil => exact ⟨layouts, cursor, rfl, hshape, rfl⟩
  | cons item items ih =>
    obtain ⟨address, index⟩ := item
    obtain ⟨layout, hlayout, hoffset, hstep⟩ :=
      h.placeMetadata (hmem _ (List.mem_cons_self ..)) index layouts cursor
    rw [List.foldlM_cons, hstep, List.foldl_cons]
    have hshape' : ∀ a l, Function.update layouts address (some layout) a = some l →
        MetadataShape input a l := by
      intro a l hl
      rw [Function.update_apply] at hl
      split at hl
      · rename_i ha
        cases hl
        exact ha ▸ hlayout
      · exact hshape a l hl
    obtain ⟨layouts', cursor', hfold, hshapes, hplace⟩ :=
      ih (fun i hi => hmem i (List.mem_cons_of_mem _ hi)) _ _ hshape'
    refine ⟨layouts', cursor', hfold, hshapes, hplace.trans ?_⟩
    congr 1
    simp only [placeOne]
    congr 1
    funext a
    rw [Function.update_apply, Function.update_apply]
    split
    · simp [hoffset]
    · rfl

/-! ## The regions of a build -/

/-- The sizes a build works with between its regions. -/
structure Cursors where
  workingSize : Nat
  sparseSize : Nat
  metadataStart : Nat
  metadataEnd : Nat

/-- What each region holds and that it starts behind the one before. `home` is the stable offset
before the aliases are applied. -/
structure Parts (input : LayoutInput A) (fourState : Bool) (layout : MemoryLayout A)
    (home : A → Option Nat) (cursors : Cursors) : Prop where
  state : layout.fourState = fourState
  widths : layout.widths = widthsOf input
  arrays : layout.unpackedArrays = input.unpackedArrays
  stable : Placed (fun a => planeExtent fourState (sizeOf input a)) stateHeaderSize
    (home, layout.totalSize)
  working : Placed (fun a => planeExtent fourState (sizeOf input a)) 0
    (layout.workingOffsets, cursors.workingSize)
  sparse : Placed (fun a => alignUp (sparseExtent fourState (sizeOf input a)) 8) 0
    (layout.sparseOffsets, cursors.sparseSize)
  metadata : Placed (metadataSize input) cursors.metadataStart
    ((fun a => (layout.sparseLayouts a).map (·.dirtyWordsOffset)), cursors.metadataEnd)
  shape : ∀ a sparse, layout.sparseLayouts a = some sparse → MetadataShape input a sparse
  home_isSome : ∀ a, (home a).isSome ↔ a ∈ input.stateObjects.map (·.address)
  working_isSome : ∀ a, (layout.workingOffsets a).isSome ↔ a ∈ input.workingAddresses
  sparse_isSome : ∀ a, (layout.sparseOffsets a).isSome ↔ a ∈ input.sparseAddresses
  metadata_isSome : ∀ a, (layout.sparseLayouts a).isSome ↔ a ∈ input.sparseAddresses
  workingBase : layout.totalSize ≤ layout.workingBaseOffset
  sparseBase : layout.workingBaseOffset + cursors.workingSize ≤ layout.sparseBaseOffset
  metadataBase : layout.sparseBaseOffset + cursors.sparseSize ≤ cursors.metadataStart
  activeBits : cursors.metadataEnd ≤ layout.sparseActiveBitsOffset
  triggeredBits : layout.sparseActiveBitsOffset + divCeil layout.sparseActiveCapacity 64 * 8 ≤
    layout.triggeredBitsOffset
  merged : layout.triggeredBitsOffset + layout.triggeredBitsTotalSize ≤ layout.mergedTotalSize
  offsets : layout.offsets = (input.requirements.stateAliases.insertionSort
    fun x y => aliasLe x y).foldl (applyAlias fourState (widthsOf input) (is4statesOf input)
      input.ffReferencedAddresses) home

/-- Every build of such an input succeeds, with its regions one behind the other. -/
theorem build_parts (hin : InputOk input) {arrayDims : A → List Nat}
    (harrays : ArraysDeclared input arrayDims) (fourState : Bool) (mode : MemoryLayoutMode) :
    ∃ layout home cursors, build input fourState mode = some layout ∧
      Parts input fourState layout home cursors := by
  have hworking := mapM_some fun a ha => hin.resolve (hin.working a ha)
  have hsparse := mapM_some fun a ha => hin.resolve (hin.sparse a ha)
  have halign : ∀ (addresses : List A), ∀ object ∈ addresses.map (regionObject input),
      0 < object.alignment := by
    intro addresses object hmem
    obtain ⟨a, -, rfl⟩ := List.mem_map.mp hmem
    exact harrays.alignment_pos _ _
  have hsize : ∀ (addresses : List A) (extent : Nat → Nat),
      ∀ object ∈ addresses.map (regionObject input),
        extent object.size = extent (sizeOf input object.address) := by
    intro addresses extent object hmem
    obtain ⟨a, -, rfl⟩ := List.mem_map.mp hmem
    rfl
  have horder : ∀ item ∈ (input.sparseAddresses.insertionSort (· ≤ ·)).zipIdx,
      item.1 ∈ input.stateObjects.map (·.address) := by
    intro item hmem
    refine hin.sparse _ ((List.mem_insertionSort (r := (· ≤ ·))).mp ?_)
    exact List.fst_mem_of_mem_zipIdx hmem
  let working := placeObjects (fun object => planeExtent fourState object.size) 0
    (input.workingAddresses.map (regionObject input))
  let sparse := placeObjects (fun object => alignUp (sparseExtent fourState object.size) 8) 0
    (input.sparseAddresses.map (regionObject input))
  let stable := placeObjects (fun object => planeExtent fourState object.size) stateHeaderSize
    (stableObjects input)
  let metadataStart := alignUp (alignUp (alignUp stable.2 8 + working.2) 8 + sparse.2) 8
  obtain ⟨layouts, metadataEnd, hmeta, hshape, hplace⟩ := placeMetadata_foldlM hin horder
    (fun _ => none) metadataStart (by simp)
  have hbuild : ∃ layout, build input fourState mode = some layout ∧
      Parts input fourState layout stable.1 ⟨working.2, sparse.2, metadataStart, metadataEnd⟩ := by
    unfold build
    simp only [Option.bind_eq_bind]
    rw [show input.workingAddresses.mapM (resolveObject input.unpackedArrays
      (fieldMap (·.width) (sortLayoutObjects (stableObjects input)))
      (fieldMap (·.is4state) (sortLayoutObjects (stableObjects input)))) = _ from hworking]
    rw [show input.sparseAddresses.mapM (resolveObject input.unpackedArrays
      (fieldMap (·.width) (sortLayoutObjects (stableObjects input)))
      (fieldMap (·.is4state) (sortLayoutObjects (stableObjects input)))) = _ from hsparse]
    simp only [Option.bind_some]
    rw [show (input.sparseAddresses.insertionSort (· ≤ ·)).zipIdx.foldlM
      (placeMetadata input.unpackedArrays (fieldMap (·.width)
        (sortLayoutObjects (stableObjects input)))) _ = _ from hmeta]
    refine ⟨_, rfl, ?_⟩
    have hcover : ∀ (addresses : List A) (a : A),
        a ∈ (addresses.map (regionObject input)).map (·.address) ↔ a ∈ addresses := by
      intro addresses a
      simp [regionObject, physicalObject, Function.comp_def]
    refine ⟨rfl, rfl, rfl, ?_, ?_, ?_, ?_, hshape, ?_, ?_, ?_, ?_, ?_, ?_, ?_, ?_, ?_, ?_, rfl⟩
    · refine placeObjects_placed (fun object hmem => ?_) fun object hmem => ?_
      · obtain ⟨state, -, rfl⟩ := List.mem_map.mp hmem
        exact harrays.alignment_pos _ _
      · obtain ⟨state, hstate, rfl⟩ := List.mem_map.mp hmem
        dsimp only [physicalObject, sizeOf]
        rw [(hin.fields hstate).1]
        rfl
    · exact placeObjects_placed (halign _) (hsize _ _)
    · exact placeObjects_placed (halign _) (hsize _ fun size => alignUp (sparseExtent fourState size) 8)
    · rw [hplace]
      exact placeAll_placed (fun _ _ _ => le_refl _) fun _ _ => rfl
    · intro a
      rw [placeObjects_isSome]
      simp [stableObjects, physicalObject, Function.comp_def]
    · intro a
      exact placeObjects_isSome.trans (hcover _ a)
    · intro a
      exact placeObjects_isSome.trans (hcover _ a)
    · intro a
      have hdirty := congrFun (congrArg Prod.fst hplace) a
      dsimp only at hdirty
      rw [← Option.isSome_map (f := (·.dirtyWordsOffset)), hdirty, foldl_placeOne_isSome,
        List.zipIdx_map_fst, (List.perm_insertionSort (· ≤ ·) _).mem_iff]
      simp
    · exact le_alignUp_eight _
    · exact le_alignUp_eight _
    · exact le_alignUp_eight _
    · exact le_alignUp_eight _
    · exact le_alignUp_eight _
    · exact le_alignUp_eight _
  obtain ⟨layout, hlayout, hparts⟩ := hbuild
  exact ⟨layout, _, _, hlayout, hparts⟩

end Regions
end Celox.Layout
