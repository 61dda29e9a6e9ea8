import Celox.Layout.Build
import Celox.Sir.ExactZero

/-! # Choosing element-strided arrays

An array keeps its elements at byte boundaries when every access of every unit stays within one
element, or moves the whole object. -/
namespace Celox.Layout
open Celox.Sir

def STABLE_REGION : Nat := 0
def WORKING_REGION : Nat := 1
def SPARSE_WORKING_REGION : Nat := 2

/-- An address with the region it is accessed in. -/
structure RegionedAbsoluteAddr (A : Type) where
  region : Nat
  absoluteAddr : A
deriving DecidableEq, Repr

structure SirProgram (A : Type) where
  evalComb : List (ExecutionUnit (RegionedAbsoluteAddr A))
  evalApplyFfs : Table A (List (ExecutionUnit (RegionedAbsoluteAddr A)))
  evalCombApplyFfs : Table A (List (ExecutionUnit (RegionedAbsoluteAddr A)))
  evalOnlyFfs : Table A (List (ExecutionUnit (RegionedAbsoluteAddr A)))
  applyFfs : Table A (List (ExecutionUnit (RegionedAbsoluteAddr A)))

/-- What the layout reads of an optimized program. -/
structure OptimizedSir (A : Type) where
  sir : SirProgram A
  stateObjects : List (StateObjectLayout A)
  arrayDims : A → List Nat
  layoutRequirements : LayoutRequirements A
  testbenchReadRoots : List A

section Collect
variable {A : Type}

def flattenUnits (table : Table A (List (ExecutionUnit (RegionedAbsoluteAddr A)))) :
    List (ExecutionUnit (RegionedAbsoluteAddr A)) :=
  table.entries.flatMap fun entry => entry.2

/-- The units in the order in which they are inspected. -/
def SirProgram.units (sir : SirProgram A) : List (ExecutionUnit (RegionedAbsoluteAddr A)) :=
  sir.evalComb ++ flattenUnits sir.evalApplyFfs ++ flattenUnits sir.evalCombApplyFfs ++
    flattenUnits sir.evalOnlyFfs ++ flattenUnits sir.applyFfs

/-- Division by zero panics. -/
def checkedDiv (a b : Nat) : Option Nat := if b = 0 then none else some (a / b)

def supportsStridedAccess (layout : UnpackedArrayLayout) (offset : SIROffset) (width : Nat)
    (wholeObjectTransfer : Bool) : Option Bool :=
  match offset with
  | .element _ elementWidth bitOffset _ =>
    some (elementWidth = layout.elementWidth ∧
      (checkedAdd bitOffset width).any fun last => last ≤ layout.elementWidth)
  | .static start =>
    let physicallyContiguous := layout.elementStride * 8 = layout.elementWidth
    let whole := start = 0 ∧ width = layout.elementWidth * layout.elementCount
    let singleElement := match checkedAdd start (width - 1) with
      | none => some false
      | some last => do
        let first ← checkedDiv start layout.elementWidth
        return first = (← checkedDiv last layout.elementWidth)
    singleElement.map fun singleElement =>
      physicallyContiguous || singleElement || (wholeObjectTransfer && whole)
  | .packedElements bitOffset elementWidth =>
    let whole := bitOffset = 0 ∧ width = layout.elementWidth * layout.elementCount
    some (elementWidth = layout.elementWidth ∧
      ((layout.elementStride * 8 = layout.elementWidth ∧ (checkedAdd bitOffset width).any fun last =>
          last ≤ layout.elementWidth * layout.elementCount) ∨
        (wholeObjectTransfer ∧ whole)))
  | .dynamic _ => some false

variable [LinearOrder A]

local instance lawfulAddress : LawfulBEq A := inferInstance

/-- The arrays that may still be strided. -/
abbrev Candidates (A : Type) := A → Option UnpackedArrayLayout

/-- An access that is not supported packs the array. -/
def checkAccess (candidates : Candidates A) (addr : RegionedAbsoluteAddr A) (offset : SIROffset)
    (width : Nat) (wholeObjectTransfer : Bool) : Option (Candidates A) :=
  match candidates addr.absoluteAddr with
  | none => some candidates
  | some layout => (supportsStridedAccess layout offset width wholeObjectTransfer).map fun supported =>
    if supported then candidates else Function.update candidates addr.absoluteAddr none

/-- Regions whose whole objects a store of zero clears. -/
def isStateRegion (addr : RegionedAbsoluteAddr A) : Bool :=
  addr.region = STABLE_REGION || addr.region = SPARSE_WORKING_REGION

def inspect (exactZeros : List RegisterId) (candidates : Candidates A) :
    SIRInstruction (RegionedAbsoluteAddr A) → Option (Candidates A)
  | .load _ addr offset width => checkAccess candidates addr offset width false
  | .store addr offset width source triggers captureSites =>
    let stateBulkZero := isStateRegion addr && triggers.isEmpty && captureSites.isEmpty &&
      exactZeros.contains source
    checkAccess candidates addr offset width stateBulkZero
  | .commit src dst offset width _ => do
    let candidates ← checkAccess candidates src offset width true
    checkAccess candidates dst offset width true
  | _ => some candidates

/-- Sources of stores that may clear a whole object. -/
def zeroRoots (eu : ExecutionUnit (RegionedAbsoluteAddr A)) : List RegisterId :=
  eu.instructions.filterMap fun
    | .store addr offset width source _ _ =>
      if isStateRegion addr && offset.constantBitOffset = some 0 && 64 < width then some source
      else none
    | _ => none

def inspectUnit (candidates : Candidates A) (eu : ExecutionUnit (RegionedAbsoluteAddr A)) :
    Option (Candidates A) := do
  let exactZeros ← collectExactZeroRegisters eu ((zeroRoots eu).insertionSort (· ≤ ·)).dedup
  eu.instructions.foldlM (inspect exactZeros) candidates

/-- Arrays that a testbench reads stay packed. -/
def stridedCandidates (program : OptimizedSir A) : Candidates A := fun address =>
  if address ∈ program.testbenchReadRoots then none
  else declaredStridedArrayLayouts program.stateObjects program.arrayDims
    program.layoutRequirements address

/-- `collect_strided_array_layouts`; `none` where the element width of an array is zero and an
access divides by it. -/
def collectStridedArrayLayouts (program : OptimizedSir A) : Option (Candidates A) :=
  program.sir.units.foldlM inspectUnit (stridedCandidates program)

/-! ## What the arrays that are kept support -/

/-- Arrays are only taken out. -/
def Shrinks (candidates' candidates : Candidates A) : Prop :=
  ∀ address layout, candidates' address = some layout → candidates address = some layout

/-- Where the array is kept, the access is supported. -/
def AccessKept (candidates : Candidates A) (addr : RegionedAbsoluteAddr A) (offset : SIROffset)
    (width : Nat) (wholeObjectTransfer : Bool) : Prop :=
  ∀ layout, candidates addr.absoluteAddr = some layout →
    supportsStridedAccess layout offset width wholeObjectTransfer = some true

omit [LinearOrder A] in
/-- A step that takes arrays out until what it looks at holds of the others. -/
theorem foldlM_keeps {X : Type} {step : Candidates A → X → Option (Candidates A)}
    {P : Candidates A → X → Prop}
    (hstep : ∀ c x c', step c x = some c' → Shrinks c' c ∧ P c' x)
    (hanti : ∀ c c' x, Shrinks c' c → P c x → P c' x) {l : List X} {c c' : Candidates A}
    (h : l.foldlM step c = some c') : Shrinks c' c ∧ ∀ x ∈ l, P c' x := by
  induction l generalizing c with
  | nil =>
    cases h
    exact ⟨fun _ _ h => h, by simp⟩
  | cons x l ih =>
    rw [List.foldlM_cons, Option.bind_eq_bind, Option.bind_eq_some_iff] at h
    obtain ⟨mid, hmid, hrest⟩ := h
    obtain ⟨hshrink, hx⟩ := hstep c x mid hmid
    obtain ⟨hshrink', hl⟩ := ih hrest
    refine ⟨fun a layout ha => hshrink a layout (hshrink' a layout ha), ?_⟩
    simp only [List.forall_mem_cons]
    exact ⟨hanti _ _ _ hshrink' hx, hl⟩

variable {program : OptimizedSir A} {candidates candidates' : Candidates A}

omit [LinearOrder A] in
theorem AccessKept.anti {addr : RegionedAbsoluteAddr A} {offset : SIROffset} {width : Nat}
    {whole : Bool} (hshrink : Shrinks candidates' candidates)
    (h : AccessKept candidates addr offset width whole) :
    AccessKept candidates' addr offset width whole :=
  fun layout hl => h layout (hshrink _ _ hl)

theorem checkAccess_spec {addr : RegionedAbsoluteAddr A} {offset : SIROffset} {width : Nat}
    {whole : Bool} (h : checkAccess candidates addr offset width whole = some candidates') :
    Shrinks candidates' candidates ∧ AccessKept candidates' addr offset width whole := by
  unfold checkAccess at h
  cases hlayout : candidates addr.absoluteAddr with
  | none =>
    simp only [hlayout, Option.some.injEq] at h
    subst h
    exact ⟨fun _ _ h => h, fun layout hl => by simp [hlayout] at hl⟩
  | some layout =>
    simp only [hlayout, Option.map_eq_some_iff] at h
    obtain ⟨supported, hsup, rfl⟩ := h
    cases supported with
    | true =>
      refine ⟨fun _ _ h => h, fun layout' hl => ?_⟩
      rw [if_pos rfl, hlayout] at hl
      cases hl
      exact hsup
    | false =>
      simp only [Bool.false_eq_true, if_false]
      refine ⟨fun a layout' ha => ?_, fun layout' hl => ?_⟩
      · rw [Function.update_apply] at ha
        split at ha
        · cases ha
        · exact ha
      · rw [Function.update_self] at hl
        cases hl

/-- The accesses of an instruction are supported by the arrays that are kept. -/
def InstructionKept (exactZeros : List RegisterId) (candidates : Candidates A) :
    SIRInstruction (RegionedAbsoluteAddr A) → Prop
  | .load _ addr offset width => AccessKept candidates addr offset width false
  | .store addr offset width source _ _ => ∃ whole, AccessKept candidates addr offset width whole ∧
    (whole = true → source ∈ exactZeros)
  | .commit src dst offset width _ =>
    AccessKept candidates src offset width true ∧ AccessKept candidates dst offset width true
  | _ => True

omit [LinearOrder A] in
theorem InstructionKept.anti {exactZeros : List RegisterId}
    {inst : SIRInstruction (RegionedAbsoluteAddr A)} (hshrink : Shrinks candidates' candidates)
    (h : InstructionKept exactZeros candidates inst) :
    InstructionKept exactZeros candidates' inst := by
  cases inst with
  | load => exact AccessKept.anti hshrink h
  | store =>
    obtain ⟨whole, hkept, hzero⟩ := h
    exact ⟨whole, hkept.anti hshrink, hzero⟩
  | commit => exact ⟨AccessKept.anti hshrink h.1, AccessKept.anti hshrink h.2⟩
  | _ => trivial

theorem inspect_spec {exactZeros : List RegisterId}
    {inst : SIRInstruction (RegionedAbsoluteAddr A)}
    (h : inspect exactZeros candidates inst = some candidates') :
    Shrinks candidates' candidates ∧ InstructionKept exactZeros candidates' inst := by
  cases inst with
  | load => exact checkAccess_spec h
  | store addr offset width source triggers captureSites =>
    obtain ⟨hshrink, hkept⟩ := checkAccess_spec h
    exact ⟨hshrink, _, hkept, fun hwhole => by simpa using (Bool.and_eq_true_iff.mp hwhole).2⟩
  | commit src dst offset width triggers =>
    simp only [inspect, Option.bind_eq_bind, Option.bind_eq_some_iff] at h
    obtain ⟨mid, hsrc, hdst⟩ := h
    obtain ⟨hshrink, hkept⟩ := checkAccess_spec hsrc
    obtain ⟨hshrink', hkept'⟩ := checkAccess_spec hdst
    exact ⟨fun a layout ha => hshrink a layout (hshrink' a layout ha), hkept.anti hshrink', hkept'⟩
  | _ =>
    cases h
    exact ⟨fun _ _ h => h, trivial⟩

/-- With registers that are zero by their definitions. -/
def UnitKept (candidates : Candidates A) (eu : ExecutionUnit (RegionedAbsoluteAddr A)) : Prop :=
  ∃ exactZeros, (∀ reg ∈ exactZeros, ExactZero eu reg) ∧
    ∀ inst ∈ eu.instructions, InstructionKept exactZeros candidates inst

theorem inspectUnit_spec {eu : ExecutionUnit (RegionedAbsoluteAddr A)}
    (h : inspectUnit candidates eu = some candidates') :
    Shrinks candidates' candidates ∧ UnitKept candidates' eu := by
  unfold inspectUnit at h
  obtain ⟨zeros, hzeros, hexact⟩ :=
    collectExactZeroRegisters_spec ((zeroRoots eu).insertionSort (· ≤ ·)).dedup
  rw [hzeros, Option.bind_eq_bind, Option.bind_some] at h
  obtain ⟨hshrink, hkept⟩ := foldlM_keeps (fun _ _ _ => inspect_spec)
    (fun _ _ _ hs hk => InstructionKept.anti hs hk) h
  exact ⟨hshrink, zeros, hexact, hkept⟩

/-- The arrays that are kept are declared ones, and support every access of every unit. -/
theorem collectStridedArrayLayouts_spec
    (h : collectStridedArrayLayouts program = some candidates) :
    Shrinks candidates (stridedCandidates program) ∧
      ∀ eu ∈ program.sir.units, UnitKept candidates eu :=
  foldlM_keeps (fun _ _ _ => inspectUnit_spec)
    (fun _ _ _ hshrink ⟨zeros, hexact, hkept⟩ =>
      ⟨zeros, hexact, fun inst hinst => (hkept inst hinst).anti hshrink⟩) h

end Collect
end Celox.Layout
