import Celox.Opt.Allocation
import Celox.Sir.Unused
import Celox.Opt.LoadedBits

/-! # Folding of concatenations

A slice that lies within an operand of a concatenation becomes a slice of the operand. Then operands
of a concatenation that are adjoining bits of one register, or of one object, are replaced by one
slice or load in front of it. -/
namespace Celox.Opt
open Celox.Sir Celox.Layout

variable {A : Type} [DecidableEq A]

/-! ## Slices of concatenations -/

/-- The operands of every concatenation. -/
def collectConcats (eu : ExecutionUnit (RegionedAbsoluteAddr A)) :
    RegisterId → Option (List RegisterId) :=
  eu.instructions.foldl (fun concats inst => match inst with
    | .concat dst args => Function.update concats dst (some args)
    | _ => concats) fun _ => none

/-- The operand that a range lies in, with its type and the offset of the range there. The operands
come least significant first. -/
def findArgument (registerMap : Table RegisterId RegisterType) (offset sliceEnd : Nat) :
    Nat → List RegisterId → Option (RegisterId × RegisterType × Nat)
  | _, [] => none
  | argumentStart, argument :: rest =>
    match registerMap.lookup argument with
    | none => none
    | some type =>
      match checkedAdd argumentStart type.width with
      | none => none
      | some argumentEnd =>
        if argumentStart ≤ offset ∧ sliceEnd ≤ argumentEnd then
          some (argument, type, offset - argumentStart)
        else findArgument registerMap offset sliceEnd argumentEnd rest

def foldSlice (registerMap : Table RegisterId RegisterType)
    (concats : RegisterId → Option (List RegisterId))
    (inst : SIRInstruction (RegionedAbsoluteAddr A)) :
    Option (SIRInstruction (RegionedAbsoluteAddr A)) :=
  match inst with
  | .slice dst packed offset width => do
    let args ← concats packed
    let sliceEnd ← checkedAdd offset width
    let (argument, type, innerOffset) ← findArgument registerMap offset sliceEnd 0 args.reverse
    return if innerOffset = 0 ∧ width = type.width ∧ registerMap.lookup dst = some type then
      .unary dst .ident argument
    else .slice dst argument innerOffset width
  | _ => none

/-- Whether a slice of the unit is folded. -/
def foldsSlices (eu : ExecutionUnit (RegionedAbsoluteAddr A)) : Bool :=
  eu.instructions.any fun inst => (foldSlice eu.registerMap (collectConcats eu) inst).isSome

def foldSlicesOfConcat (eu : ExecutionUnit (RegionedAbsoluteAddr A)) :
    ExecutionUnit (RegionedAbsoluteAddr A) :=
  let concats := collectConcats eu
  eu.mapBlocks fun _ block => { block with
    instructions := block.instructions.map fun inst =>
      (foldSlice eu.registerMap concats inst).getD inst }

/-! ## Sources of bits -/

inductive BitSourceBase (A : Type) where
  | register (register : RegisterId)
  | load (addr : RegionedAbsoluteAddr A)
deriving DecidableEq

structure BitSource (A : Type) where
  base : BitSourceBase A
  bitOffset : Nat
  width : Nat

abbrev ExtractDefs (A : Type) := RegisterId → Option (BitSource A)

/-- A slice of a known source is a source further on in its base. -/
def recordExtract (defs : ExtractDefs A) (inst : SIRInstruction (RegionedAbsoluteAddr A)) :
    ExtractDefs A :=
  match inst with
  | .load dst addr (.static off) width =>
    Function.update defs dst (some ⟨.load addr, off, width⟩)
  | .slice dst src off width =>
    match defs src with
    | some info => Function.update defs dst (some ⟨info.base, info.bitOffset + off, width⟩)
    | none => Function.update defs dst (some ⟨.register src, off, width⟩)
  | _ => defs

def collectExtracts (eu : ExecutionUnit (RegionedAbsoluteAddr A)) : ExtractDefs A :=
  eu.instructions.foldl recordExtract fun _ => none

/-! ## Runs of operands -/

/-- Operands, least significant first, with what they take together of their base. -/
structure ArgRun (A : Type) where
  first : RegisterId
  rest : List RegisterId
  source : Option (BitSource A)

/-- Division by zero panics. -/
def crossesElement (start combinedWidth elementWidth : Nat) : Option Bool := do
  let first ← checkedDiv start elementWidth
  let last ← checkedDiv (start + combinedWidth - 1) elementWidth
  return first ≠ last && (start % elementWidth ≠ 0 || combinedWidth % elementWidth ≠ 0)

section Runs
variable (elementWidths : A → Option Nat) (maxLoadWidth : Nat) (defs : ExtractDefs A)

/-- A run of loads may not end within an element that it does not start in. -/
def breaksElement (base : BitSourceBase A) (start combinedWidth : Nat) : Option Bool :=
  match base with
  | .register _ => some false
  | .load addr =>
    match elementWidths addr.absoluteAddr with
    | none => some false
    | some elementWidth => crossesElement start combinedWidth elementWidth

/-- The width of a run, its further operands, and the operands behind it. -/
def extendRun (base : BitSourceBase A) (start : Nat) :
    Nat → List RegisterId → Option (Nat × List RegisterId × List RegisterId)
  | width, [] => some (width, [], [])
  | width, prev :: rest =>
    match defs prev with
    | none => some (width, [], prev :: rest)
    | some info =>
      if info.base = base ∧ info.bitOffset = start + width then do
        if ← breaksElement elementWidths base start (width + info.width) then
          return (width, [], prev :: rest)
        let (total, taken, remaining) ← extendRun base start (width + info.width) rest
        return (total, prev :: taken, remaining)
      else some (width, [], prev :: rest)

/-- All runs of the operands. As many steps are enough as there are operands. -/
def argRuns : Nat → List RegisterId → Option (List (ArgRun A))
  | 0, _ | _, [] => some []
  | fuel + 1, arg :: rest =>
    match defs arg with
    | none => do return ⟨arg, [], none⟩ :: (← argRuns fuel rest)
    | some info => do
      let (width, taken, remaining) ←
        extendRun elementWidths defs info.base info.bitOffset info.width rest
      return ⟨arg, taken, some ⟨info.base, info.bitOffset, width⟩⟩ :: (← argRuns fuel remaining)

def ArgRun.merges (run : ArgRun A) : Bool :=
  run.source.any fun info => run.rest ≠ [] && info.width ≤ maxLoadWidth

/-! ## Replacements -/

def foldedInstruction (newReg : RegisterId) (info : BitSource A) :
    Option (SIRInstruction (RegionedAbsoluteAddr A)) :=
  match info.base with
  | .register src => some (.slice newReg src info.bitOffset info.width)
  | .load addr =>
    match elementWidths addr.absoluteAddr with
    | none => some (.load newReg addr (.static info.bitOffset) info.width)
    | some elementWidth => do
      let first ← checkedDiv info.bitOffset elementWidth
      let last ← checkedDiv (info.bitOffset + info.width - 1) elementWidth
      return .load newReg addr
        (if first ≠ last then .packedElements info.bitOffset elementWidth
          else .static info.bitOffset) info.width

/-- The operand that stands for a run, and what is inserted for it. -/
def foldRun (run : ArgRun A) (allocation : Allocation) :
    Option (RegisterId × List (SIRInstruction (RegionedAbsoluteAddr A)) × Allocation) :=
  match run.source with
  | some info =>
    if run.rest ≠ [] ∧ info.width ≤ maxLoadWidth then do
      let (newReg, allocation) := allocation.push (.bit info.width false)
      return (newReg, [← foldedInstruction elementWidths newReg info], allocation)
    else some (run.first, [], allocation)
  | none => some (run.first, [], allocation)

def foldRuns : List (ArgRun A) → Allocation →
    Option (List RegisterId × List (SIRInstruction (RegionedAbsoluteAddr A)) × Allocation)
  | [], allocation => some ([], [], allocation)
  | run :: runs, allocation => do
    let (newArg, inserted, allocation) ← foldRun elementWidths maxLoadWidth run allocation
    let (newArgs, rest, allocation) ← foldRuns runs allocation
    return (newArg :: newArgs, inserted ++ rest, allocation)

/-- What stands for an instruction. -/
def foldConcat (inst : SIRInstruction (RegionedAbsoluteAddr A)) (allocation : Allocation) :
    Option (List (SIRInstruction (RegionedAbsoluteAddr A)) × Allocation) :=
  match inst with
  | .concat dst args =>
    if args.length < 3 then some ([inst], allocation)
    else do
      let runs ← argRuns elementWidths defs args.length args.reverse
      let (newArgs, inserted, after) ← foldRuns elementWidths maxLoadWidth runs allocation
      return if runs.any (ArgRun.merges maxLoadWidth) then
        (inserted ++ [.concat dst newArgs.reverse], after)
      else ([inst], allocation)
  | _ => some ([inst], allocation)

def foldConcats : List (SIRInstruction (RegionedAbsoluteAddr A)) → Allocation →
    Option (List (SIRInstruction (RegionedAbsoluteAddr A)) × Allocation)
  | [], allocation => some ([], allocation)
  | inst :: rest, allocation => do
    let (first, allocation) ← foldConcat elementWidths maxLoadWidth defs inst allocation
    let (rest, allocation) ← foldConcats rest allocation
    return (first ++ rest, allocation)

/-- `none` as the state stands for a panic. -/
def foldBlock (block : BasicBlock (RegionedAbsoluteAddr A)) (state : Option Allocation) :
    BasicBlock (RegionedAbsoluteAddr A) × Option Allocation :=
  match state.bind (foldConcats elementWidths maxLoadWidth defs block.instructions) with
  | some (instructions, allocation) => ({ block with instructions }, some allocation)
  | none => (block, none)

/-- Whether operands of an instruction are merged. -/
def foldsConcat (inst : SIRInstruction (RegionedAbsoluteAddr A)) : Bool :=
  match inst with
  | .concat _ args => 3 ≤ args.length &&
    (argRuns elementWidths defs args.length args.reverse).any fun runs =>
      runs.any (ArgRun.merges maxLoadWidth)
  | _ => false

end Runs

section Pass
variable (elementWidths : A → Option Nat) (maxLoadWidth : Nat)
  (eu : ExecutionUnit (RegionedAbsoluteAddr A))

/-- The unit with all concatenations folded, before unused definitions are left out. -/
def foldedUnit : Option (ExecutionUnit (RegionedAbsoluteAddr A)) :=
  let folded := foldSlicesOfConcat eu
  match rewriteBlocks (foldBlock elementWidths maxLoadWidth (collectExtracts folded)) folded.blocks
    (some (startAllocation eu)) with
  | (blocks, some allocation) => some { eu with blocks, registerMap := allocation.registerMap }
  | (_, none) => none

/-- `none` stands for a panic. -/
def concatFolding : Option (ExecutionUnit (RegionedAbsoluteAddr A)) := do
  let folded ← foldedUnit elementWidths maxLoadWidth eu
  let sliced := foldSlicesOfConcat eu
  if foldsSlices eu || sliced.instructions.any
      (foldsConcat elementWidths maxLoadWidth (collectExtracts sliced)) then
    return folded.retainUsed
  return eu

end Pass
end Celox.Opt

/-! ## Slices of concatenations keep their values

The operands of a concatenation hold its bits wherever the concatenation is available, so a slice
that lies within one of them can be taken from the operand. -/
namespace Celox.Opt
open Celox.Sir Celox.Layout

/-- An instruction stands somewhere in a block. -/
theorem site_of_mem {A : Type} {eu : ExecutionUnit A} {inst : SIRInstruction A}
    (h : inst ∈ eu.instructions) : ∃ home homeBlock, eu.blocks.lookup home = some homeBlock ∧
      ∃ k : Nat, homeBlock.instructions[k]? = some inst := by
  obtain ⟨⟨home, homeBlock⟩, hentry, hinst⟩ := List.mem_flatMap.mp h
  exact ⟨home, homeBlock, AList.mem_lookup_iff.mpr hentry, List.mem_iff_getElem?.mp hinst⟩

/-! ## Operands of a concatenation -/

section Operands
variable {A : Type} {eu : ExecutionUnit A} {regs : Registers} {args : List RegisterId}

/-- Operands with values spell the bits they have. -/
theorem spells_of_operands (hfits : Fits eu regs) {values : List (RegisterType × SIRValue)}
    (h : args.mapM (eu.operand regs) = some values) (cursor : Nat) :
    ∃ bits stop, Spells eu regs bits cursor args stop := by
  induction args generalizing values cursor with
  | nil => exact ⟨fun _ => (false, false), cursor, .nil⟩
  | cons arg args ih =>
    simp only [List.mapM_cons, ExecutionUnit.operand, Option.bind_eq_bind, Option.bind_eq_some_iff,
      Option.pure_def, Option.some.injEq] at h
    obtain ⟨_, ⟨type, htype, value, hvalue, -⟩, rest, hrest, -⟩ := h
    obtain ⟨bits, stop, hspells⟩ := ih hrest (cursor + type.width)
    refine ⟨fun k => if k < cursor + type.width then value.bit (k - cursor) else bits k, stop,
      .cons htype hvalue (hfits arg type value htype hvalue) (fun k hk => ?_)
        (hspells.congr_bits fun k hk => if_neg (Nat.not_lt.mpr hk))⟩
    rw [if_pos (by omega), Nat.add_sub_cancel_left]

variable {offset sliceEnd start : Nat} {argument : RegisterId} {type : RegisterType} {inner : Nat}

/-- The operand that a range is found in is one of them and has all bits of the range. -/
theorem findArgument_spec (hrange : offset ≤ sliceEnd)
    (h : findArgument eu.registerMap offset sliceEnd start args = some (argument, type, inner)) :
    argument ∈ args ∧ eu.types argument = some type ∧ inner ≤ offset ∧
      inner + (sliceEnd - offset) ≤ type.width := by
  induction args generalizing start with
  | nil => cases h
  | cons arg args ih =>
    unfold findArgument at h
    cases htype : eu.registerMap.lookup arg with
    | none =>
      rw [htype] at h
      cases h
    | some argType =>
      rw [htype] at h
      simp only at h
      cases hadd : checkedAdd start argType.width with
      | none =>
        rw [hadd] at h
        cases h
      | some stop =>
        obtain rfl : stop = start + argType.width := by
          unfold checkedAdd at hadd
          split at hadd <;> cases hadd
          rfl
        rw [hadd] at h
        simp only at h
        split at h
        · cases h
          exact ⟨List.mem_cons_self, htype, Nat.sub_le _ _, by omega⟩
        · obtain ⟨hmem, hrest⟩ := ih h
          exact ⟨List.mem_cons_of_mem _ hmem, hrest⟩

/-- It holds the bits of the range. -/
theorem spells_find {bits : Nat → Bool × Bool} {stop : Nat}
    (hspells : Spells eu regs bits start args stop) (hrange : offset ≤ sliceEnd)
    (h : findArgument eu.registerMap offset sliceEnd start args = some (argument, type, inner)) :
    sliceEnd ≤ stop ∧ ∃ value, regs argument = some value ∧ value.fits type.width ∧
      ∀ k < sliceEnd - offset, value.bit (inner + k) = bits (offset + k) := by
  induction hspells with
  | nil => cases h
  | @cons start stop arg argType value rest htype hvalue hfits hbits hrest ih =>
    unfold findArgument at h
    rw [show eu.registerMap.lookup arg = some argType from htype] at h
    simp only at h
    cases hadd : checkedAdd start argType.width with
    | none =>
      rw [hadd] at h
      cases h
    | some argEnd =>
      obtain rfl : argEnd = start + argType.width := by
        unfold checkedAdd at hadd
        split at hadd <;> cases hadd
        rfl
      rw [hadd] at h
      simp only at h
      split at h
      · rename_i hin
        cases h
        refine ⟨hin.2.trans hrest.le, value, hvalue, hfits, fun k hk => ?_⟩
        rw [hbits _ (by omega)]
        congr 1
        omega
      · exact ih h

end Operands

/-! ## Folded slices -/

theorem collectConcats_mem {A : Type} {eu : RegionedUnit A} {reg : RegisterId}
    {args : List RegisterId} (h : collectConcats eu reg = some args) :
    .concat reg args ∈ eu.instructions := by
  unfold collectConcats at h
  refine List.foldlRecOn (motive := fun concats : RegisterId → Option (List RegisterId) =>
    ∀ reg args, concats reg = some args → .concat reg args ∈ eu.instructions) eu.instructions _
    (fun _ _ h => by cases h) (fun concats ih inst hinst reg args h => ?_) reg args h
  split at h
  · rename_i dst operands
    by_cases heq : reg = dst
    · subst heq
      rw [Function.update_self] at h
      cases h
      exact hinst
    · rw [Function.update_of_ne heq] at h
      exact ih reg args h
  · exact ih reg args h

section Slices
variable {A : Type} {eu : RegionedUnit A}
  {inst inst' : SIRInstruction (RegionedAbsoluteAddr A)}

/-- What a folded slice was and is. -/
structure SliceFolds (eu : RegionedUnit A) (dst packed : RegisterId) (offset width : Nat)
    (args : List RegisterId) (argument : RegisterId) (type : RegisterType) (inner : Nat)
    (inst' : SIRInstruction (RegionedAbsoluteAddr A)) : Prop where
  concat : .concat packed args ∈ eu.instructions
  found : findArgument eu.registerMap offset (offset + width) 0 args.reverse =
    some (argument, type, inner)
  becomes : inst' = .slice dst argument inner width ∨
    inst' = .unary dst .ident argument ∧ inner = 0 ∧ width = type.width ∧ eu.types dst = some type

theorem foldSlice_some (h : foldSlice eu.registerMap (collectConcats eu) inst = some inst') :
    ∃ dst packed offset width args argument type inner, inst = .slice dst packed offset width ∧
      SliceFolds eu dst packed offset width args argument type inner inst' := by
  unfold foldSlice at h
  split at h
  · rename_i dst packed offset width
    simp only [Option.bind_eq_bind, Option.bind_eq_some_iff, Option.pure_def,
      Option.some.injEq] at h
    obtain ⟨args, hargs, sliceEnd, hadd, ⟨argument, type, inner⟩, hfound, hinst⟩ := h
    obtain rfl : sliceEnd = offset + width := by
      unfold checkedAdd at hadd
      split at hadd <;> cases hadd
      rfl
    refine ⟨dst, packed, offset, width, args, argument, type, inner, rfl, ?_, hfound, ?_⟩
    · exact collectConcats_mem hargs
    · simp only at hinst
      split at hinst
      · rename_i hident
        exact .inr ⟨hinst.symm, hident⟩
      · exact .inl hinst.symm
  · cases h

variable {dst packed : RegisterId} {offset width : Nat} {args : List RegisterId}
  {argument : RegisterId} {type : RegisterType} {inner : Nat}

theorem SliceFolds.spec (h : SliceFolds eu dst packed offset width args argument type inner inst') :
    argument ∈ args ∧ eu.types argument = some type ∧ inner ≤ offset ∧
      inner + width ≤ type.width := by
  obtain ⟨hmem, htype, hle, hwithin⟩ := findArgument_spec (Nat.le_add_right _ _) h.found
  rw [Nat.add_sub_cancel_left] at hwithin
  exact ⟨List.mem_reverse.mp hmem, htype, hle, hwithin⟩

theorem SliceFolds.defines
    (h : SliceFolds eu dst packed offset width args argument type inner inst') :
    inst'.definedRegister = some dst := by
  rcases h.becomes with rfl | ⟨rfl, -⟩ <;> rfl

theorem SliceFolds.uses
    (h : SliceFolds eu dst packed offset width args argument type inner inst') :
    inst'.uses = [argument] := by
  rcases h.becomes with rfl | ⟨rfl, -⟩ <;> rfl

/-! ## The unit with folded slices -/

def foldedSlice (eu : RegionedUnit A) (inst : SIRInstruction (RegionedAbsoluteAddr A)) :
    SIRInstruction (RegionedAbsoluteAddr A) :=
  (foldSlice eu.registerMap (collectConcats eu) inst).getD inst

theorem foldSlicesOfConcat_eq (eu : RegionedUnit A) :
    foldSlicesOfConcat eu = eu.mapInstructions (foldedSlice eu) := rfl

theorem foldedSlice_cases (eu : RegionedUnit A) (inst : SIRInstruction (RegionedAbsoluteAddr A)) :
    foldedSlice eu inst = inst ∨
      foldSlice eu.registerMap (collectConcats eu) inst = some (foldedSlice eu inst) := by
  unfold foldedSlice
  cases foldSlice eu.registerMap (collectConcats eu) inst with
  | none => exact .inl rfl
  | some inst' => exact .inr rfl

theorem foldedSlice_well (hv : Verified eu) : RewritesWell eu (foldedSlice eu) where
  defines inst := by
    rcases foldedSlice_cases eu inst with heq | hfold
    · rw [heq]
    · obtain ⟨dst, packed, offset, width, args, argument, type, inner, heq, hfolds⟩ :=
        foldSlice_some hfold
      rw [hfolds.defines, heq]
      rfl
  typed b block hb inst hinst := by
    have htyped := (hv.blocks b block hb).typed.typed inst hinst
    rcases foldedSlice_cases eu inst with heq | hfold
    · rwa [heq]
    · obtain ⟨dst, packed, offset, width, args, argument, type, inner, heq, hfolds⟩ :=
        foldSlice_some hfold
      rw [heq] at htyped
      obtain ⟨hwidth, hmax, -, hdst⟩ := htyped
      obtain ⟨-, htype, hle, hwithin⟩ := hfolds.spec
      rcases hfolds.becomes with hbecomes | ⟨hbecomes, -, -, hsame⟩
      · rw [hbecomes]
        exact ⟨hwidth, by omega, ⟨type, htype, hwithin⟩, hdst⟩
      · rw [hbecomes]
        exact ⟨⟨type, hsame⟩, ⟨type, htype⟩⟩
  uses b block i inst hb hi reg hreg := by
    rcases foldedSlice_cases eu inst with heq | hfold
    · rw [heq] at hreg
      exact hv.readable_use hb hi hreg
    · obtain ⟨dst, packed, offset, width, args, argument, type, inner, heq, hfolds⟩ :=
        foldSlice_some hfold
      rw [hfolds.uses, List.mem_singleton] at hreg
      subst hreg heq
      obtain ⟨home, homeBlock, hhome, k, hk⟩ := site_of_mem hfolds.concat
      have hpacked := hv.readable_use hb hi (List.mem_singleton_self packed)
      exact hv.readable_operand (mem_table.mpr ⟨block, hb⟩) hhome hk hfolds.spec.1
        (hv.readable_site hpacked hhome hk rfl)

theorem foldSlicesOfConcat_verified (hv : Verified eu) : Verified (foldSlicesOfConcat eu) :=
  hv.mapInstructions (foldedSlice_well hv)

/-! ## Values -/

variable [DecidableEq A] {b : BlockId} {block : BasicBlock (RegionedAbsoluteAddr A)} {i : Nat}
  {model : BitModel (RegionedAbsoluteAddr A)} {memory : BitMemory (RegionedAbsoluteAddr A)}
  {s t : State (RegionedAbsoluteAddr A) (BitMemory (RegionedAbsoluteAddr A))}

/-- The operand has the value of the slice in its bits. -/
theorem SliceFolds.value (hv : Verified eu)
    (h : SliceFolds eu dst packed offset width args argument type inner inst')
    (hpoint : eu.Point model.machine memory b block i s)
    (hi : block.instructions[i]? = some (.slice dst packed offset width)) :
    ∃ whole part, s.regs packed = some whole ∧ s.regs argument = some part ∧
      part.fits type.width ∧ evalSlice part inner width = evalSlice whole offset width := by
  obtain ⟨home, homeBlock, hhome, k, hk⟩ := site_of_mem h.concat
  have hread := hv.readable_use hpoint.lookup hi (List.mem_singleton_self packed)
  obtain ⟨value, hvalue, hpacked⟩ :=
    hv.equation hhome hk rfl rfl hpoint (hv.readable_site hread hhome hk rfl)
  simp only [ExecutionUnit.value, Option.bind_eq_bind, Option.bind_eq_some_iff, Option.pure_def,
    Option.some.injEq] at hvalue
  obtain ⟨values, hvalues, rfl⟩ := hvalue
  obtain ⟨bits, stop, hspells⟩ :=
    spells_of_operands (hv.point_fits hpoint) (mapM_reverse hvalues) 0
  obtain ⟨values', hvalues', -, hconcat⟩ := hspells.concat
  rw [mapM_reverse hvalues] at hvalues'
  cases hvalues'
  rw [List.reverse_reverse] at hconcat
  obtain ⟨hstop, part, hpart, hfits, hbits⟩ := spells_find hspells (Nat.le_add_right _ _) h.found
  rw [Nat.add_sub_cancel_left] at hbits
  obtain ⟨-, -, ⟨packedType, hpackedType, hwithin⟩, -⟩ :=
    (hv.blocks b block hpoint.lookup).typed.typed _ (List.mem_of_getElem? hi)
  refine ⟨_, part, hpacked, hpart, hfits,
    value_ext (evalSlice_fits _ _ _) (evalSlice_fits _ _ _) fun j hj => ?_⟩
  rw [evalSlice_bit _ _ hj, evalSlice_bit _ _ hj, hbits j hj,
    kept_bit hpackedType _ (by omega), hconcat _ (by omega), Nat.zero_add]

/-- A folded slice does what the slice did. -/
theorem foldSlice_exec (hv : Verified eu)
    (hfold : foldSlice eu.registerMap (collectConcats eu) inst = some inst')
    (hpoint : eu.Point model.machine memory b block i s) (hi : block.instructions[i]? = some inst)
    (hexec : eu.execInstruction model.machine s inst = some t) :
    eu.execInstruction model.machine s inst' = some t := by
  obtain ⟨dst, packed, offset, width, args, argument, type, inner, rfl, hfolds⟩ :=
    foldSlice_some hfold
  obtain ⟨whole, part, hwhole, hpart, hfits, hsame⟩ := hfolds.value hv hpoint hi
  simp only [ExecutionUnit.execInstruction, hwhole, Option.bind_eq_bind, Option.bind_some,
    Option.pure_def, Option.some.injEq] at hexec
  rcases hfolds.becomes with rfl | ⟨rfl, rfl, rfl, hdst⟩
  · simp only [ExecutionUnit.execInstruction, hpart, Option.bind_eq_bind, Option.bind_some,
      Option.pure_def, hsame, hexec]
  · have hall : evalSlice part 0 type.width = part :=
      value_ext (evalSlice_fits _ _ _) hfits fun j hj => by
        rw [evalSlice_bit _ _ hj, Nat.zero_add]
    rw [hall] at hsame
    have htype := hfolds.spec.2.1
    unfold ExecutionUnit.types at hdst htype
    simp only [ExecutionUnit.execInstruction, ExecutionUnit.operand, hdst, htype, hpart,
      Option.bind_eq_bind, Option.bind_some, Option.pure_def, evalUnary, hsame, hexec]

theorem foldSlicesOfConcat_alike (hv : Verified eu) (model : BitModel (RegionedAbsoluteAddr A))
    (memory : BitMemory (RegionedAbsoluteAddr A)) :
    EndsAlike model.machine model.machine eu (foldSlicesOfConcat eu) memory Eq := by
  refine mapInstructions_alike fun b block i inst s t hpoint hi hexec => ?_
  rcases foldedSlice_cases eu inst with heq | hfold
  · rwa [show (foldSlice eu.registerMap (collectConcats eu) inst).getD inst = inst from heq]
  · exact foldSlice_exec hv hfold hpoint hi hexec

end Slices
end Celox.Opt
