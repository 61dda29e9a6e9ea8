import Celox.Opt.Surviving
import Celox.Opt.XorChains
import Celox.Sir.Available

/-! # Exclusive-or chains in runs

At a root, the parts of its chain have the values that their definitions give them, so that a root
that is exact may be folded. -/
namespace Celox.Opt
open Celox.Sir Celox.Layout

variable {A : Type}

/-! ## Chains of verified blocks -/

section Blocks
variable {eu : ExecutionUnit (RegionedAbsoluteAddr A)} {b : BlockId}
  {block : BasicBlock (RegionedAbsoluteAddr A)} {inst : SIRInstruction (RegionedAbsoluteAddr A)}
  {reg source : RegisterId} {tree : XorTree}

theorem blockDefs_some {instructions : List (SIRInstruction (RegionedAbsoluteAddr A))}
    (h : blockDefs instructions reg = some inst) :
    inst ∈ instructions ∧ inst.definedRegister = some reg := by
  unfold blockDefs at h
  generalize hnone : (fun _ => none) = defs at h
  suffices hfold : defs reg = some inst ∨ inst ∈ instructions ∧ inst.definedRegister = some reg from
    hfold.resolve_left (by simp [← hnone])
  clear hnone
  induction instructions generalizing defs with
  | nil => exact .inl h
  | cons first instructions ih =>
    rcases ih _ h with hbefore | ⟨hmem, hdef⟩
    · cases hfirst : first.definedRegister with
      | none =>
        simp only [hfirst] at hbefore
        exact .inl hbefore
      | some dst =>
        simp only [hfirst] at hbefore
        by_cases heq : reg = dst
        · subst heq
          rw [Function.update_self] at hbefore
          cases hbefore
          exact .inr ⟨List.mem_cons_self, hfirst⟩
        · rw [Function.update_of_ne heq] at hbefore
          exact .inl hbefore
    · exact .inr ⟨List.mem_cons_of_mem _ hmem, hdef⟩

/-- The definition of a register of a block, with its position. -/
theorem blockDefs_at (h : blockDefs block.instructions reg = some inst) :
    ∃ i : Nat, block.instructions[i]? = some inst ∧ inst.definedRegister = some reg := by
  obtain ⟨hmem, hdef⟩ := blockDefs_some h
  obtain ⟨i, hi⟩ := List.mem_iff_getElem?.mp hmem
  exact ⟨i, hi, hdef⟩

variable (hv : Verified eu) (hb : eu.blocks.lookup b = some block)
include hv hb

theorem blockDefs_typed (h : blockDefs block.instructions reg = some inst) :
    InstructionTyped eu.types inst ∧ Declared eu.types reg := by
  obtain ⟨hmem, hdef⟩ := blockDefs_some h
  have htyped := (hv.blocks b block hb).typed
  exact ⟨htyped.typed inst hmem, htyped.defined inst hmem reg hdef⟩

theorem Chain.declared (h : Chain (blockDefs block.instructions) source tree) :
    tree.Declared eu := by
  induction h with
  | slice hdef => exact (blockDefs_typed hv hb hdef).2
  | xor hdef _ _ ihl ihr => exact ⟨(blockDefs_typed hv hb hdef).2, ihl, ihr⟩
  | ident hdef _ ih => exact ⟨(blockDefs_typed hv hb hdef).2, ih⟩

/-- The bits of a chain are bits of its source. -/
theorem Chain.bits_lt (h : Chain (blockDefs block.instructions) source tree) :
    ∃ type, eu.types source = some type ∧ ∀ p ∈ tree.bits, p < type.width := by
  induction h with
  | slice hdef =>
    obtain ⟨-, -, ⟨type, htype, hwidth⟩, -⟩ := (blockDefs_typed hv hb hdef).1
    refine ⟨type, htype, fun p hp => ?_⟩
    obtain rfl := List.mem_singleton.mp hp
    exact hwidth
  | xor _ _ _ ihl ihr =>
    obtain ⟨type, htype, hleft⟩ := ihl
    obtain ⟨type', htype', hright⟩ := ihr
    rw [htype] at htype'
    cases htype'
    exact ⟨type, htype, fun p hp => (List.mem_append.mp hp).elim (hleft p) (hright p)⟩
  | ident _ _ ih => exact ih

end Blocks

/-! ## Roots -/

/-- The roots of a unit. -/
structure RootAt (eu : ExecutionUnit (RegionedAbsoluteAddr A)) (b : BlockId)
    (block : BasicBlock (RegionedAbsoluteAddr A)) (i : Nat)
    (inst : SIRInstruction (RegionedAbsoluteAddr A)) (root : XorRoot) : Prop where
  lookup : eu.blocks.lookup b = some block
  get : block.instructions[i]? = some inst
  found : xorRoot (blockDefs block.instructions) eu.registerMap block.instructions.length inst =
    some root

/-- A folded root has the value of its chain for every value of the source. -/
def KeepsRoots [DecidableEq A] (fourState : Bool) (eu : ExecutionUnit (RegionedAbsoluteAddr A)) :
    Prop :=
  ∀ b block i inst root, RootAt eu b block i inst root → ∃ lhs rhs : XorTree,
    inst = .binary root.dst lhs.dst .xor rhs.dst ∧
    Chain (blockDefs block.instructions) root.src lhs ∧
    Chain (blockDefs block.instructions) root.src rhs ∧
    ∀ model : BitModel (RegionedAbsoluteAddr A), FourState model → ∀ type value,
      eu.types root.src = some type → SourceValue fourState type value →
        root.result eu model value = (XorTree.xor root.dst lhs rhs).result eu model value

/-- All roots are exact. -/
def ExactRoots (fourState : Bool) (eu : ExecutionUnit (RegionedAbsoluteAddr A)) : Prop :=
  ∀ b block i inst root, RootAt eu b block i inst root → root.Exact fourState eu

section Roots
variable [DecidableEq A] {eu : ExecutionUnit (RegionedAbsoluteAddr A)} {b : BlockId}
  {block : BasicBlock (RegionedAbsoluteAddr A)} {inst : SIRInstruction (RegionedAbsoluteAddr A)}
  {i : Nat} {root : XorRoot} {lhs rhs : XorTree} {model : BitModel (RegionedAbsoluteAddr A)}
  {value : SIRValue}

omit [DecidableEq A] in
theorem RootAt.wellTyped (hv : Verified eu) (h : RootAt eu b block i inst root) :
    ∃ type, root.WellTyped eu type := by
  obtain ⟨lhs, rhs, rfl, hl, hr, hbits, -, hwidth⟩ := xorRoot_some h.found
  obtain ⟨type, htype, hleft⟩ := hl.bits_lt hv h.lookup
  obtain ⟨type', htype', hright⟩ := hr.bits_lt hv h.lookup
  rw [htype] at htype'
  cases htype'
  refine ⟨type, htype, ?_, fun p hp => ?_, hv.declares h.lookup h.get _ (by
    simp [SIRInstruction.registers, SIRInstruction.definedRegister])⟩
  · unfold ExecutionUnit.types at htype
    rw [hwidth, htype]
    rfl
  · rw [hbits] at hp
    exact (List.mem_append.mp hp).elim (hleft p) (hright p)

/-- The value of a root is the parity of its bits. -/
theorem xor_result_eq (hv : Verified eu) (hmodel : FourState model) {dst : RegisterId}
    (hdst : Declared eu.types dst) (hl : lhs.Declared eu) (hr : rhs.Declared eu) :
    (XorTree.xor dst lhs rhs).result eu model value = parityOf value (lhs.bits ++ rhs.bits) := by
  rw [XorTree.result, (XorTree.result_parity hv hmodel hl).xor hmodel
    (XorTree.result_parity hv hmodel hr), (parityOf_hasParity value _).kept hv hdst]

/-- Folded roots have the values of their chains exactly if they are exact. -/
theorem keepsRoots_iff (hv : Verified eu) (fourState : Bool) :
    KeepsRoots fourState eu ↔ ExactRoots fourState eu := by
  refine forall₅_congr fun b block i inst root => forall_congr' fun h => ?_
  obtain ⟨lhs, rhs, hinst, hl, hr, hbits, hlong, -⟩ := xorRoot_some h.found
  obtain ⟨type, htyped⟩ := h.wellTyped hv
  have hchain : ∀ (model : BitModel (RegionedAbsoluteAddr A)) value, FourState model →
      (XorTree.xor root.dst lhs rhs).result eu model value = parityOf value root.bits :=
    fun model value hmodel => hbits ▸ xor_result_eq hv hmodel htyped.dst
      (hl.declared hv h.lookup) (hr.declared hv h.lookup)
  have hne : root.bits ≠ [] := fun hnil => by
    rw [hnil] at hlong
    exact absurd hlong (by decide)
  rw [← htyped.keeps_iff hv hne]
  constructor
  · rintro ⟨lhs', rhs', hinst', hl', hr', hkeeps⟩ model hmodel value hvalue
    rw [hinst] at hinst'
    injection hinst' with _ hlhs _ hrhs
    rw [hkeeps model hmodel type value htyped.src hvalue, ← hl.unique hl' hlhs,
      ← hr.unique hr' hrhs, hchain model value hmodel]
  · intro hkeeps
    refine ⟨lhs, rhs, hinst, hl, hr, fun model hmodel type' value htype' hvalue => ?_⟩
    rw [htyped.src] at htype'
    cases htype'
    rw [hkeeps model hmodel value hvalue, hchain model value hmodel]

end Roots

/-! ## Values at a point -/

section Points
variable [DecidableEq A] {eu : ExecutionUnit (RegionedAbsoluteAddr A)}
  {model : BitModel (RegionedAbsoluteAddr A)} {memory : BitMemory (RegionedAbsoluteAddr A)}
  {b : BlockId} {block : BasicBlock (RegionedAbsoluteAddr A)} {i : Nat}
  {s : State (RegionedAbsoluteAddr A) (BitMemory (RegionedAbsoluteAddr A))} {source : RegisterId}
  {tree : XorTree} {value : SIRValue}

omit [DecidableEq A] in
theorem lookup_typeOf {reg : RegisterId} (h : Declared eu.types reg) :
    eu.registerMap.lookup reg = some (typeOf eu reg) := by
  obtain ⟨type, htype⟩ := h
  rw [typeOf, htype, Option.getD_some]
  exact htype

omit [DecidableEq A] in
theorem operand_typeOf {regs : Registers} {reg : RegisterId} {operand : SIRValue}
    (hdeclared : Declared eu.types reg) (h : regs reg = some operand) :
    eu.operand regs reg = some (typeOf eu reg, operand) := by
  rw [ExecutionUnit.operand, lookup_typeOf hdeclared, h]
  rfl

/-- A definition that can be read holds, and what it reads can be read. -/
theorem blockDefs_holds (hv : Verified eu) (hpoint : eu.Point model.machine memory b block i s)
    {reg : RegisterId} {inst : SIRInstruction (RegionedAbsoluteAddr A)}
    (hdef : blockDefs block.instructions reg = some inst) (hload : inst.isLoad = false)
    (hread : eu.Readable b i reg) :
    (∃ result, eu.value model.machine s.regs s.memory inst = some result ∧
      s.regs reg = some (eu.kept reg result)) ∧ ∀ arg ∈ inst.uses, eu.Readable b i arg := by
  have hb := hpoint.lookup
  obtain ⟨k, hk, hdst⟩ := blockDefs_at hdef
  have havail := hv.readable_site hread hb hk hdst
  exact ⟨hv.equation hb hk hdst hload hpoint havail, fun arg harg =>
    hv.readable_operand (mem_table.mpr ⟨block, hb⟩) hb hk harg havail⟩

/-- Where a chain can be read, its source has a value. -/
theorem Chain.source_value (hv : Verified eu)
    (hpoint : eu.Point model.machine memory b block i s)
    (h : Chain (blockDefs block.instructions) source tree) (hread : eu.Readable b i tree.dst) :
    ∃ value, s.regs source = some value := by
  induction h with
  | slice hdef =>
    obtain ⟨⟨result, heval, -⟩, -⟩ := blockDefs_holds hv hpoint hdef rfl hread
    obtain ⟨value, hvalue, -⟩ := Option.bind_eq_some_iff.mp heval
    exact ⟨value, hvalue⟩
  | xor hdef _ _ ihl _ =>
    obtain ⟨-, huses⟩ := blockDefs_holds hv hpoint hdef rfl hread
    exact ihl (huses _ (by simp [SIRInstruction.uses]))
  | ident hdef _ ih =>
    obtain ⟨-, huses⟩ := blockDefs_holds hv hpoint hdef rfl hread
    exact ih (huses _ (by simp [SIRInstruction.uses]))

/-- Where the parts of a chain can be read, its registers have the values that the chain gives. -/
theorem Chain.holds (hv : Verified eu) (hpoint : eu.Point model.machine memory b block i s)
    (h : Chain (blockDefs block.instructions) source tree) (hread : eu.Readable b i tree.dst)
    (hsource : s.regs source = some value) :
    s.regs tree.dst = some (tree.result eu model value) := by
  induction h with
  | @slice reg dst offset hdef =>
    obtain ⟨⟨result, heval, hreg⟩, -⟩ := blockDefs_holds hv hpoint hdef rfl hread
    simp only [ExecutionUnit.value, hsource, Option.bind_eq_bind, Option.bind_some,
      Option.pure_def, Option.some.injEq] at heval
    rw [XorTree.dst, hreg, ← heval]
    rfl
  | @xor reg dst lhs rhs hdef hl hr ihl ihr =>
    obtain ⟨⟨result, heval, hreg⟩, huses⟩ := blockDefs_holds hv hpoint hdef rfl hread
    have hleft := huses lhs.dst (by simp [SIRInstruction.uses])
    have hright := huses rhs.dst (by simp [SIRInstruction.uses])
    obtain ⟨j, -, hdst⟩ := blockDefs_at hdef
    cases hdst
    have hdeclared : Declared eu.types reg := hread.1
    simp only [ExecutionUnit.value, lookup_typeOf hdeclared, operand_typeOf hleft.1 (ihl hleft),
      operand_typeOf hright.1 (ihr hright), Option.bind_eq_bind, Option.bind_some,
      Option.pure_def, Option.some.injEq] at heval
    rw [XorTree.dst, hreg, ← heval]
    rfl
  | @ident reg dst src hdef hs ih =>
    obtain ⟨⟨result, heval, hreg⟩, huses⟩ := blockDefs_holds hv hpoint hdef rfl hread
    have hsrc := huses src.dst (by simp [SIRInstruction.uses])
    obtain ⟨j, -, hdst⟩ := blockDefs_at hdef
    cases hdst
    have hdeclared : Declared eu.types reg := hread.1
    simp only [ExecutionUnit.value, lookup_typeOf hdeclared, operand_typeOf hsrc.1 (ih hsrc),
      Option.bind_eq_bind, Option.bind_some, Option.pure_def, Option.some.injEq] at heval
    rw [XorTree.dst, hreg, ← heval]
    rfl

end Points

/-! ## Folded blocks -/

section Fold
variable {eu : ExecutionUnit (RegionedAbsoluteAddr A)} {root : XorRoot}
  {defs : RegisterId → Option (SIRInstruction (RegionedAbsoluteAddr A))}
  {registerMap : Table RegisterId RegisterType} {fuel : Nat}
  {inst : SIRInstruction (RegionedAbsoluteAddr A)}
  {rest out : List (SIRInstruction (RegionedAbsoluteAddr A))} {allocation after : Allocation}

theorem fold_before (hbounded : allocation.Bounded) :
    allocation.Before (root.fold (A := A) allocation).2 :=
  (push_before hbounded).trans (push_before (push_before hbounded).bounded)

theorem foldXorRoots_root (h : xorRoot defs registerMap fuel inst = some root) :
    foldXorRoots defs registerMap fuel (inst :: rest) allocation =
      ((root.fold (foldXorRoots defs registerMap fuel rest allocation).2).1 ++
        (foldXorRoots defs registerMap fuel rest allocation).1,
        (root.fold (A := A) (foldXorRoots defs registerMap fuel rest allocation).2).2) := by
  simp only [foldXorRoots, h]

theorem foldXorRoots_other (h : xorRoot defs registerMap fuel inst = none) :
    foldXorRoots defs registerMap fuel (inst :: rest) allocation =
      (inst :: (foldXorRoots defs registerMap fuel rest allocation).1,
        (foldXorRoots defs registerMap fuel rest allocation).2) := by
  simp only [foldXorRoots, h]

theorem foldXorRoots_before (hbounded : allocation.Bounded) :
    allocation.Before (foldXorRoots defs registerMap fuel rest allocation).2 := by
  induction rest with
  | nil => exact .refl hbounded
  | cons inst rest ih =>
    cases hroot : xorRoot defs registerMap fuel inst with
    | none =>
      rw [foldXorRoots_other hroot]
      exact ih
    | some root =>
      rw [foldXorRoots_root hroot]
      exact ih.trans (fold_before (A := A) ih.bounded)

/-- A table with the types of another one has the same roots. -/
theorem xorRoot_shapes {registerMap' : Table RegisterId RegisterType}
    (hshapes : ShapesIn registerMap registerMap') (hsrc : root.src ∈ registerMap)
    (h : xorRoot defs registerMap' fuel inst = some root) :
    xorRoot defs registerMap fuel inst = some root := by
  obtain ⟨type, htype⟩ := Option.isSome_iff_exists.mp (AList.lookup_isSome.mpr hsrc)
  obtain ⟨type', htype', hshape⟩ := hshapes _ _ htype
  have hwidth : type'.width = type.width := congrArg RegisterShape.width hshape
  unfold xorRoot at h ⊢
  split at h
  · split at h
    · rename_i bits src hbits
      split at h
      · rename_i hlong
        cases h
        rw [if_pos hlong, htype, htype', Option.map_some, Option.map_some, hwidth]
      · cases h
    · cases h
  · cases h

end Fold

section Exec
variable [DecidableEq A] {eu eu' : ExecutionUnit (RegionedAbsoluteAddr A)} {root : XorRoot}
  {allocation : Allocation} {model : BitModel (RegionedAbsoluteAddr A)}
  {s' : State (RegionedAbsoluteAddr A) (BitMemory (RegionedAbsoluteAddr A))} {value : SIRValue}

omit [DecidableEq A] in
theorem operand_extends (hext : Extends eu eu') {regs : Registers} {reg : RegisterId}
    {operand : SIRValue} (hdeclared : Declared eu.types reg) (h : regs reg = some operand) :
    ∃ type, eu'.operand regs reg = some (type, operand) ∧
      type.shape = (typeOf eu reg).shape := by
  obtain ⟨type, htype, hshape⟩ := hext reg _ (lookup_typeOf hdeclared)
  refine ⟨type, ?_, hshape⟩
  rw [ExecutionUnit.operand, show eu'.registerMap.lookup reg = some type from htype, h]
  rfl

omit [DecidableEq A] in
/-- A register keeps the bits that its type in another unit of the same shape has. -/
theorem kept_shape {reg : RegisterId} {type type' : RegisterType}
    (htype : eu'.types reg = some type') (hshape : type'.shape = type.shape) (result : SIRValue) :
    eu'.kept reg result = result.cut type.width := by
  unfold ExecutionUnit.types at htype
  rw [ExecutionUnit.kept, htype]
  exact congrArg result.cut (congrArg RegisterShape.width hshape)

/-- What is inserted for a root gives it the value of the folded chain. -/
theorem XorRoot.fold_exec (model : BitModel (RegionedAbsoluteAddr A)) (hext : Extends eu eu') (hbounded : allocation.Bounded)
    (hdeclared : ShapesIn eu.registerMap allocation.registerMap)
    (hmap : ShapesIn (root.fold (A := A) allocation).2.registerMap eu'.registerMap)
    (hsrc : Declared eu.types root.src) (hdst : Declared eu.types root.dst)
    (hvalue : s'.regs root.src = some value) : ∃ t',
      eu'.execList model.machine s' (root.fold allocation).1 = some t' ∧
      t'.regs root.dst = some (root.result eu model value) ∧
      (∀ reg, Declared eu.types reg → reg ≠ root.dst → t'.regs reg = s'.regs reg) ∧
      t'.memory = s'.memory ∧ t'.trace = s'.trace := by
  obtain ⟨type, htype⟩ : ∃ type, type = RegisterType.bit (min root.srcWidth 64) false := ⟨_, rfl⟩
  obtain ⟨maskReg, hmaskReg⟩ : ∃ reg, reg = allocation.counter + 1 := ⟨_, rfl⟩
  obtain ⟨maskedReg, hmaskedReg⟩ : ∃ reg, reg = allocation.counter + 1 + 1 := ⟨_, rfl⟩
  have hfold : root.fold (A := A) allocation = ([.imm maskReg ⟨xorMask root.bits, 0⟩,
      .binary maskedReg root.src .and maskReg, .unary root.dst .xor maskedReg],
      ⟨(allocation.registerMap.insert maskReg type).insert maskedReg type, maskedReg⟩) := by
    subst htype hmaskReg hmaskedReg
    rfl
  have hne : maskReg ≠ maskedReg := by
    rw [hmaskReg, hmaskedReg]
    exact (Nat.lt_succ_self _).ne
  have hbelow : ∀ reg, Declared eu.types reg → reg ≠ maskReg ∧ reg ≠ maskedReg := by
    intro reg hreg
    have hmem : reg ∈ allocation.registerMap := by
      obtain ⟨type, htype⟩ := hreg
      exact hdeclared.mem (AList.lookup_isSome.mp (by
        rw [show eu.registerMap.lookup reg = some type from htype]; rfl))
    have hle := hbounded reg hmem
    rw [hmaskReg, hmaskedReg]
    exact ⟨(Nat.lt_succ_of_le hle).ne, (Nat.lt_succ_of_lt (Nat.lt_succ_of_le hle)).ne⟩
  rw [hfold] at hmap ⊢
  obtain ⟨maskType, hmask, hmaskShape⟩ := hmap maskReg type (by
    rw [AList.lookup_insert_ne hne, AList.lookup_insert])
  obtain ⟨maskedType, hmasked, hmaskedShape⟩ := hmap maskedReg type (AList.lookup_insert _)
  obtain ⟨hsrcMask, hsrcMasked⟩ := hbelow root.src hsrc
  have hsrcValue : Function.update s'.regs maskReg
      (some (eu'.kept maskReg ⟨xorMask root.bits, 0⟩)) root.src = some value :=
    (Function.update_of_ne hsrcMask _ _).trans hvalue
  obtain ⟨srcType, hsrcOperand, hsrcShape⟩ := operand_extends hext hsrc hsrcValue
  obtain ⟨dstType, hdstType, hdstShape⟩ := hext root.dst _ (lookup_typeOf hdst)
  have hmaskOperand : eu'.operand (Function.update s'.regs maskReg
      (some (eu'.kept maskReg ⟨xorMask root.bits, 0⟩))) maskReg =
      some (maskType, SIRValue.cut ⟨xorMask root.bits, 0⟩ type.width) := by
    rw [ExecutionUnit.operand, hmask, Function.update_self, kept_shape hmask hmaskShape]
    rfl
  have hmaskedOperand : ∀ (regs : Registers) result, eu'.operand (Function.update regs maskedReg
      (some (eu'.kept maskedReg result))) maskedReg =
        some (maskedType, result.cut type.width) := by
    intro regs result
    rw [ExecutionUnit.operand, hmasked, Function.update_self, kept_shape hmasked hmaskedShape]
    rfl
  have hlookup : eu'.registerMap.lookup root.dst = some dstType := hdstType
  obtain ⟨masked, hvalueMasked⟩ : ∃ masked, masked = evalBinary model.machine .and maskedType
    srcType maskType value (SIRValue.cut ⟨xorMask root.bits, 0⟩ type.width) := ⟨_, rfl⟩
  refine ⟨{ s' with regs := Function.update (Function.update (Function.update s'.regs maskReg
      (some (eu'.kept maskReg ⟨xorMask root.bits, 0⟩))) maskedReg
      (some (eu'.kept maskedReg masked))) root.dst (some (eu'.kept root.dst
        (evalUnary model.machine .xor dstType maskedType (masked.cut type.width)))) },
    ?_, ?_, fun reg hreg hdstNe => ?_, rfl, rfl⟩
  · simp only [ExecutionUnit.execList, ExecutionUnit.execInstruction, ExecutionUnit.assign,
      Option.bind_eq_bind, Option.bind_some, Option.pure_def, hmasked, hlookup, hsrcOperand,
      hmaskOperand, hmaskedOperand, hvalueMasked]
  · rw [hvalueMasked]
    simp only [Function.update_self]
    rw [evalBinary_shape hmaskedShape hsrcShape hmaskShape,
      evalUnary_shape hdstShape hmaskedShape, hext.kept hdst, XorRoot.result, htype]
  · obtain ⟨hregMask, hregMasked⟩ := hbelow reg hreg
    simp only [Function.update_of_ne hdstNe, Function.update_of_ne hregMasked,
      Function.update_of_ne hregMask]

end Exec
end Celox.Opt

/-! ## The folding of exclusive-or chains as a pass

Every block is folded, and then definitions that nothing reads are left out. Units whose roots are
all exact run as before. -/
namespace Celox.Opt
open Celox.Sir Celox.Layout

variable {A : Type} [DecidableEq A]

/-- Without unknown bits, no register has one anywhere in a run. -/
def KnownRuns (eu : ExecutionUnit (RegionedAbsoluteAddr A))
    (model : BitModel (RegionedAbsoluteAddr A)) (memory : BitMemory (RegionedAbsoluteAddr A)) :
    Prop :=
  ∀ b block i s, eu.Point model.machine memory b block i s →
    ∀ reg value, s.regs reg = some value → value.mask = 0

section Blocks
variable {eu eu' : ExecutionUnit (RegionedAbsoluteAddr A)}
  {model : BitModel (RegionedAbsoluteAddr A)} {memory : BitMemory (RegionedAbsoluteAddr A)}
  {b : BlockId} {block : BasicBlock (RegionedAbsoluteAddr A)} {i : Nat} {root : XorRoot}
  {inst : SIRInstruction (RegionedAbsoluteAddr A)}
  {rest : List (SIRInstruction (RegionedAbsoluteAddr A))} {allocation start : Allocation}
  {s s' t : State (RegionedAbsoluteAddr A) (BitMemory (RegionedAbsoluteAddr A))}
  {fourState : Bool}

/-- A root gets the value of its folded chain. -/
theorem RootAt.exec_eq (hv : Verified eu) (hroot : RootAt eu b block i inst root)
    (hexact : root.Exact fourState eu) (hmodel : FourState model)
    (hknown : fourState = false → KnownRuns eu model memory)
    (hpoint : eu.Point model.machine memory b block i s)
    (hexec : eu.execInstruction model.machine s inst = some t) :
    Declared eu.types root.src ∧ ∃ value, s.regs root.src = some value ∧
      t = { s with regs :=
        Function.update s.regs root.dst (some (root.result eu model value)) } := by
  obtain ⟨lhs, rhs, rfl, hl, hr, hbits, -, -⟩ := xorRoot_some hroot.found
  obtain ⟨type, htyped⟩ := hroot.wellTyped hv
  have hleft : eu.Readable b i lhs.dst :=
    hv.readable_use hroot.lookup hroot.get (by simp [SIRInstruction.uses])
  have hright : eu.Readable b i rhs.dst :=
    hv.readable_use hroot.lookup hroot.get (by simp [SIRInstruction.uses])
  obtain ⟨value, hvalue⟩ := hl.source_value hv hpoint hleft
  have hsource : SourceValue fourState type value :=
    ⟨hv.point_fits hpoint _ _ _ htyped.src hvalue, fun hfalse =>
      hknown hfalse b block i s hpoint _ _ hvalue⟩
  refine ⟨⟨type, htyped.src⟩, value, hvalue, ?_⟩
  simp only [ExecutionUnit.execInstruction, lookup_typeOf htyped.dst,
    operand_typeOf hleft.1 (hl.holds hv hpoint hleft hvalue),
    operand_typeOf hright.1 (hr.holds hv hpoint hright hvalue), Option.bind_eq_bind,
    Option.bind_some, Option.pure_def, Option.some.injEq] at hexec
  have hresult : (XorTree.xor root.dst lhs rhs).result eu model value =
      parityOf value (lhs.bits ++ rhs.bits) :=
    xor_result_eq hv hmodel htyped.dst (hl.declared hv hroot.lookup)
      (hr.declared hv hroot.lookup)
  rw [← hbits, ← hexact.result_eq hv htyped hmodel hsource, XorTree.result] at hresult
  rw [← hexec, ← hresult]
  rfl

/-- Folded instructions lead from matching states to matching states. -/
theorem foldXorRoots_exec (hv : Verified eu) (hexact : ExactRoots fourState eu)
    (hmodel : FourState model) (hknown : fourState = false → KnownRuns eu model memory)
    (hext : Extends eu eu') {registerMap : Table RegisterId RegisterType}
    (hshapes : ShapesIn eu.registerMap registerMap) (hbounded : allocation.Bounded)
    (hdeclared : ShapesIn eu.registerMap allocation.registerMap)
    (hmap : ShapesIn (foldXorRoots (blockDefs block.instructions) registerMap
      block.instructions.length rest allocation).2.registerMap eu'.registerMap)
    (hpoint : eu.Point model.machine memory b block i s)
    (hrest : block.instructions.drop i = rest) (hmatch : Matches eu (fun _ => true) s s')
    (hexec : eu.execList model.machine s rest = some t) : ∃ t',
      eu'.execList model.machine s' (foldXorRoots (blockDefs block.instructions) registerMap
        block.instructions.length rest allocation).1 = some t' ∧
      Matches eu (fun _ => true) t t' := by
  induction rest generalizing i s s' with
  | nil =>
    cases hexec
    exact ⟨s', rfl, hmatch⟩
  | cons inst rest ih =>
    obtain ⟨u, hu, hexec⟩ := Option.bind_eq_some_iff.mp hexec
    have hget : block.instructions[i]? = some inst := by
      rw [← List.head?_drop, hrest]
      rfl
    have hnext : block.instructions.drop (i + 1) = rest := by
      rw [← List.tail_drop, hrest]
      rfl
    have hafter : allocation.Before (foldXorRoots (blockDefs block.instructions) registerMap
        block.instructions.length rest allocation).2 := foldXorRoots_before hbounded
    cases hroot : xorRoot (blockDefs block.instructions) registerMap block.instructions.length
        inst with
    | none =>
      rw [foldXorRoots_other hroot] at hmap ⊢
      obtain ⟨u', hu', hmatch'⟩ := hmatch.exec hext (hv.declares hpoint.lookup hget) hu
      obtain ⟨t', ht', hend⟩ := ih hmap (hpoint.next hget hu) hnext hmatch' hexec
      exact ⟨t', by simp only [ExecutionUnit.execList, hu', Option.bind_some, ht'], hend⟩
    | some root =>
      rw [foldXorRoots_root hroot] at hmap ⊢
      have hat : RootAt eu b block i inst root := by
        refine ⟨hpoint.lookup, hget, xorRoot_shapes hshapes ?_ hroot⟩
        obtain ⟨lhs, -, -, hl, -⟩ := xorRoot_some hroot
        obtain ⟨type, htype, -⟩ := hl.bits_lt hv hpoint.lookup
        exact AList.lookup_isSome.mp (by
          rw [show eu.registerMap.lookup root.src = some type from htype]; rfl)
      obtain ⟨type, htyped⟩ := hat.wellTyped hv
      obtain ⟨hsrc, value, hvalue, heq⟩ :=
        hat.exec_eq hv (hexact b block i inst root hat) hmodel hknown hpoint hu
      obtain ⟨u', hu', hdst, hothers, hmemory, htrace⟩ := root.fold_exec model hext
        hafter.bounded (hdeclared.trans hafter.shapes) hmap hsrc htyped.dst
        ((hmatch.regs _ hsrc).trans hvalue)
      have hmatch' : Matches eu (fun _ => true) u u' := by
        refine ⟨fun reg hreg => ?_, ?_, ?_, hmatch.fits.exec hu⟩
        · simp only [heq]
          by_cases hne : reg = root.dst
          · rw [hne, hdst, Function.update_self]
          · rw [hothers reg hreg hne, hmatch.regs reg hreg, Function.update_of_ne hne]
        · rw [hmemory, heq]
          exact hmatch.memory
        · rw [htrace, heq]
          exact hmatch.trace
      obtain ⟨t', ht', hend⟩ := ih ((fold_before (A := A) hafter.bounded).shapes.trans hmap)
        (hpoint.next hget hu) hnext hmatch' hexec
      exact ⟨t', by rw [execList_append, hu', Option.bind_some, ht'], hend⟩

omit [DecidableEq A] in
/-- A register of the unit is defined in a folded block only where it was before. -/
theorem foldXorRoots_defines {registerMap : Table RegisterId RegisterType}
    {defs : RegisterId → Option (SIRInstruction (RegionedAbsoluteAddr A))} {fuel : Nat}
    (hbounded : allocation.Bounded)
    (hdeclared : ShapesIn eu.registerMap allocation.registerMap)
    {inst' : SIRInstruction (RegionedAbsoluteAddr A)}
    (hinst : inst' ∈ (foldXorRoots defs registerMap fuel rest allocation).1) {reg : RegisterId}
    (hreg : inst'.definedRegister = some reg) (hold : Declared eu.types reg) :
    ∃ inst ∈ rest, inst.definedRegister = some reg := by
  induction rest with
  | nil => cases hinst
  | cons inst rest ih =>
    have htail : inst' ∈ (foldXorRoots defs registerMap fuel rest allocation).1 →
        ∃ inst₁ ∈ inst :: rest, inst₁.definedRegister = some reg := fun hmem => by
      obtain ⟨other, hother, hdef⟩ := ih hmem
      exact ⟨other, List.mem_cons_of_mem _ hother, hdef⟩
    cases hroot : xorRoot defs registerMap fuel inst with
    | none =>
      rw [foldXorRoots_other hroot] at hinst
      rcases List.mem_cons.mp hinst with rfl | hmem
      · exact ⟨inst', List.mem_cons_self, hreg⟩
      · exact htail hmem
    | some root =>
      rw [foldXorRoots_root hroot] at hinst
      obtain ⟨lhs, rhs, rfl, -⟩ := xorRoot_some hroot
      rcases List.mem_append.mp hinst with hmem | hmem
      · -- the two new registers are not declared
        have hafter : allocation.Before (foldXorRoots defs registerMap fuel rest allocation).2 :=
          foldXorRoots_before hbounded
        have hmemMap : reg ∈ (foldXorRoots defs registerMap fuel rest
            allocation).2.registerMap := by
          obtain ⟨type, htype⟩ := hold
          exact (hdeclared.trans hafter.shapes).mem (AList.lookup_isSome.mp (by
            rw [show eu.registerMap.lookup reg = some type from htype]; rfl))
        have hle := hafter.bounded reg hmemMap
        simp only [XorRoot.fold, Allocation.push, List.mem_cons, List.not_mem_nil, or_false]
          at hmem
        rcases hmem with rfl | rfl | rfl
        · cases hreg
          exact absurd hle (Nat.not_succ_le_self _)
        · cases hreg
          exact absurd ((Nat.le_succ _).trans hle) (Nat.not_succ_le_self _)
        · exact ⟨_, List.mem_cons_self, hreg⟩
      · exact htail hmem

end Blocks

/-! ## The pass -/

section Pass
variable {eu : ExecutionUnit (RegionedAbsoluteAddr A)}
  {model : BitModel (RegionedAbsoluteAddr A)} {memory : BitMemory (RegionedAbsoluteAddr A)}
  {fourState : Bool}

omit [DecidableEq A] in
/-- Every block is folded with registers that were not declared before. -/
theorem xorFolded_spec (eu : ExecutionUnit (RegionedAbsoluteAddr A)) :
    ShapesIn eu.registerMap (xorFolded eu).registerMap ∧
      ∀ b block, eu.blocks.lookup b = some block → ∃ before : Allocation, before.Bounded ∧
        ShapesIn eu.registerMap before.registerMap ∧
        (xorFolded eu).blocks.lookup b = some (foldXorChains block before).1 ∧
        ShapesIn (foldXorChains block before).2.registerMap (xorFolded eu).registerMap :=
  allocatingPass_spec fun _ _ _ _ hbounded _ => foldXorRoots_before hbounded

omit [DecidableEq A] in
theorem xorFolded_none {b : BlockId} (h : eu.blocks.lookup b = none) :
    (xorFolded eu).blocks.lookup b = none :=
  rewriteBlocks_none h

omit [DecidableEq A] in
theorem xorFolded_redefines (eu : ExecutionUnit (RegionedAbsoluteAddr A)) :
    Redefines eu (xorFolded eu) := by
  have hsource : ∀ b block', (xorFolded eu).blocks.lookup b = some block' → ∃ block,
      eu.blocks.lookup b = some block ∧ ∃ before : Allocation, before.Bounded ∧
        ShapesIn eu.registerMap before.registerMap ∧
        block' = (foldXorChains block before).1 := by
    intro b block' hb'
    cases hb : eu.blocks.lookup b with
    | none =>
      rw [xorFolded_none hb] at hb'
      cases hb'
    | some block =>
      obtain ⟨before, hbounded, hshapes, hlookup, -⟩ := (xorFolded_spec eu).2 b block hb
      rw [hb'] at hlookup
      exact ⟨block, rfl, before, hbounded, hshapes, Option.some.inj hlookup⟩
  constructor
  · intro b block' hb'
    obtain ⟨block, hb, before, -, -, rfl⟩ := hsource b block' hb'
    exact ⟨block, hb, rfl, rfl⟩
  · intro b block' hb' inst' hinst' reg hreg hdeclared
    obtain ⟨block, hb, before, hbounded, hshapes, rfl⟩ := hsource b block' hb'
    exact ⟨block, hb, foldXorRoots_defines hbounded hshapes hinst' hreg hdeclared⟩

/-- The folded unit runs as the unit does. -/
theorem xorFolded_alike (hv : Verified eu) (hexact : ExactRoots fourState eu)
    (hmodel : FourState model) (hknown : fourState = false → KnownRuns eu model memory) :
    EndsAlike model.machine model.machine eu (xorFolded eu) memory
      (Matches eu fun _ => true) := by
  obtain ⟨hshapes, hblocks⟩ := xorFolded_spec eu
  refine BlocksAlike.ends (blocksAlike_of_bodies hv hshapes rfl (fun b block hb => ?_)
    fun b => xorFolded_none) fun _ _ h => h
  obtain ⟨before, hbounded, hdeclared, hlookup, hmap⟩ := hblocks b block hb
  refine ⟨_, hlookup, rfl, rfl, fun s s' t hvisit hmatch hexec => ?_⟩
  exact foldXorRoots_exec hv hexact hmodel hknown hshapes hdeclared hbounded hdeclared hmap
    (point_entered hvisit hb) List.drop_zero hmatch hexec

/-- Folded roots have the values of their chains exactly if all roots are exact, and units with
such roots run as before. -/
theorem xorChainFolding_parity (eu : ExecutionUnit (RegionedAbsoluteAddr A)) (fourState : Bool)
    (hverified : eu.verifyResult = .ok ()) :
    (KeepsRoots fourState eu ↔ ExactRoots fourState eu) ∧
      (ExactRoots fourState eu → ∀ (model : BitModel (RegionedAbsoluteAddr A))
        (memory : BitMemory (RegionedAbsoluteAddr A)), FourState model →
        (fourState = false → KnownRuns eu model memory) →
        EndsAlike model.machine model.machine eu (xorChainFolding eu) memory
          (SameSurviving eu (xorChainFolding eu))) := by
  have hv := (verifyResult_ok_iff eu).mp hverified
  refine ⟨keepsRoots_iff hv fourState, fun hexact model memory hmodel hknown => ?_⟩
  unfold xorChainFolding
  split
  · exact retainUsed_surviving hv (xorFolded_redefines eu)
      (xorFolded_alike hv hexact hmodel hknown)
  · exact EndsAlike.refl fun s => ⟨fun _ _ _ => rfl, rfl, rfl⟩

end Pass

/-! ## Bits of wide and narrow registers -/

def parityBlock (width first second third : Nat) : BasicBlock (RegionedAbsoluteAddr Nat) where
  id := 0
  params := []
  instructions := [.load 0 ⟨STABLE_REGION, 0⟩ (.static 0) width, .slice 1 0 first 1,
    .slice 2 0 second 1, .slice 3 0 third 1, .binary 4 1 .xor 2, .binary 5 4 .xor 3,
    .store ⟨STABLE_REGION, 1⟩ (.static 0) 1 5 [] []]
  terminator := .ret

/-- The parity of three bits of a register. -/
def parityUnit (width first second third : Nat) :
    ExecutionUnit (RegionedAbsoluteAddr Nat) where
  entryBlockId := 0
  blocks := [⟨0, parityBlock width first second third⟩].toAList
  registerMap := [⟨0, .bit width false⟩, ⟨1, .bit 1 false⟩, ⟨2, .bit 1 false⟩, ⟨3, .bit 1 false⟩,
    ⟨4, .bit 1 false⟩, ⟨5, .bit 1 false⟩].toAList

theorem parityUnit_lookup {width first second third : Nat} {b : BlockId}
    {block : BasicBlock (RegionedAbsoluteAddr Nat)}
    (h : (parityUnit width first second third).blocks.lookup b = some block) :
    block = parityBlock width first second third := by
  have hmem := AList.mem_lookup_iff.mp h
  rw [show (parityUnit width first second third).blocks.entries = [_] from rfl,
    List.mem_singleton] at hmem
  cases hmem
  rfl

/-- Bit 64 is not in the mask. -/
theorem parityUnit_drops :
    (parityUnit 65 0 1 64).verifyResult = .ok () ∧ ¬ KeepsRoots false (parityUnit 65 0 1 64) := by
  refine ⟨by decide +kernel, fun hkeeps => ?_⟩
  have hv := (verifyResult_ok_iff (parityUnit 65 0 1 64)).mp (by decide +kernel)
  have hexact := (keepsRoots_iff hv false).mp hkeeps 0 (parityBlock 65 0 1 64) 5
    (.binary 5 4 .xor 3) ⟨5, 0, [0, 1, 64], 65⟩ ⟨rfl, rfl, rfl⟩
  exact absurd ((hexact.odd 64 (by decide)).mpr (by decide)) (by decide)

theorem parityUnit_exact : ExactRoots true (parityUnit 8 0 1 2) := by
  intro b block i inst root hroot
  obtain rfl := parityUnit_lookup hroot.lookup
  have hall : (parityBlock 8 0 1 2).instructions.filterMap
      (xorRoot (blockDefs (parityBlock 8 0 1 2).instructions)
        (parityUnit 8 0 1 2).registerMap (parityBlock 8 0 1 2).instructions.length) =
      [⟨5, 0, [0, 1, 2], 8⟩] := rfl
  have hmem : root ∈ [(⟨5, 0, [0, 1, 2], 8⟩ : XorRoot)] :=
    hall ▸ List.mem_filterMap.mpr ⟨inst, List.mem_of_getElem? hroot.get, hroot.found⟩
  obtain rfl := List.mem_singleton.mp hmem
  exact ⟨by decide, fun _ => ⟨⟨_, rfl, rfl⟩, by decide⟩⟩

theorem xorChainFolding_parity_narrow :
    KeepsRoots true (parityUnit 8 0 1 2) ∧ EndsAlike (fourStateModel Nat).machine
      (fourStateModel Nat).machine (parityUnit 8 0 1 2) (xorChainFolding (parityUnit 8 0 1 2))
      (fun _ _ => (false, false))
      (SameSurviving (parityUnit 8 0 1 2) (xorChainFolding (parityUnit 8 0 1 2))) := by
  obtain ⟨hiff, halike⟩ := xorChainFolding_parity (parityUnit 8 0 1 2) true (by decide +kernel)
  exact ⟨hiff.mpr parityUnit_exact,
    halike parityUnit_exact _ _ (fourStateModel_fourState Nat) nofun⟩

end Celox.Opt
