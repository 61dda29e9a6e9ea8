import Celox.Opt.ConcatFolding

/-! # Runs of adjoining operands

An operand that is recorded as bits of a base holds these bits wherever it can be read. Those of a
run hold adjoining bits, so the run as a whole holds a range of the base. -/
namespace Celox.Opt
open Celox.Sir Celox.Layout

variable {A : Type} {eu : RegionedUnit A}

/-! ## Recorded sources -/

/-- The loads and slices that take a register from bits of a base; `root` is loaded, or the base. -/
inductive Extract (eu : RegionedUnit A) : RegisterId → RegisterId → BitSource A → Prop
  | load {dst : RegisterId} {addr : RegionedAbsoluteAddr A} {off width : Nat} :
    .load dst addr (.static off) width ∈ eu.instructions →
      Extract eu dst dst ⟨.load addr, off, width⟩
  | slice {dst src : RegisterId} {off width : Nat} : .slice dst src off width ∈ eu.instructions →
      Extract eu dst src ⟨.register src, off, width⟩
  | sliced {dst src root : RegisterId} {off width : Nat} {info : BitSource A} :
    .slice dst src off width ∈ eu.instructions → Extract eu src root info →
      Extract eu dst root ⟨info.base, info.bitOffset + off, width⟩

theorem collectExtracts_extract {reg : RegisterId} {info : BitSource A}
    (h : collectExtracts eu reg = some info) : ∃ root, Extract eu reg root info := by
  unfold collectExtracts at h
  refine List.foldlRecOn (motive := fun defs : ExtractDefs A => ∀ reg info, defs reg = some info →
    ∃ root, Extract eu reg root info) eu.instructions recordExtract (fun _ _ h => by cases h)
    (fun defs ih inst hinst reg info h => ?_) reg info h
  have hupdate : ∀ dst source, (∃ root, Extract eu dst root source) →
      Function.update defs dst (some source) reg = some info → ∃ root, Extract eu reg root info := by
    intro dst source hsource h
    by_cases heq : reg = dst
    · subst heq
      rw [Function.update_self] at h
      cases h
      exact hsource
    · rw [Function.update_of_ne heq] at h
      exact ih reg info h
  cases inst with
  | load dst addr offset width =>
    cases offset with
    | static off => exact hupdate _ _ ⟨_, .load hinst⟩ h
    | _ => exact ih reg info h
  | slice dst src off width =>
    unfold recordExtract at h
    simp only at h
    cases hsource : defs src with
    | none =>
      rw [hsource] at h
      exact hupdate _ _ ⟨_, .slice hinst⟩ h
    | some source =>
      rw [hsource] at h
      obtain ⟨root, hextract⟩ := ih src source hsource
      exact hupdate _ _ ⟨root, .sliced hinst hextract⟩ h
  | _ => exact ih reg info h

theorem Extract.width (hv : Verified eu) {reg root : RegisterId} {info : BitSource A}
    (h : Extract eu reg root info) : HasWidth eu.types reg info.width := by
  have htyped : ∀ {inst}, inst ∈ eu.instructions → InstructionTyped eu.types inst := by
    intro inst hinst
    obtain ⟨home, homeBlock, hhome, k, hk⟩ := site_of_mem hinst
    exact (hv.blocks home homeBlock hhome).typed.typed inst (List.mem_of_getElem? hk)
  cases h with
  | load hload => exact (htyped hload).2.1
  | slice hslice | sliced hslice => exact (htyped hslice).2.2.2

/-! ## Bits of a base -/

/-- The bits of a register, or of an object. -/
def SourceBits (s : State (RegionedAbsoluteAddr A) (BitMemory (RegionedAbsoluteAddr A))) :
    BitSourceBase A → (Nat → Bool × Bool) → Prop
  | .register src, bits => ∃ value, s.regs src = some value ∧ bits = value.bit
  | .load addr, bits => bits = s.memory addr

/-- A bit of an object was written since the register was loaded. -/
def LostSince (eu : RegionedUnit A) (root : RegisterId) (base : BitSourceBase A) (bit : Nat)
    (b : BlockId) (i : Nat) : Prop :=
  ∃ addr, base = .load addr ∧ OverwrittenSince eu root addr bit b i

section Holds
variable [DecidableEq A] {model : BitModel (RegionedAbsoluteAddr A)}
  {memory : BitMemory (RegionedAbsoluteAddr A)} {b : BlockId}
  {block : BasicBlock (RegionedAbsoluteAddr A)} {i : Nat}
  {s : State (RegionedAbsoluteAddr A) (BitMemory (RegionedAbsoluteAddr A))}
  {reg root : RegisterId} {info : BitSource A}

/-- A register holds the bits of its base, but for those that may have been written. -/
def HoldsSource (eu : RegionedUnit A) (reg root : RegisterId) (info : BitSource A) (b : BlockId)
    (i : Nat) (s : State (RegionedAbsoluteAddr A) (BitMemory (RegionedAbsoluteAddr A))) : Prop :=
  ∃ bits value, SourceBits s info.base bits ∧ s.regs reg = some value ∧ ∀ j < info.width,
    value.bit j = bits (info.bitOffset + j) ∨ LostSince eu root info.base (info.bitOffset + j) b i

/-- What a slice holds where it can be read. -/
theorem slice_holds (hv : Verified eu) {dst src : RegisterId} {off width : Nat}
    (hslice : .slice dst src off width ∈ eu.instructions)
    (hpoint : eu.Point model.machine memory b block i s) (hread : eu.Readable b i dst) :
    eu.Readable b i src ∧ ∃ whole part, s.regs src = some whole ∧ s.regs dst = some part ∧
      ∀ j < width, part.bit j = whole.bit (off + j) := by
  obtain ⟨home, homeBlock, hhome, k, hk⟩ := site_of_mem hslice
  have havail := hv.readable_site hread hhome hk rfl
  obtain ⟨value, hvalue, hdst⟩ := hv.equation hhome hk rfl rfl hpoint havail
  simp only [ExecutionUnit.value, Option.bind_eq_bind, Option.bind_eq_some_iff, Option.pure_def,
    Option.some.injEq] at hvalue
  obtain ⟨whole, hwhole, rfl⟩ := hvalue
  obtain ⟨-, -, -, type, htype, hwidth⟩ :=
    (hv.blocks home homeBlock hhome).typed.typed _ (List.mem_of_getElem? hk)
  refine ⟨hv.readable_operand (mem_table.mpr ⟨block, hpoint.lookup⟩) hhome hk
    (List.mem_singleton_self src) havail, whole, _, hwhole, hdst, fun j hj => ?_⟩
  rw [kept_bit htype _ (hwidth ▸ hj), evalSlice_bit _ _ hj]

theorem Extract.holds (hv : Verified eu) (h : Extract eu reg root info)
    (hpoint : eu.Point model.machine memory b block i s) (hread : eu.Readable b i reg) :
    HoldsSource eu reg root info b i s := by
  induction h with
  | @load dst addr off width hload =>
    obtain ⟨home, homeBlock, hhome, k, hk⟩ := site_of_mem hload
    obtain ⟨-, value, hvalue, -, hbits⟩ := holdsBits_of_load hv hhome hk (.inl rfl) hpoint
      (hv.readable_site hread hhome hk rfl)
    exact ⟨_, value, rfl, hvalue, fun j hj => (hbits j hj).imp_right fun hover =>
      ⟨addr, rfl, hover⟩⟩
  | slice hslice =>
    obtain ⟨-, whole, part, hwhole, hpart, hbits⟩ := slice_holds hv hslice hpoint hread
    exact ⟨_, part, ⟨whole, hwhole, rfl⟩, hpart, fun j hj => .inl (hbits j hj)⟩
  | @sliced dst src root off width info hslice hextract ih =>
    obtain ⟨hsrc, whole, part, hwhole, hpart, hbits⟩ := slice_holds hv hslice hpoint hread
    obtain ⟨bits, value, hbase, hvalue, hholds⟩ := ih hsrc
    rw [hwhole] at hvalue
    cases hvalue
    refine ⟨bits, part, hbase, hpart, fun j hj => ?_⟩
    obtain ⟨home, homeBlock, hhome, k, hk⟩ := site_of_mem hslice
    obtain ⟨-, -, ⟨type, htype, hwithin⟩, -⟩ :=
      (hv.blocks home homeBlock hhome).typed.typed _ (List.mem_of_getElem? hk)
    obtain ⟨type', htype', hwidth⟩ := hextract.width hv
    rw [htype] at htype'
    cases htype'
    have hj : j < width := hj
    rw [Nat.add_assoc, hbits j hj]
    exact hholds (off + j) (by omega)

end Holds

/-! ## Runs -/

/-- Operands, least significant first, that are recorded as adjoining bits of a base. -/
inductive Contiguous (defs : ExtractDefs A) (base : BitSourceBase A) :
    Nat → List RegisterId → Nat → Prop
  | nil {start : Nat} : Contiguous defs base start [] start
  | cons {start width stop : Nat} {reg : RegisterId} {rest : List RegisterId} :
    defs reg = some ⟨base, start, width⟩ → Contiguous defs base (start + width) rest stop →
      Contiguous defs base start (reg :: rest) stop

section Runs
variable {elementWidths : A → Option Nat} {defs : ExtractDefs A} {base : BitSourceBase A}
  {start width total : Nat} {args taken remaining : List RegisterId}

/-- The operands of a run. -/
def ArgRun.operands (run : ArgRun A) : List RegisterId := run.first :: run.rest

/-- The operands of a run with a source are adjoining bits of it; without one it is one operand. -/
structure ArgRun.Fine (defs : ExtractDefs A) (run : ArgRun A) : Prop where
  source : ∀ info, run.source = some info →
    Contiguous defs info.base info.bitOffset run.operands (info.bitOffset + info.width)
  alone : run.source = none → run.rest = []

variable [DecidableEq A]

theorem extendRun_some
    (h : extendRun elementWidths defs base start width args = some (total, taken, remaining)) :
    args = taken ++ remaining ∧ Contiguous defs base (start + width) taken (start + total) := by
  induction args generalizing width total taken remaining with
  | nil =>
    cases h
    exact ⟨rfl, .nil⟩
  | cons prev rest ih =>
    unfold extendRun at h
    split at h
    · cases h
      exact ⟨rfl, .nil⟩
    · rename_i info hinfo
      split at h
      · rename_i hnext
        simp only [Option.bind_eq_bind, Option.bind_eq_some_iff, Option.pure_def] at h
        obtain ⟨breaks, -, h⟩ := h
        split at h
        · cases h
          exact ⟨rfl, .nil⟩
        · obtain ⟨⟨total', taken', remaining'⟩, hrest, heq⟩ := Option.bind_eq_some_iff.mp h
          cases heq
          obtain ⟨hargs, hrun⟩ := ih hrest
          obtain ⟨base', offset, width'⟩ := info
          obtain ⟨rfl, rfl⟩ := hnext
          refine ⟨by rw [List.cons_append, hargs], .cons hinfo ?_⟩
          rwa [Nat.add_assoc]
      · cases h
        exact ⟨rfl, .nil⟩

theorem argRuns_some {fuel : Nat} {runs : List (ArgRun A)} (hfuel : args.length ≤ fuel)
    (h : argRuns elementWidths defs fuel args = some runs) :
    args = runs.flatMap ArgRun.operands ∧ ∀ run ∈ runs, run.Fine defs := by
  induction fuel generalizing args runs with
  | zero =>
    obtain rfl := List.eq_nil_of_length_eq_zero (Nat.le_zero.mp hfuel)
    cases h
    exact ⟨rfl, fun run hrun => by cases hrun⟩
  | succ fuel ih =>
    cases args with
    | nil =>
      cases h
      exact ⟨rfl, fun run hrun => by cases hrun⟩
    | cons arg rest =>
      rw [List.length_cons] at hfuel
      unfold argRuns at h
      split at h
      · simp only [Option.bind_eq_bind, Option.bind_eq_some_iff, Option.pure_def,
          Option.some.injEq] at h
        obtain ⟨runs', hruns, rfl⟩ := h
        obtain ⟨hargs, hfine⟩ := ih (by omega) hruns
        refine ⟨by rw [List.flatMap_cons, ← hargs]; rfl, List.forall_mem_cons.mpr ⟨?_, hfine⟩⟩
        exact ⟨fun _ h => (by cases h), fun _ => rfl⟩
      · rename_i info hinfo
        simp only [Option.bind_eq_bind, Option.bind_eq_some_iff, Option.pure_def,
          Option.some.injEq] at h
        obtain ⟨⟨width, taken, remaining⟩, hrun, runs', hruns, rfl⟩ := h
        obtain ⟨rfl, htaken⟩ := extendRun_some hrun
        have hle : remaining.length ≤ fuel := by
          rw [List.length_append] at hfuel
          omega
        obtain ⟨hargs, hfine⟩ := ih hle hruns
        refine ⟨by rw [List.flatMap_cons, ← hargs]; rfl, List.forall_mem_cons.mpr ⟨?_, hfine⟩⟩
        refine ⟨fun source hsource => ?_, fun h => by cases h⟩
        cases hsource
        exact .cons hinfo htaken

/-- No element width is zero, so the runs exist. -/
theorem extendRun_total (hwidths : ∀ addr, base = .load addr →
    elementWidths addr.absoluteAddr ≠ some 0) (width : Nat) (args : List RegisterId) :
    ∃ result, extendRun elementWidths defs base start width args = some result := by
  have hbreaks : ∀ combined, ∃ breaks, breaksElement elementWidths base start combined =
      some breaks := by
    intro combined
    unfold breaksElement
    split
    · exact ⟨_, rfl⟩
    · rename_i addr
      split
      · exact ⟨_, rfl⟩
      · rename_i elementWidth hwidth
        have hne : elementWidth ≠ 0 := by
          rintro rfl
          exact hwidths addr rfl hwidth
        simp only [crossesElement, checkedDiv, if_neg hne]
        exact ⟨_, rfl⟩
  induction args generalizing width with
  | nil => exact ⟨_, rfl⟩
  | cons prev rest ih =>
    unfold extendRun
    split
    · exact ⟨_, rfl⟩
    · rename_i info _
      split
      · obtain ⟨breaks, heq⟩ := hbreaks (width + info.width)
        rw [heq]
        simp only [Option.bind_eq_bind, Option.bind_some]
        split
        · exact ⟨_, rfl⟩
        · obtain ⟨⟨total, taken, remaining⟩, hrest⟩ := ih (width + info.width)
          rw [hrest]
          exact ⟨_, rfl⟩
      · exact ⟨_, rfl⟩

theorem argRuns_total (hwidths : ∀ reg info addr, defs reg = some info → info.base = .load addr →
    elementWidths addr.absoluteAddr ≠ some 0) (fuel : Nat) (args : List RegisterId) :
    ∃ runs, argRuns elementWidths defs fuel args = some runs := by
  induction fuel generalizing args with
  | zero => exact ⟨_, rfl⟩
  | succ fuel ih =>
    cases args with
    | nil => exact ⟨_, rfl⟩
    | cons arg rest =>
      unfold argRuns
      split
      · obtain ⟨runs, hruns⟩ := ih rest
        rw [hruns]
        exact ⟨_, rfl⟩
      · rename_i info hinfo
        have hextends : ∃ result, extendRun elementWidths defs info.base info.bitOffset info.width
            rest = some result :=
          extendRun_total (fun addr => hwidths arg info addr hinfo) info.width rest
        obtain ⟨⟨width, taken, remaining⟩, hrun⟩ := hextends
        obtain ⟨runs, hruns⟩ := ih remaining
        simp only [hrun, hruns, Option.bind_eq_bind, Option.bind_some]
        exact ⟨_, rfl⟩

end Runs
end Celox.Opt

/-! ## Concatenations of merged runs

What is inserted for the runs of a concatenation leaves the registers of the unit alone, and the new
operands hold the bits that the old ones held. -/
namespace Celox.Opt
open Celox.Sir Celox.Layout

variable {A : Type} {eu eu' : RegionedUnit A}

/-! ## Bits of several operands -/

section Spell
variable {regs regs' : Registers} {bits : Nat → Bool × Bool} {cursor stop : Nat}
  {args args' : List RegisterId}

theorem spells_split (h : Spells eu regs bits cursor (args ++ args') stop) :
    ∃ middle, Spells eu regs bits cursor args middle ∧ Spells eu regs bits middle args' stop := by
  induction args generalizing cursor with
  | nil => exact ⟨cursor, .nil, h⟩
  | cons arg args ih =>
    cases h with
    | cons htype hvalue hfits hbits hrest =>
      obtain ⟨middle, hfirst, hsecond⟩ := ih hrest
      exact ⟨middle, .cons htype hvalue hfits hbits hfirst, hsecond⟩

/-- A unit with more registers has them spell the same. -/
theorem spells_extends (hext : Extends eu eu') (hregs : RegsAgree eu regs regs')
    (h : Spells eu regs bits cursor args stop) : Spells eu' regs' bits cursor args stop := by
  induction h with
  | nil => exact .nil
  | @cons cursor stop reg type value rest htype hvalue hfits hbits _ ih =>
    obtain ⟨type', htype', hshape⟩ := hext reg type htype
    have hwidth : type'.width = type.width := congrArg RegisterShape.width hshape
    rw [← hwidth] at hfits hbits ih
    exact .cons htype' ((hregs reg ⟨type, htype⟩).trans hvalue) hfits hbits ih

/-- An operand has the bits that are recorded for it. -/
def HasBits (eu : RegionedUnit A) (regs : Registers) (source : Nat → Bool × Bool)
    (reg : RegisterId) (info : BitSource A) : Prop :=
  HasWidth eu.types reg info.width ∧ ∀ value, regs reg = some value → ∀ j < info.width,
    value.bit j = source (info.bitOffset + j)

/-- What adjoining operands spell is a range of their base. -/
theorem Contiguous.spells {defs : ExtractDefs A} {base : BitSourceBase A} {start last : Nat}
    {source : Nat → Bool × Bool} (hrun : Contiguous defs base start args last)
    (hspells : Spells eu regs bits cursor args stop)
    (hholds : ∀ reg ∈ args, ∀ info, defs reg = some info → HasBits eu regs source reg info) :
    ∃ width, last = start + width ∧ stop = cursor + width ∧
      ∀ j < width, bits (cursor + j) = source (start + j) := by
  induction hrun generalizing cursor with
  | nil =>
    cases hspells
    exact ⟨0, rfl, rfl, fun j hj => by omega⟩
  | @cons start width last reg rest hinfo _ ih =>
    cases hspells with
    | @cons _ _ _ type value _ htype hvalue _ hbits hrest =>
      obtain ⟨⟨type', htype', hwidth⟩, hsource⟩ := hholds reg List.mem_cons_self _ hinfo
      rw [htype] at htype'
      cases htype'
      change type.width = width at hwidth
      subst hwidth
      obtain ⟨more, rfl, rfl, hmore⟩ := ih hrest fun reg hreg =>
        hholds reg (List.mem_cons_of_mem _ hreg)
      refine ⟨type.width + more, by omega, by omega, fun j hj => ?_⟩
      by_cases hlt : j < type.width
      · rw [← hbits j hlt]
        exact hsource value hvalue j hlt
      · have hback := hmore (j - type.width) (by omega)
        rwa [show cursor + type.width + (j - type.width) = cursor + j by omega,
          show start + type.width + (j - type.width) = start + j by omega] at hback

end Spell

/-! ## Runs -/

section Runs
variable {elementWidths : A → Option Nat} {maxLoadWidth : Nat} {run : ArgRun A}
  {runs : List (ArgRun A)} {allocation after : Allocation} {newReg newArg : RegisterId}
  {newArgs : List RegisterId} {inst : SIRInstruction (RegionedAbsoluteAddr A)}
  {inserted : List (SIRInstruction (RegionedAbsoluteAddr A))} {info : BitSource A}

theorem merges_iff : run.merges maxLoadWidth = true ↔
    ∃ info, run.source = some info ∧ run.rest ≠ [] ∧ info.width ≤ maxLoadWidth := by
  unfold ArgRun.merges
  rw [Option.any_eq_true]
  exact exists_congr fun info => by simp

/-- A run is merged into a new register, or stands for its first operand. -/
theorem foldRun_some
    (h : foldRun elementWidths maxLoadWidth run allocation = some (newArg, inserted, after)) :
    (∃ info inst, run.source = some info ∧ run.merges maxLoadWidth = true ∧
        newArg = (allocation.push (.bit info.width false)).1 ∧
        after = (allocation.push (.bit info.width false)).2 ∧ inserted = [inst] ∧
        foldedInstruction elementWidths newArg info = some inst) ∨
      run.merges maxLoadWidth = false ∧ newArg = run.first ∧ inserted = [] ∧
        after = allocation := by
  unfold foldRun at h
  split at h
  · rename_i info hinfo
    split at h
    · rename_i hmerges
      simp only [Option.bind_eq_bind, Option.bind_eq_some_iff, Option.pure_def,
        Option.some.injEq] at h
      obtain ⟨inst, hinst, heq⟩ := h
      cases heq
      exact .inl ⟨info, inst, hinfo, merges_iff.mpr ⟨info, hinfo, hmerges⟩, rfl, rfl, rfl, hinst⟩
    · rename_i hmerges
      cases h
      refine .inr ⟨?_, rfl, rfl, rfl⟩
      rw [Bool.eq_false_iff, Ne, merges_iff]
      rintro ⟨info', hinfo', hall⟩
      rw [hinfo] at hinfo'
      cases hinfo'
      exact hmerges hall
  · rename_i hnone
    cases h
    refine .inr ⟨?_, rfl, rfl, rfl⟩
    rw [Bool.eq_false_iff, Ne, merges_iff, hnone]
    rintro ⟨_, h, -⟩
    cases h

theorem foldRuns_cons (h : foldRuns elementWidths maxLoadWidth (run :: runs) allocation =
    some (newArgs, inserted, after)) :
    ∃ newArg first middle rest restInserted, newArgs = newArg :: rest ∧
      inserted = first ++ restInserted ∧
      foldRun elementWidths maxLoadWidth run allocation = some (newArg, first, middle) ∧
      foldRuns elementWidths maxLoadWidth runs middle = some (rest, restInserted, after) := by
  simp only [foldRuns, Option.bind_eq_bind, Option.bind_eq_some_iff, Option.pure_def,
    Option.some.injEq] at h
  obtain ⟨⟨newArg, first, middle⟩, hrun, ⟨rest, restInserted, last⟩, hruns, heq⟩ := h
  cases heq
  exact ⟨newArg, first, middle, rest, restInserted, rfl, rfl, hrun, hruns⟩

theorem foldRun_before (hbounded : allocation.Bounded)
    (h : foldRun elementWidths maxLoadWidth run allocation = some (newArg, inserted, after)) :
    allocation.Before after := by
  rcases foldRun_some h with ⟨info, inst, -, -, -, rfl, -⟩ | ⟨-, -, -, rfl⟩
  · exact push_before hbounded
  · exact .refl hbounded

theorem foldRuns_before (hbounded : allocation.Bounded)
    (h : foldRuns elementWidths maxLoadWidth runs allocation = some (newArgs, inserted, after)) :
    allocation.Before after := by
  induction runs generalizing allocation newArgs inserted with
  | nil =>
    cases h
    exact .refl hbounded
  | cons run runs ih =>
    obtain ⟨newArg, first, middle, rest, restInserted, -, -, hrun, hruns⟩ := foldRuns_cons h
    have hfirst := foldRun_before hbounded hrun
    exact hfirst.trans (ih hfirst.bounded hruns)

theorem foldedInstruction_defines (h : foldedInstruction elementWidths newReg info = some inst) :
    inst.definedRegister = some newReg := by
  unfold foldedInstruction at h
  split at h
  · cases h
    rfl
  · split at h
    · cases h
      rfl
    · simp only [Option.bind_eq_bind, Option.bind_eq_some_iff, Option.pure_def,
        Option.some.injEq] at h
      obtain ⟨_, -, _, -, rfl⟩ := h
      rfl

theorem foldedInstruction_not_concat {dst : RegisterId} {args : List RegisterId} :
    foldedInstruction elementWidths newReg info ≠
      some (.concat dst args : SIRInstruction (RegionedAbsoluteAddr A)) := by
  unfold foldedInstruction
  split
  · rintro ⟨⟩
  · split
    · rintro ⟨⟩
    · simp only [Option.bind_eq_bind, Option.pure_def]
      intro h
      obtain ⟨_, -, h⟩ := Option.bind_eq_some_iff.mp h
      obtain ⟨_, -, h⟩ := Option.bind_eq_some_iff.mp h
      cases h

theorem foldedInstruction_total
    (hwidths : ∀ addr, info.base = .load addr → elementWidths addr.absoluteAddr ≠ some 0)
    (newReg : RegisterId) : ∃ inst, foldedInstruction elementWidths newReg info = some inst := by
  unfold foldedInstruction
  split
  · exact ⟨_, rfl⟩
  · rename_i addr haddr
    split
    · exact ⟨_, rfl⟩
    · rename_i elementWidth hwidth
      have hne : elementWidth ≠ 0 := by
        rintro rfl
        exact hwidths addr haddr hwidth
      simp only [checkedDiv, if_neg hne]
      exact ⟨_, rfl⟩

/-- What is inserted takes a range into a register that was not declared before. -/
theorem foldRuns_inserted (hbounded : allocation.Bounded)
    (h : foldRuns elementWidths maxLoadWidth runs allocation = some (newArgs, inserted, after))
    (hinst : inst ∈ inserted) : ∃ newReg info, newReg ∉ allocation.registerMap ∧
      foldedInstruction elementWidths newReg info = some inst := by
  induction runs generalizing allocation newArgs inserted with
  | nil =>
    cases h
    cases hinst
  | cons run runs ih =>
    obtain ⟨newArg, first, middle, rest, restInserted, -, rfl, hrun, hruns⟩ := foldRuns_cons h
    have hfirst := foldRun_before hbounded hrun
    rcases List.mem_append.mp hinst with hmem | hmem
    · rcases foldRun_some hrun with ⟨info, inst', -, -, rfl, -, rfl, hfolded⟩ | ⟨-, -, rfl, -⟩
      · obtain rfl := List.mem_singleton.mp hmem
        exact ⟨_, info, push_fresh hbounded, hfolded⟩
      · cases hmem
    · obtain ⟨newReg, info, hnew, hfolded⟩ := ih hfirst.bounded hruns hmem
      exact ⟨newReg, info, fun hdeclared => hnew (hfirst.shapes.mem hdeclared), hfolded⟩

end Runs

/-! ## Execution -/

section Execute
variable [DecidableEq A] {model : BitModel (RegionedAbsoluteAddr A)}
  {elementWidths : A → Option Nat} {maxLoadWidth : Nat} {defs : ExtractDefs A} {run : ArgRun A}
  {runs : List (ArgRun A)} {allocation after : Allocation} {newReg newArg : RegisterId}
  {newArgs : List RegisterId} {inst : SIRInstruction (RegionedAbsoluteAddr A)}
  {inserted : List (SIRInstruction (RegionedAbsoluteAddr A))} {info : BitSource A}
  {s u : State (RegionedAbsoluteAddr A) (BitMemory (RegionedAbsoluteAddr A))}
  {bits source : Nat → Bool × Bool} {cursor middle stop : Nat}

/-- A slice or load of a range gives its bits. -/
theorem foldedInstruction_exec
    (h : foldedInstruction elementWidths newReg info = some inst)
    (hsource : SourceBits s info.base source) :
    ∃ value, eu.execInstruction model.machine s inst = some (eu.assign s newReg value) ∧
      ∀ j < info.width, value.bit j = source (info.bitOffset + j) := by
  obtain ⟨base, offset, width⟩ := info
  cases base with
  | register src =>
    cases h
    obtain ⟨value, hvalue, rfl⟩ := hsource
    refine ⟨evalSlice value offset width, ?_, fun j hj => evalSlice_bit value offset hj⟩
    simp only [ExecutionUnit.execInstruction, hvalue, Option.bind_eq_bind, Option.bind_some,
      Option.pure_def]
  | load addr =>
    obtain rfl : source = s.memory addr := hsource
    have hload : ∃ constant, inst = .load newReg addr constant width ∧ (constant = .static offset ∨
        ∃ elementWidth, constant = .packedElements offset elementWidth) := by
      unfold foldedInstruction at h
      simp only at h
      cases hwidths : elementWidths addr.absoluteAddr with
      | none =>
        rw [hwidths] at h
        cases h
        exact ⟨_, rfl, .inl rfl⟩
      | some elementWidth =>
        rw [hwidths] at h
        simp only [Option.bind_eq_bind, Option.bind_eq_some_iff, Option.pure_def,
          Option.some.injEq] at h
        obtain ⟨first, -, last, -, rfl⟩ := h
        by_cases hne : first = last
        · exact ⟨_, rfl, .inl (if_neg (not_not.mpr hne))⟩
        · exact ⟨_, rfl, .inr ⟨elementWidth, if_pos hne⟩⟩
    obtain ⟨constant, rfl, hconstant⟩ := hload
    refine ⟨readBits s.memory addr offset width, ?_, fun j hj => readBits_bit _ _ _ hj⟩
    rcases hconstant with rfl | ⟨elementWidth, rfl⟩ <;>
      simp only [ExecutionUnit.execInstruction, SIROffset.resolve, Option.bind_eq_bind,
        Option.bind_some, Option.pure_def, BitModel.machine, BitModel.load, model.start_static,
        model.start_packed]

/-- The operands of a merged run have the bits of its source. -/
def ArgRun.Holds (eu : RegionedUnit A) (defs : ExtractDefs A) (run : ArgRun A)
    (s : State (RegionedAbsoluteAddr A) (BitMemory (RegionedAbsoluteAddr A))) : Prop :=
  ∀ info, run.source = some info → (∀ src, info.base = .register src → Declared eu.types src) ∧
    ∃ source, SourceBits s info.base source ∧
      ∀ reg ∈ run.operands, ∀ info', defs reg = some info' → HasBits eu s.regs source reg info'

/-- States that differ in registers behind an allocation alone. -/
structure SameBelow (allocation : Allocation)
    (s t : State (RegionedAbsoluteAddr A) (BitMemory (RegionedAbsoluteAddr A))) : Prop where
  regs : ∀ reg ∈ allocation.registerMap, t.regs reg = s.regs reg
  memory : t.memory = s.memory
  trace : t.trace = s.trace

omit [DecidableEq A] in
theorem SameBelow.refl (allocation : Allocation)
    (s : State (RegionedAbsoluteAddr A) (BitMemory (RegionedAbsoluteAddr A))) :
    SameBelow allocation s s :=
  ⟨fun _ _ => rfl, rfl, rfl⟩

omit [DecidableEq A] in
theorem SameBelow.agree (h : SameBelow allocation s u)
    (hdeclared : ShapesIn eu.registerMap allocation.registerMap) : RegsAgree eu s.regs u.regs := by
  rintro reg ⟨type, htype⟩
  obtain ⟨type', htype', -⟩ := hdeclared reg type htype
  exact h.regs reg (AList.lookup_isSome.mp (by rw [htype']; rfl))

omit [DecidableEq A] in
theorem SourceBits.agree {base : BitSourceBase A} (h : SourceBits s base source)
    (hdeclared : ∀ src, base = .register src → Declared eu.types src)
    (hregs : RegsAgree eu s.regs u.regs) (hmemory : u.memory = s.memory) :
    SourceBits u base source := by
  cases base with
  | register src =>
    obtain ⟨value, hvalue, hbits⟩ := h
    exact ⟨value, (hregs src (hdeclared src rfl)).trans hvalue, hbits⟩
  | load addr => exact h.trans (by rw [hmemory])

variable (hmap : ShapesIn after.registerMap eu'.registerMap)
  (hbounded : allocation.Bounded) (hdeclared : ShapesIn eu.registerMap allocation.registerMap)
  (hregs : RegsAgree eu s.regs u.regs) (hmemory : u.memory = s.memory)
include hmap hbounded hdeclared hregs hmemory

theorem foldRun_exec
    (hfold : foldRun elementWidths maxLoadWidth run allocation = some (newArg, inserted, after))
    (hfine : run.Fine defs) (hholds : run.merges maxLoadWidth = true → run.Holds eu defs s)
    (halone : run.merges maxLoadWidth = false → run.rest = [])
    (hspells : Spells eu s.regs bits cursor run.operands stop) :
    ∃ t, eu'.execList model.machine u inserted = some t ∧ SameBelow allocation u t ∧
      Spells eu' t.regs bits cursor [newArg] stop ∧ newArg ∈ after.registerMap := by
  rcases foldRun_some hfold with
    ⟨info, inst, hinfo, hmerges, hnew, hafter, rfl, hfolded⟩ | ⟨hmerges, rfl, rfl, rfl⟩
  · obtain ⟨hbase, source, hsource, hbits⟩ := hholds hmerges info hinfo
    obtain ⟨width, hlast, rfl, hrange⟩ := (hfine.source info hinfo).spells hspells hbits
    obtain rfl := Nat.add_left_cancel hlast
    obtain ⟨value, hexec, hvalue⟩ := foldedInstruction_exec hfolded
      (hsource.agree hbase hregs hmemory)
    have hlookup : after.registerMap.lookup newArg = some (.bit info.width false) := by
      rw [hafter, hnew]
      exact push_type
    obtain ⟨type, htype, hshape⟩ := hmap newArg _ hlookup
    have hwidth : type.width = info.width := congrArg RegisterShape.width hshape
    refine ⟨eu'.assign u newArg value, by rw [execList_singleton, hexec], ⟨fun reg hreg => ?_, rfl,
      rfl⟩, ?_, AList.lookup_isSome.mp (by rw [hlookup]; rfl)⟩
    · refine Function.update_of_ne ?_ _ _
      rintro rfl
      exact push_fresh hbounded (hnew ▸ hreg)
    · refine .cons htype (Function.update_self _ _ _) (kept_fits htype value) (fun j hj => ?_)
        (hwidth ▸ .nil)
      rw [kept_bit htype value hj, hvalue j (hwidth ▸ hj), hrange j (hwidth ▸ hj)]
  · have hfirst : run.operands = [run.first] := by rw [ArgRun.operands, halone hmerges]
    rw [hfirst] at hspells
    have hmem : run.first ∈ after.registerMap := by
      cases hspells with
      | cons htype _ _ _ _ => exact hdeclared.mem (AList.lookup_isSome.mp (by
          rw [show eu.registerMap.lookup run.first = _ from htype]; rfl))
    exact ⟨u, rfl, .refl _ u, spells_extends (hdeclared.trans hmap) hregs hspells, hmem⟩

/-- The new operands hold the bits that the operands of all runs held. -/
theorem foldRuns_exec
    (hfold : foldRuns elementWidths maxLoadWidth runs allocation = some (newArgs, inserted, after))
    (hfine : ∀ run ∈ runs, run.Fine defs)
    (hholds : ∀ run ∈ runs, run.merges maxLoadWidth = true → run.Holds eu defs s)
    (halone : ∀ run ∈ runs, run.merges maxLoadWidth = false → run.rest = [])
    (hspells : Spells eu s.regs bits cursor (runs.flatMap ArgRun.operands) stop) :
    ∃ t, eu'.execList model.machine u inserted = some t ∧ SameBelow allocation u t ∧
      Spells eu' t.regs bits cursor newArgs stop := by
  induction runs generalizing allocation newArgs inserted u cursor with
  | nil =>
    cases hfold
    cases hspells
    exact ⟨u, rfl, .refl _ u, .nil⟩
  | cons run runs ih =>
    obtain ⟨newArg, first, next, rest, restInserted, rfl, rfl, hrun, hruns⟩ := foldRuns_cons hfold
    obtain ⟨middle, hfirst, hrest⟩ := spells_split hspells
    obtain ⟨hfineRun, hfine⟩ := List.forall_mem_cons.mp hfine
    obtain ⟨hholdsRun, hholds⟩ := List.forall_mem_cons.mp hholds
    obtain ⟨haloneRun, halone⟩ := List.forall_mem_cons.mp halone
    have hbefore := foldRun_before hbounded hrun
    have hafter := foldRuns_before hbefore.bounded hruns
    obtain ⟨v, hexec, hsame, hspell, hnew⟩ := foldRun_exec (hafter.shapes.trans hmap) hbounded
      hdeclared hregs hmemory hrun hfineRun hholdsRun haloneRun hfirst
    have hagree : RegsAgree eu s.regs v.regs := fun reg hreg =>
      (hsame.agree hdeclared reg hreg).trans (hregs reg hreg)
    obtain ⟨t, hexec', hsame', hspells'⟩ := ih hbefore.bounded (hdeclared.trans hbefore.shapes)
      hagree (hsame.memory.trans hmemory) hruns hfine hholds halone hrest
    refine ⟨t, ?_, ⟨fun reg hreg => ?_, hsame'.memory.trans hsame.memory,
      hsame'.trace.trans hsame.trace⟩, ?_⟩
    · rw [execList_append, hexec, Option.bind_some, hexec']
    · rw [hsame'.regs reg (hbefore.shapes.mem hreg), hsame.regs reg hreg]
    · refine Spells.append (hspell.congr fun reg hreg => ?_) hspells'
      obtain rfl := List.mem_singleton.mp hreg
      exact hsame'.regs reg hnew

end Execute
end Celox.Opt
