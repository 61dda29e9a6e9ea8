import Celox.Opt.ConcatRuns
import Celox.Opt.Surviving

/-! # Concatenations keep their values

The folded unit runs as the unit does if, in every concatenation that is folded, all runs of several
operands are merged, and none of the loaded bits is written between the loads and the
concatenation. -/
namespace Celox.Opt
open Celox.Sir Celox.Layout

variable {A : Type} [DecidableEq A]

/-! ## Where folding is right -/

section Well
variable (elementWidths : A → Option Nat) (maxLoadWidth : Nat) (eu : RegionedUnit A)

/-- The runs of the operands of a concatenation. -/
def argRunsOf (args : List RegisterId) : Option (List (ArgRun A)) :=
  argRuns elementWidths (collectExtracts eu) args.length args.reverse

/-- An operand has what is in its source at a position of a block. -/
def UpToDate (b : BlockId) (i : Nat) (reg : RegisterId) : Prop :=
  ∀ info root, collectExtracts eu reg = some info → Extract eu reg root info →
    ∀ j < info.width, ¬ LostSince eu root info.base (info.bitOffset + j) b i

structure FoldsWell : Prop where
  elements : ∀ dst addr off width, .load dst addr (.static off) width ∈ eu.instructions →
    elementWidths addr.absoluteAddr ≠ some 0
  /-- Where a run is merged, no run is too wide. -/
  complete : ∀ dst args runs, .concat dst args ∈ eu.instructions → 3 ≤ args.length →
    argRunsOf elementWidths eu args = some runs → runs.any (ArgRun.merges maxLoadWidth) = true →
      ∀ run ∈ runs, run.rest ≠ [] → run.merges maxLoadWidth = true
  /-- Nothing is stored to between the loads of a merged run and the concatenation. -/
  current : ∀ b block (i : Nat) dst args runs, eu.blocks.lookup b = some block →
    block.instructions[i]? = some (.concat dst args) → 3 ≤ args.length →
      argRunsOf elementWidths eu args = some runs → ∀ run ∈ runs, run.merges maxLoadWidth = true →
        ∀ reg ∈ run.operands, UpToDate eu b i reg

end Well

section Sources
variable {eu : RegionedUnit A} {reg root : RegisterId} {info : BitSource A}

omit [DecidableEq A] in
theorem Extract.declared (hv : Verified eu) (h : Extract eu reg root info) {src : RegisterId}
    (hsrc : info.base = .register src) : Declared eu.types src := by
  induction h with
  | load => cases hsrc
  | slice hslice =>
    cases hsrc
    obtain ⟨home, homeBlock, hhome, k, hk⟩ := site_of_mem hslice
    exact (hv.readable_use hhome hk List.mem_cons_self).1
  | sliced _ _ ih => exact ih hsrc

omit [DecidableEq A] in
theorem Extract.loaded (h : Extract eu reg root info) {addr : RegionedAbsoluteAddr A}
    (haddr : info.base = .load addr) :
    ∃ dst off width, .load dst addr (.static off) width ∈ eu.instructions := by
  induction h with
  | load hload =>
    cases haddr
    exact ⟨_, _, _, hload⟩
  | slice => cases haddr
  | sliced _ _ ih => exact ih haddr

omit [DecidableEq A] in
/-- The operands of a run are recorded as bits of its base. -/
theorem Contiguous.recorded {defs : ExtractDefs A} {base : BitSourceBase A} {start stop : Nat}
    {args : List RegisterId} (h : Contiguous defs base start args stop) (hreg : reg ∈ args) :
    ∃ info, defs reg = some info ∧ info.base = base := by
  induction h with
  | nil => cases hreg
  | cons hhead _ ih =>
    rcases List.mem_cons.mp hreg with rfl | hreg
    · exact ⟨_, hhead, rfl⟩
    · exact ih hreg

omit [DecidableEq A] in
theorem SourceBits.unique
    {s : State (RegionedAbsoluteAddr A) (BitMemory (RegionedAbsoluteAddr A))}
    {base : BitSourceBase A} {bits bits' : Nat → Bool × Bool} (h : SourceBits s base bits)
    (h' : SourceBits s base bits') : bits = bits' := by
  cases base with
  | register src =>
    obtain ⟨value, hvalue, rfl⟩ := h
    obtain ⟨value', hvalue', rfl⟩ := h'
    rw [hvalue] at hvalue'
    cases hvalue'
    rfl
  | load addr => exact h.trans h'.symm

end Sources

/-! ## A concatenation -/

section Concat
variable {eu eu' : RegionedUnit A} {elementWidths : A → Option Nat} {maxLoadWidth : Nat}
  {model : BitModel (RegionedAbsoluteAddr A)} {memory : BitMemory (RegionedAbsoluteAddr A)}
  {b : BlockId} {block : BasicBlock (RegionedAbsoluteAddr A)} {i : Nat}
  {s s' t : State (RegionedAbsoluteAddr A) (BitMemory (RegionedAbsoluteAddr A))}
  {inst : SIRInstruction (RegionedAbsoluteAddr A)}
  {first : List (SIRInstruction (RegionedAbsoluteAddr A))} {allocation after : Allocation}

/-- The operands of a run that is up to date have the bits of its source. -/
theorem run_holds (hv : Verified eu) (hpoint : eu.Point model.machine memory b block i s)
    {run : ArgRun A} (hfine : run.Fine (collectExtracts eu))
    (hread : ∀ reg ∈ run.operands, eu.Readable b i reg)
    (hcurrent : ∀ reg ∈ run.operands, UpToDate eu b i reg) :
    run.Holds eu (collectExtracts eu) s := by
  have hbits : ∀ reg ∈ run.operands, ∀ info, collectExtracts eu reg = some info →
      ∃ source, SourceBits s info.base source ∧ HasBits eu s.regs source reg info := by
    intro reg hreg info hinfo
    obtain ⟨root, hextract⟩ := collectExtracts_extract hinfo
    obtain ⟨source, value, hsource, hvalue, hbits⟩ := hextract.holds hv hpoint (hread reg hreg)
    refine ⟨source, hsource, hextract.width hv, fun value' hvalue' j hj => ?_⟩
    rw [hvalue] at hvalue'
    cases hvalue'
    exact (hbits j hj).resolve_right (hcurrent reg hreg info root hinfo hextract j hj)
  intro info hinfo
  have hrun := hfine.source info hinfo
  obtain ⟨firstInfo, hfirst, hbase⟩ := hrun.recorded List.mem_cons_self
  obtain ⟨source, hsource, -⟩ := hbits run.first List.mem_cons_self firstInfo hfirst
  rw [hbase] at hsource
  refine ⟨fun src hsrc => ?_, source, hsource, fun reg hreg info' hinfo' => ?_⟩
  · obtain ⟨root, hextract⟩ := collectExtracts_extract hfirst
    exact hextract.declared hv (hbase.trans hsrc)
  · obtain ⟨recorded, hrecorded, hsame⟩ := hrun.recorded hreg
    rw [hinfo'] at hrecorded
    cases hrecorded
    obtain ⟨source', hsource', hhas⟩ := hbits reg hreg info' hinfo'
    rw [hsame] at hsource'
    rwa [hsource.unique hsource']

/-- An instruction stays, or is a concatenation with merged runs. -/
theorem foldConcat_some
    (h : foldConcat elementWidths maxLoadWidth (collectExtracts eu) inst allocation =
      some (first, after)) :
    first = [inst] ∧ after = allocation ∨
      ∃ dst args runs newArgs inserted, inst = .concat dst args ∧ 3 ≤ args.length ∧
        argRunsOf elementWidths eu args = some runs ∧
        runs.any (ArgRun.merges maxLoadWidth) = true ∧
        foldRuns elementWidths maxLoadWidth runs allocation = some (newArgs, inserted, after) ∧
        first = inserted ++ [.concat dst newArgs.reverse] := by
  unfold foldConcat at h
  split at h
  · rename_i dst args
    split at h
    · cases h
      exact .inl ⟨rfl, rfl⟩
    · rename_i hlength
      simp only [Option.bind_eq_bind, Option.bind_eq_some_iff, Option.pure_def,
        Option.some.injEq] at h
      obtain ⟨runs, hruns, ⟨newArgs, inserted, last⟩, hfold, heq⟩ := h
      split at heq
      · rename_i hany
        cases heq
        exact .inr ⟨dst, args, runs, newArgs, inserted, rfl, Nat.not_lt.mp hlength, hruns, hany,
          hfold, rfl⟩
      · cases heq
        exact .inl ⟨rfl, rfl⟩
  · cases h
    exact .inl ⟨rfl, rfl⟩

theorem foldConcat_before (hbounded : allocation.Bounded)
    (h : foldConcat elementWidths maxLoadWidth (collectExtracts eu) inst allocation =
      some (first, after)) : allocation.Before after := by
  rcases foldConcat_some h with ⟨-, rfl⟩ | ⟨_, _, _, _, _, -, -, -, -, hfold, -⟩
  · exact .refl hbounded
  · exact foldRuns_before hbounded hfold

/-- What stands for an instruction does what the instruction did. -/
theorem foldConcat_exec (hv : Verified eu) (hwell : FoldsWell elementWidths maxLoadWidth eu)
    (hext : Extends eu eu') (hmap : ShapesIn after.registerMap eu'.registerMap)
    (hbounded : allocation.Bounded) (hdeclared : ShapesIn eu.registerMap allocation.registerMap)
    (hfold : foldConcat elementWidths maxLoadWidth (collectExtracts eu) inst allocation =
      some (first, after))
    (hpoint : eu.Point model.machine memory b block i s) (hi : block.instructions[i]? = some inst)
    (hmatch : Matches eu (fun _ => true) s s')
    (hexec : eu.execInstruction model.machine s inst = some t) :
    ∃ t', eu'.execList model.machine s' first = some t' ∧ Matches eu (fun _ => true) t t' := by
  rcases foldConcat_some hfold with
    ⟨rfl, rfl⟩ | ⟨dst, args, runs, newArgs, inserted, rfl, hlength, hruns, hany, hfolded, rfl⟩
  · rw [execList_singleton]
    exact hmatch.exec hext (hv.declares hpoint.lookup hi) hexec
  · have hinst : SIRInstruction.concat dst args ∈ eu.instructions :=
      List.mem_flatMap.mpr ⟨⟨b, block⟩, AList.mem_lookup_iff.mp hpoint.lookup,
        List.mem_of_getElem? hi⟩
    obtain ⟨hargs, hfine⟩ := argRuns_some (List.length_reverse.le) hruns
    have hread : ∀ run ∈ runs, ∀ reg ∈ run.operands, eu.Readable b i reg := by
      intro run hrun reg hreg
      refine hv.readable_use hpoint.lookup hi (List.mem_reverse.mp ?_)
      rw [show (SIRInstruction.concat (A := RegionedAbsoluteAddr A) dst args).uses = args from rfl,
        hargs]
      exact List.mem_flatMap.mpr ⟨run, hrun, hreg⟩
    simp only [ExecutionUnit.execInstruction, Option.bind_eq_bind, Option.bind_eq_some_iff,
      Option.pure_def, Option.some.injEq] at hexec
    obtain ⟨values, hvalues, rfl⟩ := hexec
    obtain ⟨bits, stop, hspells⟩ := spells_of_operands hmatch.fits (mapM_reverse hvalues) 0
    obtain ⟨_, hsame, hfits, hbits⟩ := hspells.concat
    rw [mapM_reverse hvalues] at hsame
    cases hsame
    rw [List.reverse_reverse] at hfits hbits
    rw [hargs] at hspells
    obtain ⟨u, hinserted, hbelow, hspells'⟩ := foldRuns_exec hmap hbounded
      hdeclared hmatch.regs hmatch.memory hfolded hfine
      (fun run hrun hmerges => run_holds hv hpoint (hfine run hrun) (hread run hrun)
        (hwell.current b block i dst args runs hpoint.lookup hi hlength hruns run hrun hmerges))
      (fun run hrun hmerges => by
        by_contra hrest
        rw [hwell.complete dst args runs hinst hlength hruns hany run hrun hrest] at hmerges
        cases hmerges) hspells
    obtain ⟨values', hvalues', hfits', hbits'⟩ := hspells'.concat
    have hconcat : evalConcat values'.reverse = evalConcat values :=
      value_ext hfits' hfits fun j hj => (hbits' j hj).trans (hbits j hj).symm
    refine ⟨eu'.assign u dst (evalConcat values), ?_, ?_⟩
    · rw [execList_append, hinserted, Option.bind_some, execList_singleton]
      simp only [ExecutionUnit.execInstruction, mapM_reverse hvalues', hconcat,
        Option.bind_eq_bind, Option.bind_some, Option.pure_def]
    · have hagree : RegsAgree eu s.regs u.regs := fun reg hreg =>
        (hbelow.agree hdeclared reg hreg).trans (hmatch.regs reg hreg)
      have hdst : Declared eu.types dst := hv.declares hpoint.lookup hi dst List.mem_cons_self
      refine ⟨?_, hbelow.memory.trans hmatch.memory, ?_, hmatch.fits.update dst _⟩
      · simp only [ExecutionUnit.assign, hext.kept hdst]
        exact hagree.update dst _
      · rw [show (eu'.assign u dst (evalConcat values)).trace = u.trace from rfl, hbelow.trace]
        exact hmatch.trace

theorem FoldsWell.nonzero (hwell : FoldsWell elementWidths maxLoadWidth eu) {reg : RegisterId}
    {info : BitSource A} {addr : RegionedAbsoluteAddr A}
    (hinfo : collectExtracts eu reg = some info) (hbase : info.base = .load addr) :
    elementWidths addr.absoluteAddr ≠ some 0 := by
  obtain ⟨root, hextract⟩ := collectExtracts_extract hinfo
  obtain ⟨dst, off, width, hload⟩ := hextract.loaded hbase
  exact hwell.elements dst addr off width hload

theorem foldRun_total (hwell : FoldsWell elementWidths maxLoadWidth eu) {run : ArgRun A}
    (hfine : run.Fine (collectExtracts eu)) (allocation : Allocation) :
    ∃ result, foldRun elementWidths maxLoadWidth run allocation = some result := by
  unfold foldRun
  split
  · rename_i info hinfo
    split
    · obtain ⟨recorded, hrecorded, hbase⟩ :=
        (hfine.source info hinfo).recorded List.mem_cons_self
      obtain ⟨inst, hinst⟩ := foldedInstruction_total (fun addr haddr =>
        hwell.nonzero hrecorded (hbase.trans haddr)) (allocation.push (.bit info.width false)).1
      simp only [hinst]
      exact ⟨_, rfl⟩
    · exact ⟨_, rfl⟩
  · exact ⟨_, rfl⟩

theorem foldRuns_total (hwell : FoldsWell elementWidths maxLoadWidth eu) {runs : List (ArgRun A)}
    (hfine : ∀ run ∈ runs, run.Fine (collectExtracts eu)) (allocation : Allocation) :
    ∃ result, foldRuns elementWidths maxLoadWidth runs allocation = some result := by
  induction runs generalizing allocation with
  | nil => exact ⟨_, rfl⟩
  | cons run runs ih =>
    obtain ⟨hhead, htail⟩ := List.forall_mem_cons.mp hfine
    obtain ⟨⟨newArg, first, next⟩, hfirst⟩ := foldRun_total hwell hhead allocation
    obtain ⟨⟨rest, inserted, last⟩, hrest⟩ := ih htail next
    simp only [foldRuns, hfirst, hrest, Option.bind_eq_bind, Option.bind_some]
    exact ⟨_, rfl⟩

/-- What stands for an instruction exists where no element width is zero. -/
theorem foldConcat_total (hwell : FoldsWell elementWidths maxLoadWidth eu)
    (inst : SIRInstruction (RegionedAbsoluteAddr A)) (allocation : Allocation) :
    ∃ result, foldConcat elementWidths maxLoadWidth (collectExtracts eu) inst allocation =
      some result := by
  unfold foldConcat
  split
  · rename_i dst args
    split
    · exact ⟨_, rfl⟩
    · obtain ⟨runs, hall⟩ := argRuns_total
        (fun _ _ _ hinfo hbase => hwell.nonzero hinfo hbase) args.length args.reverse
      obtain ⟨⟨newArgs, inserted, last⟩, hfold⟩ :=
        foldRuns_total hwell (argRuns_some (List.length_reverse.le) hall).2 allocation
      simp only [hall, hfold, Option.bind_eq_bind, Option.bind_some]
      exact ⟨_, rfl⟩
  · exact ⟨_, rfl⟩

end Concat

/-! ## Blocks -/

section Blocks
variable {eu eu' : RegionedUnit A} {elementWidths : A → Option Nat} {maxLoadWidth : Nat}
  {list instructions : List (SIRInstruction (RegionedAbsoluteAddr A))}
  {allocation after : Allocation}

theorem foldConcats_cons {inst : SIRInstruction (RegionedAbsoluteAddr A)}
    (h : foldConcats elementWidths maxLoadWidth (collectExtracts eu) (inst :: list) allocation =
      some (instructions, after)) :
    ∃ first middle rest, instructions = first ++ rest ∧
      foldConcat elementWidths maxLoadWidth (collectExtracts eu) inst allocation =
        some (first, middle) ∧
      foldConcats elementWidths maxLoadWidth (collectExtracts eu) list middle =
        some (rest, after) := by
  simp only [foldConcats, Option.bind_eq_bind, Option.bind_eq_some_iff, Option.pure_def,
    Option.some.injEq] at h
  obtain ⟨⟨first, middle⟩, hfirst, ⟨rest, last⟩, hrest, heq⟩ := h
  cases heq
  exact ⟨first, middle, rest, rfl, hfirst, hrest⟩

theorem foldConcats_total (hwell : FoldsWell elementWidths maxLoadWidth eu)
    (list : List (SIRInstruction (RegionedAbsoluteAddr A))) (allocation : Allocation) :
    ∃ result, foldConcats elementWidths maxLoadWidth (collectExtracts eu) list allocation =
      some result := by
  induction list generalizing allocation with
  | nil => exact ⟨_, rfl⟩
  | cons inst list ih =>
    obtain ⟨⟨first, middle⟩, hfirst⟩ := foldConcat_total hwell inst allocation
    obtain ⟨⟨rest, last⟩, hrest⟩ := ih middle
    simp only [foldConcats, hfirst, hrest, Option.bind_eq_bind, Option.bind_some]
    exact ⟨_, rfl⟩

theorem foldConcats_before (hbounded : allocation.Bounded)
    (h : foldConcats elementWidths maxLoadWidth (collectExtracts eu) list allocation =
      some (instructions, after)) : allocation.Before after := by
  induction list generalizing allocation instructions with
  | nil =>
    cases h
    exact .refl hbounded
  | cons inst list ih =>
    obtain ⟨first, middle, rest, -, hfirst, hrest⟩ := foldConcats_cons h
    have hbefore := foldConcat_before hbounded hfirst
    exact hbefore.trans (ih hbefore.bounded hrest)

/-- An instruction of the folded block comes from one of the block, with the allocation there. -/
theorem foldConcats_mem {inst' : SIRInstruction (RegionedAbsoluteAddr A)}
    (hbounded : allocation.Bounded)
    (h : foldConcats elementWidths maxLoadWidth (collectExtracts eu) list allocation =
      some (instructions, after)) (hinst : inst' ∈ instructions) :
    ∃ inst ∈ list, ∃ before first last, allocation.Before before ∧ last.Before after ∧
      foldConcat elementWidths maxLoadWidth (collectExtracts eu) inst before = some (first, last) ∧
      inst' ∈ first := by
  induction list generalizing allocation instructions with
  | nil =>
    cases h
    cases hinst
  | cons inst list ih =>
    obtain ⟨first, middle, rest, rfl, hfirst, hrest⟩ := foldConcats_cons h
    have hbefore := foldConcat_before hbounded hfirst
    have hafter := foldConcats_before hbefore.bounded hrest
    rcases List.mem_append.mp hinst with hmem | hmem
    · exact ⟨inst, List.mem_cons_self, allocation, first, middle, .refl hbounded, hafter, hfirst,
        hmem⟩
    · obtain ⟨other, hother, before, front, last, hmiddle, hlast, hfold, hin⟩ :=
        ih hbefore.bounded hrest hmem
      exact ⟨other, List.mem_cons_of_mem _ hother, before, front, last, hbefore.trans hmiddle,
        hlast, hfold, hin⟩

variable {model : BitModel (RegionedAbsoluteAddr A)} {memory : BitMemory (RegionedAbsoluteAddr A)}
  {b : BlockId} {block : BasicBlock (RegionedAbsoluteAddr A)} {i : Nat}
  {s s' t : State (RegionedAbsoluteAddr A) (BitMemory (RegionedAbsoluteAddr A))}

/-- The rest of a block, from a position on. -/
theorem foldConcats_exec (hv : Verified eu) (hwell : FoldsWell elementWidths maxLoadWidth eu)
    (hext : Extends eu eu') (hmap : ShapesIn after.registerMap eu'.registerMap)
    (hbounded : allocation.Bounded) (hdeclared : ShapesIn eu.registerMap allocation.registerMap)
    (hfold : foldConcats elementWidths maxLoadWidth (collectExtracts eu) list allocation =
      some (instructions, after))
    (hpoint : eu.Point model.machine memory b block i s) (hdrop : block.instructions.drop i = list)
    (hmatch : Matches eu (fun _ => true) s s')
    (hexec : eu.execList model.machine s list = some t) :
    ∃ t', eu'.execList model.machine s' instructions = some t' ∧
      Matches eu (fun _ => true) t t' := by
  induction list generalizing i s s' allocation instructions with
  | nil =>
    cases hfold
    cases hexec
    exact ⟨s', rfl, hmatch⟩
  | cons inst list ih =>
    obtain ⟨hi, hrest, -⟩ := drop_cons hdrop
    obtain ⟨u, hu, htail⟩ := Option.bind_eq_some_iff.mp hexec
    obtain ⟨first, middle, rest, rfl, hfirst, hfoldRest⟩ := foldConcats_cons hfold
    have hbefore := foldConcat_before hbounded hfirst
    have hafter := foldConcats_before hbefore.bounded hfoldRest
    obtain ⟨u', hu', hmatch'⟩ := foldConcat_exec hv hwell hext (hafter.shapes.trans hmap) hbounded
      hdeclared hfirst hpoint hi hmatch hu
    obtain ⟨t', ht', hend⟩ := ih hbefore.bounded (hdeclared.trans hbefore.shapes) hfoldRest
      (hpoint.next hi hu) hrest hmatch' htail
    exact ⟨t', by rw [execList_append, hu', Option.bind_some, ht'], hend⟩

end Blocks
end Celox.Opt

/-! ## The pass as a whole

Folded slices, merged runs and definitions left out, one after the other. -/
namespace Celox.Opt
open Celox.Sir Celox.Layout

variable {A : Type} [DecidableEq A]

/-! ## Folded units -/

/-- What the second part of the pass makes of a unit. -/
structure Folded (elementWidths : A → Option Nat) (maxLoadWidth : Nat) (eu eu' : RegionedUnit A) :
    Prop where
  entry : eu'.entryBlockId = eu.entryBlockId
  shapes : ShapesIn eu.registerMap eu'.registerMap
  block : ∀ b block, eu.blocks.lookup b = some block → ∃ allocation after instructions,
    allocation.Bounded ∧ ShapesIn eu.registerMap allocation.registerMap ∧
    foldConcats elementWidths maxLoadWidth (collectExtracts eu) block.instructions allocation =
      some (instructions, after) ∧
    ShapesIn after.registerMap eu'.registerMap ∧
    eu'.blocks.lookup b = some { block with instructions }
  missing : ∀ b, eu.blocks.lookup b = none → eu'.blocks.lookup b = none

section Folded
variable {eu eu' : RegionedUnit A} {elementWidths : A → Option Nat} {maxLoadWidth : Nat}

theorem foldedUnit_folded (hwell : FoldsWell elementWidths maxLoadWidth (foldSlicesOfConcat eu)) :
    ∃ eu', foldedUnit elementWidths maxLoadWidth eu = some eu' ∧
      Folded elementWidths maxLoadWidth (foldSlicesOfConcat eu) eu' := by
  have hmap : (foldSlicesOfConcat eu).registerMap = eu.registerMap := rfl
  have hstart : startAllocation (foldSlicesOfConcat eu) = startAllocation eu := rfl
  have hentry : (foldSlicesOfConcat eu).entryBlockId = eu.entryBlockId := rfl
  unfold foldedUnit
  simp only
  generalize foldSlicesOfConcat eu = sliced at *
  have hrewrite := @rewriteBlocks_spec _ _ (foldBlock elementWidths maxLoadWidth (collectExtracts sliced))
    (fun state => ∃ allocation, state = some allocation ∧ allocation.Bounded ∧
      ShapesIn sliced.registerMap allocation.registerMap)
    (fun state state' => ∀ allocation, state = some allocation → ∃ after, state' = some after ∧
      ShapesIn allocation.registerMap after.registerMap) sliced.blocks
    (fun _ allocation h => ⟨allocation, h, .refl _⟩)
    (fun _ _ _ h h' allocation ha => by
      obtain ⟨middle, hmiddle, hshapes⟩ := h allocation ha
      obtain ⟨after, hafter, hshapes'⟩ := h' middle hmiddle
      exact ⟨after, hafter, hshapes.trans hshapes'⟩)
    (fun b block _ state hp => by
      obtain ⟨allocation, rfl, hbounded, hdeclared⟩ := hp
      obtain ⟨⟨instructions, after⟩, hfold⟩ :=
        foldConcats_total hwell block.instructions allocation
      have hbefore := foldConcats_before hbounded hfold
      have hblock : foldBlock elementWidths maxLoadWidth (collectExtracts sliced) block
          (some allocation) = ({ block with instructions }, some after) := by
        unfold foldBlock
        rw [Option.bind_some, hfold]
      rw [hblock]
      exact ⟨⟨after, rfl, hbefore.bounded, hdeclared.trans hbefore.shapes⟩,
        fun _ h => ⟨after, rfl, by cases h; exact hbefore.shapes⟩⟩) _
    ⟨startAllocation sliced, rfl, startAllocation_bounded sliced, .refl _⟩
  obtain ⟨⟨final, hfinal, -, hshapes⟩, -, hblocks⟩ := hrewrite
  have hmissing := fun b => @rewriteBlocks_none _ _ (foldBlock elementWidths maxLoadWidth (collectExtracts sliced))
    sliced.blocks (some (startAllocation sliced)) b
  rw [hstart] at hfinal hblocks hmissing
  generalize rewriteBlocks (foldBlock elementWidths maxLoadWidth (collectExtracts sliced))
    sliced.blocks (some (startAllocation eu)) = result at hfinal hblocks hmissing
  obtain ⟨blocks, state⟩ := result
  cases hfinal
  refine ⟨_, rfl, hentry.symm, hshapes, fun b block hb => ?_, hmissing⟩
  obtain ⟨_, ⟨allocation, rfl, hbounded, hdeclared⟩, -, hlookup, hafter⟩ := hblocks b block hb
  obtain ⟨⟨instructions, after⟩, hfold⟩ := foldConcats_total hwell block.instructions allocation
  have hblock : foldBlock elementWidths maxLoadWidth (collectExtracts sliced) block
      (some allocation) = ({ block with instructions }, some after) := by
    unfold foldBlock
    rw [Option.bind_some, hfold]
  rw [hblock] at hlookup hafter
  obtain ⟨last, hlast, hshapesLast⟩ := hafter after rfl
  cases hlast
  exact ⟨allocation, after, instructions, hbounded, hdeclared, hfold, hshapesLast, hlookup⟩

/-- The folded unit runs as the unit does. -/
theorem Folded.alike (hv : Verified eu) (hwell : FoldsWell elementWidths maxLoadWidth eu)
    (h : Folded elementWidths maxLoadWidth eu eu') (model : BitModel (RegionedAbsoluteAddr A))
    (memory : BitMemory (RegionedAbsoluteAddr A)) :
    EndsAlike model.machine model.machine eu eu' memory (Matches eu fun _ => true) := by
  refine BlocksAlike.ends
    (blocksAlike_of_bodies hv h.shapes h.entry (fun b block hb => ?_) h.missing) fun _ _ hb => hb
  obtain ⟨allocation, after, instructions, hbounded, hdeclared, hfold, hmap, hlookup⟩ :=
    h.block b block hb
  refine ⟨_, hlookup, rfl, rfl, fun s s' t hvisit hmatch hexec => ?_⟩
  exact foldConcats_exec hv hwell h.shapes hmap hbounded hdeclared hfold
    (point_entered hvisit hb) List.drop_zero hmatch hexec

/-- A register of the unit is defined in a folded block only where it was in the block. -/
theorem Folded.defines (h : Folded elementWidths maxLoadWidth eu eu') {b : BlockId}
    {block' : BasicBlock (RegionedAbsoluteAddr A)} (hb : eu'.blocks.lookup b = some block')
    {inst' : SIRInstruction (RegionedAbsoluteAddr A)} (hinst : inst' ∈ block'.instructions)
    {reg : RegisterId} (hreg : inst'.definedRegister = some reg) (hdeclared : Declared eu.types reg) :
    ∃ block, eu.blocks.lookup b = some block ∧ ∃ inst ∈ block.instructions,
      inst.definedRegister = some reg := by
  cases hlookup : eu.blocks.lookup b with
  | none =>
    rw [h.missing b hlookup] at hb
    cases hb
  | some block =>
    obtain ⟨allocation, after, instructions, hbounded, hshapes, hfold, -, hblock⟩ :=
      h.block b block hlookup
    rw [hb] at hblock
    cases hblock
    obtain ⟨inst, hmem, before, first, last, hbefore, -, hone, hin⟩ :=
      foldConcats_mem hbounded hfold hinst
    refine ⟨block, rfl, inst, hmem, ?_⟩
    rcases foldConcat_some hone with ⟨rfl, -⟩ | ⟨_, _, _, _, _, rfl, -, -, -, hruns, rfl⟩
    · rwa [← List.mem_singleton.mp hin]
    · rcases List.mem_append.mp hin with hin | hin
      · obtain ⟨type, htype⟩ := hdeclared
        obtain ⟨newReg, info, hnew, hfolded⟩ := foldRuns_inserted hbefore.bounded hruns hin
        rw [foldedInstruction_defines hfolded] at hreg
        cases hreg
        exact absurd ((hshapes.trans hbefore.shapes).mem
          (AList.lookup_isSome.mp (by rw [show eu.registerMap.lookup reg = _ from htype]; rfl))) hnew
      · rw [List.mem_singleton.mp hin] at hreg
        exact hreg

end Folded

/-! ## Widths -/

section Widths
variable {eu eu' : RegionedUnit A} {elementWidths : A → Option Nat} {maxLoadWidth : Nat}
  {args newArgs : List RegisterId} {runs : List (ArgRun A)} {allocation after : Allocation}

def widthOf (eu : RegionedUnit A) (reg : RegisterId) : Nat :=
  ((eu.types reg).map RegisterType.width).getD 0

/-- Every concatenation has as many bits as its operands together. -/
def WidthsAddUp (eu : RegionedUnit A) : Prop :=
  ∀ dst args, .concat dst args ∈ eu.instructions → (args.map (widthOf eu)).sum = widthOf eu dst

omit [DecidableEq A] in
theorem widthOf_eq {reg : RegisterId} {width : Nat} (h : HasWidth eu.types reg width) :
    widthOf eu reg = width := by
  obtain ⟨type, htype, hwidth⟩ := h
  unfold widthOf
  rw [htype]
  exact hwidth

omit [DecidableEq A] in
theorem widthOf_shapes (hshapes : ShapesIn eu.registerMap eu'.registerMap) {reg : RegisterId}
    (h : Declared eu.types reg) : widthOf eu' reg = widthOf eu reg := by
  obtain ⟨type, htype⟩ := h
  obtain ⟨type', htype', hshape⟩ := hshapes reg type htype
  rw [widthOf_eq ⟨type, htype, rfl⟩, widthOf_eq ⟨type', htype', congrArg RegisterShape.width hshape⟩]
  rfl

omit [DecidableEq A] in
theorem concatFrom_sum {start total : Nat} (h : ConcatFrom eu.types start args total) :
    total = start + (args.map (widthOf eu)).sum := by
  induction args generalizing start with
  | nil => exact h.symm
  | cons arg args ih =>
    obtain ⟨type, htype, -, hrest⟩ := h
    rw [ih hrest, List.map_cons, List.sum_cons, widthOf_eq ⟨type, htype, rfl⟩, Nat.add_assoc]

omit [DecidableEq A] in
theorem Verified.widthsAddUp (hv : Verified eu) : WidthsAddUp eu := by
  intro dst args hinst
  obtain ⟨home, homeBlock, hhome, k, hk⟩ := site_of_mem hinst
  obtain ⟨-, width, hfrom, hwidth⟩ :=
    (hv.blocks home homeBlock hhome).typed.typed _ (List.mem_of_getElem? hk)
  rw [widthOf_eq hwidth, concatFrom_sum hfrom, Nat.zero_add]

omit [DecidableEq A] in
theorem Contiguous.widths {defs : ExtractDefs A} {base : BitSourceBase A} {start stop : Nat}
    (h : Contiguous defs base start args stop)
    (hwidth : ∀ reg info, defs reg = some info → widthOf eu reg = info.width) :
    stop = start + (args.map (widthOf eu)).sum := by
  induction h with
  | nil => rfl
  | cons hinfo _ ih =>
    rw [ih, List.map_cons, List.sum_cons, hwidth _ _ hinfo, Nat.add_assoc]

omit [DecidableEq A] in
/-- Merged runs have the widths of their operands. -/
theorem foldRuns_widths {inserted : List (SIRInstruction (RegionedAbsoluteAddr A))}
    {defs : ExtractDefs A}
    (hfold : foldRuns elementWidths maxLoadWidth runs allocation = some (newArgs, inserted, after))
    (hbounded : allocation.Bounded) (hshapes : ShapesIn eu.registerMap eu'.registerMap)
    (hmap : ShapesIn after.registerMap eu'.registerMap)
    (hfine : ∀ run ∈ runs, run.Fine defs)
    (halone : ∀ run ∈ runs, run.merges maxLoadWidth = false → run.rest = [])
    (hwidth : ∀ reg info, defs reg = some info → widthOf eu reg = info.width)
    (hdeclared : ∀ run ∈ runs, ∀ reg ∈ run.operands, Declared eu.types reg) :
    (newArgs.map (widthOf eu')).sum = ((runs.flatMap ArgRun.operands).map (widthOf eu)).sum := by
  induction runs generalizing allocation newArgs inserted with
  | nil =>
    cases hfold
    rfl
  | cons run runs ih =>
    obtain ⟨newArg, first, middle, rest, restInserted, rfl, -, hrun, hruns⟩ := foldRuns_cons hfold
    obtain ⟨hfineRun, hfine⟩ := List.forall_mem_cons.mp hfine
    obtain ⟨haloneRun, halone⟩ := List.forall_mem_cons.mp halone
    obtain ⟨hdeclaredRun, hdeclared⟩ := List.forall_mem_cons.mp hdeclared
    have hbefore := foldRun_before hbounded hrun
    have hafter := foldRuns_before hbefore.bounded hruns
    have hhead : widthOf eu' newArg = (run.operands.map (widthOf eu)).sum := by
      rcases foldRun_some hrun with ⟨info, inst, hinfo, -, rfl, rfl, -⟩ | ⟨hmerges, rfl, -, -⟩
      · have hrange := (hfineRun.source info hinfo).widths hwidth
        obtain ⟨type, htype, hshape⟩ := (hafter.shapes.trans hmap) _ _ push_type
        rw [widthOf_eq ⟨type, htype, rfl⟩, ← Nat.add_left_cancel hrange]
        exact congrArg RegisterShape.width hshape
      · rw [ArgRun.operands, haloneRun hmerges, List.map_singleton, List.sum_singleton,
          widthOf_shapes hshapes (hdeclaredRun _ List.mem_cons_self)]
    rw [List.map_cons, List.sum_cons, List.flatMap_cons, List.map_append, List.sum_append, hhead,
      ih hruns hbefore.bounded hfine halone hdeclared]

theorem Folded.widths (hv : Verified eu) (hwell : FoldsWell elementWidths maxLoadWidth eu)
    (h : Folded elementWidths maxLoadWidth eu eu') : WidthsAddUp eu' := by
  intro dst args hinst
  obtain ⟨b, block', hb, k, hk⟩ := site_of_mem hinst
  cases hlookup : eu.blocks.lookup b with
  | none =>
    rw [h.missing b hlookup] at hb
    cases hb
  | some block =>
    obtain ⟨allocation, after, instructions, hbounded, hshapes, hfold, hmap, hblock⟩ :=
      h.block b block hlookup
    rw [hb] at hblock
    cases hblock
    obtain ⟨inst, hmem, before, first, last, hbefore, hlast, hone, hin⟩ :=
      foldConcats_mem hbounded hfold (List.mem_of_getElem? hk)
    obtain ⟨i, hi⟩ := List.mem_iff_getElem?.mp hmem
    have hregs := hv.declares hlookup hi
    have hmemUnit : inst ∈ eu.instructions :=
      List.mem_flatMap.mpr ⟨⟨b, block⟩, AList.mem_lookup_iff.mp hlookup, hmem⟩
    have hsame : ∀ regs : List RegisterId, (∀ reg ∈ regs, Declared eu.types reg) →
        regs.map (widthOf eu') = regs.map (widthOf eu) := fun regs hregs =>
      List.map_congr_left fun reg hreg => widthOf_shapes h.shapes (hregs reg hreg)
    rcases foldConcat_some hone with
      ⟨rfl, -⟩ | ⟨dst', args', runs, newArgs, inserted, rfl, hlength, hruns, hany, hfolded, rfl⟩
    · obtain rfl := List.mem_singleton.mp hin
      rw [hsame args fun reg hreg => hregs reg (List.mem_cons_of_mem _ hreg),
        widthOf_shapes h.shapes (hregs dst List.mem_cons_self)]
      exact Verified.widthsAddUp hv dst args hmemUnit
    · rcases List.mem_append.mp hin with hin | hin
      · obtain ⟨newReg, info, -, hnew⟩ := foldRuns_inserted hbefore.bounded hfolded hin
        exact absurd hnew foldedInstruction_not_concat
      · cases List.mem_singleton.mp hin
        obtain ⟨hargs, hfine⟩ := argRuns_some (List.length_reverse.le) hruns
        have hoperands : ∀ reg ∈ args', Declared eu.types reg := fun reg hreg =>
          hregs reg (List.mem_cons_of_mem _ hreg)
        have hsum := foldRuns_widths hfolded hbefore.bounded h.shapes (hlast.shapes.trans hmap)
          hfine (fun run hrun hmerges => by
            by_contra hrest
            rw [hwell.complete dst args' runs hmemUnit hlength hruns hany run hrun hrest] at hmerges
            cases hmerges)
          (fun reg info hinfo => by
            obtain ⟨root, hextract⟩ := collectExtracts_extract hinfo
            exact widthOf_eq (hextract.width hv))
          (fun run hrun reg hreg => hoperands reg (List.mem_reverse.mp (by
            rw [hargs]
            exact List.mem_flatMap.mpr ⟨run, hrun, hreg⟩)))
        rw [← hargs] at hsum
        rw [List.map_reverse, List.sum_reverse, hsum, List.map_reverse, List.sum_reverse,
          widthOf_shapes h.shapes (hregs dst List.mem_cons_self)]
        exact Verified.widthsAddUp hv dst args' hmemUnit

end Widths

/-! ## The whole pass -/

section Pass
variable {eu eu' : RegionedUnit A} {elementWidths : A → Option Nat} {maxLoadWidth : Nat}

theorem Folded.redefines (h : Folded elementWidths maxLoadWidth eu eu') : Redefines eu eu' where
  params c other' hother' := by
    cases hlookup : eu.blocks.lookup c with
    | none =>
      rw [h.missing c hlookup] at hother'
      cases hother'
    | some other =>
      obtain ⟨_, _, _, -, -, -, -, hsame⟩ := h.block c other hlookup
      rw [hother'] at hsame
      cases hsame
      exact ⟨other, rfl, rfl, rfl⟩
  defines _ _ hb _ hinst _ hreg hdeclared := h.defines hb hinst hreg hdeclared

/-- The pass keeps what the unit does where all merged runs are whole and up to date. -/
theorem concatFolding_alike (hverified : eu.verifyResult = .ok ())
    (hwell : FoldsWell elementWidths maxLoadWidth (foldSlicesOfConcat eu)) :
    ∃ eu', concatFolding elementWidths maxLoadWidth eu = some eu' ∧ WidthsAddUp eu' ∧
      ∀ (model : BitModel (RegionedAbsoluteAddr A)) (memory : BitMemory (RegionedAbsoluteAddr A)),
        EndsAlike model.machine model.machine eu eu' memory (SameSurviving eu eu') := by
  have hv := (verifyResult_ok_iff eu).mp hverified
  have hsliced := foldSlicesOfConcat_verified hv
  obtain ⟨folded, hfolded, hspec⟩ := foldedUnit_folded hwell
  unfold concatFolding
  simp only [hfolded, Option.bind_eq_bind, Option.bind_some, Option.pure_def]
  split
  · refine ⟨folded.retainUsed, rfl, fun dst args hinst => ?_, fun model memory => ?_⟩
    · obtain ⟨b, block, hb, k, hk⟩ := site_of_mem hinst
      rw [show folded.retainUsed.blocks.lookup b = _ from ExecutionUnit.lookup_mapBlocks _ b,
        Option.map_eq_some_iff] at hb
      obtain ⟨block, hb, rfl⟩ := hb
      exact hspec.widths hsliced hwell dst args (List.mem_flatMap.mpr ⟨⟨b, block⟩,
        AList.mem_lookup_iff.mp hb, (List.mem_filter.mp (List.mem_of_getElem? hk)).1⟩)
    · have hall := (foldSlicesOfConcat_alike hv model memory).trans
        (retainUsed_surviving hsliced hspec.redefines (hspec.alike hsliced hwell model memory))
      refine EndsAlike.mono hall ?_
      rintro s s'' ⟨_, rfl, hsame⟩
      exact ⟨hsame.regs, hsame.memory, hsame.trace⟩
  · refine ⟨eu, rfl, Verified.widthsAddUp hv, fun model memory => ?_⟩
    exact EndsAlike.refl fun s => ⟨fun _ _ _ => rfl, rfl, rfl⟩

end Pass

/-! ## Runs of different widths -/

def signal (i : Nat) : RegionedAbsoluteAddr Nat := ⟨STABLE_REGION, i⟩

def concatUnit (instructions : List (SIRInstruction (RegionedAbsoluteAddr Nat))) :
    RegionedUnit Nat where
  entryBlockId := 0
  blocks := [⟨0, ⟨0, [], instructions, .ret⟩⟩].toAList
  registerMap := [⟨0, .bit 8 false⟩, ⟨1, .bit 8 false⟩, ⟨2, .bit 4 false⟩, ⟨3, .bit 4 false⟩,
    ⟨4, .bit 24 false⟩].toAList

/-- Two bytes of one object below two nibbles of another one. -/
def bytesAndNibbles : RegionedUnit Nat :=
  concatUnit [.load 0 (signal 0) (.static 0) 8, .load 1 (signal 0) (.static 8) 8,
    .load 2 (signal 1) (.static 0) 4, .load 3 (signal 1) (.static 4) 4, .concat 4 [3, 2, 1, 0],
    .store (signal 2) (.static 0) 24 4 [] []]

theorem bytesAndNibbles_sliced : foldSlicesOfConcat bytesAndNibbles = bytesAndNibbles := rfl

/-- What is loaded and never stored to is up to date everywhere. -/
theorem upToDate_of_unwritten {A : Type} {eu : RegionedUnit A}
    (h : ∀ dst addr off width, .load dst addr (.static off) width ∈ eu.instructions →
      ∀ inst ∈ eu.instructions, ∀ bit, ¬ inst.mayWrite addr bit) (b : BlockId) (i : Nat)
    (reg : RegisterId) : UpToDate eu b i reg := by
  rintro info root - hextract j - ⟨addr, haddr, hover⟩
  obtain ⟨dst, off, width, hload⟩ := hextract.loaded haddr
  unfold OverwrittenSince at hover
  induction hover with
  | @write b k inst _ hget hwrite =>
    exact h dst addr off width hload inst (mem_unitInstructions (List.mem_of_getElem? hget)) _
      hwrite
  | pass _ _ _ ih | edge _ _ ih => exact ih

theorem bytesAndNibbles_foldsWell :
    FoldsWell (fun _ => none) 64 (foldSlicesOfConcat bytesAndNibbles) where
  elements _ _ _ _ _ h := by cases h
  complete dst args runs hinst _ hruns _ run hrun hrest := by
    rw [bytesAndNibbles_sliced] at hinst hruns
    obtain rfl : args = [3, 2, 1, 0] := by
      rw [show bytesAndNibbles.instructions = [_, _, _, _, _, _] from rfl] at hinst
      simp only [List.mem_cons, List.not_mem_nil, or_false, reduceCtorEq, false_or] at hinst
      cases hinst
      rfl
    have hall : (argRunsOf (fun _ => none) bytesAndNibbles [3, 2, 1, 0]).map (·.all fun run =>
        run.rest = [] || run.merges 64) = some true := by decide +kernel
    rw [hruns] at hall
    have hone := List.all_eq_true.mp (Option.some.inj hall) run hrun
    simpa [hrest] using hone
  current b block i dst args runs _ _ _ _ run _ _ reg _ := by
    rw [bytesAndNibbles_sliced]
    refine upToDate_of_unwritten (fun dst addr off width hload inst hinst bit hwrite => ?_) b i reg
    rw [show bytesAndNibbles.instructions = [_, _, _, _, _, _] from rfl] at hload hinst
    simp only [List.mem_cons, List.not_mem_nil, or_false, reduceCtorEq] at hload hinst
    rcases hinst with rfl | rfl | rfl | rfl | rfl | rfl
    all_goals try exact hwrite
    -- the store is to an object that is not loaded
    obtain ⟨rfl, -⟩ := hwrite
    rcases hload with h | h | h | h <;> cases h

theorem concatFolding_bytesAndNibbles : ∃ eu', concatFolding (fun _ => none) 64 bytesAndNibbles =
    some eu' ∧ WidthsAddUp eu' ∧ ∀ (model : BitModel (RegionedAbsoluteAddr Nat))
      (memory : BitMemory (RegionedAbsoluteAddr Nat)),
      EndsAlike model.machine model.machine bytesAndNibbles eu' memory
        (SameSurviving bytesAndNibbles eu') :=
  concatFolding_alike (by decide) bytesAndNibbles_foldsWell

/-- With a maximum of eight bits the bytes are too wide to merge, and the upper one is lost. -/
theorem bytesAndNibbles_narrowed : bytesAndNibbles.verifyResult = .ok () ∧ ∃ eu',
    concatFolding (fun _ => none) 8 bytesAndNibbles = some eu' ∧ ¬ WidthsAddUp eu' := by
  refine ⟨by decide, ?_⟩
  have hfolded : ((concatFolding (fun _ => none) 8 bytesAndNibbles).map fun eu' =>
      decide (.concat 4 [5, 0] ∈ eu'.instructions ∧
        ([5, 0].map (widthOf eu')).sum ≠ widthOf eu' 4)) = some true := by decide +kernel
  obtain ⟨eu', heu, hwrong⟩ := Option.map_eq_some_iff.mp hfolded
  obtain ⟨hmem, hsum⟩ := of_decide_eq_true hwrong
  exact ⟨eu', heu, fun hall => hsum (hall 4 [5, 0] hmem)⟩

/-- The lower byte is stored to between its load and the concatenation. -/
def storedBetween : RegionedUnit Nat :=
  concatUnit [.load 0 (signal 0) (.static 0) 8, .load 1 (signal 0) (.static 8) 8,
    .imm 2 ⟨5, 0⟩, .imm 3 ⟨6, 0⟩, .store (signal 0) (.static 0) 4 2 [] [],
    .concat 4 [3, 2, 1, 0], .store (signal 2) (.static 0) 24 4 [] []]

/-- The concatenation gets what was stored in place of what was loaded. -/
theorem storedBetween_reloaded : storedBetween.verifyResult = .ok () ∧ ∃ eu',
    concatFolding (fun _ => none) 64 storedBetween = some eu' ∧
    ¬ EndsAlike (BitModel.plain _).machine (BitModel.plain _).machine storedBetween eu'
      (fun _ _ => (false, false)) (SameSurviving storedBetween eu') := by
  refine ⟨by decide, (concatFolding (fun _ => none) 64 storedBetween).get rfl,
    (Option.some_get _).symm, fun h => ?_⟩
  have hstraight : ((concatFolding (fun _ => none) 64 storedBetween).get rfl).Straight _ :=
    ⟨rfl, rfl⟩
  obtain ⟨t, hexec, hbit⟩ : ∃ t, storedBetween.execList (BitModel.plain _).machine
      (storedBetween.start (fun _ _ => (false, false)) []).state
      ((storedBetween.blocks.lookup 0).get rfl).instructions = some t ∧
      t.memory (signal 2) 0 = (false, false) := ⟨_, rfl, by decide⟩
  obtain ⟨block', s', hb', hrun', hsame, -⟩ := h 0 _ t rfl (execList_block rfl hexec)
  obtain ⟨-, rfl⟩ := hstraight.only hb'
  have hexec' := hstraight.exec hrun'
  obtain ⟨t', ht', hbit'⟩ : ∃ t', some s' = some t' ∧ t'.memory (signal 2) 0 = (true, false) :=
    ⟨_, hexec'.symm, by decide +kernel⟩
  cases ht'
  rw [hsame.memory, hbit] at hbit'
  cases hbit'

end Celox.Opt
