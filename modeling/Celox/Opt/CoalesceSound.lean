import Celox.Opt.DelayedStores

/-! # When coalescing of stores keeps the meaning

A merged store is delayed up to the last store of its run. In between the memories agree on all bits
but the delayed ones, which are never read; where nothing else writes them, the one store at the end
makes up for all. -/
namespace Celox.Opt
open Celox.Sir Celox.Layout Relation

/-! ## What stands at an index -/

section Replacements
variable {A : Type} {elementWidths : RegionedAbsoluteAddr A → Option Nat}
  {instructions : List (SIRInstruction (RegionedAbsoluteAddr A))}
  {runs : List (List (StoreCandidate A))} {run : List (StoreCandidate A)}
  {replacements : List (Replacement A)} {before after : Allocation} {i : Nat}

/-- The concatenation and the store for a run, with a register that is not declared before. -/
structure Replaces (before after : Allocation) (run : List (StoreCandidate A))
    (replacement : Replacement A) : Prop where
  removed : replacement.removedIndices = runIndices run
  anchor : replacement.anchorIndex = anchorOf run
  insts : ∃ addr start reg offset, replacement.newInstructions = [
      .concat reg (run.map (·.srcReg)).reverse, .store addr offset (runWidth run) reg [] []] ∧
    (∀ c ∈ run, c.addr = addr) ∧ Adjoining start run (start + runWidth run) ∧
    (offset = .static start ∨ ∃ elementWidth, offset = .packedElements start elementWidth) ∧
    reg ∉ before.registerMap ∧
    ∃ type, after.registerMap.lookup reg = some type ∧ type.width = runWidth run

theorem Replaces.anchored {replacement : Replacement A} (h : Replaces before after run replacement) :
    Anchored run replacement :=
  ⟨h.removed, h.anchor⟩

theorem Replaces.mono {before' after' : Allocation} {replacement : Replacement A}
    (h : Replaces before' after run replacement) (hbefore : before.Before before')
    (hafter : after.Before after') : Replaces before after' run replacement :=
  ⟨h.removed, h.anchor, StandsFor.mono h.insts hbefore hafter⟩

theorem replaceRun_spec (hbounded : before.Bounded) (hrun : MergedRun elementWidths instructions run) :
    before.Before (replaceRun elementWidths run before).2 ∧ ∃ replacement,
      (replaceRun elementWidths run before).1 = [replacement] ∧
      Replaces before (replaceRun elementWidths run before).2 run replacement := by
  obtain ⟨first, rest, hcons, hadjoining, hsome⟩ := hrun.mergeable
  obtain ⟨addr, hi, hgroup⟩ := hrun.group
  obtain ⟨offset, hoffset⟩ := Option.isSome_iff_exists.mp hsome
  have hsites : run.flatMap (·.combCaptureSites) = [] :=
    List.flatMap_eq_nil_iff.mpr fun c hc => (hgroup c hc).1.sites
  obtain rfl : first.addr = addr := (hgroup first (hcons ▸ List.mem_cons_self)).2.1
  have hbefore := allocReg_before (.bit (runWidth run) false) hbounded
  have hfresh := allocReg_fresh (.bit (runWidth run) false) hbounded
  have htype := allocReg_type (.bit (runWidth run) false) hbounded
  have heq : replaceRun elementWidths run before = ([{
      removedIndices := runIndices run
      anchorIndex := anchorOf run
      newInstructions := [
        .concat (before.allocReg (.bit (runWidth run) false)).1 (run.map (·.srcReg)).reverse,
        .store first.addr offset (runWidth run) (before.allocReg (.bit (runWidth run) false)).1 [] []] }],
      (before.allocReg (.bit (runWidth run) false)).2) := by
    rw [hcons] at hoffset hsites ⊢
    simp only [replaceRun, hoffset, hsites, List.eraseDups_nil]
  rw [heq]
  exact ⟨hbefore, _, rfl, rfl, rfl, first.addr, first.offset, _, offset, rfl,
    fun c hc => (hgroup c hc).2.1, hadjoining, aggregateStaticOffset_start hoffset, hfresh, _, htype,
    rfl⟩

theorem replaceRuns_spec (hbounded : before.Bounded)
    (hruns : ∀ run ∈ runs, MergedRun elementWidths instructions run) :
    before.Before (replaceRuns elementWidths runs before).2 ∧
      List.Forall₂ (Replaces before (replaceRuns elementWidths runs before).2) runs
        (replaceRuns elementWidths runs before).1 := by
  induction runs generalizing before with
  | nil => exact ⟨.refl hbounded, .nil⟩
  | cons run runs ih =>
    obtain ⟨hbefore, replacement, heq, hreplaces⟩ :=
      replaceRun_spec hbounded (hruns run List.mem_cons_self)
    obtain ⟨hafter, hall⟩ := ih hbefore.bounded fun r hr => hruns r (List.mem_cons_of_mem _ hr)
    unfold replaceRuns
    simp only [heq]
    exact ⟨hbefore.trans hafter, .cons (hreplaces.mono (.refl hbounded) hafter)
      (hall.imp fun _ _ h => h.mono hbefore (.refl hafter.bounded))⟩

/-- An index is the anchor of one run, or of a store that another one stands for, or nothing is
changed there. -/
theorem replaceAt_cases (hreplaces : List.Forall₂ (Replaces before after) runs replacements)
    (hne : ∀ run ∈ runs, run ≠ []) (hapart : runs.Pairwise Apart) (i : Nat)
    (inst : SIRInstruction (RegionedAbsoluteAddr A)) :
    (∃ run ∈ runs, ∃ replacement, Replaces before after run replacement ∧ anchorOf run = i ∧
      replaceAt replacements i inst = replacement.newInstructions) ∨
    ((∀ run ∈ runs, anchorOf run ≠ i) ∧ (∃ run ∈ runs, i ∈ runIndices run) ∧
      replaceAt replacements i inst = []) ∨
    ((∀ run ∈ runs, i ∉ runIndices run) ∧ replaceAt replacements i inst = [inst]) := by
  have hany := any_removed hreplaces (fun _ _ => Replaces.anchored) i
  unfold replaceAt
  rcases filter_anchored hreplaces (fun _ _ => Replaces.anchored) hne hapart i with
    ⟨run, hrun, replacement, hreplaces, hanchor, hfilter⟩ | ⟨hnone, hfilter⟩
  · refine .inl ⟨run, hrun, replacement, hreplaces, hanchor, ?_⟩
    rw [hfilter]
    exact List.append_nil _
  · rw [hfilter]
    by_cases hmem : ∃ run ∈ runs, i ∈ runIndices run
    · exact .inr (.inl ⟨hnone, hmem, if_pos (hany.mpr hmem)⟩)
    · refine .inr (.inr ⟨fun run hrun hi => hmem ⟨run, hrun, hi⟩, if_neg fun h => hmem (hany.mp h)⟩)

end Replacements

/-! ## Delayed stores -/

section Delay
variable {A : Type} {elementWidths : RegionedAbsoluteAddr A → Option Nat}
  {eu : ExecutionUnit (RegionedAbsoluteAddr A)} {model : BitModel (RegionedAbsoluteAddr A)}
  {b : BlockId} {block : BasicBlock (RegionedAbsoluteAddr A)}
  {runs : List (List (StoreCandidate A))} {run : List (StoreCandidate A)} {c d : StoreCandidate A}
  {a : RegionedAbsoluteAddr A} {i bit : Nat} {inst : SIRInstruction (RegionedAbsoluteAddr A)}
  {s t : State (RegionedAbsoluteAddr A) (BitMemory (RegionedAbsoluteAddr A))}

/-- The sources of a run are as wide as its stores, and whatever may write a bit behind the store of
it lands behind the run. -/
structure MergedWell (eu : ExecutionUnit (RegionedAbsoluteAddr A))
    (instructions : List (SIRInstruction (RegionedAbsoluteAddr A)))
    (runs : List (List (StoreCandidate A))) (run : List (StoreCandidate A)) : Prop where
  width : ∀ c ∈ run, HasWidth eu.types c.srcReg c.width
  order : ∀ c ∈ run, ∀ (k : Nat) inst bit, c.instIndex < k → instructions[k]? = some inst →
    c.offset ≤ bit → bit < c.offset + c.width → inst.mayWrite c.addr bit →
    anchorOf run < landing runs k

/-- A block with the runs that are merged in it. -/
structure Planned (elementWidths : RegionedAbsoluteAddr A → Option Nat)
    (eu : ExecutionUnit (RegionedAbsoluteAddr A)) (b : BlockId)
    (block : BasicBlock (RegionedAbsoluteAddr A)) (runs : List (List (StoreCandidate A))) :
    Prop where
  verified : Verified eu
  lookup : eu.blocks.lookup b = some block
  merged : ∀ run ∈ runs, MergedRun elementWidths block.instructions run
  apart : runs.Pairwise Apart
  well : ∀ run ∈ runs, MergedWell eu block.instructions runs run

theorem Planned.candidate (h : Planned elementWidths eu b block runs) (hrun : run ∈ runs)
    (hc : c ∈ run) : CandidateAt block.instructions c := by
  obtain ⟨_, _, hgroup⟩ := (h.merged run hrun).group
  exact (hgroup c hc).1

theorem Planned.ne_nil (h : Planned elementWidths eu b block runs) (hrun : run ∈ runs) :
    run ≠ [] := by
  obtain ⟨first, rest, rfl, -⟩ := (h.merged run hrun).mergeable
  exact nofun

/-! ## Three kinds of indices -/

/-- An effect that leaves more than bits behind. -/
def observed : Effect (RegionedAbsoluteAddr A) → Bool
  | .store _ _ _ _ [] [] => false
  | _ => true

/-- The states of both units in front of an index. -/
structure Delayed (eu : ExecutionUnit (RegionedAbsoluteAddr A))
    (model : BitModel (RegionedAbsoluteAddr A)) (runs : List (List (StoreCandidate A))) (i : Nat)
    (s s' : State (RegionedAbsoluteAddr A) (BitMemory (RegionedAbsoluteAddr A))) : Prop where
  regs : RegsAgree eu s.regs s'.regs
  memory : ∀ a bit, ¬ Pending runs i a bit → s.memory a bit = s'.memory a bit
  trace : s'.trace.filter observed = s.trace.filter observed
  fits : Fits eu s.regs
  lasts : Lasts model runs i i s

/-- A planned block is one with delayed stores. -/
theorem Planned.delays (h : Planned elementWidths eu b block runs) : Delays eu b block runs := by
  refine ⟨h.verified, h.lookup, h.apart, fun run hrun => ?_⟩
  have hwell := h.well run hrun
  refine ⟨h.ne_nil hrun, fun c hc => ⟨[], [], (h.candidate hrun hc).inst⟩, fun c hc heq => ?_,
    fun c hc => hwell.width c (List.dropLast_subset _ hc), ?_, hwell.order⟩
  · have htyped : InstructionTyped eu.types c.instruction :=
      (h.verified.blocks b block h.lookup).typed.typed _
        (List.mem_of_getElem? (h.candidate hrun hc).inst)
    simp only [InstructionTyped, StoreCandidate.instruction, heq, if_true] at htyped
    exact htyped.1 rfl
  · intro c hc k inst bit hlt hend hk _ _ hread
    obtain ⟨addr, hi', hgroup⟩ := (h.merged run hrun).group
    obtain ⟨last, hlast, hindex⟩ := exists_anchor (h.ne_nil hrun)
    obtain ⟨-, haddr, -, hquiet⟩ := hgroup c hc
    have hbound := (hgroup last hlast).2.2.1
    exact hquiet k inst hlt (by omega) hk (haddr ▸ seals_of_mayRead hread)

variable {eu' : ExecutionUnit (RegionedAbsoluteAddr A)}
  {s' : State (RegionedAbsoluteAddr A) (BitMemory (RegionedAbsoluteAddr A))}

theorem Delayed.lagging (h : Delayed eu model runs i s s') : Lagging eu model runs i s s' :=
  ⟨h.regs, h.memory, h.fits, h.lasts⟩

theorem Lagging.delayed (h : Lagging eu model runs i s s')
    (htrace : s'.trace.filter observed = s.trace.filter observed) : Delayed eu model runs i s s' :=
  ⟨h.regs, h.memory, htrace, h.fits, h.lasts⟩

variable [DecidableEq A]

/-- What is not merged is executed in both units. -/
theorem Delayed.kept (h : Planned elementWidths eu b block runs) (hext : Extends eu eu')
    (hdelayed : Delayed eu model runs i s s') (hi : block.instructions[i]? = some inst)
    (hnone : ∀ run ∈ runs, i ∉ runIndices run)
    (hexec : eu.execInstruction model.machine s inst = some t) :
    ∃ t', eu'.execInstruction model.machine s' inst = some t' ∧
      Delayed eu model runs (i + 1) t t' := by
  obtain ⟨t', hexec', hlag, effects, htrace, htrace'⟩ :=
    hdelayed.lagging.kept h.delays hext hi hnone hexec
  refine ⟨t', hexec', hlag.delayed ?_⟩
  rw [htrace, htrace', List.filter_append, List.filter_append, hdelayed.trace]

/-- A merged store leaves nothing but bits behind. -/
theorem Planned.trace (h : Planned elementWidths eu b block runs) (hrun : run ∈ runs) (hc : c ∈ run)
    (hi : block.instructions[c.instIndex]? = some inst)
    (hexec : eu.execInstruction model.machine s inst = some t) :
    t.trace.filter observed = s.trace.filter observed := by
  rw [(h.candidate hrun hc).inst] at hi
  cases hi
  obtain ⟨_, _, -, -, -, htrace⟩ :=
    exec_store (.inl rfl) ((h.delays.run run hrun).bits c hc) hexec
  rw [htrace, List.filter_append]
  exact List.append_nil _

/-- A merged store in front of the last one is not executed. -/
theorem Delayed.removed (h : Planned elementWidths eu b block runs)
    (hdelayed : Delayed eu model runs i s s') (hi : block.instructions[i]? = some inst)
    (hanchor : ∀ run ∈ runs, anchorOf run ≠ i) (hmem : ∃ run ∈ runs, i ∈ runIndices run)
    (hexec : eu.execInstruction model.machine s inst = some t) :
    Delayed eu model runs (i + 1) t s' := by
  refine (hdelayed.lagging.removed h.delays hi hanchor hmem hexec).delayed ?_
  obtain ⟨run, hrun, hindex⟩ := hmem
  obtain ⟨c, hc, rfl⟩ := List.mem_map.mp hindex
  rw [h.trace hrun hc hi hexec, hdelayed.trace]

/-- At the last store of a run all of it is stored. -/
theorem Delayed.anchored (h : Planned elementWidths eu b block runs) (hext : Extends eu eu')
    {before after : Allocation} (hknown : ∀ reg, Declared eu.types reg → reg ∈ before.registerMap)
    (hfinal : ShapesIn after.registerMap eu'.registerMap) {replacement : Replacement A}
    (hreplaces : Replaces before after run replacement)
    (hdelayed : Delayed eu model runs i s s') (hi : block.instructions[i]? = some inst)
    (hrun : run ∈ runs) (hanchor : anchorOf run = i)
    (hexec : eu.execInstruction model.machine s inst = some t) :
    ∃ t', eu'.execList model.machine s' replacement.newInstructions = some t' ∧
      Delayed eu model runs (i + 1) t t' := by
  obtain ⟨t', hexec', hlag, addr, offset, bits, value, htrace⟩ := hdelayed.lagging.anchored h.delays
    hext hknown hfinal hreplaces.insts hi hrun hanchor hexec
  obtain ⟨c, hc, rfl⟩ : ∃ c ∈ run, c.instIndex = i := hanchor ▸ exists_anchor (h.ne_nil hrun)
  refine ⟨t', hexec', hlag.delayed ?_⟩
  rw [htrace, List.filter_append, h.trace hrun hc hi hexec, hdelayed.trace.symm]
  exact List.append_nil _

theorem rebuild_exec (h : Planned elementWidths eu b block runs) (hext : Extends eu eu')
    {before after : Allocation} (hknown : ∀ reg, Declared eu.types reg → reg ∈ before.registerMap)
    (hfinal : ShapesIn after.registerMap eu'.registerMap) {replacements : List (Replacement A)}
    (hreplaces : List.Forall₂ (Replaces before after) runs replacements)
    {rest : List (SIRInstruction (RegionedAbsoluteAddr A))}
    (hrest : block.instructions.drop i = rest) (hexec : eu.execList model.machine s rest = some t)
    (hdelayed : Delayed eu model runs i s s') :
    ∃ t', eu'.execList model.machine s' (rebuild replacements i rest) = some t' ∧
      Delayed eu model runs (i + rest.length) t t' := by
  induction rest generalizing i s s' with
  | nil =>
    cases hexec
    exact ⟨s', rfl, hdelayed⟩
  | cons inst rest ih =>
    obtain ⟨hi, hrest, -⟩ := drop_cons hrest
    obtain ⟨u, hu, hexec⟩ := Option.bind_eq_some_iff.mp hexec
    have hone : ∃ u', eu'.execList model.machine s' (replaceAt replacements i inst) = some u' ∧
        Delayed eu model runs (i + 1) u u' := by
      rcases replaceAt_cases hreplaces (fun run hrun => h.ne_nil hrun) h.apart i inst with
        ⟨run, hrun, replacement, hreplaced, hanchor, heq⟩ | ⟨hanchor, hmem, heq⟩ | ⟨hnone, heq⟩
      · rw [heq]
        exact hdelayed.anchored h hext hknown hfinal hreplaced hi hrun hanchor hu
      · rw [heq]
        exact ⟨s', rfl, hdelayed.removed h hi hanchor hmem hu⟩
      · rw [heq, execList_singleton]
        exact hdelayed.kept h hext hi hnone hu
    obtain ⟨u', hexecOne, hdelayed'⟩ := hone
    obtain ⟨t', hexecRest, hdelayedEnd⟩ := ih hrest hexec hdelayed'
    refine ⟨t', ?_, ?_⟩
    · rw [rebuild, execList_append, hexecOne, Option.bind_some, hexecRest]
    · rwa [List.length_cons, Nat.add_comm rest.length, ← Nat.add_assoc]

omit [DecidableEq A] in
theorem Delayed.start (halike : Matches eu observed s s') : Delayed eu model runs 0 s s' :=
  ⟨halike.regs, fun a bit _ => by rw [halike.memory], halike.trace, halike.fits,
    fun _ _ _ _ hlt => by omega⟩

end Delay

/-! ## Runs -/

section Run
variable {A : Type} [DecidableEq A] (elementWidths : RegionedAbsoluteAddr A → Option Nat)
  (maxStoreWidth : Nat) (eu : ExecutionUnit (RegionedAbsoluteAddr A))

/-- Every merged run has sources as wide as its stores, and nothing that lands in front of its end
may write what it has stored. -/
def CoalescesWell : Prop :=
  ∀ b block, eu.blocks.lookup b = some block →
    ∀ run ∈ mergedRuns elementWidths maxStoreWidth block.instructions,
      MergedWell eu block.instructions (mergedRuns elementWidths maxStoreWidth block.instructions) run

variable {elementWidths maxStoreWidth eu}

end Run
/-! ## Two units -/

/-- The stable object of a unit with one. -/
def stableObject : RegionedAbsoluteAddr Unit := ⟨STABLE_REGION, ()⟩

def storesUnit (stores : List (SIRInstruction (RegionedAbsoluteAddr Unit))) :
    ExecutionUnit (RegionedAbsoluteAddr Unit) where
  entryBlockId := 0
  blocks := [⟨0, {
    id := 0
    params := []
    instructions := [.imm 0 ⟨1, 0⟩, .imm 1 ⟨0, 0⟩, .imm 2 ⟨2, 0⟩] ++ stores
    terminator := .ret }⟩].toAList
  registerMap := [⟨0, .bit 8 false⟩, ⟨1, .bit 16 false⟩, ⟨2, .bit 8 false⟩].toAList

/-- Two bytes, the upper one first. -/
def byteStores : ExecutionUnit (RegionedAbsoluteAddr Unit) :=
  storesUnit [.store stableObject (.static 8) 8 0 [] [], .store stableObject (.static 0) 8 2 [] []]

theorem byteStores_coalesce : CoalescesWell (fun _ => none) 64 byteStores := by
  intro b block hb run hrun
  obtain ⟨-, rfl⟩ := ExecutionUnit.Straight.only (show byteStores.Straight _ from ⟨rfl, rfl⟩) hb
  obtain rfl := List.mem_singleton.mp
    (show run ∈ [[⟨stableObject, 4, 0, 8, 2, []⟩, ⟨stableObject, 3, 8, 8, 0, []⟩]] from hrun)
  refine ⟨fun c hc => ?_, fun c hc k inst bit hlt hk hle hbit hwrite => ?_⟩
  · rcases List.mem_pair.mp hc with rfl | rfl
    · exact ⟨_, rfl, rfl⟩
    · exact ⟨_, rfl, rfl⟩
  · have hk5 : k < 5 := (List.getElem?_eq_some_iff.mp hk).1
    rcases List.mem_pair.mp hc with rfl | rfl <;> simp only at hlt hle hbit
    · omega
    · obtain rfl : k = 4 := by omega
      cases hk
      have hbelow : bit < 0 + 8 := hwrite.2.2
      omega

/-- A byte, both bytes over it, and the other byte: the first and the last store are merged. -/
def overlappedStores : ExecutionUnit (RegionedAbsoluteAddr Unit) :=
  storesUnit [.store stableObject (.static 8) 8 0 [] [], .store stableObject (.static 0) 16 1 [] [],
    .store stableObject (.static 0) 8 2 [] []]

end Celox.Opt
