import Celox.Opt.CoalesceStores
import Celox.Sir.ValueBits

/-! # Delayed stores

Stores with adjoining ranges are left out, and one store behind the last of them writes all of their
bits. In between the memories agree on all bits but the delayed ones, which are never read; where
nothing else writes them, the one store at the end makes up for all. -/
namespace Celox.Opt
open Celox.Sir Celox.Layout

/-! ## What stands for a run -/

section Anchors
variable {A : Type} {run : List (StoreCandidate A)}

theorem anchorOf_mem (h : run ≠ []) : anchorOf run ∈ runIndices run := by
  unfold anchorOf
  have hne : runIndices run ≠ [] := by
    unfold runIndices
    rwa [ne_eq, List.map_eq_nil_iff]
  generalize runIndices run = indices at hne
  induction indices with
  | nil => exact absurd rfl hne
  | cons index indices ih =>
    rw [List.foldr_cons]
    cases indices with
    | nil => simp
    | cons next indices =>
      rcases max_choice index ((next :: indices).foldr max 0) with heq | heq
      · rw [heq]
        exact List.mem_cons_self
      · rw [heq]
        exact List.mem_cons_of_mem _ (ih nofun)

theorem le_anchorOf {c : StoreCandidate A} (h : c ∈ run) : c.instIndex ≤ anchorOf run := by
  have hmem : c.instIndex ∈ runIndices run := List.mem_map_of_mem h
  unfold anchorOf
  generalize runIndices run = indices at hmem
  induction indices with
  | nil => cases hmem
  | cons index indices ih =>
    rw [List.foldr_cons]
    rcases List.mem_cons.mp hmem with rfl | hmem
    · exact le_max_left _ _
    · exact (ih hmem).trans (le_max_right _ _)

/-- The last store of a run. -/
theorem exists_anchor (h : run ≠ []) : ∃ c ∈ run, c.instIndex = anchorOf run :=
  List.mem_map.mp (anchorOf_mem h)

/-- A replacement for the stores of a run, at the last of them. -/
structure Anchored (run : List (StoreCandidate A)) (replacement : Replacement A) : Prop where
  removed : replacement.removedIndices = runIndices run
  anchor : replacement.anchorIndex = anchorOf run

section Replacements
variable {runs : List (List (StoreCandidate A))} {replacements : List (Replacement A)}
  {R : List (StoreCandidate A) → Replacement A → Prop}

/-- At most one run ends at an index. -/
theorem filter_anchored (h : List.Forall₂ R runs replacements)
    (hanchored : ∀ run replacement, R run replacement → Anchored run replacement)
    (hne : ∀ run ∈ runs, run ≠ []) (hapart : runs.Pairwise Apart) (i : Nat) :
    (∃ run ∈ runs, ∃ replacement, R run replacement ∧ anchorOf run = i ∧
      replacements.filter (fun r => r.anchorIndex = i) = [replacement]) ∨
    ((∀ run ∈ runs, anchorOf run ≠ i) ∧ replacements.filter (fun r => r.anchorIndex = i) = []) := by
  induction h with
  | nil => exact .inr ⟨nofun, rfl⟩
  | @cons run replacement runs replacements hhead _ ih =>
    rw [List.pairwise_cons] at hapart
    have hrest := ih (fun r hr => hne r (List.mem_cons_of_mem _ hr)) hapart.2
    have hat := (hanchored run replacement hhead).anchor
    by_cases hanchor : anchorOf run = i
    · refine .inl ⟨run, List.mem_cons_self, replacement, hhead, hanchor, ?_⟩
      have hother : ∀ run' ∈ runs, anchorOf run' ≠ i := fun run' hrun' heq => by
        obtain ⟨c, hc, hindex⟩ := exists_anchor (hne run List.mem_cons_self)
        obtain ⟨d, hd, hindex'⟩ := exists_anchor (hne run' (List.mem_cons_of_mem _ hrun'))
        exact hapart.1 run' hrun' c hc d hd (by omega)
      rw [List.filter_cons_of_pos (by simp only [hat, hanchor, decide_true])]
      rcases hrest with ⟨run', hrun', _, _, heq, _⟩ | ⟨-, hnil⟩
      · exact absurd heq (hother run' hrun')
      · rw [hnil]
    · rw [List.filter_cons_of_neg (by simp only [hat, hanchor, decide_false,
        Bool.false_eq_true, not_false_eq_true])]
      rcases hrest with ⟨run', hrun', r, hr, heq, hfilter⟩ | ⟨hnone, hnil⟩
      · exact .inl ⟨run', List.mem_cons_of_mem _ hrun', r, hr, heq, hfilter⟩
      · refine .inr ⟨fun run' hrun' => ?_, hnil⟩
        rcases List.mem_cons.mp hrun' with rfl | hrun'
        · exact hanchor
        · exact hnone run' hrun'

theorem any_removed (h : List.Forall₂ R runs replacements)
    (hanchored : ∀ run replacement, R run replacement → Anchored run replacement) (i : Nat) :
    (replacements.any fun r => i ∈ r.removedIndices) = true ↔ ∃ run ∈ runs, i ∈ runIndices run := by
  induction h with
  | nil => simp
  | cons hhead _ ih =>
    rw [List.any_cons, Bool.or_eq_true, ih, (hanchored _ _ hhead).removed, decide_eq_true_eq]
    simp

end Replacements

/-- The concatenation of the sources of a run and the store of it, with a register that is not
declared before. -/
def StandsFor (before after : Allocation) (run : List (StoreCandidate A))
    (triggers : List TriggerIdWithKind) (sites : List Nat)
    (insts : List (SIRInstruction (RegionedAbsoluteAddr A))) : Prop :=
  ∃ addr start reg offset, insts = [.concat reg (run.map (·.srcReg)).reverse,
      .store addr offset (runWidth run) reg triggers sites] ∧
    (∀ c ∈ run, c.addr = addr) ∧ Adjoining start run (start + runWidth run) ∧
    (offset = .static start ∨ ∃ elementWidth, offset = .packedElements start elementWidth) ∧
    reg ∉ before.registerMap ∧
    ∃ type, after.registerMap.lookup reg = some type ∧ type.width = runWidth run

theorem StandsFor.mono {before before' after after' : Allocation}
    {triggers : List TriggerIdWithKind} {sites : List Nat}
    {insts : List (SIRInstruction (RegionedAbsoluteAddr A))}
    (h : StandsFor before after run triggers sites insts) (hbefore : before'.Before before)
    (hafter : after.Before after') : StandsFor before' after' run triggers sites insts := by
  obtain ⟨addr, start, reg, offset, hnew, haddr, hadjoining, hoffset, hfresh, type, htype, hwidth⟩ := h
  obtain ⟨type', htype', hshape⟩ := hafter.shapes reg type htype
  exact ⟨addr, start, reg, offset, hnew, haddr, hadjoining, hoffset,
    fun hmem => hfresh (hbefore.shapes.mem hmem), type', htype',
    (congrArg RegisterShape.width hshape).trans hwidth⟩

end Anchors

theorem aggregateStaticOffset_start {start width : Nat} {elementWidth : Option Nat}
    {offset : SIROffset} (h : aggregateStaticOffset start width elementWidth = some offset) :
    offset = .static start ∨ ∃ elementWidth, offset = .packedElements start elementWidth := by
  unfold aggregateStaticOffset at h
  split at h
  · cases h
  · split at h
    · split at h
      · cases h
      · split_ifs at h <;> cases h
        · exact .inl rfl
        · exact .inr ⟨_, rfl⟩
    · cases h
      exact .inl rfl
  · cases h
    exact .inl rfl

/-! ## Runs of stores -/

section Runs
variable {A : Type} {eu : ExecutionUnit (RegionedAbsoluteAddr A)}
  {model : BitModel (RegionedAbsoluteAddr A)} {b : BlockId}
  {block : BasicBlock (RegionedAbsoluteAddr A)}
  {runs : List (List (StoreCandidate A))} {run : List (StoreCandidate A)} {c d : StoreCandidate A}
  {a : RegionedAbsoluteAddr A} {i bit : Nat} {inst : SIRInstruction (RegionedAbsoluteAddr A)}
  {s t : State (RegionedAbsoluteAddr A) (BitMemory (RegionedAbsoluteAddr A))}

def StoreCandidate.Covers (c : StoreCandidate A) (a : RegionedAbsoluteAddr A) (bit : Nat) : Prop :=
  c.addr = a ∧ c.offset ≤ bit ∧ bit < c.offset + c.width

/-- Where the instruction at an index lands: a merged store at the last store of its run. -/
def landing (runs : List (List (StoreCandidate A))) (k : Nat) : Nat :=
  match runs.find? fun run => k ∈ runIndices run with
  | some run => anchorOf run
  | none => k

/-- The candidate is a static store, whatever it triggers. -/
def StoreCandidate.StoresAt (instructions : List (SIRInstruction (RegionedAbsoluteAddr A)))
    (c : StoreCandidate A) : Prop :=
  ∃ triggers sites, instructions[c.instIndex]? =
    some (.store c.addr (.static c.offset) c.width c.srcReg triggers sites)

/-- A run that one store can stand for. Sources are as wide as their stores but for the uppermost
one, nothing reads a bit between the store of it and the end of the run, and whatever may write it
there lands behind the end. -/
structure DelayedRun (eu : ExecutionUnit (RegionedAbsoluteAddr A))
    (instructions : List (SIRInstruction (RegionedAbsoluteAddr A)))
    (runs : List (List (StoreCandidate A))) (run : List (StoreCandidate A)) : Prop where
  ne_nil : run ≠ []
  stores : ∀ c ∈ run, c.StoresAt instructions
  bits : ∀ c ∈ run, c.width ≠ 0
  width : ∀ c ∈ run.dropLast, HasWidth eu.types c.srcReg c.width
  unread : ∀ c ∈ run, ∀ (k : Nat) inst bit, c.instIndex < k → k < anchorOf run →
    instructions[k]? = some inst → c.offset ≤ bit → bit < c.offset + c.width →
    ¬ inst.mayRead c.addr bit
  order : ∀ c ∈ run, ∀ (k : Nat) inst bit, c.instIndex < k → instructions[k]? = some inst →
    c.offset ≤ bit → bit < c.offset + c.width → inst.mayWrite c.addr bit →
    anchorOf run < landing runs k

/-- A block with runs of stores that are delayed. -/
structure Delays (eu : ExecutionUnit (RegionedAbsoluteAddr A)) (b : BlockId)
    (block : BasicBlock (RegionedAbsoluteAddr A)) (runs : List (List (StoreCandidate A))) :
    Prop where
  verified : Verified eu
  lookup : eu.blocks.lookup b = some block
  apart : runs.Pairwise Apart
  run : ∀ run ∈ runs, DelayedRun eu block.instructions runs run

theorem landing_of_mem (happart : runs.Pairwise Apart) (hrun : run ∈ runs) (hc : c ∈ run) :
    landing runs c.instIndex = anchorOf run := by
  have hmem : c.instIndex ∈ runIndices run := List.mem_map_of_mem hc
  unfold landing
  cases hfind : runs.find? fun run => c.instIndex ∈ runIndices run with
  | none =>
    have hnot := List.find?_eq_none.mp hfind run hrun
    exact absurd (decide_eq_true hmem) hnot
  | some run' =>
    have hmem' : c.instIndex ∈ runIndices run' := of_decide_eq_true
      (List.find?_some (p := fun run => decide (c.instIndex ∈ runIndices run)) hfind)
    obtain ⟨d, hd, hindex⟩ := List.mem_map.mp hmem'
    rw [MergedRun.unique happart (List.mem_of_find?_eq_some hfind) hrun hd hc hindex]

theorem landing_of_not_mem (h : ∀ run ∈ runs, i ∉ runIndices run) : landing runs i = i := by
  unfold landing
  rw [List.find?_eq_none.mpr fun run hrun => by simpa using h run hrun]

/-- A bit that a merged store has written in the one unit and not yet in the other one. -/
def Pending (runs : List (List (StoreCandidate A))) (i : Nat) (a : RegionedAbsoluteAddr A)
    (bit : Nat) : Prop :=
  ∃ run ∈ runs, ∃ c ∈ run, c.instIndex < i ∧ i ≤ anchorOf run ∧ c.Covers a bit

/-- The bits of a merged store in front of `j` are still what it has stored, or a store of a run that
ends later has written them too. -/
def Lasts (model : BitModel (RegionedAbsoluteAddr A)) (runs : List (List (StoreCandidate A)))
    (i j : Nat) (s : State (RegionedAbsoluteAddr A) (BitMemory (RegionedAbsoluteAddr A))) : Prop :=
  ∀ run ∈ runs, ∀ c ∈ run, c.instIndex < j → i ≤ anchorOf run →
    ∃ value, s.regs c.srcReg = some value ∧ ∀ bit, c.offset ≤ bit → bit < c.offset + c.width →
      s.memory c.addr bit = model.hold c.addr (value.bit (bit - c.offset)) ∨
      ∃ run' ∈ runs, ∃ d ∈ run', d.instIndex < j ∧ anchorOf run < anchorOf run' ∧ d.Covers c.addr bit

/-- Behind the block nothing is delayed. -/
theorem not_pending_length (h : Delays eu b block runs) :
    ¬ Pending runs block.instructions.length a bit := by
  rintro ⟨run, hrun, c, hc, -, hle, -⟩
  obtain ⟨last, hlast, hindex⟩ := exists_anchor (h.run run hrun).ne_nil
  obtain ⟨_, _, hinst⟩ := (h.run run hrun).stores last hlast
  have := (List.getElem?_eq_some_iff.mp hinst).1
  omega

/-- The source of a merged store is not defined any more behind it. -/
theorem Delays.source (h : Delays eu b block runs) (hrun : run ∈ runs) (hc : c ∈ run) :
    UndefinedFrom block.instructions (c.instIndex + 1) c.srcReg ∧
      ∃ type, eu.types c.srcReg = some type ∧ c.width ≤ type.width := by
  have hbits := (h.run run hrun).bits c hc
  obtain ⟨triggers, sites, hinst⟩ := (h.run run hrun).stores c hc
  refine ⟨h.verified.undefined_used h.lookup hinst ?_, ?_⟩
  · rw [SIRInstruction.uses, if_neg hbits]
    exact List.mem_append_right _ (List.mem_singleton_self _)
  · have htyped : InstructionTyped eu.types (.store c.addr (.static c.offset) c.width c.srcReg
        triggers sites) :=
      (h.verified.blocks b block h.lookup).typed.typed _ (List.mem_of_getElem? hinst)
    simp only [InstructionTyped, hbits, if_false] at htyped
    exact htyped.1

/-- One more instruction of the original unit. -/
theorem Lasts.step [DecidableEq A] (h : Delays eu b block runs)
    (hlasts : Lasts model runs i i s) (hi : block.instructions[i]? = some inst)
    (hexec : eu.execInstruction model.machine s inst = some t) : Lasts model runs i (i + 1) t := by
  intro run hrun c hc hlt hanchor
  obtain ⟨_, _, hat⟩ := (h.run run hrun).stores c hc
  rcases Nat.lt_succ_iff_lt_or_eq.mp hlt with hlt | heq
  · obtain ⟨value, hvalue, hbits⟩ := hlasts run hrun c hc hlt hanchor
    have hundefined := (h.source hrun hc).1 i inst hlt hi
    refine ⟨value, (execInstruction_frame hexec hundefined).trans hvalue, fun bit hle hbit => ?_⟩
    by_cases hwrite : inst.mayWrite c.addr bit
    · -- what writes the bit is itself merged, into a run that ends later
      have horder := (h.run run hrun).order c hc i inst bit hlt hi hle hbit hwrite
      by_cases hmem : ∃ run' ∈ runs, i ∈ runIndices run'
      · obtain ⟨run', hrun', hindex⟩ := hmem
        obtain ⟨d, hd, rfl⟩ := List.mem_map.mp hindex
        rw [landing_of_mem h.apart hrun' hd] at horder
        obtain ⟨_, _, hinst⟩ := (h.run run' hrun').stores d hd
        rw [hi] at hinst
        cases hinst
        exact .inr ⟨run', hrun', d, hd, Nat.lt_succ_self _, horder, hwrite⟩
      · rw [landing_of_not_mem fun run' hrun' hindex => hmem ⟨run', hrun', hindex⟩] at horder
        omega
    · rcases hbits bit hle hbit with hmemory | ⟨run', hrun', d, hd, hdlt, hlater, hcovers⟩
      · exact .inl ((exec_memory hexec hwrite).trans hmemory)
      · exact .inr ⟨run', hrun', d, hd, by omega, hlater, hcovers⟩
  · subst heq
    rw [hi] at hat
    cases hat
    obtain ⟨value, -, hvalue, hregs, hmemory, -⟩ :=
      exec_store (.inl rfl) ((h.run run hrun).bits c hc) hexec
    refine ⟨value, hregs ▸ hvalue, fun bit hle hbit => .inl ?_⟩
    rw [hmemory]
    simp only [writeBits, hle, hbit, and_self, if_true]

theorem Lasts.next (h : Lasts model runs i (i + 1) s) : Lasts model runs (i + 1) (i + 1) s :=
  fun run hrun c hc hlt hanchor => h run hrun c hc hlt (by omega)

/-! ## Three kinds of indices -/

/-- The states in front of an index, of the block and of one in which stores are delayed. -/
structure Lagging (eu : ExecutionUnit (RegionedAbsoluteAddr A))
    (model : BitModel (RegionedAbsoluteAddr A)) (runs : List (List (StoreCandidate A))) (i : Nat)
    (s s' : State (RegionedAbsoluteAddr A) (BitMemory (RegionedAbsoluteAddr A))) : Prop where
  regs : RegsAgree eu s.regs s'.regs
  memory : ∀ a bit, ¬ Pending runs i a bit → s.memory a bit = s'.memory a bit
  fits : Fits eu s.regs
  lasts : Lasts model runs i i s

theorem Lagging.start {s s' : State (RegionedAbsoluteAddr A) (BitMemory (RegionedAbsoluteAddr A))}
    (hregs : RegsAgree eu s.regs s'.regs) (hmemory : s'.memory = s.memory)
    (hfits : Fits eu s.regs) : Lagging eu model runs 0 s s' :=
  ⟨hregs, fun a bit _ => by rw [hmemory], hfits, fun _ _ _ _ hlt => by omega⟩

variable {s' : State (RegionedAbsoluteAddr A) (BitMemory (RegionedAbsoluteAddr A))}

/-- Behind the block the memories are the same. -/
theorem Lagging.stop (h : Delays eu b block runs)
    (hlag : Lagging eu model runs block.instructions.length s s') : s'.memory = s.memory :=
  funext fun a => funext fun bit => (hlag.memory a bit (not_pending_length h)).symm

/-- What is not merged reads no delayed bits. -/
theorem Delays.unread (h : Delays eu b block runs) (hi : block.instructions[i]? = some inst)
    (hnone : ∀ run ∈ runs, i ∉ runIndices run) (hread : inst.mayRead a bit) :
    ¬ Pending runs i a bit := by
  rintro ⟨run, hrun, c, hc, hlt, hle, rfl, hoffset, hbit⟩
  have hne : i ≠ anchorOf run := fun heq =>
    hnone run hrun (heq ▸ anchorOf_mem (h.run run hrun).ne_nil)
  exact (h.run run hrun).unread c hc i inst bit hlt (by omega) hi hoffset hbit hread

variable [DecidableEq A] {eu' : ExecutionUnit (RegionedAbsoluteAddr A)}

/-- What is not merged is executed in both units. -/
theorem Lagging.kept (h : Delays eu b block runs) (hext : Extends eu eu')
    (hlag : Lagging eu model runs i s s') (hi : block.instructions[i]? = some inst)
    (hnone : ∀ run ∈ runs, i ∉ runIndices run)
    (hexec : eu.execInstruction model.machine s inst = some t) :
    ∃ t', eu'.execInstruction model.machine s' inst = some t' ∧
      Lagging eu model runs (i + 1) t t' ∧
      ∃ effects, t.trace = s.trace ++ effects ∧ t'.trace = s'.trace ++ effects := by
  have hanchor : ∀ run ∈ runs, anchorOf run ≠ i := fun run hrun heq =>
    hnone run hrun (heq ▸ anchorOf_mem (h.run run hrun).ne_nil)
  have hpending : ∀ a bit, Pending runs i a bit → Pending runs (i + 1) a bit := by
    rintro a bit ⟨run, hrun, c, hc, hlt, hle, hcovers⟩
    exact ⟨run, hrun, c, hc, by omega, by have := hanchor run hrun; omega, hcovers⟩
  obtain ⟨t', hexec', hregs, hmemory, htrace⟩ := exec_agree
    (Q := fun a bit => ¬ Pending runs (i + 1) a bit) hext (h.verified.declares h.lookup hi)
    hlag.regs (fun a bit hor => hlag.memory a bit (hor.elim (h.unread hi hnone)
      fun hnot hpend => hnot.1 (hpending a bit hpend))) hexec
  exact ⟨t', hexec', ⟨hregs, hmemory, hlag.fits.exec hexec,
    (hlag.lasts.step h hi hexec).next⟩, htrace⟩

/-- What the original unit does with a merged store. -/
theorem Delays.exec_run (h : Delays eu b block runs) (hrun : run ∈ runs) (hc : c ∈ run)
    (hi : block.instructions[c.instIndex]? = some inst)
    (hexec : eu.execInstruction model.machine s inst = some t) :
    t.regs = s.regs ∧ ∀ a bit, ¬ c.Covers a bit → t.memory a bit = s.memory a bit := by
  obtain ⟨_, _, hinst⟩ := (h.run run hrun).stores c hc
  rw [hi] at hinst
  cases hinst
  obtain ⟨-, -, -, hregs, -, -⟩ := exec_store (.inl rfl) ((h.run run hrun).bits c hc) hexec
  exact ⟨hregs, fun a bit hout => exec_memory hexec hout⟩

/-- A merged store in front of the last one is not executed. -/
theorem Lagging.removed (h : Delays eu b block runs) (hlag : Lagging eu model runs i s s')
    (hi : block.instructions[i]? = some inst) (hanchor : ∀ run ∈ runs, anchorOf run ≠ i)
    (hmem : ∃ run ∈ runs, i ∈ runIndices run)
    (hexec : eu.execInstruction model.machine s inst = some t) :
    Lagging eu model runs (i + 1) t s' := by
  obtain ⟨run, hrun, hindex⟩ := hmem
  obtain ⟨c, hc, rfl⟩ := List.mem_map.mp hindex
  have hlasts := (hlag.lasts.step h hi hexec).next
  obtain ⟨hregs, hmemory⟩ := h.exec_run hrun hc hi hexec
  refine ⟨hregs ▸ hlag.regs, fun a bit hnot => ?_, hregs ▸ hlag.fits, hlasts⟩
  have hcovers : ¬ c.Covers a bit := fun hcovers => hnot ⟨run, hrun, c, hc, Nat.lt_succ_self _, by
    have := le_anchorOf hc
    have := hanchor run hrun
    omega, hcovers⟩
  rw [hmemory a bit hcovers]
  refine hlag.memory a bit fun ⟨run', hrun', d, hd, hlt, hle, hd'⟩ => hnot ?_
  exact ⟨run', hrun', d, hd, by omega, by have := hanchor run' hrun'; omega, hd'⟩

omit [DecidableEq A] in
/-- The sources of adjoining stores spell out their range, also with an uppermost source that is
wider than its store. -/
theorem spells_run (eu : ExecutionUnit (RegionedAbsoluteAddr A)) (regs : Registers)
    {cursor stop : Nat} (h : Adjoining cursor run stop)
    (hvalues : ∀ c ∈ run, ∃ type value, eu.types c.srcReg = some type ∧
      regs c.srcReg = some value ∧ value.fits type.width ∧ c.width ≤ type.width)
    (hwidths : ∀ c ∈ run.dropLast, HasWidth eu.types c.srcReg c.width) :
    ∃ bits stop', stop ≤ stop' ∧ Spells eu regs bits cursor (run.map (·.srcReg)) stop' ∧
      ∀ c ∈ run, ∀ value, regs c.srcReg = some value → ∀ bit, c.offset ≤ bit →
        bit < c.offset + c.width → bits bit = value.bit (bit - c.offset) := by
  induction run generalizing cursor with
  | nil =>
    cases h
    exact ⟨fun _ => (false, false), _, le_rfl, .nil, nofun⟩
  | cons first rest ih =>
    obtain ⟨type, value, htype, hvalue, hfits, hwide⟩ := hvalues first List.mem_cons_self
    obtain ⟨hoffset, hrest⟩ := h
    have hfirst : ∀ (bits : Nat → Bool × Bool) (v : SIRValue), regs first.srcReg = some v → ∀ bit,
        first.offset ≤ bit → bit < first.offset + first.width →
        (if bit < cursor + type.width then value.bit (bit - cursor) else bits bit) =
          v.bit (bit - first.offset) := fun bits v hv bit hle hlt => by
      rw [hvalue] at hv
      cases hv
      rw [if_pos (by omega), hoffset]
    have hspelled : ∀ (bits : Nat → Bool × Bool), ∀ k < type.width, value.bit k =
        if cursor + k < cursor + type.width then value.bit (cursor + k - cursor)
        else bits (cursor + k) := fun bits k hk => by
      rw [if_pos (by omega), Nat.add_sub_cancel_left]
    cases rest with
    | nil =>
      -- the uppermost source may be wider than its store
      obtain rfl : cursor + first.width = stop := hrest
      refine ⟨fun k => if k < cursor + type.width then value.bit (k - cursor) else (false, false),
        cursor + type.width, by omega,
        .cons htype hvalue hfits (hspelled fun _ => (false, false)) .nil, ?_⟩
      intro c hc
      obtain rfl := List.mem_singleton.mp hc
      exact hfirst fun _ => (false, false)
    | cons second rest =>
      obtain ⟨type', htype', hwidth⟩ := hwidths first (by simp)
      rw [htype] at htype'
      obtain rfl := Option.some.inj htype'
      rw [← hwidth] at hrest
      obtain ⟨bits, stop', hle, hspells, hbits⟩ := ih hrest
        (fun c hc => hvalues c (List.mem_cons_of_mem _ hc)) fun c hc => hwidths c (List.mem_cons_of_mem _ hc)
      refine ⟨fun k => if k < cursor + type.width then value.bit (k - cursor) else bits k, stop', hle,
        ?_, fun c hc v hv bit hoff hlt => ?_⟩
      · exact .cons htype hvalue hfits (hspelled _) (hspells.congr_bits fun k hk =>
          if_neg (by omega))
      · rcases List.mem_cons.mp hc with rfl | hc
        · exact hfirst _ v hv bit hoff hlt
        · have := (hrest.bounds.2 c hc).1
          simp only
          rw [if_neg (by omega)]
          exact hbits c hc v hv bit hoff hlt

/-- At the last store of a run all of it is stored. -/
theorem Lagging.anchored (h : Delays eu b block runs) (hext : Extends eu eu')
    {before after : Allocation} (hknown : ∀ reg, Declared eu.types reg → reg ∈ before.registerMap)
    (hfinal : ShapesIn after.registerMap eu'.registerMap)
    {triggers : List TriggerIdWithKind} {sites : List Nat}
    {insts : List (SIRInstruction (RegionedAbsoluteAddr A))}
    (hstands : StandsFor before after run triggers sites insts)
    (hlag : Lagging eu model runs i s s') (hi : block.instructions[i]? = some inst)
    (hrun : run ∈ runs) (hanchor : anchorOf run = i)
    (hexec : eu.execInstruction model.machine s inst = some t) :
    ∃ t', eu'.execList model.machine s' insts = some t' ∧ Lagging eu model runs (i + 1) t t' ∧
      ∃ addr offset bits value, t'.trace = s'.trace ++ [.store addr offset bits value triggers sites] := by
  have hdelayed := h.run run hrun
  obtain ⟨c, hc, rfl⟩ : ∃ c ∈ run, c.instIndex = i := hanchor ▸ exists_anchor hdelayed.ne_nil
  have hlasts := hlag.lasts.step h hi hexec
  obtain ⟨hregs, hmemory⟩ := h.exec_run hrun hc hi hexec
  obtain ⟨addr, start, reg, offset, rfl, haddr, hadjoining, hoffset, hfresh, regType, hregType,
    hregWidth⟩ := hstands
  -- the sources still have the values that were stored
  have hstored : ∀ e ∈ run, ∃ value, s'.regs e.srcReg = some value ∧ ∀ bit, e.offset ≤ bit →
      bit < e.offset + e.width → t.memory e.addr bit = model.hold e.addr (value.bit (bit - e.offset)) ∨
      Pending runs (c.instIndex + 1) e.addr bit := by
    intro e he
    obtain ⟨value, hvalue, hbits⟩ := hlasts run hrun e he
      (Nat.lt_succ_of_le (hanchor ▸ le_anchorOf he)) (Nat.le_of_eq hanchor.symm)
    obtain ⟨type, htype, -⟩ := (h.source hrun he).2
    rw [hregs, ← hlag.regs _ ⟨type, htype⟩] at hvalue
    refine ⟨value, hvalue, fun bit hle hlt => (hbits bit hle hlt).imp_right ?_⟩
    rintro ⟨run', hrun', d, hd, hdlt, hlater, hcovers⟩
    exact ⟨run', hrun', d, hd, hdlt, by omega, hcovers⟩
  obtain ⟨bits, stop, hstop, hspells, hbits⟩ := spells_run eu' s'.regs hadjoining (fun e he => by
    obtain ⟨type, htype, hwidth⟩ := (h.source hrun he).2
    obtain ⟨type', htype', hshape⟩ := hext _ type htype
    obtain ⟨value, hvalue, -⟩ := hstored e he
    have hwidth' : type'.width = type.width := congrArg RegisterShape.width hshape
    refine ⟨type', value, htype', hvalue, hwidth' ▸ hlag.fits _ type value htype ?_,
      hwidth.trans_eq hwidth'.symm⟩
    rw [← hlag.regs _ ⟨type, htype⟩, hvalue]) fun e he => by
      obtain ⟨type, htype, hwidth⟩ := hdelayed.width e he
      obtain ⟨type', htype', hshape⟩ := hext _ type htype
      exact ⟨type', htype', (congrArg RegisterShape.width hshape).trans hwidth⟩
  obtain ⟨values, hvalues, -, hconcat⟩ := hspells.concat
  obtain ⟨regType', hregType', hshape⟩ := hfinal reg regType hregType
  have hregWidth' : regType'.width = runWidth run :=
    (congrArg RegisterShape.width hshape).trans hregWidth
  have hkept : ∀ k < runWidth run, (eu'.kept reg (evalConcat values.reverse)).bit k =
      bits (start + k) := fun k hk => by
    rw [kept_bit hregType' _ (hk.trans_eq hregWidth'.symm), hconcat k (by omega)]
  have hconcatExec : eu'.execInstruction model.machine s'
      (.concat reg (run.map (·.srcReg)).reverse) =
      some (eu'.assign s' reg (evalConcat values.reverse)) := by
    simp only [ExecutionUnit.execInstruction, mapM_reverse hvalues, Option.bind_eq_bind,
      Option.bind_some, Option.pure_def]
  have hreg : (eu'.assign s' reg (evalConcat values.reverse)).regs reg =
      some (eu'.kept reg (evalConcat values.reverse)) := Function.update_self ..
  have hwidth : runWidth run ≠ 0 := by
    have := (hadjoining.bounds.2 c hc).2
    have := (hadjoining.bounds.2 c hc).1
    have := hdelayed.bits c hc
    omega
  obtain ⟨t', hexec'⟩ := exec_store_some model eu' addr (runWidth run) triggers sites hoffset hreg
  obtain ⟨value, effect, hvalue, hregs', hmemory', htrace'⟩ := exec_store hoffset hwidth hexec'
  rw [hreg] at hvalue
  cases hvalue
  refine ⟨t', ?_, ⟨fun r hr => ?_, fun a bit hnot => ?_, hregs ▸ hlag.fits, hlasts.next⟩,
    _, _, _, _, htrace'⟩
  · rw [ExecutionUnit.execList, hconcatExec, Option.bind_some, execList_singleton, hexec']
  · rw [hregs', hregs, ← hlag.regs r hr]
    have hne : r ≠ reg := fun heq => hfresh (heq ▸ hknown r hr)
    exact Function.update_of_ne hne _ _
  · rw [hmemory']
    simp only [writeBits]
    by_cases hin : a = addr ∧ start ≤ bit ∧ bit < start + runWidth run
    · obtain ⟨rfl, hle, hlt⟩ := hin
      rw [if_pos ⟨rfl, hle, hlt⟩]
      obtain ⟨e, he, hcovers⟩ := hadjoining.covers hle hlt
      obtain ⟨value, hvalue, hholds⟩ := hstored e he
      rw [haddr e he] at hholds
      rw [(hholds bit hcovers.1 hcovers.2).resolve_right hnot, hkept _ (by omega),
        ← hbits e he value hvalue bit hcovers.1 hcovers.2]
      congr 2
      omega
    · rw [if_neg hin]
      have hout : ∀ e ∈ run, ¬ e.Covers a bit := by
        rintro e he ⟨hsame, hle, hlt⟩
        refine hin ⟨by rw [← hsame, haddr e he], ?_, ?_⟩
        · have := (hadjoining.bounds.2 e he).1
          omega
        · have := (hadjoining.bounds.2 e he).2
          omega
      rw [hmemory a bit (hout c hc)]
      refine hlag.memory a bit ?_
      rintro ⟨run', hrun', d, hd, hlt, hle, hcovers⟩
      apply hnot
      refine ⟨run', hrun', d, hd, by omega, Nat.lt_of_le_of_ne hle fun heq => ?_, hcovers⟩
      -- another run does not end here
      obtain ⟨last, hlast, hindex'⟩ := exists_anchor (h.run run' hrun').ne_nil
      obtain rfl := MergedRun.unique h.apart hrun hrun' hc hlast (by omega)
      exact hout d hd hcovers

end Runs
end Celox.Opt
