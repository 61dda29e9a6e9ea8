import Celox.Sir.Extends
import Celox.Sir.Frames

/-! # Facts from a definition on

Where the definition of a register dominates a point of a run, neither the register nor an operand of
its definition was defined again since. A fact that only such definitions can end still holds. -/
namespace Celox.Sir
open Celox.Graph Relation

variable {A S : Type} {m : Machine A S} {eu : ExecutionUnit A} {memory : S}

/-- A fact about the points of runs that lasts until one of some registers is defined. -/
structure Lasting (m : Machine A S) (eu : ExecutionUnit A) (regs : List RegisterId)
    (P : BlockId → Nat → State A S → Prop) : Prop where
  instruction : ∀ b block (i : Nat) inst s t, eu.blocks.lookup b = some block →
    block.instructions[i]? = some inst → (∀ reg ∈ regs, inst.definedRegister ≠ some reg) →
      eu.execInstruction m s inst = some t → P b i s → P b (i + 1) t
  terminator : ∀ b block s c, eu.blocks.lookup b = some block →
    (∀ reg ∈ regs, ∀ next, eu.blocks.lookup c.block = some next → reg ∉ next.params) →
      eu.execTerminator m s block.terminator = .goto c →
        P b block.instructions.length s → P c.block 0 c.state

section Last
variable {regs : List RegisterId} {P : BlockId → Nat → State A S → Prop} {b : BlockId}
  {block : BasicBlock A} {s t : State A S}

theorem Lasting.execList (h : Lasting m eu regs P) (hb : eu.blocks.lookup b = some block)
    {list : List (SIRInstruction A)} {i : Nat}
    (hinst : ∀ (k : Nat) inst, list[k]? = some inst → block.instructions[i + k]? = some inst)
    (hnot : ∀ reg ∈ regs, ∀ inst ∈ list, inst.definedRegister ≠ some reg)
    (hexec : eu.execList m s list = some t) (hp : P b i s) : P b (i + list.length) t := by
  induction list generalizing s i with
  | nil =>
    cases hexec
    exact hp
  | cons inst list ih =>
    obtain ⟨u, hu, hrest⟩ := Option.bind_eq_some_iff.mp hexec
    have hnext := h.instruction b block i inst s u hb (hinst 0 inst rfl)
      (fun reg hreg => hnot reg hreg inst List.mem_cons_self) hu hp
    have htail := ih (i := i + 1) (fun k other hk => by
        rw [Nat.add_assoc, Nat.add_comm 1 k]
        exact hinst (k + 1) other hk)
      (fun reg hreg other hother => hnot reg hreg other (List.mem_cons_of_mem _ hother)) hrest hnext
    rwa [List.length_cons, Nat.add_comm list.length, ← Nat.add_assoc]

/-- From one position of a block to another one. -/
theorem Lasting.between (h : Lasting m eu regs P) (hb : eu.blocks.lookup b = some block)
    {entered : State A S} {i j : Nat} (hij : i ≤ j) (hj : j ≤ block.instructions.length)
    (hnot : ∀ reg ∈ regs, ∀ (k : Nat) inst, i ≤ k → k < j → block.instructions[k]? = some inst →
      inst.definedRegister ≠ some reg)
    (hi : ∀ s, eu.execList m entered (block.instructions.take i) = some s → P b i s)
    (hexec : eu.execList m entered (block.instructions.take j) = some t) : P b j t := by
  obtain ⟨k, rfl⟩ := Nat.exists_eq_add_of_le hij
  rw [List.take_add, execList_append] at hexec
  obtain ⟨s, hs, hrest⟩ := Option.bind_eq_some_iff.mp hexec
  have hget : ∀ (l : Nat) inst, ((block.instructions.drop i).take k)[l]? = some inst →
      l < k ∧ block.instructions[i + l]? = some inst := by
    intro l inst hl
    rw [List.getElem?_take] at hl
    split at hl
    · rename_i hlt
      rw [List.getElem?_drop] at hl
      exact ⟨hlt, hl⟩
    · cases hl
  have hlast := h.execList hb (i := i) (fun l inst hl => (hget l inst hl).2)
    (fun reg hreg inst hinst => by
      obtain ⟨l, hl⟩ := List.mem_iff_getElem?.mp hinst
      obtain ⟨hlt, hl⟩ := hget l inst hl
      exact hnot reg hreg (i + l) inst (Nat.le_add_right _ _) (by omega) hl) hrest (hi s hs)
  rwa [List.length_take, List.length_drop, Nat.min_eq_left (by omega)] at hlast

end Last

/-- A run is in front of an instruction of a block, or behind the last one. -/
structure ExecutionUnit.Point (eu : ExecutionUnit A) (m : Machine A S) (memory : S) (b : BlockId)
    (block : BasicBlock A) (i : Nat) (s : State A S) : Prop where
  lookup : eu.blocks.lookup b = some block
  le : i ≤ block.instructions.length
  run : ∃ entered, eu.Visits m memory b entered ∧
    eu.execList m entered (block.instructions.take i) = some s

section Point
variable {b : BlockId} {block : BasicBlock A} {i : Nat} {s t : State A S}

theorem point_entered (hvisit : eu.Visits m memory b s) (hb : eu.blocks.lookup b = some block) :
    eu.Point m memory b block 0 s :=
  ⟨hb, Nat.zero_le _, s, hvisit, rfl⟩

theorem ExecutionUnit.Point.next (h : eu.Point m memory b block i s) {inst : SIRInstruction A}
    (hi : block.instructions[i]? = some inst) (hexec : eu.execInstruction m s inst = some t) :
    eu.Point m memory b block (i + 1) t := by
  obtain ⟨entered, hvisit, hrun⟩ := h.run
  refine ⟨h.lookup, (List.getElem?_eq_some_iff.mp hi).1, entered, hvisit, ?_⟩
  rw [List.take_add_one, hi, Option.toList_some, execList_append, hrun, Option.bind_some,
    execList_singleton, hexec]

end Point

/-! ## Verified units -/

section Verified
variable {home : BlockId} {homeBlock : BasicBlock A} {k : Nat} {inst : SIRInstruction A}
  {dst : RegisterId} {P : BlockId → Nat → State A S → Prop} {b : BlockId} {block : BasicBlock A}

/-- A register is defined in the block of its defining instruction alone. -/
theorem Verified.defined_only (hv : Verified eu) (hhome : eu.blocks.lookup home = some homeBlock)
    (hk : homeBlock.instructions[k]? = some inst) (hdst : inst.definedRegister = some dst) :
    DefinedOnlyIn eu dst home := by
  have hdef : (dst, DefSite.inst homeBlock.id k) ∈ eu.definitions :=
    mem_unit_definitions.mpr ⟨home, homeBlock, hhome, mem_definitions_inst.mpr ⟨rfl, inst, hk, hdst⟩⟩
  refine ⟨fun d other hd hmem => ?_, fun d other hd inst' hinst' hreg => ?_⟩
  · have hparam : (dst, DefSite.param other.id) ∈ eu.definitions :=
      mem_unit_definitions.mpr ⟨d, other, hd, mem_definitions_param.mpr ⟨rfl, hmem⟩⟩
    cases hv.single.site dst _ _ hdef hparam
  · obtain ⟨l, hl⟩ := List.mem_iff_getElem?.mp hinst'
    have hinst : (dst, DefSite.inst other.id l) ∈ eu.definitions :=
      mem_unit_definitions.mpr ⟨d, other, hd, mem_definitions_inst.mpr ⟨rfl, inst', hl, hreg⟩⟩
    have hsame := hv.single.site dst _ _ hdef hinst
    rw [hv.ids home homeBlock hhome, hv.ids d other hd] at hsame
    cases hsame
    rfl

/-- The registers of a definition are defined in blocks above it. -/
theorem Verified.above_definition (hv : Verified eu) (hhome : eu.blocks.lookup home = some homeBlock)
    (hk : homeBlock.instructions[k]? = some inst) (hdst : inst.definedRegister = some dst)
    {reg : RegisterId} (hreg : reg ∈ dst :: inst.uses) :
    ∃ d, Dom eu.Flow eu.entryBlockId d home ∧ DefinedOnlyIn eu reg d := by
  rcases List.mem_cons.mp hreg with rfl | hreg
  · exact ⟨home, Dom.refl home, hv.defined_only hhome hk hdst⟩
  · exact hv.defined_above hhome (.inl ⟨inst, hk, hreg⟩)

variable (hv : Verified eu) (hhome : eu.blocks.lookup home = some homeBlock)
  (hk : homeBlock.instructions[k]? = some inst) (hdst : inst.definedRegister = some dst)
  (hlasts : Lasting m eu (dst :: inst.uses) P)
  (hstart : ∀ entered s t, eu.Visits m memory home entered →
    eu.execList m entered (homeBlock.instructions.take k) = some s →
      eu.execInstruction m s inst = some t → P home (k + 1) t)
include hv hhome hk hdst hlasts hstart

/-- Behind the definition, in its block. -/
theorem Verified.lasts_behind {entered t : State A S} {i : Nat}
    (hvisit : eu.Visits m memory home entered) (hki : k < i) (hi : i ≤ homeBlock.instructions.length)
    (hexec : eu.execList m entered (homeBlock.instructions.take i) = some t) : P home i t := by
  refine hlasts.between hhome hki hi (fun reg hreg l other hle _ hl => ?_) (fun s hs => ?_) hexec
  · rcases List.mem_cons.mp hreg with rfl | hreg
    · exact hv.undefined_defined hhome hk hdst l other hle hl
    · exact hv.undefined_used hhome hk hreg l other hle hl
  · rw [List.take_add_one, hk, Option.toList_some, execList_append] at hs
    obtain ⟨u, hu, hinst⟩ := Option.bind_eq_some_iff.mp hs
    rw [execList_singleton] at hinst
    exact hstart entered u s hvisit hu hinst

/-- A block is entered past the definition, or is its block, or is entered with the fact. -/
theorem Verified.entered_since {s : State A S} (hvisit : eu.Visits m memory b s) :
    Avoids eu.Flow home eu.entryBlockId b ∨ b = home ∨ P b 0 s := by
  have hreach := hv.reach home (mem_table.mpr ⟨homeBlock, hhome⟩)
  induction hvisit with
  | start =>
    by_cases heq : eu.entryBlockId = home
    · exact .inr (.inl heq)
    · exact .inl ⟨heq, .refl⟩
  | @next b block s t c hvisit hb hexec hgo ih =>
    have hflow := hv.flow_of_goto hb hgo
    by_cases hc : c.block = home
    · exact .inr (.inl hc)
    -- where the next block defines one of the registers, it is reached past the definition
    by_cases hparam : ∃ reg ∈ dst :: inst.uses, ∃ next, eu.blocks.lookup c.block = some next ∧
        reg ∈ next.params
    · obtain ⟨reg, hreg, next, hnext, hmem⟩ := hparam
      obtain ⟨d, hdom, hdefined⟩ := hv.above_definition hhome hk hdst hreg
      have hd := hdefined.params c.block next hnext hmem
      exact .inl (avoids_of_above hreach (hd ▸ hdom) hc)
    have hpass : P b block.instructions.length t → P c.block 0 c.state :=
      hlasts.terminator b block t c hb (fun reg hreg next hnext hmem =>
        hparam ⟨reg, hreg, next, hnext, hmem⟩) hgo
    by_cases hbh : b = home
    · subst hbh
      rw [hhome] at hb
      cases hb
      refine .inr (.inr (hpass (hv.lasts_behind hhome hk hdst hlasts hstart hvisit
        (List.getElem?_eq_some_iff.mp hk).1 le_rfl ?_)))
      rwa [List.take_length]
    rcases ih with havoid | heq | hp
    · exact .inl (havoid.step hflow hc)
    · exact absurd heq hbh
    · by_cases hdef : ∃ reg ∈ dst :: inst.uses, ∃ other ∈ block.instructions,
          other.definedRegister = some reg
      · obtain ⟨reg, hreg, other, hother, hdefines⟩ := hdef
        obtain ⟨d, hdom, hdefined⟩ := hv.above_definition hhome hk hdst hreg
        have hd := hdefined.insts b block hb other hother hdefines
        exact .inl ((avoids_of_above hreach (hd ▸ hdom) hbh).step hflow hc)
      · refine .inr (.inr (hpass ?_))
        have hall := hlasts.execList hb (i := 0) (fun l other hl => by rwa [Nat.zero_add])
          (fun reg hreg other hother hdefines => hdef ⟨reg, hreg, other, hother, hdefines⟩) hexec hp
        rwa [Nat.zero_add] at hall

/-- At every point where the definition is available the fact holds. -/
theorem Verified.holds_available {s : State A S} {i : Nat} (hpoint : eu.Point m memory b block i s)
    (havail : eu.Available b i (.inst home k)) : P b i s := by
  obtain ⟨hb, hi, entered, hvisit, hexec⟩ := hpoint
  rcases havail with ⟨rfl, hki⟩ | ⟨hne, hdom⟩
  · rw [hhome] at hb
    cases hb
    exact hv.lasts_behind hhome hk hdst hlasts hstart hvisit hki hi hexec
  · have hreach := hv.reach home (mem_table.mpr ⟨homeBlock, hhome⟩)
    rcases hv.entered_since hhome hk hdst hlasts hstart hvisit with havoid | heq | hp
    · exact absurd havoid hdom
    · exact absurd heq.symm hne
    · refine hlasts.between hb (Nat.zero_le _) hi (fun reg hreg l other _ _ hl hdefines => ?_)
        (fun t ht => ?_) hexec
      · obtain ⟨d, habove, hdefined⟩ := hv.above_definition hhome hk hdst hreg
        have hd := hdefined.insts b block hb other (List.mem_of_getElem? hl) hdefines
        exact hne (Dom.antisymm hdom (hd ▸ habove) (hv.reach b (mem_table.mpr ⟨block, hb⟩)))
      · cases ht
        exact hp

end Verified

/-! ## Definitions as equations -/

section Equation
variable {home : BlockId} {homeBlock : BasicBlock A} {k : Nat} {inst : SIRInstruction A}
  {dst : RegisterId} {b : BlockId} {block : BasicBlock A}

def SIRInstruction.isLoad : SIRInstruction A → Bool
  | .load .. => true
  | _ => false

theorem value_memory {regs : Registers} {memory memory' : S} (h : inst.isLoad = false) :
    eu.value m regs memory' inst = eu.value m regs memory inst := by
  cases inst <;> first | rfl | cases h

theorem Verified.not_self_used (hv : Verified eu) (hhome : eu.blocks.lookup home = some homeBlock)
    (hk : homeBlock.instructions[k]? = some inst) (hdst : inst.definedRegister = some dst) :
    dst ∉ inst.uses := fun huse =>
  absurd (hv.not_used_before hhome hk hdst hk huse) (Nat.lt_irrefl k)

theorem lasting_equation (hload : inst.isLoad = false) :
    Lasting m eu (dst :: inst.uses) fun _ _ s =>
      ∃ value, eu.value m s.regs s.memory inst = some value ∧
        s.regs dst = some (eu.kept dst value) where
  instruction b block i other s t _ _ hnot hexec := by
    rintro ⟨value, hvalue, hdst⟩
    have hframe : ∀ reg ∈ dst :: inst.uses, t.regs reg = s.regs reg := fun reg hreg =>
      execInstruction_frame hexec (hnot reg hreg)
    refine ⟨value, ?_, (hframe dst List.mem_cons_self).trans hdst⟩
    rw [value_uses fun reg hreg => hframe reg (List.mem_cons_of_mem _ hreg), value_memory hload,
      hvalue]
  terminator b block s c hb hnot hgo := by
    rintro ⟨value, hvalue, hdst⟩
    have hframe : ∀ reg ∈ dst :: inst.uses, c.state.regs reg = s.regs reg := fun reg hreg =>
      execTerminator_frame (hnot reg hreg) hgo
    refine ⟨value, ?_, (hframe dst List.mem_cons_self).trans hdst⟩
    rw [value_uses fun reg hreg => hframe reg (List.mem_cons_of_mem _ hreg), value_memory hload,
      hvalue]

/-- Where a register is available, it has the value that its definition gives there. -/
theorem Verified.equation (hv : Verified eu) (hhome : eu.blocks.lookup home = some homeBlock)
    (hk : homeBlock.instructions[k]? = some inst) (hdst : inst.definedRegister = some dst)
    (hload : inst.isLoad = false) {s : State A S} {i : Nat} (hpoint : eu.Point m memory b block i s)
    (havail : eu.Available b i (.inst home k)) :
    ∃ value, eu.value m s.regs s.memory inst = some value ∧
      s.regs dst = some (eu.kept dst value) := by
  refine hv.holds_available hhome hk hdst (lasting_equation hload) (fun _ u t _ _ hinst => ?_)
    hpoint havail
  rw [execInstruction_value hdst, Option.map_eq_some_iff] at hinst
  obtain ⟨value, hvalue, rfl⟩ := hinst
  refine ⟨value, ?_, Function.update_self _ _ _⟩
  have hkeep : ∀ reg ∈ inst.uses, (eu.assign u dst value).regs reg = u.regs reg := by
    intro reg hreg
    refine Function.update_of_ne ?_ _ _
    rintro rfl
    exact hv.not_self_used hhome hk hdst hreg
  rw [value_uses hkeep, value_memory hload, hvalue]

/-- What is available at a definition is available wherever the definition is. -/
theorem Verified.available_trans (hv : Verified eu) (hhome : eu.blocks.lookup home = some homeBlock)
    (hb : b ∈ eu.blocks) {i : Nat} {site : DefSite} (hsite : eu.Available home k site)
    (havail : eu.Available b i (.inst home k)) : eu.Available b i site := by
  have hreach := hv.reach b hb
  cases site with
  | param d =>
    rcases havail with ⟨rfl, -⟩ | ⟨-, hdom⟩
    · exact hsite
    · exact hdom.trans hsite
  | inst d l =>
    rcases havail with ⟨rfl, hki⟩ | ⟨hne, hdom⟩
    · exact hsite.imp_left fun h => ⟨h.1, h.2.trans hki⟩
    · rcases hsite with ⟨rfl, -⟩ | ⟨hd, hdom'⟩
      · exact .inr ⟨hne, hdom⟩
      · refine .inr ⟨?_, hdom.trans hdom'⟩
        rintro rfl
        exact hne (Dom.antisymm hdom hdom' hreach)

end Equation

/-! ## Registers that can be read -/

/-- A register is declared, and what defines it is available. -/
def ExecutionUnit.Readable (eu : ExecutionUnit A) (b : BlockId) (i : Nat) (reg : RegisterId) :
    Prop :=
  Declared eu.types reg ∧ ∃ site, (reg, site) ∈ eu.definitions ∧ eu.Available b i site

section Readable
variable {home b : BlockId} {homeBlock block : BasicBlock A} {k i : Nat} {inst : SIRInstruction A}
  {reg : RegisterId}

theorem Verified.readable_use (hv : Verified eu) (hb : eu.blocks.lookup b = some block)
    (hi : block.instructions[i]? = some inst) (huse : reg ∈ inst.uses) : eu.Readable b i reg := by
  have huses := (hv.blocks b block hb).uses i reg (.inl ⟨inst, hi, huse⟩)
  rwa [hv.ids b block hb] at huses

/-- The definition of a register that can be read is available. -/
theorem Verified.readable_site (hv : Verified eu) (h : eu.Readable b i reg)
    (hhome : eu.blocks.lookup home = some homeBlock) (hk : homeBlock.instructions[k]? = some inst)
    (hdef : inst.definedRegister = some reg) : eu.Available b i (.inst home k) := by
  obtain ⟨-, site, hsite, havail⟩ := h
  have hhere : (reg, DefSite.inst homeBlock.id k) ∈ eu.definitions :=
    mem_unit_definitions.mpr ⟨home, homeBlock, hhome, mem_definitions_inst.mpr ⟨rfl, inst, hk, hdef⟩⟩
  obtain rfl := hv.single.site reg _ _ hsite hhere
  rwa [hv.ids home homeBlock hhome] at havail

/-- What a definition reads can be read wherever the definition is available. -/
theorem Verified.readable_operand (hv : Verified eu) (hb : b ∈ eu.blocks)
    (hhome : eu.blocks.lookup home = some homeBlock) (hk : homeBlock.instructions[k]? = some inst)
    (huse : reg ∈ inst.uses) (havail : eu.Available b i (.inst home k)) : eu.Readable b i reg := by
  obtain ⟨hdeclared, site, hsite, hat⟩ := hv.readable_use hhome hk huse
  exact ⟨hdeclared, site, hsite, hv.available_trans hhome hb hat havail⟩

end Readable

/-! ## Widths -/

section Fit
variable {model : BitModel A} [DecidableEq A] {memory : BitMemory A} {b : BlockId}
  {block : BasicBlock A} {s : State A (BitMemory A)}

theorem Fits.execList (h : Fits eu s.regs) {list : List (SIRInstruction A)}
    {t : State A (BitMemory A)} (hexec : eu.execList model.machine s list = some t) :
    Fits eu t.regs := by
  induction list generalizing s with
  | nil =>
    cases hexec
    exact h
  | cons inst list ih =>
    obtain ⟨u, hu, hrest⟩ := Option.bind_eq_some_iff.mp hexec
    exact ih (h.exec hu) hrest

theorem Verified.visits_fit (hv : Verified eu) (hvisit : eu.Visits model.machine memory b s) :
    Fits eu s.regs := by
  induction hvisit with
  | start =>
    intro _ _ _ _ h
    cases h
  | @next b block s t c _ hb hexec hgo ih =>
    have hmatch : Matches eu (fun _ => true) t t := ⟨fun _ _ => rfl, rfl, rfl, ih.execList hexec⟩
    have hnext : (eu.execTerminator model.machine t block.terminator).Related
        (Matches eu fun _ => true) (eu.execTerminator model.machine t block.terminator) :=
      terminator_related hv (fun _ type h => ⟨type, h, rfl⟩) (fun _ => rfl) hb hmatch
    rw [hgo] at hnext
    cases hnext with
    | goto hmatch => exact hmatch.fits

/-- Registers hold what their types have bits for, at every point of a run. -/
theorem Verified.point_fits (hv : Verified eu) {i : Nat}
    (h : eu.Point model.machine memory b block i s) : Fits eu s.regs := by
  obtain ⟨entered, hvisit, hexec⟩ := h.run
  exact (hv.visits_fit hvisit).execList hexec

end Fit
end Celox.Sir

/-! ## Units with instructions rewritten in place

Every instruction is replaced by one that defines the same register. If the new one reads what is
available and gives the same value, the unit is verified and runs as before. -/
namespace Celox.Sir
open Celox.Graph Relation

variable {A S : Type}

def BasicBlock.mapInstructions (f : SIRInstruction A → SIRInstruction A) (block : BasicBlock A) :
    BasicBlock A :=
  { block with instructions := block.instructions.map f }

def ExecutionUnit.mapInstructions (eu : ExecutionUnit A) (f : SIRInstruction A → SIRInstruction A) :
    ExecutionUnit A :=
  eu.mapBlocks fun _ => BasicBlock.mapInstructions f

/-- The new instructions define what the old ones do, are well typed, and read what is available. -/
structure RewritesWell (eu : ExecutionUnit A) (f : SIRInstruction A → SIRInstruction A) : Prop where
  defines : ∀ inst, (f inst).definedRegister = inst.definedRegister
  typed : ∀ b block, eu.blocks.lookup b = some block → ∀ inst ∈ block.instructions,
    InstructionTyped eu.types (f inst)
  uses : ∀ b block (i : Nat) inst, eu.blocks.lookup b = some block →
    block.instructions[i]? = some inst → ∀ reg ∈ (f inst).uses,
      Declared eu.types reg ∧ ∃ site, (reg, site) ∈ eu.definitions ∧ eu.Available b i site

section Rewritten
variable {eu : ExecutionUnit A} {f : SIRInstruction A → SIRInstruction A} {b : BlockId}

theorem lookup_mapInstructions (b : BlockId) : (eu.mapInstructions f).blocks.lookup b =
    (eu.blocks.lookup b).map (BasicBlock.mapInstructions f) :=
  ExecutionUnit.lookup_mapBlocks _ b

theorem lookup_mapInstructions_some {block' : BasicBlock A} :
    (eu.mapInstructions f).blocks.lookup b = some block' ↔
      ∃ block, eu.blocks.lookup b = some block ∧ block.mapInstructions f = block' := by
  rw [lookup_mapInstructions, Option.map_eq_some_iff]

theorem mem_mapInstructions : b ∈ (eu.mapInstructions f).blocks ↔ b ∈ eu.blocks := by
  rw [← AList.lookup_isSome, ← AList.lookup_isSome, lookup_mapInstructions, Option.isSome_map]

theorem flow_mapInstructions : (eu.mapInstructions f).Flow = eu.Flow := by
  funext a c
  refine propext ?_
  rw [ExecutionUnit.flow_iff, ExecutionUnit.flow_iff, mem_mapInstructions]
  refine and_congr_right fun _ => ⟨?_, ?_⟩
  · rintro ⟨block', hlookup, hsucc⟩
    obtain ⟨block, hb, rfl⟩ := lookup_mapInstructions_some.mp hlookup
    exact ⟨block, hb, hsucc⟩
  · rintro ⟨block, hb, hsucc⟩
    exact ⟨_, lookup_mapInstructions_some.mpr ⟨block, hb, rfl⟩, hsucc⟩

theorem mem_definitions_mapInstructions (hdef : ∀ inst, (f inst).definedRegister =
    inst.definedRegister) {entry : RegisterId × DefSite} :
    entry ∈ (eu.mapInstructions f).definitions ↔ entry ∈ eu.definitions := by
  obtain ⟨reg, site⟩ := entry
  have hblock : ∀ block : BasicBlock A, (reg, site) ∈ (block.mapInstructions f).definitions ↔
      (reg, site) ∈ block.definitions := by
    intro block
    cases site with
    | param d =>
      rw [mem_definitions_param, mem_definitions_param]
      rfl
    | inst d i =>
      rw [mem_definitions_inst, mem_definitions_inst]
      refine and_congr_right fun _ => ?_
      simp only [BasicBlock.mapInstructions, List.getElem?_map, Option.map_eq_some_iff]
      constructor
      · rintro ⟨_, ⟨inst, hi, rfl⟩, hreg⟩
        exact ⟨inst, hi, (hdef inst).symm.trans hreg⟩
      · rintro ⟨inst, hi, hreg⟩
        exact ⟨f inst, ⟨inst, hi, rfl⟩, (hdef inst).trans hreg⟩
  rw [mem_unit_definitions, mem_unit_definitions]
  constructor
  · rintro ⟨b, block', hlookup, hmem⟩
    obtain ⟨block, hb, rfl⟩ := lookup_mapInstructions_some.mp hlookup
    exact ⟨b, block, hb, (hblock block).mp hmem⟩
  · rintro ⟨b, block, hb, hmem⟩
    exact ⟨b, _, lookup_mapInstructions_some.mpr ⟨block, hb, rfl⟩, (hblock block).mpr hmem⟩

theorem available_mapInstructions {i : Nat} {site : DefSite} :
    (eu.mapInstructions f).Available b i site ↔ eu.Available b i site := by
  unfold ExecutionUnit.Available
  rw [flow_mapInstructions]
  rfl

/-- The rewritten unit is verified. -/
theorem Verified.mapInstructions (hv : Verified eu) (hf : RewritesWell eu f) :
    Verified (eu.mapInstructions f) where
  entry := mem_mapInstructions.mpr hv.entry
  widths := hv.widths
  ids := fun b block' hlookup => by
    obtain ⟨block, hb, rfl⟩ := lookup_mapInstructions_some.mp hlookup
    exact hv.ids b block hb
  reach := fun b hb => by
    rw [flow_mapInstructions]
    exact hv.reach b (mem_mapInstructions.mp hb)
  single := {
    params := fun b block' hlookup => by
      obtain ⟨block, hb, rfl⟩ := lookup_mapInstructions_some.mp hlookup
      exact hv.single.params b block hb
    site := fun reg site site' h h' => hv.single.site reg site site'
      ((mem_definitions_mapInstructions hf.defines).mp h)
      ((mem_definitions_mapInstructions hf.defines).mp h') }
  blocks := fun b block' hlookup => by
    obtain ⟨block, hb, rfl⟩ := lookup_mapInstructions_some.mp hlookup
    have hblock := hv.blocks b block hb
    have hid := hv.ids b block hb
    exact {
      targets := fun target ht => mem_mapInstructions.mpr (hblock.targets target ht)
      terminator := hblock.terminator
      edges := fun edge hedge target' htarget => by
        obtain ⟨target, ht, rfl⟩ := lookup_mapInstructions_some.mp htarget
        exact hblock.edges edge hedge target ht
      typed := {
        params := hblock.typed.params
        typed := fun inst' hinst' => by
          obtain ⟨inst, hinst, rfl⟩ := List.mem_map.mp hinst'
          exact hf.typed b block hb inst hinst
        defined := fun inst' hinst' dst hdst => by
          obtain ⟨inst, hinst, rfl⟩ := List.mem_map.mp hinst'
          exact hblock.typed.defined inst hinst dst ((hf.defines inst).symm.trans hdst) }
      uses := fun i reg huse => by
        have hall : Declared eu.types reg ∧ ∃ site, (reg, site) ∈ eu.definitions ∧
            eu.Available block.id i site := by
          rcases huse with ⟨inst', hi, hreg⟩ | ⟨rfl, hreg⟩
          · simp only [BasicBlock.mapInstructions, List.getElem?_map, Option.map_eq_some_iff] at hi
            obtain ⟨inst, hi, rfl⟩ := hi
            rw [hid]
            exact hf.uses b block i inst hb hi reg hreg
          · refine hblock.uses _ reg (.inr ⟨?_, hreg⟩)
            exact List.length_map _
        obtain ⟨hdeclared, site, hsite, havail⟩ := hall
        exact ⟨hdeclared, site, (mem_definitions_mapInstructions hf.defines).mpr hsite,
          available_mapInstructions.mpr havail⟩ }

/-- Runs of the rewritten unit have the states of the original one. -/
theorem mapInstructions_alike {m : Machine A S} {memory : S}
    (hsame : ∀ b block (i : Nat) inst s t, eu.Point m memory b block i s →
      block.instructions[i]? = some inst → eu.execInstruction m s inst = some t →
        eu.execInstruction m s (f inst) = some t) :
    EndsAlike m m eu (eu.mapInstructions f) memory Eq := by
  have hparams : ∀ b, ((eu.mapInstructions f).blocks.lookup b).map (·.params) =
      (eu.blocks.lookup b).map (·.params) := by
    intro b
    rw [lookup_mapInstructions, Option.map_map]
    rfl
  refine BlocksAlike.ends ?_ fun _ _ h => h
  refine ⟨rfl, fun _ => rfl, fun b block hb => ?_, fun b block s s' hb heq => ?_⟩
  · refine ⟨_, lookup_mapInstructions_some.mpr ⟨block, hb, rfl⟩, rfl, ?_⟩
    rintro s _ t hvisit rfl hexec
    refine ⟨t, ?_, rfl⟩
    -- from the first instruction on, along a suffix of the block
    have hrun : ∀ (list : List (SIRInstruction A)) (i : Nat) (s : State A S),
        block.instructions.drop i = list → eu.Point m memory b block i s →
        eu.execList m s list = some t → (eu.mapInstructions f).execList m s (list.map f) = some t := by
      intro list
      induction list with
      | nil => exact fun _ _ _ _ h => h
      | cons inst list ih =>
        intro i s hdrop hpoint hexec
        obtain ⟨hi, hrest, -⟩ := drop_cons hdrop
        obtain ⟨u, hu, htail⟩ := Option.bind_eq_some_iff.mp hexec
        rw [List.map_cons, ExecutionUnit.execList, execInstruction_congr
          (show (eu.mapInstructions f).registerMap = eu.registerMap from rfl),
          hsame b block i inst s u hpoint hi hu]
        exact ih (i + 1) u hrest (hpoint.next hi hu) htail
    exact hrun _ 0 s List.drop_zero (point_entered hvisit hb) hexec
  · subst heq
    rw [execTerminator_congr hparams rfl]
    exact .refl (fun _ => rfl) _

end Rewritten
end Celox.Sir
