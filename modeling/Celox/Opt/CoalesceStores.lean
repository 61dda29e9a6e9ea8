import Celox.Layout.Strided
import Celox.Opt.Allocation

/-! # Coalescing of stores

Plain stores to one object are collected until something reads the object. Stores with adjoining
ranges become one store of a concatenation, at the position of the last one. -/
namespace Celox.Opt
open Celox.Sir Celox.Layout

variable {A : Type} [DecidableEq A]

/-- The offset of a store over several elements, if there is one. -/
def aggregateStaticOffset (bitOffset width : Nat) (elementWidth : Option Nat) : Option SIROffset :=
  match elementWidth with
  | some 0 => none
  | some elementWidth =>
    if width ≠ 0 then
      match checkedAdd bitOffset width with
      | none => none
      | some stop =>
        if bitOffset / elementWidth = (stop - 1) / elementWidth then some (.static bitOffset)
        else if elementWidth ∣ bitOffset ∧ elementWidth ∣ width then
          some (.packedElements bitOffset elementWidth)
        else none
    else some (.static bitOffset)
  | none => some (.static bitOffset)

structure StoreCandidate (A : Type) where
  addr : RegionedAbsoluteAddr A
  instIndex : Nat
  offset : Nat
  width : Nat
  srcReg : RegisterId
  combCaptureSites : List Nat
deriving DecidableEq

/-! ## Groups -/

/-- The open groups, one for each object, and the sealed ones. -/
structure StoreGroups (A : Type) [DecidableEq A] where
  groups : Table (RegionedAbsoluteAddr A) (List (StoreCandidate A))
  sealed : List (List (StoreCandidate A))

def StoreGroups.collect (state : StoreGroups A) (candidate : StoreCandidate A) : StoreGroups A :=
  { state with
    groups := state.groups.insert candidate.addr
      ((state.groups.lookup candidate.addr).getD [] ++ [candidate]) }

def StoreGroups.sealGroup (state : StoreGroups A) (addr : RegionedAbsoluteAddr A) :
    StoreGroups A :=
  match state.groups.lookup addr with
  | some candidates =>
    ⟨state.groups.erase addr,
      if 2 ≤ candidates.length then state.sealed ++ [candidates] else state.sealed⟩
  | none => state

def StoreGroups.visit (state : StoreGroups A) (i : Nat)
    (inst : SIRInstruction (RegionedAbsoluteAddr A)) : StoreGroups A :=
  match inst with
  | .store addr (.static off) width src [] [] => state.collect ⟨addr, i, off, width, src, []⟩
  | .load _ addr _ _ => state.sealGroup addr
  | .commit src _ _ _ _ => state.sealGroup src
  | .store addr (.dynamic _) _ _ _ _ | .store addr (.element ..) _ _ _ _
  | .store addr (.packedElements ..) _ _ _ _ => state.sealGroup addr
  | _ => state

def StoreGroups.visitAll (state : StoreGroups A) :
    Nat → List (SIRInstruction (RegionedAbsoluteAddr A)) → StoreGroups A
  | _, [] => state
  | i, inst :: rest => (state.visit i inst).visitAll (i + 1) rest

/-- All groups of a block with at least two stores. -/
def sealedGroups (instructions : List (SIRInstruction (RegionedAbsoluteAddr A))) :
    List (List (StoreCandidate A)) :=
  let state := StoreGroups.visitAll ⟨∅, []⟩ 0 instructions
  state.sealed ++ (state.groups.entries.map (·.2)).filter fun group => 2 ≤ group.length

/-! ## Runs -/

/-- How many candidates behind the first one, at `start`, are merged with it. -/
def scanRun (elementWidth : Option Nat) (maxStoreWidth start : Nat) :
    (expected scanned runEnd : Nat) → List (StoreCandidate A) → Nat
  | _, _, runEnd, [] => runEnd
  | expected, scanned, runEnd, next :: rest =>
    if next.offset ≠ expected then runEnd
    else
      let aggregateWidth := expected + next.width - start
      if maxStoreWidth < aggregateWidth then runEnd
      else if (aggregateStaticOffset start aggregateWidth elementWidth).isSome then
        scanRun elementWidth maxStoreWidth start (expected + next.width) (scanned + 1) (scanned + 1)
          rest
      else if elementWidth.any fun elementWidth => !decide (elementWidth ∣ start) then runEnd
      else scanRun elementWidth maxStoreWidth start (expected + next.width) (scanned + 1) runEnd rest

section Runs
variable (elementWidths : RegionedAbsoluteAddr A → Option Nat) (maxStoreWidth : Nat)

/-- The runs of a sorted group; as many steps are enough as there are candidates. -/
def runsOf : Nat → List (StoreCandidate A) → List (List (StoreCandidate A))
  | 0, _ | _, [] => []
  | fuel + 1, first :: rest =>
    let runEnd := scanRun (elementWidths first.addr) maxStoreWidth first.offset
      (first.offset + first.width) 0 0 rest
    (first :: rest.take runEnd) :: runsOf fuel (rest.drop runEnd)

/-- The runs of a block that are merged. -/
def mergedRuns (instructions : List (SIRInstruction (RegionedAbsoluteAddr A))) :
    List (List (StoreCandidate A)) :=
  ((sealedGroups instructions).flatMap fun group =>
      let sorted := group.insertionSort fun a b => a.offset ≤ b.offset
      runsOf elementWidths maxStoreWidth sorted.length sorted).filter fun run => 2 ≤ run.length

/-! ## Replacements -/

structure Replacement (A : Type) where
  removedIndices : List Nat
  anchorIndex : Nat
  newInstructions : List (SIRInstruction (RegionedAbsoluteAddr A))

def runIndices (run : List (StoreCandidate A)) : List Nat := run.map (·.instIndex)

/-- The index of the last store of a run. -/
def anchorOf (run : List (StoreCandidate A)) : Nat := (runIndices run).foldr max 0

def runWidth (run : List (StoreCandidate A)) : Nat := (run.map (·.width)).sum

def replaceRun (run : List (StoreCandidate A)) (allocation : Allocation) :
    List (Replacement A) × Allocation :=
  match run with
  | [] => ([], allocation)
  | first :: _ =>
    let (concatReg, allocation) := allocation.allocReg (.bit (runWidth run) false)
    match aggregateStaticOffset first.offset (runWidth run) (elementWidths first.addr) with
    | none => ([], allocation)
    | some offset =>
      ([{ removedIndices := runIndices run
          anchorIndex := anchorOf run
          newInstructions := [
            .concat concatReg (run.map (·.srcReg)).reverse,
            .store first.addr offset (runWidth run) concatReg []
              (run.flatMap (·.combCaptureSites)).eraseDups] }], allocation)

def replaceRuns : List (List (StoreCandidate A)) → Allocation → List (Replacement A) × Allocation
  | [], allocation => ([], allocation)
  | run :: runs, allocation =>
    let (replacement, allocation) := replaceRun elementWidths run allocation
    let (replacements, allocation) := replaceRuns runs allocation
    (replacement ++ replacements, allocation)

/-- What stands for the instruction at an index. -/
def replaceAt (replacements : List (Replacement A)) (i : Nat)
    (inst : SIRInstruction (RegionedAbsoluteAddr A)) :
    List (SIRInstruction (RegionedAbsoluteAddr A)) :=
  match replacements.filter fun replacement => replacement.anchorIndex = i with
  | [] => if replacements.any fun replacement => i ∈ replacement.removedIndices then [] else [inst]
  | anchored => anchored.flatMap (·.newInstructions)

def rebuild (replacements : List (Replacement A)) :
    Nat → List (SIRInstruction (RegionedAbsoluteAddr A)) →
    List (SIRInstruction (RegionedAbsoluteAddr A))
  | _, [] => []
  | i, inst :: rest => replaceAt replacements i inst ++ rebuild replacements (i + 1) rest

def coalesceBlock (block : BasicBlock (RegionedAbsoluteAddr A)) (allocation : Allocation) :
    BasicBlock (RegionedAbsoluteAddr A) × Allocation :=
  let (replacements, allocation) := replaceRuns elementWidths
    (mergedRuns elementWidths maxStoreWidth block.instructions) allocation
  ({ block with instructions := rebuild replacements 0 block.instructions }, allocation)

def coalesceStores (eu : ExecutionUnit (RegionedAbsoluteAddr A)) :
    ExecutionUnit (RegionedAbsoluteAddr A) :=
  let (blocks, allocation) := rewriteBlocks (coalesceBlock elementWidths maxStoreWidth) eu.blocks
    (startAllocation eu)
  { eu with blocks, registerMap := allocation.registerMap }

end Runs
end Celox.Opt

/-! ## What is merged

The stores of a run adjoin each other, nothing reads their object between the first and the last of
them, and no store is in two runs. -/
namespace Celox.Opt
open Celox.Sir Celox.Layout

variable {A : Type} {instructions : List (SIRInstruction (RegionedAbsoluteAddr A))}
  {addr : RegionedAbsoluteAddr A} {i : Nat} {group group' : List (StoreCandidate A)}

/-- An access that closes the group of an object. -/
def Seals (addr : RegionedAbsoluteAddr A) (inst : SIRInstruction (RegionedAbsoluteAddr A)) : Prop :=
  match inst with
  | .load _ a _ _ | .commit a _ _ _ _ | .store a (.dynamic _) _ _ _ _ | .store a (.element ..) _ _ _ _
  | .store a (.packedElements ..) _ _ _ _ => a = addr
  | _ => False

theorem seals_of_mayRead {inst : SIRInstruction (RegionedAbsoluteAddr A)} {bit : Nat}
    (h : inst.mayRead addr bit) : Seals addr inst := by
  cases inst with
  | load => exact h.1
  | commit => exact h.1
  | _ => exact h.elim

def StoreCandidate.instruction (c : StoreCandidate A) : SIRInstruction (RegionedAbsoluteAddr A) :=
  .store c.addr (.static c.offset) c.width c.srcReg [] []

/-- The candidate is the store at its index. -/
structure CandidateAt (instructions : List (SIRInstruction (RegionedAbsoluteAddr A)))
    (c : StoreCandidate A) : Prop where
  inst : instructions[c.instIndex]? = some c.instruction
  sites : c.combCaptureSites = []

/-- Two candidates at one index are the same store. -/
theorem CandidateAt.same {c d : StoreCandidate A} (h : CandidateAt instructions c)
    (h' : CandidateAt instructions d) (hindex : c.instIndex = d.instIndex) :
    c.addr = d.addr ∧ c.offset = d.offset ∧ c.width = d.width := by
  have heq := h.inst
  rw [hindex, h'.inst, Option.some.injEq, StoreCandidate.instruction, StoreCandidate.instruction,
    SIRInstruction.store.injEq, SIROffset.static.injEq] at heq
  exact ⟨heq.1.symm, heq.2.1.symm, heq.2.2.1.symm⟩

/-- Stores to one object that nothing up to `hi` has closed the group of. -/
def GroupAt (instructions : List (SIRInstruction (RegionedAbsoluteAddr A)))
    (addr : RegionedAbsoluteAddr A) (hi : Nat) (group : List (StoreCandidate A)) : Prop :=
  ∀ c ∈ group, CandidateAt instructions c ∧ c.addr = addr ∧ c.instIndex < hi ∧
    NoneBetween instructions c.instIndex hi (Seals addr)

/-- Of one object, the stores of the one group come before those of the other. -/
def Earlier (group group' : List (StoreCandidate A)) : Prop :=
  ∀ c ∈ group, ∀ d ∈ group', c.addr = d.addr → c.instIndex < d.instIndex

def Ordered (group : List (StoreCandidate A)) : Prop :=
  group.Pairwise fun c d => c.instIndex < d.instIndex

section Collect
variable [DecidableEq A] {state : StoreGroups A}

structure GroupsAt (instructions : List (SIRInstruction (RegionedAbsoluteAddr A))) (i : Nat)
    (state : StoreGroups A) : Prop where
  opened : ∀ addr group, state.groups.lookup addr = some group →
    GroupAt instructions addr i group ∧ Ordered group
  closed : ∀ group ∈ state.sealed, Ordered group ∧ ∃ addr hi, hi ≤ i ∧ GroupAt instructions addr hi group
  earlier : state.sealed.Pairwise Earlier
  before : ∀ group ∈ state.sealed, ∀ addr group', state.groups.lookup addr = some group' →
    Earlier group group'

omit [DecidableEq A] in
theorem GroupAt.next (h : GroupAt instructions addr i group)
    {inst : SIRInstruction (RegionedAbsoluteAddr A)} (hi : instructions[i]? = some inst)
    (hseals : ¬ Seals addr inst) : GroupAt instructions addr (i + 1) group := by
  intro c hc
  obtain ⟨hat, haddr, hlt, hquiet⟩ := h c hc
  exact ⟨hat, haddr, by omega, hquiet.next hi hseals⟩

/-- Groups of other objects than the closed one stay open. -/
theorem GroupsAt.seal (h : GroupsAt instructions i state)
    {inst : SIRInstruction (RegionedAbsoluteAddr A)} (hi : instructions[i]? = some inst)
    (hseals : ∀ a, a ≠ addr → ¬ Seals a inst) :
    GroupsAt instructions (i + 1) (state.sealGroup addr) := by
  have hclosed : ∀ group ∈ state.sealed, Ordered group ∧
      ∃ addr hi, hi ≤ i + 1 ∧ GroupAt instructions addr hi group := fun group hgroup => by
    obtain ⟨hordered, addr, hi, hle, hat⟩ := h.closed group hgroup
    exact ⟨hordered, addr, hi, by omega, hat⟩
  unfold StoreGroups.sealGroup
  cases hlookup : state.groups.lookup addr with
  | none =>
    refine ⟨fun a group hgroup => ?_, hclosed, h.earlier, h.before⟩
    have hne : a ≠ addr := fun heq => by
      rw [heq, hlookup] at hgroup
      cases hgroup
    obtain ⟨hat, hordered⟩ := h.opened a group hgroup
    exact ⟨hat.next hi (hseals a hne), hordered⟩
  | some candidates =>
    obtain ⟨hcandidates, horderedCandidates⟩ := h.opened addr candidates hlookup
    have hopen : ∀ a group, (state.groups.erase addr).lookup a = some group →
        a ≠ addr ∧ state.groups.lookup a = some group := fun a group hgroup => by
      by_cases heq : a = addr
      · rw [heq, AList.lookup_erase] at hgroup
        cases hgroup
      · rw [AList.lookup_erase_ne heq] at hgroup
        exact ⟨heq, hgroup⟩
    have hsealed : ∀ group ∈ (if 2 ≤ candidates.length then state.sealed ++ [candidates]
        else state.sealed), group ∈ state.sealed ∨ group = candidates := fun group hgroup => by
      split at hgroup
      · exact (List.mem_append.mp hgroup).imp_right List.mem_singleton.mp
      · exact .inl hgroup
    refine ⟨fun a group hgroup => ?_, fun group hgroup => ?_, ?_, fun group hgroup a group' hgroup' => ?_⟩
    · obtain ⟨hne, hgroup⟩ := hopen a group hgroup
      obtain ⟨hat, hordered⟩ := h.opened a group hgroup
      exact ⟨hat.next hi (hseals a hne), hordered⟩
    · rcases hsealed group hgroup with hgroup | rfl
      · exact hclosed group hgroup
      · exact ⟨horderedCandidates, addr, i, by omega, hcandidates⟩
    · simp only
      split
      · refine List.pairwise_append.mpr ⟨h.earlier, List.pairwise_singleton _ _, fun group hgroup g hg => ?_⟩
        obtain rfl := List.mem_singleton.mp hg
        exact h.before group hgroup addr _ hlookup
      · exact h.earlier
    · obtain ⟨hne, hother⟩ := hopen a group' hgroup'
      rcases hsealed group hgroup with hgroup | rfl
      · exact h.before group hgroup a group' hother
      · intro c hc d hd hsame
        exact absurd ((((h.opened a group' hother).1 d hd).2.1.symm.trans hsame.symm).trans
          (hcandidates c hc).2.1) hne

/-- A plain store joins the group of its object. -/
theorem GroupsAt.collect (h : GroupsAt instructions i state) {off width : Nat} {src : RegisterId}
    (hi : instructions[i]? = some (.store addr (.static off) width src [] [])) :
    GroupsAt instructions (i + 1) (state.collect ⟨addr, i, off, width, src, []⟩) := by
  have hseals : ∀ a, ¬ Seals a (.store addr (.static off) width src [] [] :
    SIRInstruction (RegionedAbsoluteAddr A)) := fun _ h => h
  have hold : ∀ group, (state.groups.lookup addr).getD [] = group →
      GroupAt instructions addr i group ∧ Ordered group ∧ ∀ g ∈ state.sealed, Earlier g group := by
    rintro _ rfl
    cases hlookup : state.groups.lookup addr with
    | none => exact ⟨nofun, .nil, fun _ _ _ _ _ hd => by cases hd⟩
    | some group =>
      obtain ⟨hat, hordered⟩ := h.opened addr group hlookup
      exact ⟨hat, hordered, fun g hg => h.before g hg addr group hlookup⟩
  obtain ⟨hat, hordered, hearlier⟩ := hold _ rfl
  have hcases : ∀ a group, (state.collect ⟨addr, i, off, width, src, []⟩).groups.lookup a =
      some group → (a = addr ∧ group = (state.groups.lookup addr).getD [] ++
        [⟨addr, i, off, width, src, []⟩]) ∨ state.groups.lookup a = some group := by
    intro a group hgroup
    unfold StoreGroups.collect at hgroup
    by_cases heq : a = addr
    · subst heq
      rw [AList.lookup_insert] at hgroup
      exact .inl ⟨rfl, (Option.some.inj hgroup).symm⟩
    · rw [AList.lookup_insert_ne heq] at hgroup
      exact .inr hgroup
  refine ⟨fun a group hgroup => ?_, fun group hgroup => ?_, h.earlier,
    fun group hgroup a group' hgroup' => ?_⟩
  · rcases hcases a group hgroup with ⟨rfl, rfl⟩ | hgroup
    · refine ⟨fun c hc => ?_, List.pairwise_append.mpr ⟨hordered, List.pairwise_singleton _ _,
        fun c hc d hd => ?_⟩⟩
      · rcases List.mem_append.mp hc with hc | hc
        · exact hat.next hi (hseals a) c hc
        · obtain rfl := List.mem_singleton.mp hc
          exact ⟨⟨hi, rfl⟩, rfl, Nat.lt_succ_self i, .empty⟩
      · obtain rfl := List.mem_singleton.mp hd
        exact (hat c hc).2.2.1
    · obtain ⟨hat, hordered⟩ := h.opened a group hgroup
      exact ⟨hat.next hi (hseals a), hordered⟩
  · obtain ⟨hordered, a, hi, hle, hat⟩ := h.closed group hgroup
    exact ⟨hordered, a, hi, by omega, hat⟩
  · rcases hcases a group' hgroup' with ⟨rfl, rfl⟩ | hgroup'
    · intro c hc d hd hsame
      rcases List.mem_append.mp hd with hd | hd
      · exact hearlier group hgroup c hc d hd hsame
      · obtain rfl := List.mem_singleton.mp hd
        obtain ⟨-, _, hi, hle, hat⟩ := h.closed group hgroup
        have hlt : c.instIndex < hi := (hat c hc).2.2.1
        exact Nat.lt_of_lt_of_le hlt hle
    · exact h.before group hgroup a group' hgroup'

theorem GroupsAt.next (h : GroupsAt instructions i state)
    {inst : SIRInstruction (RegionedAbsoluteAddr A)} (hi : instructions[i]? = some inst)
    (hseals : ∀ a, ¬ Seals a inst) : GroupsAt instructions (i + 1) state :=
  ⟨fun a group hgroup => let ⟨hat, hordered⟩ := h.opened a group hgroup
    ⟨hat.next hi (hseals a), hordered⟩, fun group hgroup =>
    let ⟨hordered, a, hi, hle, hat⟩ := h.closed group hgroup
    ⟨hordered, a, hi, by omega, hat⟩, h.earlier, h.before⟩

theorem GroupsAt.visit (h : GroupsAt instructions i state)
    {inst : SIRInstruction (RegionedAbsoluteAddr A)} (hi : instructions[i]? = some inst) :
    GroupsAt instructions (i + 1) (state.visit i inst) := by
  cases inst with
  | load dst a offset bits => exact h.seal hi fun _ hne heq => hne heq.symm
  | commit src dst offset bits triggers => exact h.seal hi fun _ hne heq => hne heq.symm
  | store a offset bits src triggers sites =>
    cases offset with
    | static off =>
      cases triggers with
      | nil =>
        cases sites with
        | nil => exact h.collect hi
        | cons site sites => exact h.next hi fun _ heq => heq
      | cons trigger triggers => exact h.next hi fun _ heq => heq
    | dynamic | element | packedElements => exact h.seal hi fun _ hne heq => hne heq.symm
  | imm | binary | unary | concat | slice | mux | runtimeEvent | combCaptureEvent
  | combCaptureEnableIfChanged => exact h.next hi fun _ heq => heq

theorem GroupsAt.visitAll {rest : List (SIRInstruction (RegionedAbsoluteAddr A))}
    (h : GroupsAt instructions i state) (hrest : instructions.drop i = rest) :
    GroupsAt instructions (i + rest.length) (state.visitAll i rest) := by
  induction rest generalizing i state with
  | nil => exact h
  | cons inst rest ih =>
    obtain ⟨hi, hrest, -⟩ := drop_cons hrest
    have hall := ih (h.visit hi) hrest
    rwa [Nat.add_assoc, Nat.add_comm 1] at hall

/-- No two groups have a store in common, nor has a group one twice. -/
def Apart (group group' : List (StoreCandidate A)) : Prop :=
  ∀ c ∈ group, ∀ d ∈ group', c.instIndex ≠ d.instIndex

omit [DecidableEq A] in
theorem Earlier.apart {hi hi' : Nat} {addr' : RegionedAbsoluteAddr A} (h : Earlier group group')
    (hat : GroupAt instructions addr hi group) (hat' : GroupAt instructions addr' hi' group') :
    Apart group group' := by
  intro c hc d hd heq
  have hsame := ((hat c hc).1.same (hat' d hd).1 heq).1
  have := h c hc d hd hsame
  omega

theorem sealedGroups_spec (instructions : List (SIRInstruction (RegionedAbsoluteAddr A))) :
    (∀ group ∈ sealedGroups instructions, Ordered group ∧ ∃ addr hi, GroupAt instructions addr hi group) ∧
      (sealedGroups instructions).Pairwise Apart := by
  have hstart : GroupsAt instructions 0 ⟨∅, []⟩ :=
    ⟨nofun, nofun, .nil, nofun⟩
  have hall := hstart.visitAll List.drop_zero
  unfold sealedGroups
  generalize StoreGroups.visitAll ⟨∅, []⟩ 0 instructions = state at hall
  have hopen : ∀ entry ∈ state.groups.entries,
      GroupAt instructions entry.1 (0 + instructions.length) entry.2 ∧ Ordered entry.2 := fun entry hentry =>
    hall.opened entry.1 entry.2 (AList.mem_lookup_iff.mpr hentry)
  refine ⟨fun group hgroup => ?_, List.pairwise_append.mpr ⟨?_, ?_, fun group hgroup g hg => ?_⟩⟩
  · rcases List.mem_append.mp hgroup with hgroup | hgroup
    · obtain ⟨hordered, a, hi, -, hat⟩ := hall.closed group hgroup
      exact ⟨hordered, a, hi, hat⟩
    · obtain ⟨entry, hentry, rfl⟩ := List.mem_map.mp (List.mem_filter.mp hgroup).1
      exact ⟨(hopen entry hentry).2, _, _, (hopen entry hentry).1⟩
  · refine hall.earlier.imp_of_mem fun hgroup hgroup' hearlier => ?_
    obtain ⟨-, _, _, -, hat⟩ := hall.closed _ hgroup
    obtain ⟨-, _, _, -, hat'⟩ := hall.closed _ hgroup'
    exact hearlier.apart hat hat'
  · refine List.Pairwise.filter _ (List.pairwise_map.mpr ?_)
    refine (List.nodupKeys_iff_pairwise.mp state.groups.nodupKeys).imp_of_mem
      fun {e e'} he he' hne => ?_
    refine Earlier.apart (fun c hc d hd hsame => absurd ?_ hne) (hopen e he).1 (hopen e' he').1
    rw [← ((hopen e he).1 c hc).2.1, hsame, ((hopen e' he').1 d hd).2.1]
  · obtain ⟨entry, hentry, rfl⟩ := List.mem_map.mp (List.mem_filter.mp hg).1
    obtain ⟨-, _, _, -, hat⟩ := hall.closed group hgroup
    exact (hall.before group hgroup entry.1 entry.2 (AList.mem_lookup_iff.mpr hentry)).apart hat
      (hopen entry hentry).1

end Collect

/-! ## Runs -/

section Runs
variable {first : StoreCandidate A} {rest run : List (StoreCandidate A)}

/-- The ranges of the candidates adjoin each other from `cursor` to `stop`. -/
def Adjoining : Nat → List (StoreCandidate A) → Nat → Prop
  | cursor, [], stop => cursor = stop
  | cursor, c :: rest, stop => c.offset = cursor ∧ Adjoining (cursor + c.width) rest stop

theorem Adjoining.width {cursor stop : Nat} (h : Adjoining cursor run stop) :
    stop = cursor + runWidth run := by
  induction run generalizing cursor with
  | nil => exact h.symm
  | cons c rest ih =>
    rw [ih h.2, runWidth, runWidth, List.map_cons, List.sum_cons]
    omega

theorem Adjoining.append {cursor middle stop : Nat} {run' : List (StoreCandidate A)}
    (h : Adjoining cursor run middle) (h' : Adjoining middle run' stop) :
    Adjoining cursor (run ++ run') stop := by
  induction run generalizing cursor with
  | nil =>
    cases h
    exact h'
  | cons c run ih => exact ⟨h.1, ih h.2⟩

theorem Adjoining.bounds {cursor stop : Nat} (h : Adjoining cursor run stop) :
    cursor ≤ stop ∧ ∀ c ∈ run, cursor ≤ c.offset ∧ c.offset + c.width ≤ stop := by
  induction run generalizing cursor with
  | nil => exact ⟨Nat.le_of_eq h, nofun⟩
  | cons first rest ih =>
    obtain ⟨hle, hrest⟩ := ih h.2
    obtain ⟨hoffset, -⟩ := h
    refine ⟨by omega, fun c hc => ?_⟩
    rcases List.mem_cons.mp hc with rfl | hc
    · omega
    · have := hrest c hc
      omega

theorem Adjoining.covers {cursor stop bit : Nat} (h : Adjoining cursor run stop) (hle : cursor ≤ bit)
    (hlt : bit < stop) : ∃ c ∈ run, c.offset ≤ bit ∧ bit < c.offset + c.width := by
  induction run generalizing cursor with
  | nil =>
    cases h
    omega
  | cons first rest ih =>
    obtain ⟨hoffset, hrest⟩ := h
    by_cases hin : bit < cursor + first.width
    · exact ⟨first, List.mem_cons_self, by omega, by omega⟩
    · obtain ⟨c, hc, hcovers⟩ := ih hrest (by omega)
      exact ⟨c, List.mem_cons_of_mem _ hc, hcovers⟩

/-- The scanned stores adjoin, and behind the last one that is merged a store over all is
possible. -/
def Merges (elementWidth : Option Nat) (start cursor : Nat) (rest : List (StoreCandidate A))
    (runEnd : Nat) : Prop :=
  runEnd = 0 ∨ ∃ stop, Adjoining cursor (rest.take runEnd) stop ∧
    (aggregateStaticOffset start (stop - start) elementWidth).isSome

theorem scanRun_merges {elementWidth : Option Nat}
    {maxStoreWidth start cursor expected scanned runEnd : Nat} {behind : List (StoreCandidate A)}
    (hbehind : rest.drop scanned = behind)
    (hscanned : Adjoining cursor (rest.take scanned) expected)
    (hmerges : Merges elementWidth start cursor rest runEnd) :
    Merges elementWidth start cursor rest
      (scanRun elementWidth maxStoreWidth start expected scanned runEnd behind) := by
  induction behind generalizing expected scanned runEnd with
  | nil => exact hmerges
  | cons next behind ih =>
    obtain ⟨-, hbehind, htake⟩ := drop_cons hbehind
    unfold scanRun
    split
    · exact hmerges
    · rename_i hoffset
      have hnext : Adjoining cursor (rest.take (scanned + 1)) (expected + next.width) := by
        rw [htake]
        exact hscanned.append ⟨not_not.mp hoffset, rfl⟩
      simp only
      split_ifs with hmax hsome
      · exact hmerges
      · exact ih hbehind hnext (.inr ⟨_, hnext, hsome⟩)
      · exact hmerges
      · exact ih hbehind hnext hmerges

variable {elementWidths : RegionedAbsoluteAddr A → Option Nat} {maxStoreWidth fuel : Nat}

theorem flatten_runsOf {sorted : List (StoreCandidate A)} (h : sorted.length ≤ fuel) :
    (runsOf elementWidths maxStoreWidth fuel sorted).flatten = sorted := by
  induction fuel generalizing sorted with
  | zero =>
    rw [List.eq_nil_of_length_eq_zero (Nat.le_zero.mp h)]
    rfl
  | succ fuel ih =>
    cases sorted with
    | nil => rfl
    | cons first rest =>
      simp only [runsOf, List.flatten_cons]
      rw [ih (by rw [List.length_drop]; simp only [List.length_cons] at h; omega), List.cons_append,
        List.take_append_drop]

/-- A run with more than one store can be written as one store. -/
def Mergeable (elementWidths : RegionedAbsoluteAddr A → Option Nat)
    (run : List (StoreCandidate A)) : Prop :=
  ∃ first rest, run = first :: rest ∧
    Adjoining first.offset run (first.offset + runWidth run) ∧
    (aggregateStaticOffset first.offset (runWidth run) (elementWidths first.addr)).isSome

theorem mergeable_of_mem {sorted : List (StoreCandidate A)}
    (h : run ∈ runsOf elementWidths maxStoreWidth fuel sorted) (hlength : 2 ≤ run.length) :
    Mergeable elementWidths run := by
  induction fuel generalizing sorted with
  | zero => cases h
  | succ fuel ih =>
    cases sorted with
    | nil => cases h
    | cons first rest =>
      rcases List.mem_cons.mp h with rfl | h
      · have hmerges : Merges (elementWidths first.addr) first.offset (first.offset + first.width) rest
            (scanRun (elementWidths first.addr) maxStoreWidth first.offset
              (first.offset + first.width) 0 0 rest) := scanRun_merges rfl rfl (.inl rfl)
        rcases hmerges with hzero | ⟨stop, hadjoining, hsome⟩
        · rw [hzero] at hlength
          simp at hlength
        · have hall : Adjoining first.offset (first :: rest.take _) stop := ⟨rfl, hadjoining⟩
          have hstop := hall.width
          subst hstop
          rw [Nat.add_sub_cancel_left] at hsome
          exact ⟨first, _, rfl, hall, hsome⟩
      · exact ih h

end Runs

/-! ## The plan of a block -/

section Plan
variable [DecidableEq A] {elementWidths : RegionedAbsoluteAddr A → Option Nat} {maxStoreWidth : Nat}

/-- What a merged run is. -/
structure MergedRun (elementWidths : RegionedAbsoluteAddr A → Option Nat)
    (instructions : List (SIRInstruction (RegionedAbsoluteAddr A)))
    (run : List (StoreCandidate A)) : Prop where
  mergeable : Mergeable elementWidths run
  group : ∃ addr hi, GroupAt instructions addr hi run

omit [DecidableEq A] in
theorem apart_flatten {runs : List (List (StoreCandidate A))}
    (h : runs.flatten.Pairwise fun c d => c.instIndex ≠ d.instIndex) : runs.Pairwise Apart :=
  (List.pairwise_flatten.mp h).2

theorem mergedRuns_spec (instructions : List (SIRInstruction (RegionedAbsoluteAddr A))) :
    (∀ run ∈ mergedRuns elementWidths maxStoreWidth instructions,
      MergedRun elementWidths instructions run) ∧
      (mergedRuns elementWidths maxStoreWidth instructions).Pairwise Apart := by
  obtain ⟨hgroups, hapart⟩ := sealedGroups_spec instructions
  have hperm : ∀ group : List (StoreCandidate A), (runsOf elementWidths maxStoreWidth
      (group.insertionSort fun a b => a.offset ≤ b.offset).length
      (group.insertionSort fun a b => a.offset ≤ b.offset)).flatten.Perm group := fun group => by
    rw [flatten_runsOf le_rfl]
    exact List.perm_insertionSort _ _
  have hmem : ∀ group : List (StoreCandidate A), ∀ run ∈ runsOf elementWidths maxStoreWidth
      (group.insertionSort fun a b => a.offset ≤ b.offset).length
      (group.insertionSort fun a b => a.offset ≤ b.offset), ∀ c ∈ run, c ∈ group :=
    fun group run hrun c hc => (hperm group).mem_iff.mp (List.mem_flatten.mpr ⟨run, hrun, hc⟩)
  unfold mergedRuns
  refine ⟨fun run hrun => ?_, List.Pairwise.filter _ ?_⟩
  · obtain ⟨hrun, hlength⟩ := List.mem_filter.mp hrun
    obtain ⟨group, hgroup, hrun⟩ := List.mem_flatMap.mp hrun
    obtain ⟨-, addr, hi, hat⟩ := hgroups group hgroup
    exact ⟨mergeable_of_mem hrun (of_decide_eq_true hlength), addr, hi, fun c hc =>
      hat c (hmem group run hrun c hc)⟩
  · rw [List.pairwise_flatMap]
    refine ⟨fun group hgroup => apart_flatten ?_, hapart.imp fun h run hrun run' hrun' c hc d hd =>
      h c (hmem _ run hrun c hc) d (hmem _ run' hrun' d hd)⟩
    refine ((hperm group).pairwise_iff fun h => h.symm).mpr ?_
    exact (hgroups group hgroup).1.imp fun h => Nat.ne_of_lt h

omit [DecidableEq A] in
/-- A run is known by one of its indices. -/
theorem MergedRun.unique {runs : List (List (StoreCandidate A))} (hapart : runs.Pairwise Apart)
    {run run' : List (StoreCandidate A)} (hrun : run ∈ runs) (hrun' : run' ∈ runs)
    {c d : StoreCandidate A} (hc : c ∈ run) (hd : d ∈ run') (hindex : c.instIndex = d.instIndex) :
    run = run' := by
  by_contra hne
  have : Std.Symm (Apart (A := A)) := ⟨fun _ _ h c hc d hd heq => h d hd c hc heq.symm⟩
  exact hapart.forall hrun hrun' hne c hc d hd hindex

end Plan
end Celox.Opt
