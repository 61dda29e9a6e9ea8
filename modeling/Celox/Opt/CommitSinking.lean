import Celox.Opt.InlineForwarding
import Celox.Opt.StableStoreComplete

/-! # Commits sunk into the predecessors of their block

Where all ways into a block are jumps whose blocks store what a commit of it publishes, the commit
is left out and every predecessor stores to the stable copy at its end. A commit that the
predecessors store piece by piece is cut into these pieces first. -/
namespace Celox.Opt
open Celox.Sir Celox.Layout Celox.Data

variable {A : Type} [DecidableEq A]

/-! ## What a predecessor stores -/

def regWidth (registerMap : Table RegisterId RegisterType) (reg : RegisterId) : Option Nat :=
  (registerMap.lookup reg).map (·.width)

/-- The argument that is exactly a part of a concatenation, from the least significant one on. -/
def extractSubregFromConcat (registerMap : Table RegisterId RegisterType) (relOff width : Nat) :
    Nat → List RegisterId → Option RegisterId
  | _, [] => none
  | lsb, arg :: rest => do
    let w ← regWidth registerMap arg
    let msb := lsb + w
    if lsb ≤ relOff ∧ relOff + width ≤ msb then
      if relOff = lsb ∧ width = w then some arg else none
    else extractSubregFromConcat registerMap relOff width msb rest

/-- The arguments of the last concatenation that defines a register, going backwards. -/
def definingConcat (reg : RegisterId) : List (Instruction A) → Option (List RegisterId)
  | [] => none
  | inst :: earlier =>
    match inst with
    | .concat dst args => if dst = reg then some args else definingConcat reg earlier
    | _ => definingConcat reg earlier

/-- The register that holds a range at the end of a block, found at the last store at a constant
offset that meets the range; the instructions come last first. -/
def resolveForwardSrcFromPred (registerMap : Table RegisterId RegisterType)
    (commitSrc : RegionedAbsoluteAddr A) (commitOff commitBits : Nat) :
    List (Instruction A) → Option RegisterId
  | [] => none
  | inst :: earlier =>
    match inst with
    | .store addr (.static storeOff) storeBits storeSrc _ _ =>
      if addr = commitSrc ∧ commitOff < storeOff + storeBits ∧
          storeOff < commitOff + commitBits then
        if commitOff < storeOff then none
        else if storeBits < commitOff - storeOff + commitBits then none
        else if commitOff = storeOff ∧ commitBits = storeBits then some storeSrc
        else do
          let args ← definingConcat storeSrc earlier
          extractSubregFromConcat registerMap (commitOff - storeOff) commitBits 0 args.reverse
      else resolveForwardSrcFromPred registerMap commitSrc commitOff commitBits earlier
    | _ => resolveForwardSrcFromPred registerMap commitSrc commitOff commitBits earlier

/-- For every predecessor the register that holds a range at its end. -/
def predSources (eu : RegionedUnit A) (jumpPreds : List BlockId) (src : RegionedAbsoluteAddr A)
    (off bits : Nat) : Option (List (BlockId × RegisterId)) :=
  jumpPreds.mapM fun pred => do
    let block ← eu.blocks.lookup pred
    let reg ← resolveForwardSrcFromPred eu.registerMap src off bits block.instructions.reverse
    return (pred, reg)

/-! ## The ways into a block -/

/-- Edges from a block to itself do not count. -/
structure CommitMergePredecessors where
  jump : List BlockId
  hasNonJump : Bool

def commitMergePredecessors (eu : RegionedUnit A) (target : BlockId) : CommitMergePredecessors where
  jump := ((eu.blocks.entries.filter fun e =>
    match e.2.terminator with
    | .jump successor _ => successor = target && e.1 ≠ target
    | _ => false).map (·.1)).insertionSort (· ≤ ·)
  hasNonJump := eu.blocks.entries.any fun e =>
    match e.2.terminator with
    | .branch .. | .switch .. => target ∈ e.2.terminator.successorIds && e.1 ≠ target
    | _ => false

/-- Whether the commits of a block are looked at. -/
def CommitMergePredecessors.merges (predecessors : CommitMergePredecessors) : Bool :=
  !predecessors.hasNonJump && !predecessors.jump.isEmpty

def updateInstructions (eu : RegionedUnit A) (target : BlockId)
    (update : List (Instruction A) → List (Instruction A)) : RegionedUnit A :=
  eu.mapBlocks fun b block =>
    if b = target then { block with instructions := update block.instructions } else block

/-! ## Pieces -/

/-- The parts of a range that a block stores, by their offsets. -/
def subRanges (src : RegionedAbsoluteAddr A) (off bits : Nat)
    (instructions : List (Instruction A)) : List (Nat × Nat) :=
  ((instructions.filterMap fun inst =>
    match inst with
    | .store addr (.static storeOff) storeBits _ _ _ =>
      if addr = src ∧ off ≤ storeOff ∧ storeOff + storeBits ≤ off + bits then
        some (storeOff, storeBits)
      else none
    | _ => none).insertionSort fun a b => a.1 ≤ b.1).destutter (· ≠ ·)

/-- Whether ranges in the order of their offsets lie behind each other from an offset on. -/
def contiguousRanges : Nat → List (Nat × Nat) → Bool
  | _, [] => true
  | expected, range :: rest =>
    range.1 = expected && contiguousRanges (expected + range.2) rest

def hasStore (src : RegionedAbsoluteAddr A) (range : Nat × Nat)
    (instructions : List (Instruction A)) : Bool :=
  instructions.any fun inst =>
    match inst with
    | .store addr (.static storeOff) storeBits _ _ _ =>
      addr = src && storeOff = range.1 && storeBits = range.2
    | _ => false

/-- The pieces of a commit, if it is cut. -/
def splitCommit (eu : RegionedUnit A) (jumpPreds : List BlockId) :
    Instruction A → Option (List (Instruction A))
  | .commit src dst (.static off) bits _ => do
    let alreadySinkable := (predSources eu jumpPreds src off bits).isSome
    if alreadySinkable then none
    else
      let firstBlock ← eu.blocks.lookup (← jumpPreds.head?)
      let ranges := subRanges src off bits firstBlock.instructions
      if (ranges.map (·.2)).sum ≠ bits then none
      else if !contiguousRanges off ranges then none
      else if jumpPreds.tail.all fun pred => (eu.blocks.lookup pred).any fun block =>
          ranges.all fun range => hasStore src range block.instructions then
        some (ranges.map fun range => .commit src dst (.static range.1) range.2 [])
      else none
  | _ => none

def splitMerge (predecessors : BlockId → CommitMergePredecessors) (eu : RegionedUnit A)
    (merge : BlockId) : RegionedUnit A :=
  if (predecessors merge).merges then
    updateInstructions eu merge fun instructions => instructions.flatMap fun inst =>
      (splitCommit eu (predecessors merge).jump inst).getD [inst]
  else eu

def splitWideCommits (eu : RegionedUnit A) : RegionedUnit A :=
  eu.blocks.keys.foldl (splitMerge (commitMergePredecessors eu)) eu

/-! ## Sinking -/

/-- What is stored at the end of the predecessors in place of a commit. -/
structure SinkableCommit (A : Type) where
  dst : RegionedAbsoluteAddr A
  off : Nat
  bits : Nat
  predSources : List (BlockId × RegisterId)

def sinkableCommit (hazards : DirectStableStoreHazards A) (eu : RegionedUnit A)
    (jumpPreds : List BlockId) : Instruction A → Option (SinkableCommit A)
  | .commit src dst (.static off) bits _ =>
    if src.region ≠ WORKING_REGION ∨ dst.region ≠ STABLE_REGION ∨
        hazards.overlaps dst.absoluteAddr off bits then none
    else (predSources eu jumpPreds src off bits).map (⟨dst, off, bits, ·⟩)
  | _ => none

def SinkableCommit.store (sinkable : SinkableCommit A) (reg : RegisterId) : Instruction A :=
  .store sinkable.dst (.static sinkable.off) sinkable.bits reg [] []

/-- The stores of one commit, each at the end of its predecessor. -/
def pushStores (eu : RegionedUnit A) (sinkable : SinkableCommit A) : RegionedUnit A :=
  sinkable.predSources.foldl (fun eu source =>
    updateInstructions eu source.1 (· ++ [sinkable.store source.2])) eu

/-- A block with jumps into it is no predecessor of its own, so its commits stand where they did
when they are removed. -/
def sinkMerge (hazards : DirectStableStoreHazards A)
    (predecessors : BlockId → CommitMergePredecessors) (eu : RegionedUnit A) (merge : BlockId) :
    RegionedUnit A :=
  if (predecessors merge).merges then
    match eu.blocks.lookup merge with
    | none => eu
    | some block =>
      let sinkable := sinkableCommit hazards eu (predecessors merge).jump
      updateInstructions ((block.instructions.filterMap sinkable).foldl pushStores eu) merge
        (·.filter fun inst => (sinkable inst).isNone)
  else eu

def optimizeCommitSinkingWithHazards (hazards : DirectStableStoreHazards A) (eu : RegionedUnit A) :
    RegionedUnit A :=
  eu.blocks.keys.foldl (sinkMerge hazards (commitMergePredecessors eu)) eu

def optimizeCommitSinking (eu : RegionedUnit A) : RegionedUnit A :=
  optimizeCommitSinkingWithHazards (directStableStoreHazards eu) eu

end Celox.Opt

/-! ## All blocks at once

Both passes go through the blocks one after the other and change the unit on the way. What they look
at in a block does not change by that, so every block can be rewritten from the unit as it was. -/
namespace Celox.Opt
open Celox.Sir Celox.Layout Celox.Data

variable {A : Type} [DecidableEq A]

/-! ## Updates -/

section Update
variable {eu : RegionedUnit A} {b target : BlockId}
  {update : List (Instruction A) → List (Instruction A)}

/-- The block with other instructions. -/
def withInstructions (block : BasicBlock (RegionedAbsoluteAddr A))
    (instructions : List (Instruction A)) : BasicBlock (RegionedAbsoluteAddr A) :=
  { block with instructions }

omit [DecidableEq A] in
theorem lookup_updateInstructions : (updateInstructions eu target update).blocks.lookup b =
    (eu.blocks.lookup b).map fun block =>
      if b = target then withInstructions block (update block.instructions) else block :=
  ExecutionUnit.lookup_mapBlocks _ b

end Update

/-! ## What the passes look at -/

section Look
variable {eu eu' : RegionedUnit A} {b m : BlockId} {src : RegionedAbsoluteAddr A} {off bits : Nat}
  {instructions : List (Instruction A)}

def isCommit : Instruction A → Bool
  | .commit .. => true
  | _ => false

def withoutCommits (instructions : List (Instruction A)) : List (Instruction A) :=
  instructions.filter fun inst => !isCommit inst

omit [DecidableEq A] in
theorem withoutCommits_commit {inst : Instruction A} (h : isCommit inst = true) :
    withoutCommits (inst :: instructions) = withoutCommits instructions := by
  rw [withoutCommits, List.filter_cons, h]
  rfl

omit [DecidableEq A] in
theorem withoutCommits_other {inst : Instruction A} (h : isCommit inst = false) :
    withoutCommits (inst :: instructions) = inst :: withoutCommits instructions := by
  rw [withoutCommits, List.filter_cons, h]
  rfl

omit [DecidableEq A] in
theorem definingConcat_withoutCommits (reg : RegisterId) (instructions : List (Instruction A)) :
    definingConcat reg (withoutCommits instructions) = definingConcat reg instructions := by
  induction instructions with
  | nil => rfl
  | cons inst rest ih =>
    cases inst with
    | commit => exact (congrArg _ (withoutCommits_commit rfl)).trans ih
    | _ =>
      rw [withoutCommits_other rfl]
      simp only [definingConcat, ih]

theorem resolve_withoutCommits (registerMap : Table RegisterId RegisterType)
    (instructions : List (Instruction A)) :
    resolveForwardSrcFromPred registerMap src off bits (withoutCommits instructions) =
      resolveForwardSrcFromPred registerMap src off bits instructions := by
  induction instructions with
  | nil => rfl
  | cons inst rest ih =>
    cases inst with
    | commit => exact (congrArg _ (withoutCommits_commit rfl)).trans ih
    | store addr offset =>
      rw [withoutCommits_other rfl]
      cases offset <;> simp only [resolveForwardSrcFromPred, definingConcat_withoutCommits, ih]
    | _ =>
      rw [withoutCommits_other rfl]
      simp only [resolveForwardSrcFromPred, ih]

/-- The same registers, and the same ones found in every block. -/
theorem predSources_congr {preds : List BlockId} (hregs : eu'.registerMap = eu.registerMap)
    (h : ∀ p, (eu'.blocks.lookup p).map (fun block => resolveForwardSrcFromPred eu.registerMap src
        off bits block.instructions.reverse) =
      (eu.blocks.lookup p).map fun block => resolveForwardSrcFromPred eu.registerMap src off bits
        block.instructions.reverse) :
    predSources eu' preds src off bits = predSources eu preds src off bits := by
  unfold predSources
  congr 1
  funext p
  have hp := h p
  rw [hregs]
  cases hb : eu.blocks.lookup p with
  | none =>
    rw [hb, Option.map_none, Option.map_eq_none_iff] at hp
    rw [hp]
  | some block =>
    rw [hb, Option.map_some, Option.map_eq_some_iff] at hp
    obtain ⟨block', hb', heq⟩ := hp
    simp only [hb', Option.bind_eq_bind, Option.bind_some, heq]

/-- Where a block jumps to, if not to itself. -/
def jumpTarget (eu : RegionedUnit A) (b : BlockId) : Option BlockId :=
  match eu.blocks.lookup b with
  | none => none
  | some block =>
    match block.terminator with
    | .jump successor _ => if successor = b then none else some successor
    | _ => none

omit [DecidableEq A] in
theorem mem_jump : b ∈ (commitMergePredecessors eu m).jump ↔ jumpTarget eu b = some m := by
  unfold commitMergePredecessors jumpTarget
  rw [List.mem_insertionSort, List.mem_map]
  constructor
  · rintro ⟨⟨b', block⟩, hfilter, rfl⟩
    obtain ⟨hmem, hjump⟩ := List.mem_filter.mp hfilter
    rw [AList.mem_lookup_iff.mpr hmem]
    obtain ⟨id, params, instructions, terminator⟩ := block
    cases terminator with
    | jump successor args =>
      obtain ⟨htarget, hne⟩ := Bool.and_eq_true_iff.mp hjump
      obtain rfl := of_decide_eq_true htarget
      exact if_neg fun h => of_decide_eq_true hne h.symm
    | _ => cases hjump
  · intro h
    cases hb : eu.blocks.lookup b with
    | none =>
      rw [hb] at h
      cases h
    | some block =>
      rw [hb] at h
      simp only at h
      refine ⟨⟨b, block⟩, List.mem_filter.mpr ⟨AList.mem_lookup_iff.mp hb, ?_⟩, rfl⟩
      cases hterminator : block.terminator with
      | jump successor args =>
        rw [hterminator] at h
        simp only at h ⊢
        split at h
        · cases h
        · rename_i hne
          cases h
          rw [Bool.and_eq_true, decide_eq_true_eq, decide_eq_true_eq]
          exact ⟨rfl, fun heq => hne heq.symm⟩
      | _ =>
        rw [hterminator] at h
        cases h

omit [DecidableEq A] in
theorem nodup_jump : (commitMergePredecessors eu m).jump.Nodup := by
  unfold commitMergePredecessors
  refine (List.perm_insertionSort _ _).nodup_iff.mpr ?_
  have hkeys : (eu.blocks.entries.map Sigma.fst).Nodup := eu.blocks.nodupKeys
  exact hkeys.sublist (List.filter_sublist.map _)

omit [DecidableEq A] in
theorem not_mem_jump_self : m ∉ (commitMergePredecessors eu m).jump := by
  rw [mem_jump]
  unfold jumpTarget
  split
  · exact nofun
  · split
    · split
      · exact nofun
      · rename_i hne
        exact fun h => hne (Option.some.inj h)
    · exact nofun

end Look

/-! ## Splitting -/

section Split
variable {eu eu' : RegionedUnit A} {b m : BlockId} {src : RegionedAbsoluteAddr A} {off bits : Nat}

omit [DecidableEq A] in
/-- A list filtered by what keeps no commit. -/
theorem filterMap_withoutCommits {B : Type} {f : Instruction A → Option B}
    (hf : ∀ inst, isCommit inst = true → f inst = none) (instructions : List (Instruction A)) :
    (withoutCommits instructions).filterMap f = instructions.filterMap f := by
  induction instructions with
  | nil => rfl
  | cons inst rest ih =>
    cases hcommit : isCommit inst with
    | true => rw [withoutCommits_commit hcommit, List.filterMap_cons, hf inst hcommit, ih]
    | false => rw [withoutCommits_other hcommit, List.filterMap_cons, List.filterMap_cons, ih]

theorem subRanges_withoutCommits (instructions : List (Instruction A)) :
    subRanges src off bits (withoutCommits instructions) = subRanges src off bits instructions := by
  unfold subRanges
  rw [filterMap_withoutCommits]
  intro inst hcommit
  cases inst <;> first | rfl | cases hcommit

theorem hasStore_withoutCommits (range : Nat × Nat) (instructions : List (Instruction A)) :
    hasStore src range (withoutCommits instructions) = hasStore src range instructions := by
  unfold hasStore withoutCommits
  rw [List.any_filter]
  congr 1
  funext inst
  cases inst <;> rfl

/-- Units that differ in their commits. -/
structure SameButCommits (eu eu' : RegionedUnit A) : Prop where
  registerMap : eu'.registerMap = eu.registerMap
  instructions : ∀ b, (eu'.blocks.lookup b).map (withoutCommits ·.instructions) =
    (eu.blocks.lookup b).map (withoutCommits ·.instructions)

omit [DecidableEq A] in
/-- What does not look at commits is the same for a block of both. -/
theorem SameButCommits.view (h : SameButCommits eu eu') {B : Type} {f : List (Instruction A) → B}
    (hf : ∀ instructions, f (withoutCommits instructions) = f instructions) (b : BlockId) :
    (eu'.blocks.lookup b).map (f ·.instructions) = (eu.blocks.lookup b).map (f ·.instructions) := by
  have heq := congrArg (Option.map f) (h.instructions b)
  simpa only [Option.map_map, Function.comp_def, hf] using heq

omit [DecidableEq A] in
theorem withoutCommits_reverse (instructions : List (Instruction A)) :
    (withoutCommits instructions).reverse = withoutCommits instructions.reverse :=
  List.filter_reverse.symm

theorem SameButCommits.predSources (h : SameButCommits eu eu') (preds : List BlockId) :
    predSources eu' preds src off bits = predSources eu preds src off bits := by
  refine predSources_congr h.registerMap (h.view
    (f := fun instructions => resolveForwardSrcFromPred eu.registerMap src off bits
      instructions.reverse) fun instructions => ?_)
  rw [withoutCommits_reverse, resolve_withoutCommits]

theorem SameButCommits.splitCommit (h : SameButCommits eu eu') (preds : List BlockId)
    (inst : Instruction A) : splitCommit eu' preds inst = splitCommit eu preds inst := by
  have hranges : ∀ src off bits pred, (eu'.blocks.lookup pred).map (fun block =>
      subRanges src off bits block.instructions) = (eu.blocks.lookup pred).map (fun block =>
        subRanges src off bits block.instructions) := fun src off bits =>
    h.view subRanges_withoutCommits
  have hstores : ∀ src (ranges : List (Nat × Nat)) pred,
      ((eu'.blocks.lookup pred).any fun block => ranges.all fun range =>
        hasStore src range block.instructions) =
      (eu.blocks.lookup pred).any fun block => ranges.all fun range =>
        hasStore src range block.instructions := by
    intro src ranges pred
    have heq := h.view (f := fun instructions => ranges.all fun range =>
      hasStore src range instructions) (fun instructions => by
        simp only [hasStore_withoutCommits]) pred
    cases hb : eu.blocks.lookup pred <;> cases hb' : eu'.blocks.lookup pred <;>
      simp only [hb, hb', Option.map_none, Option.map_some, reduceCtorEq, Option.some.injEq] at heq
    · rfl
    · exact heq
  cases inst with
  | commit src dst offset bits triggers =>
    cases offset with
    | static off =>
      unfold Opt.splitCommit
      simp only [h.predSources, hstores]
      split
      · rfl
      · cases preds.head? with
        | none => rfl
        | some first =>
          have hfirst := hranges src off bits first
          simp only [Option.bind_eq_bind, Option.bind_some]
          cases hb : eu.blocks.lookup first <;> cases hb' : eu'.blocks.lookup first <;>
            simp only [hb, hb', Option.map_none, Option.map_some, reduceCtorEq,
              Option.some.injEq] at hfirst
          · rfl
          · simp only [Option.bind_some, hfirst]
    | _ => rfl
  | _ => rfl

/-- The instructions of a block with its wide commits in pieces. -/
def splitInstructions (eu : RegionedUnit A) (b : BlockId) (instructions : List (Instruction A)) :
    List (Instruction A) :=
  if (commitMergePredecessors eu b).merges then
    instructions.flatMap fun inst =>
      (splitCommit eu (commitMergePredecessors eu b).jump inst).getD [inst]
  else instructions

theorem splitCommit_some {preds : List BlockId} {inst : Instruction A}
    {pieces : List (Instruction A)} (h : splitCommit eu preds inst = some pieces) :
    ∃ src dst off bits triggers ranges, inst = .commit src dst (.static off) bits triggers ∧
      (ranges.map (·.2)).sum = bits ∧ contiguousRanges off ranges = true ∧
      pieces = ranges.map fun range => .commit src dst (.static range.1) range.2 [] := by
  unfold splitCommit at h
  split at h
  · rename_i src dst off bits triggers
    simp only at h
    split at h
    · cases h
    · simp only [Option.bind_eq_bind, Option.bind_eq_some_iff] at h
      obtain ⟨first, -, block, -, h⟩ := h
      split at h
      · cases h
      · rename_i hsum
        split at h
        · cases h
        · rename_i hcontiguous
          split at h
          · cases h
            rw [Bool.not_eq_true, Bool.not_eq_false'] at hcontiguous
            exact ⟨src, dst, off, bits, triggers, _, rfl, not_not.mp hsum, hcontiguous, rfl⟩
          · cases h
  · cases h

theorem withoutCommits_split (instructions : List (Instruction A)) :
    withoutCommits (splitInstructions eu b instructions) = withoutCommits instructions := by
  unfold splitInstructions
  split
  · induction instructions with
    | nil => rfl
    | cons inst rest ih =>
      rw [List.flatMap_cons]
      unfold withoutCommits at ih ⊢
      rw [List.filter_append, ih, List.filter_cons]
      cases hsplit : splitCommit eu (commitMergePredecessors eu b).jump inst with
      | none =>
        rw [Option.getD_none, List.filter_cons]
        split <;> rfl
      | some pieces =>
        obtain ⟨src, dst, off, bits, triggers, ranges, rfl, -, -, rfl⟩ := splitCommit_some hsplit
        rw [Option.getD_some, List.filter_eq_nil_iff.mpr]
        · rfl
        · intro piece hpiece
          obtain ⟨range, -, rfl⟩ := List.mem_map.mp hpiece
          exact Bool.false_ne_true
  · rfl

/-- The unit when some blocks are done. -/
structure SplitTo (eu : RegionedUnit A) (done : List BlockId) (u : RegionedUnit A) : Prop where
  entry : u.entryBlockId = eu.entryBlockId
  registerMap : u.registerMap = eu.registerMap
  blocks : ∀ b, u.blocks.lookup b = (eu.blocks.lookup b).map fun block =>
    if b ∈ done then withInstructions block (splitInstructions eu b block.instructions) else block

theorem SplitTo.same {done : List BlockId} {u : RegionedUnit A} (h : SplitTo eu done u) :
    SameButCommits eu u := by
  refine ⟨h.registerMap, fun b => ?_⟩
  rw [h.blocks, Option.map_map]
  congr 1
  funext block
  simp only [Function.comp_apply]
  split
  · exact withoutCommits_split _
  · rfl

theorem SplitTo.step {done : List BlockId} {u : RegionedUnit A} (h : SplitTo eu done u)
    (hm : m ∉ done) : SplitTo eu (m :: done) (splitMerge (commitMergePredecessors eu) u m) := by
  unfold splitMerge
  split
  · rename_i hmerges
    refine ⟨h.entry, h.registerMap, fun b => ?_⟩
    rw [lookup_updateInstructions, h.blocks, Option.map_map]
    congr 1
    funext block
    simp only [Function.comp_apply, List.mem_cons]
    by_cases heq : b = m
    · subst heq
      simp only [hm, if_false, if_true, true_or, splitInstructions, hmerges, h.same.splitCommit]
    · simp only [heq, if_false, false_or]
  · rename_i hmerges
    refine ⟨h.entry, h.registerMap, fun b => ?_⟩
    rw [h.blocks]
    congr 1
    funext block
    simp only [List.mem_cons]
    by_cases heq : b = m
    · subst heq
      simp only [hm, if_false, if_true, true_or, splitInstructions, hmerges]
      rfl
    · simp only [heq, false_or]

theorem splitWideCommits_spec (eu : RegionedUnit A) :
    (splitWideCommits eu).entryBlockId = eu.entryBlockId ∧
    (splitWideCommits eu).registerMap = eu.registerMap ∧
    ∀ b, (splitWideCommits eu).blocks.lookup b = (eu.blocks.lookup b).map fun block =>
      withInstructions block (splitInstructions eu b block.instructions) := by
  have hfold : ∀ (rest done : List BlockId) (u : RegionedUnit A), (done ++ rest).Nodup →
      SplitTo eu done u →
      SplitTo eu (rest.reverse ++ done)
        (rest.foldl (splitMerge (commitMergePredecessors eu)) u) := by
    intro rest
    induction rest with
    | nil => exact fun _ _ _ h => h
    | cons m rest ih =>
      intro done u hnodup h
      have hmiddle := List.nodup_middle.mp hnodup
      rw [List.foldl_cons, List.reverse_cons, List.append_assoc]
      exact ih (m :: done) _ hmiddle
        (h.step fun hm => (List.nodup_cons.mp hmiddle).1 (List.mem_append_left _ hm))
  have hall := hfold eu.blocks.keys [] eu eu.blocks.nodupKeys
    ⟨rfl, rfl, fun b => by simp only [List.not_mem_nil, if_false, Option.map_id']⟩
  refine ⟨hall.entry, hall.registerMap, fun b => (hall.blocks b).trans ?_⟩
  cases hb : eu.blocks.lookup b with
  | none => rfl
  | some block =>
    have hmem : b ∈ eu.blocks.keys := AList.mem_keys.mp (AList.lookup_isSome.mp (by rw [hb]; rfl))
    simp only [Option.map_some, List.append_nil, List.mem_reverse, hmem, if_true]

end Split

/-! ## Sinking -/

section Sink
variable {hazards : DirectStableStoreHazards A} {eu u : RegionedUnit A} {b m : BlockId}
  {src : RegionedAbsoluteAddr A} {off bits : Nat} {sinkable : SinkableCommit A}
  {inst : Instruction A} {done : List BlockId} {preds : List BlockId}

theorem sinkableCommit_some (h : sinkableCommit hazards eu preds inst = some sinkable) :
    ∃ src triggers, inst = .commit src sinkable.dst (.static sinkable.off) sinkable.bits triggers ∧
      src.region = WORKING_REGION ∧ sinkable.dst.region = STABLE_REGION ∧
      hazards.overlaps sinkable.dst.absoluteAddr sinkable.off sinkable.bits = false ∧
      predSources eu preds src sinkable.off sinkable.bits = some sinkable.predSources := by
  unfold sinkableCommit at h
  split at h
  · rename_i src dst off bits triggers
    split at h
    · cases h
    · rename_i hguard
      rw [not_or, not_or, not_not, not_not, Bool.not_eq_true] at hguard
      obtain ⟨sources, hsources, rfl⟩ := Option.map_eq_some_iff.mp h
      exact ⟨src, triggers, rfl, hguard.1, hguard.2.1, hguard.2.2, hsources⟩
  · cases h

/-- What is stored in place of an instruction of a block, if it is sunk. -/
def sunk (hazards : DirectStableStoreHazards A) (eu : RegionedUnit A) (b : BlockId)
    (inst : Instruction A) : Option (SinkableCommit A) :=
  if (commitMergePredecessors eu b).merges then
    sinkableCommit hazards eu (commitMergePredecessors eu b).jump inst
  else none

/-- The stores of one commit at the end of a block. -/
def SinkableCommit.storesIn (sinkable : SinkableCommit A) (b : BlockId) : List (Instruction A) :=
  sinkable.predSources.filterMap fun source =>
    if source.1 = b then some (sinkable.store source.2) else none

def storesFor (hazards : DirectStableStoreHazards A) (eu : RegionedUnit A) (m b : BlockId) :
    List (Instruction A) :=
  ((instructionsOf eu m).filterMap (sunk hazards eu m)).flatMap (·.storesIn b)

def remaining (hazards : DirectStableStoreHazards A) (eu : RegionedUnit A) (b : BlockId)
    (instructions : List (Instruction A)) : List (Instruction A) :=
  instructions.filter fun inst => (sunk hazards eu b inst).isNone

/-- The stores at the end of a block for the commits of the block that it jumps to. -/
def storesAtEnd (hazards : DirectStableStoreHazards A) (eu : RegionedUnit A) (b : BlockId) :
    List (Instruction A) :=
  match jumpTarget eu b with
  | some m => storesFor hazards eu m b
  | none => []

/-- The stores at the end of a block when some targets are done. -/
def storesOfDone (hazards : DirectStableStoreHazards A) (eu : RegionedUnit A) (done : List BlockId)
    (b : BlockId) : List (Instruction A) :=
  match jumpTarget eu b with
  | some m => if m ∈ done then storesFor hazards eu m b else []
  | none => []

/-- Stores to stable copies. -/
def StoresStable (instructions : List (Instruction A)) : Prop :=
  ∀ inst ∈ instructions, ∃ dst off bits reg,
    inst = .store dst (.static off) bits reg [] [] ∧ dst.region = STABLE_REGION

theorem storesFor_stable : StoresStable (storesFor hazards eu m b) := by
  intro inst hinst
  obtain ⟨sinkable, hsinkable, hstore⟩ := List.mem_flatMap.mp hinst
  obtain ⟨other, -, hsunk⟩ := List.mem_filterMap.mp hsinkable
  obtain ⟨source, -, hsource⟩ := List.mem_filterMap.mp hstore
  unfold sunk at hsunk
  split at hsunk
  · obtain ⟨-, -, -, -, hstable, -⟩ := sinkableCommit_some hsunk
    split at hsource
    · cases hsource
      exact ⟨_, _, _, _, rfl, hstable⟩
    · cases hsource
  · cases hsunk

theorem storesOfDone_stable : StoresStable (storesOfDone hazards eu done b) := by
  unfold storesOfDone
  split
  · split
    · exact storesFor_stable
    · exact nofun
  · exact nofun

theorem resolve_behind_stores {registerMap : Table RegisterId RegisterType}
    {stores rest : List (Instruction A)} (hstores : StoresStable stores)
    (hregion : src.region = WORKING_REGION) :
    resolveForwardSrcFromPred registerMap src off bits (stores ++ rest) =
      resolveForwardSrcFromPred registerMap src off bits rest := by
  induction stores with
  | nil => rfl
  | cons inst stores ih =>
    obtain ⟨hinst, hothers⟩ := List.forall_mem_cons.mp hstores
    obtain ⟨dst, storeOff, storeBits, reg, rfl, hstable⟩ := hinst
    have hne : dst ≠ src := by
      rintro rfl
      rw [hstable] at hregion
      cases hregion
    rw [List.cons_append, resolveForwardSrcFromPred, if_neg fun h => hne h.1]
    exact ih hothers

theorem withoutCommits_remaining (instructions : List (Instruction A)) :
    withoutCommits (remaining hazards eu b instructions) = withoutCommits instructions := by
  unfold withoutCommits remaining
  rw [List.filter_filter]
  refine List.filter_congr fun inst _ => ?_
  cases hsunk : sunk hazards eu b inst with
  | none => simp
  | some sinkable =>
    unfold sunk at hsunk
    split at hsunk
    · obtain ⟨src, triggers, rfl, -⟩ := sinkableCommit_some hsunk
      rfl
    · cases hsunk

/-- The unit when some blocks are done. -/
structure SinkTo (hazards : DirectStableStoreHazards A) (eu : RegionedUnit A) (done : List BlockId)
    (u : RegionedUnit A) : Prop where
  entry : u.entryBlockId = eu.entryBlockId
  registerMap : u.registerMap = eu.registerMap
  blocks : ∀ b, u.blocks.lookup b = (eu.blocks.lookup b).map fun block => withInstructions block
    ((if b ∈ done then remaining hazards eu b block.instructions else block.instructions) ++
      storesOfDone hazards eu done b)

theorem SinkTo.looks (h : SinkTo hazards eu done u) (preds : List BlockId)
    (inst : Instruction A) :
    sinkableCommit hazards u preds inst = sinkableCommit hazards eu preds inst := by
  cases inst with
  | commit src dst offset bits triggers =>
    cases offset with
    | static off =>
      unfold sinkableCommit
      simp only
      split
      · rfl
      · rename_i hguard
        rw [not_or, not_not] at hguard
        congr 1
        refine predSources_congr h.registerMap fun p => ?_
        rw [h.blocks, Option.map_map]
        congr 1
        funext block
        simp only [Function.comp_apply, withInstructions, List.reverse_append]
        rw [resolve_behind_stores (fun inst hinst =>
          storesOfDone_stable inst (List.mem_reverse.mp hinst)) hguard.1]
        split
        · rw [← resolve_withoutCommits, ← withoutCommits_reverse, withoutCommits_remaining,
            withoutCommits_reverse, resolve_withoutCommits]
        · rfl
    | _ => rfl
  | _ => rfl

omit [DecidableEq A] in
theorem lookup_pushStores (u : RegionedUnit A) (sinkable : SinkableCommit A) (b : BlockId) :
    (pushStores u sinkable).blocks.lookup b = (u.blocks.lookup b).map fun block =>
      withInstructions block (block.instructions ++ sinkable.storesIn b) := by
  unfold pushStores SinkableCommit.storesIn
  generalize sinkable.predSources = sources
  induction sources generalizing u with
  | nil =>
    simp only [List.foldl_nil, List.filterMap_nil, List.append_nil]
    exact Option.map_id'.symm ▸ rfl
  | cons source sources ih =>
    rw [List.foldl_cons, ih, lookup_updateInstructions, Option.map_map]
    congr 1
    funext block
    simp only [Function.comp_apply, List.filterMap_cons, eq_comm (a := b)]
    split <;> simp [withInstructions]

omit [DecidableEq A] in
theorem lookup_pushAll (sinkables : List (SinkableCommit A)) (u : RegionedUnit A) (b : BlockId) :
    (sinkables.foldl pushStores u).blocks.lookup b = (u.blocks.lookup b).map fun block =>
      withInstructions block (block.instructions ++ sinkables.flatMap (·.storesIn b)) := by
  induction sinkables generalizing u with
  | nil =>
    simp only [List.foldl_nil, List.flatMap_nil, List.append_nil]
    exact Option.map_id'.symm ▸ rfl
  | cons sinkable sinkables ih =>
    rw [List.foldl_cons, ih, lookup_pushStores, Option.map_map]
    congr 1
    funext block
    simp only [Function.comp_apply, withInstructions, List.flatMap_cons, List.append_assoc]

omit [DecidableEq A] in
theorem pushAll_same (sinkables : List (SinkableCommit A)) (u : RegionedUnit A) :
    (sinkables.foldl pushStores u).entryBlockId = u.entryBlockId ∧
      (sinkables.foldl pushStores u).registerMap = u.registerMap := by
  have hone : ∀ (sources : List (BlockId × RegisterId)) (sinkable : SinkableCommit A)
      (u : RegionedUnit A),
      (sources.foldl (fun eu source => updateInstructions eu source.1
        (· ++ [sinkable.store source.2])) u).entryBlockId = u.entryBlockId ∧
      (sources.foldl (fun eu source => updateInstructions eu source.1
        (· ++ [sinkable.store source.2])) u).registerMap = u.registerMap := by
    intro sources sinkable
    induction sources with
    | nil => exact fun _ => ⟨rfl, rfl⟩
    | cons source sources ih => exact fun u => ih _
  induction sinkables generalizing u with
  | nil => exact ⟨rfl, rfl⟩
  | cons sinkable sinkables ih =>
    obtain ⟨hentry, hregs⟩ := ih (pushStores u sinkable)
    obtain ⟨hentry', hregs'⟩ := hone sinkable.predSources sinkable u
    exact ⟨hentry.trans hentry', hregs.trans hregs'⟩

omit [DecidableEq A] in
theorem flatMap_storesIn_nil {sinkables : List (SinkableCommit A)}
    (h : ∀ sinkable ∈ sinkables, ∀ source ∈ sinkable.predSources, source.1 ≠ b) :
    sinkables.flatMap (·.storesIn b) = [] := by
  refine List.flatMap_eq_nil_iff.mpr fun sinkable hmem => List.filterMap_eq_nil_iff.mpr ?_
  exact fun source hsource => if_neg (h sinkable hmem source hsource)

theorem predSources_fst {sources : List (BlockId × RegisterId)}
    (h : predSources eu preds src off bits = some sources) : sources.map (·.1) = preds := by
  unfold predSources at h
  induction preds generalizing sources with
  | nil =>
    cases h
    rfl
  | cons p preds ih =>
    simp only [List.mapM_cons, Option.bind_eq_bind, Option.bind_eq_some_iff, Option.pure_def,
      Option.some.injEq] at h ih
    obtain ⟨_, ⟨block, -, reg, -, rfl⟩, rest, hrest, rfl⟩ := h
    rw [List.map_cons, ih hrest]

theorem sunk_sources (h : sunk hazards eu m inst = some sinkable) :
    sinkable.predSources.map (·.1) = (commitMergePredecessors eu m).jump := by
  unfold sunk at h
  split at h
  · obtain ⟨src, triggers, -, -, -, -, hsources⟩ := sinkableCommit_some h
    exact predSources_fst hsources
  · cases h

theorem storesFor_nil (h : jumpTarget eu b ≠ some m) : storesFor hazards eu m b = [] := by
  refine flatMap_storesIn_nil fun sinkable hmem source hsource heq => h ?_
  obtain ⟨inst, -, hsunk⟩ := List.mem_filterMap.mp hmem
  rw [← mem_jump, ← sunk_sources hsunk, ← heq]
  exact List.mem_map_of_mem hsource

/-- One more block is done: its stores are behind the blocks that jump to it. -/
theorem storesOfDone_cons (hm : m ∉ done) : storesOfDone hazards eu (m :: done) b =
    storesOfDone hazards eu done b ++ storesFor hazards eu m b := by
  unfold storesOfDone
  cases htarget : jumpTarget eu b with
  | none => rw [storesFor_nil (by rw [htarget]; exact nofun), List.append_nil]
  | some target =>
    by_cases heq : target = m
    · subst heq
      simp only [hm, List.mem_cons, true_or, if_true, if_false, List.nil_append]
    · rw [storesFor_nil (b := b) (m := m) (by rw [htarget]; exact fun h => heq (Option.some.inj h)),
        List.append_nil]
      simp only [List.mem_cons, heq, false_or]

theorem storesFor_self : storesFor hazards eu m m = [] :=
  storesFor_nil fun h => not_mem_jump_self (mem_jump.mpr h)

theorem SinkTo.step (h : SinkTo hazards eu done u) (hm : m ∉ done) (hin : m ∈ eu.blocks) :
    SinkTo hazards eu (m :: done) (sinkMerge hazards (commitMergePredecessors eu) u m) := by
  obtain ⟨block, hblock⟩ := Option.isSome_iff_exists.mp (AList.lookup_isSome.mpr hin)
  unfold sinkMerge
  split
  · rename_i hmerges
    rw [h.blocks, hblock, Option.map_some, if_neg hm]
    simp only
    have hlook : sinkableCommit hazards u (commitMergePredecessors eu m).jump =
        sunk hazards eu m := by
      funext inst
      rw [h.looks, sunk, if_pos hmerges]
    have hstores : ∀ inst ∈ storesOfDone hazards eu done m, sunk hazards eu m inst = none := by
      intro inst hinst
      obtain ⟨dst, off, bits, reg, rfl, -⟩ := storesOfDone_stable inst hinst
      rw [sunk, if_pos hmerges]
      rfl
    have hkept : (storesOfDone hazards eu done m).filter (fun inst =>
        (sunk hazards eu m inst).isNone) = storesOfDone hazards eu done m :=
      List.filter_eq_self.mpr fun inst hinst => by
        rw [hstores inst hinst]
        rfl
    have hplan : (withInstructions block (block.instructions ++
        storesOfDone hazards eu done m)).instructions.filterMap (sunk hazards eu m) =
        (instructionsOf eu m).filterMap (sunk hazards eu m) := by
      simp only [withInstructions, List.filterMap_append, instructionsOf, hblock]
      rw [List.filterMap_eq_nil_iff.mpr hstores, List.append_nil]
    rw [hlook, hplan]
    obtain ⟨hentry, hregs⟩ := pushAll_same ((instructionsOf eu m).filterMap (sunk hazards eu m)) u
    refine ⟨hentry.trans h.entry, hregs.trans h.registerMap, fun b => ?_⟩
    rw [lookup_updateInstructions, lookup_pushAll, h.blocks, Option.map_map, Option.map_map]
    congr 1
    funext other
    simp only [Function.comp_apply, withInstructions, List.mem_cons]
    rw [show ((instructionsOf eu m).filterMap (sunk hazards eu m)).flatMap (·.storesIn b) =
      storesFor hazards eu m b from rfl]
    by_cases heq : b = m
    · subst heq
      simp only [hm, if_true, if_false, true_or, storesOfDone_cons hm, storesFor_self,
        List.append_nil, List.filter_append]
      rw [hkept]
      rfl
    · simp only [heq, if_false, false_or, storesOfDone_cons hm, List.append_assoc]
  · rename_i hmerges
    refine ⟨h.entry, h.registerMap, fun b => (h.blocks b).trans ?_⟩
    have hnone : ∀ inst, sunk hazards eu m inst = none := fun inst => by rw [sunk, if_neg hmerges]
    have hnil : storesFor hazards eu m b = [] := by
      unfold storesFor
      rw [List.filterMap_eq_nil_iff.mpr fun inst _ => hnone inst]
      rfl
    congr 1
    funext other
    rw [storesOfDone_cons hm, hnil, List.append_nil]
    simp only [List.mem_cons]
    by_cases heq : b = m
    · subst heq
      simp only [hm, if_true, if_false, true_or, remaining, hnone, Option.isNone_none,
        List.filter_true]
    · simp only [heq, false_or]

theorem optimizeCommitSinkingWithHazards_spec (hazards : DirectStableStoreHazards A)
    (eu : RegionedUnit A) :
    (optimizeCommitSinkingWithHazards hazards eu).entryBlockId = eu.entryBlockId ∧
    (optimizeCommitSinkingWithHazards hazards eu).registerMap = eu.registerMap ∧
    ∀ b, (optimizeCommitSinkingWithHazards hazards eu).blocks.lookup b =
      (eu.blocks.lookup b).map fun block => withInstructions block
        (remaining hazards eu b block.instructions ++ storesAtEnd hazards eu b) := by
  have hfold : ∀ (rest done : List BlockId) (u : RegionedUnit A), (done ++ rest).Nodup →
      (∀ m ∈ rest, m ∈ eu.blocks) → SinkTo hazards eu done u →
      SinkTo hazards eu (rest.reverse ++ done)
        (rest.foldl (sinkMerge hazards (commitMergePredecessors eu)) u) := by
    intro rest
    induction rest with
    | nil => exact fun _ _ _ _ h => h
    | cons m rest ih =>
      intro done u hnodup hin h
      have hmiddle := List.nodup_middle.mp hnodup
      rw [List.foldl_cons, List.reverse_cons, List.append_assoc]
      exact ih (m :: done) _ hmiddle (fun p hp => hin p (List.mem_cons_of_mem _ hp))
        (h.step (fun hm => (List.nodup_cons.mp hmiddle).1 (List.mem_append_left _ hm))
          (hin m List.mem_cons_self))
  have hnone : ∀ b, storesOfDone hazards eu [] b = [] := by
    intro b
    unfold storesOfDone
    split <;> rfl
  have hall := hfold eu.blocks.keys [] eu eu.blocks.nodupKeys (fun m hm => AList.mem_keys.mpr hm)
    ⟨rfl, rfl, fun b => by
      simp only [List.not_mem_nil, if_false, hnone, List.append_nil]
      exact Option.map_id'.symm ▸ rfl⟩
  refine ⟨hall.entry, hall.registerMap, fun b => (hall.blocks b).trans ?_⟩
  cases hb : eu.blocks.lookup b with
  | none => rfl
  | some block =>
    have hkeys : ∀ m, m ∈ eu.blocks.keys.reverse ++ [] ↔ m ∈ eu.blocks := fun m => by
      rw [List.append_nil, List.mem_reverse, AList.mem_keys]
    have hmem : b ∈ eu.blocks := AList.lookup_isSome.mp (by rw [hb]; rfl)
    simp only [Option.map_some, (hkeys b).mpr hmem, if_true]
    congr 3
    unfold storesOfDone storesAtEnd
    split
    · rename_i target _
      split
      · rfl
      · rename_i hout
        rw [hkeys] at hout
        unfold storesFor instructionsOf
        rw [AList.lookup_eq_none.mpr hout]
        rfl
    · rfl

end Sink
end Celox.Opt
