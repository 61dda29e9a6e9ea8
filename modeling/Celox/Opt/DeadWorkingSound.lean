import Celox.Opt.DeadWorkingStores
import Celox.Sir.Prune

/-! # What the backward pass over the working region finds

The solution of the equations says what paths say: a dynamic read is ahead, or a static read is
ahead and no store that covers it comes first. -/
namespace Celox.Opt
open Celox.Sir Celox.Layout Celox.Data

variable {A : Type} [DecidableEq A]

/-- A working store that reads nothing of the working region. -/
def plainStoreKey (inst : Instruction A) : Option (WorkingKey A) :=
  if isDynamicWorkingRead inst ∨ (readWorkingKey inst).isSome then none else workingStoreKey inst

/-- A dynamic read of the working region is ahead. -/
def DynamicAhead (eu : RegionedUnit A) : BlockId → Nat → Prop :=
  eu.Meets (fun _ => False) fun inst => isDynamicWorkingRead inst = true

/-- A static read is ahead, and on the way to it no store that covers it. -/
def ReadAhead (eu : RegionedUnit A) (read : WorkingKey A) : BlockId → Nat → Prop :=
  eu.Meets (fun inst => ∃ key, plainStoreKey inst = some key ∧ key.covers read = true)
    fun inst => readWorkingKey inst = some read

/-! ## One instruction -/

section Transfer
variable {readKeys : List (WorkingKey A)} {inst : Instruction A} {state state' : LiveBits A × Bool}
  {read : WorkingKey A}

theorem mem_removeAll {live : LiveBits A} {reads : List (WorkingKey A)} :
    read ∈ removeAll live reads ↔ read ∈ live ∧ read ∉ reads := by
  induction reads generalizing live with
  | nil => simp [removeAll]
  | cons first reads ih =>
    change read ∈ removeAll (live.erase first) reads ↔ _
    rw [ih, Finset.mem_erase, List.mem_cons, not_or]
    tauto

omit [DecidableEq A] in
theorem not_dynamic_of_read {key : WorkingKey A} (h : readWorkingKey inst = some key) :
    isDynamicWorkingRead inst = false := by
  unfold readWorkingKey at h
  split at h
  · rfl
  · rfl
  · cases h

omit [DecidableEq A] in
theorem plainStoreKey_eq_some {key : WorkingKey A} : plainStoreKey inst = some key ↔
    isDynamicWorkingRead inst = false ∧ readWorkingKey inst = none ∧
      workingStoreKey inst = some key := by
  unfold plainStoreKey
  split
  · rename_i h
    constructor
    · intro h'
      cases h'
    · rintro ⟨hdyn, hread, -⟩
      rw [hdyn, hread] at h
      simp at h
  · rename_i h
    rw [not_or, Bool.not_eq_true, Bool.not_eq_true, Option.isSome_eq_false_iff,
      Option.isNone_iff_eq_none] at h
    simp [h.1, h.2]

theorem transferInstruction_snd :
    (transferInstruction readKeys inst state).2 = (isDynamicWorkingRead inst || state.2) := by
  unfold transferInstruction
  cases hdyn : isDynamicWorkingRead inst with
  | true => rfl
  | false =>
    simp only [Bool.false_eq_true, if_false, Bool.false_or]
    split
    · rfl
    · split
      · split <;> rfl
      · rfl

theorem mem_transferInstruction : read ∈ (transferInstruction readKeys inst state).1 ↔
    readWorkingKey inst = some read ∨ read ∈ state.1 ∧ ¬ (state.2 = false ∧ read ∈ readKeys ∧
      ∃ key, plainStoreKey inst = some key ∧ key.covers read = true) := by
  unfold transferInstruction
  cases hdyn : isDynamicWorkingRead inst with
  | true =>
    have hnone : readWorkingKey inst ≠ some read := fun h => by
      rw [not_dynamic_of_read h] at hdyn
      cases hdyn
    have hplain : plainStoreKey inst = none := by simp [plainStoreKey, hdyn]
    simp [hnone, hplain]
  | false =>
    simp only [Bool.false_eq_true, if_false]
    cases hread : readWorkingKey inst with
    | some key =>
      have hplain : plainStoreKey inst = none := by simp [plainStoreKey, hread]
      rw [Finset.mem_insert, Option.some.injEq, hplain, eq_comm (a := key)]
      simp
    | none =>
      have hplain : plainStoreKey inst = workingStoreKey inst := by
        simp [plainStoreKey, hdyn, hread]
      rw [hplain]
      cases hstore : workingStoreKey inst with
      | none => simp
      | some key =>
        cases hunknown : state.2 with
        | true => simp
        | false => simp [mem_removeAll, storeTransfer]

theorem keeps_eq_false : keeps readKeys inst state = false ↔ ∃ key, plainStoreKey inst = some key ∧
    state.2 = false ∧ ∀ read ∈ readKeys, key.overlaps read = true → read ∉ state.1 := by
  unfold keeps
  split
  · rename_i h
    have hplain : plainStoreKey inst = none := if_pos h
    simp [hplain]
  · rename_i h
    have hplain : plainStoreKey inst = workingStoreKey inst := if_neg h
    rw [hplain]
    cases hstore : workingStoreKey inst with
    | none => simp
    | some key => simp [storeTransfer]

theorem transferInstruction_mono (h : state ≤ state') :
    transferInstruction readKeys inst state ≤ transferInstruction readKeys inst state' := by
  obtain ⟨hlive, hunknown⟩ := Prod.le_def.mp h
  rw [Bool.le_iff_imp] at hunknown
  rw [Prod.le_def]
  constructor
  · intro read hread
    rw [mem_transferInstruction] at hread ⊢
    rcases hread with hread | ⟨hread, hnot⟩
    · exact .inl hread
    · refine .inr ⟨hlive hread, fun hkill => hnot ⟨?_, hkill.2⟩⟩
      rw [← Bool.not_eq_true]
      intro htrue
      rw [hunknown htrue] at hkill
      cases hkill.1
  · rw [transferInstruction_snd, transferInstruction_snd, Bool.le_iff_imp]
    intro htrue
    rw [Bool.or_eq_true] at htrue ⊢
    exact htrue.imp_right hunknown

theorem transferBlock_mono (instructions : List (Instruction A)) (h : state ≤ state') :
    transferBlock readKeys instructions state ≤ transferBlock readKeys instructions state' := by
  induction instructions with
  | nil => exact h
  | cons inst instructions ih => exact transferInstruction_mono ih

theorem transferBlock_subset (instructions : List (Instruction A))
    (hstate : ∀ read ∈ state.1, read ∈ readKeys)
    (hreads : ∀ inst ∈ instructions, ∀ read, readWorkingKey inst = some read → read ∈ readKeys) :
    ∀ read ∈ (transferBlock readKeys instructions state).1, read ∈ readKeys := by
  induction instructions with
  | nil => exact hstate
  | cons inst instructions ih =>
    intro read hread
    rcases mem_transferInstruction.mp hread with hread | hread
    · exact hreads inst List.mem_cons_self read hread
    · exact ih (fun i hi => hreads i (List.mem_cons_of_mem _ hi)) read hread.1

end Transfer

/-! ## The equations -/

section Equations
variable {eu : RegionedUnit A} {b : BlockId} {block : BasicBlock (RegionedAbsoluteAddr A)}
  {values values' : BlockId → LiveBits A × Bool} {read : WorkingKey A}

omit [DecidableEq A] in
theorem mem_sortedBlockIds : b ∈ sortedBlockIds eu ↔ b ∈ eu.blocks := by
  unfold sortedBlockIds
  rw [List.mem_insertionSort]
  exact Iff.rfl

omit [DecidableEq A] in
theorem nodup_sortedBlockIds : (sortedBlockIds eu).Nodup :=
  (List.perm_insertionSort _ _).nodup_iff.mpr eu.blocks.nodupKeys

theorem mem_collectReadKeys (hb : eu.blocks.lookup b = some block) {inst : Instruction A}
    (hinst : inst ∈ block.instructions) (hread : readWorkingKey inst = some read) :
    read ∈ collectReadKeys eu := by
  unfold collectReadKeys unitInstructions
  rw [List.mem_dedup, List.mem_filterMap]
  exact ⟨inst, List.mem_flatMap.mpr ⟨⟨b, block⟩, AList.mem_lookup_iff.mp hb, hinst⟩, hread⟩

section Out

private theorem out_fold (targets : List BlockId) (out : LiveBits A × Bool) :
    (∀ read, read ∈ (targets.foldl (fun out target =>
      (out.1 ∪ (values target).1, out.2 || (values target).2)) out).1 ↔
        read ∈ out.1 ∨ ∃ target ∈ targets, read ∈ (values target).1) ∧
    ((targets.foldl (fun out target =>
      (out.1 ∪ (values target).1, out.2 || (values target).2)) out).2 = true ↔
        out.2 = true ∨ ∃ target ∈ targets, (values target).2 = true) := by
  induction targets generalizing out with
  | nil => simp
  | cons target targets ih =>
    obtain ⟨hlive, hunknown⟩ := ih (out.1 ∪ (values target).1, out.2 || (values target).2)
    rw [List.foldl_cons]
    constructor
    · intro read
      rw [hlive, Finset.mem_union, List.exists_mem_cons_iff, or_assoc]
    · rw [hunknown, Bool.or_eq_true, List.exists_mem_cons_iff, or_assoc]

theorem mem_liveOut : read ∈ (liveOut eu values b).1 ↔
    ∃ target ∈ successorBlocks eu b, target ∈ eu.blocks ∧ read ∈ (values target).1 := by
  unfold liveOut
  rw [(out_fold _ _).1]
  simp [and_assoc]

theorem liveOut_snd : (liveOut eu values b).2 = true ↔
    ∃ target ∈ successorBlocks eu b, target ∈ eu.blocks ∧ (values target).2 = true := by
  unfold liveOut
  rw [(out_fold _ _).2]
  simp [and_assoc]

theorem liveOut_mono (h : ∀ target, values target ≤ values' target) :
    liveOut eu values b ≤ liveOut eu values' b := by
  rw [Prod.le_def]
  constructor
  · intro read hread
    rw [mem_liveOut] at hread ⊢
    obtain ⟨target, ht, hmem, hread⟩ := hread
    exact ⟨target, ht, hmem, (Prod.le_def.mp (h target)).1 hread⟩
  · rw [Bool.le_iff_imp, liveOut_snd, liveOut_snd]
    rintro ⟨target, ht, hmem, htrue⟩
    exact ⟨target, ht, hmem, Bool.le_iff_imp.mp (Prod.le_def.mp (h target)).2 htrue⟩

theorem liveOut_congr (h : ∀ target ∈ successorBlocks eu b, values target = values' target) :
    liveOut eu values b = liveOut eu values' b := by
  refine Prod.ext (Finset.ext fun read => ?_) (Bool.eq_iff_iff.mpr ?_)
  · rw [mem_liveOut, mem_liveOut]
    exact exists_congr fun target => and_congr_right fun ht => by rw [h target ht]
  · rw [liveOut_snd, liveOut_snd]
    exact exists_congr fun target => and_congr_right fun ht => by rw [h target ht]

end Out

/-- What is live before an instruction, or behind the last one. -/
def stateAt (eu : RegionedUnit A) (values : BlockId → LiveBits A × Bool) (b : BlockId)
    (block : BasicBlock (RegionedAbsoluteAddr A)) (i : Nat) : LiveBits A × Bool :=
  transferBlock (collectReadKeys eu) (block.instructions.drop i) (liveOut eu values b)

theorem stateAt_instruction {i : Nat} {inst : Instruction A}
    (hi : block.instructions[i]? = some inst) : stateAt eu values b block i =
      transferInstruction (collectReadKeys eu) inst (stateAt eu values b block (i + 1)) := by
  unfold stateAt
  obtain ⟨hlt, rfl⟩ := List.getElem?_eq_some_iff.mp hi
  rw [List.drop_eq_getElem_cons hlt]
  rfl

theorem stateAt_length :
    stateAt eu values b block block.instructions.length = liveOut eu values b := by
  unfold stateAt
  rw [List.drop_length]
  rfl

theorem liveStep_eq (hb : eu.blocks.lookup b = some block) :
    liveStep eu (collectReadKeys eu) values b = stateAt eu values b block 0 := by
  unfold liveStep stateAt
  rw [hb, List.drop_zero]

theorem liveStep_mono (h : ∀ target, values target ≤ values' target) (b : BlockId) :
    liveStep eu (collectReadKeys eu) values b ≤ liveStep eu (collectReadKeys eu) values' b := by
  unfold liveStep
  split
  · exact transferBlock_mono _ (liveOut_mono h)
  · exact h b

/-! ## The solution -/

/-- What every round keeps: values only grow, and hold nothing but reads. -/
structure Growing (eu : RegionedUnit A) (values : BlockId → LiveBits A × Bool) : Prop where
  grows : ∀ b, values b ≤ liveStep eu (collectReadKeys eu) values b
  reads : ∀ b, ∀ read ∈ (values b).1, read ∈ collectReadKeys eu

theorem liveStep_reads (h : ∀ b, ∀ read ∈ (values b).1, read ∈ collectReadKeys eu) (b : BlockId) :
    ∀ read ∈ (liveStep eu (collectReadKeys eu) values b).1, read ∈ collectReadKeys eu := by
  unfold liveStep
  split
  · rename_i block hb
    refine transferBlock_subset _ (fun read hread => ?_) fun inst hinst read hread =>
      mem_collectReadKeys hb hinst hread
    obtain ⟨target, -, -, hread⟩ := mem_liveOut.mp hread
    exact h target read hread
  · exact h b

theorem Growing.update (h : Growing eu values) (node : BlockId) :
    Growing eu (Function.update values node (liveStep eu (collectReadKeys eu) values node)) := by
  have hle : ∀ b, values b ≤
      Function.update values node (liveStep eu (collectReadKeys eu) values node) b := by
    intro b
    by_cases hb : b = node
    · subst hb
      rw [Function.update_self]
      exact h.grows b
    · rw [Function.update_of_ne hb]
  constructor
  · intro b
    by_cases hb : b = node
    · subst hb
      rw [Function.update_self]
      exact liveStep_mono hle b
    · rw [Function.update_of_ne hb]
      exact (h.grows b).trans (liveStep_mono hle b)
  · intro b
    by_cases hb : b = node
    · subst hb
      rw [Function.update_self]
      exact liveStep_reads h.reads b
    · rw [Function.update_of_ne hb]
      exact h.reads b

/-- How much is live. -/
def liveRank (state : LiveBits A × Bool) : Nat := state.1.card + state.2.toNat

omit [DecidableEq A] in
theorem liveRank_lt {state state' : LiveBits A × Bool} (h : state < state') :
    liveRank state < liveRank state' := by
  unfold liveRank
  have hle := Prod.le_def.mp h.le
  have hbool : state.2.toNat ≤ state'.2.toNat := Bool.toNat_le_toNat hle.2
  rcases Prod.lt_iff.mp h with ⟨hlt, -⟩ | ⟨-, hlt⟩
  · have := Finset.card_lt_card hlt
    omega
  · have hcard := Finset.card_le_card hle.1
    obtain ⟨hf, ht⟩ := Bool.lt_iff.mp hlt
    rw [hf, ht]
    simp only [Bool.toNat_false, Bool.toNat_true]
    omega

theorem liveRank_le {state : LiveBits A × Bool}
    (h : ∀ read ∈ state.1, read ∈ collectReadKeys eu) :
    liveRank state ≤ (collectReadKeys eu).length + 1 := by
  have hcard : state.1.card ≤ (collectReadKeys eu).toFinset.card :=
    Finset.card_le_card fun read hread => List.mem_toFinset.mpr (h read hread)
  have hlen := (collectReadKeys eu).toFinset_card_le
  have hbool := state.2.toNat_le
  unfold liveRank
  omega

omit [DecidableEq A] in
theorem mem_predecessorBlocks {p : BlockId} :
    p ∈ predecessorBlocks eu b ↔ p ∈ sortedBlockIds eu ∧ b ∈ successorBlocks eu p := by
  unfold predecessorBlocks
  rw [List.mem_flatMap]
  constructor
  · rintro ⟨q, hq, hp⟩
    obtain ⟨target, ht, rfl⟩ := List.mem_map.mp hp
    rw [List.mem_filter, decide_eq_true_eq] at ht
    exact ⟨hq, ht.2 ▸ ht.1⟩
  · rintro ⟨hp, hb⟩
    exact ⟨p, hp, List.mem_map.mpr ⟨b, List.mem_filter.mpr ⟨hb, by simp⟩, rfl⟩⟩

theorem growing_start : Growing eu fun _ => (∅, false) where
  grows := fun _ => Prod.le_def.mpr ⟨Finset.empty_subset _, Bool.false_le _⟩
  reads := fun _ _ h => by simp at h

/-- All equations hold of what the pass ends with. -/
theorem liveIn_solves (hb : b ∈ eu.blocks) :
    liveStep eu (collectReadKeys eu) (liveIn eu) b = liveIn eu b := by
  refine worklist_solves (sortedBlockIds eu) liveRank ((collectReadKeys eu).length + 1)
    (P := Growing eu) (fun values node h => h.update node)
    (fun values node h _ hne => liveRank_lt (lt_of_le_of_ne (h.grows node) hne.symm))
    (fun values node h _ => liveRank_le (liveStep_reads h.reads node)) ?_
    (fun node _ other hother => (mem_predecessorBlocks.mp hother).1) growing_start
    (List.nodup_reverse.mpr nodup_sortedBlockIds) (fun node hnode => List.mem_reverse.mp hnode)
    (fun node hnode hout => absurd (List.mem_reverse.mpr hnode) hout) ?_ b
    (mem_sortedBlockIds.mpr hb)
  · intro values node next other hother hout
    obtain ⟨block, hblock⟩ := Option.isSome_iff_exists.mp
      (AList.lookup_isSome.mpr (mem_sortedBlockIds.mp hother))
    unfold liveStep
    rw [hblock]
    simp only
    have hne : ∀ target ∈ successorBlocks eu other, target ≠ node := fun target ht heq =>
      hout (mem_predecessorBlocks.mpr ⟨hother, heq ▸ ht⟩)
    rw [liveOut_congr fun target ht => Function.update_of_ne (hne target ht) next values]
  · unfold distance
    rw [List.length_reverse]
    simp [liveRank, Nat.mul_comm]

/-- What is marked live is ahead on some path. -/
structure Ahead (eu : RegionedUnit A) (state : LiveBits A × Bool) (b : BlockId) (i : Nat) :
    Prop where
  dynamic : state.2 = true → DynamicAhead eu b i
  reads : ∀ read ∈ state.1, DynamicAhead eu b i ∨ ReadAhead eu read b i

theorem Ahead.instruction {state : LiveBits A × Bool} {i : Nat} {inst : Instruction A}
    (hb : eu.blocks.lookup b = some block) (hi : block.instructions[i]? = some inst)
    (hstate : ∀ read ∈ state.1, read ∈ collectReadKeys eu) (h : Ahead eu state b (i + 1)) :
    Ahead eu (transferInstruction (collectReadKeys eu) inst state) b i := by
  have hdynamic : isDynamicWorkingRead inst = true ∨ DynamicAhead eu b (i + 1) →
      DynamicAhead eu b i := fun h =>
    (ExecutionUnit.Meets.at_instruction hb hi).mpr (h.imp_right fun h => ⟨fun hf => hf, h⟩)
  constructor
  · intro htrue
    rw [transferInstruction_snd, Bool.or_eq_true] at htrue
    exact hdynamic (htrue.imp_right h.dynamic)
  · intro read hread
    rcases mem_transferInstruction.mp hread with hread | ⟨hread, hnot⟩
    · exact .inr ((ExecutionUnit.Meets.at_instruction hb hi).mpr (.inl hread))
    · rcases h.reads read hread with hd | hr
      · exact .inl (hdynamic (.inr hd))
      · cases hunknown : state.2 with
        | true => exact .inl (hdynamic (.inr (h.dynamic hunknown)))
        | false =>
          refine .inr ((ExecutionUnit.Meets.at_instruction hb hi).mpr (.inr ⟨fun hkill => ?_, hr⟩))
          exact hnot ⟨hunknown, hstate read hread, hkill⟩

theorem stateAt_reads (h : ∀ b, ∀ read ∈ (values b).1, read ∈ collectReadKeys eu)
    (hb : eu.blocks.lookup b = some block) (i : Nat) :
    ∀ read ∈ (stateAt eu values b block i).1, read ∈ collectReadKeys eu := by
  refine transferBlock_subset _ (fun read hread => ?_) fun inst hinst read hread =>
    mem_collectReadKeys hb (List.mem_of_mem_drop hinst) hread
  obtain ⟨target, -, -, hread⟩ := mem_liveOut.mp hread
  exact h target read hread

theorem ahead_stateAt (hreads : ∀ b, ∀ read ∈ (values b).1, read ∈ collectReadKeys eu)
    (h : ∀ b, Ahead eu (values b) b 0) (hb : eu.blocks.lookup b = some block) {i : Nat}
    (hi : i ≤ block.instructions.length) : Ahead eu (stateAt eu values b block i) b i := by
  induction hi using Nat.decreasingInduction with
  | self =>
    have hsucc : successorBlocks eu b = block.terminator.successorIds := by
      simp [successorBlocks, hb]
    rw [stateAt_length]
    constructor
    · intro htrue
      obtain ⟨target, ht, -, htrue⟩ := liveOut_snd.mp htrue
      exact (ExecutionUnit.Meets.at_terminator hb).mpr
        ⟨target, hsucc ▸ ht, (h target).dynamic htrue⟩
    · intro read hread
      obtain ⟨target, ht, -, hread⟩ := mem_liveOut.mp hread
      rw [hsucc] at ht
      exact ((h target).reads read hread).imp
        (fun h => (ExecutionUnit.Meets.at_terminator hb).mpr ⟨target, ht, h⟩)
        (fun h => (ExecutionUnit.Meets.at_terminator hb).mpr ⟨target, ht, h⟩)
  | of_succ i hi ih =>
    have hget : block.instructions[i]? = some block.instructions[i] := List.getElem?_eq_getElem hi
    rw [stateAt_instruction hget]
    exact Ahead.instruction hb hget (stateAt_reads hreads hb (i + 1)) ih

theorem liveIn_reads : ∀ b, ∀ read ∈ (liveIn eu b).1, read ∈ collectReadKeys eu :=
  (worklist_invariant (P := Growing eu) (fun _ node h => h.update node) growing_start _ _).reads

theorem ahead_liveIn (b : BlockId) : Ahead eu (liveIn eu b) b 0 := by
  refine (worklist_invariant (P := fun values => Growing eu values ∧
    ∀ b, Ahead eu (values b) b 0) ?_ ⟨growing_start, fun b => ⟨nofun, fun _ h =>
      absurd h (Finset.notMem_empty _)⟩⟩ _ _).2 b
  rintro values node ⟨hgrow, h⟩
  refine ⟨hgrow.update node, fun b => ?_⟩
  by_cases hb : b = node
  · subst hb
    rw [Function.update_self]
    cases hblock : eu.blocks.lookup b with
    | none =>
      unfold liveStep
      rw [hblock]
      exact h b
    | some block =>
      rw [liveStep_eq hblock]
      exact ahead_stateAt hgrow.reads h hblock (Nat.zero_le _)
  · rw [Function.update_of_ne hb]
    exact h b

/-! ## Exactness -/

theorem dynamic_of_ahead {i : Nat} (h : DynamicAhead eu b i)
    (hb : eu.blocks.lookup b = some block) : (stateAt eu (liveIn eu) b block i).2 = true := by
  induction h generalizing block with
  | here hb' hi hg =>
    obtain rfl := Option.some.inj (hb.symm.trans hb')
    rw [stateAt_instruction hi, transferInstruction_snd, hg, Bool.true_or]
  | pass hb' hi _ _ ih =>
    obtain rfl := Option.some.inj (hb.symm.trans hb')
    rw [stateAt_instruction hi, transferInstruction_snd, ih hb, Bool.or_true]
  | @edge b target block' hb' ht h ih =>
    obtain rfl := Option.some.inj (hb.symm.trans hb')
    obtain ⟨next, hnext, -⟩ := h.lookup
    have hmem : target ∈ eu.blocks := AList.lookup_isSome.mp (by rw [hnext]; rfl)
    have hvalue := ih hnext
    rw [← liveStep_eq hnext, liveIn_solves hmem] at hvalue
    rw [stateAt_length, liveOut_snd]
    exact ⟨target, by simpa [successorBlocks, hb] using ht, hmem, hvalue⟩

theorem mem_of_ahead {i : Nat} (h : ReadAhead eu read b i)
    (hb : eu.blocks.lookup b = some block) : read ∈ (stateAt eu (liveIn eu) b block i).1 := by
  induction h generalizing block with
  | here hb' hi hg =>
    obtain rfl := Option.some.inj (hb.symm.trans hb')
    rw [stateAt_instruction hi, mem_transferInstruction]
    exact .inl hg
  | pass hb' hi hs _ ih =>
    obtain rfl := Option.some.inj (hb.symm.trans hb')
    rw [stateAt_instruction hi, mem_transferInstruction]
    exact .inr ⟨ih hb, fun hkill => hs hkill.2.2⟩
  | @edge b target block' hb' ht h ih =>
    obtain rfl := Option.some.inj (hb.symm.trans hb')
    obtain ⟨next, hnext, -⟩ := h.lookup
    have hmem : target ∈ eu.blocks := AList.lookup_isSome.mp (by rw [hnext]; rfl)
    have hvalue := ih hnext
    rw [← liveStep_eq hnext, liveIn_solves hmem] at hvalue
    rw [stateAt_length, mem_liveOut]
    exact ⟨target, by simpa [successorBlocks, hb] using ht, hmem, hvalue⟩

/-- Something the store writes may be read later, as far as the pass knows. -/
def TrackedAhead (eu : RegionedUnit A) (key : WorkingKey A) (b : BlockId) (i : Nat) : Prop :=
  DynamicAhead eu b i ∨ ∃ read, key.overlaps read = true ∧ ReadAhead eu read b i

/-- The instruction at a position of a block is removed. -/
def RemovedAt (eu : RegionedUnit A) (b : BlockId) (i : Nat) (inst : Instruction A) : Prop :=
  ∃ block, eu.blocks.lookup b = some block ∧ block.instructions[i]? = some inst ∧
    keeps (collectReadKeys eu) inst (stateAt eu (liveIn eu) b block (i + 1)) = false

theorem removedAt_iff {i : Nat} {inst : Instruction A} : RemovedAt eu b i inst ↔
    ∃ block key, eu.blocks.lookup b = some block ∧ block.instructions[i]? = some inst ∧
      plainStoreKey inst = some key ∧ ¬ TrackedAhead eu key b (i + 1) := by
  constructor
  · rintro ⟨block, hb, hi, hkeep⟩
    obtain ⟨key, hkey, hunknown, hlive⟩ := keeps_eq_false.mp hkeep
    refine ⟨block, key, hb, hi, hkey, ?_⟩
    rintro (hd | ⟨read, hover, hr⟩)
    · rw [dynamic_of_ahead hd hb] at hunknown
      cases hunknown
    · have hread := mem_of_ahead hr hb
      exact hlive read (stateAt_reads liveIn_reads hb _ read hread) hover hread
  · rintro ⟨block, key, hb, hi, hkey, hnot⟩
    refine ⟨block, hb, hi, keeps_eq_false.mpr ⟨key, hkey, ?_, fun read _ hover hread => hnot ?_⟩⟩
    all_goals
      have hahead := ahead_stateAt liveIn_reads ahead_liveIn hb
        (Nat.succ_le_of_lt (List.getElem?_eq_some_iff.mp hi).1)
    · rw [← Bool.not_eq_true]
      exact fun htrue => hnot (.inl (hahead.dynamic htrue))
    · exact (hahead.reads read hread).imp_right fun hr => ⟨read, hover, hr⟩

end Equations
end Celox.Opt

/-! ## When removed working stores are dead

A read of packed elements is tracked neither as a static nor as a dynamic one, and triggers are not
looked at. Where no store that is removed meets such a read, or has a trigger, nothing that is left
can tell the difference. -/
namespace Celox.Opt
open Celox.Sir Celox.Layout Relation

variable {A : Type} [DecidableEq A]

def working (addr : A) : RegionedAbsoluteAddr A := ⟨WORKING_REGION, addr⟩

def triggersOf {B : Type} : SIRInstruction B → List TriggerIdWithKind
  | .store _ _ _ _ triggers _ | .commit _ _ _ _ triggers => triggers
  | _ => []

/-- A read of a bit that the pass does not see, or whose end it does not see. -/
def untrackedRead (inst : Instruction A) (a : RegionedAbsoluteAddr A) (bit : Nat) : Prop :=
  inst.mayRead a bit ∧ isDynamicWorkingRead inst = false ∧
    ∀ key, readWorkingKey inst = some key → usizeMax < key.offset + key.bits

/-- All effects but those of working stores without triggers. -/
def leavesTrace : Effect (RegionedAbsoluteAddr A) → Bool
  | .store addr _ _ _ triggers _ | .trigger addr triggers _ | .commit _ addr _ _ triggers =>
    addr.region ≠ WORKING_REGION ∨ triggers ≠ []
  | _ => true

/-- Every run goes on without the removed stores: each instruction that is left gives what it gave,
and outside of the working region all bits are the same. -/
def SameOnEveryRun (eu : RegionedUnit A) : Prop :=
  ∀ (model : BitModel (RegionedAbsoluteAddr A)) (memory : BitMemory (RegionedAbsoluteAddr A))
    (c : Config (RegionedAbsoluteAddr A) (BitMemory (RegionedAbsoluteAddr A))),
    ReflTransGen (eu.Goes model.machine) (eu.start memory []) c →
    (∀ s, eu.step model.machine c ≠ .done .stuck s) →
    ∃ c', ReflTransGen ((eliminateDeadWorkingStores eu).Goes model.machine)
        ((eliminateDeadWorkingStores eu).start memory []) c' ∧ c'.block = c.block ∧
      (∀ inst, eu.instructionAt c = some inst → ¬ RemovedAt eu c.block c.index inst →
        (eliminateDeadWorkingStores eu).instructionAt c' = some inst ∧
        eu.value model.machine c'.state.regs c'.state.memory inst =
          eu.value model.machine c.state.regs c.state.memory inst) ∧
      (∀ a bit, a.region ≠ WORKING_REGION → c'.state.memory a bit = c.state.memory a bit) ∧
      c'.state.trace.filter leavesTrace = c.state.trace.filter leavesTrace ∧
      ∀ outcome s, eu.step model.machine c = .done outcome s → ∃ s',
        (eliminateDeadWorkingStores eu).step model.machine c' = .done outcome s' ∧
        (∀ a bit, a.region ≠ WORKING_REGION → s'.memory a bit = s.memory a bit) ∧
        s'.trace.filter leavesTrace = s.trace.filter leavesTrace

/-- No bit of a removed store is read before it is written again, by an access of any form, and no
trigger goes with it. -/
structure RemovesOnlyDead (eu : RegionedUnit A) : Prop where
  unread : ∀ b i inst, RemovedAt eu b i inst → ∀ a bit, inst.mustWrite a bit →
    ¬ eu.BitAhead a bit b (i + 1)
  triggers : ∀ b i inst, RemovedAt eu b i inst → triggersOf inst = []
  runs : SameOnEveryRun eu

/-- A static working store without a tracked read ahead has no trigger, and no bit that an untracked
read meets first. -/
def NoUntrackedUse (eu : RegionedUnit A) : Prop :=
  ∀ b block (i : Nat) inst key, eu.blocks.lookup b = some block →
    block.instructions[i]? = some inst → plainStoreKey inst = some key →
    ¬ TrackedAhead eu key b (i + 1) → triggersOf inst = [] ∧
      ∀ bit, key.offset ≤ bit → bit < key.offset + key.bits →
        ¬ eu.Meets (fun inst => inst.mustWrite (working key.addr) bit)
          (fun inst => untrackedRead inst (working key.addr) bit) b (i + 1)

/-! ## Keys and bits -/

section Keys
variable {inst : Instruction A} {key read : WorkingKey A} {addr : A} {bit : Nat}

omit [DecidableEq A] in
theorem eq_working {a : RegionedAbsoluteAddr A} (h : a.region = WORKING_REGION) :
    a = working a.absoluteAddr := by
  cases a
  cases h
  rfl

omit [DecidableEq A] in
/-- A store or a commit at a static offset of the working region. -/
theorem plainStore_cases (hkey : plainStoreKey inst = some key) :
    (∃ src triggers sites, inst =
      .store (working key.addr) (.static key.offset) key.bits src triggers sites) ∨
    ∃ src triggers, inst =
      .commit src (working key.addr) (.static key.offset) key.bits triggers := by
  obtain ⟨-, -, h⟩ := plainStoreKey_eq_some.mp hkey
  clear hkey
  unfold workingStoreKey at h
  split at h
  · rename_i a offset bits src triggers sites
    split at h
    · rename_i hregion
      cases h
      exact .inl ⟨src, triggers, sites,
        congrArg (SIRInstruction.store · (.static offset) bits src triggers sites)
          (eq_working hregion)⟩
    · cases h
  · rename_i src a offset bits triggers
    split at h
    · rename_i hregion
      cases h
      exact .inr ⟨src, triggers,
        congrArg (SIRInstruction.commit src · (.static offset) bits triggers)
          (eq_working hregion)⟩
    · cases h
  · cases h

omit [DecidableEq A] in
theorem plainStore_writes (h : plainStoreKey inst = some key) {a : RegionedAbsoluteAddr A} :
    (inst.mustWrite a bit ↔ a = working key.addr ∧ key.offset ≤ bit ∧ bit < key.offset + key.bits) ∧
    (inst.mayWrite a bit ↔ inst.mustWrite a bit) := by
  rcases plainStore_cases h with ⟨src, triggers, sites, rfl⟩ | ⟨src, triggers, rfl⟩
  · exact ⟨and_congr_left fun _ => eq_comm, Iff.rfl⟩
  · exact ⟨and_congr_left fun _ => eq_comm, Iff.rfl⟩

omit [DecidableEq A] in
theorem read_bits (h : readWorkingKey inst = some read) (hread : inst.mayRead (working addr) bit) :
    read.addr = addr ∧ read.offset ≤ bit ∧ bit < read.offset + read.bits := by
  unfold readWorkingKey at h
  split at h
  · split at h
    · cases h
      exact ⟨congrArg RegionedAbsoluteAddr.absoluteAddr hread.1, hread.2⟩
    · cases h
  · split at h
    · cases h
      exact ⟨congrArg RegionedAbsoluteAddr.absoluteAddr hread.1, hread.2⟩
    · cases h
  · cases h

/-- What the pass tracks covers all reads but the untracked ones. -/
theorem trackedAhead_of_bit {eu : RegionedUnit A} {b : BlockId} {i : Nat}
    (hle : key.offset ≤ bit) (hlt : bit < key.offset + key.bits)
    (h : eu.Meets (fun inst => inst.mustWrite (working key.addr) bit) (fun inst =>
      inst.mayRead (working key.addr) bit ∧ ¬ untrackedRead inst (working key.addr) bit) b i) :
    TrackedAhead eu key b i := by
  have hforms : ∀ inst : Instruction A, inst.mayRead (working key.addr) bit ∧
      ¬ untrackedRead inst (working key.addr) bit → isDynamicWorkingRead inst = true ∨
      ∃ read, readWorkingKey inst = some read ∧ read.offset + read.bits ≤ usizeMax ∧
        inst.mayRead (working key.addr) bit := by
    rintro inst ⟨hread, htracked⟩
    cases hdynamic : isDynamicWorkingRead inst with
    | true => exact .inl rfl
    | false =>
      by_contra hnot
      refine htracked ⟨hread, hdynamic, fun read hkey => ?_⟩
      by_contra hend
      exact hnot (.inr ⟨read, hkey, by omega, hread⟩)
  rcases (h.mono (fun _ h => h) hforms).or_goal with h | h
  · exact .inl (h.mono (fun _ hf => hf.elim) fun _ h => h)
  · obtain ⟨read, h⟩ := h.exists_goal
    obtain ⟨_, hkey, hend, hread⟩ := h.goal_some
    obtain ⟨haddr, hrle, hrlt⟩ := read_bits hkey hread
    have hreadEnd : read.endBit = read.offset + read.bits := Nat.min_eq_left hend
    refine .inr ⟨read, ?_, h.mono ?_ fun _ h => h.1⟩
    · have hkeyEnd : bit < key.endBit := lt_min hlt (by omega)
      simp only [WorkingKey.overlaps, decide_eq_true_eq, hreadEnd]
      exact ⟨haddr.symm, by omega, by omega⟩
    · rintro inst ⟨store, hstore, hcovers⟩
      simp only [WorkingKey.covers, decide_eq_true_eq, hreadEnd] at hcovers
      obtain ⟨hsame, hsle, hsend⟩ := hcovers
      have hstoreEnd : store.endBit ≤ store.offset + store.bits := Nat.min_le_left _ _
      rw [(plainStore_writes hstore).1, hsame, haddr]
      exact ⟨rfl, by omega, by omega⟩

end Keys

/-! ## The pass as a pruning -/

section Pruned
variable {eu : RegionedUnit A}

def removed (eu : RegionedUnit A) (b : BlockId) (i : Nat) : Bool :=
  match eu.blocks.lookup b with
  | some block =>
    match block.instructions[i]? with
    | some inst => !keeps (collectReadKeys eu) inst (stateAt eu (liveIn eu) b block (i + 1))
    | none => false
  | none => false

theorem removed_iff {b : BlockId} {block : BasicBlock (RegionedAbsoluteAddr A)} {i : Nat}
    {inst : Instruction A} (hb : eu.blocks.lookup b = some block)
    (hi : block.instructions[i]? = some inst) : removed eu b i = true ↔ RemovedAt eu b i inst := by
  have hremoved : removed eu b i =
      !keeps (collectReadKeys eu) inst (stateAt eu (liveIn eu) b block (i + 1)) := by
    simp only [removed, hb, hi]
  rw [hremoved, Bool.not_eq_true']
  constructor
  · exact fun h => ⟨block, hb, hi, h⟩
  · rintro ⟨block', hb', hi', h⟩
    obtain rfl := Option.some.inj (hb.symm.trans hb')
    exact h

theorem retain_eq_keepFrom {b : BlockId} {block : BasicBlock (RegionedAbsoluteAddr A)}
    (hb : eu.blocks.lookup b = some block) {i : Nat} (hi : i ≤ block.instructions.length) :
    retain (collectReadKeys eu) (liveOut eu (liveIn eu) b) (block.instructions.drop i) =
      keepFrom (removed eu b) i (block.instructions.drop i) := by
  induction hi using Nat.decreasingInduction with
  | self =>
    rw [keepFrom_length, List.drop_length]
    rfl
  | of_succ i hi ih =>
    have hget : block.instructions[i]? = some block.instructions[i] := List.getElem?_eq_getElem hi
    have hremoved : removed eu b i = !keeps (collectReadKeys eu) block.instructions[i]
        (stateAt eu (liveIn eu) b block (i + 1)) := by
      simp only [removed, hb, hget]
    rw [keepFrom_drop hget, ← ih, List.drop_eq_getElem_cons hi, retain]
    cases hkeep : keeps (collectReadKeys eu) block.instructions[i]
        (stateAt eu (liveIn eu) b block (i + 1)) with
    | true =>
      rw [hremoved, hkeep]
      exact if_pos hkeep
    | false =>
      rw [hremoved, hkeep]
      exact if_neg fun htrue => Bool.false_ne_true (hkeep.symm.trans htrue)

theorem eliminate_eq_prune : eliminateDeadWorkingStores eu = eu.prune (removed eu) := by
  unfold eliminateDeadWorkingStores ExecutionUnit.prune
  split
  · rename_i hnone
    refine (ExecutionUnit.mapBlocks_self eu).symm.trans (ExecutionUnit.mapBlocks_congr ?_)
    intro b block hb
    have hkeep : ∀ i ≤ block.instructions.length,
        keepFrom (removed eu b) i (block.instructions.drop i) = block.instructions.drop i := by
      intro i hi
      induction hi using Nat.decreasingInduction with
      | self => rw [keepFrom_length, List.drop_length]
      | of_succ i hi ih =>
        have hget : block.instructions[i]? = some block.instructions[i] :=
          List.getElem?_eq_getElem hi
        have hstays : removed eu b i = false := by
          rw [← Bool.not_eq_true, removed_iff hb hget]
          intro hremoved
          obtain ⟨-, key, -, -, hkey, -⟩ := removedAt_iff.mp hremoved
          have hmem : key ∈ collectStoreKeys eu := by
            unfold collectStoreKeys unitInstructions
            rw [List.mem_dedup, List.mem_filterMap]
            exact ⟨_, List.mem_flatMap.mpr ⟨⟨b, block⟩, AList.mem_lookup_iff.mp hb,
              List.getElem_mem hi⟩, (plainStoreKey_eq_some.mp hkey).2.2⟩
          rw [hnone] at hmem
          cases hmem
        rw [keepFrom_drop hget, hstays, if_neg Bool.false_ne_true, ih,
          ← List.drop_eq_getElem_cons hi]
    have hzero := hkeep 0 (Nat.zero_le _)
    rw [List.drop_zero] at hzero
    rw [hzero]
  · refine ExecutionUnit.mapBlocks_congr fun b block hb => ?_
    have hzero := retain_eq_keepFrom hb (Nat.zero_le _)
    rw [List.drop_zero] at hzero
    rw [hzero]

theorem RemovedAt.droppable {b : BlockId} {i : Nat} {inst : Instruction A}
    (h : RemovedAt eu b i inst) (hunread : ∀ a bit, inst.mustWrite a bit →
      ¬ eu.BitAhead a bit b (i + 1)) (htriggers : triggersOf inst = []) :
    Droppable eu (fun a => a.region ≠ WORKING_REGION) leavesTrace b i inst := by
  obtain ⟨-, key, -, -, hkey, -⟩ := removedAt_iff.mp h
  constructor
  · rcases plainStore_cases hkey with ⟨src, triggers, sites, rfl⟩ | ⟨src, triggers, rfl⟩ <;> rfl
  · intro a bit hwrite
    rw [(plainStore_writes hkey).2] at hwrite
    refine ⟨fun hregion => hregion ?_, hunread a bit hwrite⟩
    rw [((plainStore_writes hkey).1.mp hwrite).1]
    rfl
  · intro regs effect heffect
    rcases plainStore_cases hkey with ⟨src, triggers, sites, rfl⟩ | ⟨src, triggers, rfl⟩
    · obtain rfl : triggers = [] := htriggers
      simp only [SIRInstruction.effect] at heffect
      split at heffect
      · cases heffect
        simp [leavesTrace, working]
      · simp only [Option.bind_eq_bind, Option.bind_eq_some_iff] at heffect
        obtain ⟨_, -, _, -, ⟨⟩⟩ := heffect
        simp [leavesTrace, working]
    · obtain rfl : triggers = [] := htriggers
      simp only [SIRInstruction.effect, Option.bind_eq_bind, Option.bind_eq_some_iff] at heffect
      obtain ⟨_, -, ⟨⟩⟩ := heffect
      simp [leavesTrace, working]

theorem sameOnEveryRun (hunread : ∀ b i inst, RemovedAt eu b i inst → ∀ a bit,
      inst.mustWrite a bit → ¬ eu.BitAhead a bit b (i + 1))
    (htriggers : ∀ b i inst, RemovedAt eu b i inst → triggersOf inst = []) :
    SameOnEveryRun eu := by
  intro model memory c hrun hstuck
  have hdrop : ∀ b block (i : Nat) inst, eu.blocks.lookup b = some block →
      block.instructions[i]? = some inst → removed eu b i = true →
      Droppable eu (fun a => a.region ≠ WORKING_REGION) leavesTrace b i inst := by
    intro b block i inst hb hi hremoved
    have hat := (removed_iff hb hi).mp hremoved
    exact hat.droppable (hunread b i inst hat) (htriggers b i inst hat)
  obtain ⟨c', hrun', halike, hend⟩ := prune_runs hdrop hrun hstuck
  rw [eliminate_eq_prune]
  refine ⟨c', hrun', halike.block, fun inst hinst hstays => ?_, halike.pinned, halike.trace,
    fun outcome s hdone => ?_⟩
  · refine halike.survives hinst ?_
    obtain ⟨block, hb, hi⟩ := Option.bind_eq_some_iff.mp hinst
    rw [← Bool.not_eq_true, removed_iff hb hi]
    exact hstays
  · obtain ⟨s', hdone', -, hpinned, htrace⟩ := hend outcome s hdone
    exact ⟨s', hdone', hpinned, htrace⟩

end Pruned

/-- What the pass removes is dead exactly where no untracked use is ahead. -/
theorem removesOnlyDead_iff (eu : RegionedUnit A) : RemovesOnlyDead eu ↔ NoUntrackedUse eu := by
  constructor
  · intro h b block i inst key hb hi hkey htracked
    have hremoved : RemovedAt eu b i inst :=
      removedAt_iff.mpr ⟨block, key, hb, hi, hkey, htracked⟩
    refine ⟨h.triggers b i inst hremoved, fun bit hle hlt hmeets => ?_⟩
    exact h.unread b i inst hremoved _ bit ((plainStore_writes hkey).1.mpr ⟨rfl, hle, hlt⟩)
      (hmeets.mono (fun _ h => h) fun _ h => h.1)
  · intro h
    have hunread : ∀ b i inst, RemovedAt eu b i inst → ∀ a bit, inst.mustWrite a bit →
        ¬ eu.BitAhead a bit b (i + 1) := by
      intro b i inst hremoved a bit hwrite hahead
      obtain ⟨block, key, hb, hi, hkey, htracked⟩ := removedAt_iff.mp hremoved
      obtain ⟨rfl, hle, hlt⟩ := (plainStore_writes hkey).1.mp hwrite
      have hsplit : eu.Meets (fun inst => inst.mustWrite (working key.addr) bit)
          (fun inst => untrackedRead inst (working key.addr) bit ∨
            inst.mayRead (working key.addr) bit ∧ ¬ untrackedRead inst (working key.addr) bit)
          b (i + 1) := by
        refine hahead.mono (fun _ h => h) fun inst hread => ?_
        by_cases huntracked : untrackedRead inst (working key.addr) bit
        · exact .inl huntracked
        · exact .inr ⟨hread, huntracked⟩
      rcases hsplit.or_goal with huntracked | hseen
      · exact (h b block i inst key hb hi hkey htracked).2 bit hle hlt huntracked
      · exact htracked (trackedAhead_of_bit hle hlt hseen)
    have htriggers : ∀ b i inst, RemovedAt eu b i inst → triggersOf inst = [] := by
      intro b i inst hremoved
      obtain ⟨block, key, hb, hi, hkey, htracked⟩ := removedAt_iff.mp hremoved
      exact (h b block i inst key hb hi hkey htracked).1
    exact ⟨hunread, htriggers, sameOnEveryRun hunread htriggers⟩

/-- A byte is staged and published as packed elements. -/
def packedPublish : RegionedUnit Unit where
  entryBlockId := 0
  blocks := [⟨0, {
    id := 0
    params := []
    instructions := [
      .imm 0 ⟨255, 0⟩,
      .store (working ()) (.static 0) 8 0 [] [],
      .commit (working ()) ⟨STABLE_REGION, ()⟩ (.packedElements 0 8) 8 []]
    terminator := .ret }⟩].toAList
  registerMap := [⟨0, .bit 8 false⟩].toAList

/-- The staged byte is removed, and what was there before is published. -/
theorem packedPublish_unstaged : ¬ RemovesOnlyDead packedPublish := by
  intro h
  have hremoved : RemovedAt packedPublish 0 1 (.store (working ()) (.static 0) 8 0 [] []) :=
    ⟨_, rfl, rfl, by decide⟩
  refine h.unread 0 1 _ hremoved (working ()) 0 ⟨rfl, by decide, by decide⟩ ?_
  exact .here rfl rfl ⟨rfl, by decide, by decide⟩

end Celox.Opt
