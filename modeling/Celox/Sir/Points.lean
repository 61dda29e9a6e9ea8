import Celox.Sir.Syntax

/-! # Points of an execution unit

A point is an instruction of a block, or behind the last one the terminator. Paths lead from point
to point; what they meet first decides what a store is good for. -/
namespace Celox.Sir

variable {A : Type} {eu : ExecutionUnit A}

/-- Some path from the point meets `goal`, and no `stop` before it. -/
inductive ExecutionUnit.Meets (eu : ExecutionUnit A) (stop goal : SIRInstruction A → Prop) :
    BlockId → Nat → Prop
  | here {b : BlockId} {block : BasicBlock A} {i : Nat} {inst : SIRInstruction A} :
    eu.blocks.lookup b = some block → block.instructions[i]? = some inst → goal inst →
      Meets eu stop goal b i
  | pass {b : BlockId} {block : BasicBlock A} {i : Nat} {inst : SIRInstruction A} :
    eu.blocks.lookup b = some block → block.instructions[i]? = some inst → ¬ stop inst →
      Meets eu stop goal b (i + 1) → Meets eu stop goal b i
  | edge {b target : BlockId} {block : BasicBlock A} :
    eu.blocks.lookup b = some block → target ∈ block.terminator.successorIds →
      Meets eu stop goal target 0 → Meets eu stop goal b block.instructions.length

namespace ExecutionUnit.Meets
variable {stop stop' goal goal' : SIRInstruction A → Prop} {b : BlockId} {block : BasicBlock A}
  {i : Nat} {inst : SIRInstruction A}

theorem mono (hstop : ∀ inst, stop' inst → stop inst) (hgoal : ∀ inst, goal inst → goal' inst)
    (h : eu.Meets stop goal b i) : eu.Meets stop' goal' b i := by
  induction h with
  | here hb hi hg => exact .here hb hi (hgoal _ hg)
  | pass hb hi hs _ ih => exact .pass hb hi (fun h => hs (hstop _ h)) ih
  | edge hb ht _ ih => exact .edge hb ht ih

theorem at_instruction (hb : eu.blocks.lookup b = some block)
    (hi : block.instructions[i]? = some inst) :
    eu.Meets stop goal b i ↔ goal inst ∨ ¬ stop inst ∧ eu.Meets stop goal b (i + 1) := by
  constructor
  · intro h
    cases h with
    | here hb' hi' hg =>
      obtain rfl := Option.some.inj (hb.symm.trans hb')
      obtain rfl := Option.some.inj (hi.symm.trans hi')
      exact .inl hg
    | pass hb' hi' hs h =>
      obtain rfl := Option.some.inj (hb.symm.trans hb')
      obtain rfl := Option.some.inj (hi.symm.trans hi')
      exact .inr ⟨hs, h⟩
    | edge hb' _ _ =>
      obtain rfl := Option.some.inj (hb.symm.trans hb')
      simp at hi
  · rintro (hg | ⟨hs, h⟩)
    · exact .here hb hi hg
    · exact .pass hb hi hs h

theorem at_terminator (hb : eu.blocks.lookup b = some block) :
    eu.Meets stop goal b block.instructions.length ↔
      ∃ target ∈ block.terminator.successorIds, eu.Meets stop goal target 0 := by
  constructor
  · intro h
    generalize hi : block.instructions.length = i at h
    cases h with
    | here hb' hi' _ =>
      obtain rfl := Option.some.inj (hb.symm.trans hb')
      rw [← hi] at hi'
      simp at hi'
    | pass hb' hi' _ _ =>
      obtain rfl := Option.some.inj (hb.symm.trans hb')
      rw [← hi] at hi'
      simp at hi'
    | edge hb' ht h =>
      obtain rfl := Option.some.inj (hb.symm.trans hb')
      exact ⟨_, ht, h⟩
  · rintro ⟨target, ht, h⟩
    exact .edge hb ht h

theorem goal_some (h : eu.Meets stop goal b i) : ∃ inst, goal inst := by
  induction h with
  | here _ _ hg => exact ⟨_, hg⟩
  | pass _ _ _ _ ih => exact ih
  | edge _ _ _ ih => exact ih

/-- One of the goals is the one that is met. -/
theorem exists_goal {K : Type} {goals : K → SIRInstruction A → Prop}
    (h : eu.Meets stop (fun inst => ∃ k, goals k inst) b i) : ∃ k, eu.Meets stop (goals k) b i := by
  induction h with
  | here hb hi hg =>
    obtain ⟨k, hg⟩ := hg
    exact ⟨k, .here hb hi hg⟩
  | pass hb hi hs _ ih =>
    obtain ⟨k, h⟩ := ih
    exact ⟨k, .pass hb hi hs h⟩
  | edge hb ht _ ih =>
    obtain ⟨k, h⟩ := ih
    exact ⟨k, .edge hb ht h⟩

theorem or_goal (h : eu.Meets stop (fun inst => goal inst ∨ goal' inst) b i) :
    eu.Meets stop goal b i ∨ eu.Meets stop goal' b i := by
  induction h with
  | here hb hi hg => exact hg.imp (.here hb hi) (.here hb hi)
  | pass hb hi hs _ ih => exact ih.imp (.pass hb hi hs) (.pass hb hi hs)
  | edge hb ht _ ih => exact ih.imp (.edge hb ht) (.edge hb ht)

theorem lookup (h : eu.Meets stop goal b i) : ∃ block, eu.blocks.lookup b = some block ∧
    i ≤ block.instructions.length := by
  cases h with
  | here hb hi _ => exact ⟨_, hb, Nat.le_of_lt (List.getElem?_eq_some_iff.mp hi).1⟩
  | pass hb hi _ _ => exact ⟨_, hb, Nat.le_of_lt (List.getElem?_eq_some_iff.mp hi).1⟩
  | edge hb _ _ => exact ⟨_, hb, le_rfl⟩

end ExecutionUnit.Meets

/-! ## Stretches of a block -/

section Between
variable {instructions : List (SIRInstruction A)} {inst : SIRInstruction A}
  {p : SIRInstruction A → Prop} {i j : Nat}

/-- No instruction in `(j, i)` has the property. -/
def NoneBetween (instructions : List (SIRInstruction A)) (j i : Nat)
    (p : SIRInstruction A → Prop) : Prop :=
  ∀ (k : Nat) inst, j < k → k < i → instructions[k]? = some inst → ¬ p inst

theorem NoneBetween.next (h : NoneBetween instructions j i p) (hi : instructions[i]? = some inst)
    (hp : ¬ p inst) : NoneBetween instructions j (i + 1) p := by
  intro k other hj hk hget
  by_cases heq : k = i
  · subst heq
    rw [hi] at hget
    cases hget
    exact hp
  · exact h k other hj (by omega) hget

theorem NoneBetween.empty : NoneBetween instructions i (i + 1) p :=
  fun k _ hj hk _ => by omega

/-- From `i` on the register is not defined. -/
def UndefinedFrom (instructions : List (SIRInstruction A)) (i : Nat) (reg : RegisterId) : Prop :=
  ∀ (k : Nat) inst, i ≤ k → instructions[k]? = some inst → inst.definedRegister ≠ some reg

theorem UndefinedFrom.next {reg : RegisterId} (h : UndefinedFrom instructions i reg) :
    UndefinedFrom instructions (i + 1) reg :=
  fun k inst hk hget => h k inst (by omega) hget

theorem drop_cons {B : Type} {list rest : List B} {x : B} (h : list.drop i = x :: rest) :
    list[i]? = some x ∧ list.drop (i + 1) = rest ∧ list.take (i + 1) = list.take i ++ [x] := by
  have hget : list[i]? = some x := by
    rw [← List.head?_drop, h]
    rfl
  refine ⟨hget, ?_, ?_⟩
  · rw [← List.tail_drop, h]
    rfl
  · rw [List.take_add_one, hget]
    rfl

end Between

/-! ## Rewriting blocks -/

/-- The unit with every block replaced under its id. -/
def ExecutionUnit.mapBlocks (eu : ExecutionUnit A)
    (f : BlockId → BasicBlock A → BasicBlock A) : ExecutionUnit A :=
  { eu with
    blocks := ⟨eu.blocks.entries.map fun e => ⟨e.1, f e.1 e.2⟩, by
      have hkeys : (eu.blocks.entries.map fun e =>
          (⟨e.1, f e.1 e.2⟩ : (_ : BlockId) × BasicBlock A)).keys = eu.blocks.entries.keys := by
        unfold List.keys
        rw [List.map_map]
        rfl
      rw [List.NodupKeys, hkeys]
      exact eu.blocks.nodupKeys⟩ }

theorem ExecutionUnit.mapBlocks_congr {f g : BlockId → BasicBlock A → BasicBlock A}
    (h : ∀ b block, eu.blocks.lookup b = some block → f b block = g b block) :
    eu.mapBlocks f = eu.mapBlocks g := by
  unfold mapBlocks
  congr 2
  refine List.map_congr_left fun e he => ?_
  rw [h e.1 e.2 (AList.mem_lookup_iff.mpr he)]

theorem ExecutionUnit.mapBlocks_self (eu : ExecutionUnit A) :
    eu.mapBlocks (fun _ block => block) = eu := by
  unfold mapBlocks
  congr
  exact List.map_id _

theorem ExecutionUnit.lookup_mapBlocks (f : BlockId → BasicBlock A → BasicBlock A)
    (b : BlockId) : (eu.mapBlocks f).blocks.lookup b = (eu.blocks.lookup b).map (f b) := by
  refine Option.ext fun block => ?_
  rw [Option.map_eq_some_iff]
  change block ∈ (eu.mapBlocks f).blocks.lookup b ↔ _
  rw [AList.mem_lookup_iff]
  change _ ∈ eu.blocks.entries.map _ ↔ _
  rw [List.mem_map]
  constructor
  · rintro ⟨⟨b', block'⟩, hmem, heq⟩
    cases heq
    exact ⟨block', AList.mem_lookup_iff.mpr hmem, rfl⟩
  · rintro ⟨block', hmem, rfl⟩
    exact ⟨⟨b, block'⟩, AList.mem_lookup_iff.mp hmem, rfl⟩

end Celox.Sir
