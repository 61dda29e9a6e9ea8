import Celox.Sir.Extends

/-! # Passes that allocate registers

A pass rewrites the blocks one after the other and takes the registers it needs behind the highest
one. What it has allocated for one block it keeps for the next. -/
namespace Celox.Opt
open Celox.Sir

variable {A : Type}

structure Allocation where
  registerMap : Table RegisterId RegisterType
  counter : RegisterId

/-- The first register from `counter` on that is not declared. -/
def firstFree (registerMap : Table RegisterId RegisterType) : Nat → RegisterId → RegisterId
  | 0, counter => counter
  | fuel + 1, counter =>
    if counter ∈ registerMap then firstFree registerMap fuel (counter + 1) else counter

/-- As many steps are enough as registers are declared. -/
def Allocation.allocReg (allocation : Allocation) (type : RegisterType) : RegisterId × Allocation :=
  let counter := firstFree allocation.registerMap (allocation.registerMap.keys.length + 1)
    (allocation.counter + 1)
  (counter, ⟨allocation.registerMap.insert counter type, counter⟩)

/-- A new register behind the highest one. -/
def Allocation.push (allocation : Allocation) (type : RegisterType) : RegisterId × Allocation :=
  (allocation.counter + 1,
    ⟨allocation.registerMap.insert (allocation.counter + 1) type, allocation.counter + 1⟩)

def startAllocation (eu : ExecutionUnit A) : Allocation :=
  ⟨eu.registerMap, eu.registerMap.keys.foldr max 0⟩

/-- All registers are declared up to the counter. -/
def Allocation.Bounded (allocation : Allocation) : Prop :=
  ∀ reg ∈ allocation.registerMap, reg ≤ allocation.counter

/-- The types of the one table are in the other one, in the same shape. -/
def ShapesIn (types types' : Table RegisterId RegisterType) : Prop :=
  ∀ reg type, types.lookup reg = some type → ∃ type', types'.lookup reg = some type' ∧
    type'.shape = type.shape

theorem ShapesIn.refl (types : Table RegisterId RegisterType) : ShapesIn types types :=
  fun _ type h => ⟨type, h, rfl⟩

theorem ShapesIn.trans {types types' types'' : Table RegisterId RegisterType}
    (h : ShapesIn types types') (h' : ShapesIn types' types'') : ShapesIn types types'' := by
  intro reg type htype
  obtain ⟨type', htype', hshape⟩ := h reg type htype
  obtain ⟨type'', htype'', hshape'⟩ := h' reg type' htype'
  exact ⟨type'', htype'', hshape'.trans hshape⟩

theorem ShapesIn.mem {types types' : Table RegisterId RegisterType} (h : ShapesIn types types')
    {reg : RegisterId} (hreg : reg ∈ types) : reg ∈ types' := by
  obtain ⟨type, htype⟩ := Option.isSome_iff_exists.mp (AList.lookup_isSome.mpr hreg)
  obtain ⟨type', htype', -⟩ := h reg type htype
  exact AList.lookup_isSome.mp (by rw [htype']; rfl)

section Alloc
variable {allocation : Allocation} {type : RegisterType}

theorem firstFree_of_not_mem {registerMap : Table RegisterId RegisterType} {fuel : Nat}
    {counter : RegisterId} (h : counter ∉ registerMap) :
    firstFree registerMap fuel counter = counter := by
  cases fuel with
  | zero => rfl
  | succ fuel => exact if_neg h

theorem startAllocation_bounded (eu : ExecutionUnit A) : (startAllocation eu).Bounded := by
  intro reg hreg
  have hmem : reg ∈ eu.registerMap.keys := hreg
  change reg ≤ eu.registerMap.keys.foldr max 0
  generalize eu.registerMap.keys = keys at hmem
  induction keys with
  | nil => cases hmem
  | cons key keys ih =>
    rw [List.foldr_cons]
    rcases List.mem_cons.mp hmem with rfl | hmem
    · exact le_max_left _ _
    · exact (ih hmem).trans (le_max_right _ _)

theorem allocReg_eq (h : allocation.Bounded) : allocation.allocReg type =
    (allocation.counter + 1, ⟨allocation.registerMap.insert (allocation.counter + 1) type,
      allocation.counter + 1⟩) := by
  have hfree : allocation.counter + 1 ∉ allocation.registerMap := fun hmem =>
    Nat.not_succ_le_self _ (h _ hmem)
  unfold Allocation.allocReg
  rw [firstFree_of_not_mem hfree]

theorem allocReg_fresh (type : RegisterType) (h : allocation.Bounded) :
    (allocation.allocReg type).1 ∉ allocation.registerMap := by
  rw [allocReg_eq h]
  exact fun hmem => Nat.not_succ_le_self _ (h _ hmem)

theorem allocReg_bounded (h : allocation.Bounded) : (allocation.allocReg type).2.Bounded := by
  rw [allocReg_eq h]
  intro reg hreg
  rcases (AList.mem_insert _).mp hreg with rfl | hreg
  · exact le_rfl
  · exact (h reg hreg).trans (Nat.le_succ _)

theorem allocReg_type (type : RegisterType) (h : allocation.Bounded) :
    (allocation.allocReg type).2.registerMap.lookup (allocation.allocReg type).1 = some type := by
  rw [allocReg_eq h]
  exact AList.lookup_insert _

theorem shapesIn_insert {types : Table RegisterId RegisterType} {reg : RegisterId}
    (h : ∀ old, types.lookup reg = some old → type.shape = old.shape) :
    ShapesIn types (types.insert reg type) := by
  intro r old hold
  by_cases heq : r = reg
  · subst heq
    exact ⟨type, AList.lookup_insert _, h old hold⟩
  · exact ⟨old, by rwa [AList.lookup_insert_ne heq], rfl⟩

theorem allocReg_shapes (h : allocation.Bounded) :
    ShapesIn allocation.registerMap (allocation.allocReg type).2.registerMap := by
  have hfresh := allocReg_fresh type h
  rw [allocReg_eq h] at hfresh ⊢
  refine shapesIn_insert fun old hold => absurd ?_ hfresh
  exact AList.lookup_isSome.mp (by rw [hold]; rfl)

/-- An allocation after another one. -/
structure Allocation.Before (before after : Allocation) : Prop where
  bounded : after.Bounded
  shapes : ShapesIn before.registerMap after.registerMap

theorem Allocation.Before.trans {a b c : Allocation} (h : a.Before b) (h' : b.Before c) :
    a.Before c :=
  ⟨h'.bounded, h.shapes.trans h'.shapes⟩

theorem Allocation.Before.refl {a : Allocation} (h : a.Bounded) : a.Before a :=
  ⟨h, ShapesIn.refl _⟩

theorem allocReg_before (type : RegisterType) (h : allocation.Bounded) :
    allocation.Before (allocation.allocReg type).2 :=
  ⟨allocReg_bounded h, allocReg_shapes h⟩

theorem push_fresh (h : allocation.Bounded) : (allocation.push type).1 ∉ allocation.registerMap :=
  fun hmem => Nat.not_succ_le_self _ (h _ hmem)

theorem push_type : (allocation.push type).2.registerMap.lookup (allocation.push type).1 =
    some type :=
  AList.lookup_insert _

theorem push_before (h : allocation.Bounded) :
    allocation.Before (allocation.push type).2 := by
  have heq := allocReg_before type h
  rwa [allocReg_eq h] at heq

end Alloc

/-! ## Block after block -/

section Rewrite
variable {σ : Type} (rewrite : BasicBlock A → σ → BasicBlock A × σ)

def rewriteEntries : List ((_ : BlockId) × BasicBlock A) → σ →
    List ((_ : BlockId) × BasicBlock A) × σ
  | [], state => ([], state)
  | entry :: entries, state =>
    let (block, state) := rewrite entry.2 state
    let (blocks, state) := rewriteEntries entries state
    (⟨entry.1, block⟩ :: blocks, state)

theorem keys_rewriteEntries (entries : List ((_ : BlockId) × BasicBlock A)) (state : σ) :
    (rewriteEntries rewrite entries state).1.keys = entries.keys := by
  induction entries generalizing state with
  | nil => rfl
  | cons entry entries ih => exact congrArg (entry.1 :: ·) (ih _)

/-- All blocks in the order of the table, and the state at the end. -/
def rewriteBlocks (blocks : Table BlockId (BasicBlock A)) (state : σ) :
    Table BlockId (BasicBlock A) × σ :=
  (⟨(rewriteEntries rewrite blocks.entries state).1, by
    rw [List.NodupKeys, keys_rewriteEntries]
    exact blocks.nodupKeys⟩, (rewriteEntries rewrite blocks.entries state).2)

variable {rewrite} {P : σ → Prop} {Q : σ → σ → Prop}

theorem rewriteEntries_spec (hrefl : ∀ state, Q state state)
    (htrans : ∀ a b c, Q a b → Q b c → Q a c)
    {entries : List ((_ : BlockId) × BasicBlock A)}
    (hstep : ∀ e ∈ entries, ∀ state, P state → P (rewrite e.2 state).2 ∧
      Q state (rewrite e.2 state).2) {state : σ} (h : P state) :
    P (rewriteEntries rewrite entries state).2 ∧ Q state (rewriteEntries rewrite entries state).2 ∧
      ∀ e ∈ entries, ∃ before, P before ∧ Q state before ∧
        ⟨e.1, (rewrite e.2 before).1⟩ ∈ (rewriteEntries rewrite entries state).1 ∧
        Q (rewrite e.2 before).2 (rewriteEntries rewrite entries state).2 := by
  induction entries generalizing state with
  | nil => exact ⟨h, hrefl state, fun e he => by cases he⟩
  | cons entry entries ih =>
    obtain ⟨hp, hq⟩ := hstep entry List.mem_cons_self state h
    obtain ⟨hp', hq', hall⟩ := ih (fun e he => hstep e (List.mem_cons_of_mem _ he)) hp
    refine ⟨hp', htrans _ _ _ hq hq', fun e he => ?_⟩
    rcases List.mem_cons.mp he with rfl | he
    · exact ⟨state, h, hrefl state, List.mem_cons_self, hq'⟩
    · obtain ⟨before, hbefore, hqb, hmem, hafter⟩ := hall e he
      exact ⟨before, hbefore, htrans _ _ _ hq hqb, List.mem_cons_of_mem _ hmem, hafter⟩

/-- Every block is rewritten in a state that the pass can be in. -/
theorem rewriteBlocks_spec {blocks : Table BlockId (BasicBlock A)} (hrefl : ∀ state, Q state state)
    (htrans : ∀ a b c, Q a b → Q b c → Q a c)
    (hstep : ∀ b block, blocks.lookup b = some block → ∀ state, P state →
      P (rewrite block state).2 ∧ Q state (rewrite block state).2) {state : σ} (h : P state) :
    P (rewriteBlocks rewrite blocks state).2 ∧ Q state (rewriteBlocks rewrite blocks state).2 ∧
      ∀ b block, blocks.lookup b = some block → ∃ before, P before ∧ Q state before ∧
        (rewriteBlocks rewrite blocks state).1.lookup b = some (rewrite block before).1 ∧
        Q (rewrite block before).2 (rewriteBlocks rewrite blocks state).2 := by
  obtain ⟨hp, hq, hall⟩ := rewriteEntries_spec hrefl htrans
    (fun e he => hstep e.1 e.2 (AList.mem_lookup_iff.mpr he)) h
  refine ⟨hp, hq, fun b block hb => ?_⟩
  obtain ⟨before, hbefore, hqb, hmem, hafter⟩ := hall ⟨b, block⟩ (AList.mem_lookup_iff.mp hb)
  exact ⟨before, hbefore, hqb, AList.mem_lookup_iff.mpr hmem, hafter⟩

theorem rewriteBlocks_none {blocks : Table BlockId (BasicBlock A)} {state : σ} {b : BlockId}
    (h : blocks.lookup b = none) : (rewriteBlocks rewrite blocks state).1.lookup b = none := by
  rw [AList.lookup_eq_none] at h ⊢
  intro hmem
  refine h ?_
  change b ∈ (rewriteEntries rewrite blocks.entries state).1.keys at hmem
  rw [keys_rewriteEntries] at hmem
  exact hmem

/-- Every block is rewritten with registers that were not declared before, and what is allocated for
it stays declared. -/
theorem allocatingPass_spec {eu : ExecutionUnit A}
    {rewrite : BasicBlock A → Allocation → BasicBlock A × Allocation}
    (hstep : ∀ b block, eu.blocks.lookup b = some block → ∀ allocation : Allocation,
      allocation.Bounded → ShapesIn eu.registerMap allocation.registerMap →
      allocation.Before (rewrite block allocation).2) :
    ShapesIn eu.registerMap
        (rewriteBlocks rewrite eu.blocks (startAllocation eu)).2.registerMap ∧
      ∀ b block, eu.blocks.lookup b = some block → ∃ before, before.Bounded ∧
        ShapesIn eu.registerMap before.registerMap ∧
        (rewriteBlocks rewrite eu.blocks (startAllocation eu)).1.lookup b =
          some (rewrite block before).1 ∧
        ShapesIn (rewrite block before).2.registerMap
          (rewriteBlocks rewrite eu.blocks (startAllocation eu)).2.registerMap := by
  obtain ⟨⟨-, hfinal⟩, -, hblocks⟩ := rewriteBlocks_spec
    (P := fun allocation : Allocation =>
      allocation.Bounded ∧ ShapesIn eu.registerMap allocation.registerMap)
    (Q := fun before after : Allocation => ShapesIn before.registerMap after.registerMap)
    (fun _ => .refl _) (fun _ _ _ => .trans)
    (fun b block hb allocation ⟨hbounded, hdeclared⟩ => by
      have hbefore := hstep b block hb allocation hbounded hdeclared
      exact ⟨⟨hbefore.bounded, hdeclared.trans hbefore.shapes⟩, hbefore.shapes⟩)
    (show (startAllocation eu).Bounded ∧ ShapesIn eu.registerMap (startAllocation eu).registerMap
      from ⟨startAllocation_bounded eu, .refl _⟩)
  refine ⟨hfinal, fun b block hb => ?_⟩
  obtain ⟨before, ⟨hbounded, hdeclared⟩, -, hlookup, hafter⟩ := hblocks b block hb
  exact ⟨before, hbounded, hdeclared, hlookup, hafter⟩

end Rewrite
end Celox.Opt
