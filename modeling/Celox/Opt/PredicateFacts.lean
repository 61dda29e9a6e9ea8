import Celox.Layout.Strided
import Celox.Sir.BitMemory
import Celox.Sir.Cfg
import Celox.Sir.Frames

/-! # Values of branch conditions

A block inherits what its immediate dominator knows. If that ends in a branch with a target that
dominates the block, the block is taken to be reached by the edge to this target. -/
namespace Celox.Opt
open Celox.Sir Celox.Graph Relation

variable {A : Type}

/-- A branch condition with its value. -/
abbrev Fact := RegisterId × Bool

def predicateFact (cfg : SirCfg) (block : Nat) (cond : RegisterId) (trueIndex falseIndex : Nat) :
    Option Fact :=
  if cfg.dominators.dominates trueIndex block then some (cond, true)
  else if cfg.dominators.dominates falseIndex block then some (cond, false)
  else none

/-- The facts of one more block. `none` stands for a block without a number. -/
def addFacts (eu : ExecutionUnit A) (cfg : SirCfg) (facts : List (List Fact)) (block : Nat) :
    Option (List (List Fact)) :=
  match cfg.dominators.idom[block]?.join with
  | none => some facts
  | some parent => do
    let known := facts[parent]?.getD []
    let parentBlock ← eu.blocks.lookup (← cfg.blockIds[parent]?)
    match parentBlock.terminator with
    | .branch cond trueBlock falseBlock =>
      let trueIndex ← cfg.blockIndex trueBlock.1
      let falseIndex ← cfg.blockIndex falseBlock.1
      match predicateFact cfg block cond trueIndex falseIndex with
      | some fact => return facts.set block (if fact ∈ known then known else known ++ [fact])
      | none => return facts.set block known
    | _ => return facts.set block known

def predicateFacts (eu : ExecutionUnit A) (cfg : SirCfg) : Option (List (List Fact)) :=
  (List.range' 1 (cfg.blockIds.length - 1)).foldlM (addFacts eu cfg)
    (List.replicate cfg.blockIds.length [])

/-! ## Where the facts come from -/

section Source
variable {eu : ExecutionUnit A} {cfg : SirCfg} {facts : List (List Fact)}

/-- The block a branch does not lead to with a value. -/
def otherTarget (trueBlock falseBlock : BlockId) (value : Bool) : BlockId :=
  if value then falseBlock else trueBlock

/-- A branch ends the immediate dominator of a block that the target for a value dominates. -/
structure Attached (eu : ExecutionUnit A) (cfg : SirCfg) (parent : BlockId)
    (parentBlock : BasicBlock A) (cond : RegisterId)
    (trueBlock falseBlock : BlockId × List RegisterId) (b : BlockId) (value : Bool) : Prop where
  lookup : eu.blocks.lookup parent = some parentBlock
  terminator : parentBlock.terminator = .branch cond trueBlock falseBlock
  idom : ∃ i d : Nat, cfg.dominators.idom[i]? = some (some d) ∧ cfg.blockIds[d]? = some parent ∧
    cfg.blockIds[i]? = some b
  target : if value then cfg.dominates trueBlock.1 b = true
    else cfg.dominates trueBlock.1 b = false ∧ cfg.dominates falseBlock.1 b = true

/-- A fact of a block comes from a branch that it was attached to for a dominator of the block. -/
def FromBranch (eu : ExecutionUnit A) (cfg : SirCfg) (b : BlockId) (fact : Fact) : Prop :=
  ∃ parent parentBlock trueBlock falseBlock c,
    Attached eu cfg parent parentBlock fact.1 trueBlock falseBlock c fact.2 ∧
      Dom eu.Flow eu.entryBlockId c b

/-- All facts come from branches. -/
def AllFromBranches (eu : ExecutionUnit A) (cfg : SirCfg) (facts : List (List Fact)) : Prop :=
  ∀ (i : Nat) b, cfg.blockIds[i]? = some b → ∀ fact ∈ facts[i]?.getD [], FromBranch eu cfg b fact

theorem blockIndex_eq (h : cfg.Exact eu) {b : BlockId} {i : Nat} :
    cfg.blockIndex b = some i ↔ cfg.blockIds[i]? = some b := by
  unfold SirCfg.blockIndex
  rw [h.numbers.get, ← h.numbers.mem]
  split
  · rename_i hb
    simp [hb]
  · rename_i hb
    simp [hb]

theorem addFacts_spec (hv : Verified eu) (h : cfg.Exact eu) (hfacts : AllFromBranches eu cfg facts)
    (block : Nat) : ∃ facts', addFacts eu cfg facts block = some facts' ∧
      AllFromBranches eu cfg facts' := by
  unfold addFacts
  cases hidom : cfg.dominators.idom[block]?.join with
  | none => exact ⟨facts, rfl, hfacts⟩
  | some parent =>
    rw [Option.join_eq_some_iff] at hidom
    obtain ⟨p, b, hp, hb, hne, hdom⟩ := h.idom block parent hidom
    obtain ⟨parentBlock, hlookup⟩ := mem_table.mp (h.numbers.get.mp hp).1
    have hknown : ∀ fact ∈ facts[parent]?.getD [], FromBranch eu cfg b fact := fun fact hfact => by
      obtain ⟨q, qBlock, t, f, c, hattached, hc⟩ := hfacts parent p hp fact hfact
      exact ⟨q, qBlock, t, f, c, hattached, hdom.trans hc⟩
    -- the facts of all other blocks stay
    have hset : ∀ known : List Fact, (∀ fact ∈ known, FromBranch eu cfg b fact) →
        AllFromBranches eu cfg (facts.set block known) := by
      intro known hall i b' hb' fact hfact
      rw [List.getElem?_set] at hfact
      split at hfact
      · rename_i heq
        subst heq
        rw [hb] at hb'
        cases hb'
        split at hfact
        · exact hall fact hfact
        · cases hfact
      · exact hfacts i b' hb' fact hfact
    simp only [hp, hlookup, Option.bind_eq_bind, Option.bind_some, Option.pure_def]
    generalize hterm : parentBlock.terminator = terminator
    cases terminator with
    | branch cond trueBlock falseBlock =>
      have htargets := (hv.blocks p parentBlock hlookup).targets
      rw [hterm] at htargets
      have hindex : ∀ target ∈ [trueBlock.1, falseBlock.1], ∃ i, cfg.blockIndex target = some i :=
        fun target ht => by
          have hmem := htargets target ht
          exact ⟨_, (blockIndex_eq h).mpr (h.numbers.get.mpr ⟨hmem, rfl⟩)⟩
      obtain ⟨trueIndex, htrue⟩ := hindex trueBlock.1 (by simp)
      obtain ⟨falseIndex, hfalse⟩ := hindex falseBlock.1 (by simp)
      have hdominates : ∀ target i, cfg.blockIndex target = some i →
          cfg.dominates target b = cfg.dominators.dominates i block := fun target i hi => by
        unfold SirCfg.dominates
        rw [hi, (blockIndex_eq h).mpr hb]
      have hattached : ∀ value, (if value then cfg.dominates trueBlock.1 b = true
          else cfg.dominates trueBlock.1 b = false ∧ cfg.dominates falseBlock.1 b = true) →
          FromBranch eu cfg b (cond, value) := fun value htarget =>
        ⟨p, parentBlock, trueBlock, falseBlock, b, ⟨hlookup, hterm, ⟨block, parent, hidom, hp, hb⟩,
          htarget⟩, Dom.refl b⟩
      simp only [htrue, hfalse, Option.bind_some, predicateFact, ← hdominates _ _ htrue,
        ← hdominates _ _ hfalse]
      have hadd : ∀ fact, FromBranch eu cfg b fact → ∀ other ∈ (if fact ∈ facts[parent]?.getD []
          then facts[parent]?.getD [] else facts[parent]?.getD [] ++ [fact]),
          FromBranch eu cfg b other := by
        intro fact hfact other hother
        split at hother
        · exact hknown other hother
        · rcases List.mem_append.mp hother with hother | hother
          · exact hknown other hother
          · exact List.mem_singleton.mp hother ▸ hfact
      by_cases ht : cfg.dominates trueBlock.1 b = true
      · rw [if_pos ht]
        exact ⟨_, rfl, hset _ (hadd _ (hattached true ht))⟩
      · rw [if_neg ht]
        by_cases hf : cfg.dominates falseBlock.1 b = true
        · rw [if_pos hf]
          exact ⟨_, rfl, hset _ (hadd _ (hattached false ⟨by simpa using ht, hf⟩))⟩
        · rw [if_neg hf]
          exact ⟨_, rfl, hset _ hknown⟩
    | _ => exact ⟨_, rfl, hset _ hknown⟩

/-- Every block of the graph has its facts, and they come from branches. -/
theorem predicateFacts_spec (hv : Verified eu) (h : cfg.Exact eu) :
    ∃ facts, predicateFacts eu cfg = some facts ∧ AllFromBranches eu cfg facts := by
  unfold predicateFacts
  generalize List.range' 1 (cfg.blockIds.length - 1) = rest
  have hstart : AllFromBranches eu cfg (List.replicate cfg.blockIds.length []) := by
    intro i b _ fact hfact
    rw [List.getElem?_replicate] at hfact
    split at hfact <;> cases hfact
  generalize List.replicate cfg.blockIds.length ([] : List Fact) = facts at hstart
  induction rest generalizing facts with
  | nil => exact ⟨facts, rfl, hstart⟩
  | cons block rest ih =>
    obtain ⟨facts', hadd, hfacts'⟩ := addFacts_spec hv h hstart block
    obtain ⟨final, hfinal, hall⟩ := ih facts' hfacts'
    refine ⟨final, ?_, hall⟩
    rw [List.foldlM_cons, hadd]
    exact hfinal

end Source

/-! ## Runs -/

section Run
variable {S : Type} {m : Machine A S} {eu : ExecutionUnit A} {cfg : SirCfg} {memory : S}
  {parent : BlockId} {parentBlock : BasicBlock A} {cond : RegisterId}
  {trueBlock falseBlock : BlockId × List RegisterId} {b : BlockId} {s : State A S}

/-- A branch on the register would go the way of the value. -/
def Holds (m : Machine A S) (eu : ExecutionUnit A) (regs : Registers) (fact : Fact) : Prop :=
  ∃ typed, eu.operand regs fact.1 = some typed ∧ m.truthy typed.1 typed.2 = fact.2

/-- What is known of a branch on the way from it to a block: the block is reached past it, or from the
target that the condition, as it still is, leads to. -/
def LeftBy (m : Machine A S) (eu : ExecutionUnit A) (parent : BlockId) (cond : RegisterId)
    (trueBlock falseBlock : BlockId) (b : BlockId) (s : State A S) : Prop :=
  Avoids eu.Flow parent eu.entryBlockId b ∨ b = parent ∨ ∃ value,
    Avoids eu.Flow parent (if value then trueBlock else falseBlock) b ∧
      Holds m eu s.regs (cond, value)

theorem visits_leftBy (hv : Verified eu) (hlookup : eu.blocks.lookup parent = some parentBlock)
    (hterm : parentBlock.terminator = .branch cond trueBlock falseBlock)
    (hvisit : eu.Visits m memory b s) :
    LeftBy m eu parent cond trueBlock.1 falseBlock.1 b s := by
  have hparent := hv.reach parent (mem_table.mpr ⟨parentBlock, hlookup⟩)
  have huse : parentBlock.UsesAt parentBlock.instructions.length cond :=
    .inr ⟨rfl, by rw [hterm]; simp [SIRTerminator.uses]⟩
  obtain ⟨home, hhome, hdefined⟩ := hv.defined_above hlookup huse
  induction hvisit with
  | start =>
    by_cases heq : eu.entryBlockId = parent
    · exact .inr (.inl heq)
    · exact .inl ⟨heq, .refl⟩
  | @next b block s t c hvisit hb hexec hgo ih =>
    have hflow := hv.flow_of_goto hb hgo
    by_cases hc : c.block = parent
    · exact .inr (.inl hc)
    -- where the next block defines the condition, it is reached past the branch
    by_cases hnext : home = c.block
    · exact .inl (hnext ▸ avoids_of_above hparent hhome (hnext ▸ hc))
    have hregs : c.state.regs cond = t.regs cond := execTerminator_frame (fun other hother hmem =>
      hnext (hdefined.params c.block other hother hmem).symm) hgo
    rcases ih with havoid | rfl | ⟨value, havoid, hholds⟩
    · exact .inl (havoid.step hflow hc)
    · rw [hlookup] at hb
      cases hb
      rw [hterm] at hgo
      obtain ⟨type, value, hop, htarget⟩ := execTerminator_branch hgo
      refine .inr (.inr ⟨m.truthy type value, ?_, (type, value), ?_, rfl⟩)
      · rw [← htarget]
        exact ⟨hc, .refl⟩
      · rw [← hop]
        exact operand_uses hregs
    · have hne := havoid.ne_right
      by_cases hhere : home = b
      · exact .inl ((hhere ▸ avoids_of_above hparent hhome (hhere ▸ hne)).step hflow hc)
      obtain ⟨typed, hop, htruthy⟩ := hholds
      refine .inr (.inr ⟨value, havoid.step hflow hc, typed, ?_, htruthy⟩)
      rw [← hop]
      refine operand_uses (hregs.trans (execList_frame (fun inst hinst hreg => ?_) hexec))
      exact hhere (hdefined.insts b block hb inst hinst hreg).symm

/-- Past the branch no block behind one that it dominates is reached, but over that one. -/
theorem avoids_below {E : BlockId → BlockId → Prop} {root c o : BlockId} (hedge : E parent o) (hne : parent ≠ c)
    (hdom : Dom E root parent c) (hbelow : Dom E root c b) (hc : ReflTransGen E root c)
    (h : Avoids E parent o b) : Avoids E parent o c := by
  have habove : Avoids E c root parent := avoids_of_above hc hdom hne
  by_cases ho : o = c
  · exact ⟨h.1, ho ▸ .refl⟩
  have hwalk : ∀ x, ReflTransGen (fun u v => E u v ∧ v ≠ parent) o x →
      ReflTransGen (fun u v => E u v ∧ v ≠ c) o x ∨ Avoids E parent o c := by
    intro x hx
    induction hx with
    | refl => exact .inl .refl
    | @tail u v hu huv ih =>
      rcases ih with hmiss | hhit
      · by_cases hvc : v = c
        · exact .inr ⟨h.1, hvc ▸ hu.tail huv⟩
        · exact .inl (hmiss.tail ⟨huv.1, hvc⟩)
      · exact .inr hhit
  rcases hwalk b h.2 with hmiss | hhit
  · exact absurd ((habove.step hedge ho).trans hmiss) hbelow
  · exact hhit

/-- Every block with a fact is reached by the edge of the fact alone: from the other target not
without passing the branch again. -/
def FactsOnEdges (eu : ExecutionUnit A) (cfg : SirCfg) : Prop :=
  ∀ parent parentBlock cond trueBlock falseBlock b value,
    Attached eu cfg parent parentBlock cond trueBlock falseBlock b value →
      ¬ Avoids eu.Flow parent (otherTarget trueBlock.1 falseBlock.1 value) b

/-- Where that is so, the facts of a block hold whenever a run is in the block. -/
theorem predicateFacts_hold (hverified : eu.verifyResult = .ok ())
    (hcfg : SirCfg.analyzeForward eu = .ok cfg) (hedges : FactsOnEdges eu cfg) :
    ∃ facts, predicateFacts eu cfg = some facts ∧ ∀ (m : Machine A S) memory c,
      ReflTransGen (eu.Goes m) (eu.start memory []) c → ∀ (i : Nat), cfg.blockIds[i]? = some c.block →
        ∀ fact ∈ facts[i]?.getD [], Holds m eu c.state.regs fact := by
  have hv := (verifyResult_ok_iff eu).mp hverified
  have hexact := SirCfg.analyzeForward_ok hcfg
  obtain ⟨facts, hfacts, hall⟩ := predicateFacts_spec hv hexact
  refine ⟨facts, hfacts, fun m memory config hrun i hi fact hfact => ?_⟩
  obtain ⟨parent, parentBlock, trueBlock, falseBlock, c, hattached, hbelow⟩ :=
    hall i config.block hi fact hfact
  obtain ⟨j, d, hidom, hd, hj⟩ := hattached.idom
  obtain ⟨p, c', hp, hc', hne, hdom⟩ := hexact.idom j d hidom
  rw [hd] at hp
  cases hp
  rw [hj] at hc'
  cases hc'
  have hmem : ∀ {k : Nat} {x}, cfg.blockIds[k]? = some x → x ∈ eu.blocks := fun hk =>
    (hexact.numbers.get.mp hk).1
  have hparent := hv.reach parent (hmem hd)
  have hreachc := hv.reach c (hmem hj)
  have hreach := hv.reach config.block (hmem hi)
  have hover : Dom eu.Flow eu.entryBlockId parent config.block := hbelow.trans hdom
  have hneb : config.block ≠ parent := fun heq =>
    hne (Dom.antisymm hdom (heq ▸ hbelow) hreachc)
  -- the other edge does not lead here
  have htargets := (hv.blocks parent parentBlock hattached.lookup).targets
  rw [hattached.terminator] at htargets
  have hedge : ∀ value, eu.Flow parent (otherTarget trueBlock.1 falseBlock.1 value) := fun value => by
    have hsucc : otherTarget trueBlock.1 falseBlock.1 value ∈
        parentBlock.terminator.successorIds := by
      rw [hattached.terminator]
      cases value <;> simp [otherTarget, SIRTerminator.successorIds]
    refine ExecutionUnit.flow_iff.mpr ⟨htargets _ ?_, parentBlock, hattached.lookup, hsucc⟩
    rwa [hattached.terminator] at hsucc
  have hother : ¬ Avoids eu.Flow parent (otherTarget trueBlock.1 falseBlock.1 fact.2)
      config.block := fun havoid => hedges _ _ _ _ _ _ _ hattached
    (avoids_below (hedge fact.2) hne hdom hbelow hreachc havoid)
  obtain ⟨s, hvisit, hindex⟩ := reached_visits hrun
  obtain ⟨block, hblock⟩ := mem_table.mp (hmem hi)
  have hholds : Holds m eu s.regs fact := by
    rcases visits_leftBy hv hattached.lookup hattached.terminator hvisit with
      havoid | heq | ⟨value, havoid, hholds⟩
    · exact absurd havoid hover
    · exact absurd heq hneb
    · obtain ⟨typed, hop, htruthy⟩ := hholds
      refine ⟨typed, hop, htruthy.trans ?_⟩
      by_contra hne
      have hvalue : value = !fact.2 := by
        cases value <;> cases hfact2 : fact.2 <;> simp_all
      refine hother ?_
      rw [hvalue] at havoid
      cases hfact2 : fact.2 <;> rw [hfact2] at havoid <;> exact havoid
  -- the condition is not defined in the block
  have huse : parentBlock.UsesAt parentBlock.instructions.length fact.1 :=
    .inr ⟨rfl, by rw [hattached.terminator]; simp [SIRTerminator.uses]⟩
  obtain ⟨home, hhome, hdefined⟩ := hv.defined_above hattached.lookup huse
  have hhomeb : home ≠ config.block := fun heq =>
    hneb (Dom.antisymm (heq ▸ hhome) hover hparent)
  obtain ⟨typed, hop, htruthy⟩ := hholds
  refine ⟨typed, ?_, htruthy⟩
  rw [← hop]
  refine operand_uses (execList_frame (fun inst hinst hreg => ?_) (hindex block hblock).2)
  exact hhomeb (hdefined.insts config.block block hblock inst (List.mem_of_mem_take hinst) hreg).symm

end Run

/-! ## Two units -/

def branchUnit (value : Nat) (thenTerminator : SIRTerminator) : ExecutionUnit Unit where
  entryBlockId := 0
  blocks := [
    ⟨0, ⟨0, [], [.imm 0 ⟨value, 0⟩], .branch 0 (1, []) (2, [])⟩⟩,
    ⟨1, ⟨1, [], [], thenTerminator⟩⟩,
    ⟨2, ⟨2, [], [], .ret⟩⟩].toAList
  registerMap := [⟨0, .bit 1 false⟩].toAList

/-- Both targets return. -/
def ifElse : ExecutionUnit Unit := branchUnit 1 .ret

/-- The target of the false edge is where the true one ends. -/
def ifWithoutElse : ExecutionUnit Unit := branchUnit 1 (.jump 2 [])

theorem ifElse_onEdges : ∃ cfg, SirCfg.analyzeForward ifElse = .ok cfg ∧ FactsOnEdges ifElse cfg := by
  have hcfg : ((SirCfg.analyzeForward ifElse).toOption.map fun cfg =>
      (cfg.dominates 1 2, cfg.dominates 2 1)) = some (false, false) := by decide +kernel
  cases hanalyze : SirCfg.analyzeForward ifElse with
  | error error =>
    rw [hanalyze] at hcfg
    cases hcfg
  | ok cfg =>
  rw [hanalyze] at hcfg
  obtain ⟨h12, h21⟩ := Prod.mk.inj (Option.some.inj hcfg)
  refine ⟨cfg, rfl, fun parent parentBlock cond trueBlock falseBlock b value hattached havoid => ?_⟩
  have hblocks : ∀ b block, ifElse.blocks.lookup b = some block →
      block.terminator = .branch 0 (1, []) (2, []) ∧ b = 0 ∨ block.terminator = .ret := by
    intro b block hb
    have hmem := AList.mem_lookup_iff.mp hb
    rw [show ifElse.blocks.entries = [⟨0, _⟩, ⟨1, _⟩, ⟨2, _⟩] from rfl] at hmem
    rcases List.mem_cons.mp hmem with heq | hmem
    · cases heq
      exact .inl ⟨rfl, rfl⟩
    · rcases List.mem_pair.mp hmem with heq | heq <;> cases heq <;> exact .inr rfl
  obtain ⟨hlookup, hterm, -, htarget⟩ := hattached
  rcases hblocks parent parentBlock hlookup with ⟨hbranch, rfl⟩ | hret
  · rw [hbranch] at hterm
    cases hterm
    -- the other target returns, so it is the block itself
    have hsame : otherTarget 1 2 value = b := by
      rcases havoid.2.cases_head with heq | ⟨next, ⟨hflow, -⟩, -⟩
      · exact heq
      · obtain ⟨-, block, hb, hsucc⟩ := ExecutionUnit.flow_iff.mp hflow
        rcases hblocks _ block hb with ⟨-, hzero⟩ | hret
        · exact absurd hzero havoid.1
        · rw [hret] at hsucc
          cases hsucc
    subst hsame
    cases value with
    | true => exact Bool.false_ne_true (h12.symm.trans htarget)
    | false => exact Bool.false_ne_true (h21.symm.trans htarget.2)
  · rw [hret] at hterm
    cases hterm

theorem predicateFacts_hold_ifElse : ∃ cfg facts, SirCfg.analyzeForward ifElse = .ok cfg ∧
    predicateFacts ifElse cfg = some facts ∧
    ∀ c, ReflTransGen (ifElse.Goes (BitModel.plain Unit).machine)
        (ifElse.start (fun _ _ => (false, false)) []) c →
      ∀ i : Nat, cfg.blockIds[i]? = some c.block → ∀ fact ∈ facts[i]?.getD [],
        Holds (BitModel.plain Unit).machine ifElse c.state.regs fact := by
  obtain ⟨cfg, hcfg, hedges⟩ := ifElse_onEdges
  obtain ⟨facts, hfacts, hhold⟩ := predicateFacts_hold (by decide) hcfg hedges
  exact ⟨cfg, facts, hcfg, hfacts, fun c => hhold _ _ c⟩

/-- The block behind the conditional one is reached with a condition that is one, and is taken to be
reached with zero. -/
theorem ifWithoutElse_joined : ifWithoutElse.verifyResult = .ok () ∧ ∃ cfg facts c,
    SirCfg.analyzeForward ifWithoutElse = .ok cfg ∧ predicateFacts ifWithoutElse cfg = some facts ∧
      ReflTransGen (ifWithoutElse.Goes (BitModel.plain Unit).machine)
        (ifWithoutElse.start (fun _ _ => (false, false)) []) c ∧
      ∃ i : Nat, cfg.blockIds[i]? = some c.block ∧ ∃ fact ∈ facts[i]?.getD [],
        ¬ Holds (BitModel.plain Unit).machine ifWithoutElse c.state.regs fact := by
  have hcfg : ((SirCfg.analyzeForward ifWithoutElse).toOption.map fun cfg =>
      (cfg.blockIds, predicateFacts ifWithoutElse cfg)) =
        some ([0, 1, 2], some [[], [(0, true)], [(0, false)]]) := by decide +kernel
  cases hanalyze : SirCfg.analyzeForward ifWithoutElse with
  | error error =>
    rw [hanalyze] at hcfg
    cases hcfg
  | ok cfg =>
    rw [hanalyze] at hcfg
    obtain ⟨hids, hfacts⟩ := Prod.mk.inj (Option.some.inj hcfg)
    have hgo : ∀ {c c'}, ifWithoutElse.step (BitModel.plain Unit).machine c = .goto c' →
        ifWithoutElse.Goes (BitModel.plain Unit).machine c c' := id
    obtain ⟨s, hrun, hone⟩ : ∃ s, ReflTransGen (ifWithoutElse.Goes (BitModel.plain Unit).machine)
        (ifWithoutElse.start (fun _ _ => (false, false)) []) ⟨2, 0, s⟩ ∧ s.regs 0 = some ⟨1, 0⟩ :=
      ⟨_, ((ReflTransGen.single (hgo rfl)).tail (hgo rfl)).tail (hgo rfl), rfl⟩
    refine ⟨by decide, cfg, _, ⟨2, 0, s⟩, rfl, hfacts, hrun, 2, by rw [hids]; rfl, (0, false), by simp,
      fun ⟨typed, hop, htruthy⟩ => ?_⟩
    have htyped : typed = (.bit 1 false, ⟨1, 0⟩) := by
      simp only [ExecutionUnit.operand, hone] at hop
      exact (Option.some.inj hop).symm
    rw [htyped] at htruthy
    cases htruthy

end Celox.Opt
