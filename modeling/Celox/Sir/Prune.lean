import Celox.Sir.BitMemory
import Celox.Sir.Blocks
import Celox.Sir.Points

/-! # Units with instructions left out

An instruction may go if nothing that counts can tell that it is gone: it defines no register, and
what it writes is written again before it is read. The unit without such instructions runs like the
one with them. -/
namespace Celox.Sir
open Relation

section Keep
variable {I : Type}

/-- What stays of instructions from a position on. -/
def keepFrom (gone : Nat → Bool) : Nat → List I → List I
  | _, [] => []
  | i, inst :: rest =>
    if gone i then keepFrom gone (i + 1) rest else inst :: keepFrom gone (i + 1) rest

theorem keepFrom_drop {gone : Nat → Bool} {instructions : List I} {i : Nat} {inst : I}
    (hi : instructions[i]? = some inst) : keepFrom gone i (instructions.drop i) =
      if gone i then keepFrom gone (i + 1) (instructions.drop (i + 1))
      else inst :: keepFrom gone (i + 1) (instructions.drop (i + 1)) := by
  obtain ⟨hlt, rfl⟩ := List.getElem?_eq_some_iff.mp hi
  rw [List.drop_eq_getElem_cons hlt, keepFrom]

theorem keepFrom_length {gone : Nat → Bool} {instructions : List I} :
    keepFrom gone instructions.length (instructions.drop instructions.length) = [] := by
  rw [List.drop_length]
  rfl

end Keep

variable {A : Type}

def ExecutionUnit.prune (eu : ExecutionUnit A) (gone : BlockId → Nat → Bool) : ExecutionUnit A :=
  eu.mapBlocks fun b block =>
    { block with instructions := keepFrom (gone b) 0 block.instructions }

/-! ## Simulation -/

section Simulation
variable [DecidableEq A] (model : BitModel A) (eu : ExecutionUnit A)

/-- A bit that may be read before it is written again. -/
def ExecutionUnit.BitAhead (eu : ExecutionUnit A) (a : A) (bit : Nat) : BlockId → Nat → Prop :=
  eu.Meets (fun inst => inst.mustWrite a bit) fun inst => inst.mayRead a bit

/-- The instructions that go write no bit that counts. -/
structure Droppable (pinned : A → Prop) (counts : Effect A → Bool) (b : BlockId) (i : Nat)
    (inst : SIRInstruction A) : Prop where
  defines : inst.definedRegister = none
  writes : ∀ a bit, inst.mayWrite a bit → ¬ pinned a ∧ ¬ eu.BitAhead a bit b (i + 1)
  effects : ∀ regs effect, inst.effect regs = some effect → counts effect = false

/-- The same point of both units: the same instructions are left but for those that go, registers
and pinned objects are the same, and so are the effects that count. -/
structure Alike (gone : BlockId → Nat → Bool) (pinned : A → Prop) (counts : Effect A → Bool)
    (c c' : Config A (BitMemory A)) : Prop where
  block : c'.block = c.block
  rest : ∃ body body', eu.blocks.lookup c.block = some body ∧
    (eu.prune gone).blocks.lookup c'.block = some body' ∧ c.index ≤ body.instructions.length ∧
    body'.instructions.drop c'.index = keepFrom (gone c.block) c.index
      (body.instructions.drop c.index)
  regs : c'.state.regs = c.state.regs
  pinned : ∀ a bit, pinned a → c'.state.memory a bit = c.state.memory a bit
  ahead : ∀ a bit, eu.BitAhead a bit c.block c.index → c'.state.memory a bit = c.state.memory a bit
  trace : c'.state.trace.filter counts = c.state.trace.filter counts

variable {model eu} {gone : BlockId → Nat → Bool} {pinned : A → Prop} {counts : Effect A → Bool}
  {c c' d : Config A (BitMemory A)}

omit [DecidableEq A] in
theorem lookup_prune {b : BlockId} : (eu.prune gone).blocks.lookup b =
    (eu.blocks.lookup b).map fun block =>
      { block with instructions := keepFrom (gone b) 0 block.instructions } :=
  ExecutionUnit.lookup_mapBlocks _ b

omit [DecidableEq A] in
theorem params_prune (b : BlockId) : ((eu.prune gone).blocks.lookup b).map (·.params) =
    (eu.blocks.lookup b).map (·.params) := by
  rw [lookup_prune, Option.map_map]
  rfl

omit [DecidableEq A] in
theorem alike_front {b : BlockId} {s s' : State A (BitMemory A)}
    (hb : (eu.blocks.lookup b).isSome) (hregs : s'.regs = s.regs)
    (hpinned : ∀ a bit, pinned a → s'.memory a bit = s.memory a bit)
    (hahead : ∀ a bit, eu.BitAhead a bit b 0 → s'.memory a bit = s.memory a bit)
    (htrace : s'.trace.filter counts = s.trace.filter counts) :
    Alike eu gone pinned counts ⟨b, 0, s⟩ ⟨b, 0, s'⟩ := by
  obtain ⟨block, hblock⟩ := Option.isSome_iff_exists.mp hb
  exact {
    block := rfl
    rest := ⟨block, _, hblock, by rw [lookup_prune, hblock]; rfl, Nat.zero_le _, rfl⟩
    regs := hregs, pinned := hpinned, ahead := hahead, trace := htrace }

/-- An instruction that stays is executed in both units. -/
theorem Alike.keep {block : BasicBlock A} {inst : SIRInstruction A} {t : State A (BitMemory A)}
    (h : Alike eu gone pinned counts c c') (hb : eu.blocks.lookup c.block = some block)
    (hi : block.instructions[c.index]? = some inst) (hgone : gone c.block c.index = false)
    (hexec : eu.execInstruction model.machine c.state inst = some t) :
    ∃ d', (eu.prune gone).step model.machine c' = .goto d' ∧
      Alike eu gone pinned counts ⟨c.block, c.index + 1, t⟩ d' := by
  obtain ⟨body, body', hbody, hbody', hle, hrest⟩ := h.rest
  obtain rfl := Option.some.inj (hb.symm.trans hbody)
  rw [keepFrom_drop hi, hgone] at hrest
  have hi' : body'.instructions[c'.index]? = some inst := by
    have := congrArg (·[0]?) hrest
    simpa using this
  have hdrop : body'.instructions.drop (c'.index + 1) =
      keepFrom (gone c.block) (c.index + 1) (block.instructions.drop (c.index + 1)) := by
    have := congrArg List.tail hrest
    simpa using this
  have hlt := (List.getElem?_eq_some_iff.mp hi).1
  -- what is read is the same, and what is the same before and not written stays the same
  have hreads : ∀ a bit, inst.mayRead a bit → c.state.memory a bit = c'.state.memory a bit :=
    fun a bit hread =>
      (h.ahead a bit ((ExecutionUnit.Meets.at_instruction hb hi).mpr (.inl hread))).symm
  have hkeep : ∀ a bit, (pinned a ∨ eu.BitAhead a bit c.block (c.index + 1)) →
      ¬ inst.mustWrite a bit → c.state.memory a bit = c'.state.memory a bit := by
    rintro a bit (hpin | hahead) hnot
    · exact (h.pinned a bit hpin).symm
    · exact (h.ahead a bit
        ((ExecutionUnit.Meets.at_instruction hb hi).mpr (.inr ⟨hnot, hahead⟩))).symm
  have hstep : ∀ t', eu.execInstruction model.machine c'.state inst = some t' →
      (eu.prune gone).step model.machine c' = .goto ⟨c'.block, c'.index + 1, t'⟩ := by
    intro t' ht'
    unfold ExecutionUnit.step
    rw [hbody']
    simp only
    rw [hi']
    simp only
    rw [execInstruction_congr (show (eu.prune gone).registerMap = eu.registerMap from rfl), ht']
  cases hdef : inst.definedRegister with
  | some dst =>
    rw [execInstruction_value hdef, Option.map_eq_some_iff] at hexec
    obtain ⟨value, hvalue, rfl⟩ := hexec
    have hexec' : eu.execInstruction model.machine c'.state inst =
        some (eu.assign c'.state dst value) := by
      rw [execInstruction_value hdef, h.regs, ← value_congr hreads, hvalue]
      rfl
    refine ⟨_, hstep _ hexec', {
      block := h.block
      rest := ⟨block, body', hb, hbody', hlt, hdrop⟩
      regs := by
        change Function.update c'.state.regs dst _ = Function.update c.state.regs dst _
        rw [h.regs]
      pinned := h.pinned
      ahead := fun a bit hahead => (hkeep a bit (.inr hahead) fun hwrite => ?_).symm
      trace := h.trace }⟩
    cases inst <;> first | exact hwrite | cases hdef
  | none =>
    rw [execInstruction_effect hdef, Option.map_eq_some_iff] at hexec
    obtain ⟨effect, heffect, rfl⟩ := hexec
    have hexec' : eu.execInstruction model.machine c'.state inst =
        some (c'.state.perform model.machine effect) := by
      rw [execInstruction_effect hdef, h.regs, heffect]
      rfl
    have hagree := perform_agree model heffect
      (Q := fun a bit => pinned a ∨ eu.BitAhead a bit c.block (c.index + 1))
      fun a bit hab => hab.elim (hreads a bit) fun hab => hkeep a bit hab.1 hab.2
    exact ⟨_, hstep _ hexec', {
      block := h.block
      rest := ⟨block, body', hb, hbody', hlt, hdrop⟩
      regs := h.regs
      pinned := fun a bit hpin => (hagree a bit (.inl hpin)).symm
      ahead := fun a bit hahead => (hagree a bit (.inr hahead)).symm
      trace := by
        change (c'.state.trace ++ [effect]).filter counts = (c.state.trace ++ [effect]).filter counts
        rw [List.filter_append, List.filter_append, h.trace] }⟩

/-- An instruction that goes leaves the other unit where it is. -/
theorem Alike.drop {block : BasicBlock A} {inst : SIRInstruction A} {t : State A (BitMemory A)}
    (h : Alike eu gone pinned counts c c') (hb : eu.blocks.lookup c.block = some block)
    (hi : block.instructions[c.index]? = some inst) (hgone : gone c.block c.index = true)
    (hdrop : Droppable eu pinned counts c.block c.index inst)
    (hexec : eu.execInstruction model.machine c.state inst = some t) :
    Alike eu gone pinned counts ⟨c.block, c.index + 1, t⟩ c' := by
  obtain ⟨body, body', hbody, hbody', hle, hrest⟩ := h.rest
  obtain rfl := Option.some.inj (hb.symm.trans hbody)
  rw [keepFrom_drop hi, hgone] at hrest
  rw [execInstruction_effect hdrop.defines, Option.map_eq_some_iff] at hexec
  obtain ⟨effect, heffect, rfl⟩ := hexec
  have hframe : ∀ a bit, ¬ inst.mayWrite a bit →
      model.perform c.state.memory effect a bit = c.state.memory a bit := fun a bit hnot =>
    perform_frame heffect hnot
  exact {
    block := h.block
    rest := ⟨block, body', hb, hbody', (List.getElem?_eq_some_iff.mp hi).1, hrest⟩
    regs := h.regs
    pinned := fun a bit hpin => by
      rw [h.pinned a bit hpin]
      exact (hframe a bit fun hwrite => (hdrop.writes a bit hwrite).1 hpin).symm
    ahead := fun a bit hahead => by
      have hnot : ¬ inst.mayWrite a bit := fun hwrite => (hdrop.writes a bit hwrite).2 hahead
      have hmust : ¬ inst.mustWrite a bit := fun hwrite => hnot (by
        cases inst with
        | store addr offset bits =>
          cases offset <;> first | exact hwrite | exact hwrite.2.elim
        | commit src dst offset bits =>
          cases offset <;> first | exact hwrite | exact hwrite.2.elim
        | _ => exact hwrite)
      rw [h.ahead a bit ((ExecutionUnit.Meets.at_instruction hb hi).mpr (.inr ⟨hmust, hahead⟩))]
      exact (hframe a bit hnot).symm
    trace := by
      change _ = (c.state.trace ++ [effect]).filter counts
      rw [List.filter_append, List.filter_singleton, hdrop.effects _ _ heffect, h.trace]
      simp }

/-- The instruction a configuration is at. -/
def ExecutionUnit.instructionAt {S : Type} (eu : ExecutionUnit A) (c : Config A S) :
    Option (SIRInstruction A) :=
  (eu.blocks.lookup c.block).bind fun block => block.instructions[c.index]?

/-- What is read by an instruction that stays is the same. -/
theorem Alike.survives {inst : SIRInstruction A} (h : Alike eu gone pinned counts c c')
    (hinst : eu.instructionAt c = some inst) (hgone : gone c.block c.index = false) :
    (eu.prune gone).instructionAt c' = some inst ∧
      eu.value model.machine c'.state.regs c'.state.memory inst =
        eu.value model.machine c.state.regs c.state.memory inst := by
  obtain ⟨body, body', hbody, hbody', hle, hrest⟩ := h.rest
  unfold ExecutionUnit.instructionAt at hinst ⊢
  rw [hbody, Option.bind_some] at hinst
  rw [hbody', Option.bind_some]
  rw [keepFrom_drop hinst, hgone] at hrest
  rw [if_neg Bool.false_ne_true] at hrest
  have hhead := congrArg (·[0]?) hrest
  simp only [List.getElem?_drop, Nat.add_zero, List.getElem?_cons_zero] at hhead
  refine ⟨hhead, ?_⟩
  rw [h.regs]
  exact value_congr fun a bit hread =>
    h.ahead a bit ((ExecutionUnit.Meets.at_instruction hbody hinst).mpr (.inl hread))

/-- Behind the last instruction both units are at the same terminator. -/
theorem Alike.terminator (model : BitModel A) {block : BasicBlock A} (h : Alike eu gone pinned counts c c')
    (hb : eu.blocks.lookup c.block = some block) (hi : block.instructions[c.index]? = none) :
    (eu.prune gone).step model.machine c' = (eu.execTerminator model.machine c.state
      block.terminator).withMemory c'.state.memory c'.state.trace := by
  obtain ⟨body, body', hbody, hbody', hle, hrest⟩ := h.rest
  obtain rfl := Option.some.inj (hb.symm.trans hbody)
  have hlength : c.index = block.instructions.length :=
    hle.antisymm (List.getElem?_eq_none_iff.mp hi)
  rw [hlength, keepFrom_length, List.drop_eq_nil_iff] at hrest
  have hterminator : body'.terminator = block.terminator := by
    rw [lookup_prune, h.block, hb] at hbody'
    cases hbody'
    rfl
  unfold ExecutionUnit.step
  rw [hbody']
  simp only
  rw [List.getElem?_eq_none hrest]
  simp only
  rw [hterminator, execTerminator_congr params_prune rfl, ← execTerminator_withMemory, ← h.regs]

section Run
variable (hdrop : ∀ b block (i : Nat) inst, eu.blocks.lookup b = some block →
  block.instructions[i]? = some inst → gone b i = true → Droppable eu pinned counts b i inst)
include hdrop

theorem Alike.step (h : Alike eu gone pinned counts c c')
    (hstep : eu.step model.machine c = .goto d) :
    ∃ d', ReflTransGen ((eu.prune gone).Goes model.machine) c' d' ∧
      Alike eu gone pinned counts d d' := by
  obtain ⟨block, -, hb, -⟩ := h.rest
  unfold ExecutionUnit.step at hstep
  rw [hb] at hstep
  simp only at hstep
  cases hi : block.instructions[c.index]? with
  | some inst =>
    rw [hi] at hstep
    simp only at hstep
    cases hexec : eu.execInstruction model.machine c.state inst with
    | none =>
      rw [hexec] at hstep
      cases hstep
    | some t =>
      rw [hexec] at hstep
      cases hstep
      cases hgone : gone c.block c.index with
      | true =>
        exact ⟨c', .refl, h.drop hb hi hgone (hdrop c.block block c.index inst hb hi hgone) hexec⟩
      | false =>
        obtain ⟨d', hgo, halike⟩ := h.keep hb hi hgone hexec
        exact ⟨d', .single hgo, halike⟩
  | none =>
    rw [hi] at hstep
    simp only at hstep
    obtain ⟨hsucc, hindex, hmemory, htrace, hsome⟩ := execTerminator_goto hstep
    have hgo := h.terminator model hb hi
    rw [hstep] at hgo
    refine ⟨_, .single hgo, ?_⟩
    obtain ⟨b, i, t⟩ := d
    cases hindex
    have hlength : c.index = block.instructions.length := by
      obtain ⟨body, -, hbody, -, hle, -⟩ := h.rest
      obtain rfl := Option.some.inj (hb.symm.trans hbody)
      exact hle.antisymm (List.getElem?_eq_none_iff.mp hi)
    refine alike_front hsome rfl (fun a bit hpin => ?_) (fun a bit hahead => ?_) ?_
    · exact (h.pinned a bit hpin).trans (congrFun (congrFun hmemory a) bit).symm
    · refine (h.ahead a bit ?_).trans (congrFun (congrFun hmemory a) bit).symm
      rw [hlength]
      exact (ExecutionUnit.Meets.at_terminator hb).mpr ⟨b, hsucc, hahead⟩
    · exact h.trace.trans (congrArg _ htrace).symm

theorem Alike.run (h : Alike eu gone pinned counts c c')
    (hrun : ReflTransGen (eu.Goes model.machine) c d) :
    ∃ d', ReflTransGen ((eu.prune gone).Goes model.machine) c' d' ∧
      Alike eu gone pinned counts d d' := by
  induction hrun with
  | refl => exact ⟨c', .refl, h⟩
  | tail _ hgo ih =>
    obtain ⟨d', hrun', halike⟩ := ih
    obtain ⟨e', hgo', halike'⟩ := halike.step hdrop hgo
    exact ⟨e', hrun'.trans hgo', halike'⟩

/-- Every run that does not get stuck has one of the unit without the instructions that go. At each
of its points the other one is at the same point, and both end alike. -/
theorem prune_runs {memory : BitMemory A}
    (hrun : ReflTransGen (eu.Goes model.machine) (eu.start memory []) c)
    (hstuck : ∀ s, eu.step model.machine c ≠ .done .stuck s) :
    ∃ c', ReflTransGen ((eu.prune gone).Goes model.machine) ((eu.prune gone).start memory []) c' ∧
      Alike eu gone pinned counts c c' ∧
      ∀ outcome t, eu.step model.machine c = .done outcome t → ∃ t',
        (eu.prune gone).step model.machine c' = .done outcome t' ∧ t'.regs = t.regs ∧
          (∀ a bit, pinned a → t'.memory a bit = t.memory a bit) ∧
          t'.trace.filter counts = t.trace.filter counts := by
  have hentry : (eu.blocks.lookup eu.entryBlockId).isSome := by
    have hlookup : ∀ c : Config A (BitMemory A), (∀ s, eu.step model.machine c ≠ .done .stuck s) →
        (eu.blocks.lookup c.block).isSome := by
      intro c hc
      by_contra hnone
      rw [Bool.not_eq_true, Option.isSome_eq_false_iff, Option.isNone_iff_eq_none] at hnone
      refine hc c.state ?_
      unfold ExecutionUnit.step
      rw [hnone]
    rcases ReflTransGen.cases_head hrun with rfl | ⟨d, hgo, -⟩
    · exact hlookup _ hstuck
    · exact hlookup (eu.start memory []) fun s hs => by
        rw [show eu.step model.machine (eu.start memory []) = _ from hgo] at hs
        cases hs
  have hstart : Alike eu gone pinned counts (eu.start memory [])
      ((eu.prune gone).start memory []) :=
    alike_front hentry rfl (fun _ _ _ => rfl) (fun _ _ _ => rfl) rfl
  obtain ⟨c', hrun', halike⟩ := hstart.run hdrop hrun
  refine ⟨c', hrun', halike, fun outcome t hend => ?_⟩
  obtain ⟨block, -, hb, -⟩ := halike.rest
  have hend' := hend
  unfold ExecutionUnit.step at hend
  rw [hb] at hend
  simp only at hend
  cases hi : block.instructions[c.index]? with
  | some inst =>
    rw [hi] at hend
    simp only at hend
    split at hend
    · cases hend
    · cases hend
      exact absurd hend' (hstuck _)
  | none =>
    rw [hi] at hend
    simp only at hend
    refine ⟨⟨t.regs, c'.state.memory, c'.state.trace⟩, ?_, rfl, ?_⟩
    · rw [halike.terminator _ hb hi, hend]
      rfl
    · cases execTerminator_done hend
      exact ⟨halike.pinned, halike.trace⟩

end Run
end Simulation
end Celox.Sir
