import Celox.Sir.Semantics

/-! # Running block by block

A run passes its blocks one after the other, each from its first instruction to its terminator. Two
units whose blocks do the same to related states run alike. -/
namespace Celox.Sir
open Relation

variable {A : Type}

/-- One configuration after the other, as a relation. -/
def ExecutionUnit.Goes {S : Type} (m : Machine A S) (eu : ExecutionUnit A) (c c' : Config A S) :
    Prop := eu.step m c = .goto c'

section Congr
variable {S : Type} {m : Machine A S} {eu eu' : ExecutionUnit A}

theorem execInstruction_congr (h : eu'.registerMap = eu.registerMap) (s : State A S)
    (inst : SIRInstruction A) : eu'.execInstruction m s inst = eu.execInstruction m s inst := by
  have hoperand : eu'.operand = eu.operand := by
    funext regs reg
    unfold ExecutionUnit.operand
    rw [h]
  have hassign : ∀ dst value, eu'.assign s dst value = eu.assign s dst value := by
    intro dst value
    unfold ExecutionUnit.assign ExecutionUnit.kept
    rw [h]
  cases inst <;> simp only [ExecutionUnit.execInstruction, hoperand, hassign, h]

/-- Entering a block depends on nothing but its parameters. -/
theorem enter_congr (hparams : ∀ b, (eu'.blocks.lookup b).map (·.params) =
    (eu.blocks.lookup b).map (·.params)) (s : State A S) (target : BlockId)
    (args : List RegisterId) : eu'.enter s target args = eu.enter s target args := by
  have h := hparams target
  unfold ExecutionUnit.enter
  cases hb : eu.blocks.lookup target with
  | none =>
    rw [hb, Option.map_none, Option.map_eq_none_iff] at h
    rw [h]
  | some block =>
    rw [hb, Option.map_some, Option.map_eq_some_iff] at h
    obtain ⟨block', hb', heq⟩ := h
    have hlength : block'.params = block.params := heq
    rw [hb']
    cases args.mapM s.regs with
    | none => rfl
    | some values => simp only [hlength]

theorem execTerminator_congr (hparams : ∀ b, (eu'.blocks.lookup b).map (·.params) =
    (eu.blocks.lookup b).map (·.params)) (hregs : eu'.registerMap = eu.registerMap)
    (s : State A S) (terminator : SIRTerminator) :
    eu'.execTerminator m s terminator = eu.execTerminator m s terminator := by
  cases terminator <;>
    simp only [ExecutionUnit.execTerminator, ExecutionUnit.operand, hregs, enter_congr hparams]

end Congr

section Terminator
variable {S : Type} {m : Machine A S} {eu : ExecutionUnit A}

/-- What a terminator does with a state that has the same registers. -/
def Next.withMemory (memory : S) (trace : List (Effect A)) : Next A S → Next A S
  | .goto c => .goto ⟨c.block, c.index, ⟨c.state.regs, memory, trace⟩⟩
  | .done outcome s => .done outcome ⟨s.regs, memory, trace⟩

theorem enter_withMemory (s : State A S) (memory : S) (trace : List (Effect A))
    (target : BlockId) (args : List RegisterId) :
    eu.enter ⟨s.regs, memory, trace⟩ target args = (eu.enter s target args).withMemory memory trace := by
  unfold ExecutionUnit.enter
  cases eu.blocks.lookup target with
  | none => rfl
  | some block =>
    cases args.mapM s.regs with
    | none => rfl
    | some values =>
      simp only
      split <;> rfl

theorem execTerminator_withMemory (s : State A S) (memory : S) (trace : List (Effect A))
    (terminator : SIRTerminator) : eu.execTerminator m ⟨s.regs, memory, trace⟩ terminator =
      (eu.execTerminator m s terminator).withMemory memory trace := by
  cases terminator with
  | jump target args => exact enter_withMemory s memory trace target args
  | branch cond trueBlock falseBlock =>
    simp only [ExecutionUnit.execTerminator]
    cases eu.operand s.regs cond with
    | none => rfl
    | some typed =>
      simp only
      split <;> exact enter_withMemory s memory trace _ _
  | switch selector cases default =>
    simp only [ExecutionUnit.execTerminator]
    cases s.regs selector with
    | none => rfl
    | some value =>
      simp only
      split <;> exact enter_withMemory s memory trace _ _
  | ret => rfl
  | error code => rfl

/-- Control goes to the front of a successor, and nothing but registers changes. -/
theorem enter_goto {s : State A S} {target : BlockId} {args : List RegisterId} {c : Config A S}
    (h : eu.enter s target args = .goto c) : c.block = target ∧ c.index = 0 ∧
      c.state.memory = s.memory ∧ c.state.trace = s.trace ∧ (eu.blocks.lookup target).isSome := by
  unfold ExecutionUnit.enter at h
  split at h
  · rename_i block values hb hvalues
    split at h
    · cases h
      exact ⟨rfl, rfl, rfl, rfl, by rw [hb]; rfl⟩
    · cases h
  · cases h

theorem execTerminator_goto {s : State A S} {terminator : SIRTerminator} {c : Config A S}
    (h : eu.execTerminator m s terminator = .goto c) : c.block ∈ terminator.successorIds ∧
      c.index = 0 ∧ c.state.memory = s.memory ∧ c.state.trace = s.trace ∧
      (eu.blocks.lookup c.block).isSome := by
  cases terminator with
  | jump target args =>
    obtain ⟨hblock, hrest⟩ := enter_goto h
    exact ⟨hblock ▸ List.mem_singleton_self _, hblock ▸ hrest⟩
  | branch cond trueBlock falseBlock =>
    simp only [ExecutionUnit.execTerminator] at h
    split at h
    · cases h
    · split at h
      · obtain ⟨hblock, hrest⟩ := enter_goto h
        exact ⟨hblock ▸ by simp [SIRTerminator.successorIds], hblock ▸ hrest⟩
      · obtain ⟨hblock, hrest⟩ := enter_goto h
        exact ⟨hblock ▸ by simp [SIRTerminator.successorIds], hblock ▸ hrest⟩
  | switch selector cases default =>
    simp only [ExecutionUnit.execTerminator] at h
    split at h
    · cases h
    · split at h
      · rename_i case hcase
        obtain ⟨hblock, hrest⟩ := enter_goto h
        refine ⟨?_, hblock ▸ hrest⟩
        rw [hblock, SIRTerminator.successorIds]
        exact List.mem_append_left _ (List.mem_map_of_mem (List.mem_of_find?_eq_some hcase))
      · obtain ⟨hblock, hrest⟩ := enter_goto h
        exact ⟨hblock ▸ by simp [SIRTerminator.successorIds], hblock ▸ hrest⟩
  | ret => cases h
  | error code => cases h

theorem execTerminator_done {s t : State A S} {terminator : SIRTerminator} {outcome : Outcome}
    (h : eu.execTerminator m s terminator = .done outcome t) : t = s := by
  have henter : ∀ target args, eu.enter s target args = .done outcome t → t = s := by
    intro target args h
    unfold ExecutionUnit.enter at h
    split at h
    · split at h <;> cases h
      rfl
    · cases h
      rfl
  cases terminator with
  | jump target args => exact henter _ _ h
  | branch cond trueBlock falseBlock =>
    simp only [ExecutionUnit.execTerminator] at h
    split at h
    · cases h
      rfl
    · split at h <;> exact henter _ _ h
  | switch selector cases default =>
    simp only [ExecutionUnit.execTerminator] at h
    split at h
    · cases h
      rfl
    · split at h <;> exact henter _ _ h
  | ret => cases h; rfl
  | error code => cases h; rfl

end Terminator

section Execute
variable {S : Type} (m : Machine A S) (eu : ExecutionUnit A)

def ExecutionUnit.execList (s : State A S) : List (SIRInstruction A) → Option (State A S)
  | [] => some s
  | inst :: rest => (eu.execInstruction m s inst).bind fun t => execList t rest

/-- A block is entered in a state. -/
inductive ExecutionUnit.Visits (memory : S) : BlockId → State A S → Prop
  | start : Visits memory eu.entryBlockId (eu.start memory []).state
  | next {b : BlockId} {block : BasicBlock A} {s t : State A S} {c : Config A S} :
    Visits memory b s → eu.blocks.lookup b = some block →
      eu.execList m s block.instructions = some t →
      eu.execTerminator m t block.terminator = .goto c → Visits memory c.block c.state

variable {m eu} {s t : State A S} {b : BlockId} {block : BasicBlock A} {memory : S}

theorem execList_append (first second : List (SIRInstruction A)) :
    eu.execList m s (first ++ second) =
      (eu.execList m s first).bind fun t => eu.execList m t second := by
  induction first generalizing s with
  | nil => rfl
  | cons inst first ih =>
    rw [List.cons_append, ExecutionUnit.execList, ExecutionUnit.execList, Option.bind_assoc]
    exact congrArg _ (funext fun t => ih)

theorem execList_congr {eu' : ExecutionUnit A} (h : eu'.registerMap = eu.registerMap)
    (list : List (SIRInstruction A)) : eu'.execList m s list = eu.execList m s list := by
  induction list generalizing s with
  | nil => rfl
  | cons inst list ih =>
    rw [ExecutionUnit.execList, ExecutionUnit.execList, execInstruction_congr h]
    exact congrArg _ (funext fun t => ih)

theorem execList_singleton (inst : SIRInstruction A) :
    eu.execList m s [inst] = eu.execInstruction m s inst := by
  rw [ExecutionUnit.execList]
  cases eu.execInstruction m s inst <;> rfl

/-- A list of instructions is executed in a block. -/
theorem execList_goes (hb : eu.blocks.lookup b = some block) {instructions : List (SIRInstruction A)}
    {i : Nat} (hinst : ∀ k inst, instructions[k]? = some inst →
      block.instructions[i + k]? = some inst) (h : eu.execList m s instructions = some t) :
    ReflTransGen (eu.Goes m) ⟨b, i, s⟩ ⟨b, i + instructions.length, t⟩ := by
  induction instructions generalizing s i with
  | nil =>
    cases h
    exact .refl
  | cons inst instructions ih =>
    obtain ⟨u, hu, hrest⟩ := Option.bind_eq_some_iff.mp h
    have hgo : eu.Goes m ⟨b, i, s⟩ ⟨b, i + 1, u⟩ := by
      unfold ExecutionUnit.Goes ExecutionUnit.step
      simp only [hb]
      have hget := hinst 0 inst rfl
      rw [Nat.add_zero] at hget
      simp only [hget, hu]
    refine .head hgo ?_
    have htail := ih (i := i + 1) (fun k inst hk => by
      rw [Nat.add_assoc, Nat.add_comm 1 k]
      exact hinst (k + 1) inst hk) hrest
    rwa [List.length_cons, Nat.add_comm instructions.length, ← Nat.add_assoc]

theorem execList_block (hb : eu.blocks.lookup b = some block)
    (h : eu.execList m s block.instructions = some t) :
    ReflTransGen (eu.Goes m) ⟨b, 0, s⟩ ⟨b, block.instructions.length, t⟩ := by
  have hrun := execList_goes (i := 0) hb (fun k inst hk => by rwa [Nat.zero_add]) h
  rwa [Nat.zero_add] at hrun

theorem step_terminator (hb : eu.blocks.lookup b = some block) :
    eu.step m ⟨b, block.instructions.length, s⟩ = eu.execTerminator m s block.terminator := by
  unfold ExecutionUnit.step
  simp only [hb, List.getElem?_eq_none (le_refl block.instructions.length)]

theorem ExecutionUnit.Visits.reached (h : eu.Visits m memory b s) :
    ReflTransGen (eu.Goes m) (eu.start memory []) ⟨b, 0, s⟩ := by
  induction h with
  | start => exact .refl
  | @next b block s t c _ hb hexec hgo ih =>
    have hindex := (execTerminator_goto hgo).2.1
    have hstep : eu.Goes m ⟨b, block.instructions.length, t⟩ c := (step_terminator hb).trans hgo
    obtain ⟨target, i, u⟩ := c
    cases hindex
    exact (ih.trans (execList_block hb hexec)).tail hstep

/-- Every configuration of a run is in a block that was entered before. -/
theorem reached_visits {c : Config A S}
    (h : ReflTransGen (eu.Goes m) (eu.start memory []) c) :
    ∃ s, eu.Visits m memory c.block s ∧ ∀ block, eu.blocks.lookup c.block = some block →
      c.index ≤ block.instructions.length ∧
        eu.execList m s (block.instructions.take c.index) = some c.state := by
  induction h with
  | refl => exact ⟨_, .start, fun block _ => ⟨Nat.zero_le _, rfl⟩⟩
  | @tail c d _ hgo ih =>
    obtain ⟨s, hvisit, hblock⟩ := ih
    unfold ExecutionUnit.Goes ExecutionUnit.step at hgo
    cases hb : eu.blocks.lookup c.block with
    | none =>
      rw [hb] at hgo
      cases hgo
    | some block =>
      obtain ⟨hle, hexec⟩ := hblock block hb
      rw [hb] at hgo
      simp only at hgo
      cases hi : block.instructions[c.index]? with
      | some inst =>
        rw [hi] at hgo
        simp only at hgo
        cases hinst : eu.execInstruction m c.state inst with
        | none =>
          rw [hinst] at hgo
          cases hgo
        | some t =>
          rw [hinst] at hgo
          cases hgo
          refine ⟨s, hvisit, fun block' hb' => ?_⟩
          obtain rfl := Option.some.inj (hb.symm.trans hb')
          have htake : block.instructions.take (c.index + 1) =
              block.instructions.take c.index ++ [inst] := by
            rw [List.take_add_one, hi]
            rfl
          refine ⟨(List.getElem?_eq_some_iff.mp hi).1, ?_⟩
          rw [htake, execList_append, hexec, Option.bind_some, execList_singleton, hinst]
      | none =>
        rw [hi] at hgo
        simp only at hgo
        have hlength := Nat.le_antisymm hle (List.getElem?_eq_none_iff.mp hi)
        rw [hlength, List.take_length] at hexec
        refine ⟨d.state, .next hvisit hb hexec hgo, fun block' _ => ?_⟩
        rw [(execTerminator_goto hgo).2.1]
        exact ⟨Nat.zero_le _, rfl⟩

/-- The configuration after some steps, if the run goes on for so long. -/
def ExecutionUnit.after (m : Machine A S) (eu : ExecutionUnit A) : Nat → Config A S → Option (Config A S)
  | 0, c => some c
  | n + 1, c =>
    match eu.step m c with
    | .goto next => eu.after m n next
    | .done _ _ => none

theorem reaches_iff_after {c c' : Config A S} :
    ReflTransGen (eu.Goes m) c c' ↔ ∃ n, eu.after m n c = some c' := by
  constructor
  · intro h
    induction h using ReflTransGen.head_induction_on with
    | refl => exact ⟨0, rfl⟩
    | head hgo _ ih =>
      obtain ⟨n, hn⟩ := ih
      refine ⟨n + 1, ?_⟩
      rw [ExecutionUnit.after, show eu.step m _ = _ from hgo]
      exact hn
  · rintro ⟨n, hn⟩
    induction n generalizing c with
    | zero =>
      cases hn
      exact .refl
    | succ n ih =>
      unfold ExecutionUnit.after at hn
      split at hn
      · rename_i next hgo
        exact .head hgo (ih hn)
      · cases hn

/-- A run that ended stays so. -/
theorem after_ended {c : Config A S} {n k : Nat} (h : eu.after m n c = none) (hle : n ≤ k) :
    eu.after m k c = none := by
  induction n generalizing c k with
  | zero => cases h
  | succ n ih =>
    obtain ⟨k, rfl⟩ := Nat.exists_eq_succ_of_ne_zero (show k ≠ 0 by omega)
    unfold ExecutionUnit.after at h ⊢
    split
    · rename_i next hgo
      rw [hgo] at h
      exact ih h (by omega)
    · rfl

/-- A unit of one block without edges. -/
structure ExecutionUnit.Straight (eu : ExecutionUnit A) (block : BasicBlock A) : Prop where
  blocks : eu.blocks.entries = [⟨eu.entryBlockId, block⟩]
  edges : block.terminator.successorIds = []

theorem ExecutionUnit.Straight.only {block' : BasicBlock A} (h : eu.Straight block)
    (hb : eu.blocks.lookup b = some block') : b = eu.entryBlockId ∧ block' = block := by
  have hmem := AList.mem_lookup_iff.mp hb
  rw [h.blocks, List.mem_singleton] at hmem
  cases hmem
  exact ⟨rfl, rfl⟩

theorem ExecutionUnit.Straight.visits (h : eu.Straight block) (hvisit : eu.Visits m memory b s) :
    b = eu.entryBlockId ∧ s = (eu.start memory []).state := by
  cases hvisit with
  | start => exact ⟨rfl, rfl⟩
  | next _ hb _ hgo =>
    have hmem := (execTerminator_goto hgo).1
    obtain ⟨-, rfl⟩ := h.only hb
    rw [h.edges] at hmem
    cases hmem

/-- What a run has at the end of the only block. -/
theorem ExecutionUnit.Straight.exec (h : eu.Straight block) {c : Config A S}
    (hrun : ReflTransGen (eu.Goes m) (eu.start memory []) c) :
    eu.execList m (eu.start memory []).state (block.instructions.take c.index) = some c.state := by
  obtain ⟨u, hvisit, hindex⟩ := reached_visits hrun
  obtain ⟨hentry, rfl⟩ := h.visits hvisit
  refine (hindex block ?_).2
  rw [hentry]
  exact AList.mem_lookup_iff.mpr (h.blocks ▸ List.mem_singleton_self _)

end Execute

/-! ## Alike block by block -/

section Alike
variable {S : Type} (m m' : Machine A S) (eu eu' : ExecutionUnit A)

/-- Two outcomes of a terminator with related states. -/
inductive Next.Related (R : State A S → State A S → Prop) : Next A S → Next A S → Prop
  | goto {b : BlockId} {i : Nat} {s s' : State A S} :
    R s s' → Related R (.goto ⟨b, i, s⟩) (.goto ⟨b, i, s'⟩)
  | done {outcome : Outcome} {s s' : State A S} :
    R s s' → Related R (.done outcome s) (.done outcome s')

/-- Related states stay related through every block, as far as it is executed in a state that meets
a condition. -/
structure BlocksAlike (meets : BlockId → State A S → Prop) (R : State A S → State A S → Prop) :
    Prop where
  entry : eu'.entryBlockId = eu.entryBlockId
  start : ∀ memory, R (eu.start memory []).state (eu'.start memory []).state
  body : ∀ b block, eu.blocks.lookup b = some block → ∃ block', eu'.blocks.lookup b = some block' ∧
    block'.terminator = block.terminator ∧ ∀ s s' t, meets b s → R s s' →
      eu.execList m s block.instructions = some t →
      ∃ t', eu'.execList m' s' block'.instructions = some t' ∧ R t t'
  terminator : ∀ b block s s', eu.blocks.lookup b = some block → R s s' →
    (eu.execTerminator m s block.terminator).Related R
      (eu'.execTerminator m' s' block.terminator)

/-- Wherever a run has executed a block, a run of the other unit has, and both end alike. -/
def EndsAlike (memory : S) (R : State A S → State A S → Prop) : Prop :=
  ∀ b block s, eu.blocks.lookup b = some block →
    ReflTransGen (eu.Goes m) (eu.start memory []) ⟨b, block.instructions.length, s⟩ →
    ∃ block' s', eu'.blocks.lookup b = some block' ∧ ReflTransGen (eu'.Goes m')
        (eu'.start memory []) ⟨b, block'.instructions.length, s'⟩ ∧ R s s' ∧
      (eu.step m ⟨b, block.instructions.length, s⟩).Related R
        (eu'.step m' ⟨b, block'.instructions.length, s'⟩)

/-- Every run goes the same way in the other unit, with related states inside of the blocks and
behind them. -/
structure RunsAlike (memory : S) (R : State A S → State A S → Prop) : Prop where
  reaches : ∀ c, ReflTransGen (eu.Goes m) (eu.start memory []) c →
    ∃ c', ReflTransGen (eu'.Goes m') (eu'.start memory []) c' ∧ c'.block = c.block ∧
      R c.state c'.state
  ends : EndsAlike m m' eu eu' memory R

variable {m m' eu eu'} {meets : BlockId → State A S → Prop} {R : State A S → State A S → Prop}
  {memory : S} {b : BlockId} {s : State A S}

theorem Next.Related.mono {R' : State A S → State A S → Prop} {next next' : Next A S}
    (h : next.Related R next') (hR : ∀ s s', R s s' → R' s s') : next.Related R' next' := by
  cases h with
  | goto hr => exact .goto (hR _ _ hr)
  | done hr => exact .done (hR _ _ hr)

theorem Next.Related.refl (hR : ∀ s, R s s) (next : Next A S) : next.Related R next := by
  cases next with
  | goto c => exact .goto (hR c.state)
  | done outcome s => exact .done (hR s)

theorem EndsAlike.refl (hR : ∀ s, R s s) : EndsAlike m m eu eu memory R := fun _ block s hb hrun =>
  ⟨block, s, hb, hrun, hR s, .refl hR _⟩

theorem EndsAlike.mono {R' : State A S → State A S → Prop} (h : EndsAlike m m' eu eu' memory R)
    (hR : ∀ s s', R s s' → R' s s') : EndsAlike m m' eu eu' memory R' := by
  intro b block s hb hrun
  obtain ⟨block', s', hb', hrun', hr, hnext⟩ := h b block s hb hrun
  exact ⟨block', s', hb', hrun', hR s s' hr, hnext.mono hR⟩

theorem Next.Related.trans {R' : State A S → State A S → Prop} {next next' next'' : Next A S}
    (h : next.Related R next') (h' : next'.Related R' next'') :
    next.Related (fun s s'' => ∃ s', R s s' ∧ R' s' s'') next'' := by
  cases h with
  | goto hr =>
    cases h' with
    | goto hr' => exact .goto ⟨_, hr, hr'⟩
  | done hr =>
    cases h' with
    | done hr' => exact .done ⟨_, hr, hr'⟩

/-- One unit after another one. -/
theorem EndsAlike.trans {m'' : Machine A S} {eu'' : ExecutionUnit A}
    {R' : State A S → State A S → Prop} (h : EndsAlike m m' eu eu' memory R)
    (h' : EndsAlike m' m'' eu' eu'' memory R') :
    EndsAlike m m'' eu eu'' memory fun s s'' => ∃ s', R s s' ∧ R' s' s'' := by
  intro b block s hb hrun
  obtain ⟨block', s', hb', hrun', hr, hend⟩ := h b block s hb hrun
  obtain ⟨block'', s'', hb'', hrun'', hr', hend'⟩ := h' b block' s' hb' hrun'
  exact ⟨block'', s'', hb'', hrun'', ⟨s', hr, hr'⟩, hend.trans hend'⟩

theorem BlocksAlike.visits (h : BlocksAlike m m' eu eu' meets R)
    (hmeets : ∀ b s, eu.Visits m memory b s → meets b s) (hvisit : eu.Visits m memory b s) :
    ∃ s', eu'.Visits m' memory b s' ∧ R s s' := by
  induction hvisit with
  | start =>
    refine ⟨(eu'.start memory []).state, ?_, h.start memory⟩
    have hstart : eu'.Visits m' memory eu'.entryBlockId (eu'.start memory []).state := .start
    rwa [h.entry] at hstart
  | @next b block s t c hvisit hb hexec hgo ih =>
    obtain ⟨s', hvisit', hr⟩ := ih
    obtain ⟨block', hb', hterminator, hbody⟩ := h.body b block hb
    obtain ⟨t', hexec', hr'⟩ := hbody s s' t (hmeets b s hvisit) hr hexec
    have hnext := h.terminator b block t t' hb hr'
    rw [hgo] at hnext
    generalize hgo' : eu'.execTerminator m' t' block.terminator = next at hnext
    cases hnext with
    | @goto target i u u' hr'' =>
      exact ⟨u', .next hvisit' hb' hexec' (hterminator ▸ hgo'), hr''⟩

theorem BlocksAlike.ends (h : BlocksAlike m m' eu eu' meets R)
    (hmeets : ∀ b s, eu.Visits m memory b s → meets b s) : EndsAlike m m' eu eu' memory R := by
  intro b block s hb hrun
  obtain ⟨u, hvisit, hindex⟩ := reached_visits hrun
  have hexec := (hindex block hb).2
  rw [List.take_length] at hexec
  obtain ⟨u', hvisit', hr⟩ := h.visits hmeets hvisit
  obtain ⟨block', hb', hterminator, hbody⟩ := h.body b block hb
  obtain ⟨s', hexec', hr'⟩ := hbody u u' s (hmeets b u hvisit) hr hexec
  refine ⟨block', s', hb', hvisit'.reached.trans (execList_block hb' hexec'), hr', ?_⟩
  rw [step_terminator hb, step_terminator hb', hterminator]
  exact h.terminator b block s s' hb hr'

/-- Wherever a run is inside of a block, a run of the other unit is with a related state, if it can
stop inside of the blocks too. -/
theorem BlocksAlike.reaches (h : BlocksAlike m m' eu eu' meets R)
    (hmeets : ∀ b s, eu.Visits m memory b s → meets b s)
    (hentry : (eu.blocks.lookup eu.entryBlockId).isSome)
    (hfront : ∀ b block block', eu.blocks.lookup b = some block →
      eu'.blocks.lookup b = some block' → ∀ s s' t front back, meets b s → R s s' →
      block.instructions = front ++ back → eu.execList m s front = some t →
      ∃ front' back' t', block'.instructions = front' ++ back' ∧
        eu'.execList m' s' front' = some t' ∧ R t t') {c : Config A S}
    (hrun : ReflTransGen (eu.Goes m) (eu.start memory []) c) :
    ∃ c', ReflTransGen (eu'.Goes m') (eu'.start memory []) c' ∧ c'.block = c.block ∧
      R c.state c'.state := by
  obtain ⟨s, hvisit, hindex⟩ := reached_visits hrun
  obtain ⟨block, hb⟩ : ∃ block, eu.blocks.lookup c.block = some block := by
    refine Option.isSome_iff_exists.mp ?_
    generalize c.block = b at hvisit
    cases hvisit with
    | start => exact hentry
    | next _ _ _ hgo => exact (execTerminator_goto hgo).2.2.2.2
  obtain ⟨s', hvisit', hr⟩ := h.visits hmeets hvisit
  obtain ⟨block', hb', -, -⟩ := h.body c.block block hb
  obtain ⟨front', back', t', hsplit, hexec, hr'⟩ := hfront c.block block block' hb hb' s s' c.state
    _ _ (hmeets _ _ hvisit) hr (List.take_append_drop c.index _).symm (hindex block hb).2
  refine ⟨⟨c.block, 0 + front'.length, t'⟩, hvisit'.reached.trans
    (execList_goes hb' (fun k inst hk => ?_) hexec), rfl, hr'⟩
  rw [hsplit, Nat.zero_add, List.getElem?_append_left (List.getElem?_eq_some_iff.mp hk).1, hk]

/-! ## Relations that depend on the block -/

/-- Control goes to the same place, with states related as the block there demands. -/
inductive Next.RelatedAt (enters : BlockId → State A S → State A S → Prop)
    (R : State A S → State A S → Prop) : Next A S → Next A S → Prop
  | goto {b : BlockId} {i : Nat} {s s' : State A S} :
    enters b s s' → RelatedAt enters R (.goto ⟨b, i, s⟩) (.goto ⟨b, i, s'⟩)
  | done {outcome : Outcome} {s s' : State A S} :
    R s s' → RelatedAt enters R (.done outcome s) (.done outcome s')

/-- A run enters and leaves every block with states related as the block demands. -/
structure BlocksFollow (m m' : Machine A S) (eu eu' : ExecutionUnit A) (memory : S)
    (enters leaves : BlockId → State A S → State A S → Prop) (R : State A S → State A S → Prop) :
    Prop where
  entry : eu'.entryBlockId = eu.entryBlockId
  start : enters eu.entryBlockId (eu.start memory []).state (eu'.start memory []).state
  body : ∀ b block, eu.blocks.lookup b = some block → ∃ block', eu'.blocks.lookup b = some block' ∧
    block'.terminator = block.terminator ∧ ∀ s s' t, eu.Visits m memory b s → enters b s s' →
      eu.execList m s block.instructions = some t →
      ∃ t', eu'.execList m' s' block'.instructions = some t' ∧ leaves b t t'
  terminator : ∀ b block s s', eu.blocks.lookup b = some block → leaves b s s' →
    (eu.execTerminator m s block.terminator).RelatedAt enters R
      (eu'.execTerminator m' s' block.terminator)

theorem Next.RelatedAt.mono {enters : BlockId → State A S → State A S → Prop} {next next' : Next A S}
    (h : next.RelatedAt enters R next') (henters : ∀ b s s', enters b s s' → R s s') :
    next.Related R next' := by
  cases h with
  | goto hr => exact .goto (henters _ _ _ hr)
  | done hr => exact .done hr

section Follow
variable {enters leaves : BlockId → State A S → State A S → Prop}

theorem BlocksFollow.visits (h : BlocksFollow m m' eu eu' memory enters leaves R)
    (hvisit : eu.Visits m memory b s) : ∃ s', eu'.Visits m' memory b s' ∧ enters b s s' := by
  induction hvisit with
  | start =>
    refine ⟨(eu'.start memory []).state, ?_, h.start⟩
    have hstart : eu'.Visits m' memory eu'.entryBlockId (eu'.start memory []).state := .start
    rwa [h.entry] at hstart
  | @next b block s t c hvisit hb hexec hgo ih =>
    obtain ⟨s', hvisit', hr⟩ := ih
    obtain ⟨block', hb', hterminator, hbody⟩ := h.body b block hb
    obtain ⟨t', hexec', hr'⟩ := hbody s s' t hvisit hr hexec
    have hnext := h.terminator b block t t' hb hr'
    rw [hgo] at hnext
    generalize hgo' : eu'.execTerminator m' t' block.terminator = next at hnext
    cases hnext with
    | @goto target i u u' henters =>
      exact ⟨u', .next hvisit' hb' hexec' (hterminator ▸ hgo'), henters⟩

/-- Wherever a run of the one unit is at the end of a block, a run of the other one is. -/
theorem BlocksFollow.leaving (h : BlocksFollow m m' eu eu' memory enters leaves R) {b : BlockId}
    {block : BasicBlock A} {s : State A S} (hb : eu.blocks.lookup b = some block)
    (hrun : ReflTransGen (eu.Goes m) (eu.start memory []) ⟨b, block.instructions.length, s⟩) :
    ∃ block' s', eu'.blocks.lookup b = some block' ∧ block'.terminator = block.terminator ∧
      ReflTransGen (eu'.Goes m') (eu'.start memory []) ⟨b, block'.instructions.length, s'⟩ ∧
      leaves b s s' := by
  obtain ⟨u, hvisit, hindex⟩ := reached_visits hrun
  have hexec := (hindex block hb).2
  rw [List.take_length] at hexec
  obtain ⟨u', hvisit', hr⟩ := h.visits hvisit
  obtain ⟨block', hb', hterminator, hbody⟩ := h.body b block hb
  obtain ⟨s', hexec', hr'⟩ := hbody u u' s hvisit hr hexec
  exact ⟨block', s', hb', hterminator, hvisit'.reached.trans (execList_block hb' hexec'), hr'⟩

theorem BlocksFollow.ends (h : BlocksFollow m m' eu eu' memory enters leaves R)
    (henters : ∀ b s s', enters b s s' → R s s') (hleaves : ∀ b s s', leaves b s s' → R s s') :
    EndsAlike m m' eu eu' memory R := by
  intro b block s hb hrun
  obtain ⟨block', s', hb', hterminator, hrun', hr⟩ := h.leaving hb hrun
  refine ⟨block', s', hb', hrun', hleaves b s s' hr, ?_⟩
  rw [step_terminator hb, step_terminator hb', hterminator]
  exact (h.terminator b block s s' hb hr).mono henters

end Follow
end Alike
end Celox.Sir
