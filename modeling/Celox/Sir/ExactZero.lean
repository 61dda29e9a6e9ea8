import Celox.Sir.Semantics
import Celox.Sir.Verified

/-! # Registers that are exactly zero

`collect_exact_zero_registers`: from the roots down the definitions, with an explicit stack. A
register it finds has value zero in every run. -/
namespace Celox.Sir

variable {A : Type}

/-- `visit_exact_zero_dependencies`: the operands that make a result zero. The condition of a mux
is none of them. -/
def exactZeroDependencies : SIRInstruction A → Option (List RegisterId)
  | .binary _ lhs op rhs =>
    match op with
    | .add | .sub | .mul | .and | .or | .xor | .shl | .shr | .sar => some [lhs, rhs]
    | _ => none
  | .unary _ op src =>
    match op with
    | .ident | .toTwoState | .minus | .or | .xor | .popCount => some [src]
    | _ => none
  | .concat _ args => some args
  | .slice _ src _ _ => some [src]
  | .mux _ _ thenVal elseVal => some [thenVal, elseVal]
  | _ => none

/-- The instruction that defines a register, or nothing where several do. -/
abbrev Definitions (A : Type) := Table RegisterId (Option (SIRInstruction A))

def recordDefinition (definitions : Definitions A) (inst : SIRInstruction A) : Definitions A :=
  match inst.definedRegister with
  | none => definitions
  | some dst => definitions.insert dst (if dst ∈ definitions then none else some inst)

def ExecutionUnit.instructions (eu : ExecutionUnit A) : List (SIRInstruction A) :=
  eu.blocks.entries.flatMap fun entry => entry.2.instructions

def collectDefinitions (eu : ExecutionUnit A) : Definitions A :=
  eu.instructions.foldl recordDefinition ∅

/-- The loop over the stack, with the results so far and the registers in progress. The first
argument bounds the number of passes. -/
def zeroLoop (definitions : Definitions A) : Nat → List (RegisterId × Bool) →
    Table RegisterId Bool → List RegisterId → Option (Table RegisterId Bool × List RegisterId)
  | _, [], result, visiting => some (result, visiting)
  | 0, _ :: _, _, _ => none
  | fuel + 1, (register, expanded) :: work, result, visiting =>
    if register ∈ result then zeroLoop definitions fuel work result (visiting.erase register)
    else
      match (definitions.lookup register).join with
      | none =>
        zeroLoop definitions fuel work (result.insert register false) (visiting.erase register)
      | some inst =>
        if expanded then
          let dependencies := (exactZeroDependencies inst).getD []
          let allZero := dependencies.all fun dependency => result.lookup dependency = some true
          zeroLoop definitions fuel work (result.insert register (dependencies ≠ [] && allZero))
            (visiting.erase register)
        else
          match inst with
          | .imm _ value =>
            zeroLoop definitions fuel work (result.insert register value.isZero) visiting
          | _ =>
            if register ∈ visiting then
              zeroLoop definitions fuel work (result.insert register false) visiting
            else
              match exactZeroDependencies inst with
              | none | some [] =>
                zeroLoop definitions fuel work (result.insert register false) visiting
              | some dependencies =>
                let pushed := (dependencies.filter (· ∉ result)).map (·, false)
                zeroLoop definitions fuel (pushed.reverse ++ (register, true) :: work) result
                  (register :: visiting)

/-- How often the loop can push for what is not yet in progress. -/
def pending (definitions : Definitions A) (result : Table RegisterId Bool)
    (visiting : List RegisterId) : Nat :=
  ((definitions.entries.filter fun e => e.1 ∉ result ∧ e.1 ∉ visiting).map fun e =>
    1 + ((e.2.bind exactZeroDependencies).getD []).length).sum

def collectExactZeroRegisters (eu : ExecutionUnit A) (roots : List RegisterId) :
    Option (List RegisterId) := do
  let definitions := collectDefinitions eu
  let (result, _) ← roots.foldlM (fun (result, visiting) root =>
    zeroLoop definitions (pending definitions ∅ [] + 2) [(root, false)] result visiting)
    ((∅ : Table RegisterId Bool), ([] : List RegisterId))
  return (result.entries.filter fun e => e.2).map (·.1)

/-! ## Soundness -/

variable {eu : ExecutionUnit A} {definitions : Definitions A} {reg : RegisterId}

/-- An instruction of a unit that defines the register. -/
def ExecutionUnit.Defines (eu : ExecutionUnit A) (reg : RegisterId) (inst : SIRInstruction A) :
    Prop :=
  inst ∈ eu.instructions ∧ inst.definedRegister = some reg

/-- Zero by its definition. -/
inductive ExactZero (eu : ExecutionUnit A) : RegisterId → Prop
  | imm {reg dst : RegisterId} {value : SIRValue} :
    eu.Defines reg (.imm dst value) → value.isZero = true → ExactZero eu reg
  | operation {reg : RegisterId} {inst : SIRInstruction A} {dependencies : List RegisterId} :
    eu.Defines reg inst → exactZeroDependencies inst = some dependencies →
    (∀ dependency ∈ dependencies, ExactZero eu dependency) → ExactZero eu reg

theorem collectDefinitions_spec {inst : SIRInstruction A}
    (h : (collectDefinitions eu).lookup reg = some (some inst)) : eu.Defines reg inst := by
  have hfold : ∀ (l : List (SIRInstruction A)) (definitions : Definitions A),
      (l.foldl recordDefinition definitions).lookup reg = some (some inst) →
      definitions.lookup reg = some (some inst) ∨ inst ∈ l ∧ inst.definedRegister = some reg := by
    intro l
    induction l with
    | nil => exact fun _ h => .inl h
    | cons i l ih =>
      intro definitions h
      rcases ih _ h with h | ⟨hmem, hdef⟩
      · unfold recordDefinition at h
        cases hdst : i.definedRegister with
        | none =>
          simp only [hdst] at h
          exact .inl h
        | some dst =>
          simp only [hdst] at h
          by_cases heq : reg = dst
          · subst heq
            rw [AList.lookup_insert] at h
            split_ifs at h with hin
            · cases h
            · cases h
              exact .inr ⟨List.mem_cons_self .., hdst⟩
          · rw [AList.lookup_insert_ne heq] at h
            exact .inl h
      · exact .inr ⟨List.mem_cons_of_mem _ hmem, hdef⟩
  rcases hfold _ _ h with h | h
  · simp at h
  · exact h

/-- The registers found to be zero so far are zero. -/
def Justified (eu : ExecutionUnit A) (result : Table RegisterId Bool) : Prop :=
  ∀ reg, result.lookup reg = some true → ExactZero eu reg

theorem Justified.insert {result : Table RegisterId Bool} (h : Justified eu result) {zero : Bool}
    (hzero : zero = true → ExactZero eu reg) : Justified eu (result.insert reg zero) := by
  intro r hr
  by_cases heq : r = reg
  · subst heq
    rw [AList.lookup_insert] at hr
    exact hzero (Option.some.inj hr)
  · rw [AList.lookup_insert_ne heq] at hr
    exact h r hr

theorem zeroLoop_justified (hdef : ∀ reg inst, definitions.lookup reg = some (some inst) →
    eu.Defines reg inst) {fuel : Nat} {work : List (RegisterId × Bool)}
    {result result' : Table RegisterId Bool} {visiting visiting' : List RegisterId}
    (h : Justified eu result)
    (hloop : zeroLoop definitions fuel work result visiting = some (result', visiting')) :
    Justified eu result' := by
  induction fuel generalizing work result visiting with
  | zero =>
    cases work with
    | nil =>
      cases hloop
      exact h
    | cons => cases hloop
  | succ fuel ih =>
    cases work with
    | nil =>
      cases hloop
      exact h
    | cons e work =>
      obtain ⟨register, expanded⟩ := e
      have hfalse : Justified eu (result.insert register false) := h.insert (by simp)
      unfold zeroLoop at hloop
      by_cases hdone : register ∈ result
      · rw [if_pos hdone] at hloop
        exact ih h hloop
      rw [if_neg hdone] at hloop
      cases hinst : (definitions.lookup register).join with
      | none =>
        rw [hinst] at hloop
        exact ih hfalse hloop
      | some inst =>
        rw [hinst] at hloop
        have hdefines := hdef register inst (Option.join_eq_some_iff.mp hinst)
        dsimp only at hloop
        by_cases hexpanded : expanded = true
        · rw [if_pos hexpanded] at hloop
          refine ih (h.insert fun hzero => ?_) hloop
          simp only [Bool.and_eq_true, decide_eq_true_eq, List.all_eq_true] at hzero
          obtain ⟨hne, hall⟩ := hzero
          cases hdeps : exactZeroDependencies inst with
          | none => simp [hdeps] at hne
          | some dependencies =>
            rw [hdeps, Option.getD_some] at hall
            exact .operation hdefines hdeps fun d hd => h d (hall d hd)
        · rw [if_neg hexpanded] at hloop
          split at hloop
          · exact ih (h.insert fun hzero => .imm hdefines hzero) hloop
          · split_ifs at hloop
            · exact ih hfalse hloop
            · split at hloop
              · exact ih hfalse hloop
              · exact ih hfalse hloop
              · exact ih h hloop

/-! ## The loop ends -/

theorem sum_filter_le {α : Type} (weight : α → Nat) {p q : α → Bool} {l : List α}
    (h : ∀ x ∈ l, q x = true → p x = true) :
    ((l.filter q).map weight).sum ≤ ((l.filter p).map weight).sum := by
  induction l with
  | nil => simp
  | cons x l ih =>
    have hrest := ih fun y hy => h y (List.mem_cons_of_mem _ hy)
    have hx := h x (List.mem_cons_self ..)
    cases hq : q x <;> cases hp : p x <;> simp_all
    omega

theorem sum_filter_lt {α : Type} (weight : α → Nat) {p q : α → Bool} {l : List α} {x : α}
    (h : ∀ y ∈ l, q y = true → p y = true) (hx : x ∈ l) (hp : p x = true) (hq : q x = false) :
    ((l.filter q).map weight).sum + weight x ≤ ((l.filter p).map weight).sum := by
  induction l with
  | nil => cases hx
  | cons y l ih =>
    have hrest : ∀ z ∈ l, q z = true → p z = true := fun z hz => h z (List.mem_cons_of_mem _ hz)
    rcases List.mem_cons.mp hx with rfl | hmem
    · have hle := sum_filter_le weight hrest
      simp only [List.filter_cons, hp, hq, if_true, Bool.false_eq_true, if_false, List.map_cons,
        List.sum_cons]
      omega
    · have hlt := ih hrest hmem
      have hy := h y (List.mem_cons_self ..)
      cases hqy : q y <;> cases hpy : p y <;> simp_all <;> omega

section Pending
variable {result result' : Table RegisterId Bool} {visiting visiting' : List RegisterId}

theorem pending_le (h : ∀ reg, reg ∈ result ∨ reg ∈ visiting → reg ∈ result' ∨ reg ∈ visiting') :
    pending definitions result' visiting' ≤ pending definitions result visiting := by
  refine sum_filter_le _ fun e _ he => ?_
  simp only [decide_eq_true_eq] at he ⊢
  by_contra hcon
  rcases h e.1 (by tauto) with hin | hin
  · exact he.1 hin
  · exact he.2 hin

theorem pending_done {value : Bool} : pending definitions (result.insert reg value)
    (visiting.erase reg) ≤ pending definitions result visiting := by
  refine pending_le fun r hr => ?_
  rw [AList.mem_insert]
  by_cases heq : r = reg
  · exact .inl (.inl heq)
  · exact hr.imp .inr (List.mem_erase_of_ne heq).mpr

theorem pending_visit {inst : SIRInstruction A} {dependencies : List RegisterId}
    (hinst : (definitions.lookup reg).join = some inst)
    (hdeps : exactZeroDependencies inst = some dependencies) (hresult : reg ∉ result)
    (hvisiting : reg ∉ visiting) :
    pending definitions result (reg :: visiting) + (1 + dependencies.length) ≤
      pending definitions result visiting := by
  have hmem : (⟨reg, some inst⟩ : (_ : RegisterId) × Option (SIRInstruction A)) ∈
      definitions.entries := AList.mem_lookup_iff.mp (Option.join_eq_some_iff.mp hinst)
  have hlt := sum_filter_lt (fun e : (_ : RegisterId) × Option (SIRInstruction A) =>
      1 + ((e.2.bind exactZeroDependencies).getD []).length)
    (p := fun e => e.1 ∉ result ∧ e.1 ∉ visiting)
    (q := fun e => e.1 ∉ result ∧ e.1 ∉ reg :: visiting)
    (fun e _ he => by simp_all) hmem (by simp [hresult, hvisiting]) (by simp)
  simpa only [pending, Option.bind_some, hdeps, Option.getD_some] using hlt

end Pending

/-- Every pass takes one from the stack, and what it pushes was pending. -/
theorem zeroLoop_total {fuel : Nat} {work : List (RegisterId × Bool)}
    {result : Table RegisterId Bool} {visiting : List RegisterId}
    (h : work.length + pending definitions result visiting ≤ fuel) :
    ∃ final, zeroLoop definitions fuel work result visiting = some final := by
  induction fuel generalizing work result visiting with
  | zero =>
    cases work with
    | nil => exact ⟨_, rfl⟩
    | cons => simp at h
  | succ fuel ih =>
    cases work with
    | nil => exact ⟨_, rfl⟩
    | cons e work =>
      obtain ⟨register, expanded⟩ := e
      rw [List.length_cons] at h
      have hdone (value : Bool) :
          work.length + pending definitions (result.insert register value)
            (visiting.erase register) ≤ fuel := by
        have hle : pending definitions (result.insert register value) (visiting.erase register) ≤
          pending definitions result visiting := pending_done
        omega
      have hset (value : Bool) :
          work.length + pending definitions (result.insert register value) visiting ≤ fuel := by
        have hle : pending definitions (result.insert register value) visiting ≤
            pending definitions result visiting :=
          pending_le fun r hr => hr.imp (fun hr => (AList.mem_insert _).mpr (.inr hr)) id
        omega
      unfold zeroLoop
      by_cases hresult : register ∈ result
      · rw [if_pos hresult]
        have hle : pending definitions result (visiting.erase register) ≤
            pending definitions result visiting := by
          refine pending_le fun r hr => ?_
          by_cases heq : r = register
          · exact .inl (heq ▸ hresult)
          · exact hr.imp id (List.mem_erase_of_ne heq).mpr
        exact ih (by omega)
      rw [if_neg hresult]
      cases hinst : (definitions.lookup register).join with
      | none => exact ih (hdone false)
      | some inst =>
        dsimp only
        by_cases hexpanded : expanded = true
        · rw [if_pos hexpanded]
          exact ih (hdone _)
        rw [if_neg hexpanded]
        split
        · exact ih (hset _)
        split_ifs with hvisiting
        · exact ih (hset _)
        split
        · exact ih (hset _)
        · exact ih (hset _)
        · rename_i dependencies _ hdeps
          refine ih ?_
          have hvisit := pending_visit hinst hdeps hresult hvisiting
          have hfilter := List.length_filter_le (fun d => decide (d ∉ result)) dependencies
          simp only [List.length_append, List.length_reverse, List.length_map, List.length_cons]
          omega

theorem pending_le_empty {result : Table RegisterId Bool} {visiting : List RegisterId} :
    pending definitions result visiting ≤ pending definitions ∅ [] :=
  pending_le (by simp)

/-- The registers that are found are zero by their definitions. -/
theorem collectExactZeroRegisters_spec (roots : List RegisterId) :
    ∃ zeros, collectExactZeroRegisters eu roots = some zeros ∧ ∀ reg ∈ zeros, ExactZero eu reg := by
  have hfold : ∀ (roots : List RegisterId) (result : Table RegisterId Bool)
      (visiting : List RegisterId), Justified eu result →
      ∃ final, roots.foldlM (fun (x : Table RegisterId Bool × List RegisterId) root =>
        zeroLoop (collectDefinitions eu) (pending (collectDefinitions eu) ∅ [] + 2) [(root, false)]
          x.1 x.2) (result, visiting) = some final ∧ Justified eu final.1 := by
    intro roots
    induction roots with
    | nil => exact fun result visiting h => ⟨_, rfl, h⟩
    | cons root roots ih =>
      intro result visiting h
      have hle : pending (collectDefinitions eu) result visiting ≤
        pending (collectDefinitions eu) ∅ [] := pending_le_empty
      obtain ⟨⟨result', visiting'⟩, hloop⟩ : ∃ final, zeroLoop (collectDefinitions eu)
          (pending (collectDefinitions eu) ∅ [] + 2) [(root, false)] result visiting = some final :=
        zeroLoop_total (by rw [List.length_singleton]; omega)
      obtain ⟨final, hfinal, hjustified⟩ := ih result' visiting'
        (zeroLoop_justified (fun _ _ => collectDefinitions_spec) h hloop)
      exact ⟨final, by rw [List.foldlM_cons, hloop]; exact hfinal, hjustified⟩
  obtain ⟨⟨result, visiting⟩, hrun, hjustified⟩ := hfold roots ∅ [] (by simp [Justified])
  refine ⟨_, by rw [collectExactZeroRegisters, hrun]; rfl, fun reg hreg => ?_⟩
  simp only [List.mem_map, List.mem_filter] at hreg
  obtain ⟨⟨reg', zero⟩, ⟨hmem, hzero⟩, rfl⟩ := hreg
  exact hjustified _ (AList.mem_lookup_iff.mpr (hzero ▸ hmem))

/-! ## Zero in every run -/

theorem arithmeticShiftRight_zero (width : Nat) : arithmeticShiftRight 0 0 width = 0 := by
  simp [arithmeticShiftRight, shiftRight]

theorem evalConcat_zero {args : List (RegisterType × SIRValue)}
    (h : ∀ arg ∈ args, arg.2 = ⟨0, 0⟩) : evalConcat args = ⟨0, 0⟩ := by
  unfold evalConcat
  induction args with
  | nil => rfl
  | cons arg args ih =>
    rw [List.foldl_cons, h arg (List.mem_cons_self ..)]
    simpa using ih fun a ha => h a (List.mem_cons_of_mem _ ha)

section Run
variable {S : Type} {m : Machine A S} {s s' : State A S} {inst : SIRInstruction A}

theorem operand_value {regs : Registers} {type : RegisterType} {value : SIRValue}
    (h : eu.operand regs reg = some (type, value)) : regs reg = some value := by
  simp only [ExecutionUnit.operand, Option.bind_eq_bind, Option.bind_eq_some_iff, Option.pure_def,
    Option.some.injEq, Prod.mk.injEq] at h
  obtain ⟨_, -, _, hvalue, -, rfl⟩ := h
  exact hvalue

theorem operands_value {regs : Registers} {args : List RegisterId}
    {values : List (RegisterType × SIRValue)} (h : args.mapM (eu.operand regs) = some values) :
    ∀ arg ∈ values, ∃ reg ∈ args, regs reg = some arg.2 := by
  induction args generalizing values with
  | nil =>
    cases h
    simp
  | cons reg args ih =>
    simp only [List.mapM_cons, Option.bind_eq_bind, Option.bind_eq_some_iff, Option.pure_def,
      Option.some.injEq] at h
    obtain ⟨⟨type, value⟩, hvalue, values, hvalues, rfl⟩ := h
    intro arg harg
    rcases List.mem_cons.mp harg with rfl | harg
    · exact ⟨reg, List.mem_cons_self .., operand_value hvalue⟩
    · obtain ⟨r, hr, hv⟩ := ih hvalues arg harg
      exact ⟨r, List.mem_cons_of_mem _ hr, hv⟩

theorem kept_zero {dst : RegisterId} : eu.kept dst ⟨0, 0⟩ = ⟨0, 0⟩ := by
  unfold ExecutionUnit.kept
  split
  · simp [SIRValue.cut]
  · rfl

/-- An instruction leaves every register alone but the one it defines. -/
theorem execInstruction_frame (h : eu.execInstruction m s inst = some s')
    (hne : inst.definedRegister ≠ some reg) : s'.regs reg = s.regs reg := by
  have hassign : ∀ {dst : RegisterId} (value : SIRValue), some dst ≠ some reg →
      (eu.assign s dst value).regs reg = s.regs reg := by
    intro dst value hdst
    exact Function.update_of_ne (fun heq => hdst (congrArg some heq.symm)) ..
  cases inst with
  | store addr offset bits src triggers sites =>
    simp only [ExecutionUnit.execInstruction] at h
    split_ifs at h
    · cases h
      rfl
    · simp only [Option.bind_eq_bind, Option.bind_eq_some_iff, Option.pure_def,
        Option.some.injEq] at h
      obtain ⟨_, -, _, -, rfl⟩ := h
      rfl
  | imm dst value =>
    cases h
    exact hassign _ hne
  | binary | unary | load | concat | slice | mux =>
    simp only [ExecutionUnit.execInstruction, Option.bind_eq_bind, Option.bind_eq_some_iff,
      Option.pure_def, Option.some.injEq, Prod.exists] at h
    grind [SIRInstruction.definedRegister]
  | commit | runtimeEvent | combCaptureEvent | combCaptureEnableIfChanged =>
    simp only [ExecutionUnit.execInstruction, Option.bind_eq_bind, Option.bind_eq_some_iff,
      Option.pure_def, Option.some.injEq] at h
    grind [State.perform]

/-- With every dependency zero, the result is. -/
theorem execInstruction_zero {dst : RegisterId} {dependencies : List RegisterId}
    (h : eu.execInstruction m s inst = some s') (hdst : inst.definedRegister = some dst)
    (hdeps : exactZeroDependencies inst = some dependencies)
    (hzero : ∀ d ∈ dependencies, ∀ value, s.regs d = some value → value = ⟨0, 0⟩) :
    s'.regs dst = some ⟨0, 0⟩ := by
  cases inst with
  | imm | load | store | commit | runtimeEvent | combCaptureEvent | combCaptureEnableIfChanged =>
    cases hdeps
  | binary dst' lhs op rhs =>
    cases hdst
    simp only [ExecutionUnit.execInstruction, Option.bind_eq_bind, Option.bind_eq_some_iff,
      Option.pure_def, Option.some.injEq, Prod.exists] at h
    obtain ⟨type, -, lhsType, lhsValue, hlhs, rhsType, rhsValue, hrhs, rfl⟩ := h
    simp only [ExecutionUnit.assign, Function.update_self, Option.some.injEq]
    refine (congrArg (eu.kept dst) ?_).trans kept_zero
    have hmem : lhs ∈ dependencies ∧ rhs ∈ dependencies := by
      cases op <;> simp only [exactZeroDependencies, reduceCtorEq, Option.some.injEq] at hdeps <;>
        simp [← hdeps]
    rw [hzero lhs hmem.1 _ (operand_value hlhs), hzero rhs hmem.2 _ (operand_value hrhs)]
    cases op <;> simp only [exactZeroDependencies, reduceCtorEq] at hdeps <;>
      simp [evalBinary, knownBinary, shiftLeft, shiftRight, arithmeticShiftRight_zero]
  | unary dst' op src =>
    cases hdst
    simp only [ExecutionUnit.execInstruction, Option.bind_eq_bind, Option.bind_eq_some_iff,
      Option.pure_def, Option.some.injEq, Prod.exists] at h
    obtain ⟨type, -, srcType, srcValue, hsrc, rfl⟩ := h
    simp only [ExecutionUnit.assign, Function.update_self, Option.some.injEq]
    refine (congrArg (eu.kept dst) ?_).trans kept_zero
    have hmem : src ∈ dependencies := by
      cases op <;> simp only [exactZeroDependencies, reduceCtorEq, Option.some.injEq] at hdeps <;>
        simp [← hdeps]
    rw [hzero src hmem _ (operand_value hsrc)]
    cases op <;> simp only [exactZeroDependencies, reduceCtorEq] at hdeps <;>
      simp [evalUnary, knownUnary, bitCount, bitLength]
  | concat dst' args =>
    cases hdst
    cases hdeps
    simp only [ExecutionUnit.execInstruction, Option.bind_eq_bind, Option.bind_eq_some_iff,
      Option.pure_def, Option.some.injEq] at h
    obtain ⟨values, hvalues, rfl⟩ := h
    simp only [ExecutionUnit.assign, Function.update_self, Option.some.injEq]
    refine (congrArg (eu.kept dst) ?_).trans kept_zero
    refine evalConcat_zero fun arg harg => ?_
    obtain ⟨r, hr, hvalue⟩ := operands_value hvalues arg harg
    exact hzero r hr _ hvalue
  | slice dst' src offset width =>
    cases hdst
    cases hdeps
    simp only [ExecutionUnit.execInstruction, Option.bind_eq_bind, Option.bind_eq_some_iff,
      Option.pure_def, Option.some.injEq] at h
    obtain ⟨value, hvalue, rfl⟩ := h
    rw [hzero src (by simp) _ hvalue]
    simp [ExecutionUnit.assign, evalSlice, kept_zero]
  | mux dst' cond thenVal elseVal =>
    cases hdst
    cases hdeps
    simp only [ExecutionUnit.execInstruction, Option.bind_eq_bind, Option.bind_eq_some_iff,
      Option.pure_def, Option.some.injEq] at h
    obtain ⟨condValue, -, thenValue, hthen, elseValue, helse, rfl⟩ := h
    rw [hzero thenVal (by simp) _ hthen, hzero elseVal (by simp) _ helse]
    simp [ExecutionUnit.assign, evalMux, kept_zero]

/-- Every register has one definition, among the parameters and the instructions of all blocks. -/
def ExecutionUnit.SingleAssignment (eu : ExecutionUnit A) : Prop :=
  ((eu.blocks.entries.flatMap fun entry => entry.2.params) ++
    eu.instructions.filterMap SIRInstruction.definedRegister).Nodup

theorem BasicBlock.definitions_fst (block : BasicBlock A) : block.definitions.map Prod.fst =
    block.params ++ block.instructions.filterMap SIRInstruction.definedRegister := by
  have hinst : ∀ (l : List (SIRInstruction A)) (n : Nat),
      ((l.zipIdx n).filterMap (instructionSite block.id)).map Prod.fst =
        l.filterMap SIRInstruction.definedRegister := by
    intro l
    induction l with
    | nil => exact fun _ => rfl
    | cons inst l ih =>
      intro n
      rw [List.zipIdx_cons, List.filterMap_cons, List.filterMap_cons]
      cases hdst : inst.definedRegister with
      | none => simpa [instructionSite, hdst] using ih (n + 1)
      | some dst => simpa [instructionSite, hdst] using ih (n + 1)
  rw [BasicBlock.definitions, List.map_append, List.map_map]
  refine congr (congrArg _ ?_) (hinst _ 0)
  exact List.map_id' _

/-- What the verifier accepts is in this form. -/
theorem Verified.singleAssignment (h : Verified eu) : eu.SingleAssignment := by
  have hfresh := ((fresh_definitions h.ids).mpr h.single).1
  rw [ExecutionUnit.definitions, List.map_flatMap] at hfresh
  simp only [BasicBlock.definitions_fst] at hfresh
  unfold ExecutionUnit.SingleAssignment ExecutionUnit.instructions
  rw [List.filterMap_flatMap]
  exact (List.flatMap_append_perm ..).nodup_iff.mpr hfresh

theorem Defines.unique {inst' : SIRInstruction A} (hssa : eu.SingleAssignment)
    (h : eu.Defines reg inst) (h' : eu.Defines reg inst') : inst' = inst := by
  have hnodup := (List.nodup_append'.mp hssa).2.1
  have hone : eu.instructions.Pairwise fun a b =>
      ∀ r, a.definedRegister = some r → b.definedRegister ≠ some r := by
    refine (List.pairwise_filterMap.mp hnodup).imp fun hne r ha hb => hne r ha r hb rfl
  obtain ⟨⟨i, hi, heq⟩, hreg⟩ := List.mem_iff_getElem.mp h.1, h.2
  obtain ⟨⟨j, hj, heq'⟩, hreg'⟩ := List.mem_iff_getElem.mp h'.1, h'.2
  rcases Nat.lt_trichotomy i j with hlt | rfl | hlt
  · have hne := List.pairwise_iff_getElem.mp hone i j hi hj hlt reg
    rw [heq, heq'] at hne
    exact absurd hreg' (hne hreg)
  · rw [← heq, ← heq']
  · have hne := List.pairwise_iff_getElem.mp hone j i hj hi hlt reg
    rw [heq, heq'] at hne
    exact absurd hreg (hne hreg')

theorem Defines.not_param (hssa : eu.SingleAssignment) {b : BlockId} {block : BasicBlock A}
    (hblock : eu.blocks.lookup b = some block) (h : eu.Defines reg inst) : reg ∉ block.params :=
  fun hparam => (List.nodup_append'.mp hssa).2.2
    (List.mem_flatMap.mpr ⟨⟨b, block⟩, mem_entries.mpr hblock, hparam⟩)
    (List.mem_filterMap.mpr ⟨inst, h.1, h.2⟩)

theorem ExecutionUnit.defines_of_site {b : BlockId} {block : BasicBlock A} {i : Nat}
    (hblock : eu.blocks.lookup b = some block) (hinst : block.instructions[i]? = some inst)
    (hreg : inst.definedRegister = some reg) : eu.Defines reg inst :=
  ⟨List.mem_flatMap.mpr ⟨⟨b, block⟩, mem_entries.mpr hblock, List.mem_of_getElem? hinst⟩, hreg⟩

theorem ExactZero.defined (h : ExactZero eu reg) : ∃ inst, eu.Defines reg inst := by
  cases h with
  | imm hdef => exact ⟨_, hdef⟩
  | operation hdef => exact ⟨_, hdef⟩

/-- Every exact zero that has a value is zero. -/
def ZeroHeld (eu : ExecutionUnit A) (regs : Registers) : Prop :=
  ∀ reg, ExactZero eu reg → ∀ value, regs reg = some value → value = ⟨0, 0⟩

theorem ZeroHeld.exec (hssa : eu.SingleAssignment) {b : BlockId} {block : BasicBlock A} {i : Nat}
    (hblock : eu.blocks.lookup b = some block) (hinst : block.instructions[i]? = some inst)
    (hexec : eu.execInstruction m s inst = some s') (h : ZeroHeld eu s.regs) :
    ZeroHeld eu s'.regs := by
  intro reg hzero value hvalue
  by_cases hdst : inst.definedRegister = some reg
  · cases hzero with
    | @imm _ dst value' hdef hz =>
      obtain rfl := Defines.unique hssa (eu.defines_of_site hblock hinst hdst) hdef
      cases hexec
      obtain rfl := Option.some.inj hdst
      simp only [ExecutionUnit.assign, Function.update_self, Option.some.injEq] at hvalue
      subst hvalue
      obtain ⟨payload, mask⟩ := value'
      simp only [SIRValue.isZero, Bool.and_eq_true, decide_eq_true_eq] at hz
      rw [hz.1, hz.2, kept_zero]
    | @operation _ inst' dependencies hdef hdeps hall =>
      obtain rfl := Defines.unique hssa (eu.defines_of_site hblock hinst hdst) hdef
      have hres := execInstruction_zero hexec hdst hdeps fun d hd => h d (hall d hd)
      rw [hres] at hvalue
      exact (Option.some.inj hvalue).symm
  · rw [execInstruction_frame hexec hdst] at hvalue
    exact h reg hzero value hvalue

theorem ZeroHeld.enter (hssa : eu.SingleAssignment) {target : BlockId} {args : List RegisterId}
    {c : Config A S} (henter : eu.enter s target args = .goto c) (h : ZeroHeld eu s.regs) :
    ZeroHeld eu c.state.regs := by
  unfold ExecutionUnit.enter at henter
  split at henter
  · rename_i block values hblock _
    split_ifs at henter
    cases henter
    intro reg hzero value hvalue
    obtain ⟨inst, hdef⟩ := hzero.defined
    have hframe : ∀ (pairs : List (RegisterId × SIRValue)) (regs : Registers),
        reg ∉ pairs.map Prod.fst → (pairs.foldl (fun (regs : Registers) e =>
          Function.update regs e.1 (some e.2)) regs) reg = regs reg := by
      intro pairs
      induction pairs with
      | nil => exact fun _ _ => rfl
      | cons e pairs ih =>
        intro regs hnot
        rw [List.map_cons, List.mem_cons, not_or] at hnot
        rw [List.foldl_cons, ih _ hnot.2, Function.update_of_ne hnot.1]
    dsimp only at hvalue
    rw [hframe _ _ fun hmem => Defines.not_param hssa hblock hdef
      (List.mem_map.mp hmem |>.elim fun e he => he.2 ▸ (List.of_mem_zip he.1).1)] at hvalue
    exact h reg hzero value hvalue
  · cases henter

/-- A register found to be zero is zero wherever a run of the unit has it. -/
theorem ExecutionUnit.Reached.zero (hssa : eu.SingleAssignment) {c : Config A S}
    (h : eu.Reached m c) : ZeroHeld eu c.state.regs := by
  induction h with
  | start memory =>
    intro reg _ value hvalue
    cases hvalue
  | @step c c' _ hstep ih =>
    unfold ExecutionUnit.step at hstep
    split at hstep
    · cases hstep
    rename_i block hblock
    split at hstep
    · rename_i inst hinst
      split at hstep
      · rename_i s' hexec
        cases hstep
        exact ih.exec hssa hblock hinst hexec
      · cases hstep
    · unfold ExecutionUnit.execTerminator at hstep
      split at hstep
      · exact ih.enter hssa hstep
      · split at hstep
        · cases hstep
        · split_ifs at hstep <;> exact ih.enter hssa hstep
      · split at hstep
        · cases hstep
        · split at hstep <;> exact ih.enter hssa hstep
      · cases hstep
      · cases hstep

end Run

/-- The search ends, and what it returns is zero in every run of a unit in SSA form. -/
theorem collectExactZeroRegisters_sound (hssa : eu.SingleAssignment) (roots : List RegisterId) :
    ∃ zeros, collectExactZeroRegisters eu roots = some zeros ∧
      ∀ {S : Type} (m : Machine A S) (c : Config A S), eu.Reached m c → ∀ reg ∈ zeros,
        ∀ value, c.state.regs reg = some value → value = ⟨0, 0⟩ := by
  obtain ⟨zeros, hzeros, hall⟩ := @collectExactZeroRegisters_spec A eu roots
  refine ⟨zeros, hzeros, fun m c hreached reg hreg value hvalue => ?_⟩
  exact hreached.zero hssa reg (hall reg hreg) value hvalue

/-- A loop whose parameter is given zero at the entry: the parameter is not found, what the loop
makes of the zeros is. -/
def zeroLoopUnit : ExecutionUnit Nat where
  entryBlockId := 0
  blocks := [⟨0, {
      id := 0
      params := []
      instructions := [.imm 0 ⟨0, 0⟩, .imm 1 ⟨1, 0⟩]
      terminator := .jump 1 [0] }⟩,
    ⟨1, {
      id := 1
      params := [2]
      instructions := [.binary 3 0 .add 0, .mux 4 1 3 0, .binary 5 2 .and 4]
      terminator := .jump 1 [2] }⟩].toAList
  registerMap := [⟨0, .logic 8⟩, ⟨1, .bit 1 false⟩, ⟨2, .logic 8⟩, ⟨3, .logic 8⟩, ⟨4, .logic 8⟩,
    ⟨5, .logic 8⟩].toAList

theorem collectExactZeroRegisters_sound_loop :
    ∃ zeros, collectExactZeroRegisters zeroLoopUnit [5, 4] = some zeros ∧
      ∀ {S : Type} (m : Machine Nat S) (c : Config Nat S), zeroLoopUnit.Reached m c →
        ∀ reg ∈ zeros, ∀ value, c.state.regs reg = some value → value = ⟨0, 0⟩ :=
  collectExactZeroRegisters_sound (by
    unfold ExecutionUnit.SingleAssignment
    decide) [5, 4]

example : collectExactZeroRegisters zeroLoopUnit [5, 4] = some [4, 3, 0] := by decide
end Celox.Sir
