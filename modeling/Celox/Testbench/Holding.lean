import Celox.Testbench.FastPathUnary

/-! # Runs that hold their values differently

A value that fits into 64 bits may be held either way. Where every opcode of a run is one that its
two bodies agree on, the run gives the same integer however its values are held in between. -/
namespace Celox.Testbench

/-! ## Untyped operators -/

/-- Where the untyped bodies agree: no sum, product or shift leaves the word. -/
def Op.UntypedMeets (op : Op) (l r : Nat) : Prop :=
  match op with
  | .add => l < 2 ^ 64 → r < 2 ^ 64 → l + r < 2 ^ 64
  | .sub => l < 2 ^ 64 → r < 2 ^ 64 → r ≤ l
  | .mul => l < 2 ^ 64 → r < 2 ^ 64 → l * r < 2 ^ 64
  | .logicShiftL => l < 2 ^ 64 → r < 2 ^ 64 → l <<< r < 2 ^ 64
  | .div | .rem | .bitAnd | .bitOr | .bitXor | .logicShiftR
  | .eq | .ne | .less | .lessEq | .greater | .greaterEq | .logicAnd | .logicOr => True
  | _ => False

theorem toBiguint_boolValue {p q : Prop} [Decidable p] [Decidable q] (h : p ↔ q) :
    (boolValue p).toNat = (TestbenchValue.u64 (boolValue q)).toBiguint := by
  rw [TestbenchValue.toBiguint, toNat_boolValue decide_eq_true_iff,
    toNat_boolValue (decide_eq_true_iff.trans h.symm)]

theorem evalBinopU64_eq {op : Op} {l r : UInt64} (h : op.UntypedMeets l.toNat r.toNat) :
    (evalBinopU64 l op r).map UInt64.toNat =
      (evalBinopWide l.toNat op r.toNat).map TestbenchValue.toBiguint := by
  have hl := l.toNat_lt
  have hr := r.toNat_lt
  have hzero : ∀ v : UInt64, v = 0 ↔ v.toNat = 0 := by
    intro v
    rw [← UInt64.toNat_inj, UInt64.toNat_zero]
  have hshift : shiftAmount r.toNat = r.toNat := if_pos hr
  cases op <;> simp only [Op.UntypedMeets] at h <;>
    simp only [evalBinopU64, evalBinopWide, Option.map_some, Option.some.injEq]
  case add => rw [UInt64.toNat_add, Nat.mod_eq_of_lt (h hl hr), TestbenchValue.toBiguint]
  case sub =>
    rw [UInt64.toNat_sub_of_le _ _ (UInt64.le_iff_toNat_le.mpr (h hl hr)), if_pos (h hl hr),
      TestbenchValue.toBiguint]
  case mul => rw [UInt64.toNat_mul, Nat.mod_eq_of_lt (h hl hr), TestbenchValue.toBiguint]
  case div =>
    by_cases h0 : r.toNat = 0
    · rw [if_pos ((hzero r).mpr h0), if_pos h0]
      rfl
    · rw [if_neg ((hzero r).not.mpr h0), if_neg h0]
      rfl
  case rem =>
    by_cases h0 : r.toNat = 0
    · rw [if_pos ((hzero r).mpr h0), if_pos h0]
      rfl
    · rw [if_neg ((hzero r).not.mpr h0), if_neg h0]
      rfl
  case bitAnd | bitOr | bitXor => rfl
  case logicShiftL =>
    rw [hshift, TestbenchValue.toBiguint]
    split
    · rename_i h64
      have hdvd : 2 ^ 64 ∣ l.toNat <<< r.toNat := by
        rw [Nat.shiftLeft_eq]
        exact Dvd.dvd.mul_left (Nat.pow_dvd_pow 2 h64) _
      rw [UInt64.toNat_zero, ← Nat.mod_eq_of_lt (h hl hr), Nat.mod_eq_zero_of_dvd hdvd]
    · rw [UInt64.toNat_shiftLeft, Nat.mod_eq_of_lt (by omega : r.toNat < 64),
        Nat.mod_eq_of_lt (h hl hr)]
  case logicShiftR =>
    rw [hshift, TestbenchValue.toBiguint]
    split
    · rename_i h64
      have hpow : 2 ^ 64 ≤ 2 ^ r.toNat := Nat.pow_le_pow_right (by decide) h64
      rw [UInt64.toNat_zero, Nat.shiftRight_eq_div_pow, Nat.div_eq_of_lt (by omega)]
    · rw [UInt64.toNat_shiftRight, Nat.mod_eq_of_lt (by omega : r.toNat < 64)]
  case eq => exact toBiguint_boolValue UInt64.toNat_inj.symm
  case ne => exact toBiguint_boolValue UInt64.toNat_inj.not.symm
  case less | greater => exact toBiguint_boolValue UInt64.lt_iff_toNat_lt
  case lessEq | greaterEq => exact toBiguint_boolValue UInt64.le_iff_toNat_le
  case logicAnd => exact toBiguint_boolValue (and_congr (hzero l).not (hzero r).not)
  case logicOr => exact toBiguint_boolValue (or_congr (hzero l).not (hzero r).not)

theorem evalBinop_eq {op : Op} {l r : TestbenchValue}
    (h : op.UntypedMeets l.toBiguint r.toBiguint) :
    (evalBinop l op r).map TestbenchValue.toBiguint =
      (evalBinopWide l.toBiguint op r.toBiguint).map TestbenchValue.toBiguint := by
  cases l <;> cases r <;> try rfl
  rw [evalBinop, Option.map_map]
  exact evalBinopU64_eq h

theorem evalBinopWide_isSome {op : Op} {l r : Nat} (h : op.UntypedMeets l r) :
    (evalBinopWide l op r).isSome = true := by
  cases op <;> first | rfl | exact h.elim

/-! ## Steps -/

/-- What one opcode asks of the integers on the stack. -/
def StepMeets : ExprOpcode → List Nat → Prop
  | .constU64 _, _ | .constWide _, _ | .loadU64 _ _ _, _ => True
  | .loadWide _ byteSize width, _ => width ≤ byteSize * 8
  | .binOp op, r :: l :: _ => op.UntypedMeets l r
  | .typedBinOp op lhsWidth rhsWidth resultWidth lhsSigned rhsSigned, r :: l :: _ =>
    op.isTypedBinary = true ∧ (resultWidth = 0 →
      ¬ op.Compares (lhsSigned && rhsSigned) lhsWidth rhsWidth (l % 2 ^ lhsWidth)
        (r % 2 ^ rhsWidth))
  | .typedUnary op operandWidth resultWidth, n :: _ =>
    op.isTypedUnary = true ∧
      (op = .bitNot → resultWidth ≤ operandWidth ∨ 64 < resultWidth ∨ 2 ^ 64 ≤ n) ∧
      (resultWidth = 0 → ¬ op.Reduces operandWidth (n % 2 ^ operandWidth))
  | .resize _ _ _, _ :: _ => True
  | .concatPart partWidth resultWidth, p :: a :: _ =>
    resultWidth ≤ 64 → a < 2 ^ 64 → p < 2 ^ 64 → ∀ i, resultWidth ≤ i → i < 64 →
      (if i < partWidth then p.testBit i else a.testBit (i - partWidth)) = false
  | .loadIndexed _ _ _ _, _ :: _ => True
  | .loadBitSelect _ baseByteSize selectWidth, index :: _ =>
    baseByteSize ≤ 8 → selectWidth ≤ 64 → index % 2 ^ 64 < 64
  | .storeU64 _ _, _ :: _ => True
  | _, _ => False

def integers (stack : List TestbenchValue) : List Nat := stack.map TestbenchValue.toBiguint

theorem toNat_toU64 (value : TestbenchValue) : value.toU64.toNat = value.toBiguint % 2 ^ 64 := by
  cases value with
  | u64 bits => exact (Nat.mod_eq_of_lt bits.toNat_lt).symm
  | wide bits => exact UInt64.toNat_ofNat'

theorem toU64_congr {v v' : TestbenchValue} (h : v.toBiguint = v'.toBiguint) :
    v.toU64 = v'.toU64 := by
  rw [← UInt64.toNat_inj, toNat_toU64, toNat_toU64, h]

theorem readBits_isSome (memory : Memory) (location bitOffset width : Nat) :
    (readBits memory location bitOffset width).isSome = true := by
  unfold readBits
  dsimp only
  split
  · rfl
  · rw [Option.isSome_map, readLeWide, if_neg (by omega)]
    rfl

/-- The outcomes of one opcode, up to how values are held. -/
def SameOutcome (a b : Option (List TestbenchValue × Memory)) : Prop :=
  ∃ s t memory, a = some (s, memory) ∧ b = some (t, memory) ∧ integers s = integers t

theorem sameOutcome_push {a b : Option TestbenchValue} {n : Nat} {s t : List TestbenchValue}
    (memory : Memory) (ha : a.map TestbenchValue.toBiguint = some n)
    (hb : b.map TestbenchValue.toBiguint = some n) (h : integers s = integers t) :
    SameOutcome (a.map fun value => (value :: s, memory))
      (b.map fun value => (value :: t, memory)) := by
  obtain ⟨x, rfl, hx⟩ := Option.map_eq_some_iff.mp ha
  obtain ⟨y, rfl, hy⟩ := Option.map_eq_some_iff.mp hb
  refine ⟨x :: s, y :: t, memory, rfl, rfl, ?_⟩
  rw [integers, integers, List.map_cons, List.map_cons, hx, hy]
  exact congrArg _ h

theorem Agree.sameOutcome {width : Nat} {a b : Option TestbenchValue} {s t : List TestbenchValue}
    (memory : Memory) (hab : Agree width a b) (h : integers s = integers t) :
    SameOutcome (a.map fun value => (value :: s, memory))
      (b.map fun value => (value :: t, memory)) := by
  obtain ⟨x, y, rfl, rfl, hxy, -⟩ := hab
  exact sameOutcome_push memory (n := y.toBiguint) (by rw [Option.map_some, hxy]) rfl h

theorem integers_cons {v : TestbenchValue} {s t : List TestbenchValue}
    (h : integers (v :: s) = integers t) :
    ∃ v' t', t = v' :: t' ∧ v.toBiguint = v'.toBiguint ∧ integers s = integers t' := by
  cases t with
  | nil => cases h
  | cons v' t => exact ⟨v', t, rfl, List.cons.inj h⟩

/-- One opcode gives the same integers and the same memory. -/
theorem exec_same (memory : Memory) {op : ExprOpcode} {s t : List TestbenchValue}
    (hmeets : StepMeets op (integers s)) (h : integers s = integers t) :
    SameOutcome (exec memory op s) (exec memory op t) := by
  cases op with
  | constU64 value => exact sameOutcome_push memory (a := some _) (b := some _) rfl rfl h
  | constWide value => exact sameOutcome_push memory (a := some _) (b := some _) rfl rfl h
  | loadU64 location byteSize mask =>
    exact sameOutcome_push memory (a := some _) (b := some _) rfl rfl h
  | loadWide location byteSize width =>
    have hread : ∃ value, readLeWide memory location byteSize width = some value :=
      ⟨_, if_neg (Nat.not_lt.mpr hmeets)⟩
    obtain ⟨value, hvalue⟩ := hread
    rw [exec, exec, hvalue]
    exact sameOutcome_push memory (a := some _) (b := some _) rfl rfl h
  | binOp op =>
    match s, hmeets, h with
    | r :: l :: s, hmeets, h =>
      obtain ⟨r', t, rfl, hr, h⟩ := integers_cons h
      obtain ⟨l', t, rfl, hl, h⟩ := integers_cons h
      have hmeets : op.UntypedMeets l.toBiguint r.toBiguint := hmeets
      obtain ⟨value, hvalue⟩ := Option.isSome_iff_exists.mp (evalBinopWide_isSome hmeets)
      have hleft := evalBinop_eq hmeets
      have hright : (evalBinop l' op r').map TestbenchValue.toBiguint = _ :=
        evalBinop_eq (by rwa [← hl, ← hr])
      rw [← hl, ← hr, hvalue] at hright
      rw [hvalue] at hleft
      exact sameOutcome_push memory hleft hright h
    | [_], hmeets, _ => exact hmeets.elim
    | [], hmeets, _ => exact hmeets.elim
  | typedBinOp op lhsWidth rhsWidth resultWidth lhsSigned rhsSigned =>
    match s, hmeets, h with
    | r :: l :: s, hmeets, h =>
      obtain ⟨r', t, rfl, hr, h⟩ := integers_cons h
      obtain ⟨l', t, rfl, hl, h⟩ := integers_cons h
      exact ((agree_typedBinop hl hr).mpr hmeets).sameOutcome memory h
    | [_], hmeets, _ => exact hmeets.elim
    | [], hmeets, _ => exact hmeets.elim
  | typedUnary op operandWidth resultWidth =>
    match s, hmeets, h with
    | v :: s, hmeets, h =>
      obtain ⟨v', t, rfl, hv, h⟩ := integers_cons h
      exact ((agree_typedUnary v.toBiguint).mpr hmeets v v' rfl hv.symm).sameOutcome memory h
    | [], hmeets, _ => exact hmeets.elim
  | resize sourceWidth targetWidth signed =>
    match s, hmeets, h with
    | v :: s, hmeets, h =>
      obtain ⟨v', t, rfl, hv, h⟩ := integers_cons h
      exact (agree_resize hv sourceWidth targetWidth signed).sameOutcome memory h
    | [], hmeets, _ => exact hmeets.elim
  | concatPart partWidth resultWidth =>
    match s, hmeets, h with
    | p :: a :: s, hmeets, h =>
      obtain ⟨p', t, rfl, hp, h⟩ := integers_cons h
      obtain ⟨a', t, rfl, ha, h⟩ := integers_cons h
      exact ((agree_concatPart _ _ partWidth resultWidth).mpr hmeets a a' p p' rfl ha.symm rfl
        hp.symm).sameOutcome memory h
    | [_], hmeets, _ => exact hmeets.elim
    | [], hmeets, _ => exact hmeets.elim
  | ternary thenLen elseLen => cases s <;> exact hmeets.elim
  | loadIndexed location strideBits baseBitOffset elementWidth =>
    match s, hmeets, h with
    | v :: s, hmeets, h =>
      obtain ⟨v', t, rfl, hv, h⟩ := integers_cons h
      rw [exec, exec, toU64_congr hv]
      obtain ⟨value, hvalue⟩ := Option.isSome_iff_exists.mp (readBits_isSome memory location
        (saturatingAdd baseBitOffset (saturatingMul v'.toU64.toNat strideBits)) elementWidth)
      rw [hvalue]
      exact sameOutcome_push memory (a := some _) (b := some _) rfl rfl h
    | [], hmeets, _ => exact hmeets.elim
  | loadBitSelect location baseByteSize selectWidth =>
    match s, hmeets, h with
    | v :: s, hmeets, h =>
      obtain ⟨v', t, rfl, hv, h⟩ := integers_cons h
      have hagree := (agree_loadBitSelect memory location baseByteSize selectWidth v).mpr
        (by rw [toNat_toU64]; exact hmeets)
      obtain ⟨x, -, hx, -⟩ := hagree
      have hx' : loadBitSelect memory location baseByteSize selectWidth v' = some x := by
        rw [← hx, loadBitSelect, loadBitSelect, toU64_congr hv]
      rw [exec, exec, hx, hx']
      exact sameOutcome_push memory (a := some _) (b := some _) rfl rfl h
    | [], hmeets, _ => exact hmeets.elim
  | storeU64 location byteSize =>
    match s, hmeets, h with
    | v :: s, hmeets, h =>
      obtain ⟨v', t, rfl, hv, h⟩ := integers_cons h
      rw [exec, exec, toU64_congr hv]
      exact ⟨s, t, _, rfl, rfl, h⟩
    | [], hmeets, _ => exact hmeets.elim

/-! ## Runs -/

namespace Vm

def Same (a b : Vm) : Prop :=
  a.pc = b.pc ∧ integers a.stack = integers b.stack ∧ a.memory = b.memory

theorem Same.refl (vm : Vm) : vm.Same vm := ⟨rfl, rfl, rfl⟩

theorem Same.trans {a b c : Vm} (hab : a.Same b) (hbc : b.Same c) : a.Same c :=
  ⟨hab.1.trans hbc.1, hab.2.1.trans hbc.2.1, hab.2.2.trans hbc.2.2⟩

end Vm

/-- A choice, before every opcode, of how the values on the stack are held. -/
structure Holding where
  hold : Vm → Vm
  same : ∀ vm : Vm, vm.Same (hold vm)

/-- All values as big integers. -/
def Holding.wide : Holding where
  hold vm := { vm with stack := vm.stack.map fun value => .wide value.toBiguint }
  same vm := ⟨rfl, by simp [integers, TestbenchValue.toBiguint], rfl⟩

/-- `runTo` under a choice of how values are held. -/
def runHeld (holding : Holding) (ops : List ExprOpcode) : Nat → Nat → Vm → Option Vm
  | 0, stop, vm => if vm.pc < stop then none else some vm
  | fuel + 1, stop, vm =>
    if vm.pc < stop then
      let vm := holding.hold vm
      match ops[vm.pc]? with
      | none => none
      | some (.ternary thenLen elseLen) =>
        match vm.stack with
        | [] => none
        | cond :: stack =>
          if cond.isZero then do
            let vm ← runHeld holding ops fuel (vm.pc + 1 + thenLen + elseLen)
              ⟨vm.pc + 1 + thenLen, stack, vm.memory⟩
            runHeld holding ops fuel stop vm
          else do
            let vm ← runHeld holding ops fuel (vm.pc + 1 + thenLen) ⟨vm.pc + 1, stack, vm.memory⟩
            runHeld holding ops fuel stop ⟨vm.pc + elseLen, vm.stack, vm.memory⟩
      | some op => do
        let (stack, memory) ← exec vm.memory op vm.stack
        runHeld holding ops fuel stop ⟨vm.pc + 1, stack, memory⟩
    else some vm

def evalHeld (holding : Holding) (ops : List ExprOpcode) (memory : Memory) :
    Option (TestbenchValue × Memory) := do
  let vm ← runHeld holding ops ops.length ops.length ⟨0, [], memory⟩
  return (← vm.stack.head?, vm.memory)

/-- Every opcode that the run executes is met by the stack it finds. -/
def StepsMeet (ops : List ExprOpcode) : Nat → Nat → Vm → Prop
  | 0, stop, vm => stop ≤ vm.pc
  | fuel + 1, stop, vm =>
    vm.pc < stop →
      match ops[vm.pc]? with
      | none => False
      | some (.ternary thenLen elseLen) =>
        match vm.stack with
        | [] => False
        | cond :: stack =>
          if cond.isZero then
            StepsMeet ops fuel (vm.pc + 1 + thenLen + elseLen)
                ⟨vm.pc + 1 + thenLen, stack, vm.memory⟩ ∧
              ∀ vm', runTo ops fuel (vm.pc + 1 + thenLen + elseLen)
                  ⟨vm.pc + 1 + thenLen, stack, vm.memory⟩ = some vm' →
                StepsMeet ops fuel stop vm'
          else
            StepsMeet ops fuel (vm.pc + 1 + thenLen) ⟨vm.pc + 1, stack, vm.memory⟩ ∧
              ∀ vm', runTo ops fuel (vm.pc + 1 + thenLen) ⟨vm.pc + 1, stack, vm.memory⟩ =
                  some vm' →
                StepsMeet ops fuel stop ⟨vm'.pc + elseLen, vm'.stack, vm'.memory⟩
      | some op =>
        StepMeets op (integers vm.stack) ∧
          ∀ stack memory, exec vm.memory op vm.stack = some (stack, memory) →
            StepsMeet ops fuel stop ⟨vm.pc + 1, stack, memory⟩

theorem isZero_congr {v v' : TestbenchValue} (h : v.toBiguint = v'.toBiguint) :
    v.isZero = v'.isZero := by
  have hzero : ∀ u : TestbenchValue, u.isZero = decide (u.toBiguint = 0) := by
    intro u
    cases u with
    | u64 bits =>
      rw [TestbenchValue.isZero, TestbenchValue.toBiguint, decide_eq_decide, ← UInt64.toNat_inj]
      rfl
    | wide bits => rfl
  rw [hzero, hzero, h]

/-- A run whose opcodes are met ends, and ends the same however values are held. -/
theorem runHeld_same (holding : Holding) {ops : List ExprOpcode} {fuel stop : Nat} {vm vm' : Vm}
    (hmeet : StepsMeet ops fuel stop vm) (hsame : vm.Same vm') :
    ∃ r r', runTo ops fuel stop vm = some r ∧ runHeld holding ops fuel stop vm' = some r' ∧
      r.Same r' := by
  induction fuel generalizing stop vm vm' with
  | zero =>
    have hdone : ¬ vm.pc < stop := Nat.not_lt.mpr hmeet
    rw [runTo, runHeld, ← hsame.1, if_neg hdone, if_neg hdone]
    exact ⟨vm, vm', rfl, rfl, hsame⟩
  | succ fuel ih =>
    unfold runTo runHeld
    by_cases hpc : vm.pc < stop
    swap
    · rw [← hsame.1, if_neg hpc, if_neg hpc]
      exact ⟨vm, vm', rfl, rfl, hsame⟩
    have hmeet := hmeet hpc
    have hheld := hsame.trans (holding.same vm')
    rw [← hsame.1, if_pos hpc, if_pos hpc]
    dsimp only
    generalize holding.hold vm' = held at hheld ⊢
    obtain ⟨hheldPc, hstack, hmemory⟩ := hheld
    rw [← hheldPc, ← hmemory]
    revert hmeet
    cases hop : ops[vm.pc]? with
    | none => exact fun hmeet => hmeet.elim
    | some op =>
      cases op
      case ternary thenLen elseLen =>
        dsimp only
        intro hmeet
        cases hcase : vm.stack with
        | nil =>
          rw [hcase] at hmeet
          exact hmeet.elim
        | cons cond stack =>
          rw [hcase] at hmeet hstack
          dsimp only at hmeet ⊢
          obtain ⟨cond', stack', hcase', hcond, hstack⟩ := integers_cons hstack
          rw [hcase']
          dsimp only
          rw [← isZero_congr hcond]
          cases hz : cond.isZero
          · rw [hz, if_neg (by decide)] at hmeet
            have hsame : Vm.Same ⟨vm.pc + 1, stack, vm.memory⟩ ⟨vm.pc + 1, stack', vm.memory⟩ :=
              ⟨rfl, hstack, rfl⟩
            obtain ⟨r, r', hr, hr', hrr⟩ := ih hmeet.1 hsame
            simp only [hr, hr', Option.bind_eq_bind, Option.bind_some, Bool.false_eq_true, if_false]
            refine ih (hmeet.2 r hr) ⟨?_, hrr.2⟩
            dsimp only
            rw [hrr.1]
          · rw [hz, if_pos rfl] at hmeet
            have hsame : Vm.Same ⟨vm.pc + 1 + thenLen, stack, vm.memory⟩
                ⟨vm.pc + 1 + thenLen, stack', vm.memory⟩ := ⟨rfl, hstack, rfl⟩
            obtain ⟨r, r', hr, hr', hrr⟩ := ih hmeet.1 hsame
            simp only [hr, hr', Option.bind_eq_bind, Option.bind_some, if_true]
            exact ih (hmeet.2 r hr) hrr
      all_goals
        dsimp only
        rintro ⟨hstep, hrest⟩
        obtain ⟨s, t, memory, hs, ht, hst⟩ := exec_same vm.memory hstep hstack
        rw [hs, ht]
        exact ih (hrest s memory hs) ⟨rfl, hst, rfl⟩

/-- The program counter never falls. -/
theorem runTo_pc_le {ops : List ExprOpcode} {fuel stop : Nat} {vm vm' : Vm}
    (h : runTo ops fuel stop vm = some vm') : vm.pc ≤ vm'.pc := by
  induction fuel generalizing stop vm vm' with
  | zero =>
    rw [runTo] at h
    split at h
    · cases h
    · cases h
      exact le_rfl
  | succ fuel ih =>
    rw [runTo] at h
    split at h
    · split at h
      · cases h
      · split at h
        · cases h
        · split at h
          · obtain ⟨mid, hmid, h⟩ := Option.bind_eq_some_iff.mp h
            have hfirst := ih hmid
            have hsecond := ih h
            dsimp only at hfirst
            omega
          · obtain ⟨mid, hmid, h⟩ := Option.bind_eq_some_iff.mp h
            have hfirst := ih hmid
            have hsecond := ih h
            dsimp only at hfirst hsecond
            omega
      · obtain ⟨⟨stack, memory⟩, -, h⟩ := Option.bind_eq_some_iff.mp h
        have hrest := ih h
        dsimp only at hrest
        omega
    · cases h
      exact le_rfl

/-- One round for each opcode left is enough. -/
theorem runTo_fuel {ops : List ExprOpcode} {fuel stop : Nat} {vm : Vm}
    (h : ops.length ≤ fuel + vm.pc) : runTo ops (fuel + 1) stop vm = runTo ops fuel stop vm := by
  induction fuel generalizing stop vm with
  | zero =>
    rw [runTo, runTo]
    have hnone : ops[vm.pc]? = none := List.getElem?_eq_none (by omega)
    rw [hnone]
  | succ fuel ih =>
    rw [runTo, runTo]
    split
    · split
      · rfl
      · split
        · rfl
        · split
          · rw [ih (by dsimp only; omega)]
            refine Option.bind_congr fun mid hmid => ?_
            have hle := runTo_pc_le hmid
            dsimp only at hle
            exact ih (by omega)
          · rw [ih (by dsimp only; omega)]
            refine Option.bind_congr fun mid hmid => ?_
            have hle := runTo_pc_le hmid
            dsimp only at hle
            exact ih (by dsimp only; omega)
      · refine Option.bind_congr fun r _ => ?_
        exact ih (by dsimp only; omega)
    · rfl

/-- The integer that an evaluation gives, with the memory behind it. -/
def outcome (result : Option (TestbenchValue × Memory)) : Option (Nat × Memory) :=
  result.map fun r => (r.1.toBiguint, r.2)

theorem outcome_evalHeld (holding : Holding) {ops : List ExprOpcode} {memory : Memory}
    (h : StepsMeet ops ops.length ops.length ⟨0, [], memory⟩) :
    outcome (evalHeld holding ops memory) = outcome (eval ops memory) := by
  obtain ⟨r, r', hr, hr', hpc, hstack, hmemory⟩ := runHeld_same holding h (Vm.Same.refl _)
  rw [eval, evalHeld, hr, hr']
  simp only [Option.bind_eq_bind, Option.bind_some, Option.pure_def, outcome]
  have hhead := congrArg List.head? hstack
  rw [integers, integers, List.head?_map, List.head?_map] at hhead
  rw [hmemory]
  have hvalue : ∀ top : Option TestbenchValue,
      Option.map (fun r => (r.1.toBiguint, r.2))
          (top.bind fun value => some (value, r'.memory)) =
        (top.map TestbenchValue.toBiguint).map fun n => (n, r'.memory) := by
    rintro (_ | _) <;> rfl
  rw [hvalue, hvalue, hhead]

/-! ## How a value is held

The result of an opcode does not depend on how its operands are held, but for inversions to a wider
word, concatenations that outgrow their width and selections beyond the word. -/

/-- Where the two bodies of each typed opcode give one integer that fits into the result, and what
follows for runs. -/
theorem held_either_way (op : Op) (memory : Memory) :
    (∀ (lhsWidth rhsWidth resultWidth : Nat) (lhsSigned rhsSigned : Bool)
      (l l' r r' : TestbenchValue), l.toBiguint = l'.toBiguint → r.toBiguint = r'.toBiguint →
      (Agree resultWidth
          (evalTypedBinop l op r lhsWidth rhsWidth resultWidth lhsSigned rhsSigned)
          (evalTypedBinop l' op r' lhsWidth rhsWidth resultWidth lhsSigned rhsSigned) ↔
        op.isTypedBinary = true ∧ (resultWidth = 0 →
          ¬ op.Compares (lhsSigned && rhsSigned) lhsWidth rhsWidth
            (l.toBiguint % 2 ^ lhsWidth) (r.toBiguint % 2 ^ rhsWidth)))) ∧
    (∀ operandWidth resultWidth n : Nat,
      (∀ v v' : TestbenchValue, v.toBiguint = n → v'.toBiguint = n →
        Agree resultWidth (evalTypedUnop op v operandWidth resultWidth)
          (evalTypedUnop op v' operandWidth resultWidth)) ↔
        op.isTypedUnary = true ∧
          (op = .bitNot → resultWidth ≤ operandWidth ∨ 64 < resultWidth ∨ 2 ^ 64 ≤ n) ∧
          (resultWidth = 0 → ¬ op.Reduces operandWidth (n % 2 ^ operandWidth))) ∧
    (∀ (v v' : TestbenchValue) (sourceWidth targetWidth : Nat) (signed : Bool),
      v.toBiguint = v'.toBiguint →
      Agree targetWidth (some (resizeTbValue v sourceWidth targetWidth signed))
        (some (resizeTbValue v' sourceWidth targetWidth signed))) ∧
    (∀ a p partWidth resultWidth : Nat,
      (∀ x x' y y' : TestbenchValue, x.toBiguint = a → x'.toBiguint = a → y.toBiguint = p →
        y'.toBiguint = p →
        Agree resultWidth (some (concatPart x y partWidth resultWidth))
          (some (concatPart x' y' partWidth resultWidth))) ↔
        (resultWidth ≤ 64 → a < 2 ^ 64 → p < 2 ^ 64 → ∀ i, resultWidth ≤ i → i < 64 →
          (if i < partWidth then p.testBit i else a.testBit (i - partWidth)) = false)) ∧
    (∀ (location baseByteSize selectWidth : Nat) (index : TestbenchValue),
      Agree selectWidth (loadBitSelect memory location baseByteSize selectWidth index)
          (loadBitSelectWide memory location baseByteSize selectWidth index.toU64.toNat) ↔
        (baseByteSize ≤ 8 → selectWidth ≤ 64 → index.toU64.toNat < 64)) ∧
    (∀ ops : List ExprOpcode,
      StepsMeet ops ops.length ops.length ⟨0, [], memory⟩ → ∀ holding : Holding,
        outcome (evalHeld holding ops memory) = outcome (eval ops memory)) :=
  ⟨fun _ _ _ _ _ _ _ _ _ hl hr => agree_typedBinop hl hr, fun _ _ n => agree_typedUnary n,
    fun _ _ sourceWidth targetWidth signed h => agree_resize h sourceWidth targetWidth signed,
    agree_concatPart, agree_loadBitSelect memory, fun _ h holding => outcome_evalHeld holding h⟩

/-- A sum of two bytes, carry dropped. -/
def byteSum : List ExprOpcode :=
  [.constU64 200, .constU64 100, .typedBinOp .add 8 8 8 false false]

theorem byteSum_held :
    Agree 8 (evalTypedBinop (.u64 200) .add (.u64 100) 8 8 8 false false)
        (evalTypedBinop (.wide 200) .add (.wide 100) 8 8 8 false false) ∧
      outcome (evalHeld .wide byteSum fun _ => 0) = outcome (eval byteSum fun _ => 0) := by
  have hheld := held_either_way .add fun _ => 0
  refine ⟨(hheld.1 8 8 8 false false (.u64 200) (.wide 200) (.u64 100) (.wide 100) rfl rfl).mpr
    ⟨rfl, by decide⟩, hheld.2.2.2.2.2 byteSum ?_ .wide⟩
  refine fun _ => ⟨trivial, ?_⟩
  rintro _ _ ⟨⟩
  refine fun _ => ⟨trivial, ?_⟩
  rintro _ _ ⟨⟩
  refine fun _ => ⟨⟨rfl, by decide⟩, ?_⟩
  rintro _ _ ⟨⟩
  exact Nat.le_refl 3

/-- An inversion from eight bits to sixteen, in a word and as a big integer. -/
def invertWider : List ExprOpcode := [.constU64 0x80, .typedUnary .bitNot 8 16]

theorem invertWider_held :
    outcome (eval invertWider fun _ => 0) = some (0xff7f, fun _ => 0) ∧
      outcome (evalHeld .wide invertWider fun _ => 0) = some (0x7f, fun _ => 0) ∧
      loadBitSelect (fun _ => 0) 0 1 1 (.u64 64) = none ∧
      concatPart (.u64 1) (.u64 0) 4 4 = .u64 16 ∧
      (concatPart (.wide 1) (.wide 0) 4 4).toBiguint = 0 := by
  exact ⟨rfl, rfl, rfl, rfl, rfl⟩

end Celox.Testbench
