import Celox.Sir.Extends

/-! # Values bit by bit

A value that fits its width is known by its bits. A slice takes bits of one value, a concatenation
puts the bits of several behind each other. -/
namespace Celox.Sir

variable {A : Type}

section Bits
variable {value : SIRValue} {width k : Nat}

theorem bit_of_fits (h : value.fits width) (hk : width ≤ k) : value.bit k = (false, false) := by
  have hle : 2 ^ width ≤ 2 ^ k := Nat.pow_le_pow_right (by omega) hk
  simp only [SIRValue.bit, Nat.testBit_lt_two_pow (h.1.trans_le hle),
    Nat.testBit_lt_two_pow (h.2.trans_le hle)]

theorem value_ext {value' : SIRValue} (h : value.fits width) (h' : value'.fits width)
    (hbits : ∀ k < width, value.bit k = value'.bit k) : value = value' := by
  have hall : ∀ k, value.bit k = value'.bit k := by
    intro k
    by_cases hk : k < width
    · exact hbits k hk
    · rw [bit_of_fits h (by omega), bit_of_fits h' (by omega)]
  obtain ⟨payload, mask⟩ := value
  obtain ⟨payload', mask'⟩ := value'
  have hp : payload = payload' := Nat.eq_of_testBit_eq fun k => congrArg Prod.fst (hall k)
  have hm : mask = mask' := Nat.eq_of_testBit_eq fun k => congrArg Prod.snd (hall k)
  rw [hp, hm]

theorem readBits_fits (memory : BitMemory A) (addr : A) (start bits : Nat) :
    (readBits memory addr start bits).fits bits :=
  ⟨Nat.ofBits_lt_two_pow _, Nat.ofBits_lt_two_pow _⟩

theorem readBits_bit (memory : BitMemory A) (addr : A) (start : Nat) {bits : Nat} (hk : k < bits) :
    (readBits memory addr start bits).bit k = memory addr (start + k) := by
  simp only [SIRValue.bit, readBits, Nat.testBit_ofBits_lt _ _ hk]

theorem evalSlice_fits (value : SIRValue) (offset width : Nat) :
    (evalSlice value offset width).fits width := by
  simp only [evalSlice, SIRValue.fits, Nat.and_two_pow_sub_one_eq_mod]
  exact ⟨Nat.mod_lt _ (Nat.two_pow_pos _), Nat.mod_lt _ (Nat.two_pow_pos _)⟩

theorem evalSlice_bit (value : SIRValue) (offset : Nat) (hk : k < width) :
    (evalSlice value offset width).bit k = value.bit (offset + k) := by
  simp only [evalSlice, SIRValue.bit, Nat.and_two_pow_sub_one_eq_mod, Nat.testBit_mod_two_pow,
    Nat.testBit_shiftRight, hk, decide_true, Bool.true_and]

theorem cut_bit (value : SIRValue) (hk : k < width) : (value.cut width).bit k = value.bit k := by
  simp only [SIRValue.bit, SIRValue.cut, Nat.testBit_mod_two_pow, hk, decide_true, Bool.true_and]

theorem kept_bit {eu : ExecutionUnit A} {reg : RegisterId} {type : RegisterType}
    (htype : eu.types reg = some type) (value : SIRValue) (hk : k < type.width) :
    (eu.kept reg value).bit k = value.bit k := by
  unfold ExecutionUnit.types at htype
  unfold ExecutionUnit.kept
  rw [htype]
  exact cut_bit value hk

end Bits

/-! ## Concatenation -/

/-- One value above another one. -/
def SIRValue.above (upper lower : SIRValue) (width : Nat) : SIRValue :=
  ⟨upper.payload <<< width ||| lower.payload, upper.mask <<< width ||| lower.mask⟩

private theorem shift_or_bit {upper lower width : Nat} (h : lower < 2 ^ width) (k : Nat) :
    (upper <<< width ||| lower).testBit k =
      if k < width then lower.testBit k else upper.testBit (k - width) := by
  rw [Nat.testBit_or, Nat.testBit_shiftLeft]
  split
  · rename_i hk
    simp [Nat.not_le.mpr hk]
  · rename_i hk
    have hle : 2 ^ width ≤ 2 ^ k := Nat.pow_le_pow_right (by omega) (Nat.not_lt.mp hk)
    rw [Nat.testBit_lt_two_pow (h.trans_le hle), Bool.or_false, decide_eq_true (Nat.not_lt.mp hk),
      Bool.true_and]

private theorem shift_or_lt {upper lower width total : Nat} (hu : upper < 2 ^ total)
    (hl : lower < 2 ^ width) : upper <<< width ||| lower < 2 ^ (width + total) := by
  refine Nat.or_lt_two_pow ?_ (hl.trans_le (Nat.pow_le_pow_right (by omega) (by omega)))
  rw [Nat.shiftLeft_eq, Nat.pow_add, Nat.mul_comm]
  exact Nat.mul_lt_mul_of_pos_left hu (Nat.two_pow_pos _)

theorem above_bit {upper lower : SIRValue} {width : Nat} (h : lower.fits width) (k : Nat) :
    (upper.above lower width).bit k =
      if k < width then lower.bit k else upper.bit (k - width) := by
  simp only [SIRValue.bit, SIRValue.above, shift_or_bit h.1, shift_or_bit h.2]
  split <;> rfl

theorem above_fits {upper lower : SIRValue} {width total : Nat} (hu : upper.fits total)
    (hl : lower.fits width) : (upper.above lower width).fits (width + total) :=
  ⟨shift_or_lt hu.1 hl.1, shift_or_lt hu.2 hl.2⟩

theorem evalConcat_append (args : List (RegisterType × SIRValue))
    (arg : RegisterType × SIRValue) :
    evalConcat (args ++ [arg]) = (evalConcat args).above arg.2 arg.1.width := by
  unfold evalConcat
  rw [List.foldl_append]
  rfl

theorem mapM_reverse {α β : Type} {f : α → Option β} {l : List α} {values : List β}
    (h : l.mapM f = some values) : l.reverse.mapM f = some values.reverse := by
  induction l generalizing values with
  | nil =>
    cases h
    rfl
  | cons x l ih =>
    simp only [List.mapM_cons, Option.bind_eq_bind, Option.bind_eq_some_iff, Option.pure_def,
      Option.some.injEq] at h
    obtain ⟨y, hy, rest, hrest, rfl⟩ := h
    rw [List.reverse_cons, List.reverse_cons, List.mapM_append, ih hrest]
    simp [hy]

/-- Registers that hold the expected bits of a range one after the other, least significant
first. -/
inductive Spells (eu : ExecutionUnit A) (regs : Registers) (bits : Nat → Bool × Bool) :
    Nat → List RegisterId → Nat → Prop
  | nil {cursor : Nat} : Spells eu regs bits cursor [] cursor
  | cons {cursor stop : Nat} {reg : RegisterId} {type : RegisterType} {value : SIRValue}
    {rest : List RegisterId} :
    eu.types reg = some type → regs reg = some value → value.fits type.width →
      (∀ k < type.width, value.bit k = bits (cursor + k)) →
      Spells eu regs bits (cursor + type.width) rest stop →
      Spells eu regs bits cursor (reg :: rest) stop

theorem Spells.le {eu : ExecutionUnit A} {regs : Registers} {bits : Nat → Bool × Bool}
    {cursor stop : Nat} {args : List RegisterId} (h : Spells eu regs bits cursor args stop) :
    cursor ≤ stop := by
  induction h with
  | nil => exact le_rfl
  | cons _ _ _ _ _ ih => omega

theorem Spells.concat {eu : ExecutionUnit A} {regs : Registers} {bits : Nat → Bool × Bool}
    {cursor stop : Nat} {args : List RegisterId} (h : Spells eu regs bits cursor args stop) :
    ∃ values, args.mapM (eu.operand regs) = some values ∧
      (evalConcat values.reverse).fits (stop - cursor) ∧
      ∀ k < stop - cursor, (evalConcat values.reverse).bit k = bits (cursor + k) := by
  induction h with
  | nil => exact ⟨[], rfl, ⟨Nat.two_pow_pos _, Nat.two_pow_pos _⟩, fun k hk => by omega⟩
  | @cons cursor stop reg type value rest htype hvalue hfits hbits hrest ih =>
    obtain ⟨values, hvalues, hfit, hbit⟩ := ih
    have hle := hrest.le
    unfold ExecutionUnit.types at htype
    refine ⟨(type, value) :: values, ?_, ?_, fun k hk => ?_⟩
    · simp only [List.mapM_cons, ExecutionUnit.operand, htype, hvalue, hvalues]
      rfl
    · rw [List.reverse_cons, evalConcat_append]
      have hsum : type.width + (stop - (cursor + type.width)) = stop - cursor := by omega
      rw [← hsum]
      exact above_fits hfit hfits
    · rw [List.reverse_cons, evalConcat_append, above_bit hfits]
      split
      · rename_i hlt
        exact hbits k hlt
      · rename_i hge
        rw [hbit (k - type.width) (by omega)]
        congr 1
        omega

theorem Spells.congr {eu : ExecutionUnit A} {regs regs' : Registers} {bits : Nat → Bool × Bool}
    {cursor stop : Nat} {args : List RegisterId} (h : Spells eu regs bits cursor args stop)
    (hregs : ∀ reg ∈ args, regs' reg = regs reg) : Spells eu regs' bits cursor args stop := by
  induction h with
  | nil => exact .nil
  | cons htype hvalue hfits hbits _ ih =>
    exact .cons htype ((hregs _ List.mem_cons_self).trans hvalue) hfits hbits
      (ih fun reg hreg => hregs reg (List.mem_cons_of_mem _ hreg))

theorem Spells.congr_bits {eu : ExecutionUnit A} {regs : Registers} {bits bits' : Nat → Bool × Bool}
    {cursor stop : Nat} {args : List RegisterId} (h : Spells eu regs bits cursor args stop)
    (hbits : ∀ k, cursor ≤ k → bits' k = bits k) : Spells eu regs bits' cursor args stop := by
  induction h with
  | nil => exact .nil
  | cons htype hvalue hfits hvalueBits _ ih =>
    exact .cons htype hvalue hfits (fun k hk => (hvalueBits k hk).trans
      (hbits _ (Nat.le_add_right _ _)).symm) (ih fun k hk => hbits k (by omega))

theorem Spells.append {eu : ExecutionUnit A} {regs : Registers} {bits : Nat → Bool × Bool}
    {cursor middle stop : Nat} {args args' : List RegisterId}
    (h : Spells eu regs bits cursor args middle) (h' : Spells eu regs bits middle args' stop) :
    Spells eu regs bits cursor (args ++ args') stop := by
  induction h with
  | nil => exact h'
  | cons htype hvalue hfits hbits _ ih => exact .cons htype hvalue hfits hbits (ih h')

end Celox.Sir
