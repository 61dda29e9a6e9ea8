import Celox.Layout.Strided
import Celox.Opt.Allocation
import Celox.Sir.Unused
import Celox.Bits.Parity

/-! # Folding of exclusive-or chains

Where an exclusive or is one of single bits of one register, the register is masked and its parity
taken instead. -/
namespace Celox.Opt
open Celox.Sir Celox.Layout

variable {A : Type}

/-! ## Chains -/

/-- The last definition of each register. -/
def blockDefs (instructions : List (SIRInstruction (RegionedAbsoluteAddr A))) :
    RegisterId → Option (SIRInstruction (RegionedAbsoluteAddr A)) :=
  instructions.foldl (fun defs inst => match inst.definedRegister with
    | some dst => Function.update defs dst (some inst)
    | none => defs) fun _ => none

section Chains
variable (defs : RegisterId → Option (SIRInstruction (RegionedAbsoluteAddr A)))

/-- The positions and the source so far, with those of a register. The chain of a definition is not
deeper than its block is long. -/
def collectXorBits : Nat → RegisterId → List Nat × Option RegisterId →
    Option (List Nat × Option RegisterId)
  | 0, _, _ => none
  | fuel + 1, reg, (bits, source) =>
    match defs reg with
    | some (.slice _ src offset 1) =>
      if source = none ∨ source = some src then some (bits ++ [offset], some src) else none
    | some (.binary _ lhs .xor rhs) =>
      (collectXorBits fuel lhs (bits, source)).bind (collectXorBits fuel rhs)
    | some (.unary _ .ident src) => collectXorBits fuel src (bits, source)
    | _ => none

/-- The bits of a mask of 64 bits. -/
def xorMask (bits : List Nat) : Nat :=
  bits.foldl (fun mask pos => if pos < 64 then mask ||| 1 <<< pos else mask) 0

/-- The root of a chain, with the register whose bits it takes. -/
structure XorRoot where
  dst : RegisterId
  src : RegisterId
  bits : List Nat
  srcWidth : Nat

variable (registerMap : Table RegisterId RegisterType) (fuel : Nat)

def xorRoot (inst : SIRInstruction (RegionedAbsoluteAddr A)) : Option XorRoot :=
  match inst with
  | .binary dst lhs .xor rhs =>
    match (collectXorBits defs fuel lhs ([], none)).bind (collectXorBits defs fuel rhs) with
    | some (bits, some src) =>
      if 3 ≤ bits.length ∧ xorMask bits ≠ 0 then
        some ⟨dst, src, bits, ((registerMap.lookup src).map RegisterType.width).getD 64⟩
      else none
    | _ => none
  | _ => none

/-! ## Replacements -/

/-- The masked source and its parity, with two new registers. -/
def XorRoot.fold (root : XorRoot) (allocation : Allocation) :
    List (SIRInstruction (RegionedAbsoluteAddr A)) × Allocation :=
  let maskWidth := min root.srcWidth 64
  let (maskReg, allocation) := allocation.push (.bit maskWidth false)
  let (maskedReg, allocation) := allocation.push (.bit maskWidth false)
  ([.imm maskReg ⟨xorMask root.bits, 0⟩, .binary maskedReg root.src .and maskReg,
    .unary root.dst .xor maskedReg], allocation)

/-- The last root gets the first registers. -/
def foldXorRoots : List (SIRInstruction (RegionedAbsoluteAddr A)) → Allocation →
    List (SIRInstruction (RegionedAbsoluteAddr A)) × Allocation
  | [], allocation => ([], allocation)
  | inst :: rest, allocation =>
    let (rest, allocation) := foldXorRoots rest allocation
    match xorRoot defs registerMap fuel inst with
    | some root =>
      let (folded, allocation) := root.fold allocation
      (folded ++ rest, allocation)
    | none => (inst :: rest, allocation)

end Chains

def foldXorChains (block : BasicBlock (RegionedAbsoluteAddr A)) (allocation : Allocation) :
    BasicBlock (RegionedAbsoluteAddr A) × Allocation :=
  let (instructions, after) := foldXorRoots (blockDefs block.instructions) allocation.registerMap
    block.instructions.length block.instructions allocation
  ({ block with instructions }, after)

section Pass
variable (eu : ExecutionUnit (RegionedAbsoluteAddr A))

/-- The unit with all chains folded, before unused definitions are left out. -/
def xorFolded : ExecutionUnit (RegionedAbsoluteAddr A) :=
  let (blocks, allocation) := rewriteBlocks foldXorChains eu.blocks (startAllocation eu)
  { eu with blocks, registerMap := allocation.registerMap }

/-- Whether a block has a root. -/
def hasXorRoot (block : BasicBlock (RegionedAbsoluteAddr A)) : Bool :=
  block.instructions.any fun inst => (xorRoot (blockDefs block.instructions) eu.registerMap
    block.instructions.length inst).isSome

def xorChainFolding : ExecutionUnit (RegionedAbsoluteAddr A) :=
  if eu.blocks.entries.any fun entry => hasXorRoot eu entry.2 then (xorFolded eu).retainUsed
  else eu

end Pass
end Celox.Opt

/-! ## Values of exclusive-or chains

The value of a chain is unknown where one of its bits is, and the parity of its bits otherwise. The
masked source has the same parity exactly where every position below 64 occurs an odd number of
times and every other one an even number. -/
namespace Celox.Opt
open Celox.Bits Celox.Sir Celox.Layout

variable {A : Type}

/-! ## Shapes -/

/-- A chain with the registers that hold its parts. -/
inductive XorTree where
  | slice (dst : RegisterId) (offset : Nat)
  | xor (dst : RegisterId) (lhs rhs : XorTree)
  | ident (dst : RegisterId) (src : XorTree)

def XorTree.dst : XorTree → RegisterId
  | .slice dst _ | .xor dst _ _ | .ident dst _ => dst

def XorTree.bits : XorTree → List Nat
  | .slice _ offset => [offset]
  | .xor _ lhs rhs => lhs.bits ++ rhs.bits
  | .ident _ src => src.bits

/-- The definitions of a block have a chain of bits of one source. -/
inductive Chain (defs : RegisterId → Option (SIRInstruction (RegionedAbsoluteAddr A)))
    (source : RegisterId) : XorTree → Prop
  | slice {reg dst : RegisterId} {offset : Nat} :
      defs reg = some (.slice dst source offset 1) → Chain defs source (.slice reg offset)
  | xor {reg dst : RegisterId} {lhs rhs : XorTree} :
      defs reg = some (.binary dst lhs.dst .xor rhs.dst) → Chain defs source lhs →
        Chain defs source rhs → Chain defs source (.xor reg lhs rhs)
  | ident {reg dst : RegisterId} {src : XorTree} :
      defs reg = some (.unary dst .ident src.dst) → Chain defs source src →
        Chain defs source (.ident reg src)

section Collect
variable {defs : RegisterId → Option (SIRInstruction (RegionedAbsoluteAddr A))} {fuel : Nat}
  {reg : RegisterId} {bits bits' : List Nat} {source source' : Option RegisterId}
  {registerMap : Table RegisterId RegisterType} {inst : SIRInstruction (RegionedAbsoluteAddr A)}
  {root : XorRoot}

/-- What is collected are the bits of a chain. -/
theorem collectXorBits_some
    (h : collectXorBits defs fuel reg (bits, source) = some (bits', source')) :
    ∃ src tree, Chain defs src tree ∧ tree.dst = reg ∧ bits' = bits ++ tree.bits ∧
      source' = some src ∧ (source = none ∨ source = some src) := by
  induction fuel generalizing reg bits source bits' source' with
  | zero => cases h
  | succ fuel ih =>
    unfold collectXorBits at h
    split at h
    · rename_i dst src offset hdef
      split at h
      · rename_i hsource
        cases h
        exact ⟨src, .slice reg offset, .slice hdef, rfl, rfl, rfl, hsource⟩
      · cases h
    · rename_i dst lhs rhs hdef
      obtain ⟨⟨middle, between⟩, hlhs, hrhs⟩ := Option.bind_eq_some_iff.mp h
      obtain ⟨src, left, hleft, rfl, rfl, rfl, hsource⟩ := ih hlhs
      obtain ⟨src', right, hright, rfl, rfl, rfl, hsame⟩ := ih hrhs
      obtain rfl : src = src' := by
        rcases hsame with hsame | hsame <;> cases hsame
        rfl
      exact ⟨src, .xor reg left right, .xor hdef hleft hright, rfl, List.append_assoc _ _ _, rfl,
        hsource⟩
    · rename_i dst src hdef
      obtain ⟨src', tree, hchain, rfl, rfl, rfl, hsource⟩ := ih h
      exact ⟨src', .ident reg tree, .ident hdef hchain, rfl, rfl, rfl, hsource⟩
    · cases h

/-- A root is an exclusive or of two chains of one source. -/
theorem xorRoot_some (h : xorRoot defs registerMap fuel inst = some root) :
    ∃ lhs rhs : XorTree, inst = .binary root.dst lhs.dst .xor rhs.dst ∧
      Chain defs root.src lhs ∧ Chain defs root.src rhs ∧ root.bits = lhs.bits ++ rhs.bits ∧
      3 ≤ root.bits.length ∧
      root.srcWidth = ((registerMap.lookup root.src).map RegisterType.width).getD 64 := by
  unfold xorRoot at h
  split at h
  · rename_i dst lhs rhs
    split at h
    · rename_i bits src hbits
      split at h
      · rename_i hlong
        cases h
        obtain ⟨⟨middle, between⟩, hlhs, hrhs⟩ := Option.bind_eq_some_iff.mp hbits
        obtain ⟨src', left, hleft, rfl, rfl, rfl, -⟩ := collectXorBits_some hlhs
        obtain ⟨src'', right, hright, rfl, rfl, heq, hsame⟩ := collectXorBits_some hrhs
        cases heq
        obtain rfl : src' = src := by
          rcases hsame with hsame | hsame <;> cases hsame
          rfl
        exact ⟨left, right, rfl, hleft, hright, rfl, hlong.1, rfl⟩
      · cases h
    · cases h
  · cases h

theorem Chain.unique {src : RegisterId} {tree tree' : XorTree} (h : Chain defs src tree)
    (h' : Chain defs src tree') (hdst : tree.dst = tree'.dst) : tree = tree' := by
  induction h generalizing tree' with
  | @slice reg dst offset hdef =>
    cases h' with
    | slice hdef' | xor hdef' _ _ | ident hdef' _ =>
      obtain rfl : reg = _ := hdst
      rw [hdef] at hdef'
      cases hdef' <;> rfl
  | @xor reg dst lhs rhs hdef _ _ ihl ihr =>
    cases h' with
    | slice hdef' | ident hdef' _ =>
      obtain rfl : reg = _ := hdst
      rw [hdef] at hdef'
      cases hdef'
    | @xor reg' dst' lhs' rhs' hdef' hl hr =>
      obtain rfl : reg = reg' := hdst
      rw [hdef] at hdef'
      injection hdef' with hinst
      injection hinst with _ hlhs _ hrhs
      rw [ihl hl hlhs, ihr hr hrhs]
  | @ident reg dst src' hdef _ ih =>
    cases h' with
    | slice hdef' | xor hdef' _ _ =>
      obtain rfl : reg = _ := hdst
      rw [hdef] at hdef'
      cases hdef'
    | @ident reg' dst' src'' hdef' hs =>
      obtain rfl : reg = reg' := hdst
      rw [hdef] at hdef'
      injection hdef' with hinst
      injection hinst with _ _ hsrc
      rw [ih hs hsrc]

theorem testBit_xorMask (bits : List Nat) (i : Nat) :
    (xorMask bits).testBit i = true ↔ i < 64 ∧ i ∈ bits := by
  suffices hfold : ∀ mask : Nat, (bits.foldl (fun mask pos =>
      if pos < 64 then mask ||| 1 <<< pos else mask) mask).testBit i = true ↔
        mask.testBit i = true ∨ i < 64 ∧ i ∈ bits by
    have hzero := hfold 0
    rwa [Nat.zero_testBit, Bool.false_eq_true, false_or] at hzero
  induction bits with
  | nil => simp
  | cons pos bits ih =>
    intro mask
    rw [List.foldl_cons, ih]
    by_cases hpos : pos < 64
    · rw [if_pos hpos, Nat.testBit_or, Nat.one_shiftLeft, Nat.testBit_two_pow, Bool.or_eq_true,
        decide_eq_true_iff, List.mem_cons]
      constructor
      · rintro ((hmask | rfl) | hmem)
        · exact .inl hmask
        · exact .inr ⟨hpos, .inl rfl⟩
        · exact .inr ⟨hmem.1, .inr hmem.2⟩
      · rintro (hmask | ⟨hlt, rfl | hmem⟩)
        · exact .inl (.inl hmask)
        · exact .inl (.inr rfl)
        · exact .inr ⟨hlt, hmem⟩
    · rw [if_neg hpos, List.mem_cons]
      constructor
      · rintro (hmask | hmem)
        · exact .inl hmask
        · exact .inr ⟨hmem.1, .inr hmem.2⟩
      · rintro (hmask | ⟨hlt, rfl | hmem⟩)
        · exact .inl hmask
        · exact absurd hlt hpos
        · exact .inr ⟨hlt, hmem⟩

end Collect

/-! ## Values -/

/-- What a machine makes of unknown bits: exclusive or and parity have no dominant value. -/
structure FourState (model : BitModel (RegionedAbsoluteAddr A)) : Prop where
  and : ∀ dst lhs rhs x y, model.binary .and dst lhs rhs x y =
    let mask := x.mask &&& y.mask ||| x.mask &&& y.payload ||| y.mask &&& x.payload
    ⟨x.payload &&& y.payload ||| mask, mask⟩
  xor : ∀ dst lhs rhs x y, model.binary .xor dst lhs rhs x y =
    ⟨(x.payload ^^^ y.payload) ||| (x.mask ||| y.mask), x.mask ||| y.mask⟩
  parity : ∀ dst src x, dst.width ≠ 0 → x.mask ≠ 0 → ∃ unknown, unknown % 2 = 1 ∧
    model.unary .xor dst src x = ⟨bitCount x.payload % 2 ||| unknown, unknown⟩

section Values
variable [DecidableEq A] (eu : ExecutionUnit (RegionedAbsoluteAddr A))
  (model : BitModel (RegionedAbsoluteAddr A)) (value : SIRValue)

def typeOf (reg : RegisterId) : RegisterType := (eu.types reg).getD (.logic 0)

/-- What the definitions of a chain make of a value of its source. -/
def XorTree.result : XorTree → SIRValue
  | .slice dst offset => eu.kept dst (evalSlice value offset 1)
  | .xor dst lhs rhs => eu.kept dst (evalBinary model.machine .xor (typeOf eu dst)
      (typeOf eu lhs.dst) (typeOf eu rhs.dst) lhs.result rhs.result)
  | .ident dst src => eu.kept dst (evalUnary model.machine .ident (typeOf eu dst)
      (typeOf eu src.dst) src.result)

/-- What the folded root makes of it. -/
def XorRoot.result (root : XorRoot) : SIRValue :=
  let type := .bit (min root.srcWidth 64) false
  let masked := (evalBinary model.machine .and type (typeOf eu root.src) type value
    (SIRValue.cut ⟨xorMask root.bits, 0⟩ type.width)).cut type.width
  eu.kept root.dst (evalUnary model.machine .xor (typeOf eu root.dst) type masked)

/-- Unknown where a bit of the source is, and otherwise the parity of the bits. -/
def parityOf (bits : List Nat) : SIRValue :=
  if bits.any value.mask.testBit then ⟨1, 1⟩ else ⟨bits.countP value.payload.testBit % 2, 0⟩

/-- A bit that is unknown if one of the bits of the source is, and otherwise has their parity. -/
structure HasParity (value : SIRValue) (bits : List Nat) (result : SIRValue) : Prop where
  payload : result.payload < 2
  mask : result.mask = (bits.any value.mask.testBit).toNat
  known : bits.any value.mask.testBit = false →
    result.payload = bits.countP value.payload.testBit % 2

variable {eu model value}

theorem shiftRight_and_one (n offset : Nat) :
    n >>> offset &&& (2 ^ 1 - 1) = (n.testBit offset).toNat := by
  rw [Nat.and_two_pow_sub_one_eq_mod, Nat.shiftRight_eq_div_pow, pow_one, ← Nat.toNat_testBit]

theorem xor_of_lt_two {a b : Nat} (ha : a < 2) (hb : b < 2) : a ^^^ b = (a + b) % 2 := by
  interval_cases a <;> interval_cases b <;> rfl

theorem or_one_of_lt_two {a : Nat} (ha : a < 2) : a ||| 1 = 1 := by
  interval_cases a <;> rfl

theorem parityOf_hasParity (value : SIRValue) (bits : List Nat) :
    HasParity value bits (parityOf value bits) := by
  unfold parityOf
  cases hany : bits.any value.mask.testBit
  · exact ⟨Nat.mod_lt _ (by decide), by rw [hany]; rfl, fun _ => rfl⟩
  · exact ⟨Nat.one_lt_two, by rw [hany]; rfl, fun h => by rw [hany] at h; cases h⟩

theorem HasParity.mask_lt {bits : List Nat} {result : SIRValue} (h : HasParity value bits result) :
    result.mask < 2 :=
  h.mask ▸ Bool.toNat_lt _

omit [DecidableEq A] in
/-- A register of a verified unit has room for one bit. -/
theorem HasParity.kept (hv : Verified eu) {dst : RegisterId} (hdst : Declared eu.types dst)
    {bits : List Nat} {result : SIRValue} (h : HasParity value bits result) :
    eu.kept dst result = result := by
  obtain ⟨type, htype⟩ := hdst
  have hroom : 2 ≤ 2 ^ type.width := Nat.le_self_pow (hv.widths dst type htype) 2
  exact kept_of_fits htype ⟨h.payload.trans_le hroom, h.mask_lt.trans_le hroom⟩

/-- An exclusive or of bits with parities. -/
theorem HasParity.xor (hmodel : FourState model) {left right : List Nat} {lhs rhs : SIRValue}
    (hl : HasParity value left lhs) (hr : HasParity value right rhs)
    (dst lhsType rhsType : RegisterType) :
    evalBinary model.machine .xor dst lhsType rhsType lhs rhs = parityOf value (left ++ right) := by
  have hpayload := xor_of_lt_two hl.payload hr.payload
  simp only [evalBinary, knownBinary, parityOf]
  cases hunknown : (left ++ right).any value.mask.testBit
  · have hknown := hunknown
    rw [List.any_append, Bool.or_eq_false_iff] at hknown
    have hzero : lhs.mask = 0 ∧ rhs.mask = 0 := by
      rw [hl.mask, hr.mask, hknown.1, hknown.2]
      exact ⟨rfl, rfl⟩
    rw [if_pos hzero, if_neg Bool.false_ne_true, hpayload, hl.known hknown.1, hr.known hknown.2,
      List.countP_append, ← Nat.add_mod]
  · have hmask : lhs.mask ||| rhs.mask = 1 := by
      rw [List.any_append] at hunknown
      rw [hl.mask, hr.mask]
      revert hunknown
      cases left.any value.mask.testBit <;> cases right.any value.mask.testBit <;> decide
    have hne : ¬ (lhs.mask = 0 ∧ rhs.mask = 0) := by
      rintro ⟨hzero, hzero'⟩
      rw [hzero, hzero'] at hmask
      cases hmask
    have hlt : lhs.payload ^^^ rhs.payload < 2 := hpayload ▸ Nat.mod_lt _ (by decide)
    rw [if_neg hne, if_pos rfl, BitModel.machine]
    simp only [hmodel.xor, hmask, or_one_of_lt_two hlt]

/-- All registers of a chain are declared. -/
def XorTree.Declared (eu : ExecutionUnit (RegionedAbsoluteAddr A)) : XorTree → Prop
  | .slice dst _ => Sir.Declared eu.types dst
  | .xor dst lhs rhs => Sir.Declared eu.types dst ∧ lhs.Declared eu ∧ rhs.Declared eu
  | .ident dst src => Sir.Declared eu.types dst ∧ src.Declared eu

/-- Every chain has the parity of its bits. -/
theorem XorTree.result_parity (hv : Verified eu) (hmodel : FourState model) {tree : XorTree}
    (htree : tree.Declared eu) : HasParity value tree.bits (tree.result eu model value) := by
  induction tree with
  | slice dst offset =>
    have hslice : HasParity value [offset] (evalSlice value offset 1) := by
      rw [evalSlice, shiftRight_and_one, shiftRight_and_one]
      refine ⟨Bool.toNat_lt _, by simp, fun _ => ?_⟩
      cases hbit : value.payload.testBit offset <;> simp [hbit]
    rw [XorTree.result, hslice.kept hv htree]
    exact hslice
  | xor dst lhs rhs ihl ihr =>
    obtain ⟨hdst, hl, hr⟩ := htree
    have hparity := parityOf_hasParity value (lhs.bits ++ rhs.bits)
    rw [XorTree.result, (ihl hl).xor hmodel (ihr hr), hparity.kept hv hdst]
    exact hparity
  | ident dst src ih =>
    obtain ⟨hdst, hsrc⟩ := htree
    rw [XorTree.result, show evalUnary model.machine .ident (typeOf eu dst) (typeOf eu src.dst)
      (src.result eu model value) = src.result eu model value from rfl, (ih hsrc).kept hv hdst]
    exact ih hsrc

end Values

/-! ## Masked sources -/

theorem bitCount_eq_countP {value n : Nat} (h : value < 2 ^ n) :
    bitCount value = (List.range n).countP value.testBit := by
  have hlength : bitLength value ≤ n := by
    unfold bitLength
    split
    · exact Nat.zero_le _
    · rename_i hne
      exact (Nat.log2_lt hne).mpr h
  have hlt : value < 2 ^ bitLength value := by
    unfold bitLength
    split
    · rename_i hzero
      rw [hzero]
      exact Nat.one_pos
    · exact Nat.lt_log2_self
  obtain ⟨k, rfl⟩ := Nat.exists_eq_add_of_le hlength
  rw [bitCount, ← List.countP_eq_length_filter, List.range_add, List.countP_append,
    List.countP_map, left_eq_add, List.countP_eq_zero]
  intro i _ hbit
  have hle : 2 ^ bitLength value ≤ 2 ^ (bitLength value + i) :=
    Nat.pow_le_pow_right (by decide) (Nat.le_add_right _ _)
  rw [Function.comp_apply, Nat.testBit_lt_two_pow (hlt.trans_le hle)] at hbit
  cases hbit

/-- Every root has bits of a declared source, and a declared destination. -/
structure XorRoot.WellTyped (eu : ExecutionUnit (RegionedAbsoluteAddr A)) (root : XorRoot)
    (type : RegisterType) : Prop where
  src : eu.types root.src = some type
  width : root.srcWidth = type.width
  bits : ∀ p ∈ root.bits, p < type.width
  dst : Declared eu.types root.dst

section Masked
variable [DecidableEq A] {eu : ExecutionUnit (RegionedAbsoluteAddr A)}
  {model : BitModel (RegionedAbsoluteAddr A)} {value : SIRValue} {root : XorRoot}
  {type : RegisterType}

omit [DecidableEq A] in
theorem XorRoot.WellTyped.mask_lt (h : root.WellTyped eu type) :
    xorMask root.bits < 2 ^ min root.srcWidth 64 := by
  refine Nat.lt_pow_two_of_testBit _ fun i hi => Bool.eq_false_iff.mpr fun hbit => ?_
  obtain ⟨hlt, hmem⟩ := (testBit_xorMask root.bits i).mp hbit
  have hwidth := h.bits i hmem
  rw [← h.width] at hwidth
  omega

theorem XorRoot.WellTyped.result_eq (h : root.WellTyped eu type) (hmodel : FourState model) :
    root.result eu model value = eu.kept root.dst (evalUnary model.machine .xor
      (typeOf eu root.dst) (.bit (min root.srcWidth 64) false)
      ⟨value.payload &&& xorMask root.bits ||| value.mask &&& xorMask root.bits,
        value.mask &&& xorMask root.bits⟩) := by
  have hmask := h.mask_lt
  have hwidth : (RegisterType.bit (min root.srcWidth 64) false).width = min root.srcWidth 64 := rfl
  simp only [XorRoot.result, evalBinary, knownBinary, SIRValue.cut, hwidth,
    Nat.mod_eq_of_lt hmask, Nat.zero_mod, and_true]
  have hpayload := Nat.and_lt_two_pow value.payload hmask
  have hunknown := Nat.and_lt_two_pow value.mask hmask
  split
  · rename_i hzero
    rw [hzero, Nat.zero_and, Nat.or_zero, Nat.mod_eq_of_lt hpayload, Nat.zero_mod]
  · rw [BitModel.machine]
    simp only [hmodel.and, Nat.and_zero, Nat.zero_or, Nat.zero_and, Nat.or_zero]
    rw [Nat.mod_eq_of_lt hunknown, Nat.mod_eq_of_lt (Nat.or_lt_two_pow hpayload hunknown)]

/-- The folded root gives the parity of the masked source. -/
theorem XorRoot.WellTyped.result_known (hv : Verified eu) (h : root.WellTyped eu type)
    (hmodel : FourState model) (hknown : value.mask &&& xorMask root.bits = 0) :
    root.result eu model value =
      ⟨(List.range type.width).countP (value.payload &&& xorMask root.bits).testBit % 2, 0⟩ := by
  have hlt : value.payload &&& xorMask root.bits < 2 ^ type.width := by
    refine (Nat.and_lt_two_pow _ h.mask_lt).trans_le (Nat.pow_le_pow_right (by decide) ?_)
    rw [h.width]
    exact Nat.min_le_left _ _
  obtain ⟨dstType, hdst⟩ := h.dst
  rw [h.result_eq hmodel, hknown, Nat.or_zero]
  simp only [evalUnary, knownUnary, if_true, bitCount_eq_countP hlt]
  refine kept_of_fits hdst ⟨?_, Nat.two_pow_pos _⟩
  exact (Nat.mod_lt _ (by decide)).trans_le (Nat.le_self_pow (hv.widths _ _ hdst) 2)

/-- Into one bit, an unknown bit gives an unknown parity. -/
theorem XorRoot.WellTyped.result_unknown (h : root.WellTyped eu type) (hmodel : FourState model)
    (hdst : HasWidth eu.types root.dst 1) (hunknown : value.mask &&& xorMask root.bits ≠ 0) :
    root.result eu model value = ⟨1, 1⟩ := by
  obtain ⟨dstType, hdstType, hwidth⟩ := hdst
  have htype : typeOf eu root.dst = dstType := by rw [typeOf, hdstType, Option.getD_some]
  have hshape : dstType.shape.width ≠ 0 := by
    rw [show dstType.shape.width = dstType.width from rfl, hwidth]
    exact Nat.one_ne_zero
  obtain ⟨unknown, hodd, heval⟩ := hmodel.parity dstType.shape
    (RegisterType.bit (min root.srcWidth 64) false).shape
    ⟨value.payload &&& xorMask root.bits ||| value.mask &&& xorMask root.bits,
        value.mask &&& xorMask root.bits⟩ hshape hunknown
  rw [h.result_eq hmodel]
  simp only [evalUnary, knownUnary, if_neg hunknown, htype, BitModel.machine, heval]
  unfold ExecutionUnit.types at hdstType
  rw [ExecutionUnit.kept, hdstType]
  simp only [hwidth, SIRValue.cut, pow_one, hodd, SIRValue.mk.injEq, and_true]
  rw [Nat.or_mod_two_eq_one]
  exact .inr hodd

/-- The condition under which a folded root has the value of its chain: every position occurs an
odd number of times if it is below 64 and an even number otherwise. Where bits can be unknown, there
are no others, and the destination has one bit. -/
structure XorRoot.Exact (fourState : Bool) (eu : ExecutionUnit (RegionedAbsoluteAddr A))
    (root : XorRoot) : Prop where
  odd : ∀ p ∈ root.bits, p < 64 ↔ Odd (root.bits.count p)
  unknown : fourState = true → HasWidth eu.types root.dst 1 ∧ ∀ p ∈ root.bits, p < 64

/-- A value of the source. -/
structure SourceValue (fourState : Bool) (type : RegisterType) (value : SIRValue) : Prop where
  fits : value.fits type.width
  known : fourState = false → value.mask = 0

theorem any_mask_eq_true {bits : List Nat} {p : Nat} (hp : p ∈ bits)
    (hbit : value.mask.testBit p = true) : bits.any value.mask.testBit = true :=
  List.any_eq_true.mpr ⟨p, hp, hbit⟩

/-- A folded root that is exact gives the parity of the chain. -/
theorem XorRoot.Exact.result_eq {fourState : Bool} (hexact : root.Exact fourState eu)
    (hv : Verified eu) (h : root.WellTyped eu type) (hmodel : FourState model)
    (hvalue : SourceValue fourState type value) :
    root.result eu model value = parityOf value root.bits := by
  unfold parityOf
  cases hany : root.bits.any value.mask.testBit
  · have hzero : value.mask &&& xorMask root.bits = 0 := by
      refine Nat.eq_of_testBit_eq fun i => ?_
      rw [Nat.zero_testBit, Nat.testBit_and, Bool.and_eq_false_iff]
      by_contra hboth
      rw [not_or, Bool.not_eq_false, Bool.not_eq_false] at hboth
      rw [any_mask_eq_true ((testBit_xorMask _ _).mp hboth.2).2 hboth.1] at hany
      cases hany
    rw [h.result_known hv hmodel hzero, if_neg Bool.false_ne_true, SIRValue.mk.injEq]
    refine ⟨(parity_mask _ _ h.bits fun p _ _ => ?_).symm, rfl⟩
    rw [testBit_xorMask]
    by_cases hp : p ∈ root.bits
    · rw [and_iff_left hp, hexact.odd p hp]
    · rw [List.count_eq_zero_of_not_mem hp]
      simp [hp]
  · obtain ⟨p, hp, hbit⟩ := List.any_eq_true.mp hany
    have hfour : fourState = true := by
      by_contra hfalse
      rw [hvalue.known (Bool.eq_false_iff.mpr hfalse), Nat.zero_testBit] at hbit
      cases hbit
    obtain ⟨hdst, hlow⟩ := hexact.unknown hfour
    refine h.result_unknown hmodel hdst fun hzero => ?_
    have htest : (value.mask &&& xorMask root.bits).testBit p = true := by
      rw [Nat.testBit_and, hbit, (testBit_xorMask _ _).mpr ⟨hlow p hp, hp⟩]
      rfl
    rw [hzero, Nat.zero_testBit] at htest
    cases htest

/-! ## Values that tell them apart -/

/-- A machine whose unknown parities have all bits unknown. -/
def fourStateModel (A : Type) : BitModel (RegionedAbsoluteAddr A) :=
  { BitModel.plain (RegionedAbsoluteAddr A) with
    binary := fun op _ _ _ x y => match op with
      | .and =>
        let mask := x.mask &&& y.mask ||| x.mask &&& y.payload ||| y.mask &&& x.payload
        ⟨x.payload &&& y.payload ||| mask, mask⟩
      | .xor => ⟨(x.payload ^^^ y.payload) ||| (x.mask ||| y.mask), x.mask ||| y.mask⟩
      | _ => x
    unary := fun op dst _ x => match op with
      | .xor => ⟨bitCount x.payload % 2 ||| (2 ^ dst.width - 1), 2 ^ dst.width - 1⟩
      | _ => x }

theorem fourStateModel_fourState (A : Type) : FourState (fourStateModel A) where
  and _ _ _ _ _ := rfl
  xor _ _ _ _ _ := rfl
  parity dst _ x hdst _ := by
    refine ⟨2 ^ dst.width - 1, ?_, rfl⟩
    obtain ⟨n, hn⟩ := Nat.exists_eq_succ_of_ne_zero hdst
    rw [hn, Nat.pow_succ]
    have := Nat.two_pow_pos n
    omega

omit [DecidableEq A] in
theorem two_pow_and_xorMask {bits : List Nat} {p : Nat} (hp : p ∈ bits) :
    2 ^ p &&& xorMask bits = if p < 64 then 2 ^ p else 0 := by
  rw [Nat.two_pow_and]
  split
  · rename_i hlt
    rw [(testBit_xorMask bits p).mpr ⟨hlt, hp⟩, Bool.toNat_true, Nat.mul_one]
  · rename_i hge
    rw [Bool.eq_false_iff.mpr fun hbit => hge ((testBit_xorMask bits p).mp hbit).1,
      Bool.toNat_false, Nat.mul_zero]

theorem sourceValue_two_pow {fourState : Bool} {p : Nat} (h : p < type.width) :
    SourceValue fourState type ⟨2 ^ p, 0⟩ :=
  ⟨⟨Nat.pow_lt_pow_right (by decide) h, Nat.two_pow_pos _⟩, fun _ => rfl⟩

/-- A single one in the source shows how often its position occurs. -/
theorem XorRoot.WellTyped.odd_of_keeps (hv : Verified eu) (h : root.WellTyped eu type)
    {p : Nat} (hp : p ∈ root.bits)
    (hkeeps : root.result eu (fourStateModel A) ⟨2 ^ p, 0⟩ = parityOf ⟨2 ^ p, 0⟩ root.bits) :
    p < 64 ↔ Odd (root.bits.count p) := by
  have hnone : (root.bits.any fun q => Nat.testBit 0 q) = false :=
    List.any_eq_false.mpr fun q _ => by simp
  rw [h.result_known hv (fourStateModel_fourState A) (Nat.zero_and _), parityOf,
    if_neg (by rw [hnone]; exact Bool.false_ne_true), SIRValue.mk.injEq, countP_two_pow,
    two_pow_and_xorMask hp] at hkeeps
  rw [Nat.odd_iff, ← hkeeps.1]
  by_cases hlt : p < 64
  · rw [if_pos hlt, countP_two_pow, List.count_eq_one_of_mem List.nodup_range
      (List.mem_range.mpr (h.bits p hp))]
    exact iff_of_true hlt rfl
  · rw [if_neg hlt, List.countP_eq_zero.mpr fun q _ => by simp]
    exact iff_of_false hlt Nat.zero_ne_one

/-- A single unknown bit shows whether its position is masked, and how wide the destination is. -/
theorem XorRoot.WellTyped.unknown_of_keeps (hv : Verified eu) (h : root.WellTyped eu type)
    {p : Nat} (hp : p ∈ root.bits)
    (hkeeps : root.result eu (fourStateModel A) ⟨0, 2 ^ p⟩ = parityOf ⟨0, 2 ^ p⟩ root.bits) :
    HasWidth eu.types root.dst 1 ∧ p < 64 := by
  have hunknown : parityOf ⟨0, 2 ^ p⟩ root.bits = ⟨1, 1⟩ :=
    if_pos (List.any_eq_true.mpr ⟨p, hp, Nat.testBit_two_pow_self⟩)
  rw [hunknown] at hkeeps
  have hlow : p < 64 := by
    by_contra hge
    have hzero := two_pow_and_xorMask hp
    rw [if_neg hge] at hzero
    rw [h.result_known hv (fourStateModel_fourState A) hzero, SIRValue.mk.injEq] at hkeeps
    cases hkeeps.2
  refine ⟨?_, hlow⟩
  obtain ⟨dstType, hdst⟩ := h.dst
  have htype : typeOf eu root.dst = dstType := by rw [typeOf, hdst, Option.getD_some]
  have hmasked := two_pow_and_xorMask hp
  rw [if_pos hlow] at hmasked
  have hne : 2 ^ p ≠ 0 := (Nat.two_pow_pos p).ne'
  rw [h.result_eq (fourStateModel_fourState A), hmasked] at hkeeps
  simp only [evalUnary, knownUnary, if_neg hne, htype, BitModel.machine, fourStateModel,
    RegisterType.shape] at hkeeps
  have hlookup := hdst
  unfold ExecutionUnit.types at hlookup
  rw [ExecutionUnit.kept, hlookup] at hkeeps
  have hmask := congrArg SIRValue.mask hkeeps
  simp only [SIRValue.cut] at hmask
  have hpos := Nat.two_pow_pos dstType.width
  rw [Nat.mod_eq_of_lt (by omega)] at hmask
  refine ⟨dstType, hdst, Nat.pow_right_injective (le_refl 2) ?_⟩
  simp only [pow_one]
  omega

/-- A folded root has the value of its chain for every value of the source exactly if it is
exact. -/
theorem XorRoot.WellTyped.keeps_iff {fourState : Bool} (hv : Verified eu)
    (h : root.WellTyped eu type) (hne : root.bits ≠ []) :
    (∀ model : BitModel (RegionedAbsoluteAddr A), FourState model → ∀ value,
      SourceValue fourState type value →
        root.result eu model value = parityOf value root.bits) ↔ root.Exact fourState eu := by
  refine ⟨fun hkeeps => ⟨fun p hp => ?_, fun hfour => ?_⟩, fun hexact model hmodel value hvalue =>
    hexact.result_eq hv h hmodel hvalue⟩
  · exact h.odd_of_keeps hv hp
      (hkeeps _ (fourStateModel_fourState A) _ (sourceValue_two_pow (h.bits p hp)))
  · have hall : ∀ p ∈ root.bits, HasWidth eu.types root.dst 1 ∧ p < 64 := fun p hp =>
      h.unknown_of_keeps hv hp (hkeeps _ (fourStateModel_fourState A) _
        ⟨⟨Nat.two_pow_pos _, Nat.pow_lt_pow_right (by decide) (h.bits p hp)⟩, fun hfalse => by
          rw [hfour] at hfalse
          cases hfalse⟩)
    obtain ⟨p, hp⟩ := List.exists_mem_of_ne_nil _ hne
    exact ⟨(hall p hp).1, fun q hq => (hall q hq).2⟩

end Masked
end Celox.Opt
