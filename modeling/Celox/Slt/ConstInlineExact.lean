import Celox.Slt.ConstInline

/-! # Where constant evaluation is right

By induction on the tree: a tree that is evaluated has its value, and every other one is unknown in all
bits, as long as the evaluator does not stray. -/
namespace Celox.Slt
open Celox.Data (words countOnes words_of_pos word_induction sum_countOnes_words LowestOne)
open Celox.Sir (SIRValue)

/-! ## Bits -/

theorem widthMask_eq (width : Nat) : widthMask width = 2 ^ width - 1 := by
  unfold widthMask
  split
  · rw [Nat.one_shiftLeft]
  · rw [show width = 0 by omega]
    rfl

theorem and_widthMask (v width : Nat) : v &&& widthMask width = v % 2 ^ width := by
  rw [widthMask_eq, Nat.and_two_pow_sub_one_eq_mod]

/-- All bits of a slice of ones are ones. -/
theorem ones_shiftRight_mod {width lsb bits : Nat} (h : lsb + bits ≤ width) :
    (2 ^ width - 1) >>> lsb % 2 ^ bits = 2 ^ bits - 1 := by
  refine Nat.eq_of_testBit_eq fun i => ?_
  rw [Nat.testBit_mod_two_pow, Nat.testBit_shiftRight, Nat.testBit_two_pow_sub_one,
    Nat.testBit_two_pow_sub_one]
  by_cases hi : i < bits
  · simp [hi, show lsb + i < width by omega]
  · simp [hi]

theorem trailingZeros_eq_some {v i : Nat} : trailingZeros v = some i ↔ LowestOne v i := by
  unfold trailingZeros LowestOne
  rw [List.find?_range_eq_some]
  constructor
  · rintro ⟨hbit, -, hlow⟩
    exact ⟨hbit, fun j hj => by simpa using hlow j hj⟩
  · rintro ⟨hbit, hlow⟩
    refine ⟨hbit, ?_, fun j hj => by simp [hlow j hj]⟩
    rw [List.mem_range]
    by_contra hge
    rw [Nat.testBit_lt_two_pow (lt_of_lt_of_le (Nat.lt_size_self v)
      (Nat.pow_le_pow_right (by decide) (Nat.not_lt.mp hge)))] at hbit
    cases hbit

theorem trailingZeros_zero : trailingZeros 0 = none := by decide

theorem trailingZeros_of_pos {v : Nat} (h : 0 < v) : ∃ i, trailingZeros v = some i := by
  cases hzeros : trailingZeros v with
  | some i => exact ⟨i, rfl⟩
  | none =>
    obtain ⟨i, hi⟩ := Nat.exists_testBit_of_ne_zero (Nat.ne_of_gt h)
    unfold trailingZeros at hzeros
    rw [List.find?_range_eq_none] at hzeros
    have hlt : i < v.size := by
      by_contra hge
      rw [Nat.testBit_lt_two_pow (lt_of_lt_of_le (Nat.lt_size_self v)
        (Nat.pow_le_pow_right (by decide) (Nat.not_lt.mp hge)))] at hi
      cases hi
    have hnone := hzeros i hlt
    rw [hi] at hnone
    cases hnone

/-- The first word that has a one gives the lowest one. -/
theorem constTrailingZeros_eq (v : Nat) : constTrailingZeros v = trailingZeros v := by
  have hscan : ∀ k, ((words v).zipIdx k).findSome? (fun digit =>
      (trailingZeros digit.1).map (digit.2 * 64 + ·)) = (trailingZeros v).map (k * 64 + ·) := by
    induction v using word_induction with
    | zero => intro k; rfl
    | step v hpos ih =>
      intro k
      rw [words_of_pos hpos, List.zipIdx_cons, List.findSome?_cons]
      obtain ⟨i, hi⟩ := trailingZeros_of_pos hpos
      by_cases hlow : v % 2 ^ Data.wordBits = 0
      · have hhigh : 0 < v / 2 ^ Data.wordBits :=
          Nat.div_pos (Nat.le_of_dvd hpos (Nat.dvd_of_mod_eq_zero hlow)) (by decide)
        obtain ⟨j, hj⟩ := trailingZeros_of_pos hhigh
        have hij := (trailingZeros_eq_some.mp hi).unique
          (LowestOne.of_div hlow (trailingZeros_eq_some.mp hj))
        dsimp only
        rw [hlow, trailingZeros_zero, Option.map_none, ih (k + 1), hj, hi, hij]
        simp only [Option.map_some, Option.some.injEq, Data.wordBits]
        omega
      · obtain ⟨j, hj⟩ := trailingZeros_of_pos (Nat.pos_of_ne_zero hlow)
        have hij := (trailingZeros_eq_some.mp hi).unique
          (LowestOne.of_mod (trailingZeros_eq_some.mp hj))
        dsimp only
        rw [hj, hi, hij, Option.map_some]
  have hzero : constTrailingZeros v = _ := hscan 0
  simpa using hzero

theorem trailingZeros_getD_le {v width : Nat} (h : v < 2 ^ width) :
    (trailingZeros v).getD width ≤ width := by
  cases hzeros : trailingZeros v with
  | none => exact le_rfl
  | some i =>
    rw [Option.getD_some]
    by_contra hlt
    have hbit := (trailingZeros_eq_some.mp hzeros).1
    rw [Nat.testBit_lt_two_pow (lt_trans h (Nat.pow_lt_pow_right (by decide) (Nat.not_le.mp hlt)))]
      at hbit
    cases hbit

/-! ## Operators -/

/-- The low word of an amount. -/
theorem head?_words (v : Nat) : (words v).head? = if v = 0 then none else some (v % 2 ^ 64) := by
  split
  · rename_i h
    rw [h]
    rfl
  · rename_i h
    rw [words_of_pos (Nat.pos_of_ne_zero h)]
    rfl

/-- What a shift gives for its amount, or none for the amount zero. -/
theorem constBinary_shift {op : BinaryOp} (hop : op = .shl ∨ op = .shr) (width lhs rhs : Nat) :
    (constBinary op (widthMask width) lhs rhs).map (· % 2 ^ width) =
      if rhs = 0 then some 0
      else (exactBinary op width lhs (rhs % 2 ^ 64)).map (· % 2 ^ width) := by
  by_cases hzero : rhs = 0
  · rcases hop with rfl | rfl <;> simp [constBinary, head?_words, hzero]
  · rcases hop with rfl | rfl
    · simp [constBinary, exactBinary, head?_words, hzero, and_widthMask]
    · simp [constBinary, exactBinary, head?_words, hzero]

theorem constBinary_other {op : BinaryOp} (hop : op ≠ .shl ∧ op ≠ .shr) (width lhs rhs : Nat) :
    (constBinary op (widthMask width) lhs rhs).map (· % 2 ^ width) =
      (exactBinary op width lhs rhs).map (· % 2 ^ width) := by
  cases op with
  | shl => exact absurd rfl hop.1
  | shr => exact absurd rfl hop.2
  | add => simp [constBinary, exactBinary, and_widthMask]
  | sub =>
    simp only [constBinary, exactBinary, and_widthMask, Option.map_some, Nat.mod_mod]
    rw [widthMask_eq, Nat.sub_add_cancel Nat.one_le_two_pow, Nat.add_comm]
  | _ => simp [constBinary, exactBinary]

theorem constUnary_eq (op : UnaryOp) {width v : Nat} (h : v < 2 ^ width) :
    (constUnary op (widthMask (op.resultWidth width)) width v).map (· % 2 ^ op.resultWidth width) =
      (exactUnary op width v).map (· % 2 ^ op.resultWidth width) := by
  cases op with
  | bitNot => simp [constUnary, exactUnary, widthMask_eq, UnaryOp.resultWidth]
  | popCount => simp [constUnary, exactUnary, sum_countOnes_words]
  | countTrailingZeros =>
    simp only [constUnary, exactUnary, constTrailingZeros_eq, min_eq_left (trailingZeros_getD_le h)]
  | _ => rfl

/-! ## Verified arenas -/

section Verified
variable {A : Type} [DecidableEq A] {arena : NodeArena A} {facts : VerifiedNodeFacts}

/-- What verification says of each node. -/
structure NodeArena.Checked (arena : NodeArena A) : Prop where
  child_lt : ∀ (id : Nat) node, arena.nodes[id]? = some node → ∀ child ∈ node.children, child < id
  computed : ∀ (id : Nat) node, arena.nodes[id]? = some node →
    computeWidth id node (arena.widths.take id) = .ok (arena.width id)

theorem NodeArena.checked_of_verify (h : arena.verify = .ok facts) : arena.Checked := by
  unfold NodeArena.verify at h
  obtain ⟨verified, hverified, h⟩ := bind_eq_ok.mp h
  obtain ⟨_, hwidths, -⟩ := bind_eq_ok.mp h
  have hsame : arena.widths = verified.widths := ensure_ok.mp hwidths
  obtain ⟨_, hids, hfold⟩ := bind_eq_ok.mp hverified
  obtain ⟨added, -, -, hall⟩ := foldlM_verifyNode_ok hfold
  simp only [List.length_nil, Nat.zero_add, ← hsame] at hall
  refine ⟨fun id node hat => ?_, hall⟩
  exact verifyChildIds_ok (forM_eq_ok.mp hids (node, id) (List.mk_mem_zipIdx_iff_getElem?.mpr hat))

variable (h : arena.Checked) {id : NodeId}
include h

/-- The width of a child is found before its owner. -/
theorem NodeArena.Checked.width_take {node : SLTNode A} (hat : arena.nodes[id]? = some node)
    {child width : NodeId} (hchild : child ∈ node.children)
    (hwidth : factChildWidth id (arena.widths.take id) child = .ok width) :
    width = arena.width child := by
  unfold factChildWidth at hwidth
  rw [List.getElem?_take_of_lt (h.child_lt id node hat child hchild)] at hwidth
  unfold NodeArena.width
  rw [List.getD_eq_getElem?_getD]
  split at hwidth
  · rename_i w hw
    cases hwidth
    rw [hw, Option.getD_some]
  · cases hwidth

theorem NodeArena.Checked.constant {value mask width : Nat} {signed : Bool}
    (hat : arena.nodes[id]? = some (.constant value mask width signed)) :
    arena.width id = width ∧ value < 2 ^ width ∧ mask < 2 ^ width := by
  have hok := ruleError_ok.mp (h.computed id _ hat)
  obtain ⟨_, hvalue, hok⟩ := bind_eq_ok.mp hok
  obtain ⟨_, hmask, hok⟩ := bind_eq_ok.mp hok
  cases hok
  exact ⟨rfl, Nat.size_le.mp (ensure_ok.mp hvalue), Nat.size_le.mp (ensure_ok.mp hmask)⟩

theorem NodeArena.Checked.slice {expr : NodeId} {access : BitAccess}
    (hat : arena.nodes[id]? = some (.slice expr access)) :
    arena.width id = access.msb - access.lsb + 1 ∧ access.lsb ≤ access.msb ∧
      access.msb < arena.width expr := by
  obtain ⟨exprWidth, hexpr, hok⟩ := bind_eq_ok.mp (h.computed id _ hat)
  obtain rfl := h.width_take hat (by simp [SLTNode.children]) hexpr
  obtain ⟨width, haccess, hok⟩ := bind_eq_ok.mp (ruleError_ok.mp hok)
  obtain ⟨_, hbound, hok⟩ := bind_eq_ok.mp hok
  cases hok
  unfold accessWidth at haccess
  split at haccess
  · cases haccess
  · rename_i hordered
    split at haccess
    · rename_i w hw
      cases haccess
      exact ⟨checkedAdd_some hw, Nat.not_lt.mp hordered, ensure_ok.mp hbound⟩
    · cases haccess

theorem NodeArena.Checked.binary {op : BinaryOp} {lhs rhs : NodeId}
    (hat : arena.nodes[id]? = some (.binary lhs op rhs)) :
    arena.width id = op.resultWidth (arena.width lhs) (arena.width rhs) := by
  obtain ⟨lhsWidth, hlhs, hok⟩ := bind_eq_ok.mp (h.computed id _ hat)
  obtain ⟨rhsWidth, hrhs, hok⟩ := bind_eq_ok.mp hok
  obtain rfl := h.width_take hat (by simp [SLTNode.children]) hlhs
  obtain rfl := h.width_take hat (by simp [SLTNode.children]) hrhs
  obtain ⟨_, -, hok⟩ := bind_eq_ok.mp (ruleError_ok.mp hok)
  exact (Except.ok.inj hok).symm

theorem NodeArena.Checked.unary {op : UnaryOp} {inner : NodeId}
    (hat : arena.nodes[id]? = some (.unary op inner)) :
    arena.width id = op.resultWidth (arena.width inner) := by
  obtain ⟨innerWidth, hinner, hok⟩ := bind_eq_ok.mp (h.computed id _ hat)
  obtain rfl := h.width_take hat (by simp [SLTNode.children]) hinner
  exact (Except.ok.inj hok).symm

end Verified

/-! ## One node -/

section Node
variable {A : Type} {width : Nat} {node : SLTNode A}

theorem evalConstNode_congr {f g : NodeId → Evaluated}
    (h : ∀ child ∈ node.children, f child = g child) :
    evalConstNode width node f = evalConstNode width node g := by
  cases node with
  | binary lhs op rhs =>
    simp only [evalConstNode, h lhs (by simp [SLTNode.children]),
      h rhs (by simp [SLTNode.children])]
  | unary op inner =>
    cases op <;> simp only [evalConstNode, h inner (by simp [SLTNode.children])]
  | slice expr access => simp only [evalConstNode, h expr (by simp [SLTNode.children])]
  | _ => rfl

variable {M : Meaning} {arena : NodeArena A}

theorem nodeValue_congr {widths : NodeId → Nat} {id : NodeId} {f g : NodeId → SIRValue}
    (h : ∀ child ∈ node.children, f child = g child) :
    nodeValue M widths id node f = nodeValue M widths id node g := by
  cases node with
  | input variable_ signed index access =>
    have hindex : index.map (fun entry => f entry.node) = index.map fun entry => g entry.node :=
      List.map_congr_left fun entry hentry => h entry.node (List.mem_map.mpr ⟨entry, hentry, rfl⟩)
    simp only [nodeValue, hindex]
  | binary lhs op rhs =>
    simp only [nodeValue, h lhs (by simp [SLTNode.children]), h rhs (by simp [SLTNode.children])]
  | unary op inner => simp only [nodeValue, h inner (by simp [SLTNode.children])]
  | mux cond thenExpr elseExpr =>
    simp only [nodeValue, h cond (by simp [SLTNode.children]),
      h thenExpr (by simp [SLTNode.children]), h elseExpr (by simp [SLTNode.children])]
  | concat parts =>
    have hparts : parts.map (fun part => (f part.1, part.2)) =
        parts.map fun part => (g part.1, part.2) :=
      List.map_congr_left fun part hpart => by rw [h part.1 (List.mem_map.mpr ⟨part, hpart, rfl⟩)]
    simp only [nodeValue, hparts]
  | slice expr access => simp only [nodeValue, h expr (by simp [SLTNode.children])]
  | capture expr key => simp only [nodeValue, h expr (by simp [SLTNode.children])]
  | _ => rfl

theorem evaluatesNode_congr {id : NodeId} {f g : NodeId → Bool}
    (h : ∀ child ∈ node.children, f child = g child) :
    evaluatesNode M arena id node f = evaluatesNode M arena id node g := by
  cases node with
  | binary lhs op rhs =>
    simp only [evaluatesNode, h lhs (by simp [SLTNode.children]),
      h rhs (by simp [SLTNode.children])]
  | unary op inner =>
    cases op <;> simp only [evaluatesNode, h inner (by simp [SLTNode.children])]
  | slice expr access => simp only [evaluatesNode, h expr (by simp [SLTNode.children])]
  | _ => rfl

variable [DecidableEq A] (h : arena.Checked) {id : NodeId}
include h

theorem evalConstExpr_eq (hat : arena.nodes[id]? = some node) :
    evalConstExpr arena id = evalConstNode (arena.width id) node (evalConstExpr arena) := by
  unfold evalConstExpr
  refine recurse_eq h.child_lt (fun _ _ _ _ hsame => ?_) hat
  exact evalConstNode_congr hsame

theorem treeValue_eq (hat : arena.nodes[id]? = some node) :
    treeValue M arena id = nodeValue M arena.width id node (treeValue M arena) := by
  unfold treeValue
  refine recurse_eq h.child_lt (fun _ _ _ _ hsame => ?_) hat
  exact nodeValue_congr hsame

theorem evaluates_eq (hat : arena.nodes[id]? = some node) :
    evaluates M arena id = evaluatesNode M arena id node (evaluates M arena) := by
  unfold evaluates
  refine recurse_eq h.child_lt (fun _ _ _ _ hsame => ?_) hat
  exact evaluatesNode_congr hsame

end Node

/-! ## Agreement -/

section Agreement
variable {A : Type} {M : Meaning} {arena : NodeArena A} {id : NodeId}

variable (M arena) in
/-- The value where the tree is evaluated, and unknown in all bits where it is not. -/
structure Agrees (id : NodeId) : Prop where
  width : (evalConstExpr arena id).width = arena.width id
  evaluated : evaluates M arena id = true →
    (evalConstExpr arena id).payload = (treeValue M arena id).payload ∧
      (evalConstExpr arena id).mask = (treeValue M arena id).mask
  unevaluated : evaluates M arena id = false → arena.width id ≠ 0 ∧
    (evalConstExpr arena id).mask = 2 ^ arena.width id - 1

/-- A result without unknown bits is one of a tree that is evaluated. -/
theorem Agrees.of_mask (h : Agrees M arena id) (hmask : (evalConstExpr arena id).mask = 0) :
    evaluates M arena id = true ∧ (treeValue M arena id).mask = 0 ∧
      (evalConstExpr arena id).payload = (treeValue M arena id).payload := by
  cases hevaluates : evaluates M arena id with
  | true =>
    obtain ⟨hpayload, hsame⟩ := h.evaluated hevaluates
    exact ⟨rfl, hsame ▸ hmask, hpayload⟩
  | false =>
    obtain ⟨hwidth, hones⟩ := h.unevaluated hevaluates
    have hlarge : 2 ≤ 2 ^ arena.width id := Nat.le_self_pow hwidth 2
    omega

theorem Agrees.mask_eq_zero (h : Agrees M arena id) : (evalConstExpr arena id).mask = 0 ↔
    evaluates M arena id = true ∧ (treeValue M arena id).mask = 0 := by
  refine ⟨fun hmask => ?_, fun hvalue => ?_⟩
  · obtain ⟨hevaluates, hzero, -⟩ := h.of_mask hmask
    exact ⟨hevaluates, hzero⟩
  · rw [(h.evaluated hvalue.1).2, hvalue.2]

theorem Agrees.faithful (h : Agrees M arena id) : Faithful M arena id := by
  intro hmask
  obtain ⟨-, hzero, hpayload⟩ := h.of_mask hmask
  rw [hpayload, ← hzero]

theorem evaluates_of_width_zero [DecidableEq A] (hc : arena.Checked) {node : SLTNode A}
    (hat : arena.nodes[id]? = some node) (hwidth : arena.width id = 0) :
    evaluates M arena id = true := by
  rw [evaluates_eq hc hat]
  unfold evaluatesNode
  rw [decide_eq_true hwidth, Bool.true_or]

theorem Agrees.of_known (h : evalConstExpr arena id =
      ⟨(treeValue M arena id).payload, (treeValue M arena id).mask, arena.width id⟩)
    (hevaluates : evaluates M arena id = true) : Agrees M arena id := by
  refine ⟨by rw [h], fun _ => by rw [h]; exact ⟨rfl, rfl⟩, fun hfalse => ?_⟩
  rw [hevaluates] at hfalse
  cases hfalse

section Checked
variable [DecidableEq A] (hc : arena.Checked) {node : SLTNode A}
  (hat : arena.nodes[id]? = some node)
include hc hat

theorem treeValue_lt : (treeValue M arena id).payload < 2 ^ arena.width id ∧
    (treeValue M arena id).mask < 2 ^ arena.width id := by
  rw [treeValue_eq hc hat]
  unfold nodeValue
  exact ⟨Nat.mod_lt _ (Nat.two_pow_pos _), Nat.mod_lt _ (Nat.two_pow_pos _)⟩

/-- A tree of no width has the only value. -/
theorem Agrees.of_unknown {payload : Nat} (h : evalConstExpr arena id =
      ⟨payload, 2 ^ arena.width id - 1, arena.width id⟩) (hpayload : payload < 2 ^ arena.width id)
    (hevaluates : arena.width id ≠ 0 → evaluates M arena id = false) : Agrees M arena id := by
  refine ⟨by rw [h], fun htrue => ?_, fun hfalse => ⟨fun hwidth => ?_, by rw [h]⟩⟩
  · have hwidth : arena.width id = 0 := by
      by_contra hwidth
      rw [hevaluates hwidth] at htrue
      cases htrue
    obtain ⟨hvalue, hmask⟩ := @treeValue_lt A M arena id _ hc node hat
    rw [h]
    rw [hwidth, pow_zero, Nat.lt_one_iff] at hvalue hmask hpayload
    rw [hwidth, hvalue, hmask, hpayload]
    exact ⟨rfl, rfl⟩
  · rw [evaluates_of_width_zero hc hat hwidth] at hfalse
    cases hfalse

/-- An operator on known operands, or one that is not evaluated. -/
theorem Agrees.of_result {code exact : Option Nat}
    (heval : evalConstExpr arena id = match code with
      | none => ⟨0, widthMask (arena.width id), arena.width id⟩
      | some result => ⟨result &&& widthMask (arena.width id), 0, arena.width id⟩)
    (hsame : code.map (· % 2 ^ arena.width id) = exact.map (· % 2 ^ arena.width id))
    (hvalue : ∀ payload, exact = some payload →
      treeValue M arena id = ⟨payload % 2 ^ arena.width id, 0⟩)
    (hevaluates : evaluates M arena id = (decide (arena.width id = 0) || exact.isSome)) :
    Agrees M arena id := by
  cases exact with
  | none =>
    rw [Option.map_none, Option.map_eq_none_iff] at hsame
    rw [hsame] at heval
    dsimp only at heval
    rw [widthMask_eq] at heval
    refine Agrees.of_unknown hc hat heval (Nat.two_pow_pos _) fun hne => ?_
    rw [hevaluates, decide_eq_false hne]
    rfl
  | some payload =>
    rw [Option.map_some, Option.map_eq_some_iff] at hsame
    obtain ⟨result, hresult, hsame⟩ := hsame
    rw [hresult] at heval
    dsimp only at heval
    refine Agrees.of_known ?_ (by rw [hevaluates, Option.isSome_some, Bool.or_true])
    rw [heval, hvalue payload rfl, and_widthMask, hsame]

end Checked

variable [DecidableEq A] (hc : arena.Checked)
include hc

theorem agrees_slice {expr : NodeId} {access : BitAccess}
    (hat : arena.nodes[id]? = some (.slice expr access)) (hexpr : Agrees M arena expr) :
    Agrees M arena id := by
  obtain ⟨hwidth, hordered, hbound⟩ := hc.slice hat
  have heval : evalConstExpr arena id =
      ⟨(evalConstExpr arena expr).payload >>> access.lsb % 2 ^ arena.width id,
        (evalConstExpr arena expr).mask >>> access.lsb % 2 ^ arena.width id, arena.width id⟩ := by
    rw [evalConstExpr_eq hc hat, evalConstNode, ← hwidth, Nat.one_shiftLeft,
      Nat.and_two_pow_sub_one_eq_mod, Nat.and_two_pow_sub_one_eq_mod]
  cases hevaluates : evaluates M arena expr with
  | true =>
    obtain ⟨hpayload, hmask⟩ := hexpr.evaluated hevaluates
    refine Agrees.of_known ?_ ?_
    · rw [heval, hpayload, hmask, treeValue_eq hc hat]
      rfl
    · rw [evaluates_eq hc hat, evaluatesNode, hevaluates, Bool.or_true]
  | false =>
    obtain ⟨-, hmask⟩ := hexpr.unevaluated hevaluates
    rw [hmask, ones_shiftRight_mod (by omega)] at heval
    refine Agrees.of_unknown hc hat heval (Nat.mod_lt _ (Nat.two_pow_pos _)) fun hne => ?_
    simp [evaluates_eq hc hat, evaluatesNode, hevaluates, hne]

omit [DecidableEq A] hc in
theorem knownOnes_eq {width : Nat} {v : SIRValue} (hv : v.payload < 2 ^ width ∧ v.mask < 2 ^ width) :
    v.payload &&& widthMask width &&& (widthMask width ^^^ (v.mask &&& widthMask width)) =
      knownOnes width v := by
  rw [and_widthMask, and_widthMask, Nat.mod_eq_of_lt hv.1, Nat.mod_eq_of_lt hv.2, widthMask_eq,
    knownOnes]

theorem agrees_toTwoState {inner : NodeId} {innerNode : SLTNode A}
    (hat : arena.nodes[id]? = some (.unary .toTwoState inner))
    (hin : arena.nodes[inner]? = some innerNode) (hinner : Agrees M arena inner)
    (hstray : ¬ Strays M arena id) : Agrees M arena id := by
  have hwidth : arena.width id = arena.width inner := hc.unary hat
  have hvalue : treeValue M arena id =
      ⟨knownOnes (arena.width inner) (treeValue M arena inner) % 2 ^ arena.width id, 0⟩ := by
    rw [treeValue_eq hc hat, nodeValue, unaryValue, truncate, Nat.zero_mod]
  have heval : evalConstExpr arena id = ⟨(evalConstExpr arena inner).payload &&&
      (widthMask (arena.width id) ^^^
        ((evalConstExpr arena inner).mask &&& widthMask (arena.width id))), 0, arena.width id⟩ := by
    rw [evalConstExpr_eq hc hat, evalConstNode]
  have hbounds := @treeValue_lt A M arena inner _ hc _ hin
  refine Agrees.of_known ?_ ?_
  · cases hevaluates : evaluates M arena inner with
    | true =>
      obtain ⟨hpayload, hmask⟩ := hinner.evaluated hevaluates
      have hones := knownOnes_eq hbounds
      rw [and_widthMask, Nat.mod_eq_of_lt hbounds.1] at hones
      have hlt : knownOnes (arena.width inner) (treeValue M arena inner) < 2 ^ arena.width id := by
        rw [hwidth]
        exact Nat.lt_of_le_of_lt Nat.and_le_left hbounds.1
      rw [heval, hpayload, hmask, hvalue, Nat.mod_eq_of_lt hlt, hwidth, hones]
    | false =>
      obtain ⟨-, hmask⟩ := hinner.unevaluated hevaluates
      have hzero : (treeValue M arena id).payload = 0 := by
        by_contra hne
        exact hstray (.twoState hat hevaluates hne)
      have hmaskValue : (treeValue M arena id).mask = 0 := by rw [hvalue]
      rw [heval, hmask, ← hwidth, hzero, hmaskValue, widthMask_eq, Nat.and_self, Nat.xor_self,
        Nat.and_zero]
  · rw [evaluates_eq hc hat, evaluatesNode, Bool.or_true]

omit [DecidableEq A] hc in
theorem constTruth_eq {op : UnaryOp} (hop : op = .logicNot ∨ op = .or) {width : Nat} {v : SIRValue}
    (hv : v.payload < 2 ^ width ∧ v.mask < 2 ^ width) :
    constTruth op ⟨v.payload, v.mask, width⟩ =
      ((truncate 1 (unaryValue M op width v)).payload,
        (truncate 1 (unaryValue M op width v)).mask) := by
  have hmask : v.mask &&& widthMask width = v.mask := by
    rw [and_widthMask, Nat.mod_eq_of_lt hv.2]
  have hones := knownOnes_eq hv
  rw [hmask] at hones
  rcases hop with rfl | rfl <;>
    simp only [constTruth, hones, hmask, unaryValue, truthOf] <;>
    by_cases hknown : knownOnes width v ≠ 0 <;> by_cases hunknown : v.mask ≠ 0 <;>
    simp [hknown, hunknown, truthBit, truncate]

theorem agrees_truth {op : UnaryOp} (hop : op = .logicNot ∨ op = .or) {inner : NodeId}
    {innerNode : SLTNode A} (hat : arena.nodes[id]? = some (.unary op inner))
    (hin : arena.nodes[inner]? = some innerNode) (hinner : Agrees M arena inner) :
    Agrees M arena id := by
  have hwidth : arena.width id = 1 := by
    rw [hc.unary hat]
    rcases hop with rfl | rfl <;> rfl
  have heval : evalConstExpr arena id = ⟨(constTruth op (evalConstExpr arena inner)).1,
      (constTruth op (evalConstExpr arena inner)).2, arena.width id⟩ := by
    rw [evalConstExpr_eq hc hat]
    rcases hop with rfl | rfl <;> rfl
  have hnode : evaluates M arena id = evaluates M arena inner := by
    rw [evaluates_eq hc hat]
    rcases hop with rfl | rfl <;> simp [evaluatesNode, hwidth]
  cases hevaluates : evaluates M arena inner with
  | true =>
    obtain ⟨hpayload, hmask⟩ := hinner.evaluated hevaluates
    have hsame : evalConstExpr arena inner =
        ⟨(treeValue M arena inner).payload, (treeValue M arena inner).mask, arena.width inner⟩ := by
      rw [← hpayload, ← hmask, ← hinner.width]
    refine Agrees.of_known ?_ (hnode.trans hevaluates)
    rw [heval, hsame, constTruth_eq hop (treeValue_lt hc hin), treeValue_eq hc hat, hwidth]
    unfold nodeValue
    rw [hwidth]
  | false =>
    obtain ⟨hne, hmask⟩ := hinner.unevaluated hevaluates
    have hunknown : constTruth op (evalConstExpr arena inner) = (1, 1) := by
      have hlarge : 2 ≤ 2 ^ arena.width inner := Nat.le_self_pow hne 2
      simp only [constTruth, hinner.width, hmask, widthMask_eq, Nat.and_self, Nat.xor_self,
        Nat.and_zero, ne_eq, not_true_eq_false, if_false]
      rw [if_pos (by omega)]
    have hones : evalConstExpr arena id = ⟨1, 2 ^ arena.width id - 1, arena.width id⟩ := by
      rw [heval, hunknown, hwidth]
      rfl
    exact Agrees.of_unknown hc hat hones (by rw [hwidth]; decide) fun _ => hnode.trans hevaluates

theorem agrees_unary {op : UnaryOp} (hop : op ≠ .toTwoState ∧ op ≠ .logicNot ∧ op ≠ .or)
    {inner : NodeId} {innerNode : SLTNode A} (hat : arena.nodes[id]? = some (.unary op inner))
    (hin : arena.nodes[inner]? = some innerNode) (hinner : Agrees M arena inner) :
    Agrees M arena id := by
  obtain ⟨htwoState, hnot, hor⟩ := hop
  have hwidth := hc.unary hat
  have heval : evalConstExpr arena id =
      if (evalConstExpr arena inner).mask ≠ 0 then ⟨0, widthMask (arena.width id), arena.width id⟩
      else match constUnary op (widthMask (arena.width id)) (evalConstExpr arena inner).width
          (evalConstExpr arena inner).payload with
        | none => ⟨0, widthMask (arena.width id), arena.width id⟩
        | some result => ⟨result &&& widthMask (arena.width id), 0, arena.width id⟩ := by
    rw [evalConstExpr_eq hc hat]
    cases op <;> first | rfl | exact absurd rfl ‹_›
  have hnode : evaluates M arena id = (decide (arena.width id = 0) || (evaluates M arena inner &&
      ((exactUnary op 0 0).isSome && decide ((treeValue M arena inner).mask = 0)))) := by
    rw [evaluates_eq hc hat]
    cases op <;> first | rfl | exact absurd rfl ‹_›
  by_cases hmask : (evalConstExpr arena inner).mask = 0
  · obtain ⟨hevaluates, hzero, hpayload⟩ := hinner.of_mask hmask
    rw [if_neg (not_not.mpr hmask), hinner.width, hpayload] at heval
    refine Agrees.of_result hc hat heval
      (hwidth ▸ constUnary_eq op (@treeValue_lt A M arena inner _ hc _ hin).1) (fun payload h => ?_) ?_
    · rw [treeValue_eq hc hat]
      unfold nodeValue truncate unaryValue
      simp only [h, hzero, if_true, Nat.zero_mod]
    · rw [hnode, hevaluates, decide_eq_true hzero, Bool.true_and, Bool.and_true]
      cases op <;> rfl
  · rw [if_pos hmask, widthMask_eq] at heval
    refine Agrees.of_unknown hc hat heval (Nat.two_pow_pos _) fun hne => ?_
    have hnone := mt hinner.mask_eq_zero.mpr hmask
    rw [hnode, decide_eq_false hne, Bool.false_or]
    cases hevaluates : evaluates M arena inner with
    | false => rfl
    | true => simp [mt (And.intro hevaluates) hnone]

omit [DecidableEq A] hc in
/-- The shift of the code is the right one unless it strays. -/
theorem shift_same {op : BinaryOp} {lhs rhs : NodeId} (hstray : ¬ Strays M arena id)
    (hshift : KnownShift M arena id op lhs rhs) :
    (constBinary op (widthMask (arena.width id)) (treeValue M arena lhs).payload
        (treeValue M arena rhs).payload).map (· % 2 ^ arena.width id) =
      (exactBinary op (arena.width id) (treeValue M arena lhs).payload
        (treeValue M arena rhs).payload).map (· % 2 ^ arena.width id) := by
  rw [constBinary_shift hshift.shifts]
  split
  · rename_i hzero
    have hvalue : (treeValue M arena lhs).payload = 0 := by
      by_contra hne
      exact hstray (.zeroShift hshift hzero hne)
    rw [hzero, hvalue]
    rcases hshift.shifts with rfl | rfl <;> simp [exactBinary]
  · by_cases hlarge : 2 ^ 64 ≤ (treeValue M arena rhs).payload
    · by_contra hne
      exact hstray (.wideShift hshift hlarge hne)
    · rw [Nat.mod_eq_of_lt (Nat.not_le.mp hlarge)]

theorem agrees_binary {op : BinaryOp} {lhs rhs : NodeId}
    (hat : arena.nodes[id]? = some (.binary lhs op rhs)) (hlhs : Agrees M arena lhs)
    (hrhs : Agrees M arena rhs) (hstray : ¬ Strays M arena id) : Agrees M arena id := by
  have hwidth := hc.binary hat
  have heval : evalConstExpr arena id =
      if (evalConstExpr arena lhs).mask ≠ 0 ∨ (evalConstExpr arena rhs).mask ≠ 0 then
        ⟨0, widthMask (arena.width id), arena.width id⟩
      else match constBinary op (widthMask (arena.width id)) (evalConstExpr arena lhs).payload
          (evalConstExpr arena rhs).payload with
        | none => ⟨0, widthMask (arena.width id), arena.width id⟩
        | some result => ⟨result &&& widthMask (arena.width id), 0, arena.width id⟩ := by
    rw [evalConstExpr_eq hc hat]
    rfl
  have hnode : evaluates M arena id = (decide (arena.width id = 0) || (binaryEvaluated op &&
      evaluates M arena lhs && evaluates M arena rhs &&
        decide ((treeValue M arena lhs).mask = 0) && decide ((treeValue M arena rhs).mask = 0))) := by
    rw [evaluates_eq hc hat, evaluatesNode]
  by_cases hmask : (evalConstExpr arena lhs).mask = 0 ∧ (evalConstExpr arena rhs).mask = 0
  · obtain ⟨hlhsEvaluates, hlhsZero, hlhsPayload⟩ := hlhs.of_mask hmask.1
    obtain ⟨hrhsEvaluates, hrhsZero, hrhsPayload⟩ := hrhs.of_mask hmask.2
    rw [if_neg (by simp [hmask]), hlhsPayload, hrhsPayload] at heval
    have hvalue : ∀ payload, exactBinary op (arena.width id) (treeValue M arena lhs).payload
        (treeValue M arena rhs).payload = some payload →
        treeValue M arena id = ⟨payload % 2 ^ arena.width id, 0⟩ := by
      intro payload h
      rw [treeValue_eq hc hat]
      unfold nodeValue truncate binaryValue
      simp only [← hwidth, h, hlhsZero, hrhsZero, and_self, if_true, Nat.zero_mod]
    refine Agrees.of_result hc hat heval ?_ hvalue ?_
    · by_cases hshift : op = .shl ∨ op = .shr
      · exact shift_same hstray
          ⟨hat, hshift, ⟨hlhsEvaluates, hrhsEvaluates⟩, hlhsZero, hrhsZero⟩
      · exact constBinary_other (not_or.mp hshift) _ _ _
    · rw [hnode, hlhsEvaluates, hrhsEvaluates, decide_eq_true hlhsZero, decide_eq_true hrhsZero]
      simp only [Bool.and_true, binaryEvaluated]
      cases op <;> rfl
  · rw [if_pos (by rwa [not_and_or] at hmask), widthMask_eq] at heval
    refine Agrees.of_unknown hc hat heval (Nat.two_pow_pos _) fun hne => ?_
    rw [hnode, decide_eq_false hne, Bool.false_or]
    rw [hlhs.mask_eq_zero, hrhs.mask_eq_zero] at hmask
    by_contra htrue
    simp only [Bool.not_eq_false, Bool.and_eq_true, decide_eq_true_eq] at htrue
    exact hmask ⟨⟨htrue.1.1.1.2, htrue.1.2⟩, htrue.1.1.2, htrue.2⟩

/-- One step of the induction: a node agrees when its children do and it does not stray. -/
theorem agrees_node {node : SLTNode A} (hat : arena.nodes[id]? = some node)
    (hchildren : ∀ child ∈ node.children, Agrees M arena child) (hstray : ¬ Strays M arena id) :
    Agrees M arena id := by
  have hget : ∀ child ∈ node.children, ∃ childNode, arena.nodes[child]? = some childNode := by
    intro child hchild
    have hlt : child < arena.nodes.length :=
      Nat.lt_trans (hc.child_lt id node hat child hchild) (List.getElem?_eq_some_iff.mp hat).1
    exact ⟨_, List.getElem?_eq_getElem hlt⟩
  have hother : evalConstExpr arena id = ⟨0, widthMask (arena.width id), arena.width id⟩ →
      (arena.width id ≠ 0 → evaluates M arena id = false) → Agrees M arena id := by
    intro heval hevaluates
    rw [widthMask_eq] at heval
    exact Agrees.of_unknown hc hat heval (Nat.two_pow_pos _) hevaluates
  cases node with
  | constant value mask width signed =>
    obtain ⟨hwidth, hvalue, hmask⟩ := hc.constant hat
    refine Agrees.of_known ?_ (by simp [evaluates_eq hc hat, evaluatesNode])
    rw [evalConstExpr_eq hc hat, treeValue_eq hc hat]
    simp only [evalConstNode, nodeValue, truncate, hwidth, Nat.mod_eq_of_lt hvalue,
      Nat.mod_eq_of_lt hmask]
  | slice expr access =>
    exact agrees_slice hc hat (hchildren expr (by simp [SLTNode.children]))
  | binary lhs op rhs =>
    exact agrees_binary hc hat (hchildren lhs (by simp [SLTNode.children]))
      (hchildren rhs (by simp [SLTNode.children])) hstray
  | unary op inner =>
    have hinner := hchildren inner (by simp [SLTNode.children])
    obtain ⟨innerNode, hin⟩ := hget inner (by simp [SLTNode.children])
    by_cases htwoState : op = .toTwoState
    · subst htwoState
      exact agrees_toTwoState hc hat hin hinner hstray
    · by_cases htruth : op = .logicNot ∨ op = .or
      · exact agrees_truth hc htruth hat hin hinner
      · exact agrees_unary hc ⟨htwoState, not_or.mp htruth⟩ hat hin hinner
  | _ =>
    refine hother (by rw [evalConstExpr_eq hc hat]; rfl) fun hne => ?_
    rw [evaluates_eq hc hat]
    unfold evaluatesNode
    rw [decide_eq_false hne]
    rfl

/-- A shift of known operands whose result is right is the right shift. -/
theorem KnownShift.same {op : BinaryOp} {lhs rhs : NodeId} (hknown : KnownShift M arena id op lhs rhs)
    (hlhs : Agrees M arena lhs) (hrhs : Agrees M arena rhs) (hfaithful : Faithful M arena id) :
    (constBinary op (widthMask (arena.width id)) (treeValue M arena lhs).payload
        (treeValue M arena rhs).payload).map (· % 2 ^ arena.width id) =
      (exactBinary op (arena.width id) (treeValue M arena lhs).payload
        (treeValue M arena rhs).payload).map (· % 2 ^ arena.width id) := by
  have hat := hknown.node
  obtain ⟨hlhsMask, hrhsMask⟩ : (evalConstExpr arena lhs).mask = 0 ∧
      (evalConstExpr arena rhs).mask = 0 :=
    ⟨hlhs.mask_eq_zero.mpr ⟨hknown.evaluated.1, hknown.known.1⟩,
      hrhs.mask_eq_zero.mpr ⟨hknown.evaluated.2, hknown.known.2⟩⟩
  obtain ⟨-, -, hlhsPayload⟩ := hlhs.of_mask hlhsMask
  obtain ⟨-, -, hrhsPayload⟩ := hrhs.of_mask hrhsMask
  obtain ⟨payload, hexact⟩ : ∃ payload, exactBinary op (arena.width id)
      (treeValue M arena lhs).payload (treeValue M arena rhs).payload = some payload := by
    rcases hknown.shifts with rfl | rfl <;> exact ⟨_, rfl⟩
  obtain ⟨result, hresult⟩ : ∃ result, constBinary op (widthMask (arena.width id))
      (treeValue M arena lhs).payload (treeValue M arena rhs).payload = some result := by
    rcases hknown.shifts with rfl | rfl <;> exact ⟨_, rfl⟩
  have heval := evalConstExpr_eq hc hat
  simp only [evalConstNode, hlhsMask, hrhsMask, ne_eq, not_true_eq_false, or_self, if_false,
    hlhsPayload, hrhsPayload, hresult] at heval
  have hvalue : (treeValue M arena id).payload = payload % 2 ^ arena.width id := by
    rw [treeValue_eq hc hat]
    unfold nodeValue truncate binaryValue
    simp only [← hc.binary hat, hexact, hknown.known, and_self, if_true]
  have hpayload := congrArg SIRValue.payload (hfaithful (by rw [heval]))
  rw [hvalue, heval, and_widthMask] at hpayload
  rw [hresult, hexact, Option.map_some, Option.map_some, hpayload]

/-- Where the evaluator strays, its result is known and not the value. -/
theorem Strays.not_faithful (hstray : Strays M arena id)
    (hchildren : ∀ node, arena.nodes[id]? = some node → ∀ child ∈ node.children,
      Agrees M arena child) : ¬ Faithful M arena id := by
  have hshift : ∀ {op lhs rhs}, KnownShift M arena id op lhs rhs → Faithful M arena id → _ :=
    fun hknown => hknown.same hc (hchildren _ hknown.node _ (by simp [SLTNode.children]))
      (hchildren _ hknown.node _ (by simp [SLTNode.children]))
  intro hfaithful
  cases hstray with
  | zeroShift hknown amount value =>
    rename_i op lhs rhs
    have hsame := hshift hknown hfaithful
    rw [constBinary_shift hknown.shifts, if_pos amount, amount] at hsame
    obtain ⟨lhsNode, hlhs⟩ : ∃ lhsNode, arena.nodes[lhs]? = some lhsNode := by
      have hlt := hc.child_lt id _ hknown.node lhs (by simp [SLTNode.children])
      exact ⟨_, List.getElem?_eq_getElem
        (Nat.lt_trans hlt (List.getElem?_eq_some_iff.mp hknown.node).1)⟩
    have hwidth : arena.width id = arena.width lhs := by
      rw [hc.binary hknown.node]
      rcases hknown.shifts with rfl | rfl <;> rfl
    have hlt := (@treeValue_lt A M arena lhs _ hc _ hlhs).1
    rcases hknown.shifts with rfl | rfl
    · simp [exactBinary, hwidth, Nat.mod_eq_of_lt hlt] at hsame
      exact value hsame.symm
    · simp [exactBinary, hwidth, Nat.mod_eq_of_lt hlt] at hsame
      exact value hsame.symm
  | wideShift hknown amount value =>
    have hsame := hshift hknown hfaithful
    rw [constBinary_shift hknown.shifts, if_neg (by omega)] at hsame
    exact value hsame
  | twoState hat unevaluated value =>
    rename_i inner
    have hinner := hchildren _ hat inner (by simp [SLTNode.children])
    have hwidth : arena.width id = arena.width inner := hc.unary hat
    obtain ⟨-, hmask⟩ := hinner.unevaluated unevaluated
    have heval : evalConstExpr arena id = ⟨0, 0, arena.width id⟩ := by
      rw [evalConstExpr_eq hc hat, evalConstNode, hmask, ← hwidth, widthMask_eq, Nat.and_self,
        Nat.xor_self, Nat.and_zero]
    have hvalue := hfaithful (by rw [heval])
    rw [heval] at hvalue
    exact value (by rw [hvalue])

omit hc in
/-- The value of every tree in a tree is right when it is known, exactly when the evaluator strays at
none of them. -/
theorem evalConstExpr_faithful_iff {facts : VerifiedNodeFacts} (h : arena.verify = .ok facts)
    (M : Meaning) (root : NodeId) (hroot : root < arena.nodes.length) :
    (∀ id, Within arena root id → Faithful M arena id) ↔
      ∀ id, Within arena root id → ¬ Strays M arena id := by
  have hc := NodeArena.checked_of_verify h
  have hget : ∀ id, Within arena root id → ∃ node, arena.nodes[id]? = some node := by
    intro id hid
    induction hid with
    | refl => exact ⟨_, List.getElem?_eq_getElem hroot⟩
    | tail _ hstep _ =>
      obtain ⟨node, hat, hchild⟩ := hstep
      exact ⟨_, List.getElem?_eq_getElem (Nat.lt_trans (hc.child_lt _ node hat _ hchild)
        (List.getElem?_eq_some_iff.mp hat).1)⟩
  have hchildren : ∀ {id node child}, Within arena root id → arena.nodes[id]? = some node →
      child ∈ node.children → Within arena root child :=
    fun hid hat hchild => hid.tail ⟨_, hat, hchild⟩
  constructor
  · intro hfaithful
    -- by strong induction, the children agree and the node does not stray
    have hall : ∀ id : Nat, Within arena root id → ¬ Strays M arena id ∧ Agrees M arena id := by
      intro id
      induction id using Nat.strong_induction_on with
      | _ id ih =>
        intro hid
        obtain ⟨node, hat⟩ := hget id hid
        have hagree : ∀ child ∈ node.children, Agrees M arena child := fun child hchild =>
          (ih child (hc.child_lt id node hat child hchild) (hchildren hid hat hchild)).2
        have hstray : ¬ Strays M arena id := fun hstray =>
          hstray.not_faithful hc (fun node' hat' child hchild => by
            rw [hat] at hat'
            cases hat'
            exact hagree child hchild) (hfaithful id hid)
        exact ⟨hstray, agrees_node hc hat hagree hstray⟩
    exact fun id hid => (hall id hid).1
  · intro hstray id hid
    have hall : ∀ id : Nat, Within arena root id → Agrees M arena id := by
      intro id
      induction id using Nat.strong_induction_on with
      | _ id ih =>
        intro hid
        obtain ⟨node, hat⟩ := hget id hid
        exact agrees_node hc hat (fun child hchild =>
          ih child (hc.child_lt id node hat child hchild) (hchildren hid hat hchild)) (hstray id hid)
    exact (hall id hid).faithful

end Agreement

/-- `5 << 0`, eight bits wide. -/
def shiftByZero : NodeArena Unit :=
  let nodes := [.constant 5 0 8 false, .constant 0 0 8 false, .binary 0 .shl 1]
  ⟨nodes, rebuildCache nodes, [8, 8, 8]⟩

theorem shiftByZero_verify : shiftByZero.verify =
    .ok ⟨[8, 8, 8], [true, true, true], [false, false, false]⟩ := rfl

theorem evalConstExpr_faithful_iff_shiftByZero : shiftByZero.nodes.length = 3 ∧ ∀ M,
    ((∀ id, Within shiftByZero 2 id → Faithful M shiftByZero id) ↔
      ∀ id, Within shiftByZero 2 id → ¬ Strays M shiftByZero id) :=
  ⟨rfl, fun M => evalConstExpr_faithful_iff shiftByZero_verify M 2 (by decide)⟩

/-- The shift is evaluated to zero. -/
theorem shiftByZero_unfaithful : shiftByZero.verify.toOption.isSome = true ∧
    isConstExpr shiftByZero 2 = true ∧ ∀ M, ¬ Faithful M shiftByZero 2 := by
  refine ⟨rfl, by decide, fun M hfaithful => ?_⟩
  have hvalue : treeValue M shiftByZero 2 = ⟨5, 0⟩ := rfl
  have heval : evalConstExpr shiftByZero 2 = ⟨0, 0, 8⟩ := by decide
  have hsame := hfaithful (by rw [heval])
  rw [hvalue, heval] at hsame
  cases hsame

/-- So is the two-state value of a concatenation, which is not evaluated. -/
example : let nodes := [.constant 1 0 1 false, .concat [(0, 1), (0, 1)], .unary .toTwoState 1]
    let arena : NodeArena Unit := ⟨nodes, rebuildCache nodes, [1, 2, 2]⟩
    isConstExpr arena 2 = true ∧ evalConstExpr arena 2 = ⟨0, 0, 2⟩ ∧
      ∀ M, treeValue M arena 2 = ⟨3, 0⟩ :=
  ⟨by decide, by decide, fun _ => by simp [treeValue, recurse, recurseFuel, nodeValue, unaryValue,
    knownOnes, joinParts, truncate, NodeArena.width]⟩

end Celox.Slt
