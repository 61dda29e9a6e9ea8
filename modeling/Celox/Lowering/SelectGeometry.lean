import Celox.Lowering.BitAccess
import Celox.Data.RowMajor
import Celox.Data.ExceptList

/-! # The geometry of a select

When `select_geometry` accepts a select between constants and which errors the others get. The
meaning of a select is its plain indices and the window of its part select. -/
namespace Celox.Lowering
open Celox.Analysis (usizeMax checkedAdd)
open Celox.Slt (BitAccess)
open Celox.RowMajor (position places)

section Answers
variable {E α β : Type}

/-- An error that names what is wrong with the select. -/
def Refused (x : Except (SelectError E) α) : Prop :=
  ∃ feature message token, x = .error (.illegalContext feature message token)

/-- `x` is `a` where `p` holds and is refused elsewhere. -/
def Answers (x : Except (SelectError E) α) (p : Prop) (a : α) : Prop :=
  (p → x = .ok a) ∧ (¬p → Refused x)

/-- `x` does not panic, and what it returns has `P`. -/
def Safe (x : Except (SelectError E) α) (P : α → Prop) : Prop :=
  (∃ a, x = .ok a ∧ P a) ∨ Refused x

variable {x : Except (SelectError E) α} {f : α → Except (SelectError E) β} {p q : Prop}
  {P : α → Prop} {Q : β → Prop}

theorem Refused.bind (h : Refused x) : Refused (x >>= f) := by
  obtain ⟨feature, message, token, rfl⟩ := h
  exact ⟨feature, message, token, rfl⟩

theorem Answers.bind {a : α} {b : β} (hx : Answers x p a) (hf : p → Answers (f a) q b) :
    Answers (x >>= f) (p ∧ q) b := by
  by_cases hp : p
  · have hstep : (x >>= f) = f a := by rw [hx.1 hp]; rfl
    rw [hstep]
    exact ⟨fun h => (hf hp).1 h.2, fun h => (hf hp).2 fun hq => h ⟨hp, hq⟩⟩
  · exact ⟨fun h => absurd h.1 hp, fun _ => (hx.2 hp).bind⟩

theorem Answers.congr {a : α} (h : Answers x p a) (hiff : p ↔ q) : Answers x q a :=
  ⟨fun hq => h.1 (hiff.mpr hq), fun hq => h.2 fun hp => hq (hiff.mp hp)⟩

theorem Answers.ok (a : α) : Answers (E := E) (.ok a) True a :=
  ⟨fun _ => rfl, fun h => absurd trivial h⟩

theorem Answers.safe {a : α} (h : Answers x p a) : Safe x fun b => b = a ∧ p := by
  by_cases hp : p
  · exact .inl ⟨a, h.1 hp, rfl, hp⟩
  · exact .inr (h.2 hp)

theorem Safe.bind (hx : Safe x P) (hf : ∀ a, P a → Safe (f a) Q) : Safe (x >>= f) Q := by
  rcases hx with ⟨a, rfl, ha⟩ | hx
  · exact hf a ha
  · exact .inr hx.bind

theorem Safe.mono {P' : α → Prop} (hx : Safe x P) (h : ∀ a, P a → P' a) : Safe x P' :=
  hx.imp_left fun ⟨a, hxa, ha⟩ => ⟨a, hxa, h a ha⟩

theorem Safe.ok {a : α} (h : P a) : Safe (E := E) (.ok a) P := .inl ⟨a, rfl, h⟩

theorem Safe.of_refused (h : Refused x) : Safe x P := .inr h

theorem Safe.ne_panic (h : Safe x P) : x ≠ .error .panic := by
  rintro rfl
  rcases h with ⟨_, h, _⟩ | ⟨_, _, _, h⟩ <;> cases h

theorem Safe.of_ok {a : α} (h : Safe x P) (hx : x = .ok a) : P a := by
  subst hx
  rcases h with ⟨_, h, ha⟩ | ⟨_, _, _, h⟩ <;> cases h
  exact ha

theorem refused_error {feature message : String} {token : Option E} :
    Refused (α := α) (.error (.illegalContext feature message token)) :=
  ⟨_, _, _, rfl⟩

theorem orIllegal_answers {feature message : String} {token : Option E} {a : α} {o : Option α}
    (hsome : p → o = some a) (hnone : ¬p → o = none) :
    Answers (orIllegal feature message token o) p a :=
  ⟨fun hp => by rw [hsome hp]; rfl, fun hp => by rw [hnone hp]; exact refused_error⟩

theorem orIllegal_safe {feature message : String} {token : Option E} {o : Option α} :
    Safe (orIllegal feature message token o) fun a => o = some a := by
  cases o with
  | none => exact .inr refused_error
  | some a => exact .ok rfl

/-- A check: an error where it fails. -/
theorem check_answers {c : Prop} [Decidable c] {feature message : String} {token : Option E} {a : α}
    (hx : ¬c → Answers x p a) :
    Answers (if c then .error (.illegalContext feature message token) else x) (¬c ∧ p) a := by
  by_cases hc : c
  · rw [if_pos hc]
    exact ⟨fun h => absurd hc h.1, fun _ => refused_error⟩
  · rw [if_neg hc]
    exact (hx hc).congr ⟨fun h => ⟨hc, h⟩, fun h => h.2⟩

theorem check_safe {c : Prop} [Decidable c] {feature message : String} {token : Option E}
    (hx : ¬c → Safe x P) :
    Safe (if c then .error (.illegalContext feature message token) else x) P := by
  by_cases hc : c
  · rw [if_pos hc]
    exact .inr refused_error
  · rw [if_neg hc]
    exact hx hc

end Answers

section Checked
variable {a b c : Nat}

theorem checkedMul_answers {E : Type} {feature message : String} {token : Option E} :
    Answers (orIllegal feature message token (checkedMul a b)) (a * b ≤ usizeMax) (a * b) :=
  orIllegal_answers (fun h => if_pos h) fun h => if_neg h

theorem checkedAdd_answers {E : Type} {feature message : String} {token : Option E} :
    Answers (orIllegal feature message token (checkedAdd a b)) (a + b ≤ usizeMax) (a + b) :=
  orIllegal_answers (fun h => if_pos h) fun h => if_neg h

theorem checkedMul_eq_some : checkedMul a b = some c ↔ a * b ≤ usizeMax ∧ a * b = c := by
  unfold checkedMul
  split <;> simp_all

theorem checkedAdd_eq_some : checkedAdd a b = some c ↔ a + b ≤ usizeMax ∧ a + b = c := by
  unfold checkedAdd
  split <;> simp_all

theorem checkedSub_eq_some : checkedSub a b = some c ↔ b ≤ a ∧ a - b = c := by
  unfold checkedSub
  split <;> simp_all

end Checked

/-! ## Strides -/

/-- The strides of the dimensions: what lies behind each of them. -/
def stridesOf : List Nat → List Nat
  | [] => []
  | _ :: dims => dims.prod :: stridesOf dims

section Strides
variable {E : Type} {dims : List Nat}

@[simp] theorem stridesOf_length : (stridesOf dims).length = dims.length := by
  induction dims with
  | nil => rfl
  | cons _ _ ih => simp [stridesOf, ih]

theorem stridesOf_getElem? {i : Nat} (h : i < dims.length) :
    (stridesOf dims)[i]? = some (dims.drop (i + 1)).prod := by
  induction dims generalizing i with
  | nil => cases h
  | cons dim dims ih =>
    cases i with
    | zero => rfl
    | succ i => exact ih (Nat.succ_lt_succ_iff.mp h)

theorem levelWidth_stridesOf {i : Nat} (h : i ≤ dims.length) :
    levelWidth (stridesOf dims) dims.prod i = some (dims.drop i).prod := by
  cases i with
  | zero => rfl
  | succ i => exact stridesOf_getElem? h

theorem prod_drop_pos (hdims : ∀ dim ∈ dims, 0 < dim) (i : Nat) : 0 < (dims.drop i).prod :=
  List.prod_pos_iff_forall_pos_nat.mpr fun dim hdim => hdims dim (List.mem_of_mem_drop hdim)

theorem prod_drop_le (hdims : ∀ dim ∈ dims, 0 < dim) (i : Nat) :
    (dims.drop i).prod ≤ dims.prod := by
  have htake : 0 < (dims.take i).prod :=
    List.prod_pos_iff_forall_pos_nat.mpr fun dim hdim => hdims dim (List.mem_of_mem_take hdim)
  calc (dims.drop i).prod ≤ (dims.take i).prod * (dims.drop i).prod :=
        Nat.le_mul_of_pos_left _ htake
    _ = dims.prod := by rw [← List.prod_append, List.take_append_drop]

theorem drop_prod_eq {i dim : Nat} (h : dims[i]? = some dim) :
    (dims.drop i).prod = dim * (dims.drop (i + 1)).prod := by
  obtain ⟨hi, rfl⟩ := List.getElem?_eq_some_iff.mp h
  rw [List.drop_eq_getElem_cons hi, List.prod_cons]

theorem dimensionsToStrides_answers (hdims : ∀ dim ∈ dims, 0 < dim) (i : Nat) :
    Answers (dimensionsToStrides (E := E) i dims) (dims.prod ≤ usizeMax)
      (stridesOf dims, dims.prod) := by
  induction dims generalizing i with
  | nil => exact (Answers.ok _).congr (by decide)
  | cons dim dims ih =>
    have hdim : 0 < dim := hdims dim (List.mem_cons_self ..)
    have hrest := ih (fun other hother => hdims other (List.mem_cons_of_mem _ hother)) (i + 1)
    have hle : dims.prod ≤ dims.prod * dim := Nat.le_mul_of_pos_right _ hdim
    refine (hrest.bind (q := dims.prod * dim ≤ usizeMax) fun _ => ?_).congr ?_
    · dsimp only
      rw [if_neg (by omega)]
      refine (checkedMul_answers.bind (q := True) fun _ => ?_).congr (and_iff_left trivial)
      rw [stridesOf, List.prod_cons, Nat.mul_comm dim]
      exact .ok _
    · rw [List.prod_cons, Nat.mul_comm dim]
      exact ⟨fun h => h.2, fun h => ⟨Nat.le_trans hle h, h⟩⟩

end Strides
/-! ## Selections -/

/-- The part of its dimension that a part select picks, from its first to its last element. -/
def window : VarSelectOp → Nat → Nat → Option (Nat × Nat)
  | .colon, anchor, range => if range ≤ anchor then some (range, anchor) else none
  | .plusColon, anchor, range => if 0 < range then some (anchor, anchor + range - 1) else none
  | .minusColon, anchor, range =>
    if 0 < range ∧ range ≤ anchor + 1 then some (anchor + 1 - range, anchor) else none
  | .step, anchor, range =>
    if 0 < range then some (anchor * range, anchor * range + range - 1) else none

/-- The plain indices of a select and the window behind them. -/
structure Selection where
  plain : List Nat
  window : Option (Nat × Nat)
  deriving Repr, DecidableEq

/-- The indices of a select before the anchor of its part select. -/
def plainIndices {E : Type} (index : List E) (select : VarSelect E) : List E :=
  match select.part with
  | none => index ++ select.indices
  | some _ => (index ++ select.indices).dropLast

/-- What a select means where its expressions have these values. -/
def selection {E : Type} (value : E → Nat) (index : List E) (select : VarSelect E) :
    Option Selection :=
  match select.part with
  | none => some ⟨(plainIndices index select).map value, none⟩
  | some (op, range) => do
    let anchor ← select.indices.getLast?
    let picked ← window op (value anchor) (value range)
    some ⟨(plainIndices index select).map value, some picked⟩

namespace Selection

/-- There is a dimension for every index, and the part select is inside its own. -/
def PartInside (dims : List Nat) (s : Selection) : Prop :=
  match s.window with
  | none => s.plain.length ≤ dims.length
  | some (_, high) => ∃ dim, dims[s.plain.length]? = some dim ∧ high < dim

/-- Every index and every bound is inside its own dimension. -/
def Inside (dims : List Nat) (s : Selection) : Prop :=
  RowMajor.Inside dims s.plain ∧ s.PartInside dims

/-- The first of the bits, counted from the element that has the plain indices. -/
def first (dims : List Nat) (s : Selection) : Nat :=
  match s.window with
  | none => 0
  | some (low, _) => low * (dims.drop (s.plain.length + 1)).prod

/-- The end of the bits, counted in the same way. -/
def stop (dims : List Nat) (s : Selection) : Nat :=
  match s.window with
  | none => (dims.drop s.plain.length).prod
  | some (_, high) => (high + 1) * (dims.drop (s.plain.length + 1)).prod

variable {dims : List Nat} {s : Selection}

theorem PartInside.length_le (h : s.PartInside dims) : s.plain.length ≤ dims.length := by
  unfold PartInside at h
  split at h
  · exact h
  · obtain ⟨_, hdim, _⟩ := h
    exact Nat.le_of_lt (List.getElem?_eq_some_iff.mp hdim).1

theorem PartInside.stop_le (h : s.PartInside dims) :
    s.stop dims ≤ (dims.drop s.plain.length).prod := by
  unfold PartInside at h
  unfold stop
  split at h
  · exact le_rfl
  · obtain ⟨_, hdim, hlt⟩ := h
    rw [drop_prod_eq hdim]
    exact Nat.mul_le_mul_right _ hlt

theorem Inside.position_add_stop_le (h : s.Inside dims) :
    position dims s.plain + s.stop dims ≤ dims.prod :=
  Nat.le_trans (Nat.add_le_add_left h.2.stop_le _) h.1.position_add_le

theorem mem_places (hdims : ∀ dim ∈ dims, 0 < dim) (h : s.Inside dims) {place : Nat} :
    place ∈ places dims s.plain s.window ↔
      position dims s.plain + s.first dims ≤ place ∧
        place < position dims s.plain + s.stop dims := by
  have hdrop : ∀ i, ∀ dim ∈ dims.drop i, 0 < dim :=
    fun i dim hdim => hdims dim (List.mem_of_mem_drop hdim)
  rw [RowMajor.mem_places_drop h.1]
  have hpart := h.2
  unfold PartInside at hpart
  unfold first stop
  split at hpart
  case h_1 hwindow =>
    simp only [hwindow, RowMajor.mem_places_all (hdrop _)]
    constructor
    · rintro ⟨rest, hrest, rfl⟩
      omega
    · rintro ⟨hle, hlt⟩
      exact ⟨place - position dims s.plain, by omega, by omega⟩
  case h_2 low high hwindow =>
    obtain ⟨dim, hdim, hlt⟩ := hpart
    obtain ⟨hi, rfl⟩ := List.getElem?_eq_some_iff.mp hdim
    simp only [hwindow]
    rw [List.drop_eq_getElem_cons hi]
    simp only [RowMajor.mem_places_window (hdrop _) hlt]
    constructor
    · rintro ⟨rest, hrest, rfl⟩
      omega
    · rintro ⟨hle, hlt⟩
      exact ⟨place - position dims s.plain, by omega, by omega⟩

end Selection

section Window
variable {op : VarSelectOp} {anchor range low high : Nat}

theorem window_le (h : window op anchor range = some (low, high)) :
    low ≤ high ∧ anchor ≤ high ∧ range ≤ high + 1 := by
  cases op <;> simp only [window, Option.ite_none_right_eq_some, Option.some.injEq,
    Prod.mk.injEq] at h
  case step =>
    obtain ⟨hpos, rfl, rfl⟩ := h
    have hle : anchor ≤ anchor * range := Nat.le_mul_of_pos_right _ hpos
    omega
  all_goals omega

/-- The geometry of a part select between constants. -/
def geometryOf (op : VarSelectOp) (anchor range : Nat) : PartSelectGeometry :=
  match op with
  | .colon => .colon range (anchor - range + 1)
  | .plusColon => .plusColon range
  | .minusColon => .minusColon range
  | .step => .step range

theorem geometryOf_elements (h : window op anchor range = some (low, high)) :
    (geometryOf op anchor range).elements = high + 1 - low := by
  cases op <;> simp only [window, Option.ite_none_right_eq_some, Option.some.injEq,
    Prod.mk.injEq] at h <;> simp only [geometryOf, PartSelectGeometry.elements] <;> omega

/-- The window that a part select has is inside its dimension. -/
def WindowInside (op : VarSelectOp) (anchor range width : Nat) : Prop :=
  ∃ low high, window op anchor range = some (low, high) ∧ high < width

variable {E : Type} {anchorExpr rangeExpr : E} {width : Nat}

theorem colonGeometry_answers (hwidth : width ≤ usizeMax) :
    Answers (colonGeometry anchorExpr (some anchor) range width)
      (WindowInside .colon anchor range width) (geometryOf .colon anchor range) := by
  have hiff : (¬(anchor < range ∨ width ≤ anchor) ∧ True) ↔
      WindowInside .colon anchor range width := by
    simp only [WindowInside, window, Option.ite_none_right_eq_some, Option.some.injEq,
      Prod.mk.injEq]
    constructor
    · rintro ⟨h, -⟩
      exact ⟨range, anchor, ⟨by omega, rfl, rfl⟩, by omega⟩
    · rintro ⟨_, _, ⟨hle, rfl, rfl⟩, hlt⟩
      exact ⟨by omega, trivial⟩
  refine Answers.congr ?_ hiff
  refine check_answers fun hcheck => ?_
  have hspan : checkedSub anchor range = some (anchor - range) := if_pos (by omega)
  have helements : checkedAdd (anchor - range) 1 = some (anchor - range + 1) := if_pos (by omega)
  rw [hspan]
  show Answers (orPanic (checkedAdd (anchor - range) 1) >>= _) _ _
  rw [helements]
  exact .ok _

/-- A range and an anchor that pass the tests of `+:`, `-:` and `step`. -/
theorem checkPart_answers (hop : op ≠ .colon) (hwidth : width ≤ usizeMax) :
    Answers (checkPart op anchorExpr rangeExpr (some anchor) range width)
      (WindowInside op anchor range width) () := by
  have hiff : (¬range = 0 ∧ ¬width < range ∧ validAnchor op anchor range width = true) ↔
      WindowInside op anchor range width := by
    cases op with
    | colon => exact absurd rfl hop
    | plusColon =>
      simp only [validAnchor, WindowInside, window, Option.ite_none_right_eq_some,
        Option.some.injEq, Prod.mk.injEq, Option.any_eq_true, checkedAdd_eq_some,
        decide_eq_true_eq]
      constructor
      · rintro ⟨hpos, _, _, ⟨_, rfl⟩, hle⟩
        exact ⟨anchor, _, ⟨by omega, rfl, rfl⟩, by omega⟩
      · rintro ⟨_, _, ⟨hpos, rfl, rfl⟩, hlt⟩
        exact ⟨by omega, by omega, _, ⟨by omega, rfl⟩, by omega⟩
    | minusColon =>
      simp only [validAnchor, WindowInside, window, Option.ite_none_right_eq_some,
        Option.some.injEq, Prod.mk.injEq, Option.any_eq_true, checkedAdd_eq_some,
        decide_eq_true_eq, Bool.and_eq_true]
      constructor
      · rintro ⟨hpos, _, hlt, _, ⟨_, rfl⟩, hle⟩
        exact ⟨_, anchor, ⟨by omega, rfl, rfl⟩, by omega⟩
      · rintro ⟨_, _, ⟨hpos, rfl, rfl⟩, hlt⟩
        exact ⟨by omega, by omega, by omega, _, ⟨by omega, rfl⟩, by omega⟩
    | step =>
      simp only [validAnchor, WindowInside, window, Option.ite_none_right_eq_some,
        Option.some.injEq, Prod.mk.injEq, Option.any_eq_true, Option.bind_eq_some_iff,
        checkedAdd_eq_some, checkedMul_eq_some, decide_eq_true_eq]
      constructor
      · rintro ⟨hpos, _, _, ⟨_, ⟨_, rfl⟩, _, rfl⟩, hle⟩
        exact ⟨_, _, ⟨by omega, rfl, rfl⟩, by omega⟩
      · rintro ⟨_, _, ⟨hpos, rfl, rfl⟩, hlt⟩
        exact ⟨by omega, by omega, _, ⟨_, ⟨by omega, rfl⟩, by omega, rfl⟩, by omega⟩
  refine Answers.congr ?_ hiff
  refine check_answers fun _ => check_answers fun _ => ?_
  dsimp only
  by_cases hvalid : validAnchor op anchor range width = true
  · rw [if_pos hvalid]
    exact (Answers.ok ()).congr (by simp [hvalid])
  · rw [if_neg hvalid]
    exact ⟨fun h => absurd h hvalid, fun _ => refused_error⟩

theorem partGeometry_answers (hwidth : width ≤ usizeMax) :
    Answers (partGeometry op anchorExpr rangeExpr (some anchor) range width)
      (WindowInside op anchor range width) (geometryOf op anchor range) := by
  have hshared : ∀ other ≠ VarSelectOp.colon, ∀ part : PartSelectGeometry,
      Answers (checkPart other anchorExpr rangeExpr (some anchor) range width >>= fun _ => .ok part)
        (WindowInside other anchor range width) part := fun other hother part =>
    ((checkPart_answers hother hwidth).bind fun _ => .ok part).congr (and_iff_left trivial)
  cases op with
  | colon => exact colonGeometry_answers hwidth
  | plusColon => exact hshared .plusColon nofun (.plusColon range)
  | minusColon => exact hshared .minusColon nofun (.minusColon range)
  | step => exact hshared .step nofun (.step range)

theorem dimensionWidth_eq {dims : List Nat} (hdims : ∀ dim ∈ dims, 0 < dim) {count dim : Nat}
    (h : dims[count]? = some dim) :
    dimensionWidth (stridesOf dims) dims.prod count rangeExpr = .ok dim := by
  have hlt : count < dims.length := (List.getElem?_eq_some_iff.mp h).1
  have hpos := prod_drop_pos hdims (count + 1)
  unfold dimensionWidth
  rw [if_neg (by simpa using hlt), levelWidth_stridesOf (Nat.le_of_lt hlt), stridesOf_getElem? hlt]
  show orPanic (checkedDiv (dims.drop count).prod (dims.drop (count + 1)).prod) = .ok dim
  rw [checkedDiv, if_neg (by omega), drop_prod_eq h, Nat.mul_div_cancel _ hpos]
  rfl

theorem WindowInside.le (h : WindowInside op anchor range width) : anchor ≤ width ∧ range ≤ width := by
  obtain ⟨low, high, hwindow, hlt⟩ := h
  have hle := window_le hwindow
  omega

end Window

section Geometry
variable {E : Type} {evalConstexpr : E → Option Nat} {dims : List Nat}

theorem evalConstexprUsize_answers {expr : E} {feature : String} {v : Nat}
    (h : evalConstexpr expr = some v) :
    Answers (evalConstexprUsize evalConstexpr expr feature) (v ≤ usizeMax) (some v) := by
  unfold evalConstexprUsize
  rw [h]
  by_cases hv : v ≤ usizeMax
  · exact ⟨fun _ => if_pos hv, fun hnot => absurd hv hnot⟩
  · exact ⟨fun hle => absurd hle hv, fun _ => by simp only [if_neg hv]; exact refused_error⟩

theorem evalConstexprUsize_none {expr : E} {feature : String} (h : evalConstexpr expr = none) :
    evalConstexprUsize evalConstexpr expr feature = .ok none := by
  rw [evalConstexprUsize, h]

theorem evalConstexprUsize_safe {expr : E} {feature : String} :
    Safe (evalConstexprUsize evalConstexpr expr feature) fun v => evalConstexpr expr = v := by
  cases h : evalConstexpr expr with
  | none => exact .inl ⟨none, evalConstexprUsize_none h, rfl⟩
  | some v => exact (evalConstexprUsize_answers h).safe.mono fun _ ha => ha.1.symm

theorem indexGeometry_answers {n : Nat} :
    Answers (E := E) (indexGeometry (stridesOf dims) dims.prod n) (n ≤ dims.length)
      ⟨stridesOf dims, dims.prod, n, none, (dims.drop n).prod⟩ := by
  refine Answers.congr (p := ¬(stridesOf dims).length < n ∧ True) ?_ (by simp)
  refine check_answers fun hcheck => ?_
  rw [levelWidth_stridesOf (by simpa using hcheck)]
  exact .ok _

theorem partSelectGeometry_answers (hdims : ∀ dim ∈ dims, 0 < dim) (hprod : dims.prod ≤ usizeMax)
    {anchorExpr rangeExpr : E} {op : VarSelectOp} {anchor range totalIndices : Nat}
    (hanchor : evalConstexpr anchorExpr = some anchor)
    (hrange : evalConstexpr rangeExpr = some range) (htotal : 1 ≤ totalIndices) :
    Answers (partSelectGeometry evalConstexpr (stridesOf dims) dims.prod totalIndices
        (some anchorExpr) op rangeExpr)
      (∃ dim, dims[totalIndices - 1]? = some dim ∧ WindowInside op anchor range dim)
      ⟨stridesOf dims, dims.prod, totalIndices - 1, some (geometryOf op anchor range),
        (geometryOf op anchor range).elements * (dims.drop (totalIndices - 1 + 1)).prod⟩ := by
  have hcount : checkedSub totalIndices 1 = some (totalIndices - 1) := if_pos htotal
  unfold partSelectGeometry
  rw [hcount]
  show Answers (dimensionWidth (stridesOf dims) dims.prod (totalIndices - 1) rangeExpr >>= _) _ _
  cases hdim : dims[totalIndices - 1]? with
  | none =>
    refine ⟨fun h => ?_, fun _ => Refused.bind ?_⟩
    · obtain ⟨_, ⟨⟩, _⟩ := h
    unfold dimensionWidth
    rw [if_pos (by simpa using hdim)]
    exact refused_error
  | some dim =>
    have hlt : totalIndices - 1 < dims.length := (List.getElem?_eq_some_iff.mp hdim).1
    have hpos := prod_drop_pos hdims (totalIndices - 1 + 1)
    have hlevel : dim * (dims.drop (totalIndices - 1 + 1)).prod ≤ usizeMax := by
      rw [← drop_prod_eq hdim]
      exact Nat.le_trans (prod_drop_le hdims _) hprod
    have hdimle : dim ≤ usizeMax := Nat.le_trans (Nat.le_mul_of_pos_right _ hpos) hlevel
    rw [dimensionWidth_eq hdims hdim, stridesOf_getElem? hlt]
    show Answers (evalConstexprUsize evalConstexpr rangeExpr "variable part-select range" >>= _) _ _
    refine Answers.congr (p := range ≤ usizeMax ∧ anchor ≤ usizeMax ∧
      WindowInside op anchor range dim ∧ (geometryOf op anchor range).elements *
        (dims.drop (totalIndices - 1 + 1)).prod ≤ usizeMax ∧ True) ?_ ?_
    · refine (evalConstexprUsize_answers hrange).bind fun _ => ?_
      refine (evalConstexprUsize_answers hanchor).bind fun _ => ?_
      refine (partGeometry_answers hdimle).bind fun _ => ?_
      refine checkedMul_answers.bind fun _ => ?_
      exact .ok _
    constructor
    · rintro ⟨-, -, hwindow, -⟩
      exact ⟨dim, rfl, hwindow⟩
    · rintro ⟨_, ⟨⟩, hwindow⟩
      have hle := hwindow.le
      obtain ⟨low, high, hpicked, hhigh⟩ := id hwindow
      refine ⟨by omega, by omega, hwindow, ?_, trivial⟩
      rw [geometryOf_elements hpicked]
      exact Nat.le_trans (Nat.mul_le_mul_right _ (by omega)) hlevel

theorem partGeometry_safe {anchorExpr rangeExpr : E} {op : VarSelectOp} {anchor : Option Nat}
    {range width : Nat} (hwidth : width ≤ usizeMax) :
    Safe (partGeometry op anchorExpr rangeExpr anchor range width) fun _ => True := by
  cases anchor with
  | some anchor => exact (partGeometry_answers hwidth).safe.mono fun _ _ => trivial
  | none =>
    have hcheck : ∀ other : VarSelectOp,
        Safe (checkPart other anchorExpr rangeExpr none range width) fun _ => True :=
      fun _ => check_safe fun _ => check_safe fun _ => .ok trivial
    cases op with
    | colon => exact .inr refused_error.bind
    | _ => exact (hcheck _).bind fun _ _ => .ok trivial

/-- What the geometry says about a select. -/
structure GeometryOf (dims : List Nat) (index : List E) (select : VarSelect E)
    (geometry : SelectGeometry) : Prop where
  strides : geometry.strides = stridesOf dims
  totalWidth : geometry.totalWidth = dims.prod
  bounded : dims.prod ≤ usizeMax
  count : geometry.dimensionCount = (plainIndices index select).length
  count_le : (plainIndices index select).length ≤ dims.length

theorem partSelectGeometry_safe (hdims : ∀ dim ∈ dims, 0 < dim) (hprod : dims.prod ≤ usizeMax)
    {anchorExpr : Option E} {rangeExpr : E} {op : VarSelectOp} {totalIndices : Nat} :
    Safe (partSelectGeometry evalConstexpr (stridesOf dims) dims.prod totalIndices anchorExpr op
        rangeExpr) fun geometry => geometry.strides = stridesOf dims ∧
      geometry.totalWidth = dims.prod ∧ geometry.dimensionCount = totalIndices - 1 ∧
      totalIndices - 1 ≤ dims.length := by
  refine orIllegal_safe.bind fun anchorExpr _ => orIllegal_safe.bind fun count hcount => ?_
  obtain ⟨_, rfl⟩ := checkedSub_eq_some.mp hcount
  cases hdim : dims[totalIndices - 1]? with
  | none =>
    refine .inr (Refused.bind ?_)
    unfold dimensionWidth
    rw [if_pos (by simpa using hdim)]
    exact refused_error
  | some dim =>
    have hlt : totalIndices - 1 < dims.length := (List.getElem?_eq_some_iff.mp hdim).1
    have hlevel : dim * (dims.drop (totalIndices - 1 + 1)).prod ≤ usizeMax := by
      rw [← drop_prod_eq hdim]
      exact Nat.le_trans (prod_drop_le hdims _) hprod
    have hdimle : dim ≤ usizeMax :=
      Nat.le_trans (Nat.le_mul_of_pos_right _ (prod_drop_pos hdims _)) hlevel
    rw [dimensionWidth_eq hdims hdim]
    refine Safe.bind (P := (· = dim)) (.ok rfl) fun _ hdim => ?_
    subst hdim
    refine orIllegal_safe.bind fun _ _ => evalConstexprUsize_safe.bind fun _ _ => ?_
    refine orIllegal_safe.bind fun _ _ => evalConstexprUsize_safe.bind fun _ _ => ?_
    refine (partGeometry_safe hdimle).bind fun _ _ => orIllegal_safe.bind fun _ _ => ?_
    exact .ok ⟨rfl, rfl, rfl, Nat.le_of_lt hlt⟩

variable {index : List E} {select : VarSelect E}

theorem plainIndices_take : (index ++ select.indices).take (plainIndices index select).length =
    plainIndices index select := by
  unfold plainIndices
  split
  · exact List.take_length
  · rw [List.length_dropLast, List.dropLast_eq_take]

theorem selectGeometry_safe (hdims : ∀ dim ∈ dims, 0 < dim) :
    Safe (selectGeometry evalConstexpr dims index select) (GeometryOf dims index select) := by
  refine (dimensionsToStrides_answers hdims 0).safe.bind fun _ hstrides => ?_
  obtain ⟨rfl, hprod⟩ := hstrides
  refine orIllegal_safe.bind fun _ htotal => ?_
  obtain ⟨-, rfl⟩ := checkedAdd_eq_some.mp htotal
  cases hpart : select.part with
  | none =>
    have hplain : plainIndices index select = index ++ select.indices := by
      rw [plainIndices, hpart]
    refine indexGeometry_answers.safe.mono fun geometry hgeometry => ?_
    obtain ⟨rfl, hle⟩ := hgeometry
    exact ⟨rfl, rfl, hprod, by simp [hplain], by simpa [hplain] using hle⟩
  | some part =>
    have hplain : plainIndices index select = (index ++ select.indices).dropLast := by
      rw [plainIndices, hpart]
    refine (partSelectGeometry_safe hdims hprod).mono fun geometry hgeometry => ?_
    obtain ⟨hstrides, htotal, hcount, hle⟩ := hgeometry
    exact ⟨hstrides, htotal, hprod, by simp [hplain, hcount], by simpa [hplain] using hle⟩

end Geometry

section Constant
variable {E : Type} {evalConstexpr : E → Option Nat} {value : E → Nat} {dims : List Nat}
  {index : List E} {select : VarSelect E} {s : Selection}

/-- All expressions of a select. -/
def expressions (index : List E) (select : VarSelect E) : List E :=
  index ++ select.indices ++ (select.part.map Prod.snd).toList

/-- Every expression of the select is a constant with this value. -/
def Constant (evalConstexpr : E → Option Nat) (value : E → Nat) (index : List E)
    (select : VarSelect E) : Prop :=
  ∀ expr ∈ expressions index select, evalConstexpr expr = some (value expr)

theorem mem_plainIndices {expr : E} (h : expr ∈ plainIndices index select) :
    expr ∈ index ++ select.indices := by
  unfold plainIndices at h
  split at h
  · exact h
  · exact List.dropLast_subset _ h

theorem Constant.plain (h : Constant evalConstexpr value index select) {expr : E}
    (hexpr : expr ∈ plainIndices index select) : evalConstexpr expr = some (value expr) :=
  h expr (List.mem_append_left _ (mem_plainIndices hexpr))

theorem Constant.anchor (h : Constant evalConstexpr value index select) {anchor : E}
    (hanchor : select.indices.getLast? = some anchor) : evalConstexpr anchor = some (value anchor) :=
  h anchor (List.mem_append_left _ (List.mem_append_right _ (List.mem_of_getLast? hanchor)))

theorem Constant.range (h : Constant evalConstexpr value index select) {op : VarSelectOp} {range : E}
    (hpart : select.part = some (op, range)) : evalConstexpr range = some (value range) :=
  h range (List.mem_append_right _ (by simp [hpart]))

theorem Refused.of_safe {α β : Type} {x : Except (SelectError E) α}
    {f : α → Except (SelectError E) β} {P : α → Prop} (hx : Safe x P)
    (hf : ∀ a, P a → Refused (f a)) : Refused (x >>= f) := by
  rcases hx with ⟨a, rfl, ha⟩ | hx
  · exact hf a ha
  · exact hx.bind

theorem plainIndices_length {part : VarSelectOp × E} (hpart : select.part = some part) :
    (plainIndices index select).length = index.length + select.indices.length - 1 := by
  simp [plainIndices, hpart]

theorem selectGeometry_part (hdims : ∀ dim ∈ dims, 0 < dim)
    (hconst : Constant evalConstexpr value index select) {op : VarSelectOp} {anchorExpr range : E}
    (hpart : select.part = some (op, range))
    (hlast : select.indices.getLast? = some anchorExpr) :
    Answers (selectGeometry evalConstexpr dims index select)
      (dims.prod ≤ usizeMax ∧ index.length + select.indices.length ≤ usizeMax ∧
        ∃ dim, dims[(plainIndices index select).length]? = some dim ∧
          WindowInside op (value anchorExpr) (value range) dim)
      ⟨stridesOf dims, dims.prod, (plainIndices index select).length,
        some (geometryOf op (value anchorExpr) (value range)),
        (geometryOf op (value anchorExpr) (value range)).elements *
          (dims.drop ((plainIndices index select).length + 1)).prod⟩ := by
  have hpos : 1 ≤ index.length + select.indices.length := by
    have := List.length_pos_of_mem (List.mem_of_getLast? hlast)
    omega
  unfold selectGeometry
  refine (dimensionsToStrides_answers hdims 0).bind fun hprod => ?_
  refine checkedAdd_answers.bind fun _ => ?_
  rw [plainIndices_length hpart, hpart, hlast]
  exact partSelectGeometry_answers hdims hprod (hconst.anchor hlast) (hconst.range hpart) hpos

theorem selectGeometry_index (hdims : ∀ dim ∈ dims, 0 < dim) (hpart : select.part = none) :
    Answers (selectGeometry evalConstexpr dims index select)
      (dims.prod ≤ usizeMax ∧ index.length + select.indices.length ≤ usizeMax ∧
        (plainIndices index select).length ≤ dims.length)
      ⟨stridesOf dims, dims.prod, (plainIndices index select).length, none,
        (dims.drop (plainIndices index select).length).prod⟩ := by
  have hplain : (plainIndices index select).length = index.length + select.indices.length := by
    simp [plainIndices, hpart]
  unfold selectGeometry
  refine (dimensionsToStrides_answers hdims 0).bind fun _ => ?_
  refine checkedAdd_answers.bind fun _ => ?_
  rw [hplain, hpart]
  exact indexGeometry_answers

theorem selectGeometry_answers (hdims : ∀ dim ∈ dims, 0 < dim) (hlength : dims.length ≤ usizeMax)
    (hconst : Constant evalConstexpr value index select)
    (hs : selection value index select = some s) :
    ∃ part, Answers (selectGeometry evalConstexpr dims index select)
      (dims.prod ≤ usizeMax ∧ s.PartInside dims)
      ⟨stridesOf dims, dims.prod, s.plain.length, part, s.stop dims - s.first dims⟩ := by
  unfold selection at hs
  split at hs
  case h_1 hpart =>
    cases hs
    refine ⟨none, ?_⟩
    have hindex : Answers (selectGeometry evalConstexpr dims index select) _ _ :=
      selectGeometry_index hdims hpart
    have hplain : (plainIndices index select).length = index.length + select.indices.length := by
      simp [plainIndices, hpart]
    simp only [Selection.stop, Selection.first, List.length_map, Nat.sub_zero]
    refine hindex.congr ?_
    simp only [Selection.PartInside, List.length_map]
    omega
  case h_2 op range hpart =>
    obtain ⟨anchorExpr, hlast, hs⟩ := Option.bind_eq_some_iff.mp hs
    obtain ⟨⟨low, high⟩, hwindow, hs⟩ := Option.bind_eq_some_iff.mp hs
    cases hs
    refine ⟨some (geometryOf op (value anchorExpr) (value range)), ?_⟩
    have hselect := selectGeometry_part hdims hconst hpart hlast
    rw [geometryOf_elements hwindow] at hselect
    simp only [Selection.stop, Selection.first, List.length_map]
    rw [← Nat.sub_mul]
    refine hselect.congr ?_
    simp only [Selection.PartInside, List.length_map, WindowInside, hwindow, Option.some.injEq,
      Prod.mk.injEq]
    constructor
    · rintro ⟨hprod, _, dim, hdim, _, _, ⟨rfl, rfl⟩, hlt⟩
      exact ⟨hprod, dim, hdim, hlt⟩
    · rintro ⟨hprod, dim, hdim, hlt⟩
      have hcount : (plainIndices index select).length < dims.length :=
        (List.getElem?_eq_some_iff.mp hdim).1
      rw [plainIndices_length hpart] at hcount
      exact ⟨hprod, by omega, dim, hdim, low, high, ⟨rfl, rfl⟩, hlt⟩

/-- A select without a meaning has no geometry. -/
theorem selectGeometry_refused (hdims : ∀ dim ∈ dims, 0 < dim)
    (hconst : Constant evalConstexpr value index select)
    (hs : selection value index select = none) :
    Refused (selectGeometry evalConstexpr dims index select) := by
  unfold selection at hs
  split at hs
  case h_1 => cases hs
  case h_2 op range hpart =>
    cases hlast : select.indices.getLast? with
    | none =>
      unfold selectGeometry
      refine .of_safe (dimensionsToStrides_answers hdims 0).safe fun _ _ => ?_
      refine .of_safe orIllegal_safe fun _ _ => ?_
      rw [hpart, hlast]
      exact refused_error
    | some anchorExpr =>
      rw [hlast] at hs
      refine (selectGeometry_part hdims hconst hpart hlast).2 ?_
      rintro ⟨_, _, _, _, _, _, hwindow, _⟩
      simp [hwindow] at hs

end Constant

end Celox.Lowering
