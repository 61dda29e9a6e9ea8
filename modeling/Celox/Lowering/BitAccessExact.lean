import Celox.Lowering.SelectGeometry

/-! # What a variable select selects

The meaning of a select is a set of elements in row-major order. `eval_var_select` compares the end of
the range with the width of the variable but no index with its own dimension, so that an index that is
too large can reach the bits of another element. -/
namespace Celox.Lowering
open Celox.Analysis (usizeMax checkedAdd)
open Celox.Slt (BitAccess)
open Celox.RowMajor (position places)

/-! ## The range -/

section Range
variable {E : Type} {evalConstexpr : E → Option Nat} {value : E → Nat} {dims : List Nat}
  {index : List E} {select : VarSelect E} {s : Selection} {geometry : SelectGeometry}

theorem boundedAccess_answers {base width totalWidth : Nat} {message : BitAccess → String}
    (hwidth : 0 < width) (htotal : totalWidth ≤ usizeMax) :
    Answers (E := E) (boundedAccess base width totalWidth message) (base + width ≤ totalWidth)
      ⟨base, base + width - 1⟩ := by
  have hmsb : base + (width - 1) = base + width - 1 := by omega
  have hlast : checkedSub width 1 = some (width - 1) := if_pos hwidth
  have haccess : Answers (E := E) (checkedBitAccess base width "variable select" none)
      (base + (width - 1) ≤ usizeMax ∧ True) ⟨base, base + (width - 1)⟩ := by
    unfold checkedBitAccess
    rw [if_neg (by omega), hlast]
    exact checkedAdd_answers.bind fun _ => .ok _
  refine (haccess.bind fun _ => check_answers fun _ => ?_).congr
    (p := (base + (width - 1) ≤ usizeMax ∧ True) ∧ ¬totalWidth ≤ base + (width - 1) ∧ True) ?_
  · rw [hmsb]
    exact .ok _
  · simp only [and_true]
    omega

theorem getSliceFallback_answers (hdims : ∀ dim ∈ dims, 0 < dim)
    (hgeometry : GeometryOf dims index select geometry) {base i : Nat} (hi : i ≤ dims.length) :
    Answers (E := E) (getSliceFallback geometry base i)
      (base + (dims.drop i).prod ≤ dims.prod) ⟨base, base + (dims.drop i).prod - 1⟩ := by
  unfold getSliceFallback
  rw [hgeometry.strides, hgeometry.totalWidth, levelWidth_stridesOf hi]
  exact boundedAccess_answers (prod_drop_pos hdims i) hgeometry.bounded

/-- One round of the loop at a constant index. -/
theorem indexLoop_cons (hdims : ∀ dim ∈ dims, 0 < dim)
    (hgeometry : GeometryOf dims index select geometry) {i base n v : Nat} {expr : E}
    {rest : List E} (hi : i < dims.length) (hexpr : evalConstexpr expr = some v) {p : Prop}
    {reached : BitAccess ⊕ Nat × Nat}
    (hrest : base + v * (dims.drop (i + 1)).prod ≤ usizeMax → Answers (indexLoop evalConstexpr
      geometry (i + 1) (base + v * (dims.drop (i + 1)).prod) (n + 1) rest) p reached) :
    Answers (indexLoop evalConstexpr geometry i base n (expr :: rest))
      (base + v * (dims.drop (i + 1)).prod ≤ usizeMax ∧ p) reached := by
  have hle : v ≤ v * (dims.drop (i + 1)).prod :=
    Nat.le_mul_of_pos_right _ (prod_drop_pos hdims _)
  rw [indexLoop, hgeometry.strides, stridesOf_getElem? hi]
  refine Answers.congr (p := v ≤ usizeMax ∧ v * (dims.drop (i + 1)).prod ≤ usizeMax ∧
    base + v * (dims.drop (i + 1)).prod ≤ usizeMax ∧ p) ?_ ?_
  · refine (evalConstexprUsize_answers hexpr).bind fun _ => ?_
    refine checkedMul_answers.bind fun _ => ?_
    exact checkedAdd_answers.bind hrest
  · constructor
    · rintro ⟨-, -, hbase, hp⟩
      exact ⟨hbase, hp⟩
    · rintro ⟨hbase, hp⟩
      exact ⟨by omega, by omega, hbase, hp⟩

theorem position_drop {i v : Nat} {rest : List Nat} (hi : i < dims.length) :
    position (dims.drop i) (v :: rest) =
      v * (dims.drop (i + 1)).prod + position (dims.drop (i + 1)) rest := by
  rw [List.drop_eq_getElem_cons hi, position]

theorem indexLoop_answers (hdims : ∀ dim ∈ dims, 0 < dim)
    (hgeometry : GeometryOf dims index select geometry) {exprs : List E}
    (hexprs : ∀ expr ∈ exprs, evalConstexpr expr = some (value expr)) {i base n : Nat}
    (hi : i + exprs.length ≤ dims.length) (hbase : base ≤ usizeMax) :
    Answers (indexLoop evalConstexpr geometry i base n exprs)
      (base + position (dims.drop i) (exprs.map value) ≤ usizeMax)
      (.inr (base + position (dims.drop i) (exprs.map value), n + exprs.length)) := by
  induction exprs generalizing i base n with
  | nil =>
    have hzero : position (dims.drop i) [] = 0 := by
      cases dims.drop i <;> rfl
    simp only [List.map_nil, hzero]
    exact (Answers.ok _).congr (iff_of_true trivial hbase)
  | cons expr rest ih =>
    have hlt : i < dims.length := by simp at hi; omega
    have hrest := fun (base n : Nat) (hbase : base ≤ usizeMax) =>
      ih (fun other hother => hexprs other (List.mem_cons_of_mem _ hother)) (i := i + 1) (n := n)
        (by simp at hi; omega) hbase
    have hcount : n + (expr :: rest).length = n + 1 + rest.length := by simp; omega
    rw [List.map_cons, position_drop hlt, ← Nat.add_assoc, hcount]
    refine (indexLoop_cons hdims hgeometry hlt (hexprs expr (List.mem_cons_self ..))
      (hrest _ _)).congr ?_
    omega

/-- The loop stops at the first dynamic index. -/
theorem indexLoop_dynamic (hdims : ∀ dim ∈ dims, 0 < dim)
    (hgeometry : GeometryOf dims index select geometry) {before rest : List E} {dynamic : E}
    (hbefore : ∀ expr ∈ before, evalConstexpr expr = some (value expr))
    (hdynamic : evalConstexpr dynamic = none) {i base n : Nat}
    (hi : i + before.length ≤ dims.length) :
    Answers (indexLoop evalConstexpr geometry i base n (before ++ dynamic :: rest))
      (base + position (dims.drop i) (before.map value) + (dims.drop (i + before.length)).prod ≤
        dims.prod)
      (.inl ⟨base + position (dims.drop i) (before.map value),
        base + position (dims.drop i) (before.map value) +
          (dims.drop (i + before.length)).prod - 1⟩) := by
  induction before generalizing i base n with
  | nil =>
    have hzero : position (dims.drop i) [] = 0 := by
      cases dims.drop i <;> rfl
    simp only [List.map_nil, hzero, List.nil_append, List.length_nil, Nat.add_zero]
    rw [indexLoop, evalConstexprUsize_none hdynamic]
    show Answers (getSliceFallback geometry base i >>= fun access => Except.ok (Sum.inl access)) _ _
    refine Answers.congr (p := base + (dims.drop i).prod ≤ dims.prod ∧ True) ?_ (and_iff_left trivial)
    refine (getSliceFallback_answers hdims hgeometry hi).bind fun _ => ?_
    exact .ok _
  | cons expr before ih =>
    have hlt : i < dims.length := by simp at hi; omega
    have hbounded := hgeometry.bounded
    have hrest : Answers (indexLoop evalConstexpr geometry (i + 1)
        (base + value expr * (dims.drop (i + 1)).prod) (n + 1) (before ++ dynamic :: rest)) _ _ :=
      ih (fun other hother => hbefore other (List.mem_cons_of_mem _ hother)) (by simp at hi; omega)
    have hcount : i + (expr :: before).length = i + 1 + before.length := by simp; omega
    rw [List.map_cons, position_drop hlt, ← Nat.add_assoc, hcount]
    refine (indexLoop_cons hdims hgeometry hlt (hbefore expr (List.mem_cons_self ..))
      fun _ => hrest).congr ?_
    omega

/-- The ends of a part select in bits, where the computation does not overflow. -/
theorem relativeRange_eq {op : VarSelectOp} {anchor range low high weight : Nat}
    (hwindow : window op anchor range = some (low, high)) (hweight : 0 < weight) :
    (∀ l, (relativeRange op anchor range weight (weight - 1)).1 = some l → l = low * weight) ∧
      (∀ m, (relativeRange op anchor range weight (weight - 1)).2 = some m →
        m + 1 = (high + 1) * weight) ∧
      ((high + 1) * weight ≤ usizeMax →
        (∃ l, (relativeRange op anchor range weight (weight - 1)).1 = some l) ∧
          ∃ m, (relativeRange op anchor range weight (weight - 1)).2 = some m) := by
  have hlast : ∀ n, n * weight + (weight - 1) + 1 = (n + 1) * weight := fun n => by
    rw [Nat.succ_mul]
    omega
  have hmono : ∀ {a b : Nat}, a ≤ b → a * weight ≤ b * weight := fun h => Nat.mul_le_mul_right _ h
  have hpos : ∀ {a : Nat}, 0 < a → 0 < a * weight := fun h => Nat.mul_pos h hweight
  cases op <;> simp only [window, Option.ite_none_right_eq_some, Option.some.injEq,
    Prod.mk.injEq] at hwindow <;> simp only [relativeRange, Option.bind_eq_some_iff,
    checkedAdd_eq_some, checkedMul_eq_some, checkedSub_eq_some]
  case colon =>
    obtain ⟨hle, rfl, rfl⟩ := hwindow
    refine ⟨?_, ?_, fun hfits => ⟨⟨_, ?_, rfl⟩, _, _, ⟨?_, rfl⟩, ?_, rfl⟩⟩
    · rintro _ ⟨-, rfl⟩
      rfl
    · rintro _ ⟨_, ⟨-, rfl⟩, -, rfl⟩
      exact hlast _
    · exact Nat.le_trans (hmono (Nat.le_succ_of_le hle)) hfits
    · exact Nat.le_trans (hmono (Nat.le_succ _)) hfits
    · have := hlast anchor
      omega
  case plusColon =>
    obtain ⟨hrange, rfl, rfl⟩ := hwindow
    have hstop : anchor + range - 1 + 1 = anchor + range := by omega
    rw [hstop]
    refine ⟨?_, ?_, fun hfits => ⟨⟨_, ?_, rfl⟩, _, _, ⟨_, ⟨?_, rfl⟩, ?_, rfl⟩, ?_, rfl⟩⟩
    · rintro _ ⟨-, rfl⟩
      rfl
    · rintro _ ⟨_, ⟨_, ⟨-, rfl⟩, -, rfl⟩, hle, rfl⟩
      omega
    · exact Nat.le_trans (hmono (Nat.le_add_right ..)) hfits
    · exact Nat.le_trans (Nat.le_mul_of_pos_right _ hweight) hfits
    · exact hfits
    · exact hpos (by omega)
  case minusColon =>
    obtain ⟨⟨hrange, hle⟩, rfl, rfl⟩ := hwindow
    refine ⟨?_, ?_, fun hfits => ⟨⟨_, _, ⟨_, ⟨?_, rfl⟩, ?_, rfl⟩, _, ⟨?_, rfl⟩, _, ⟨?_, rfl⟩, ?_, rfl⟩,
      _, _, ⟨?_, rfl⟩, ?_, rfl⟩⟩
    · rintro _ ⟨_, ⟨_, ⟨-, rfl⟩, -, rfl⟩, _, ⟨-, rfl⟩, _, ⟨-, rfl⟩, -, rfl⟩
      rw [hlast, Nat.sub_mul]
    · rintro _ ⟨_, ⟨-, rfl⟩, -, rfl⟩
      exact hlast _
    · exact Nat.le_trans (hmono (Nat.le_succ _)) hfits
    · have := hlast anchor
      omega
    · exact Nat.le_trans (hmono hle) hfits
    · rw [hlast]
      exact hfits
    · rw [hlast]
      exact hmono hle
    · exact Nat.le_trans (hmono (Nat.le_succ _)) hfits
    · have := hlast anchor
      omega
  case step =>
    obtain ⟨hrange, rfl, rfl⟩ := hwindow
    have hstop : anchor * range + range - 1 + 1 = anchor * range + range := by omega
    rw [hstop]
    have hends : anchor * range + range ≤ (anchor * range + range) * weight :=
      Nat.le_mul_of_pos_right _ hweight
    refine ⟨?_, ?_, fun hfits => ⟨⟨_, _, ⟨?_, rfl⟩, ?_, rfl⟩,
      _, _, ⟨_, ⟨_, ⟨?_, rfl⟩, ?_, rfl⟩, ?_, rfl⟩, ?_, rfl⟩⟩
    · rintro _ ⟨_, ⟨-, rfl⟩, -, rfl⟩
      rfl
    · rintro _ ⟨_, ⟨_, ⟨_, ⟨-, rfl⟩, -, rfl⟩, -, rfl⟩, hle, rfl⟩
      omega
    · omega
    · exact Nat.le_trans (hmono (Nat.le_add_right ..)) hfits
    · omega
    · omega
    · exact hfits
    · exact hpos (by omega)

theorem partAccess_answers (hdims : ∀ dim ∈ dims, 0 < dim)
    (hgeometry : GeometryOf dims index select geometry) {op : VarSelectOp} {anchorExpr : E}
    {anchor range low high base n : Nat} (hn : n < dims.length)
    (hwindow : window op anchor range = some (low, high)) :
    Answers (partAccess geometry base n anchorExpr op anchor range)
      (base + (high + 1) * (dims.drop (n + 1)).prod ≤ dims.prod)
      ⟨base + low * (dims.drop (n + 1)).prod, base + (high + 1) * (dims.drop (n + 1)).prod - 1⟩ := by
  have hweight := prod_drop_pos hdims (n + 1)
  have hbounded := hgeometry.bounded
  obtain ⟨hlow, hhigh, hfits⟩ := relativeRange_eq hwindow hweight
  unfold partAccess
  rw [hgeometry.strides, hgeometry.totalWidth, stridesOf_getElem? hn]
  show Answers (if _ then _ else _) _ _
  generalize (dims.drop (n + 1)).prod = weight at hweight hlow hhigh hfits ⊢
  have hlast : checkedSub weight 1 = some (weight - 1) := if_pos hweight
  rw [if_neg (by omega), hlast]
  show Answers (orIllegal _ _ _ ((relativeRange op anchor range weight (weight - 1)).1.bind fun lsb =>
    (relativeRange op anchor range weight (weight - 1)).2.map (lsb, ·)) >>= _) _ _
  generalize relativeRange op anchor range weight (weight - 1) = relative at hlow hhigh hfits ⊢
  obtain ⟨lsb?, msb?⟩ := relative
  have hle : low * weight < (high + 1) * weight :=
    Nat.mul_lt_mul_of_pos_right (Nat.lt_succ_of_le (window_le hwindow).1) hweight
  cases lsb? with
  | none =>
    refine ⟨fun h => ?_, fun _ => refused_error⟩
    obtain ⟨⟨_, ⟨⟩⟩, _⟩ := hfits (by omega)
  | some lsb =>
    cases msb? with
    | none =>
      refine ⟨fun h => ?_, fun _ => refused_error⟩
      obtain ⟨_, _, ⟨⟩⟩ := hfits (by omega)
    | some msb =>
      have hlsb : lsb = low * weight := hlow lsb rfl
      have hmsb : msb + 1 = (high + 1) * weight := hhigh msb rfl
      show Answers (orIllegal _ _ _ (checkedAdd base lsb) >>= fun lsb => orIllegal _ _ _
        (checkedAdd base msb) >>= _) _ _
      refine Answers.congr (p := base + lsb ≤ usizeMax ∧ base + msb ≤ usizeMax ∧
        ¬(base + msb < base + lsb ∨ dims.prod ≤ base + msb) ∧ True) ?_ (by simp only [and_true]; omega)
      refine checkedAdd_answers.bind fun _ => ?_
      refine checkedAdd_answers.bind fun _ => ?_
      refine check_answers fun _ => ?_
      rw [← hlsb, ← hmsb]
      exact .ok _

theorem selection_plain (hs : selection value index select = some s) :
    s.plain = (plainIndices index select).map value := by
  unfold selection at hs
  split at hs
  · cases hs
    rfl
  · obtain ⟨_, _, hs⟩ := Option.bind_eq_some_iff.mp hs
    obtain ⟨_, _, hs⟩ := Option.bind_eq_some_iff.mp hs
    cases hs
    rfl

theorem selectBehind_answers (hdims : ∀ dim ∈ dims, 0 < dim)
    (hgeometry : GeometryOf dims index select geometry)
    (hconst : Constant evalConstexpr value index select)
    (hs : selection value index select = some s) (hpart : s.PartInside dims) {base : Nat} :
    Answers (selectBehind evalConstexpr geometry select base s.plain.length)
      (base + s.stop dims ≤ dims.prod) ⟨base + s.first dims, base + s.stop dims - 1⟩ := by
  unfold selection at hs
  unfold selectBehind
  split at hs
  case h_1 hnone =>
    cases hs
    rw [hnone, hgeometry.strides, hgeometry.totalWidth, levelWidth_stridesOf hpart]
    exact boundedAccess_answers (prod_drop_pos hdims _) hgeometry.bounded
  case h_2 op rangeExpr hsome =>
    obtain ⟨anchorExpr, hlast, hs⟩ := Option.bind_eq_some_iff.mp hs
    obtain ⟨⟨low, high⟩, hwindow, hs⟩ := Option.bind_eq_some_iff.mp hs
    cases hs
    obtain ⟨dim, hdim, hlt⟩ := hpart
    have hbounded := hgeometry.bounded
    have hn := (List.getElem?_eq_some_iff.mp hdim).1
    have hpos := prod_drop_pos hdims (((plainIndices index select).map value).length + 1)
    have hdimle : dim ≤ dims.prod := by
      refine Nat.le_trans (Nat.le_mul_of_pos_right dim hpos) ?_
      rw [← drop_prod_eq hdim]
      exact prod_drop_le hdims _
    have hle := window_le hwindow
    rw [hsome, hlast]
    refine Answers.congr (p := value anchorExpr ≤ usizeMax ∧ value rangeExpr ≤ usizeMax ∧
      base + (high + 1) *
        (dims.drop (((plainIndices index select).map value).length + 1)).prod ≤ dims.prod) ?_ ?_
    · refine (evalConstexprUsize_answers (hconst.anchor hlast)).bind fun _ => ?_
      refine (evalConstexprUsize_answers (hconst.range hsome)).bind fun _ => ?_
      exact partAccess_answers hdims hgeometry hn hwindow
    · simp only [Selection.stop]
      constructor
      · exact fun h => h.2.2
      · exact fun h => ⟨by omega, by omega, h⟩

/-- The range of a select of constants. -/
theorem evalVarSelect_answers (hdims : ∀ dim ∈ dims, 0 < dim) (hlength : dims.length ≤ usizeMax)
    (hconst : Constant evalConstexpr value index select)
    (hs : selection value index select = some s) :
    Answers (evalVarSelect evalConstexpr dims index select)
      ((dims.prod ≤ usizeMax ∧ s.PartInside dims) ∧
        position dims s.plain + s.stop dims ≤ dims.prod)
      ⟨position dims s.plain + s.first dims, position dims s.plain + s.stop dims - 1⟩ := by
  obtain ⟨part, hselect⟩ := selectGeometry_answers hdims hlength hconst hs
  refine hselect.bind fun ⟨hprod, hpart⟩ => ?_
  have hlengths : s.plain.length = (plainIndices index select).length := by
    rw [selection_plain hs, List.length_map]
  have hgeometry : GeometryOf dims index select
      ⟨stridesOf dims, dims.prod, s.plain.length, part, s.stop dims - s.first dims⟩ :=
    ⟨rfl, rfl, hprod, hlengths, hlengths ▸ hpart.length_le⟩
  have hloop := indexLoop_answers (i := 0) (n := 0) hdims hgeometry
    (fun expr hexpr => hconst.plain hexpr) (by rw [Nat.zero_add]; exact hgeometry.count_le)
    (Nat.zero_le _)
  rw [Nat.zero_add, Nat.zero_add, List.drop_zero, ← selection_plain hs, ← hlengths] at hloop
  refine Answers.congr (p := position dims s.plain ≤ usizeMax ∧
    position dims s.plain + s.stop dims ≤ dims.prod) ?_ (by omega)
  unfold evalVarSelectWithGeometry
  simp only [hlengths, plainIndices_take]
  rw [← hlengths]
  refine hloop.bind fun _ => ?_
  exact selectBehind_answers hdims hgeometry hconst hs hpart

theorem getAccessWidth_answers (hdims : ∀ dim ∈ dims, 0 < dim) (hlength : dims.length ≤ usizeMax)
    (hconst : Constant evalConstexpr value index select)
    (hs : selection value index select = some s) :
    Answers (getAccessWidth evalConstexpr dims index select)
      (dims.prod ≤ usizeMax ∧ s.PartInside dims) (s.stop dims - s.first dims) := by
  obtain ⟨part, hselect⟩ := selectGeometry_answers hdims hlength hconst hs
  refine Answers.congr (p := (dims.prod ≤ usizeMax ∧ s.PartInside dims) ∧ True) ?_
    (and_iff_left trivial)
  refine hselect.bind fun _ => ?_
  exact .ok _

/-- Whatever a select picks is in the level of its first indices. -/
theorem mem_level (hdims : ∀ dim ∈ dims, 0 < dim) (hs : selection value index select = some s)
    (hinside : s.Inside dims) {before rest : List E}
    (hplain : plainIndices index select = before ++ rest) {place : Nat}
    (hplace : place ∈ places dims s.plain s.window) :
    position dims (before.map value) ≤ place ∧
      place < position dims (before.map value) + (dims.drop before.length).prod := by
  have happend : s.plain = before.map value ++ rest.map value := by
    rw [selection_plain hs, hplain, List.map_append]
  have hindices := hinside.1
  rw [happend] at hindices hplace
  have hlevel := RowMajor.places_append_subset hplace
  obtain ⟨offset, hoffset, rfl⟩ := (RowMajor.mem_places_drop hindices.of_append).mp hlevel
  rw [RowMajor.mem_places_all fun dim hdim => hdims dim (List.mem_of_mem_drop hdim),
    List.length_map] at hoffset
  omega

/-- The values that the expressions have where the design is run. -/
def Agrees (evalConstexpr : E → Option Nat) (value : E → Nat) (index : List E)
    (select : VarSelect E) : Prop :=
  ∀ expr ∈ expressions index select, ∀ v, evalConstexpr expr = some v → value expr = v

/-- The range has every bit that the select picks. -/
def Contains (value : E → Nat) (dims : List Nat) (index : List E) (select : VarSelect E)
    (access : BitAccess) : Prop :=
  ∀ s, selection value index select = some s → s.Inside dims →
    ∀ bit ∈ places dims s.plain s.window, access.Has bit

theorem fallback_contains (hdims : ∀ dim ∈ dims, 0 < dim) {before rest : List E}
    (hplain : plainIndices index select = before ++ rest) :
    Contains value dims index select ⟨position dims (before.map value),
      position dims (before.map value) + (dims.drop before.length).prod - 1⟩ := by
  intro s hs hinside bit hbit
  obtain ⟨hle, hlt⟩ := mem_level hdims hs hinside hplain hbit
  exact ⟨hle, Nat.le_sub_one_of_lt hlt⟩

theorem Agrees.constant {value : E → Nat} (h : Agrees evalConstexpr value index select) {expr : E}
    (hmem : expr ∈ expressions index select) (hne : evalConstexpr expr ≠ none) :
    evalConstexpr expr = some (value expr) := by
  obtain ⟨v, hv⟩ := Option.ne_none_iff_exists'.mp hne
  rw [hv, h expr hmem v hv]

/-- A list of expressions is constant, or it has a first one that is not. -/
theorem constant_or_dynamic (hagree : Agrees evalConstexpr value index select) {exprs : List E}
    (hsub : ∀ expr ∈ exprs, expr ∈ expressions index select) :
    (∀ expr ∈ exprs, evalConstexpr expr = some (value expr)) ∨
      ∃ before dynamic rest, exprs = before ++ dynamic :: rest ∧
        (∀ expr ∈ before, evalConstexpr expr = some (value expr)) ∧
        evalConstexpr dynamic = none := by
  induction exprs with
  | nil => exact .inl nofun
  | cons expr exprs ih =>
    cases hexpr : evalConstexpr expr with
    | none => exact .inr ⟨[], expr, exprs, rfl, nofun, hexpr⟩
    | some v =>
      have hhead := hagree.constant (hsub expr (List.mem_cons_self ..)) (by simp [hexpr])
      rcases ih fun other hother => hsub other (List.mem_cons_of_mem _ hother) with
        hall | ⟨before, dynamic, rest, rfl, hbefore, hdynamic⟩
      · exact .inl (List.forall_mem_cons.mpr ⟨hhead, hall⟩)
      · exact .inr ⟨expr :: before, dynamic, rest, rfl, List.forall_mem_cons.mpr ⟨hhead, hbefore⟩,
          hdynamic⟩

theorem evalVarSelect_constant (hdims : ∀ dim ∈ dims, 0 < dim) (hlength : dims.length ≤ usizeMax)
    (hconst : Constant evalConstexpr value index select) :
    Safe (evalVarSelect evalConstexpr dims index select) (Contains value dims index select) := by
  cases hs : selection value index select with
  | none => exact .inr (selectGeometry_refused hdims hconst hs).bind
  | some s =>
    refine (evalVarSelect_answers hdims hlength hconst hs).safe.mono fun access haccess => ?_
    obtain ⟨rfl, -⟩ := haccess
    intro s' hs' hinside bit hbit
    rw [hs] at hs'
    cases hs'
    obtain ⟨hle, hlt⟩ := (Selection.mem_places hdims hinside).mp hbit
    exact ⟨hle, Nat.le_sub_one_of_lt hlt⟩

theorem selectBehind_safe (hdims : ∀ dim ∈ dims, 0 < dim)
    (hgeometry : GeometryOf dims index select geometry)
    (hagree : Agrees evalConstexpr value index select)
    (hplain : ∀ expr ∈ plainIndices index select, evalConstexpr expr = some (value expr))
    (hdynamic : ¬Constant evalConstexpr value index select) :
    Safe (selectBehind evalConstexpr geometry select
      (position dims ((plainIndices index select).map value)) (plainIndices index select).length)
      (Contains value dims index select) := by
  have hfallback : Safe (E := E) (getSliceFallback geometry
      (position dims ((plainIndices index select).map value)) (plainIndices index select).length)
      (Contains value dims index select) := by
    refine (getSliceFallback_answers hdims hgeometry hgeometry.count_le).safe.mono fun _ h => ?_
    rw [h.1]
    exact fallback_contains hdims (List.append_nil _).symm
  unfold selectBehind
  cases hpart : select.part with
  | none =>
    refine absurd (fun expr hexpr => hplain expr ?_) hdynamic
    simpa [expressions, plainIndices, hpart] using hexpr
  | some part =>
    obtain ⟨op, rangeExpr⟩ := part
    refine orIllegal_safe.bind fun anchorExpr hlast => ?_
    refine evalConstexprUsize_safe.bind fun anchor hanchor => ?_
    cases anchor with
    | none => exact hfallback
    | some anchor =>
      refine evalConstexprUsize_safe.bind fun range hrange => ?_
      cases range with
      | none => exact hfallback
      | some range =>
        -- The plain indices, the anchor and the range are all the expressions there are.
        refine absurd (fun expr hexpr => hagree.constant hexpr ?_) hdynamic
        obtain ⟨init, hinit⟩ := List.getLast?_eq_some_iff.mp hlast
        have hmem : expr ∈ plainIndices index select ∨ expr = anchorExpr ∨ expr = rangeExpr := by
          rw [plainIndices, hpart]
          simp only [expressions, hpart, hinit, ← List.append_assoc, List.mem_append,
            List.dropLast_concat, List.mem_singleton, Option.map_some, Option.toList_some] at hexpr ⊢
          tauto
        rcases hmem with hmem | rfl | rfl
        · simp [hplain expr hmem]
        · simp [hanchor]
        · simp [hrange]

/-- No select panics, and a range that is returned has all the bits that are picked. -/
theorem evalVarSelect_safe (hdims : ∀ dim ∈ dims, 0 < dim) (hlength : dims.length ≤ usizeMax)
    (hagree : Agrees evalConstexpr value index select) :
    Safe (evalVarSelect evalConstexpr dims index select) (Contains value dims index select) := by
  by_cases hconst : Constant evalConstexpr value index select
  · exact evalVarSelect_constant hdims hlength hconst
  refine (selectGeometry_safe hdims).bind fun geometry hgeometry => ?_
  unfold evalVarSelectWithGeometry
  rw [hgeometry.count, plainIndices_take]
  have hsub : ∀ expr ∈ plainIndices index select, expr ∈ expressions index select :=
    fun expr hexpr => List.mem_append_left _ (mem_plainIndices hexpr)
  rcases constant_or_dynamic hagree hsub with hall | ⟨before, dynamic, rest, hplain, hbefore, hnone⟩
  · have hloop := indexLoop_answers (i := 0) (n := 0) hdims hgeometry hall
      (by rw [Nat.zero_add]; exact hgeometry.count_le) (Nat.zero_le _)
    rw [Nat.zero_add, Nat.zero_add, List.drop_zero] at hloop
    refine hloop.safe.bind fun _ hreached => ?_
    rw [hreached.1]
    exact selectBehind_safe hdims hgeometry hagree hall hconst
  · have hcount : before.length ≤ dims.length := by
      have := hgeometry.count_le
      rw [hplain, List.length_append] at this
      omega
    have hloop : Answers (indexLoop evalConstexpr geometry 0 0 0 (before ++ dynamic :: rest)) _ _ :=
      indexLoop_dynamic hdims hgeometry hbefore hnone (by rw [Nat.zero_add]; exact hcount)
    rw [Nat.zero_add, Nat.zero_add, List.drop_zero] at hloop
    rw [hplain]
    refine hloop.safe.bind fun _ hreached => ?_
    rw [hreached.1]
    exact .ok (fallback_contains hdims hplain)

end Range

/-! ## The claim on a select -/

section Exact
variable {E : Type} {evalConstexpr : E → Option Nat} {dims : List Nat} {index : List E}
  {select : VarSelect E}

/-- Every plain index and every bound of the part select is inside its own dimension. -/
def InBounds (value : E → Nat) (dims : List Nat) (index : List E) (select : VarSelect E) : Prop :=
  ∃ s, selection value index select = some s ∧ s.Inside dims

/-- The places of the selected elements in row-major order. -/
def selectedBits (value : E → Nat) (dims : List Nat) (index : List E) (select : VarSelect E) :
    Set Nat :=
  {bit | ∃ s, selection value index select = some s ∧ bit ∈ places dims s.plain s.window}

/-- A select denotes exactly its bits. -/
structure SelectsExactly (evalConstexpr : E → Option Nat) (dims : List Nat) (index : List E)
    (select : VarSelect E) : Prop where
  inside : ∀ value, Constant evalConstexpr value index select → InBounds value dims index select →
    ∃ access, evalVarSelect evalConstexpr dims index select = .ok access ∧
      (∀ bit, access.Has bit ↔ bit ∈ selectedBits value dims index select) ∧
      access.lsb ≤ access.msb ∧ getAccessWidth evalConstexpr dims index select = .ok access.width
  outside : ∀ value, Constant evalConstexpr value index select →
    ¬InBounds value dims index select → Refused (evalVarSelect evalConstexpr dims index select)
  dynamic : ∀ value access, Agrees evalConstexpr value index select →
    evalVarSelect evalConstexpr dims index select = .ok access →
    InBounds value dims index select → ∀ bit ∈ selectedBits value dims index select, access.Has bit
  select_ne_panic : evalVarSelect evalConstexpr dims index select ≠ .error .panic
  width_ne_panic : getAccessWidth evalConstexpr dims index select ≠ .error .panic

/-- A plain index is too large for its own dimension, but the range ends inside the variable. -/
def Strays (value : E → Nat) (dims : List Nat) (index : List E) (select : VarSelect E) : Prop :=
  ∃ s, selection value index select = some s ∧ s.PartInside dims ∧
    ¬RowMajor.Inside dims s.plain ∧ position dims s.plain + s.stop dims ≤ dims.prod

/-- The width of the variable is no `usize`. -/
def TooWide (dims : List Nat) : Prop := usizeMax < dims.prod

theorem Selection.first_lt_stop (hdims : ∀ dim ∈ dims, 0 < dim) {value : E → Nat} {s : Selection}
    (hs : selection value index select = some s) : s.first dims < s.stop dims := by
  unfold selection at hs
  split at hs
  · cases hs
    exact prod_drop_pos hdims _
  · obtain ⟨_, _, hs⟩ := Option.bind_eq_some_iff.mp hs
    obtain ⟨⟨low, high⟩, hwindow, hs⟩ := Option.bind_eq_some_iff.mp hs
    cases hs
    exact Nat.mul_lt_mul_of_pos_right (Nat.lt_succ_of_le (window_le hwindow).1)
      (prod_drop_pos hdims _)

theorem selectsExactly_of (hdims : ∀ dim ∈ dims, 0 < dim) (hlength : dims.length ≤ usizeMax)
    (hwhen : ∀ value, Constant evalConstexpr value index select →
      (TooWide dims → ¬InBounds value dims index select) ∧
        (¬TooWide dims → ¬Strays value dims index select)) :
    SelectsExactly evalConstexpr dims index select where
  inside := by
    rintro value hconst ⟨s, hs, hinside⟩
    have hwide : ¬TooWide dims := fun hwide => (hwhen value hconst).1 hwide ⟨s, hs, hinside⟩
    have hprod : dims.prod ≤ usizeMax := Nat.le_of_not_lt hwide
    have hlt := Selection.first_lt_stop hdims hs
    refine ⟨_, (evalVarSelect_answers hdims hlength hconst hs).1
      ⟨⟨hprod, hinside.2⟩, hinside.position_add_stop_le⟩, fun bit => ?_, by simp only; omega, ?_⟩
    · have hmem : bit ∈ selectedBits value dims index select ↔
          bit ∈ places dims s.plain s.window := by
        simp [selectedBits, hs]
      rw [hmem, Selection.mem_places hdims hinside]
      simp only [BitAccess.Has]
      omega
    · rw [(getAccessWidth_answers hdims hlength hconst hs).1 ⟨hprod, hinside.2⟩]
      simp only [BitAccess.width, Except.ok.injEq]
      omega
  outside := by
    intro value hconst hout
    cases hs : selection value index select with
    | none => exact (selectGeometry_refused hdims hconst hs).bind
    | some s =>
      refine (evalVarSelect_answers hdims hlength hconst hs).2 ?_
      rintro ⟨⟨hprod, hpart⟩, hend⟩
      have hplain : ¬RowMajor.Inside dims s.plain := fun h => hout ⟨s, hs, h, hpart⟩
      exact (hwhen value hconst).2 (Nat.not_lt.mpr hprod) ⟨s, hs, hpart, hplain, hend⟩
  dynamic := by
    rintro value access hagree haccess ⟨s, hs, hinside⟩ bit ⟨s', hs', hbit⟩
    rw [hs] at hs'
    cases hs'
    exact (evalVarSelect_safe hdims hlength hagree).of_ok haccess s hs hinside bit hbit
  select_ne_panic := by
    have hagree : Agrees evalConstexpr (fun expr => (evalConstexpr expr).getD 0) index select :=
      fun _ _ _ hv => by simp [hv]
    exact (evalVarSelect_safe hdims hlength hagree).ne_panic
  width_ne_panic := by
    have hsafe : Safe (getAccessWidth evalConstexpr dims index select) fun _ => True :=
      (selectGeometry_safe hdims).bind fun _ _ => .ok trivial
    exact hsafe.ne_panic

/-- A variable select denotes exactly its bits, unless it strays into another element or picks from
a variable whose width is no `usize`. -/
theorem evalVarSelect_exact_iff (hdims : ∀ dim ∈ dims, 0 < dim) (hlength : dims.length ≤ usizeMax) :
    SelectsExactly evalConstexpr dims index select ↔
      ∀ value, Constant evalConstexpr value index select →
        (TooWide dims → ¬InBounds value dims index select) ∧
          (¬TooWide dims → ¬Strays value dims index select) := by
  refine ⟨fun h value hconst => ⟨?_, ?_⟩, selectsExactly_of hdims hlength⟩
  · rintro hwide hbounds
    obtain ⟨access, haccess, -⟩ := h.inside value hconst hbounds
    obtain ⟨s, hs, hinside⟩ := hbounds
    have hrefused := (evalVarSelect_answers hdims hlength hconst hs).2
      fun hp => Nat.not_le.mpr hwide hp.1.1
    rw [haccess] at hrefused
    obtain ⟨_, _, _, ⟨⟩⟩ := hrefused
  · rintro hwide ⟨s, hs, hpart, hplain, hend⟩
    have hok := (evalVarSelect_answers hdims hlength hconst hs).1
      ⟨⟨Nat.le_of_not_lt hwide, hpart⟩, hend⟩
    have hout : ¬InBounds value dims index select := by
      rintro ⟨s', hs', hinside⟩
      rw [hs] at hs'
      cases hs'
      exact hplain hinside.1
    have hrefused := h.outside value hconst hout
    rw [hok] at hrefused
    obtain ⟨_, _, _, ⟨⟩⟩ := hrefused

/-- `a[1][2]` in `logic<4> [2]`. -/
theorem evalVarSelect_exact_element :
    SelectsExactly (E := Nat) some [2, 4] [1] ⟨[2], none⟩ := by
  refine (evalVarSelect_exact_iff (by decide) (by decide)).mpr fun value hconst => ?_
  have hone : value 1 = 1 := (Option.some.inj (hconst 1 (by simp [expressions]))).symm
  have htwo : value 2 = 2 := (Option.some.inj (hconst 2 (by simp [expressions]))).symm
  refine ⟨fun hwide => absurd hwide (by unfold TooWide; decide), ?_⟩
  rintro - ⟨s, hs, -, hplain, -⟩
  have hs' : s = ⟨[1, 2], none⟩ := by
    rw [← Option.some.inj hs]
    simp [plainIndices, hone, htwo]
  rw [hs'] at hplain
  exact hplain (by decide)

/-- `a[0][5]` in `logic<4> [2]` is accepted and is the bit of `a[1][1]`. -/
theorem evalVarSelect_strays :
    evalVarSelect (E := Nat) some [2, 4] [0] ⟨[5], none⟩ = .ok ⟨5, 5⟩ ∧
      evalVarSelect (E := Nat) some [2, 4] [1] ⟨[1], none⟩ = .ok ⟨5, 5⟩ ∧
      ¬InBounds (E := Nat) id [2, 4] [0] ⟨[5], none⟩ ∧
      ¬SelectsExactly (E := Nat) some [2, 4] [0] ⟨[5], none⟩ := by
  have hok : evalVarSelect (E := Nat) some [2, 4] [0] ⟨[5], none⟩ = .ok ⟨5, 5⟩ := by decide
  have hout : ¬InBounds (E := Nat) id [2, 4] [0] ⟨[5], none⟩ := by
    rintro ⟨s, hs, hinside⟩
    cases hs
    exact absurd hinside.1 (by decide)
  refine ⟨hok, by decide, hout, fun h => ?_⟩
  obtain ⟨_, _, _, hrefused⟩ := h.outside id (fun _ _ => rfl) hout
  rw [hok] at hrefused
  cases hrefused

end Exact
end Celox.Lowering
