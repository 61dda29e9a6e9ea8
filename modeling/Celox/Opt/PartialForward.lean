import Celox.Layout.Strided
import Celox.Opt.Allocation
import Celox.Sir.ValueBits

/-! # Partial store-load forwarding

A load that repeats the last load of an object is put together from the register of that load and
the registers that were stored over parts of it in between. -/
namespace Celox.Opt
open Celox.Sir Celox.Layout

variable {A : Type} [DecidableEq A]

/-- A register that was stored over some bits of the loaded range. -/
structure Overlay where
  offset : Nat
  width : Nat
  register : RegisterId
deriving DecidableEq, Repr

structure VarState where
  baseReg : RegisterId
  baseOff : Nat
  baseWidth : Nat
  overlays : List Overlay
deriving DecidableEq, Repr

/-- The base register over the whole range. -/
def VarState.base (state : VarState) : Overlay := ⟨0, state.baseWidth, state.baseReg⟩

/-- A slice of what was stored, as an overlay of its own, unless `[start, stop)` is empty. -/
def preserve {B : Type} (overlay : Overlay) (start stop : Nat) (allocation : Allocation) :
    List Overlay × List (SIRInstruction B) × Allocation :=
  if start < stop then
    let (reg, allocation) := allocation.allocReg (.logic (stop - start))
    ([⟨start, stop - start, reg⟩],
      [.slice reg overlay.register (start - overlay.offset) (stop - start)], allocation)
  else ([], [], allocation)

/-- What is left of an overlay where `[start, stop)` is stored over it. -/
def splitOverlay {B : Type} (start stop : Nat) (overlay : Overlay) (allocation : Allocation) :
    List Overlay × List (SIRInstruction B) × Allocation :=
  let overlayEnd := overlay.offset + overlay.width
  if stop ≤ overlay.offset ∨ overlayEnd ≤ start then ([overlay], [], allocation)
  else
    let (before, beforeInsts, allocation) := preserve overlay overlay.offset start allocation
    let (behind, behindInsts, allocation) := preserve overlay stop overlayEnd allocation
    (before ++ behind, beforeInsts ++ behindInsts, allocation)

def splitOverlays {B : Type} (start stop : Nat) : List Overlay → Allocation →
    List Overlay × List (SIRInstruction B) × Allocation
  | [], allocation => ([], [], allocation)
  | overlay :: overlays, allocation =>
    let (parts, insts, allocation) := splitOverlay start stop overlay allocation
    let (rest, restInsts, allocation) := splitOverlays start stop overlays allocation
    (parts ++ rest, insts ++ restInsts, allocation)

/-- The parts of the range from `cursor` on, least significant first, with slices of the base
between the overlays. -/
def concatParts {B : Type} (state : VarState) : Nat → List Overlay → Allocation →
    List Overlay × List (SIRInstruction B) × Allocation
  | cursor, [], allocation => preserve state.base cursor state.baseWidth allocation
  | cursor, overlay :: overlays, allocation =>
    let (gap, gapInsts, allocation) := preserve state.base cursor overlay.offset allocation
    let (rest, restInsts, allocation) :=
      concatParts state (overlay.offset + overlay.width) overlays allocation
    (gap ++ overlay :: rest, gapInsts ++ restInsts, allocation)

/-- The instructions that stand for a load. -/
def synthesizeLoad {B : Type} (dst : RegisterId) (state : VarState) (allocation : Allocation) :
    List (SIRInstruction B) × Allocation :=
  let sorted := state.overlays.insertionSort fun a b => a.offset ≤ b.offset
  let (parts, insts, allocation) := concatParts state 0 sorted allocation
  let last := match parts.map (·.register) with
    | [arg] => .unary dst .ident arg
    | args => .concat dst args.reverse
  (insts ++ [last],
    { allocation with registerMap := allocation.registerMap.insert dst (.logic state.baseWidth) })

abbrev VarStates (A : Type) := RegionedAbsoluteAddr A → Option VarState

/-- What stands for an instruction, and what is tracked behind it. -/
def forwardInstruction (vars : VarStates A) (allocation : Allocation)
    (inst : SIRInstruction (RegionedAbsoluteAddr A)) :
    List (SIRInstruction (RegionedAbsoluteAddr A)) × VarStates A × Allocation :=
  match inst with
  | .load dst addr (.static off) width =>
    let tracked := Function.update vars addr (some ⟨dst, off, width, []⟩)
    match vars addr with
    | some state =>
      if off = state.baseOff ∧ width = state.baseWidth ∧ state.overlays ≠ [] then
        let (insts, allocation) := synthesizeLoad dst state allocation
        (insts, tracked, allocation)
      else ([inst], tracked, allocation)
    | none => ([inst], tracked, allocation)
  | .store addr (.static off) width src [] _ =>
    match vars addr with
    | some state =>
      if state.baseOff ≤ off ∧ off + width ≤ state.baseOff + state.baseWidth then
        let relOff := off - state.baseOff
        let (overlays, insts, allocation) :=
          splitOverlays relOff (relOff + width) state.overlays allocation
        (insts ++ [inst], Function.update vars addr
          (some { state with overlays := overlays ++ [⟨relOff, width, src⟩] }), allocation)
      else ([inst], Function.update vars addr none, allocation)
    | none => ([inst], Function.update vars addr none, allocation)
  | .store addr (.dynamic _) _ _ _ _ | .store addr (.element ..) _ _ _ _ =>
    ([inst], Function.update vars addr none, allocation)
  | .commit _ dst _ _ _ => ([inst], Function.update vars dst none, allocation)
  | _ => ([inst], vars, allocation)

def forwardInstructions : List (SIRInstruction (RegionedAbsoluteAddr A)) → VarStates A →
    Allocation → List (SIRInstruction (RegionedAbsoluteAddr A)) × Allocation
  | [], _, allocation => ([], allocation)
  | inst :: rest, vars, allocation =>
    let (insts, vars, allocation) := forwardInstruction vars allocation inst
    let (restInsts, allocation) := forwardInstructions rest vars allocation
    (insts ++ restInsts, allocation)

def partialForwardBlock (block : BasicBlock (RegionedAbsoluteAddr A)) (allocation : Allocation) :
    BasicBlock (RegionedAbsoluteAddr A) × Allocation :=
  let (instructions, allocation) :=
    forwardInstructions block.instructions (fun _ => none) allocation
  ({ block with instructions }, allocation)

def partialForward (eu : ExecutionUnit (RegionedAbsoluteAddr A)) :
    ExecutionUnit (RegionedAbsoluteAddr A) :=
  let (blocks, allocation) := rewriteBlocks partialForwardBlock eu.blocks (startAllocation eu)
  { eu with blocks, registerMap := allocation.registerMap }

end Celox.Opt

/-! ## Slices of overlays and of the base

What is left of an overlay has the bits it had, and a load is spelled out by overlays and slices of
the base. Nothing but registers that were not declared before changes on the way. -/
namespace Celox.Opt
open Celox.Sir

variable {A : Type}

/-- Of the known registers and of the memory nothing has changed. -/
structure Grown (known : RegisterId → Prop) (s t : State A (BitMemory A)) : Prop where
  memory : t.memory = s.memory
  trace : t.trace = s.trace
  regs : ∀ reg, known reg → t.regs reg = s.regs reg

theorem Grown.refl (known : RegisterId → Prop) (s : State A (BitMemory A)) : Grown known s s :=
  ⟨rfl, rfl, fun _ _ => rfl⟩

theorem Grown.trans {known known' : RegisterId → Prop} {s t u : State A (BitMemory A)}
    (h : Grown known s t) (h' : Grown known' t u) (hsub : ∀ reg, known reg → known' reg) :
    Grown known s u :=
  ⟨h'.memory.trans h.memory, h'.trace.trans h.trace, fun reg hreg =>
    (h'.regs reg (hsub reg hreg)).trans (h.regs reg hreg)⟩

/-- A slice into a register that nothing else uses. -/
theorem slice_exec [DecidableEq A] {eu : ExecutionUnit A} (model : BitModel A)
    {types : Table RegisterId RegisterType} {known : RegisterId → Prop} {source reg : RegisterId}
    {width : Nat} (offset : Nat) {s : State A (BitMemory A)}
    (htype : types.lookup reg = some (.logic width)) (hfinal : ShapesIn types eu.registerMap)
    (hfresh : ¬ known reg) {value : SIRValue} (hvalue : s.regs source = some value) :
    ∃ t, eu.execList model.machine s [.slice reg source offset width] = some t ∧
      Grown known s t ∧ t.regs reg = some (evalSlice value offset width) := by
  obtain ⟨type, htype', hshape⟩ := hfinal reg _ htype
  have hwidth : type.width = width := congrArg RegisterShape.width hshape
  have hkept : eu.kept reg (evalSlice value offset width) = evalSlice value offset width :=
    kept_of_fits htype' (hwidth ▸ evalSlice_fits value offset width)
  refine ⟨eu.assign s reg (evalSlice value offset width), ?_, ⟨rfl, rfl, fun r hr => ?_⟩, ?_⟩
  · rw [execList_singleton]
    simp only [ExecutionUnit.execInstruction, hvalue, Option.bind_eq_bind, Option.bind_some,
      Option.pure_def]
  · exact Function.update_of_ne (fun heq : r = reg => hfresh (heq ▸ hr)) _ _
  · simp only [ExecutionUnit.assign, Function.update_self, hkept]

/-! ## Parts -/

def Overlay.Covers (overlay : Overlay) (k : Nat) : Prop :=
  overlay.offset ≤ k ∧ k < overlay.offset + overlay.width

def Overlay.Apart (overlay other : Overlay) : Prop := ∀ k, overlay.Covers k → ¬ other.Covers k

/-- A part of an overlay or the overlay itself, as it is declared. -/
structure PartOf (overlay : Overlay) (before after : Allocation) (part : Overlay) : Prop where
  covers : ∀ k, part.Covers k → overlay.Covers k
  width : 0 < part.width
  declared : part = overlay ∨ part.register ∉ before.registerMap ∧
    ∃ type, after.registerMap.lookup part.register = some type ∧ type.width = part.width

theorem PartOf.later {overlay part : Overlay} {before middle after : Allocation}
    (h : PartOf overlay before middle part) (hafter : middle.Before after) :
    PartOf overlay before after part := by
  refine ⟨h.covers, h.width, h.declared.imp_right fun ⟨hfresh, type, htype, hwidth⟩ => ⟨hfresh, ?_⟩⟩
  obtain ⟨type', htype', hshape⟩ := hafter.shapes _ type htype
  exact ⟨type', htype', (congrArg RegisterShape.width hshape).trans hwidth⟩

theorem PartOf.earlier {overlay part : Overlay} {before middle after : Allocation}
    (h : PartOf overlay middle after part) (hbefore : before.Before middle) :
    PartOf overlay before after part :=
  ⟨h.covers, h.width, h.declared.imp_right fun ⟨hfresh, htype⟩ =>
    ⟨fun hmem => hfresh (hbefore.shapes.mem hmem), htype⟩⟩

/-- A part has the bits of the overlay. -/
def PartHolds (overlay : Overlay) (value : SIRValue) (regs : Registers) (part : Overlay) : Prop :=
  ∃ v, regs part.register = some v ∧ (part ≠ overlay → v.fits part.width) ∧
    ∀ k, part.Covers k → v.bit (k - part.offset) = value.bit (k - overlay.offset)

section Preserve
variable {overlay : Overlay} {start stop : Nat} {before after : Allocation} {parts : List Overlay}
  {insts : List (SIRInstruction A)}

theorem preserve_before (h : before.Bounded)
    (heq : preserve overlay start stop before = (parts, insts, after)) : before.Before after := by
  unfold preserve at heq
  split at heq
  · cases heq
    exact ⟨allocReg_bounded h, allocReg_shapes h⟩
  · cases heq
    exact .refl h

theorem preserve_spec (h : before.Bounded) (hin : ∀ k, start ≤ k → k < stop → overlay.Covers k)
    (heq : preserve overlay start stop before = (parts, insts, after)) :
    before.Before after ∧ (∀ part ∈ parts, PartOf overlay before after part ∧
      (∀ k, part.Covers k → start ≤ k ∧ k < stop)) ∧
      (∀ k, start ≤ k → k < stop → ∃ part ∈ parts, part.Covers k) ∧
      parts.Pairwise Overlay.Apart := by
  unfold preserve at heq
  split at heq
  · rename_i hlt
    have hfresh := allocReg_fresh (.logic (stop - start)) h
    have htype := allocReg_type (.logic (stop - start)) h
    have hbefore : before.Before (before.allocReg (.logic (stop - start))).2 :=
      ⟨allocReg_bounded h, allocReg_shapes h⟩
    cases heq
    have hcovers : ∀ reg k, (Overlay.mk start (stop - start) reg).Covers k →
        start ≤ k ∧ k < stop := by
      rintro reg k ⟨hle, hk⟩
      simp only at hle hk
      omega
    refine ⟨hbefore, fun part hpart => ?_, fun k hle hk => ?_, List.pairwise_singleton _ _⟩
    · obtain rfl := List.mem_singleton.mp hpart
      refine ⟨⟨fun k hk => ?_, Nat.sub_pos_of_lt hlt, .inr ⟨hfresh, _, htype, rfl⟩⟩,
        hcovers _⟩
      exact hin k (hcovers _ k hk).1 (hcovers _ k hk).2
    · refine ⟨_, List.mem_singleton_self _, hle, ?_⟩
      change k < start + (stop - start)
      omega
  · cases heq
    exact ⟨.refl h, nofun, fun k hle hk => absurd (Nat.lt_of_le_of_lt hle hk) (by assumption), .nil⟩

theorem preserve_exec [DecidableEq A] {eu : ExecutionUnit A} (model : BitModel A)
    {s : State A (BitMemory A)} (h : before.Bounded)
    (heq : preserve overlay start stop before = (parts, insts, after))
    (hfinal : ShapesIn after.registerMap eu.registerMap) {value : SIRValue}
    (hvalue : s.regs overlay.register = some value) (hle : overlay.offset ≤ start) :
    ∃ t, eu.execList model.machine s insts = some t ∧ Grown (· ∈ before.registerMap) s t ∧
      ∀ part ∈ parts, PartHolds overlay value t.regs part := by
  unfold preserve at heq
  split at heq
  · rename_i hlt
    have hfresh := allocReg_fresh (.logic (stop - start)) h
    have htype := allocReg_type (.logic (stop - start)) h
    cases heq
    obtain ⟨t, hexec, hgrown, hreg⟩ := slice_exec model (start - overlay.offset)
      htype hfinal hfresh hvalue
    refine ⟨t, hexec, hgrown, fun part hpart => ?_⟩
    obtain rfl := List.mem_singleton.mp hpart
    refine ⟨_, hreg, fun _ => evalSlice_fits _ _ _, fun k hk => ?_⟩
    obtain ⟨hk, hk'⟩ := hk
    simp only at hk hk'
    rw [evalSlice_bit _ _ (by change k - start < stop - start; omega)]
    congr 1
    change start - overlay.offset + (k - start) = _
    omega
  · cases heq
    exact ⟨s, rfl, .refl _ s, nofun⟩

end Preserve

/-! ## Stores over overlays -/

section Split
variable {overlay : Overlay} {overlays : List Overlay} {start stop : Nat}
  {before after : Allocation} {parts : List Overlay} {insts : List (SIRInstruction A)}

theorem splitOverlay_before (h : before.Bounded)
    (heq : splitOverlay start stop overlay before = (parts, insts, after)) :
    before.Before after := by
  unfold splitOverlay at heq
  simp only at heq
  split at heq
  · cases heq
    exact .refl h
  · generalize hleft : preserve (B := A) overlay overlay.offset start before = left at heq
    obtain ⟨leftParts, leftInsts, middle⟩ := left
    generalize hright : preserve (B := A) overlay stop (overlay.offset + overlay.width) middle =
      right at heq
    obtain ⟨rightParts, rightInsts, last⟩ := right
    cases heq
    have hbefore := preserve_before h hleft
    exact hbefore.trans (preserve_before hbefore.bounded hright)

theorem splitOverlays_before (h : before.Bounded)
    (heq : splitOverlays start stop overlays before = (parts, insts, after)) :
    before.Before after := by
  induction overlays generalizing before after parts insts with
  | nil =>
    cases heq
    exact .refl h
  | cons overlay overlays ih =>
    rw [splitOverlays] at heq
    generalize hfirst : splitOverlay (B := A) start stop overlay before = first at heq
    obtain ⟨firstParts, firstInsts, middle⟩ := first
    simp only at heq
    generalize hrest : splitOverlays (B := A) start stop overlays middle = rest at heq
    obtain ⟨restParts, restInsts, last⟩ := rest
    cases heq
    have hbefore := splitOverlay_before h hfirst
    exact hbefore.trans (ih hbefore.bounded hrest)

theorem splitOverlay_spec (h : before.Bounded) (hwidth : 0 < overlay.width) (hlt : start < stop)
    (heq : splitOverlay start stop overlay before = (parts, insts, after)) :
    before.Before after ∧ (∀ part ∈ parts, PartOf overlay before after part ∧
      ∀ k, part.Covers k → ¬ (start ≤ k ∧ k < stop)) ∧
      (∀ k, overlay.Covers k → ¬ (start ≤ k ∧ k < stop) → ∃ part ∈ parts, part.Covers k) ∧
      parts.Pairwise Overlay.Apart := by
  unfold splitOverlay at heq
  simp only at heq
  split at heq
  · rename_i hout
    cases heq
    refine ⟨.refl h, fun part hpart => ?_, fun k hk _ => ⟨overlay, List.mem_singleton_self _, hk⟩,
      List.pairwise_singleton _ _⟩
    obtain rfl := List.mem_singleton.mp hpart
    refine ⟨⟨fun _ hk => hk, hwidth, .inl rfl⟩, fun k hk hin => ?_⟩
    obtain ⟨hle, hk⟩ := hk
    omega
  · rename_i hover
    generalize hleft : preserve (B := A) overlay overlay.offset start before = left at heq
    obtain ⟨leftParts, leftInsts, middle⟩ := left
    generalize hright : preserve (B := A) overlay stop (overlay.offset + overlay.width) middle =
      right at heq
    obtain ⟨rightParts, rightInsts, last⟩ := right
    cases heq
    obtain ⟨hbefore, hparts, hcover, hpair⟩ := preserve_spec h (fun k hle hk => ⟨hle, by omega⟩) hleft
    obtain ⟨hbefore', hparts', hcover', hpair'⟩ := preserve_spec hbefore.bounded
      (fun k hle hk => ⟨by omega, hk⟩) hright
    refine ⟨hbefore.trans hbefore', fun part hpart => ?_, fun k hk hout => ?_, ?_⟩
    · rcases List.mem_append.mp hpart with hpart | hpart
      · obtain ⟨hpartOf, hrange⟩ := hparts part hpart
        refine ⟨hpartOf.later hbefore', fun k hk hin => ?_⟩
        have := hrange k hk
        omega
      · obtain ⟨hpartOf, hrange⟩ := hparts' part hpart
        refine ⟨hpartOf.earlier hbefore, fun k hk hin => ?_⟩
        have := hrange k hk
        omega
    · obtain ⟨hle, hk⟩ := hk
      by_cases hside : k < start
      · obtain ⟨part, hpart, hcovers⟩ := hcover k hle hside
        exact ⟨part, List.mem_append_left _ hpart, hcovers⟩
      · obtain ⟨part, hpart, hcovers⟩ := hcover' k (by omega) hk
        exact ⟨part, List.mem_append_right _ hpart, hcovers⟩
    · refine List.pairwise_append.mpr ⟨hpair, hpair', fun a ha b hb k hka hkb => ?_⟩
      have := (hparts a ha).2 k hka
      have := (hparts' b hb).2 k hkb
      omega

theorem splitOverlay_exec [DecidableEq A] {eu : ExecutionUnit A} (model : BitModel A)
    {s : State A (BitMemory A)} (h : before.Bounded)
    (heq : splitOverlay start stop overlay before = (parts, insts, after))
    (hfinal : ShapesIn after.registerMap eu.registerMap) {value : SIRValue}
    (hvalue : s.regs overlay.register = some value)
    (hknown : overlay.register ∈ before.registerMap) :
    ∃ t, eu.execList model.machine s insts = some t ∧ Grown (· ∈ before.registerMap) s t ∧
      ∀ part ∈ parts, PartHolds overlay value t.regs part := by
  unfold splitOverlay at heq
  simp only at heq
  split at heq
  · cases heq
    refine ⟨s, rfl, .refl _ s, fun part hpart => ?_⟩
    obtain rfl := List.mem_singleton.mp hpart
    exact ⟨value, hvalue, fun hne => absurd rfl hne, fun _ _ => rfl⟩
  · rename_i hover
    generalize hleft : preserve (B := A) overlay overlay.offset start before = left at heq
    obtain ⟨leftParts, leftInsts, middle⟩ := left
    generalize hright : preserve (B := A) overlay stop (overlay.offset + overlay.width) middle =
      right at heq
    obtain ⟨rightParts, rightInsts, last⟩ := right
    cases heq
    obtain ⟨hbefore, hparts, -, -⟩ := preserve_spec h (fun k hle hk => ⟨hle, by omega⟩) hleft
    obtain ⟨hbefore', -, -, -⟩ := preserve_spec hbefore.bounded
      (fun k hle hk => ⟨by omega, hk⟩) hright
    obtain ⟨u, hexec, hgrown, hholds⟩ := preserve_exec model h hleft
      (hbefore'.shapes.trans hfinal) hvalue le_rfl
    obtain ⟨t, hexec', hgrown', hholds'⟩ := preserve_exec model hbefore.bounded hright
      hfinal ((hgrown.regs _ hknown).trans hvalue) (by omega)
    refine ⟨t, by rw [execList_append, hexec, Option.bind_some, hexec'],
      hgrown.trans hgrown' fun reg hreg => hbefore.shapes.mem hreg, fun part hpart => ?_⟩
    rcases List.mem_append.mp hpart with hpart | hpart
    · obtain ⟨v, hv, hfits, hbits⟩ := hholds part hpart
      refine ⟨v, (hgrown'.regs _ ?_).trans hv, hfits, hbits⟩
      rcases (hparts part hpart).1.declared with rfl | ⟨-, type, htype, -⟩
      · exact hbefore.shapes.mem hknown
      · exact AList.lookup_isSome.mp (by rw [htype]; rfl)
    · exact hholds' part hpart

theorem splitOverlays_spec (h : before.Bounded) (hwidth : ∀ o ∈ overlays, 0 < o.width)
    (hpairwise : overlays.Pairwise Overlay.Apart) (hlt : start < stop)
    (heq : splitOverlays start stop overlays before = (parts, insts, after)) :
    before.Before after ∧ (∀ part ∈ parts, ∃ o ∈ overlays, PartOf o before after part ∧
      ∀ k, part.Covers k → ¬ (start ≤ k ∧ k < stop)) ∧
      (∀ o ∈ overlays, ∀ k, o.Covers k → ¬ (start ≤ k ∧ k < stop) →
        ∃ part ∈ parts, part.Covers k) ∧ parts.Pairwise Overlay.Apart := by
  induction overlays generalizing before after parts insts with
  | nil =>
    cases heq
    exact ⟨.refl h, nofun, nofun, .nil⟩
  | cons overlay overlays ih =>
    rw [splitOverlays] at heq
    generalize hfirst : splitOverlay (B := A) start stop overlay before = first at heq
    obtain ⟨firstParts, firstInsts, middle⟩ := first
    simp only at heq
    generalize hrest : splitOverlays (B := A) start stop overlays middle = rest at heq
    obtain ⟨restParts, restInsts, last⟩ := rest
    cases heq
    rw [List.pairwise_cons] at hpairwise
    obtain ⟨hbefore, hparts, hcover, hpair⟩ :=
      splitOverlay_spec h (hwidth overlay List.mem_cons_self) hlt hfirst
    obtain ⟨hbefore', hparts', hcover', hpair'⟩ := ih hbefore.bounded
      (fun o ho => hwidth o (List.mem_cons_of_mem _ ho)) hpairwise.2 hrest
    refine ⟨hbefore.trans hbefore', fun part hpart => ?_, fun o ho k hk hout => ?_, ?_⟩
    · rcases List.mem_append.mp hpart with hpart | hpart
      · obtain ⟨hpartOf, hrange⟩ := hparts part hpart
        exact ⟨overlay, List.mem_cons_self, hpartOf.later hbefore', hrange⟩
      · obtain ⟨o, ho, hpartOf, hrange⟩ := hparts' part hpart
        exact ⟨o, List.mem_cons_of_mem _ ho, hpartOf.earlier hbefore, hrange⟩
    · rcases List.mem_cons.mp ho with rfl | ho
      · obtain ⟨part, hpart, hcovers⟩ := hcover k hk hout
        exact ⟨part, List.mem_append_left _ hpart, hcovers⟩
      · obtain ⟨part, hpart, hcovers⟩ := hcover' o ho k hk hout
        exact ⟨part, List.mem_append_right _ hpart, hcovers⟩
    · refine List.pairwise_append.mpr ⟨hpair, hpair', fun a ha b hb k hka hkb => ?_⟩
      obtain ⟨o, ho, hpartOf, -⟩ := hparts' b hb
      exact hpairwise.1 o ho k ((hparts a ha).1.covers k hka) (hpartOf.covers k hkb)

theorem splitOverlays_exec [DecidableEq A] {eu : ExecutionUnit A} (model : BitModel A)
    {s : State A (BitMemory A)} (h : before.Bounded) (hwidth : ∀ o ∈ overlays, 0 < o.width)
    (hpairwise : overlays.Pairwise Overlay.Apart) (hlt : start < stop)
    (heq : splitOverlays start stop overlays before = (parts, insts, after))
    (hfinal : ShapesIn after.registerMap eu.registerMap)
    (hvalues : ∀ o ∈ overlays, ∃ value, s.regs o.register = some value)
    (hknown : ∀ o ∈ overlays, o.register ∈ before.registerMap) :
    ∃ t, eu.execList model.machine s insts = some t ∧ Grown (· ∈ before.registerMap) s t ∧
      ∀ part ∈ parts, ∃ o ∈ overlays, PartOf o before after part ∧
        (∀ k, part.Covers k → ¬ (start ≤ k ∧ k < stop)) ∧
        ∀ value, s.regs o.register = some value → PartHolds o value t.regs part := by
  induction overlays generalizing before after s parts insts with
  | nil =>
    cases heq
    exact ⟨s, rfl, .refl _ s, nofun⟩
  | cons overlay overlays ih =>
    rw [splitOverlays] at heq
    generalize hfirst : splitOverlay (B := A) start stop overlay before = first at heq
    obtain ⟨firstParts, firstInsts, middle⟩ := first
    simp only at heq
    generalize hrest : splitOverlays (B := A) start stop overlays middle = rest at heq
    obtain ⟨restParts, restInsts, last⟩ := rest
    cases heq
    rw [List.pairwise_cons] at hpairwise
    have hwidth' : ∀ o ∈ overlays, 0 < o.width := fun o ho => hwidth o (List.mem_cons_of_mem _ ho)
    obtain ⟨hbefore, hparts, -, -⟩ :=
      splitOverlay_spec h (hwidth overlay List.mem_cons_self) hlt hfirst
    obtain ⟨hbefore', -, -, -⟩ :=
      splitOverlays_spec hbefore.bounded hwidth' hpairwise.2 hlt hrest
    obtain ⟨value, hvalue⟩ := hvalues overlay List.mem_cons_self
    obtain ⟨u, hexec, hgrown, hholds⟩ := splitOverlay_exec model h hfirst
      (hbefore'.shapes.trans hfinal) hvalue (hknown overlay List.mem_cons_self)
    have hsame : ∀ o ∈ overlays, u.regs o.register = s.regs o.register := fun o ho =>
      hgrown.regs _ (hknown o (List.mem_cons_of_mem _ ho))
    obtain ⟨t, hexec', hgrown', hholds'⟩ := ih (s := u) hbefore.bounded hwidth' hpairwise.2 hrest
      hfinal (fun o ho => by
        rw [hsame o ho]
        exact hvalues o (List.mem_cons_of_mem _ ho))
      fun o ho => hbefore.shapes.mem (hknown o (List.mem_cons_of_mem _ ho))
    refine ⟨t, by rw [execList_append, hexec, Option.bind_some, hexec'],
      hgrown.trans hgrown' fun reg hreg => hbefore.shapes.mem hreg, fun part hpart => ?_⟩
    rcases List.mem_append.mp hpart with hpart | hpart
    · obtain ⟨hpartOf, hrange⟩ := hparts part hpart
      refine ⟨overlay, List.mem_cons_self, hpartOf.later hbefore', hrange, fun v hv => ?_⟩
      rw [hvalue] at hv
      cases hv
      obtain ⟨w, hw, hfits, hbits⟩ := hholds part hpart
      refine ⟨w, (hgrown'.regs _ ?_).trans hw, hfits, hbits⟩
      rcases hpartOf.declared with rfl | ⟨-, type, htype, -⟩
      · exact hbefore.shapes.mem (hknown part List.mem_cons_self)
      · exact AList.lookup_isSome.mp (by rw [htype]; rfl)
    · obtain ⟨o, ho, hpartOf, hrange, hv⟩ := hholds' part hpart
      refine ⟨o, List.mem_cons_of_mem _ ho, hpartOf.earlier hbefore, hrange, fun v hvalue => ?_⟩
      exact hv v ((hsame o ho).trans hvalue)

end Split

/-! ## A load from its parts -/

section Concat
variable {state : VarState} {overlays : List Overlay} {cursor : Nat} {before after : Allocation}
  {parts : List Overlay} {insts : List (SIRInstruction A)}

/-- Overlays one behind the other in a range. -/
def InOrder (stop : Nat) : Nat → List Overlay → Prop
  | cursor, [] => cursor ≤ stop
  | cursor, overlay :: overlays =>
    cursor ≤ overlay.offset ∧ InOrder stop (overlay.offset + overlay.width) overlays

theorem InOrder.le {stop : Nat} (h : InOrder stop cursor overlays) : cursor ≤ stop := by
  induction overlays generalizing cursor with
  | nil => exact h
  | cons overlay overlays ih =>
    have := ih h.2
    have := h.1
    omega

theorem InOrder.offset_le {stop : Nat} (h : InOrder stop cursor overlays) :
    ∀ o ∈ overlays, cursor ≤ o.offset := by
  induction overlays generalizing cursor with
  | nil => exact nofun
  | cons overlay overlays ih =>
    intro o ho
    have := h.1
    rcases List.mem_cons.mp ho with rfl | ho
    · exact h.1
    · have := ih h.2 o ho
      omega

/-- A slice spells out its range. -/
theorem preserve_spells [DecidableEq A] {eu : ExecutionUnit A} (model : BitModel A)
    {overlay : Overlay} {start stop : Nat} {s : State A (BitMemory A)} {bits : Nat → Bool × Bool}
    (h : before.Bounded) (heq : preserve overlay start stop before = (parts, insts, after))
    (hfinal : ShapesIn after.registerMap eu.registerMap) {value : SIRValue}
    (hvalue : s.regs overlay.register = some value) (hle : overlay.offset ≤ start)
    (hlt : start ≤ stop)
    (hbits : ∀ k, start ≤ k → k < stop → value.bit (k - overlay.offset) = bits k) :
    ∃ t, eu.execList model.machine s insts = some t ∧ Grown (· ∈ before.registerMap) s t ∧
      (∀ part ∈ parts, part.register ∈ after.registerMap) ∧
      Spells eu t.regs bits start (parts.map (·.register)) stop := by
  unfold preserve at heq
  split at heq
  · have hfresh := allocReg_fresh (.logic (stop - start)) h
    have htype := allocReg_type (.logic (stop - start)) h
    cases heq
    obtain ⟨t, hexec, hgrown, hreg⟩ := slice_exec model (start - overlay.offset)
      htype hfinal hfresh hvalue
    obtain ⟨type, htype', hshape⟩ := hfinal _ _ htype
    have hwidth : type.width = stop - start := congrArg RegisterShape.width hshape
    refine ⟨t, hexec, hgrown, fun part hpart => ?_, .cons htype' hreg ?_ (fun k hk => ?_) ?_⟩
    · obtain rfl := List.mem_singleton.mp hpart
      exact AList.lookup_isSome.mp (Option.isSome_of_eq_some htype)
    · rw [hwidth]
      exact evalSlice_fits _ _ _
    · rw [hwidth] at hk
      rw [evalSlice_bit _ _ hk, ← hbits (start + k) (by omega) (by omega)]
      congr 1
      omega
    · rw [hwidth, Nat.add_sub_cancel' hlt]
      exact .nil
  · cases heq
    obtain rfl : start = stop := by omega
    exact ⟨s, rfl, .refl _ s, nofun, .nil⟩

theorem concatParts_before (h : before.Bounded)
    (heq : concatParts state cursor overlays before = (parts, insts, after)) :
    before.Before after := by
  induction overlays generalizing cursor before after parts insts with
  | nil => exact preserve_before h heq
  | cons overlay overlays ih =>
    rw [concatParts] at heq
    generalize hgap : preserve (B := A) state.base cursor overlay.offset before = gap at heq
    obtain ⟨gapParts, gapInsts, middle⟩ := gap
    simp only at heq
    generalize hrest : concatParts (B := A) state (overlay.offset + overlay.width) overlays middle =
      rest at heq
    obtain ⟨restParts, restInsts, last⟩ := rest
    cases heq
    have hbefore := preserve_before h hgap
    exact hbefore.trans (ih hbefore.bounded hrest)

/-- With the expected bits in the overlays, and in the base between them, the parts spell out the
range. -/
theorem concatParts_exec [DecidableEq A] {eu : ExecutionUnit A} (model : BitModel A)
    {s : State A (BitMemory A)} {bits : Nat → Bool × Bool} (h : before.Bounded)
    (horder : InOrder state.baseWidth cursor overlays)
    (heq : concatParts state cursor overlays before = (parts, insts, after))
    (hfinal : ShapesIn after.registerMap eu.registerMap) {base : SIRValue}
    (hbase : s.regs state.baseReg = some base) (hknownBase : state.baseReg ∈ before.registerMap)
    (hknown : ∀ o ∈ overlays, o.register ∈ before.registerMap)
    (hoverlays : ∀ o ∈ overlays, ∃ type value, eu.types o.register = some type ∧
      s.regs o.register = some value ∧ value.fits type.width ∧ type.width = o.width ∧
      ∀ k, o.Covers k → value.bit (k - o.offset) = bits k)
    (hgaps : ∀ k, cursor ≤ k → k < state.baseWidth → (∀ o ∈ overlays, ¬ o.Covers k) →
      base.bit k = bits k) :
    ∃ t, eu.execList model.machine s insts = some t ∧ Grown (· ∈ before.registerMap) s t ∧
      Spells eu t.regs bits cursor (parts.map (·.register)) state.baseWidth := by
  induction overlays generalizing cursor before after parts insts s with
  | nil =>
    obtain ⟨t, hexec, hgrown, -, hspells⟩ := preserve_spells model h heq hfinal hbase
      (Nat.zero_le cursor) horder fun k hle hlt => hgaps k hle hlt nofun
    exact ⟨t, hexec, hgrown, hspells⟩
  | cons overlay overlays ih =>
    rw [concatParts] at heq
    generalize hgap : preserve (B := A) state.base cursor overlay.offset before = gap at heq
    obtain ⟨gapParts, gapInsts, middle⟩ := gap
    simp only at heq
    generalize hrest : concatParts (B := A) state (overlay.offset + overlay.width) overlays middle =
      rest at heq
    obtain ⟨restParts, restInsts, last⟩ := rest
    cases heq
    have hlast := horder.2.le
    have hbefore := preserve_before h hgap
    have hbefore' := concatParts_before hbefore.bounded hrest
    -- no overlay covers the gap, as the next one begins behind it
    obtain ⟨u, hexec, hgrown, hknownGap, hspells⟩ := preserve_spells model h hgap
      (hbefore'.shapes.trans hfinal) hbase (Nat.zero_le cursor) horder.1 fun k hle hlt =>
        hgaps k hle (by omega) fun o ho hcovers => by
          have hoffset := hcovers.1
          rcases List.mem_cons.mp ho with rfl | ho
          · omega
          · have := horder.2.offset_le o ho
            omega
    have hsame : ∀ o ∈ overlay :: overlays, u.regs o.register = s.regs o.register := fun o ho =>
      hgrown.regs _ (hknown o ho)
    obtain ⟨t, hexec', hgrown', hspells'⟩ := ih (s := u) hbefore.bounded horder.2 hrest hfinal
      ((hgrown.regs _ hknownBase).trans hbase) (hbefore.shapes.mem hknownBase)
      (fun o ho => hbefore.shapes.mem (hknown o (List.mem_cons_of_mem _ ho)))
      (fun o ho => by
        rw [hsame o (List.mem_cons_of_mem _ ho)]
        exact hoverlays o (List.mem_cons_of_mem _ ho))
      fun k hle hlt hout => hgaps k (by have := horder.1; omega) hlt fun o ho hcovers => by
        rcases List.mem_cons.mp ho with rfl | ho
        · have := hcovers.2
          omega
        · exact hout o ho hcovers
    have hgrownAll := hgrown.trans hgrown' fun reg hreg => hbefore.shapes.mem hreg
    refine ⟨t, by rw [execList_append, hexec, Option.bind_some, hexec'], hgrownAll, ?_⟩
    obtain ⟨type, value, htype, hvalue, hfits, hwidth, hbits⟩ := hoverlays overlay List.mem_cons_self
    rw [List.map_append, List.map_cons]
    refine (hspells.congr fun reg hreg => ?_).append (.cons htype
      ((hgrownAll.regs _ (hknown overlay List.mem_cons_self)).trans hvalue) hfits
      (fun k hk => ?_) (hwidth ▸ hspells'))
    · obtain ⟨part, hpart, rfl⟩ := List.mem_map.mp hreg
      exact hgrown'.regs _ (hknownGap part hpart)
    · rw [← hbits (overlay.offset + k) ⟨Nat.le_add_right _ _, by omega⟩, Nat.add_sub_cancel_left]

end Concat

section Synthesize
variable {dst : RegisterId} {state : VarState} {before after : Allocation}
  {insts : List (SIRInstruction A)}

/-- Disjoint overlays in the order of their offsets stand one behind the other. -/
theorem inOrder_of_sorted {stop cursor : Nat} {overlays : List Overlay}
    (hsorted : overlays.Pairwise fun a b => a.offset ≤ b.offset)
    (hapart : overlays.Pairwise fun a b => a.Apart b ∧ b.Apart a)
    (hwidth : ∀ o ∈ overlays, 0 < o.width ∧ cursor ≤ o.offset ∧ o.offset + o.width ≤ stop)
    (hcursor : cursor ≤ stop) : InOrder stop cursor overlays := by
  induction overlays generalizing cursor with
  | nil => exact hcursor
  | cons overlay overlays ih =>
    rw [List.pairwise_cons] at hsorted hapart
    obtain ⟨hpos, hle, hstop⟩ := hwidth overlay List.mem_cons_self
    refine ⟨hle, ih hsorted.2 hapart.2 (fun o ho => ?_) hstop⟩
    obtain ⟨hpos', -, hstop'⟩ := hwidth o (List.mem_cons_of_mem _ ho)
    have hoffset := hsorted.1 o ho
    have hout : ¬ overlay.Covers o.offset := fun hcovers =>
      (hapart.1 o ho).1 _ hcovers ⟨le_rfl, by omega⟩
    unfold Overlay.Covers at hout
    omega

theorem Overlay.Apart.symm {overlay other : Overlay} (h : overlay.Apart other) :
    other.Apart overlay :=
  fun k hother hover => h k hover hother

theorem synthesizeLoad_before (h : before.Bounded) {type : RegisterType}
    (htype : before.registerMap.lookup dst = some type)
    (hshape : type.shape = ⟨state.baseWidth, false⟩)
    (heq : synthesizeLoad dst state before = (insts, after)) : before.Before after := by
  unfold synthesizeLoad at heq
  simp only at heq
  generalize hparts : concatParts (B := A) state 0
    (state.overlays.insertionSort fun a b => a.offset ≤ b.offset) before = concat at heq
  obtain ⟨parts, concatInsts, middle⟩ := concat
  cases heq
  have hmiddle := concatParts_before h hparts
  have hdst : dst ∈ middle.registerMap :=
    hmiddle.shapes.mem (AList.lookup_isSome.mp (Option.isSome_of_eq_some htype))
  refine hmiddle.trans ⟨fun reg hreg => ?_, shapesIn_insert fun old hold => ?_⟩
  · rcases (AList.mem_insert _).mp hreg with rfl | hreg
    · exact hmiddle.bounded reg hdst
    · exact hmiddle.bounded reg hreg
  · obtain ⟨type', htype', hshape'⟩ := hmiddle.shapes dst type htype
    rw [htype'] at hold
    cases hold
    rw [hshape', hshape]
    rfl

/-- An overlay over the whole range is the only one. -/
theorem eq_singleton_of_whole {overlays : List Overlay} {stop : Nat} {whole : Overlay}
    (hmem : whole ∈ overlays) (hoffset : whole.offset = 0) (hstop : whole.width = stop)
    (hapart : overlays.Pairwise Overlay.Apart)
    (hwidth : ∀ o ∈ overlays, 0 < o.width ∧ o.offset + o.width ≤ stop) : overlays = [whole] := by
  have hcovers : ∀ o ∈ overlays, o.Covers o.offset ∧ whole.Covers o.offset := fun o ho => by
    have := hwidth o ho
    exact ⟨⟨le_rfl, by omega⟩, by omega, by omega⟩
  cases overlays with
  | nil => cases hmem
  | cons overlay overlays =>
    rw [List.pairwise_cons] at hapart
    have hnil : overlays = [] := by
      refine List.eq_nil_iff_forall_not_mem.mpr fun o ho => ?_
      have hover := hwidth overlay List.mem_cons_self
      have hother := hwidth o (List.mem_cons_of_mem _ ho)
      rcases List.mem_cons.mp hmem with rfl | hmem
      · obtain ⟨hself, hwhole⟩ := hcovers o (List.mem_cons_of_mem _ ho)
        exact hapart.1 o ho _ hwhole hself
      · obtain ⟨hself, hwhole⟩ := hcovers overlay List.mem_cons_self
        exact hapart.1 whole hmem _ hself hwhole
    subst hnil
    rw [List.mem_singleton.mp hmem]

/-- One register is copied, several are concatenated. -/
theorem spelled_exec [DecidableEq A] {eu : ExecutionUnit A} (model : BitModel A)
    {u : State A (BitMemory A)} {bits : Nat → Bool × Bool} {type : RegisterType}
    (htype : eu.types dst = some type) {args : List RegisterId} {stop : Nat}
    (h : Spells eu u.regs bits 0 args stop) :
    ∃ value, eu.execInstruction model.machine u (match args with
        | [arg] => .unary dst .ident arg
        | args => .concat dst args.reverse) = some (eu.assign u dst value) ∧
      ∀ k < stop, value.bit k = bits k := by
  have hconcat : ∃ value, eu.execInstruction model.machine u (.concat dst args.reverse) =
      some (eu.assign u dst value) ∧ ∀ k < stop, value.bit k = bits k := by
    obtain ⟨values, hvalues, -, hbits⟩ := h.concat
    refine ⟨evalConcat values.reverse, ?_, fun k hk => ?_⟩
    · simp only [ExecutionUnit.execInstruction, mapM_reverse hvalues, Option.bind_eq_bind,
        Option.bind_some, Option.pure_def]
    · rw [hbits k (by omega), Nat.zero_add]
  rcases args with _ | ⟨arg, _ | ⟨next, rest⟩⟩
  · exact hconcat
  · cases h with
    | cons hargType hvalue _ hbits hnil =>
      cases hnil
      unfold ExecutionUnit.types at htype hargType
      refine ⟨_, ?_, fun k hk => (hbits k (by omega)).trans (by rw [Nat.zero_add])⟩
      simp only [ExecutionUnit.execInstruction, ExecutionUnit.operand, htype, hargType, hvalue,
        evalUnary, Option.bind_eq_bind, Option.bind_some, Option.pure_def]
  · exact hconcat

/-- The instructions for a load give its expected bits, if every overlay is as wide as its register
or over the whole range. -/
theorem synthesizeLoad_exec [DecidableEq A] {eu : ExecutionUnit A} (model : BitModel A)
    {s : State A (BitMemory A)} {bits : Nat → Bool × Bool} (h : before.Bounded)
    (heq : synthesizeLoad dst state before = (insts, after))
    (hfinal : ShapesIn after.registerMap eu.registerMap) {type : RegisterType}
    (htype : before.registerMap.lookup dst = some type)
    (hshape : type.shape = ⟨state.baseWidth, false⟩) {base : SIRValue}
    (hbase : s.regs state.baseReg = some base) (hknownBase : state.baseReg ∈ before.registerMap)
    (hknown : ∀ o ∈ state.overlays, o.register ∈ before.registerMap)
    (hapart : state.overlays.Pairwise Overlay.Apart)
    (hwidth : ∀ o ∈ state.overlays, 0 < o.width ∧ o.offset + o.width ≤ state.baseWidth)
    (hexact : ∀ o ∈ state.overlays, HasWidth eu.types o.register o.width ∨
      o.offset = 0 ∧ o.width = state.baseWidth)
    (hoverlays : ∀ o ∈ state.overlays, ∃ type value, eu.types o.register = some type ∧
      s.regs o.register = some value ∧ value.fits type.width ∧
      ∀ k, o.Covers k → value.bit (k - o.offset) = bits k)
    (hgaps : ∀ k < state.baseWidth, (∀ o ∈ state.overlays, ¬ o.Covers k) →
      base.bit k = bits k) :
    ∃ t, eu.execList model.machine s insts = some t ∧
      Grown (fun reg => reg ∈ before.registerMap ∧ reg ≠ dst) s t ∧
      ∃ value, t.regs dst = some value ∧ value.fits state.baseWidth ∧
        ∀ k < state.baseWidth, value.bit k = bits k := by
  have hafter := synthesizeLoad_before h htype hshape heq
  obtain ⟨middleType, hmiddleType, hmiddleShape⟩ := hafter.shapes dst type htype
  obtain ⟨dstType, hdstType, hdstShape⟩ := hfinal dst _ hmiddleType
  have hdstWidth : dstType.width = state.baseWidth :=
    congrArg RegisterShape.width (hdstShape.trans (hmiddleShape.trans hshape))
  -- the last instruction, with the bits it takes together
  have hlast : ∀ u : State A (BitMemory A), Grown (· ∈ before.registerMap) s u → ∀ last value,
      eu.execInstruction model.machine u last = some (eu.assign u dst value) →
      (∀ k < state.baseWidth, value.bit k = bits k) →
      ∃ t, eu.execInstruction model.machine u last = some t ∧
        Grown (fun reg => reg ∈ before.registerMap ∧ reg ≠ dst) s t ∧
        ∃ value, t.regs dst = some value ∧ value.fits state.baseWidth ∧
          ∀ k < state.baseWidth, value.bit k = bits k := by
    intro u hgrown last value hexec hbits
    refine ⟨_, hexec, ⟨hgrown.memory, hgrown.trace, fun reg hreg => ?_⟩, eu.kept dst value,
      Function.update_self .., hdstWidth ▸ kept_fits hdstType value, fun k hk => ?_⟩
    · exact (Function.update_of_ne hreg.2 ..).trans (hgrown.regs reg hreg.1)
    · rw [kept_bit hdstType value (hdstWidth ▸ hk), hbits k hk]
  unfold synthesizeLoad at heq
  simp only at heq
  by_cases hwhole : ∃ o ∈ state.overlays, o.offset = 0 ∧ o.width = state.baseWidth
  · obtain ⟨o, ho, hoffset, hstop⟩ := hwhole
    have hsingle := eq_singleton_of_whole ho hoffset hstop hapart hwidth
    obtain ⟨type, value, htype, hvalue, -, hbits⟩ := hoverlays o ho
    have hparts : concatParts (B := A) state 0
        (state.overlays.insertionSort fun a b => a.offset ≤ b.offset) before =
        ([o], [], before) := by
      rw [hsingle]
      simp only [List.insertionSort_cons, List.insertionSort_nil, List.orderedInsert_nil,
        concatParts, preserve, hoffset, hstop, Nat.zero_add, Nat.lt_irrefl, if_false, List.nil_append,
        List.append_nil]
    rw [hparts] at heq
    cases heq
    change ∃ t, eu.execList model.machine s [.unary dst .ident o.register] = some t ∧ _
    rw [execList_singleton]
    refine hlast s (.refl _ s) _ value ?_ fun k hk => ?_
    · unfold ExecutionUnit.types at htype
      simp only [ExecutionUnit.execInstruction, ExecutionUnit.operand, htype, hdstType, hvalue,
        evalUnary, Option.bind_eq_bind, Option.bind_some, Option.pure_def]
    · have := hbits k ⟨by omega, by omega⟩
      rwa [hoffset] at this
  · have hperm := List.perm_insertionSort (fun a b : Overlay => a.offset ≤ b.offset) state.overlays
    have hsorted := List.pairwise_insertionSort (fun a b : Overlay => a.offset ≤ b.offset)
      state.overlays
    generalize (state.overlays.insertionSort fun a b => a.offset ≤ b.offset) = sorted
      at heq hperm hsorted
    have hmem : ∀ o ∈ sorted, o ∈ state.overlays := fun o ho => hperm.mem_iff.mp ho
    have horder : InOrder state.baseWidth 0 sorted :=
      inOrder_of_sorted hsorted
        ((hperm.pairwise_iff fun h => ⟨h.2, h.1⟩).mpr
          (hapart.imp fun h => ⟨h, h.symm⟩))
        (fun o ho => ⟨(hwidth o (hmem o ho)).1, Nat.zero_le _, (hwidth o (hmem o ho)).2⟩)
        (Nat.zero_le _)
    generalize hparts : concatParts (B := A) state 0 sorted before = concat at heq
    obtain ⟨parts, concatInsts, middle⟩ := concat
    cases heq
    have hmiddle := concatParts_before h hparts
    have hdst : dst ∈ middle.registerMap :=
      hmiddle.shapes.mem (AList.lookup_isSome.mp (Option.isSome_of_eq_some htype))
    obtain ⟨oldType, holdType⟩ := Option.isSome_iff_exists.mp (AList.lookup_isSome.mpr hdst)
    have hinto : ShapesIn middle.registerMap eu.registerMap := by
      refine ShapesIn.trans (shapesIn_insert fun old hold => ?_) hfinal
      obtain ⟨type', htype', hshape'⟩ := hmiddle.shapes dst type htype
      rw [htype'] at hold
      cases hold
      rw [hshape', hshape]
      rfl
    obtain ⟨u, hexec, hgrown, hspells⟩ := concatParts_exec model h horder hparts hinto
      hbase hknownBase (fun o ho => hknown o (hmem o ho))
      (fun o ho => by
        obtain ⟨type, value, htype, hvalue, hfits, hbits⟩ := hoverlays o (hmem o ho)
        obtain ⟨type', htype', hwidth'⟩ := (hexact o (hmem o ho)).resolve_right
          fun hover => hwhole ⟨o, hmem o ho, hover⟩
        rw [htype] at htype'
        cases htype'
        exact ⟨type, value, htype, hvalue, hfits, hwidth', hbits⟩)
      fun k _ hk hout => hgaps k hk fun o ho => hout o (hperm.mem_iff.mpr ho)
    obtain ⟨value, hvalue, hbits⟩ := spelled_exec model hdstType hspells
    obtain ⟨t, hexec', hgrown', hreg⟩ := hlast u hgrown _ value hvalue hbits
    refine ⟨t, ?_, hgrown', hreg⟩
    rw [execList_append, hexec, Option.bind_some, execList_singleton]
    exact hexec'

end Synthesize
end Celox.Opt
