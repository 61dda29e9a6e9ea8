import Celox.Opt.PartialForward

/-! # What is tracked of a block

Behind a static load an object is tracked as long as every instruction keeps it. Stores without
triggers at static offsets are seen; other stores at constant offsets are not, and what they write
is stale until a seen store writes it again. -/
namespace Celox.Opt
open Celox.Sir Celox.Layout

section Predicates
variable {B : Type} (addr : B) (off width : Nat)

/-- The range of an object stays tracked behind the instruction. -/
def Keeps (inst : SIRInstruction B) : Prop :=
  match inst with
  | .load _ a (.static _) _ => a ≠ addr
  | .store a (.static start) bits _ [] _ => a = addr → off ≤ start ∧ start + bits ≤ off + width
  | .store a (.dynamic _) _ _ _ _ | .store a (.element ..) _ _ _ _ => a ≠ addr
  | .commit _ dst _ _ _ => dst ≠ addr
  | _ => True

def SeenStore (inst : SIRInstruction B) (start bits : Nat) (src : RegisterId) : Prop :=
  ∃ sites, inst = .store addr (.static start) bits src [] sites

def SeenWrite (inst : SIRInstruction B) (bit : Nat) : Prop :=
  ∃ start bits src, SeenStore addr inst start bits src ∧ start ≤ bit ∧ bit < start + bits

/-- A write that tracking passes over. -/
def UnseenWrite (inst : SIRInstruction B) (bit : Nat) : Prop :=
  match inst with
  | .store a (.static start) bits _ (_ :: _) _ | .store a (.packedElements start _) bits _ _ _ =>
    a = addr ∧ start ≤ bit ∧ bit < start + bits
  | _ => False

variable (instructions : List (SIRInstruction B)) (j i : Nat)

/-- The load at `j` is tracked up to `i`, with stores over it. -/
structure Forwards : Prop where
  lt : j < i
  load : ∃ base, instructions[j]? = some (.load base addr (.static off) width)
  keeps : NoneBetween instructions j i fun inst => ¬ Keeps addr off width inst
  stored : ∃ k inst start bits src, j < k ∧ k < i ∧ instructions[k]? = some inst ∧
    SeenStore addr inst start bits src

/-- The last write to the bit is an unseen one. -/
def Stale (bit : Nat) : Prop :=
  ∃ k inst, j < k ∧ k < i ∧ instructions[k]? = some inst ∧ UnseenWrite addr inst bit ∧
    NoneBetween instructions k i (SeenWrite addr · bit)

/-- The last seen store over the bit. -/
def LastSeen (bit k start bits : Nat) (src : RegisterId) : Prop :=
  j < k ∧ k < i ∧ (∃ inst, instructions[k]? = some inst ∧ SeenStore addr inst start bits src) ∧
    start ≤ bit ∧ bit < start + bits ∧ NoneBetween instructions k i (SeenWrite addr · bit)

/-- A seen store of which no bit is stored over. -/
def Intact (start bits : Nat) (src : RegisterId) : Prop :=
  ∃ k inst, j < k ∧ k < i ∧ instructions[k]? = some inst ∧ SeenStore addr inst start bits src ∧
    ∀ bit, start ≤ bit → bit < start + bits →
      NoneBetween instructions k i (SeenWrite addr · bit)

end Predicates

section Extend
variable {B : Type} {addr : B} {off width : Nat} {instructions : List (SIRInstruction B)} {j i : Nat}
  {inst : SIRInstruction B}

theorem Stale.next {bit : Nat} (h : Stale addr instructions j i bit)
    (hi : instructions[i]? = some inst) (hseen : ¬ SeenWrite addr inst bit) :
    Stale addr instructions j (i + 1) bit := by
  obtain ⟨k, other, hj, hk, hget, hunseen, hnone⟩ := h
  exact ⟨k, other, hj, by omega, hget, hunseen, hnone.next hi hseen⟩

theorem LastSeen.next {bit k start bits : Nat} {src : RegisterId}
    (h : LastSeen addr instructions j i bit k start bits src) (hi : instructions[i]? = some inst)
    (hseen : ¬ SeenWrite addr inst bit) :
    LastSeen addr instructions j (i + 1) bit k start bits src := by
  obtain ⟨hj, hk, hstore, hle, hlt, hnone⟩ := h
  exact ⟨hj, by omega, hstore, hle, hlt, hnone.next hi hseen⟩

theorem Intact.next {start bits : Nat} {src : RegisterId}
    (h : Intact addr instructions j i start bits src) (hi : instructions[i]? = some inst)
    (hseen : ∀ bit, start ≤ bit → bit < start + bits → ¬ SeenWrite addr inst bit) :
    Intact addr instructions j (i + 1) start bits src := by
  obtain ⟨k, other, hj, hk, hget, hstore, hnone⟩ := h
  exact ⟨k, other, hj, by omega, hget, hstore,
    fun bit hle hlt => (hnone bit hle hlt).next hi (hseen bit hle hlt)⟩

/-- What is kept and not seen leaves a bit alone or makes it stale. -/
theorem Keeps.cases {bit : Nat} (h : Keeps addr off width inst) (hseen : ¬ SeenWrite addr inst bit)
    (hwrite : inst.mayWrite addr bit) : UnseenWrite addr inst bit := by
  cases inst with
  | store a offset bits src triggers sites =>
    obtain ⟨rfl, hreach⟩ := hwrite
    cases offset with
    | static start =>
      cases triggers with
      | nil => exact absurd ⟨start, bits, src, ⟨sites, rfl⟩, hreach⟩ hseen
      | cons trigger triggers => exact ⟨rfl, hreach⟩
    | packedElements start elementWidth => exact ⟨rfl, hreach⟩
    | dynamic | element => exact absurd rfl h
  | commit src dst offset bits triggers => exact absurd hwrite.1 h
  | _ => exact hwrite.elim

end Extend

/-! ## The tracked states -/

section Tracked
variable {A : Type} {instructions : List (SIRInstruction (RegionedAbsoluteAddr A))}
  {addr : RegionedAbsoluteAddr A} {i j : Nat} {vars : VarStates A} {state : VarState}

/-- The load at `j` is the one that the state is about. -/
structure BaseAt (instructions : List (SIRInstruction (RegionedAbsoluteAddr A)))
    (addr : RegionedAbsoluteAddr A) (state : VarState) (j i : Nat) : Prop where
  lt : j < i
  load : instructions[j]? = some (.load state.baseReg addr (.static state.baseOff) state.baseWidth)
  keeps : NoneBetween instructions j i fun inst => ¬ Keeps addr state.baseOff state.baseWidth inst
  stored : state.overlays ≠ [] → ∃ k inst start bits src, j < k ∧ k < i ∧
    instructions[k]? = some inst ∧ SeenStore addr inst start bits src

theorem BaseAt.forwards (h : BaseAt instructions addr state j i) (hne : state.overlays ≠ []) :
    Forwards addr state.baseOff state.baseWidth instructions j i :=
  ⟨h.lt, ⟨_, h.load⟩, h.keeps, h.stored hne⟩

theorem BaseAt.next (h : BaseAt instructions addr state j i)
    {inst : SIRInstruction (RegionedAbsoluteAddr A)} (hi : instructions[i]? = some inst)
    (hkeeps : Keeps addr state.baseOff state.baseWidth inst) :
    BaseAt instructions addr state j (i + 1) := by
  refine ⟨Nat.lt_succ_of_lt h.lt, h.load, h.keeps.next hi fun hnot => hnot hkeeps, fun hne => ?_⟩
  obtain ⟨k, other, start, bits, src, hj, hk, hget, hstore⟩ := h.stored hne
  exact ⟨k, other, start, bits, src, hj, by omega, hget, hstore⟩

theorem BaseAt.start {dst : RegisterId} {off width : Nat}
    (hi : instructions[i]? = some (.load dst addr (.static off) width)) :
    BaseAt instructions addr ⟨dst, off, width, []⟩ i (i + 1) :=
  ⟨Nat.lt_succ_self i, hi, .empty, fun hne => absurd rfl hne⟩

/-- A seen store in the range, with other overlays than before. -/
theorem BaseAt.store (h : BaseAt instructions addr state j i) {start bits : Nat} {src : RegisterId}
    {sites : List Nat} (hi : instructions[i]? = some (.store addr (.static start) bits src [] sites))
    (hin : state.baseOff ≤ start ∧ start + bits ≤ state.baseOff + state.baseWidth)
    (overlays : List Overlay) :
    BaseAt instructions addr { state with overlays } j (i + 1) :=
  ⟨Nat.lt_succ_of_lt h.lt, h.load, h.keeps.next hi fun hnot => hnot fun _ => hin,
    fun _ => ⟨i, _, start, bits, src, h.lt, Nat.lt_succ_self i, hi, sites, rfl⟩⟩

def Tracked (instructions : List (SIRInstruction (RegionedAbsoluteAddr A))) (vars : VarStates A)
    (i : Nat) : Prop :=
  ∀ addr state, vars addr = some state → ∃ j, BaseAt instructions addr state j i

/-- Everything that the pass can make of an instruction. -/
inductive ForwardStep [DecidableEq A] (vars : VarStates A) (allocation : Allocation) :
    SIRInstruction (RegionedAbsoluteAddr A) → List (SIRInstruction (RegionedAbsoluteAddr A)) →
    VarStates A → Allocation → Prop
  | keep {inst : SIRInstruction (RegionedAbsoluteAddr A)} {vars' : VarStates A} :
    (∀ addr state, vars' addr = some state → vars addr = some state ∧
      Keeps addr state.baseOff state.baseWidth inst ∧ ∀ bit, ¬ SeenWrite addr inst bit) →
    ForwardStep vars allocation inst [inst] vars' allocation
  | load {dst : RegisterId} {addr : RegionedAbsoluteAddr A} {off width : Nat} :
    ForwardStep vars allocation (.load dst addr (.static off) width)
      [.load dst addr (.static off) width]
      (Function.update vars addr (some ⟨dst, off, width, []⟩)) allocation
  | replaced {dst : RegisterId} {addr : RegionedAbsoluteAddr A} {state : VarState}
    {insts : List (SIRInstruction (RegionedAbsoluteAddr A))} {after : Allocation} :
    vars addr = some state → state.overlays ≠ [] →
    synthesizeLoad dst state allocation = (insts, after) →
    ForwardStep vars allocation (.load dst addr (.static state.baseOff) state.baseWidth) insts
      (Function.update vars addr (some ⟨dst, state.baseOff, state.baseWidth, []⟩)) after
  | store {addr : RegionedAbsoluteAddr A} {off width : Nat} {src : RegisterId} {sites : List Nat}
    {state : VarState} {parts : List Overlay}
    {insts : List (SIRInstruction (RegionedAbsoluteAddr A))} {after : Allocation} :
    vars addr = some state → state.baseOff ≤ off →
    off + width ≤ state.baseOff + state.baseWidth →
    splitOverlays (off - state.baseOff) (off - state.baseOff + width) state.overlays allocation =
      (parts, insts, after) →
    ForwardStep vars allocation (.store addr (.static off) width src [] sites)
      (insts ++ [.store addr (.static off) width src [] sites])
      (Function.update vars addr
        (some { state with overlays := parts ++ [⟨off - state.baseOff, width, src⟩] })) after

section Step
variable [DecidableEq A] {allocation : Allocation}
  {inst : SIRInstruction (RegionedAbsoluteAddr A)}

/-- A dropped object is not tracked, and the others are not touched. -/
theorem ForwardStep.drop (hkeeps : ∀ a, a ≠ addr → ∀ off width, Keeps a off width inst)
    (hseen : ∀ a, a ≠ addr → ∀ bit, ¬ SeenWrite a inst bit) :
    ForwardStep vars allocation inst [inst] (Function.update vars addr none) allocation := by
  refine .keep fun a state hstate => ?_
  by_cases heq : a = addr
  · subst heq
    rw [Function.update_self] at hstate
    cases hstate
  · rw [Function.update_of_ne heq] at hstate
    exact ⟨hstate, hkeeps a heq _ _, hseen a heq⟩

theorem ForwardStep.same (hkeeps : ∀ addr off width, Keeps addr off width inst)
    (hseen : ∀ addr bit, ¬ SeenWrite addr inst bit) :
    ForwardStep vars allocation inst [inst] vars allocation :=
  .keep fun addr _ hstate => ⟨hstate, hkeeps addr _ _, hseen addr⟩

omit [DecidableEq A] in
theorem store_seen {addr a : RegionedAbsoluteAddr A} {offset : SIROffset} {bits bit : Nat}
    {src : RegisterId} {triggers : List TriggerIdWithKind} {sites : List Nat}
    (h : SeenWrite a (.store addr offset bits src triggers sites) bit) :
    a = addr ∧ triggers = [] ∧ ∃ start, offset = .static start := by
  obtain ⟨start, _, _, ⟨_, heq⟩, -, -⟩ := h
  cases heq
  exact ⟨rfl, rfl, start, rfl⟩

theorem forwardInstruction_step (vars : VarStates A) (allocation : Allocation)
    (inst : SIRInstruction (RegionedAbsoluteAddr A)) :
    ForwardStep vars allocation inst (forwardInstruction vars allocation inst).1
      (forwardInstruction vars allocation inst).2.1
      (forwardInstruction vars allocation inst).2.2 := by
  cases inst with
  | load dst addr offset width =>
    cases offset with
    | static off =>
      simp only [forwardInstruction]
      cases hstate : vars addr with
      | none => exact .load
      | some state =>
        simp only
        split
        · rename_i hrepeat
          obtain ⟨rfl, rfl, hne⟩ := hrepeat
          exact .replaced hstate hne rfl
        · exact .load
    | dynamic | element | packedElements =>
      exact .same (fun _ _ _ => trivial) fun _ _ ⟨_, _, _, ⟨_, heq⟩, _⟩ => by cases heq
  | store addr offset bits src triggers sites =>
    cases offset with
    | static off =>
      cases triggers with
      | nil =>
        have hdrop : ForwardStep vars allocation (.store addr (.static off) bits src [] sites)
            [.store addr (.static off) bits src [] sites] (Function.update vars addr none)
            allocation := .drop (fun a hne _ _ heq => absurd heq.symm hne)
          fun a hne bit h => hne (store_seen h).1
        simp only [forwardInstruction]
        cases hstate : vars addr with
        | none => exact hdrop
        | some state =>
          simp only
          split
          · rename_i hin
            exact .store hstate hin.1 hin.2 rfl
          · exact hdrop
      | cons trigger triggers =>
        exact .same (fun _ _ _ => trivial) fun _ _ h => by cases (store_seen h).2.1
    | dynamic | element =>
      exact .drop (fun a hne _ _ heq => hne heq.symm) fun _ _ _ h => by
        obtain ⟨-, -, _, heq⟩ := store_seen h
        cases heq
    | packedElements =>
      refine .same (fun _ _ _ => ?_) fun _ _ h => ?_
      · cases triggers <;> trivial
      · obtain ⟨-, -, _, heq⟩ := store_seen h
        cases heq
  | commit src dst offset bits triggers =>
    exact .drop (fun a hne _ _ heq => hne heq.symm) fun _ _ _ ⟨_, _, _, ⟨_, heq⟩, _⟩ => by cases heq
  | imm | binary | unary | concat | slice | mux | runtimeEvent | combCaptureEvent
  | combCaptureEnableIfChanged =>
    exact .same (fun _ _ _ => trivial) fun _ _ ⟨_, _, _, ⟨_, heq⟩, _⟩ => by cases heq

/-- What is tracked stays with the instructions that were passed. -/
theorem ForwardStep.tracked {insts : List (SIRInstruction (RegionedAbsoluteAddr A))}
    {vars' : VarStates A} {after : Allocation}
    (hstep : ForwardStep vars allocation inst insts vars' after) (h : Tracked instructions vars i)
    (hi : instructions[i]? = some inst) : Tracked instructions vars' (i + 1) := by
  have hother : ∀ (addr : RegionedAbsoluteAddr A) {a : RegionedAbsoluteAddr A} {state : VarState},
      (∀ off width, a ≠ addr → Keeps a off width inst) → a ≠ addr → vars a = some state →
      ∃ j, BaseAt instructions a state j (i + 1) := fun _ _ _ hkeeps hne hstate => by
    obtain ⟨j, hbase⟩ := h _ _ hstate
    exact ⟨j, hbase.next hi (hkeeps _ _ hne)⟩
  intro a state hstate
  cases hstep with
  | keep hkeep =>
    obtain ⟨hstate, hkeeps, -⟩ := hkeep a state hstate
    obtain ⟨j, hbase⟩ := h a state hstate
    exact ⟨j, hbase.next hi hkeeps⟩
  | @load dst addr off width =>
    by_cases heq : a = addr
    · subst heq
      rw [Function.update_self] at hstate
      cases hstate
      exact ⟨i, .start hi⟩
    · rw [Function.update_of_ne heq] at hstate
      exact hother addr (fun _ _ hne heq => hne heq.symm) heq hstate
  | @replaced dst addr old insts after hold hne hsynth =>
    by_cases heq : a = addr
    · subst heq
      rw [Function.update_self] at hstate
      cases hstate
      exact ⟨i, .start hi⟩
    · rw [Function.update_of_ne heq] at hstate
      exact hother addr (fun _ _ hne heq => hne heq.symm) heq hstate
  | @store addr off width src sites old parts insts after hold hle hlt hsplit =>
    by_cases heq : a = addr
    · subst heq
      rw [Function.update_self] at hstate
      cases hstate
      obtain ⟨j, hbase⟩ := h _ _ hold
      exact ⟨j, hbase.store hi ⟨hle, hlt⟩ _⟩
    · rw [Function.update_of_ne heq] at hstate
      exact hother addr (fun _ _ hne heq => absurd heq.symm hne) heq hstate

end Step
end Tracked
end Celox.Opt

/-! ## When partial forwarding gives what the load would read

The overlays and the base hold the bits of the object except where it is stale. So a load is
forwarded exactly if nothing in its range is, if the registers are as wide as what was stored, and if
the object holds what is stored. -/
namespace Celox.Opt
open Celox.Sir Celox.Layout Relation

variable {A : Type} [DecidableEq A]

section Held
variable (eu eu' : ExecutionUnit (RegionedAbsoluteAddr A))
  (model : BitModel (RegionedAbsoluteAddr A))
  (instructions : List (SIRInstruction (RegionedAbsoluteAddr A)))
  (first : State (RegionedAbsoluteAddr A) (BitMemory (RegionedAbsoluteAddr A)))
  (addr : RegionedAbsoluteAddr A) (state : VarState) (j i : Nat) (allocation : Allocation)
  (s s' : State (RegionedAbsoluteAddr A) (BitMemory (RegionedAbsoluteAddr A)))

/-- The object holds the bit that the last seen store has stored. -/
def HoldsLast (bit : Nat) : Prop :=
  ∀ k start bits src, LastSeen addr instructions j i bit k start bits src → ∀ t value,
    eu.execList model.machine first (instructions.take k) = some t → t.regs src = some value →
    model.hold addr (value.bit (bit - start)) = value.bit (bit - start)

/-- What is tracked of the bit is what the object holds. -/
structure Settled (bit : Nat) : Prop where
  fresh : ¬ Stale addr instructions j i bit
  holds : HoldsLast eu model instructions first addr j i bit

structure OverlayHeld (overlay : Overlay) : Prop where
  known : overlay.register ∈ allocation.registerMap
  undefined : UndefinedFrom instructions i overlay.register
  width : 0 < overlay.width
  within : overlay.offset + overlay.width ≤ state.baseWidth
  origin : HasWidth eu'.types overlay.register overlay.width ∨
    Intact addr instructions j i (state.baseOff + overlay.offset) overlay.width overlay.register
  value : ∃ type value, eu'.types overlay.register = some type ∧
    s'.regs overlay.register = some value ∧ value.fits type.width ∧
    ∀ k, overlay.Covers k →
      Settled eu model instructions first addr j i (state.baseOff + k) →
      value.bit (k - overlay.offset) = s.memory addr (state.baseOff + k)

structure VarHeld : Prop where
  base : BaseAt instructions addr state j i
  known : state.baseReg ∈ allocation.registerMap
  undefined : UndefinedFrom instructions i state.baseReg
  overlays : ∀ overlay ∈ state.overlays,
    OverlayHeld eu eu' model instructions first addr state j i allocation s s' overlay
  apart : state.overlays.Pairwise Overlay.Apart
  value : ∃ value, s'.regs state.baseReg = some value ∧
    ∀ k < state.baseWidth, (∀ overlay ∈ state.overlays, ¬ overlay.Covers k) →
      Settled eu model instructions first addr j i (state.baseOff + k) →
      value.bit k = s.memory addr (state.baseOff + k)

/-- Everything about the states in front of an instruction. -/
structure Held (vars : VarStates A) : Prop where
  bounded : allocation.Bounded
  declared : ShapesIn eu.registerMap allocation.registerMap
  alike : Matches eu (fun _ => true) s s'
  vars : ∀ addr state, vars addr = some state → ∃ j,
    VarHeld eu eu' model instructions first addr state j i allocation s s'

end Held

section Pass
variable {eu eu' : ExecutionUnit (RegionedAbsoluteAddr A)}
  {model : BitModel (RegionedAbsoluteAddr A)}
  {instructions : List (SIRInstruction (RegionedAbsoluteAddr A))}
  {first : State (RegionedAbsoluteAddr A) (BitMemory (RegionedAbsoluteAddr A))}
  {addr : RegionedAbsoluteAddr A} {state : VarState} {j i : Nat} {allocation after : Allocation}
  {s s' t t' : State (RegionedAbsoluteAddr A) (BitMemory (RegionedAbsoluteAddr A))}
  {inst : SIRInstruction (RegionedAbsoluteAddr A)} {overlay : Overlay}

theorem Settled.earlier {bit : Nat}
    (h : Settled eu model instructions first addr j (i + 1) bit) (hi : instructions[i]? = some inst)
    (hseen : ¬ SeenWrite addr inst bit) : Settled eu model instructions first addr j i bit :=
  ⟨fun hstale => h.fresh (hstale.next hi hseen), fun k start bits src hlast =>
    h.holds k start bits src (hlast.next hi hseen)⟩

/-- A settled bit is not one that an unseen store has just written. -/
theorem Settled.seen {bit : Nat} (h : Settled eu model instructions first addr j (i + 1) bit)
    (hj : j < i) (hi : instructions[i]? = some inst) : ¬ UnseenWrite addr inst bit :=
  fun hunseen => h.fresh ⟨i, inst, hj, Nat.lt_succ_self i, hi, hunseen, .empty⟩

/-- The registers of what is tracked and the tracked bits stay. -/
structure Passes (addr : RegionedAbsoluteAddr A) (allocation after : Allocation)
    (inst : SIRInstruction (RegionedAbsoluteAddr A))
    (s s' t t' : State (RegionedAbsoluteAddr A) (BitMemory (RegionedAbsoluteAddr A))) : Prop where
  before : allocation.Before after
  memory : ∀ bit, ¬ inst.mayWrite addr bit → t.memory addr bit = s.memory addr bit
  regs : ∀ reg ∈ allocation.registerMap, inst.definedRegister ≠ some reg → t'.regs reg = s'.regs reg

theorem Passes.settled {off width bit : Nat} (h : Passes addr allocation after inst s s' t t')
    (hi : instructions[i]? = some inst) (hj : j < i) (hkeeps : Keeps addr off width inst)
    (hseen : ¬ SeenWrite addr inst bit)
    (hsettled : Settled eu model instructions first addr j (i + 1) bit) :
    Settled eu model instructions first addr j i bit ∧
      t.memory addr bit = s.memory addr bit :=
  ⟨hsettled.earlier hi hseen, h.memory bit fun hwrite =>
    hsettled.seen hj hi (hkeeps.cases hseen hwrite)⟩

theorem OverlayHeld.pass
    (h : OverlayHeld eu eu' model instructions first addr state j i allocation s s' overlay)
    (hpasses : Passes addr allocation after inst s s' t t') (hi : instructions[i]? = some inst)
    (hj : j < i) (hkeeps : Keeps addr state.baseOff state.baseWidth inst)
    (hseen : ∀ bit, ¬ SeenWrite addr inst bit) :
    OverlayHeld eu eu' model instructions first addr state j (i + 1) after t t' overlay := by
  obtain ⟨type, value, htype, hvalue, hfits, hbits⟩ := h.value
  refine ⟨hpasses.before.shapes.mem h.known, h.undefined.next, h.width, h.within,
    h.origin.imp_right fun hintact => hintact.next hi fun bit _ _ => hseen bit,
    type, value, htype, ?_, hfits, fun k hk hsettled => ?_⟩
  · rw [hpasses.regs _ h.known (h.undefined i inst le_rfl hi), hvalue]
  · obtain ⟨hsettled, hmemory⟩ := hpasses.settled hi hj hkeeps (hseen _) hsettled
    rw [hmemory, hbits k hk hsettled]

theorem VarHeld.pass (h : VarHeld eu eu' model instructions first addr state j i allocation s s')
    (hpasses : Passes addr allocation after inst s s' t t') (hi : instructions[i]? = some inst)
    (hkeeps : Keeps addr state.baseOff state.baseWidth inst)
    (hseen : ∀ bit, ¬ SeenWrite addr inst bit) :
    VarHeld eu eu' model instructions first addr state j (i + 1) after t t' := by
  obtain ⟨value, hvalue, hbits⟩ := h.value
  refine ⟨h.base.next hi hkeeps, hpasses.before.shapes.mem h.known, h.undefined.next,
    fun overlay hmem => (h.overlays overlay hmem).pass hpasses hi h.base.lt hkeeps hseen, h.apart,
    value, ?_, fun k hk hout hsettled => ?_⟩
  · rw [hpasses.regs _ h.known (h.undefined i inst le_rfl hi), hvalue]
  · obtain ⟨hsettled, hmemory⟩ := hpasses.settled hi h.base.lt hkeeps (hseen _) hsettled
    rw [hmemory, hbits k hk hout hsettled]

end Pass

/-! ## One instruction -/

section Step
variable {eu eu' : ExecutionUnit (RegionedAbsoluteAddr A)}
  {model : BitModel (RegionedAbsoluteAddr A)} {b : BlockId}
  {block : BasicBlock (RegionedAbsoluteAddr A)}
  {first : State (RegionedAbsoluteAddr A) (BitMemory (RegionedAbsoluteAddr A))}
  {addr : RegionedAbsoluteAddr A} {state : VarState} {j i : Nat} {allocation after : Allocation}
  {s s' t t' : State (RegionedAbsoluteAddr A) (BitMemory (RegionedAbsoluteAddr A))}
  {inst : SIRInstruction (RegionedAbsoluteAddr A)}
  {insts : List (SIRInstruction (RegionedAbsoluteAddr A))} {vars vars' : VarStates A}

/-- The unsigned destination of a forwarded load has nothing stale in its range, and every intact
store is as wide as its register or as the load. -/
structure ForwardedWell (eu : ExecutionUnit (RegionedAbsoluteAddr A))
    (instructions : List (SIRInstruction (RegionedAbsoluteAddr A))) (dst : RegisterId)
    (addr : RegionedAbsoluteAddr A) (off width j i : Nat) : Prop where
  unsigned : Unsigned eu.types dst
  fresh : ∀ bit, off ≤ bit → bit < off + width → ¬ Stale addr instructions j i bit
  exact : ∀ start bits src, Intact addr instructions j i start bits src →
    HasWidth eu.types src bits ∨ start = off ∧ bits = width

def ForwardsWell (eu : ExecutionUnit (RegionedAbsoluteAddr A)) : Prop :=
  ∀ b block (i : Nat) dst addr off width j, eu.blocks.lookup b = some block →
    block.instructions[i]? = some (.load dst addr (.static off) width) →
    Forwards addr off width block.instructions j i →
    ForwardedWell eu block.instructions dst addr off width j i

/-- In a block that is entered in this state, the objects hold what is forwarded. -/
def HoldsForwarded (eu : ExecutionUnit (RegionedAbsoluteAddr A))
    (model : BitModel (RegionedAbsoluteAddr A)) (b : BlockId)
    (first : State (RegionedAbsoluteAddr A) (BitMemory (RegionedAbsoluteAddr A))) : Prop :=
  ∀ block (i : Nat) dst addr off width j, eu.blocks.lookup b = some block →
    block.instructions[i]? = some (.load dst addr (.static off) width) →
    Forwards addr off width block.instructions j i →
    ∀ bit, off ≤ bit → bit < off + width →
      HoldsLast eu model block.instructions first addr j i bit

/-- A static load puts the bits of the object into its register. -/
theorem exec_load {dst : RegisterId} {off width : Nat} (htype : HasWidth eu.types dst width)
    (h : eu.execInstruction model.machine s (.load dst addr (.static off) width) = some t) :
    t.regs dst = some (readBits s.memory addr off width) ∧ t.memory = s.memory ∧
      t.trace = s.trace := by
  obtain ⟨type, htype, rfl⟩ := htype
  simp only [ExecutionUnit.execInstruction, SIROffset.resolve, BitModel.machine, BitModel.load,
    model.start_static, Option.bind_eq_bind, Option.bind_some, Option.pure_def,
    Option.some.injEq] at h
  subst h
  refine ⟨?_, rfl, rfl⟩
  simp only [ExecutionUnit.assign, Function.update_self, kept_of_fits htype (readBits_fits _ _ _ _)]

theorem ForwardStep.before (hv : Verified eu) (hb : eu.blocks.lookup b = some block)
    (hwell : ForwardsWell eu) (hi : block.instructions[i]? = some inst)
    (htracked : Tracked block.instructions vars i) (hbounded : allocation.Bounded)
    (hdeclared : ShapesIn eu.registerMap allocation.registerMap)
    (hstep : ForwardStep vars allocation inst insts vars' after) : allocation.Before after := by
  cases hstep with
  | keep | load => exact .refl hbounded
  | @replaced dst addr state insts after hstate hne hsynth =>
    obtain ⟨j, hbase⟩ := htracked addr state hstate
    obtain ⟨type, htype, hwidth⟩ := hv.load_width hb hi
    obtain ⟨type', htype', hsigned⟩ :=
      (hwell b block i _ _ _ _ j hb hi (hbase.forwards hne)).unsigned
    rw [htype] at htype'
    cases htype'
    obtain ⟨known, hknown, hshape⟩ := hdeclared dst type htype
    refine synthesizeLoad_before hbounded hknown (hshape.trans ?_) hsynth
    unfold RegisterType.shape
    rw [hwidth, hsigned]
  | store _ _ _ hsplit => exact splitOverlays_before hbounded hsplit

/-- Behind a load its register holds the bits of the range. -/
theorem VarHeld.start {dst : RegisterId} {off width : Nat}
    (hi : block.instructions[i]? = some (.load dst addr (.static off) width))
    (hknown : dst ∈ after.registerMap)
    (hundefined : UndefinedFrom block.instructions (i + 1) dst) {value : SIRValue}
    (hvalue : t'.regs dst = some value)
    (hbits : ∀ k < width, value.bit k = t.memory addr (off + k)) :
    VarHeld eu eu' model block.instructions first addr ⟨dst, off, width, []⟩ i (i + 1) after t t' :=
  ⟨.start hi, hknown, hundefined, nofun, .nil, value, hvalue, fun k hk _ _ => hbits k hk⟩

/-- What is not changed for an object stays tracked. -/
theorem Held.pass (h : Held eu eu' model block.instructions first i allocation s s' vars)
    (hi : block.instructions[i]? = some inst) (hbefore : allocation.Before after)
    (hexec : eu.execInstruction model.machine s inst = some t)
    (hregs : ∀ reg ∈ allocation.registerMap, inst.definedRegister ≠ some reg →
      t'.regs reg = s'.regs reg)
    (hstate : vars addr = some state) (hkeeps : Keeps addr state.baseOff state.baseWidth inst)
    (hseen : ∀ bit, ¬ SeenWrite addr inst bit) :
    ∃ j, VarHeld eu eu' model block.instructions first addr state j (i + 1) after t t' := by
  obtain ⟨j, hvar⟩ := h.vars addr state hstate
  exact ⟨j, hvar.pass ⟨hbefore, fun _ hwrite => exec_memory hexec hwrite, hregs⟩ hi hkeeps hseen⟩

omit [DecidableEq A] in
/-- The registers of the one unit keep their values while others are added. -/
theorem Grown.alike {known : RegisterId → Prop} (hgrown : Grown known s' t')
    (h : Matches eu (fun _ => true) s s') (hknown : ∀ reg, Declared eu.types reg → known reg) :
    Matches eu (fun _ => true) s t' :=
  ⟨fun reg hreg => (hgrown.regs reg (hknown reg hreg)).trans (h.regs reg hreg),
    hgrown.memory.trans h.memory, (congrArg _ hgrown.trace).trans h.trace, h.fits⟩

theorem Held.known (h : Held eu eu' model block.instructions first i allocation s s' vars)
    {reg : RegisterId} (hreg : Declared eu.types reg) : reg ∈ allocation.registerMap := by
  obtain ⟨type, htype⟩ := hreg
  exact h.declared.mem (AList.lookup_isSome.mp (Option.isSome_of_eq_some htype))

/-- A load that repeats the tracked one, as it is forwarded. -/
theorem Held.replaced (hv : Verified eu) (hb : eu.blocks.lookup b = some block)
    (hext : Extends eu eu') (hwell : ForwardsWell eu) (hholds : HoldsForwarded eu model b first)
    {dst : RegisterId}
    (hi : block.instructions[i]? =
      some (.load dst addr (.static state.baseOff) state.baseWidth))
    (hexec : eu.execInstruction model.machine s
      (.load dst addr (.static state.baseOff) state.baseWidth) = some t)
    (h : Held eu eu' model block.instructions first i allocation s s' vars)
    (hstate : vars addr = some state) (hne : state.overlays ≠ [])
    (hsynth : synthesizeLoad dst state allocation = (insts, after))
    (hfinal : ShapesIn after.registerMap eu'.registerMap) :
    ∃ t', eu'.execList model.machine s' insts = some t' ∧
      Grown (fun reg => reg ∈ allocation.registerMap ∧ reg ≠ dst) s' t' ∧
      t'.regs dst = t.regs dst := by
  obtain ⟨j, hvar⟩ := h.vars addr state hstate
  have hforwards := hvar.base.forwards hne
  have hgood := hwell b block i _ _ _ _ j hb hi hforwards
  have hsettled : ∀ k < state.baseWidth,
      Settled eu model block.instructions first addr j i (state.baseOff + k) := fun k hk =>
    ⟨hgood.fresh _ (by omega) (by omega),
      hholds block i _ _ _ _ j hb hi hforwards _ (by omega) (by omega)⟩
  obtain ⟨type, htype, hwidth⟩ := hv.load_width hb hi
  obtain ⟨type', htype', hsigned⟩ := hgood.unsigned
  rw [htype] at htype'
  cases htype'
  obtain ⟨known, hknown, hshape⟩ := h.declared dst type htype
  have hshape' : known.shape = ⟨state.baseWidth, false⟩ := by
    rw [hshape, RegisterType.shape, hwidth, hsigned]
  obtain ⟨base, hbase, hbaseBits⟩ := hvar.value
  have hexact : ∀ o ∈ state.overlays, HasWidth eu'.types o.register o.width ∨
      o.offset = 0 ∧ o.width = state.baseWidth := by
    intro o ho
    rcases (hvar.overlays o ho).origin with hexact | hintact
    · exact .inl hexact
    · rcases hgood.exact _ _ _ hintact with ⟨type, htype, hwidth⟩ | ⟨hoff, hall⟩
      · obtain ⟨type', htype', hshape⟩ := hext _ type htype
        exact .inl ⟨type', htype', (congrArg RegisterShape.width hshape).trans hwidth⟩
      · exact .inr ⟨by omega, hall⟩
  have hoverlays : ∀ o ∈ state.overlays, ∃ type value, eu'.types o.register = some type ∧
      s'.regs o.register = some value ∧ value.fits type.width ∧
      ∀ k, o.Covers k → value.bit (k - o.offset) = s.memory addr (state.baseOff + k) := by
    intro o ho
    obtain ⟨type, value, htype, hvalue, hfits, hbits⟩ := (hvar.overlays o ho).value
    refine ⟨type, value, htype, hvalue, hfits, fun k hk => hbits k hk (hsettled k ?_)⟩
    have := (hvar.overlays o ho).within
    have := hk.2
    omega
  obtain ⟨t', hexec', hgrown, value, hvalue, hfits, hbits⟩ := synthesizeLoad_exec model
    h.bounded hsynth hfinal hknown hshape' hbase hvar.known
    (fun o ho => (hvar.overlays o ho).known) hvar.apart
    (fun o ho => ⟨(hvar.overlays o ho).width, (hvar.overlays o ho).within⟩)
    hexact hoverlays fun k hk hout => hbaseBits k hk hout (hsettled k hk)
  refine ⟨t', hexec', hgrown, ?_⟩
  rw [hvalue, (exec_load (hv.load_width hb hi) hexec).1]
  refine congrArg some (value_ext hfits (readBits_fits _ _ _ _) fun k hk => ?_)
  rw [hbits k hk, readBits_bit _ _ _ hk]

/-! ### A seen store -/

section Store
variable {off width : Nat} {src : RegisterId} {sites : List Nat} {overlay part : Overlay}
  {parts : List Overlay}

/-- A bit in front of or behind a seen store stays as it is. -/
theorem Settled.outside (hi : block.instructions[i]? = some
      (.store addr (.static off) width src [] sites)) {bit : Nat}
    (h : Settled eu model block.instructions first addr j (i + 1) bit)
    (hout : ¬ (off ≤ bit ∧ bit < off + width)) :
    Settled eu model block.instructions first addr j i bit := by
  refine h.earlier hi ?_
  rintro ⟨start, bits, reg, ⟨_, heq⟩, hle, hlt⟩
  cases heq
  exact hout ⟨hle, hlt⟩

/-- The stored register as an overlay. -/
theorem Held.stored (hv : Verified eu) (hb : eu.blocks.lookup b = some block)
    (hext : Extends eu eu')
    (hi : block.instructions[i]? = some (.store addr (.static off) width src [] sites))
    (hfront : eu.execList model.machine first (block.instructions.take i) = some s)
    (hexec : eu.execInstruction model.machine s
      (.store addr (.static off) width src [] sites) = some t)
    (h : Held eu eu' model block.instructions first i allocation s s' vars)
    (hbefore : allocation.Before after) (hregs : ∀ reg ∈ allocation.registerMap,
      t'.regs reg = s'.regs reg) (hj : j < i) (hwidth : width ≠ 0) (hle : state.baseOff ≤ off)
    (hlt : off + width ≤ state.baseOff + state.baseWidth) (overlays : List Overlay) :
    OverlayHeld eu eu' model block.instructions first addr { state with overlays } j (i + 1) after
      t t' ⟨off - state.baseOff, width, src⟩ := by
  have huse : src ∈ (SIRInstruction.store addr (.static off) width src [] sites).uses := by
    rw [SIRInstruction.uses, if_neg hwidth]
    exact List.mem_append_right _ (List.mem_singleton_self _)
  have hdeclared : Declared eu.types src :=
    hv.declares hb hi src (List.mem_append_right _ huse)
  obtain ⟨value, -, hvalue, -, hmemory, -⟩ := exec_store (.inl rfl) hwidth hexec
  obtain ⟨type, htype⟩ := hdeclared
  obtain ⟨type', htype', hshape⟩ := hext src type htype
  have hoff : state.baseOff + (off - state.baseOff) = off := by omega
  refine ⟨hbefore.shapes.mem (h.known ⟨type, htype⟩), hv.undefined_used hb hi huse,
    Nat.pos_of_ne_zero hwidth, by change off - state.baseOff + width ≤ state.baseWidth; omega,
    .inr ?_, type', value, htype', ?_, ?_, fun k hk hsettled => ?_⟩
  · change Intact addr block.instructions j (i + 1) (state.baseOff + (off - state.baseOff)) width src
    rw [hoff]
    exact ⟨i, _, hj, Nat.lt_succ_self i, hi, ⟨sites, rfl⟩, fun _ _ _ => .empty⟩
  · change t'.regs src = some value
    rw [hregs src (h.known ⟨type, htype⟩), h.alike.regs src ⟨type, htype⟩, hvalue]
  · have hwidth' : type'.width = type.width := congrArg RegisterShape.width hshape
    rw [hwidth']
    exact h.alike.fits src type value htype hvalue
  · obtain ⟨hk, hk'⟩ := hk
    simp only at hk hk'
    have hin : off ≤ state.baseOff + k ∧ state.baseOff + k < off + width := by omega
    have hholds := hsettled.holds i off width src ⟨hj, Nat.lt_succ_self i, ⟨_, hi, sites, rfl⟩,
      hin.1, hin.2, .empty⟩ s value hfront hvalue
    rw [hmemory]
    simp only [writeBits, hin, and_self, if_true]
    rw [hholds]
    congr 1
    change k - (off - state.baseOff) = state.baseOff + k - off
    omega

/-- What is left of an overlay. -/
theorem OverlayHeld.split (hv : Verified eu) (hb : eu.blocks.lookup b = some block)
    (hi : block.instructions[i]? = some (.store addr (.static off) width src [] sites))
    (hexec : eu.execInstruction model.machine s
      (.store addr (.static off) width src [] sites) = some t)
    (h : Held eu eu' model block.instructions first i allocation s s' vars)
    (hoverlay : OverlayHeld eu eu' model block.instructions first addr state j i allocation s s'
      overlay) (hbefore : allocation.Before after)
    (hfinal : ShapesIn after.registerMap eu'.registerMap) (hregs : ∀ reg ∈ allocation.registerMap,
      t'.regs reg = s'.regs reg) (hwidth : width ≠ 0) (hle : state.baseOff ≤ off)
    (hpart : PartOf overlay allocation after part)
    (hout : ∀ k, part.Covers k → ¬ (off ≤ state.baseOff + k ∧ state.baseOff + k < off + width))
    (hholds : ∀ value, s'.regs overlay.register = some value →
      PartHolds overlay value t'.regs part) (overlays : List Overlay) :
    OverlayHeld eu eu' model block.instructions first addr { state with overlays } j (i + 1) after
      t t' part := by
  obtain ⟨type, value, htype, hvalue, hfits, hbits⟩ := hoverlay.value
  obtain ⟨v, hv', hvFits, hvBits⟩ := hholds value hvalue
  obtain ⟨stored, -, -, -, hmemory, -⟩ := exec_store (.inl rfl) hwidth hexec
  have hpos := hpart.width
  have hend := hpart.covers (part.offset + part.width - 1) ⟨by omega, by omega⟩
  have hsame : ∀ k, part.Covers k →
      Settled eu model block.instructions first addr j (i + 1) (state.baseOff + k) →
      v.bit (k - part.offset) = t.memory addr (state.baseOff + k) := by
    intro k hk hsettled
    rw [hvBits k hk, hbits k (hpart.covers k hk) (hsettled.outside hi (hout k hk)), hmemory]
    simp only [writeBits, true_and, hout k hk, if_false]
  have hwithin : part.offset + part.width ≤ state.baseWidth := by
    have := hend.2
    have := hoverlay.within
    omega
  rcases hpart.declared with rfl | ⟨hfresh, partType, hpartType, hpartWidth⟩
  · have hintact := fun hintact : Intact addr block.instructions j i (state.baseOff + part.offset)
        part.width part.register => hintact.next hi fun bit hbit hbit' => by
      rintro ⟨start, bits, reg, ⟨_, heq⟩, hin⟩
      cases heq
      exact hout (bit - state.baseOff) ⟨by omega, by omega⟩ (by omega)
    rw [hregs _ hoverlay.known, hvalue] at hv'
    cases hv'
    exact ⟨hbefore.shapes.mem hoverlay.known, hoverlay.undefined.next, hpos, hwithin,
      hoverlay.origin.imp_right hintact, type, value, htype,
      (hregs _ hoverlay.known).trans hvalue, hfits, hsame⟩
  · obtain ⟨type', htype', hshape⟩ := hfinal _ _ hpartType
    have hwidth' : type'.width = part.width :=
      (congrArg RegisterShape.width hshape).trans hpartWidth
    have hne : part ≠ overlay := fun heq => hfresh (heq ▸ hoverlay.known)
    refine ⟨AList.lookup_isSome.mp (Option.isSome_of_eq_some hpartType), fun k inst _ hget hdef => ?_,
      hpos, hwithin, .inl ⟨type', htype', hwidth'⟩, type', v, htype', hv', ?_, hsame⟩
    · refine hfresh (h.known (hv.declares hb hget _ ?_))
      exact List.mem_append_left _ (Option.mem_toList.mpr hdef)
    · rw [hwidth']
      exact hvFits hne

/-- A store into the tracked range. -/
theorem Held.store (hv : Verified eu) (hb : eu.blocks.lookup b = some block)
    (hext : Extends eu eu')
    (hi : block.instructions[i]? = some (.store addr (.static off) width src [] sites))
    (hfront : eu.execList model.machine first (block.instructions.take i) = some s)
    (hexec : eu.execInstruction model.machine s
      (.store addr (.static off) width src [] sites) = some t)
    (h : Held eu eu' model block.instructions first i allocation s s' vars)
    (hstate : vars addr = some state) (hle : state.baseOff ≤ off)
    (hlt : off + width ≤ state.baseOff + state.baseWidth)
    (hsplit : splitOverlays (off - state.baseOff) (off - state.baseOff + width) state.overlays
      allocation = (parts, insts, after)) (hfinal : ShapesIn after.registerMap eu'.registerMap) :
    ∃ t', eu'.execList model.machine s'
        (insts ++ [.store addr (.static off) width src [] sites]) = some t' ∧
      Matches eu (fun _ => true) t t' ∧
      (∀ reg ∈ allocation.registerMap, t'.regs reg = s'.regs reg) ∧
      ∃ j, VarHeld eu eu' model block.instructions first addr
        { state with overlays := parts ++ [⟨off - state.baseOff, width, src⟩] } j (i + 1) after
        t t' := by
  have hwidth : width ≠ 0 := fun heq => by
    have htyped : InstructionTyped eu.types (.store addr (.static off) width src [] sites) :=
      (hv.blocks b block hb).typed.typed _ (List.mem_of_getElem? hi)
    simp only [InstructionTyped, heq, if_true] at htyped
    exact htyped.1 rfl
  obtain ⟨j, hvar⟩ := h.vars addr state hstate
  have hpos : ∀ o ∈ state.overlays, 0 < o.width := fun o ho => (hvar.overlays o ho).width
  have hrange : off - state.baseOff < off - state.baseOff + width := by omega
  obtain ⟨hbefore, -, hcover, hapart⟩ :=
    splitOverlays_spec h.bounded hpos hvar.apart hrange hsplit
  obtain ⟨u', hexecSplit, hgrown, hparts⟩ := splitOverlays_exec model h.bounded hpos
    hvar.apart hrange hsplit hfinal
    (fun o ho => by
      obtain ⟨_, value, -, hvalue, -⟩ := (hvar.overlays o ho).value
      exact ⟨value, hvalue⟩)
    fun o ho => (hvar.overlays o ho).known
  obtain ⟨t', hexec', halike⟩ := Matches.exec hext (hgrown.alike h.alike fun reg hreg => h.known hreg)
    (hv.declares hb hi) hexec
  obtain ⟨-, -, -, hregs', -⟩ := exec_store (.inl rfl) hwidth hexec'
  have hregs : ∀ reg ∈ allocation.registerMap, t'.regs reg = s'.regs reg := fun reg hreg => by
    rw [hregs', hgrown.regs reg hreg]
  have hout : ∀ k, ¬ (off - state.baseOff ≤ k ∧ k < off - state.baseOff + width) →
      ¬ (off ≤ state.baseOff + k ∧ state.baseOff + k < off + width) := fun k h h' => h (by omega)
  refine ⟨t', ?_, halike, hregs, j, ?_⟩
  · rw [execList_append, hexecSplit, Option.bind_some, execList_singleton, hexec']
  obtain ⟨base, hbase, hbits⟩ := hvar.value
  obtain ⟨stored, -, -, -, hmemory, -⟩ := exec_store (.inl rfl) hwidth hexec
  refine ⟨hvar.base.store hi ⟨hle, hlt⟩ _, hbefore.shapes.mem hvar.known, hvar.undefined.next,
    fun part hpart => ?_, ?_, base, (hregs _ hvar.known).trans hbase, fun k hk huncovered hsettled => ?_⟩
  · rcases List.mem_append.mp hpart with hpart | hpart
    · obtain ⟨o, ho, hpartOf, hpartOut, hholds⟩ := hparts part hpart
      exact (hvar.overlays o ho).split hv hb hi hexec h hbefore hfinal hregs hwidth hle hpartOf
        (fun k hk => hout k (hpartOut k hk)) (fun value hvalue => by rw [hregs']; exact hholds value hvalue) _
    · obtain rfl := List.mem_singleton.mp hpart
      exact h.stored hv hb hext hi hfront hexec hbefore hregs hvar.base.lt hwidth hle hlt _
  · refine List.pairwise_append.mpr ⟨hapart, List.pairwise_singleton _ _, fun part hpart o ho k hk hko => ?_⟩
    obtain rfl := List.mem_singleton.mp ho
    obtain ⟨_, _, _, hpartOut, _⟩ := hparts part hpart
    exact hpartOut k hk hko
  · have hnot : ¬ (off - state.baseOff ≤ k ∧ k < off - state.baseOff + width) :=
      huncovered _ (List.mem_append_right _ (List.mem_singleton_self _))
    rw [hbits k hk (fun o ho hcovers => ?_) (hsettled.outside hi (hout k hnot)), hmemory]
    · simp only [writeBits, true_and, hout k hnot, if_false]
    · obtain ⟨part, hpart, hk⟩ := hcover o ho k hcovers hnot
      exact huncovered part (List.mem_append_left _ hpart) hk

end Store
/-- Behind a static load, however it is executed, its register is the base. -/
theorem Held.loaded (hv : Verified eu) (hb : eu.blocks.lookup b = some block) {dst : RegisterId}
    {off width : Nat} (hi : block.instructions[i]? = some (.load dst addr (.static off) width))
    (hexec : eu.execInstruction model.machine s (.load dst addr (.static off) width) = some t)
    (h : Held eu eu' model block.instructions first i allocation s s' vars)
    (hbefore : allocation.Before after) (halike : Matches eu (fun _ => true) t t')
    (hregs : ∀ reg ∈ allocation.registerMap, reg ≠ dst → t'.regs reg = s'.regs reg) :
    Held eu eu' model block.instructions first (i + 1) after t t'
      (Function.update vars addr (some ⟨dst, off, width, []⟩)) := by
  have hdeclared : Declared eu.types dst := hv.declares hb hi dst (List.mem_cons_self)
  obtain ⟨hvalue, hmemory, -⟩ := exec_load (hv.load_width hb hi) hexec
  refine ⟨hbefore.bounded, h.declared.trans hbefore.shapes, halike, fun a state hstate => ?_⟩
  by_cases heq : a = addr
  · subst heq
    rw [Function.update_self] at hstate
    cases hstate
    refine ⟨i, .start hi (hbefore.shapes.mem (h.known hdeclared)) (hv.undefined_defined hb hi rfl)
      ((halike.regs dst hdeclared).trans hvalue) fun k hk => ?_⟩
    rw [readBits_bit _ _ _ hk, hmemory]
  · rw [Function.update_of_ne heq] at hstate
    refine h.pass hi hbefore hexec (fun reg hreg hne => hregs reg hreg fun heq => hne ?_) hstate
      (fun heq' => heq heq'.symm) fun bit ⟨_, _, _, ⟨_, hstore⟩, _⟩ => by cases hstore
    rw [heq]
    rfl

theorem ForwardStep.held (hv : Verified eu) (hb : eu.blocks.lookup b = some block)
    (hext : Extends eu eu') (hwell : ForwardsWell eu) (hholds : HoldsForwarded eu model b first)
    (hi : block.instructions[i]? = some inst)
    (hfront : eu.execList model.machine first (block.instructions.take i) = some s)
    (hexec : eu.execInstruction model.machine s inst = some t)
    (h : Held eu eu' model block.instructions first i allocation s s' vars)
    (hbefore : allocation.Before after) (hfinal : ShapesIn after.registerMap eu'.registerMap)
    (hstep : ForwardStep vars allocation inst insts vars' after) :
    ∃ t', eu'.execList model.machine s' insts = some t' ∧
      Held eu eu' model block.instructions first (i + 1) after t t' vars' := by
  obtain ⟨u', hexec', halike⟩ := Matches.exec hext h.alike (hv.declares hb hi) hexec
  have hframe : ∀ reg ∈ allocation.registerMap, inst.definedRegister ≠ some reg →
      u'.regs reg = s'.regs reg := fun reg _ hne => execInstruction_frame hexec' hne
  cases hstep with
  | keep hkeep =>
    refine ⟨u', by rw [execList_singleton, hexec'], hbefore.bounded, h.declared, halike,
      fun addr state hstate => ?_⟩
    obtain ⟨hstate, hkeeps, hseen⟩ := hkeep addr state hstate
    exact h.pass hi hbefore hexec hframe hstate hkeeps hseen
  | load =>
    exact ⟨u', by rw [execList_singleton, hexec'], h.loaded hv hb hi hexec hbefore halike
      fun reg hreg hne => hframe reg hreg fun heq => hne (Option.some.inj heq).symm⟩
  | @replaced dst addr state insts after hstate hne hsynth =>
    obtain ⟨t', hexecAll, hgrown, hdst⟩ := h.replaced hv hb hext hwell hholds hi hexec hstate hne
      hsynth hfinal
    obtain ⟨-, hmemory, htrace⟩ := exec_load (hv.load_width hb hi) hexec
    refine ⟨t', hexecAll, h.loaded hv hb hi hexec hbefore ⟨fun reg hreg => ?_, ?_, ?_, ?_⟩
      fun reg hreg hne => hgrown.regs reg ⟨hreg, hne⟩⟩
    · by_cases heq : reg = dst
      · rw [heq, hdst]
      · rw [hgrown.regs reg ⟨h.known hreg, heq⟩, h.alike.regs reg hreg]
        exact (execInstruction_frame hexec fun hsome => heq (Option.some.inj hsome).symm).symm
    · rw [hgrown.memory, h.alike.memory, hmemory]
    · rw [hgrown.trace, h.alike.trace, htrace]
    · exact h.alike.fits.exec hexec
  | @store addr off width src sites state parts insts after hstate hle hlt hsplit =>
    obtain ⟨t', hexecAll, halike', hregs, j, hvar⟩ := h.store hv hb hext hi hfront hexec hstate hle
      hlt hsplit hfinal
    refine ⟨t', hexecAll, hbefore.bounded, h.declared.trans hbefore.shapes, halike',
      fun a other hother => ?_⟩
    by_cases heq : a = addr
    · subst heq
      rw [Function.update_self] at hother
      cases hother
      exact ⟨j, hvar⟩
    · rw [Function.update_of_ne heq] at hother
      exact h.pass hi hbefore hexec (fun reg hreg _ => hregs reg hreg) hother
        (fun heq' => absurd heq'.symm heq) fun bit hseen => heq (store_seen hseen).1

end Step

/-! ## Blocks and runs -/

section Run
variable {eu eu' : ExecutionUnit (RegionedAbsoluteAddr A)}
  {model : BitModel (RegionedAbsoluteAddr A)} {b : BlockId}
  {block : BasicBlock (RegionedAbsoluteAddr A)} {i : Nat} {allocation : Allocation}
  {first s s' t : State (RegionedAbsoluteAddr A) (BitMemory (RegionedAbsoluteAddr A))}
  {rest : List (SIRInstruction (RegionedAbsoluteAddr A))} {vars : VarStates A}

theorem forwardInstructions_before (hv : Verified eu) (hb : eu.blocks.lookup b = some block)
    (hwell : ForwardsWell eu) (hrest : block.instructions.drop i = rest)
    (htracked : Tracked block.instructions vars i) (hbounded : allocation.Bounded)
    (hdeclared : ShapesIn eu.registerMap allocation.registerMap) :
    allocation.Before (forwardInstructions rest vars allocation).2 := by
  induction rest generalizing i vars allocation with
  | nil => exact .refl hbounded
  | cons inst rest ih =>
    obtain ⟨hi, hrest, -⟩ := drop_cons hrest
    have hstep := forwardInstruction_step vars allocation inst
    have hbefore := hstep.before hv hb hwell hi htracked hbounded hdeclared
    exact hbefore.trans (ih hrest (hstep.tracked htracked hi) hbefore.bounded
      (hdeclared.trans hbefore.shapes))

theorem Held.tracked (h : Held eu eu' model block.instructions first i allocation s s' vars) :
    Tracked block.instructions vars i := fun addr state hstate =>
  let ⟨j, hvar⟩ := h.vars addr state hstate
  ⟨j, hvar.base⟩

/-- However far the instructions are executed, what stands for them can be executed as far. -/
theorem forwardInstructions_exec (hv : Verified eu) (hb : eu.blocks.lookup b = some block)
    (hext : Extends eu eu') (hwell : ForwardsWell eu) (hholds : HoldsForwarded eu model b first)
    {back : List (SIRInstruction (RegionedAbsoluteAddr A))}
    (hrest : block.instructions.drop i = rest ++ back)
    (hfront : eu.execList model.machine first (block.instructions.take i) = some s)
    (hexec : eu.execList model.machine s rest = some t)
    (h : Held eu eu' model block.instructions first i allocation s s' vars)
    (hfinal : ShapesIn (forwardInstructions (rest ++ back) vars allocation).2.registerMap
      eu'.registerMap) :
    ∃ front' back' t', (forwardInstructions (rest ++ back) vars allocation).1 = front' ++ back' ∧
      (back = [] → back' = []) ∧ eu'.execList model.machine s' front' = some t' ∧
      Matches eu (fun _ => true) t t' := by
  induction rest generalizing i vars allocation s s' with
  | nil =>
    cases hexec
    exact ⟨[], _, s', rfl, fun hback => by rw [hback]; rfl, rfl, h.alike⟩
  | cons inst rest ih =>
    obtain ⟨hi, hrest, htake⟩ := drop_cons hrest
    obtain ⟨u, hu, hexec⟩ := Option.bind_eq_some_iff.mp hexec
    have hstep := forwardInstruction_step vars allocation inst
    have hbefore := hstep.before hv hb hwell hi h.tracked h.bounded h.declared
    have hafter := forwardInstructions_before hv hb hwell hrest (hstep.tracked h.tracked hi)
      hbefore.bounded (h.declared.trans hbefore.shapes)
    obtain ⟨u', hexecInst, hheld⟩ := hstep.held hv hb hext hwell hholds hi hfront hu h hbefore
      (hafter.shapes.trans hfinal)
    obtain ⟨front', back', t', hsplit, hback, hexecRest, halike⟩ := ih hrest (by
      rw [htake, execList_append, hfront, Option.bind_some, execList_singleton, hu]) hexec hheld
      hfinal
    refine ⟨(forwardInstruction vars allocation inst).1 ++ front', back', t', ?_, hback, ?_, halike⟩
    · rw [List.append_assoc, ← hsplit]
      rfl
    · rw [execList_append, hexecInst, Option.bind_some, hexecRest]

/-- Nothing is tracked at the front of a block. -/
theorem Held.start (hbounded : allocation.Bounded)
    (hdeclared : ShapesIn eu.registerMap allocation.registerMap)
    (halike : Matches eu (fun _ => true) s s') :
    Held eu eu' model block.instructions s 0 allocation s s' fun _ => none :=
  ⟨hbounded, hdeclared, halike, nofun⟩

/-- The pass keeps every type in its shape, and rewrites every block with registers that were not
declared before. -/
theorem partialForward_spec (hv : Verified eu) (hwell : ForwardsWell eu) :
    ShapesIn eu.registerMap (partialForward eu).registerMap ∧
      ∀ b block, eu.blocks.lookup b = some block → ∃ before, before.Bounded ∧
        ShapesIn eu.registerMap before.registerMap ∧
        (partialForward eu).blocks.lookup b = some (partialForwardBlock block before).1 ∧
        ShapesIn (partialForwardBlock block before).2.registerMap
          (partialForward eu).registerMap := by
  refine allocatingPass_spec fun b block hb allocation hbounded hdeclared => ?_
  exact forwardInstructions_before hv hb hwell List.drop_zero nofun hbounded hdeclared

theorem partialForward_none (h : eu.blocks.lookup b = none) :
    (partialForward eu).blocks.lookup b = none :=
  rewriteBlocks_none h

/-- Every register has its old shape, and the runs are alike: every load gives what it gave. -/
structure ForwardedAlike (eu : ExecutionUnit (RegionedAbsoluteAddr A))
    (model : BitModel (RegionedAbsoluteAddr A)) (memory : BitMemory (RegionedAbsoluteAddr A)) :
    Prop where
  shapes : ShapesIn eu.registerMap (partialForward eu).registerMap
  runs : RunsAlike model.machine model.machine eu (partialForward eu) memory
    (Matches eu fun _ => true)

end Run

/-- Partial forwarding is right in every run in which what is forwarded is neither stale nor held
otherwise by its object. -/
theorem partialForward_alike (eu : ExecutionUnit (RegionedAbsoluteAddr A))
    (hverified : eu.verifyResult = .ok ()) (hwell : ForwardsWell eu)
    (model : BitModel (RegionedAbsoluteAddr A)) (memory : BitMemory (RegionedAbsoluteAddr A))
    (hholds : ∀ b first, eu.Visits model.machine memory b first → HoldsForwarded eu model b first) :
    ForwardedAlike eu model memory := by
  have hv := (verifyResult_ok_iff eu).mp hverified
  obtain ⟨hshapes, hblocks⟩ := partialForward_spec hv hwell
  have hext : Extends eu (partialForward eu) := hshapes
  have hfront : ∀ b block block', eu.blocks.lookup b = some block →
      (partialForward eu).blocks.lookup b = some block' → ∀ s s' t front back,
      HoldsForwarded eu model b s → Matches eu (fun _ => true) s s' →
      block.instructions = front ++ back → eu.execList model.machine s front = some t →
      ∃ front' back' t', block'.instructions = front' ++ back' ∧ (back = [] → back' = []) ∧
        (partialForward eu).execList model.machine s' front' = some t' ∧
        Matches eu (fun _ => true) t t' := by
    intro b block block' hb hb' s s' t front back hs halike hsplit hexec
    obtain ⟨before, hbounded, hdeclared, hlookup, hafter⟩ := hblocks b block hb
    rw [hlookup] at hb'
    cases hb'
    have hinto : ShapesIn (forwardInstructions (front ++ back) (fun _ => none) before).2.registerMap
        (partialForward eu).registerMap := hsplit ▸ hafter
    obtain ⟨front', back', t', hsplit', hback, hexec', halike'⟩ := forwardInstructions_exec hv hb hext
      hwell hs (i := 0) (by rw [List.drop_zero, hsplit]) rfl hexec
      (.start hbounded hdeclared halike) hinto
    refine ⟨front', back', t', ?_, hback, hexec', halike'⟩
    rw [← hsplit', ← hsplit]
    rfl
  have halike : BlocksAlike model.machine model.machine eu (partialForward eu)
      (HoldsForwarded eu model) (Matches eu fun _ => true) := by
    refine blocksAlike_of_bodies hv hext rfl (fun b block hb => ?_) fun b => partialForward_none
    obtain ⟨before, -, -, hlookup, -⟩ := hblocks b block hb
    refine ⟨_, hlookup, rfl, rfl, fun s s' t hs hmatch hexec => ?_⟩
    obtain ⟨front', back', t', hsplit, hback, hexec', hmatch'⟩ := hfront b block _ hb hlookup s s' t
      block.instructions [] hs hmatch (List.append_nil _).symm hexec
    rw [hback rfl, List.append_nil] at hsplit
    exact ⟨t', hsplit ▸ hexec', hmatch'⟩
  refine ⟨hshapes, fun c hrun => ?_, halike.ends hholds⟩
  refine halike.reaches hholds (AList.lookup_isSome.mpr hv.entry)
    (fun b block block' hb hb' s s' t front back hs hmatch hsplit hexec => ?_) hrun
  obtain ⟨front', back', t', hsplit', -, hexec', hmatch'⟩ := hfront b block block' hb hb' s s' t
    front back hs hmatch hsplit hexec
  exact ⟨front', back', t', hsplit', hexec', hmatch'⟩

/-! ## Two units -/

def stableUnit : RegionedAbsoluteAddr Unit := ⟨STABLE_REGION, ()⟩

/-- A load, a store over its lower half, something else, and the load again. -/
def storedLoad (between : List (SIRInstruction (RegionedAbsoluteAddr Unit))) :
    ExecutionUnit (RegionedAbsoluteAddr Unit) where
  entryBlockId := 0
  blocks := [⟨0, {
    id := 0
    params := []
    instructions := [
      .imm 0 ⟨1, 0⟩,
      .imm 1 ⟨2, 0⟩,
      .load 2 stableUnit (.static 0) 8,
      .store stableUnit (.static 0) 4 0 [] []] ++ between ++
      [.load 3 stableUnit (.static 0) 8]
    terminator := .ret }⟩].toAList
  registerMap := [⟨0, .bit 4 false⟩, ⟨1, .bit 4 false⟩, ⟨2, .logic 8⟩, ⟨3, .logic 8⟩].toAList

theorem storedLoad_forwards : ForwardsWell (storedLoad []) := by
  intro b block i dst addr off width j hb hi hforwards
  obtain ⟨-, rfl⟩ := ExecutionUnit.Straight.only ⟨rfl, rfl⟩ hb
  obtain ⟨rfl, rfl, rfl, rfl, rfl⟩ : i = 4 ∧ dst = 3 ∧ addr = stableUnit ∧ off = 0 ∧ width = 8 := by
    rcases i with _ | _ | _ | _ | _ | i <;> cases hi
    · obtain ⟨base, hload⟩ := hforwards.load
      have := hforwards.lt
      obtain rfl | rfl : j = 0 ∨ j = 1 := by omega
      · cases hload
      · cases hload
    · exact ⟨rfl, rfl, rfl, rfl, rfl⟩
  have hstore : ∀ (k : Nat) inst, j < k → k < 4 → ((storedLoad []).blocks.lookup 0 |>.get rfl
      ).instructions[k]? = some inst → inst = .store stableUnit (.static 0) 4 0 [] [] := by
    obtain ⟨base, hload⟩ := hforwards.load
    obtain rfl : j = 2 := by
      rcases j with _ | _ | _ | _ | j
      · cases hload
      · cases hload
      · rfl
      · cases hload
      · exact absurd hforwards.lt (by omega)
    intro k inst hk hk' hget
    obtain rfl : k = 3 := by omega
    cases hget
    rfl
  refine ⟨⟨_, rfl, rfl⟩, ?_, ?_⟩
  · rintro bit - - ⟨k, inst, hj, hk, hget, hunseen, -⟩
    rw [hstore k inst hj hk hget] at hunseen
    exact hunseen
  · rintro start bits src ⟨k, inst, hj, hk, hget, ⟨sites, heq⟩, -⟩
    rw [hstore k inst hj hk hget] at heq
    cases heq
    exact .inl ⟨_, rfl, rfl⟩

theorem plain_holds {A : Type} [DecidableEq A] (eu : ExecutionUnit (RegionedAbsoluteAddr A))
    (b : BlockId) (first : State (RegionedAbsoluteAddr A) (BitMemory (RegionedAbsoluteAddr A))) :
    HoldsForwarded eu (.plain _) b first := by
  intro block i dst addr off width j _ _ _ bit _ _ k start bits src _ t value _ _
  rfl

/-- The lower half of the load is the stored register, the upper half the first load's. -/
theorem partialForward_alike_storedLoad :
    ForwardedAlike (storedLoad []) (.plain _) fun _ _ => (false, false) :=
  partialForward_alike (storedLoad []) (by decide) storedLoad_forwards (.plain _) _
    fun b first _ => plain_holds _ b first

/-- The same with a packed store over the lower half, which the pass does not see. -/
def stalePacked : ExecutionUnit (RegionedAbsoluteAddr Unit) :=
  storedLoad [.store stableUnit (.packedElements 0 4) 4 1 [] []]

/-- The original load gives the packed store's two, the forwarded one the one of the store before. -/
theorem stalePacked_forwarded : stalePacked.verifyResult = .ok () ∧
    ¬ ForwardedAlike stalePacked (.plain _) fun _ _ => (false, false) := by
  refine ⟨by decide, fun h => ?_⟩
  have hstraight : (partialForward stalePacked).Straight _ := ⟨rfl, rfl⟩
  obtain ⟨t, hexec, hreg⟩ : ∃ t, stalePacked.execList (BitModel.plain _).machine
      (stalePacked.start (fun _ _ => (false, false)) []).state
      ((stalePacked.blocks.lookup 0).get rfl).instructions = some t ∧ t.regs 3 = some ⟨2, 0⟩ :=
    ⟨_, rfl, by decide⟩
  obtain ⟨block', s', hb', hrun', hmatch, -⟩ := h.runs.ends 0 _ t rfl (execList_block rfl hexec)
  obtain ⟨-, rfl⟩ := hstraight.only hb'
  have hexec' := hstraight.exec hrun'
  obtain ⟨t', ht', hreg'⟩ : ∃ t', some s' = some t' ∧ t'.regs 3 = some ⟨1, 0⟩ :=
    ⟨_, hexec'.symm, by decide⟩
  cases ht'
  have hsame := hmatch.regs 3 ⟨_, rfl⟩
  rw [hreg, hreg'] at hsame
  cases hsame

end Celox.Opt
