import Celox.Data.Swaps
import Celox.Opt.SchedulingGraph
import Celox.Sir.Frames

/-! # Scheduled blocks run as before

The order of the instructions that touch each other is kept, and so are the registers, the memory
and the events. -/
namespace Celox.Opt
open Celox.Sir Celox.Graph Celox.Data

variable {A : Type}

/-! ## The order of a block -/

/-- Every register is defined once, and in front of its uses. -/
structure SsaList (l : List (SIRInstruction A)) : Prop where
  once : DefinedOnce l
  ordered : ∀ (i j : Nat) x y reg, l[i]? = some x → l[j]? = some y →
    x.definedRegister = some reg → reg ∈ y.collectUsed → i < j

theorem ssaList_iff {l : List (SIRInstruction A)} : SsaList l ↔
    ∀ i ∈ List.range l.length, ∀ j ∈ List.range l.length,
      ∀ reg ∈ l[i]?.bind SIRInstruction.definedRegister,
        (l[j]?.bind SIRInstruction.definedRegister = some reg → i = j) ∧
          (l[j]?.any (fun y => reg ∈ y.collectUsed) = true → i < j) := by
  constructor
  · intro h i _ j _ reg hreg
    obtain ⟨x, hx, hdef⟩ := Option.bind_eq_some_iff.mp hreg
    refine ⟨fun hreg' => ?_, fun huse => ?_⟩
    · obtain ⟨y, hy, hdef'⟩ := Option.bind_eq_some_iff.mp hreg'
      exact h.once i j x y reg hx hy hdef hdef'
    · obtain ⟨y, hy, huse⟩ := (Option.any_eq_true _ _).mp huse
      exact h.ordered i j x y reg hx hy hdef (of_decide_eq_true huse)
  · intro h
    have hpair : ∀ (i j : Nat) x y reg, l[i]? = some x → l[j]? = some y →
        x.definedRegister = some reg → _ := fun i j x y reg hx hy hdef =>
      h i (List.mem_range.mpr (List.getElem?_eq_some_iff.mp hx).1) j
        (List.mem_range.mpr (List.getElem?_eq_some_iff.mp hy).1) reg
        (Option.bind_eq_some_iff.mpr ⟨x, hx, hdef⟩)
    refine ⟨fun i j x y reg hx hy hdef hdef' => ?_, fun i j x y reg hx hy hdef huse => ?_⟩
    · exact (hpair i j x y reg hx hy hdef).1 (Option.bind_eq_some_iff.mpr ⟨y, hy, hdef'⟩)
    · exact (hpair i j x y reg hx hy hdef).2 ((Option.any_eq_true _ _).mpr
        ⟨y, hy, decide_eq_true huse⟩)

instance (l : List (SIRInstruction A)) : Decidable (SsaList l) :=
  decidable_of_iff _ ssaList_iff.symm

/-- The first one stays in front: a barrier is one of the two or stands between them, or the second
one depends on the first one. -/
def MustStay (l : List (SIRInstruction A)) (i j : Nat) : Prop :=
  i < j ∧ ((∃ k b, i ≤ k ∧ k ≤ j ∧ l[k]? = some b ∧ isMemoryBarrier b = true) ∨
    ∃ x y, l[i]? = some x ∧ l[j]? = some y ∧ Depends x y)

/-- The instructions of a list in another order, which keeps what has to stay. -/
def Reordered (l out : List (SIRInstruction A)) : Prop :=
  ∃ order : List Nat, order.Perm (List.range l.length) ∧ out = order.filterMap (l[·]?) ∧
    order.Pairwise fun i j => ¬ MustStay l j i

section Reorder
variable {l l' out out' : List (SIRInstruction A)} {i j : Nat}

theorem filterMap_range (l : List (SIRInstruction A)) :
    (List.range l.length).filterMap (l[·]?) = l := by
  induction l with
  | nil => rfl
  | cons x l ih =>
    rw [List.length_cons, List.range_succ_eq_map, List.filterMap_cons, List.filterMap_map]
    exact congrArg (x :: ·) ih

theorem Reordered.perm (h : Reordered l out) : out.Perm l := by
  obtain ⟨order, hperm, rfl, -⟩ := h
  conv_rhs => rw [← filterMap_range l]
  exact hperm.filterMap _

theorem Reordered.refl (l : List (SIRInstruction A)) : Reordered l l := by
  refine ⟨_, .refl _, (filterMap_range l).symm, ?_⟩
  exact List.pairwise_lt_range.imp fun hlt (hstay : MustStay l _ _) => lt_asymm hlt hstay.1

/-- Parts are reordered on their own. -/
theorem Reordered.append (h : Reordered l out) (h' : Reordered l' out') :
    Reordered (l ++ l') (out ++ out') := by
  obtain ⟨order, hperm, rfl, hkeeps⟩ := h
  obtain ⟨order', hperm', rfl, hkeeps'⟩ := h'
  have hbelow : ∀ i ∈ order, i < l.length := fun i hi => List.mem_range.mp (hperm.mem_iff.mp hi)
  refine ⟨order ++ order'.map (l.length + ·), ?_, ?_, ?_⟩
  · rw [List.length_append, List.range_add]
    exact hperm.append (hperm'.map _)
  · rw [List.filterMap_append, List.filterMap_map]
    congr 1
    · exact List.filterMap_congr fun i hi => (List.getElem?_append_left (hbelow i hi)).symm
    · refine List.filterMap_congr fun i _ => ?_
      rw [Function.comp_apply, List.getElem?_append_right (Nat.le_add_right _ _),
        Nat.add_sub_cancel_left]
  · refine List.pairwise_append.mpr ⟨?_, ?_, fun i hi j hj hstay => ?_⟩
    · refine hkeeps.imp_of_mem fun {i j} hi hj hnot hstay => hnot ⟨hstay.1, ?_⟩
      have hleft : ∀ k ≤ i, (l ++ l')[k]? = l[k]? := fun k hk =>
        List.getElem?_append_left (hk.trans_lt (hbelow i hi))
      rcases hstay.2 with ⟨k, b, hle, hle', hk, hb⟩ | ⟨x, y, hx, hy, hdep⟩
      · exact .inl ⟨k, b, hle, hle', hleft k hle' ▸ hk, hb⟩
      · exact .inr ⟨x, y, hleft j hstay.1.le ▸ hx, hleft i le_rfl ▸ hy, hdep⟩
    · refine List.pairwise_map.mpr (hkeeps'.imp fun {i j} hnot hstay => hnot ⟨?_, ?_⟩)
      · exact Nat.lt_of_add_lt_add_left hstay.1
      · have hright : ∀ k, (l ++ l')[l.length + k]? = l'[k]? := fun k => by
          rw [List.getElem?_append_right (Nat.le_add_right _ _), Nat.add_sub_cancel_left]
        rcases hstay.2 with ⟨k, b, hle, hle', hk, hb⟩ | ⟨x, y, hx, hy, hdep⟩
        · obtain ⟨k, rfl⟩ := Nat.exists_eq_add_of_le ((Nat.le_add_right _ _).trans hle)
          exact .inl ⟨k, b, Nat.le_of_add_le_add_left hle, Nat.le_of_add_le_add_left hle',
            hright k ▸ hk, hb⟩
        · exact .inr ⟨x, y, hright j ▸ hx, hright i ▸ hy, hdep⟩
    · obtain ⟨j', -, rfl⟩ := List.mem_map.mp hj
      have hlt := hbelow i hi
      have := hstay.1
      omega

end Reorder

section Schedule
variable [DecidableEq A] {l window rest : List (SIRInstruction A)}

omit [DecidableEq A] in
theorem DefinedOnce.append (h : DefinedOnce (l ++ rest)) : DefinedOnce l ∧ DefinedOnce rest := by
  refine ⟨fun i j x y reg hi hj => h i j x y reg ?_ ?_, fun i j x y reg hi hj hx hy => ?_⟩
  · rw [List.getElem?_append_left (List.getElem?_eq_some_iff.mp hi).1, hi]
  · rw [List.getElem?_append_left (List.getElem?_eq_some_iff.mp hj).1, hj]
  · have hright : ∀ k, (l ++ rest)[l.length + k]? = rest[k]? := fun k => by
      rw [List.getElem?_append_right (Nat.le_add_right _ _), Nat.add_sub_cancel_left]
    exact Nat.add_left_cancel (h _ _ x y reg ((hright i).trans hi) ((hright j).trans hj) hx hy)

theorem scheduleBlock_reordered (hsingle : DefinedOnce window)
    (hplain : ∀ inst ∈ window, isMemoryBarrier inst = false) (maxInflightLoads : Nat) :
    Reordered window (scheduleBlockInterleaved window maxInflightLoads) := by
  unfold scheduleBlockInterleaved
  split
  · exact .refl window
  · obtain ⟨hperm, hkeeps⟩ := scheduleOrder_spec hsingle maxInflightLoads
    refine ⟨_, hperm, rfl, hkeeps.imp fun hnot hstay => hnot ⟨hstay.1, ?_⟩⟩
    refine hstay.2.resolve_left ?_
    rintro ⟨k, b, -, -, hk, hb⟩
    rw [hplain b (List.mem_of_getElem? hk)] at hb
    cases hb

theorem scheduleWindows_reordered (maxInflightLoads : Nat) (hsingle : DefinedOnce (window ++ rest))
    (hplain : ∀ inst ∈ window, isMemoryBarrier inst = false) :
    Reordered (window ++ rest) (scheduleWindows maxInflightLoads window rest) := by
  induction rest generalizing window with
  | nil =>
    rw [List.append_nil] at hsingle ⊢
    exact scheduleBlock_reordered hsingle hplain maxInflightLoads
  | cons inst rest ih =>
    unfold scheduleWindows
    split
    · obtain ⟨hwindow, hrest⟩ := hsingle.append
      have htail := @ih [] (DefinedOnce.append (l := [inst]) hrest).2 nofun
      exact (scheduleBlock_reordered hwindow hplain maxInflightLoads).append
        ((Reordered.refl [inst]).append htail)
    · rename_i hbarrier
      rw [List.append_cons] at hsingle ⊢
      refine ih hsingle fun other hother => ?_
      rcases List.mem_append.mp hother with hother | hother
      · exact hplain other hother
      · rw [List.mem_singleton.mp hother]
        exact Bool.eq_false_iff.mpr hbarrier

/-- A scheduled block has its instructions in an order that keeps what has to stay. -/
theorem scheduleInstructions_reordered (hsingle : DefinedOnce l) (maxInflightLoads : Nat) :
    Reordered l (scheduleInstructions maxInflightLoads l) := by
  unfold scheduleInstructions
  split
  · exact .refl l
  · have hout : Reordered ([] ++ l) _ := scheduleWindows_reordered maxInflightLoads hsingle nofun
    have hlength := hout.perm.length_eq
    rw [List.nil_append] at hout hlength
    simp only
    rwa [List.take_of_length_le hlength.le, hlength, List.drop_length, List.append_nil]

end Schedule
end Celox.Opt

/-! ## Runs of a scheduled block

Neighbours that do not touch each other change places without a difference, and a scheduled block is
reached by such changes. What triggers see in memory is a matter of its own: a store that only
triggers looks at bits that it does not write. -/
namespace Celox.Opt
open Celox.Sir Celox.Data

variable {A E : Type}

/-! ## Signals -/

/-- A bit on which the signals of an instruction depend. A store of no bits looks at the byte that
it names. -/
def looksAt (inst : SIRInstruction A) (a : A) (bit : Nat) : Prop :=
  match inst with
  | .store addr (.static offset) 0 _ _ _ => addr = a ∧ bit / 8 = offset / 8
  | inst => inst.mayWrite a bit

/-- The triggers that fire and the capture sites that are enabled, from the memory before and behind
an instruction. Values from the start of the run are constants here. -/
structure SignalModel (A E : Type) where
  signals : SIRInstruction A → Registers → BitMemory A → BitMemory A → List E
  sees : ∀ inst regs regs' before before' after after',
    (∀ reg ∈ inst.uses, regs' reg = regs reg) →
    (∀ a bit, looksAt inst a bit → before' a bit = before a bit ∧ after' a bit = after a bit) →
    signals inst regs' before' after' = signals inst regs before after

/-- The signals of the instructions of a list. -/
def signalled (m : Machine A (BitMemory A)) (model : SignalModel A E) (eu : ExecutionUnit A) :
    State A (BitMemory A) → List (SIRInstruction A) → List E
  | _, [] => []
  | s, inst :: rest =>
    match eu.execInstruction m s inst with
    | none => []
    | some t => model.signals inst s.regs s.memory t.memory ++ signalled m model eu t rest

/-! ## Neighbours that change places -/

/-- Effects of barriers: everything but stores. -/
def isEvent : Effect A → Bool
  | .store .. | .trigger .. => false
  | _ => true

/-- States behind the same instructions in another order. -/
structure SameRun (s s' : State A (BitMemory A)) : Prop where
  regs : s'.regs = s.regs
  memory : s'.memory = s.memory
  events : s'.trace.filter isEvent = s.trace.filter isEvent
  trace : s'.trace.Perm s.trace

/-- Instructions that do not touch what the other one does. -/
structure Independent (x y : SIRInstruction A) : Prop where
  plain : isMemoryBarrier x = false ∧ isMemoryBarrier y = false
  definitions : ∀ reg, x.definedRegister = some reg → y.definedRegister ≠ some reg
  operands : ∀ reg, x.definedRegister = some reg → reg ∉ y.uses
  operands' : ∀ reg, y.definedRegister = some reg → reg ∉ x.uses
  write : ∀ a bit, x.mayWrite a bit → ¬ y.mayRead a bit ∧ ¬ y.mayWrite a bit
  read : ∀ a bit, x.mayRead a bit → ¬ y.mayWrite a bit

/-- Neither looks at what the other one writes. -/
structure Unseen (x y : SIRInstruction A) : Prop where
  first : ∀ a bit, looksAt x a bit → ¬ y.mayWrite a bit
  second : ∀ a bit, looksAt y a bit → ¬ x.mayWrite a bit

section Neighbours
variable [DecidableEq A] {model : BitModel A} {eu : ExecutionUnit A} {x y : SIRInstruction A}
  {s s' t u : State A (BitMemory A)} {inst : SIRInstruction A}

omit [DecidableEq A] in
theorem SameRun.refl (s : State A (BitMemory A)) : SameRun s s := ⟨rfl, rfl, rfl, .refl _⟩

omit [DecidableEq A] in
theorem SameRun.trans {s'' : State A (BitMemory A)} (h : SameRun s s') (h' : SameRun s' s'') :
    SameRun s s'' :=
  ⟨h'.regs.trans h.regs, h'.memory.trans h.memory, h'.events.trans h.events, h'.trace.trans h.trace⟩

theorem SameRun.exec (h : SameRun s s') (hexec : eu.execInstruction model.machine s inst = some t) :
    ∃ t', eu.execInstruction model.machine s' inst = some t' ∧ SameRun t t' := by
  cases hdef : inst.definedRegister with
  | some dst =>
    rw [execInstruction_value hdef, Option.map_eq_some_iff] at hexec
    obtain ⟨value, hvalue, rfl⟩ := hexec
    refine ⟨eu.assign s' dst value, ?_, ?_, h.memory, h.events, h.trace⟩
    · rw [execInstruction_value hdef, h.regs, h.memory, hvalue]
      rfl
    · simp only [ExecutionUnit.assign, h.regs]
  | none =>
    rw [execInstruction_effect hdef, Option.map_eq_some_iff] at hexec
    obtain ⟨effect, heffect, rfl⟩ := hexec
    refine ⟨s'.perform model.machine effect, ?_, h.regs, ?_, ?_, ?_⟩
    · rw [execInstruction_effect hdef, h.regs, heffect]
      rfl
    · exact congrArg (model.machine.perform · effect) h.memory
    · simp only [State.perform, List.filter_append, h.events]
    · exact h.trace.append_right _

omit [DecidableEq A] in
/-- Only stores have an effect without being barriers. -/
theorem effect_of_plain {regs : Registers} {effect : Effect A} (hplain : isMemoryBarrier inst = false)
    (h : inst.effect regs = some effect) : isEvent effect = false := by
  cases inst with
  | store addr offset bits src triggers sites =>
    simp only [SIRInstruction.effect] at h
    split at h
    · cases h
      rfl
    · simp only [Option.bind_eq_bind, Option.bind_eq_some_iff, Option.pure_def] at h
      obtain ⟨_, -, _, -, ⟨⟩⟩ := h
      rfl
  | commit | runtimeEvent | combCaptureEvent | combCaptureEnableIfChanged => cases hplain
  | _ => cases h

omit [DecidableEq A] in
theorem assign_uses {dst : RegisterId} (value : SIRValue) (hdst : dst ∉ inst.uses) :
    ∀ reg ∈ inst.uses, (eu.assign s dst value).regs reg = s.regs reg := by
  intro reg hreg
  refine Function.update_of_ne ?_ _ _
  rintro rfl
  exact hdst hreg

/-- The effects of independent instructions change places. -/
theorem perform_comm (model : BitModel A) (h : Independent x y) {regs regs' : Registers}
    {first second : Effect A} (hx : x.effect regs = some first) (hy : y.effect regs' = some second)
    (memory : BitMemory A) : model.perform (model.perform memory first) second =
      model.perform (model.perform memory second) first := by
  funext a bit
  by_cases hwrite : x.mayWrite a bit
  · have hbehind : model.perform (model.perform memory first) second a bit =
        model.perform memory first a bit := perform_frame hy (h.write a bit hwrite).2
    rw [hbehind]
    refine (perform_agree model (Q := fun a' bit' => a' = a ∧ bit' = bit) hx
      (fun a' bit' hor => perform_frame hy ?_) a bit ⟨rfl, rfl⟩).symm
    rcases hor with hread | ⟨⟨rfl, rfl⟩, -⟩
    · exact h.read a' bit' hread
    · exact (h.write a' bit' hwrite).2
  · have hbehind : model.perform (model.perform memory second) first a bit =
        model.perform memory second a bit := perform_frame hx hwrite
    rw [hbehind]
    refine perform_agree model (Q := fun a' bit' => a' = a ∧ bit' = bit) hy
      (fun a' bit' hor => perform_frame hx ?_) a bit ⟨rfl, rfl⟩
    rcases hor with hread | ⟨⟨rfl, rfl⟩, -⟩
    · exact fun hwrite' => (h.write a' bit' hwrite').1 hread
    · exact hwrite

/-- Two instructions may change places. -/
theorem exec_swap (h : Independent x y) (hx : eu.execInstruction model.machine s x = some t)
    (hy : eu.execInstruction model.machine t y = some u) :
    ∃ t' u', eu.execInstruction model.machine s y = some t' ∧
      eu.execInstruction model.machine t' x = some u' ∧ SameRun u u' := by
  cases hxdef : x.definedRegister with
  | some dst =>
    rw [execInstruction_value hxdef, Option.map_eq_some_iff] at hx
    obtain ⟨value, hvalue, rfl⟩ := hx
    have huses : ∀ reg ∈ y.uses, (eu.assign s dst value).regs reg = s.regs reg :=
      assign_uses value (h.operands dst hxdef)
    cases hydef : y.definedRegister with
    | some dst' =>
      rw [execInstruction_value hydef, Option.map_eq_some_iff] at hy
      obtain ⟨value', hvalue', rfl⟩ := hy
      have huses' : ∀ reg ∈ x.uses, (eu.assign s dst' value').regs reg = s.regs reg :=
        assign_uses value' (h.operands' dst' hydef)
      have hne : dst' ≠ dst := fun heq => h.definitions dst hxdef (heq ▸ hydef)
      refine ⟨eu.assign s dst' value', eu.assign (eu.assign s dst' value') dst value, ?_, ?_,
        Function.update_comm hne _ _ _, rfl, rfl, .refl _⟩
      · rw [value_uses huses] at hvalue'
        rw [execInstruction_value hydef, show (eu.assign s dst value).memory = s.memory from rfl]
          at *
        rw [hvalue']
        rfl
      · rw [execInstruction_value hxdef, value_uses huses']
        exact congrArg (Option.map _) hvalue
    | none =>
      rw [execInstruction_effect hydef, effect_uses huses, Option.map_eq_some_iff] at hy
      obtain ⟨effect, heffect, rfl⟩ := hy
      refine ⟨s.perform model.machine effect, eu.assign (s.perform model.machine effect) dst value,
        ?_, ?_, rfl, rfl, rfl, .refl _⟩
      · rw [execInstruction_effect hydef, heffect]
        rfl
      · have hsame : eu.value model.machine s.regs (s.perform model.machine effect).memory x =
            eu.value model.machine s.regs s.memory x :=
          value_congr fun a bit hread => perform_frame heffect (h.read a bit hread)
        rw [execInstruction_value hxdef]
        exact congrArg (Option.map _) (hsame.trans hvalue)
  | none =>
    rw [execInstruction_effect hxdef, Option.map_eq_some_iff] at hx
    obtain ⟨effect, heffect, rfl⟩ := hx
    cases hydef : y.definedRegister with
    | some dst' =>
      rw [execInstruction_value hydef, Option.map_eq_some_iff] at hy
      obtain ⟨value', hvalue', rfl⟩ := hy
      have hsame : eu.value model.machine s.regs (s.perform model.machine effect).memory y =
          eu.value model.machine s.regs s.memory y :=
        value_congr fun a bit hread => perform_frame heffect fun hwrite =>
          (h.write a bit hwrite).1 hread
      have huses' : ∀ reg ∈ x.uses, (eu.assign s dst' value').regs reg = s.regs reg :=
        assign_uses value' (h.operands' dst' hydef)
      refine ⟨eu.assign s dst' value', (eu.assign s dst' value').perform model.machine effect, ?_,
        ?_, rfl, rfl, rfl, .refl _⟩
      · rw [execInstruction_value hydef, hsame.symm.trans hvalue']
        rfl
      · rw [execInstruction_effect hxdef, effect_uses huses', heffect]
        rfl
    | none =>
      rw [execInstruction_effect hydef, Option.map_eq_some_iff] at hy
      obtain ⟨effect', heffect', rfl⟩ := hy
      refine ⟨s.perform model.machine effect',
        (s.perform model.machine effect').perform model.machine effect, ?_, ?_, rfl,
        (perform_comm model h heffect heffect' s.memory).symm, ?_, ?_⟩
      · rw [execInstruction_effect hydef]
        exact congrArg (Option.map _) heffect'
      · rw [execInstruction_effect hxdef]
        exact congrArg (Option.map _) heffect
      · have hfirst := effect_of_plain h.plain.1 heffect
        have hsecond := effect_of_plain h.plain.2 heffect'
        simp only [State.perform, List.filter_append, List.filter_singleton, hfirst, hsecond,
          cond_false, List.append_nil]
      · simp only [State.perform, List.append_assoc]
        exact (List.Perm.swap _ _ _).append_left _

/-! ## Runs -/

variable {l l' : List (SIRInstruction A)} {signal : SignalModel A E}

theorem SameRun.list (h : SameRun s s') (hexec : eu.execList model.machine s l = some t) :
    ∃ t', eu.execList model.machine s' l = some t' ∧ SameRun t t' := by
  induction l generalizing s s' with
  | nil =>
    cases hexec
    exact ⟨s', rfl, h⟩
  | cons inst l ih =>
    obtain ⟨u, hu, hrest⟩ := Option.bind_eq_some_iff.mp hexec
    obtain ⟨u', hu', hsame⟩ := h.exec hu
    obtain ⟨t', ht', hend⟩ := ih hsame hrest
    exact ⟨t', by rw [ExecutionUnit.execList, hu', Option.bind_some, ht'], hend⟩

/-- Swaps of independent neighbours lead to the same state. -/
theorem swaps_exec (h : Swaps Independent l l') (hsame : SameRun s s')
    (hexec : eu.execList model.machine s l = some t) :
    ∃ t', eu.execList model.machine s' l' = some t' ∧ SameRun t t' := by
  induction h generalizing s s' t with
  | refl => exact hsame.list hexec
  | cons x _ ih =>
    obtain ⟨u, hu, hrest⟩ := Option.bind_eq_some_iff.mp hexec
    obtain ⟨u', hu', hsame'⟩ := hsame.exec hu
    obtain ⟨t', ht', hend⟩ := ih hsame' hrest
    exact ⟨t', by rw [ExecutionUnit.execList, hu', Option.bind_some, ht'], hend⟩
  | swap l hindependent =>
    obtain ⟨u, hu, hexec⟩ := Option.bind_eq_some_iff.mp hexec
    obtain ⟨v, hv, hrest⟩ := Option.bind_eq_some_iff.mp hexec
    obtain ⟨u₁, v₁, hu₁, hv₁, hswapped⟩ := exec_swap hindependent hu hv
    obtain ⟨u₂, hu₂, hfirst⟩ := hsame.exec hu₁
    obtain ⟨v₂, hv₂, hsecond⟩ := hfirst.exec hv₁
    obtain ⟨t', ht', hend⟩ := (hswapped.trans hsecond).list hrest
    exact ⟨t', by simp only [ExecutionUnit.execList, hu₂, hv₂, Option.bind_some, ht'], hend⟩
  | trans _ _ ih ih' =>
    obtain ⟨u, hu, hfirst⟩ := ih hsame hexec
    obtain ⟨t', ht', hsecond⟩ := ih' (.refl s') hu
    exact ⟨t', ht', hfirst.trans hsecond⟩

theorem signalled_cons (hexec : eu.execInstruction model.machine s inst = some t) :
    signalled model.machine signal eu s (inst :: l) =
      signal.signals inst s.regs s.memory t.memory ++ signalled model.machine signal eu t l := by
  simp only [signalled, hexec]

theorem SameRun.signalled (h : SameRun s s') (hexec : eu.execList model.machine s l = some t) :
    signalled model.machine signal eu s' l = signalled model.machine signal eu s l := by
  induction l generalizing s s' with
  | nil => rfl
  | cons inst l ih =>
    obtain ⟨u, hu, hrest⟩ := Option.bind_eq_some_iff.mp hexec
    obtain ⟨u', hu', hsame⟩ := h.exec hu
    rw [signalled_cons hu, signalled_cons hu', ih hsame hrest, h.regs, h.memory, hsame.memory]

/-- Neighbours that change places signal what they did if they do not look at each other. -/
theorem signals_swap (signal : SignalModel A E) (h : Independent x y) (hunseen : Unseen x y)
    (hx : eu.execInstruction model.machine s x = some t)
    (hy : eu.execInstruction model.machine t y = some u) {t' u' : State A (BitMemory A)}
    (hy' : eu.execInstruction model.machine s y = some t')
    (hx' : eu.execInstruction model.machine t' x = some u') (hsame : SameRun u u') :
    signal.signals y s.regs s.memory t'.memory = signal.signals y t.regs t.memory u.memory ∧
      signal.signals x t'.regs t'.memory u'.memory = signal.signals x s.regs s.memory t.memory := by
  refine ⟨signal.sees y _ _ _ _ _ _ (fun reg hreg => ?_) fun a bit hlook => ⟨?_, ?_⟩,
    signal.sees x _ _ _ _ _ _ (fun reg hreg => ?_) fun a bit hlook => ⟨?_, ?_⟩⟩
  · exact (execInstruction_frame hx fun hdef => h.operands reg hdef hreg).symm
  · exact (exec_memory hx (hunseen.second a bit hlook)).symm
  · rw [← hsame.memory]
    exact (exec_memory hx' (hunseen.second a bit hlook)).symm
  · exact execInstruction_frame hy' fun hdef => h.operands' reg hdef hreg
  · exact exec_memory hy' (hunseen.first a bit hlook)
  · rw [hsame.memory]
    exact exec_memory hy (hunseen.first a bit hlook)

theorem swaps_signalled (h : Swaps (fun x y => Independent x y ∧ Unseen x y) l l')
    (hsame : SameRun s s') (hexec : eu.execList model.machine s l = some t) :
    (signalled model.machine signal eu s' l').Perm (signalled model.machine signal eu s l) := by
  induction h generalizing s s' t with
  | refl => rw [hsame.signalled hexec]
  | cons x _ ih =>
    obtain ⟨u, hu, hrest⟩ := Option.bind_eq_some_iff.mp hexec
    obtain ⟨u', hu', hsame'⟩ := hsame.exec hu
    rw [signalled_cons hu, signalled_cons hu', hsame.regs, hsame.memory, hsame'.memory]
    exact (ih hsame' hrest).append_left _
  | @swap x y l hmay =>
    obtain ⟨u, hu, hexec⟩ := Option.bind_eq_some_iff.mp hexec
    obtain ⟨v, hv, hrest⟩ := Option.bind_eq_some_iff.mp hexec
    obtain ⟨u₁, v₁, hu₁, hv₁, hswapped⟩ := exec_swap hmay.1 hu hv
    obtain ⟨hy, hx⟩ := signals_swap signal hmay.1 hmay.2 hu hv hu₁ hv₁ hswapped
    have hlist : eu.execList model.machine s (y :: x :: l) = eu.execList model.machine v₁ l := by
      simp only [ExecutionUnit.execList, hu₁, hv₁, Option.bind_some]
    obtain ⟨t₁, ht₁, -⟩ := hswapped.list hrest
    rw [hsame.signalled (hlist.trans ht₁), signalled_cons hu₁, signalled_cons hv₁,
      signalled_cons hu, signalled_cons hv, hy, hx, hswapped.signalled hrest, ← List.append_assoc,
      ← List.append_assoc]
    exact List.perm_append_comm.append_right _
  | trans h _ ih ih' =>
    obtain ⟨u, hu, -⟩ := swaps_exec (Swaps.mono (fun _ _ => And.left) h) hsame hexec
    exact (ih' (.refl s') hu).trans (ih hsame hexec)

end Neighbours

/-! ## Instructions that need not stay -/

section Stay
variable {l : List (SIRInstruction A)} {x y inst : SIRInstruction A} {i j : Nat} {a : A} {bit : Nat}

/-- An access to a bit, as the scheduler sees it. -/
theorem access_of_touch (hplain : isMemoryBarrier inst = false) (isWrite : Bool)
    (h : if isWrite then inst.mayWrite a bit else inst.mayRead a bit) :
    ∃ info, memAccessInfo inst = some info ∧ info.addr = a ∧ info.isWrite = isWrite ∧
      ∀ start, info.offset = some start → start ≤ bit ∧ bit < start + info.width := by
  have hreach : ∀ (offset : SIROffset) bits, offset.reaches bits bit →
      ∀ start, offset.constantBitOffset = some start → start ≤ bit ∧ bit < start + bits := by
    intro offset bits hreaches start hstart
    cases offset <;> cases hstart <;> exact hreaches
  cases isWrite with
  | true =>
    cases inst with
    | store addr offset bits => exact ⟨_, rfl, h.1, rfl, hreach offset bits h.2⟩
    | commit => cases hplain
    | _ => exact h.elim
  | false =>
    cases inst with
    | load dst addr offset bits => exact ⟨_, rfl, h.1, rfl, hreach offset bits h.2⟩
    | commit => cases hplain
    | _ => exact h.elim

theorem depends_of_touch (hx : isMemoryBarrier x = false) (hy : isMemoryBarrier y = false)
    (writesFirst writesSecond : Bool) (hwrite : writesFirst = true ∨ writesSecond = true)
    (h : if writesFirst then x.mayWrite a bit else x.mayRead a bit)
    (h' : if writesSecond then y.mayWrite a bit else y.mayRead a bit) : Depends x y := by
  obtain ⟨info, hinfo, haddr, hkind, hin⟩ := access_of_touch hx writesFirst h
  obtain ⟨info', hinfo', haddr', hkind', hin'⟩ := access_of_touch hy writesSecond h'
  refine .inr ⟨info, info', hinfo, hinfo', haddr.trans haddr'.symm, ?_, ?_⟩
  · rwa [hkind, hkind']
  · unfold rangesAlias
    split
    · rename_i start start' hstart hstart'
      have := hin start hstart
      have := hin' start' hstart'
      rw [Bool.and_eq_true, decide_eq_true_eq, decide_eq_true_eq]
      omega
    · rfl

/-- What need not stay is independent. -/
theorem independent_of_free (hssa : SsaList l) (hlt : i < j) (hx : l[i]? = some x)
    (hy : l[j]? = some y) (hfree : ¬ MustStay l i j) : Independent x y := by
  have hbarrier : ∀ k b, i ≤ k → k ≤ j → l[k]? = some b → isMemoryBarrier b = false :=
    fun k b hle hle' hk => Bool.eq_false_iff.mpr fun hb =>
      hfree ⟨hlt, .inl ⟨k, b, hle, hle', hk, hb⟩⟩
  have hxplain := hbarrier i x le_rfl hlt.le hx
  have hyplain := hbarrier j y hlt.le le_rfl hy
  have hdepends : ¬ Depends x y := fun h => hfree ⟨hlt, .inr ⟨x, y, hx, hy, h⟩⟩
  refine ⟨⟨hxplain, hyplain⟩, fun reg hdef hdef' => ?_, fun reg hdef huse => ?_,
    fun reg hdef huse => ?_, fun a bit hwrite => ⟨fun hread => ?_, fun hwrite' => ?_⟩,
    fun a bit hread hwrite => ?_⟩
  · exact hlt.ne (hssa.once i j x y reg hx hy hdef hdef')
  · exact hdepends (.inl ⟨reg, hdef, y.uses_subset huse⟩)
  · exact hlt.not_gt (hssa.ordered j i y x reg hy hx hdef (x.uses_subset huse))
  · exact hdepends (depends_of_touch hxplain hyplain true false (.inl rfl) hwrite hread)
  · exact hdepends (depends_of_touch hxplain hyplain true true (.inl rfl) hwrite hwrite')
  · exact hdepends (depends_of_touch hxplain hyplain false true (.inr rfl) hread hwrite)

end Stay

/-! ## Blocks -/

/-- Instructions of which one looks at what the other one writes have to stay. -/
def SignalsOrdered (l : List (SIRInstruction A)) : Prop :=
  ∀ (i j : Nat) x y, i < j → l[i]? = some x → l[j]? = some y → ¬ MustStay l i j → Unseen x y

/-- The same registers, memory, events and signals, wherever the list is executed. -/
def ScheduledAlike [DecidableEq A] (l l' : List (SIRInstruction A)) : Prop :=
  ∀ (E : Type) (signal : SignalModel A E) (model : BitModel A) (eu : ExecutionUnit A)
    (s t : State A (BitMemory A)), eu.execList model.machine s l = some t →
    ∃ t', eu.execList model.machine s l' = some t' ∧ SameRun t t' ∧
      (signalled model.machine signal eu s l').Perm (signalled model.machine signal eu s l)

section Blocks
variable [DecidableEq A] {l out : List (SIRInstruction A)}

omit [DecidableEq A] in
/-- Another order that keeps what has to stay is reached by swaps of what need not. -/
theorem Reordered.swaps (h : Reordered l out) : Swaps (fun x y => ∃ i j : Nat, i < j ∧
    l[i]? = some x ∧ l[j]? = some y ∧ ¬ MustStay l i j) l out := by
  obtain ⟨order, hperm, rfl, hkeeps⟩ := h
  have hswaps := Swaps.of_pairwise hperm.symm List.pairwise_lt_range hkeeps
  have himages : Swaps (fun x y => ∃ i j : Nat, i < j ∧ l[i]? = some x ∧ l[j]? = some y ∧
      ¬ MustStay l i j) ((List.range l.length).filterMap (l[·]?)) (order.filterMap (l[·]?)) :=
    hswaps.filterMap fun i j hfree x y hx hy => ⟨i, j, hfree.1, hx, hy, hfree.2⟩
  rwa [filterMap_range] at himages

theorem Reordered.exec (h : Reordered l out) (hssa : SsaList l) {model : BitModel A}
    {eu : ExecutionUnit A} {s t : State A (BitMemory A)}
    (hexec : eu.execList model.machine s l = some t) :
    ∃ t', eu.execList model.machine s out = some t' ∧ SameRun t t' := by
  refine swaps_exec (h.swaps.mono ?_) (.refl s) hexec
  rintro x y ⟨i, j, hlt, hx, hy, hfree⟩
  exact independent_of_free hssa hlt hx hy hfree

theorem Reordered.alike (h : Reordered l out) (hssa : SsaList l) (hsignals : SignalsOrdered l) :
    ScheduledAlike l out := by
  intro E signal model eu s t hexec
  obtain ⟨t', hexec', hsame⟩ := h.exec hssa hexec
  refine ⟨t', hexec', hsame, swaps_signalled (h.swaps.mono ?_) (.refl s) hexec⟩
  rintro x y ⟨i, j, hlt, hx, hy, hfree⟩
  exact ⟨independent_of_free hssa hlt hx hy hfree, hsignals i j x y hlt hx hy hfree⟩

end Blocks

/-! ## Blocks with stores that only trigger -/

def clock : Nat := 0

/-- A trigger that fires if its bit is set behind the store. -/
def setSignals : SignalModel Nat TriggerIdWithKind where
  signals inst _ _ after := match inst with
    | .store addr (.static offset) 0 _ triggers _ => if (after addr offset).1 then triggers else []
    | _ => []
  sees inst regs regs' before before' after after' _ hlook := by
    cases inst with
    | store addr offset bits =>
      cases offset with
      | static offset =>
        cases bits with
        | zero => simp only [(hlook addr offset ⟨rfl, rfl⟩).2]
        | succ => rfl
      | _ => rfl
    | _ => rfl

/-- The clock is stored and then looked at. -/
def storedClock : List (SIRInstruction Nat) :=
  [.imm 0 ⟨1, 0⟩, .unary 1 .ident 0, .store clock (.static 0) 1 1 [] [],
    .store clock (.static 0) 0 0 [⟨.clockPosedge, 0⟩] []]

def clockUnit : ExecutionUnit Nat where
  entryBlockId := 0
  blocks := [⟨0, ⟨0, [], storedClock, .ret⟩⟩].toAList
  registerMap := [⟨0, .bit 1 false⟩, ⟨1, .bit 1 false⟩].toAList

/-- The input is loaded, and the clock stored. -/
def loadedInput : List (SIRInstruction Nat) :=
  [.imm 0 ⟨1, 0⟩, .load 1 1 (.static 0) 1, .unary 2 .ident 1,
    .store clock (.static 0) 1 0 [⟨.clockPosedge, 0⟩] []]

example : scheduleInstructions 8 loadedInput =
    [.load 1 1 (.static 0) 1, .imm 0 ⟨1, 0⟩, .store clock (.static 0) 1 0 [⟨.clockPosedge, 0⟩] [],
      .unary 2 .ident 1] := by decide +kernel

theorem loadedInput_signalsOrdered : SignalsOrdered loadedInput := by
  intro i j x y hlt hx hy _
  -- only the last one writes
  have hj : j < 4 := (List.getElem?_eq_some_iff.mp hy).1
  have hmem : x ∈ loadedInput.take 3 :=
    List.mem_iff_getElem?.mpr ⟨i, by rw [List.getElem?_take_of_lt (by omega), hx]⟩
  rw [show loadedInput.take 3 = [_, _, _] from rfl] at hmem
  simp only [List.mem_cons, List.not_mem_nil, or_false] at hmem
  rcases hmem with rfl | rfl | rfl <;> exact ⟨fun _ _ h => h.elim, fun _ _ _ h => h⟩

end Celox.Opt
