import Celox.Runtime.Commit

/-! # The timeline of a simulation

Registered clocks and one-shot events share one queue. A run of the facade of
`celox/src/simulation.rs` is a list of calls; the timeline beside it records the
times the simulation went through and the events it applied, each with the time
of the step that applied it. -/
namespace Celox.Runtime

variable {σ Addr Sig Ev ε : Type}

section Calls
variable [LinearOrder Sig] [EventHandle Ev]

/-- `SimulationState::add_clock`; the clock table grows to hold the event's id. -/
def SimulationState.addClock (st : SimulationState Sig Ev) (event : Ev) (signal : Sig)
    (period initialDelay : Nat) : SimulationState Sig Ev :=
  let id := EventHandle.id event
  let clocks := st.scheduler.clocks ++ List.replicate (id + 1 - st.scheduler.clocks.length) none
  { st with
    scheduler := { st.scheduler with clocks := clocks.set id (some ⟨period⟩) }.push
      ⟨initialDelay, event, signal, 1⟩ }

/-- `SimulationState::schedule`. -/
def SimulationState.schedule (st : SimulationState Sig Ev) (event : Ev) (signal : Sig) (time : Nat)
    (value : UInt8) : SimulationState Sig Ev :=
  { st with scheduler := st.scheduler.push ⟨time, event, signal, value⟩ }

/-- A simulation and what it did so far: the values its time took and the events
it applied, with the time of the step. -/
structure Timeline (σ Sig Ev : Type) where
  simulator : σ
  state : SimulationState Sig Ev
  times : List Nat
  applied : List (Nat × SimEvent Sig Ev)

namespace Timeline

def time (tl : Timeline σ Sig Ev) : Nat := tl.state.scheduler.time

def queue (tl : Timeline σ Sig Ev) : List (SimEvent Sig Ev) := tl.state.scheduler.eventQueue.items

def clocks (tl : Timeline σ Sig Ev) : List (Option ClockDef) := tl.state.scheduler.clocks

/-- The events the next step takes. -/
def due (tl : Timeline σ Sig Ev) : List (SimEvent Sig Ev) :=
  (tl.state.scheduler.popAllAtNextTime.map (·.2.1)).getD []

/-- `Simulation::step`. -/
def step (x : Executor σ Sig Ev ε) (tl : Timeline σ Sig Ev) : Except (Fault ε) (Timeline σ Sig Ev) :=
  match tl.state.step x tl.simulator with
  | (state, .ok (some t) simulator) =>
    .ok ⟨simulator, state, tl.times ++ [t], tl.applied ++ tl.due.map fun e => (t, e)⟩
  | (state, .ok none simulator) => .ok { tl with simulator, state }
  | (_, .error e _) => .error e

/-- The loop of `Simulation::run_until`. -/
def runUntilLoop (x : Executor σ Sig Ev ε) (endTime : Nat) :
    Nat → Timeline σ Sig Ev → Except (Fault ε) (Timeline σ Sig Ev)
  | 0, _ => .error .outOfFuel
  | fuel + 1, tl =>
    match tl.state.scheduler.nextEventTime with
    | none => .ok tl
    | some nextTime =>
      if nextTime > endTime then .ok tl
      else (tl.step x).bind (runUntilLoop x endTime fuel)

/-- `Simulation::run_until`, without the waveform dump at its end. Every pass takes
all events of one time, so the loop is over after the passes up to `endTime`. -/
def runUntil (x : Executor σ Sig Ev ε) (endTime : Nat) (tl : Timeline σ Sig Ev) :
    Except (Fault ε) (Timeline σ Sig Ev) := do
  let tl ← runUntilLoop x endTime (endTime + 2) tl
  return { tl with
    state := { tl.state with scheduler := { tl.state.scheduler with time := endTime } }
    times := tl.times ++ [endTime] }

end Timeline

/-- A call of the facade. Ports are given by their address. -/
inductive SimulationCall (Addr : Type) where
  | addClock (port : Addr) (period initialDelay : Nat)
  | schedule (port : Addr) (time value : Nat)
  | step
  | runUntil (endTime : Nat)
  deriving Repr, DecidableEq

/-- One call. `add_clock` on a port without an event does nothing, `schedule` on one
returns `NotAnEvent` and changes nothing. -/
def Timeline.exec (x : Executor σ Sig Ev ε) (T : EventTables Addr Sig Ev)
    (tl : Timeline σ Sig Ev) : SimulationCall Addr → Except (Fault ε) (Timeline σ Sig Ev)
  | .addClock port period initialDelay =>
    match T.resolveEventOpt port with
    | some ev =>
      .ok { tl with state := tl.state.addClock ev (T.resolveSignal port) period initialDelay }
    | none => .ok tl
  | .schedule port time value =>
    match T.resolveEventOpt port with
    | some ev =>
      .ok { tl with
        state := tl.state.schedule ev (T.resolveSignal port) time (UInt8.ofNat value) }
    | none => .ok tl
  | .step => tl.step x
  | .runUntil endTime => tl.runUntil x endTime

def Timeline.run (x : Executor σ Sig Ev ε) (T : EventTables Addr Sig Ev) :
    List (SimulationCall Addr) → Timeline σ Sig Ev → Except (Fault ε) (Timeline σ Sig Ev)
  | [], tl => .ok tl
  | call :: rest, tl => (tl.exec x T call).bind (Timeline.run x T rest)

end Calls

/-! ## Clocks -/

/-- A registered clock. -/
structure Clock (Sig Ev : Type) where
  event : Ev
  signal : Sig
  period : Nat
  initialDelay : Nat

namespace Clock

/-- The `k`-th edge of a clock: they alternate, starting with a rising one. -/
def edge (c : Clock Sig Ev) (k : Nat) : SimEvent Sig Ev :=
  ⟨c.initialDelay + k * (c.period / 2), c.event, c.signal, if k % 2 = 0 then 1 else 0⟩

/-- The edges before the `k`-th. -/
def edges (c : Clock Sig Ev) (k : Nat) : List (SimEvent Sig Ev) := (List.range k).map c.edge

/-- The edge of a clock at one time, if it has one then. -/
def edgeAt (c : Clock Sig Ev) (tm : Nat) : Option (SimEvent Sig Ev) :=
  if c.initialDelay ≤ tm ∧ (tm - c.initialDelay) % (c.period / 2) = 0 then
    some (c.edge ((tm - c.initialDelay) / (c.period / 2)))
  else none

theorem edges_succ (c : Clock Sig Ev) (k : Nat) : c.edges (k + 1) = c.edges k ++ [c.edge k] := by
  simp [edges, List.range_succ]

theorem edge_time (c : Clock Sig Ev) (k : Nat) :
    (c.edge k).time = c.initialDelay + k * (c.period / 2) := rfl

/-- The edges before one that is later than `tm` hold the edge at `tm`. -/
theorem edges_at {c : Clock Sig Ev} (hp : 2 ≤ c.period) {tm : Nat} : ∀ {k : Nat},
    tm < (c.edge k).time → (c.edges k).filter (fun e => e.time = tm) = (c.edgeAt tm).toList
  | 0, h => by
    rw [edge_time] at h
    simp [edges, edgeAt]
    omega
  | k + 1, h => by
    have hh : 0 < c.period / 2 := by omega
    rw [edge_time, Nat.add_mul, Nat.one_mul] at h
    rw [edges_succ, List.filter_append]
    by_cases hk : tm < (c.edge k).time
    · rw [edges_at hp hk]
      have : ¬ (c.edge k).time = tm := by omega
      simp [this]
    · -- no edge before the `k`-th is as late as `tm`
      rw [edge_time] at hk
      have hnone : (c.edges k).filter (fun e => e.time = tm) = [] := by
        simp only [edges, List.filter_eq_nil_iff, List.mem_map, List.mem_range,
          decide_eq_true_eq]
        rintro _ ⟨i, hi, rfl⟩
        have : (i + 1) * (c.period / 2) ≤ k * (c.period / 2) := Nat.mul_le_mul_right _ hi
        rw [Nat.add_mul, Nat.one_mul] at this
        rw [edge_time]
        omega
      obtain ⟨r, hr⟩ : ∃ r, tm = c.initialDelay + k * (c.period / 2) + r := ⟨tm - (c.initialDelay + k * (c.period / 2)), by omega⟩
      have hlt : r < c.period / 2 := by omega
      have hsub : tm - c.initialDelay = r + k * (c.period / 2) := by omega
      have hmod : (tm - c.initialDelay) % (c.period / 2) = r := by
        rw [hsub, Nat.add_mul_mod_self_right, Nat.mod_eq_of_lt hlt]
      have hdiv : (tm - c.initialDelay) / (c.period / 2) = k := by
        rw [hsub, Nat.add_mul_div_right _ _ hh, Nat.div_eq_of_lt hlt, Nat.zero_add]
      rw [hnone, edgeAt, hmod, hdiv]
      have hdelay : c.initialDelay ≤ tm := by omega
      by_cases hr0 : r = 0
      · have : (c.edge k).time = tm := by rw [edge_time]; omega
        simp [this, hr0, hdelay]
      · have : ¬ (c.edge k).time = tm := by rw [edge_time]; omega
        simp [this, hr0]

end Clock

/-! ## What a step takes from the queue and puts back -/

/-- In a queue where nothing is due earlier, the batch at `tm` is all that is due then. -/
theorem popAt_eq_filter {tm : Nat} : ∀ {l : List (SimEvent Sig Ev)},
    l.Pairwise (fun a b => a.time ≤ b.time) → (∀ e ∈ l, tm ≤ e.time) →
      (Scheduler.popAt tm l).1 = l.filter (fun e => e.time = tm) ∧
      (Scheduler.popAt tm l).2 = l.filter (fun e => ¬ e.time = tm)
  | [], _, _ => ⟨rfl, rfl⟩
  | e :: rest, hl, ht => by
    obtain ⟨he, hr⟩ := List.pairwise_cons.mp hl
    unfold Scheduler.popAt
    split
    · rename_i hdue
      obtain ⟨h₁, h₂⟩ := popAt_eq_filter hr fun f hf => ht f (by simp [hf])
      simp [hdue, h₁, h₂]
    · rename_i hdue
      have hlater : ∀ f ∈ rest, ¬ f.time = tm := fun f hf => by
        have := he f hf
        have := ht e (by simp)
        omega
      constructor
      · simpa [hdue] using hlater
      · simp only [hdue, not_false_eq_true, decide_true, List.filter_cons_of_pos]
        rw [List.filter_eq_self.mpr (by simpa using hlater)]

/-- What `pop_all_at_next_time` takes and leaves. -/
theorem popAllAtNextTime_spec {s : Scheduler Sig Ev} {tm : Nat} (h : s.nextEventTime = some tm) :
    (∀ e ∈ s.eventQueue.items, tm ≤ e.time) ∧ ∃ popped,
      s.popAllAtNextTime = some (tm, s.eventQueue.items.filter (fun e => e.time = tm), popped) ∧
      popped.clocks = s.clocks ∧
      popped.eventQueue.items = s.eventQueue.items.filter (fun e => ¬ e.time = tm) := by
  have hord := s.eventQueue.ordered
  have hle : ∀ e ∈ s.eventQueue.items, tm ≤ e.time := by
    unfold Scheduler.nextEventTime at h
    cases hq : s.eventQueue.items with
    | nil => simp
    | cons f rest =>
      rw [hq] at h hord
      obtain rfl : f.time = tm := by simpa using h
      intro e he
      rcases List.mem_cons.mp he with rfl | he
      · exact Nat.le_refl _
      · exact (List.pairwise_cons.mp hord).1 e he
  obtain ⟨hbatch, hrest⟩ := popAt_eq_filter hord hle
  refine ⟨hle, { s with eventQueue := ⟨_, Scheduler.popAt_ordered (t := tm) hord⟩ }, ?_, rfl, hrest⟩
  simp only [Scheduler.popAllAtNextTime, h, Option.map_some, hbatch]

/-- The next edge of the clock an applied event belongs to, by its event id. -/
def rearmed [EventHandle Ev] (clocks : List (Option ClockDef)) (tm : Nat) (e : SimEvent Sig Ev) :
    Option (SimEvent Sig Ev) :=
  match clocks[EventHandle.id e.eventRef]? with
  | some (some clock) => some { e with time := tm + clock.period / 2, nextVal := 1 - e.nextVal }
  | _ => none

theorem rearm_spec [LinearOrder Sig] [EventHandle Ev] (tm : Nat) :
    ∀ (batch : List (SimEvent Sig Ev)) {s : Scheduler Sig Ev},
      (∀ e ∈ batch, ∀ clock, s.clocks[EventHandle.id e.eventRef]? = some (some clock) →
        tm + clock.period / 2 < u64Size ∧ e.nextVal ≤ 1) →
      ∃ s', rearm tm batch s = some s' ∧ s'.time = s.time ∧ s'.clocks = s.clocks ∧
        s'.eventQueue.items.Perm (s.eventQueue.items ++ batch.filterMap (rearmed s.clocks tm))
  | [], s, _ => ⟨s, rfl, rfl, rfl, by simp⟩
  | e :: rest, s, h => by
    unfold rearm
    have hrest := fun f (hf : f ∈ rest) => h f (by simp [hf])
    split
    · rename_i clock hclock
      rw [if_pos (h e (by simp) clock hclock)]
      obtain ⟨s', hs', htime, hclocks, hperm⟩ := rearm_spec tm rest
        (s := s.push { e with time := tm + clock.period / 2, nextVal := 1 - e.nextVal }) hrest
      refine ⟨s', hs', htime, hclocks, hperm.trans ?_⟩
      have hre : rearmed s.clocks tm e =
          some { e with time := tm + clock.period / 2, nextVal := 1 - e.nextVal } := by
        simp [rearmed, hclock]
      rw [List.filterMap_cons_some hre]
      refine List.Perm.trans ?_ List.perm_middle.symm
      exact (enqueue_perm _ _).append_right _
    · rename_i hnone
      obtain ⟨s', hs', htime, hclocks, hperm⟩ := rearm_spec tm rest hrest
      refine ⟨s', hs', htime, hclocks, ?_⟩
      have hre : rearmed s.clocks tm e = none := by
        unfold rearmed
        split
        · rename_i clock hclock
          exact absurd hclock (hnone clock)
        · rfl
      rwa [List.filterMap_cons_none hre]

/-- The edge after the one a clock applies. -/
theorem rearmed_edge [EventHandle Ev] {clocks : List (Option ClockDef)} {c : Clock Sig Ev} {k : Nat}
    (h : clocks[EventHandle.id c.event]? = some (some ⟨c.period⟩)) :
    rearmed clocks (c.edge k).time (c.edge k) = some (c.edge (k + 1)) := by
  have hval : (1 : UInt8) - (if k % 2 = 0 then 1 else 0) = if (k + 1) % 2 = 0 then 1 else 0 := by
    rcases Nat.mod_two_eq_zero_or_one k with hk | hk
    · have : (k + 1) % 2 = 1 := by omega
      simp [hk, this]
    · have : (k + 1) % 2 = 0 := by omega
      simp [hk, this]
  have htime : c.initialDelay + k * (c.period / 2) + c.period / 2 =
      c.initialDelay + (k + 1) * (c.period / 2) := by
    rw [Nat.add_mul, Nat.one_mul, Nat.add_assoc]
  simp only [rearmed, Clock.edge, h, hval, htime]

/-- The clocks after a step at `tm`: those whose next edge was due are one further. -/
def advance (tm : Nat) (heads : List (Clock Sig Ev × Nat)) : List (Clock Sig Ev × Nat) :=
  heads.map fun h => if (h.1.edge h.2).time = tm then (h.1, h.2 + 1) else h

/-- The next edges of the clocks. -/
def nextEdges (heads : List (Clock Sig Ev × Nat)) : List (SimEvent Sig Ev) :=
  heads.map fun h => h.1.edge h.2

/-- All edges before those. -/
def pastEdges (heads : List (Clock Sig Ev × Nat)) : List (SimEvent Sig Ev) :=
  heads.flatMap fun h => h.1.edges h.2

theorem advance_fst (tm : Nat) (heads : List (Clock Sig Ev × Nat)) :
    (advance tm heads).map Prod.fst = heads.map Prod.fst := by
  simp only [advance, List.map_map]
  refine List.map_congr_left fun h _ => ?_
  simp only [Function.comp_apply]
  split <;> rfl

theorem mem_advance {tm : Nat} {heads : List (Clock Sig Ev × Nat)} {h : Clock Sig Ev × Nat}
    (hm : h ∈ advance tm heads) : ∃ k, (h.1, k) ∈ heads ∧
      ((h.2 = k + 1 ∧ (h.1.edge k).time = tm) ∨ (h.2 = k ∧ (h.1.edge k).time ≠ tm)) := by
  obtain ⟨⟨c, k⟩, hk, rfl⟩ := List.mem_map.mp hm
  by_cases hdue : (c.edge k).time = tm
  · exact ⟨k, by simpa [hdue] using hk, .inl (by simp [hdue])⟩
  · exact ⟨k, by simpa [hdue] using hk, .inr (by simp [hdue])⟩

theorem nextEdges_advance [EventHandle Ev] {clocks : List (Option ClockDef)} (tm : Nat) :
    ∀ (heads : List (Clock Sig Ev × Nat)),
      (∀ h ∈ heads, clocks[EventHandle.id h.1.event]? = some (some ⟨h.1.period⟩)) →
      (nextEdges (advance tm heads)).Perm ((nextEdges heads).filter (fun e => ¬ e.time = tm) ++
        ((nextEdges heads).filter (fun e => e.time = tm)).filterMap (rearmed clocks tm))
  | [], _ => .refl _
  | (c, k) :: rest, hc => by
    have ih := nextEdges_advance tm rest fun h hm => hc h (by simp [hm])
    by_cases hdue : (c.edge k).time = tm
    · have hre := rearmed_edge (k := k) (hc (c, k) (by simp))
      rw [hdue] at hre
      simp only [nextEdges, advance, List.map_cons, hdue] at ih ⊢
      simp only [↓reduceIte, decide_true, List.filter_cons_of_pos, not_true_eq_false,
        decide_false, Bool.false_eq_true, not_false_eq_true, List.filter_cons_of_neg, hdue]
      rw [List.filterMap_cons_some hre]
      exact (ih.cons _).trans List.perm_middle.symm
    · simp only [nextEdges, advance, List.map_cons, hdue] at ih ⊢
      simpa [hdue] using ih

theorem pastEdges_advance (tm : Nat) : ∀ heads : List (Clock Sig Ev × Nat),
    (pastEdges (advance tm heads)).Perm
      (pastEdges heads ++ (nextEdges heads).filter (fun e => e.time = tm))
  | [] => .refl _
  | (c, k) :: rest => by
    have ih := pastEdges_advance tm rest
    by_cases hdue : (c.edge k).time = tm
    · simp only [pastEdges, nextEdges, advance, List.map_cons, hdue, List.flatMap_cons] at ih ⊢
      simp only [↓reduceIte, Clock.edges_succ, decide_true, List.filter_cons_of_pos, hdue,
        List.append_assoc, List.singleton_append]
      exact ((ih.cons _).trans List.perm_middle.symm).append_left _
    · simp only [pastEdges, nextEdges, advance, List.map_cons, hdue, List.flatMap_cons] at ih ⊢
      simpa [hdue] using ih.append_left _

/-! ## The ledger of a run -/

/-- Where the one-shots and the clocks of a run stand: shots applied, shots still
queued, and for each clock how many of its edges were applied. -/
structure Ledger (Sig Ev : Type) where
  done : List (SimEvent Sig Ev)
  pending : List (SimEvent Sig Ev)
  heads : List (Clock Sig Ev × Nat)

/-- A ledger that explains a timeline: every queued and every applied event is a
one-shot or the edge of a clock, each counted once. -/
structure Ledger.Explains [EventHandle Ev] (L : Ledger Sig Ev) (shots : List (SimEvent Sig Ev))
    (clocks : List (Clock Sig Ev)) (tl : Timeline σ Sig Ev) : Prop where
  shots : (L.done ++ L.pending).Perm shots
  clocks : L.heads.map Prod.fst = clocks
  queue : tl.queue.Perm (L.pending ++ nextEdges L.heads)
  applied : (tl.applied.map Prod.snd).Perm (L.done ++ pastEdges L.heads)
  appliedAt : ∀ p ∈ tl.applied, p.1 = p.2.time ∧ p.1 ≤ tl.time
  notLate : ∀ e ∈ tl.queue, tl.time ≤ e.time
  periods : ∀ h ∈ L.heads, 2 ≤ h.1.period
  armed : ∀ h ∈ L.heads, tl.clocks[EventHandle.id h.1.event]? = some (some ⟨h.1.period⟩)
  single : ∀ e ∈ L.pending, ∀ c, tl.clocks[EventHandle.id e.eventRef]? ≠ some (some c)
  times : tl.times.Pairwise (· ≤ ·) ∧ ∀ t ∈ tl.times, t ≤ tl.time

/-- Re-arming at `tm` stays within a `u64`. -/
def NoOverflow (tl : Timeline σ Sig Ev) (tm : Nat) : Prop :=
  ∀ clock, some clock ∈ tl.clocks → tm + clock.period / 2 < u64Size

section Run
variable [DecidableEq Addr] [LinearOrder Sig] [EventHandle Ev]

/-- The tables of a timeline are those of `T`. -/
def OverTables (T : EventTables Addr Sig Ev) (tl : Timeline σ Sig Ev) : Prop :=
  ∃ q last, tl.state = T.state q last

/-- One step of the engine, on the timeline. -/
theorem Timeline.step_spec {x : Executor σ Sig Ev ε} {T : EventTables Addr Sig Ev}
    (hx : x.Total T.idToAddr.length) {tl : Timeline σ Sig Ev} (hT : OverTables T tl) {tm : Nat}
    (hnext : tl.state.scheduler.nextEventTime = some tm)
    (hrearm : ∀ e ∈ tl.queue, e.time = tm → ∀ clock,
      tl.clocks[EventHandle.id e.eventRef]? = some (some clock) →
        tm + clock.period / 2 < u64Size ∧ e.nextVal ≤ 1) :
    ∃ tl', tl.step x = .ok tl' ∧ OverTables T tl' ∧ tl'.time = tm ∧ tl'.clocks = tl.clocks ∧
      tl'.times = tl.times ++ [tm] ∧
      tl'.applied = tl.applied ++ (tl.queue.filter fun e => e.time = tm).map (fun e => (tm, e)) ∧
      tl'.queue.Perm (tl.queue.filter (fun e => ¬ e.time = tm) ++
        (tl.queue.filter fun e => e.time = tm).filterMap (rearmed tl.clocks tm)) := by
  obtain ⟨simulator, state, times, applied⟩ := tl
  obtain ⟨q, last, rfl⟩ := hT
  replace hnext : q.nextEventTime = some tm := hnext
  obtain ⟨_, popped, hpop, hclocks, hitems⟩ := popAllAtNextTime_spec hnext
  obtain ⟨u, hu⟩ := EventTables.settle_succeeds (T := T) { popped with time := tm } last
    hx tm (q.eventQueue.items.filter fun e => e.time = tm) simulator
  obtain ⟨q', hq', htime, hclocks', hperm⟩ := rearm_spec tm
    (q.eventQueue.items.filter fun e => e.time = tm) (s := { popped with time := tm })
    (fun e he clock hc => by
      obtain ⟨hmem, hdue⟩ := List.mem_filter.mp he
      exact hrearm e hmem (by simpa using hdue) clock (by
        rw [← hc]
        exact congrArg (·[_]?) hclocks.symm))
  have hstep : (T.state q last).step x simulator = _ := step_of hpop hu hq'
  refine ⟨⟨_, _, _, _⟩, by simp only [Timeline.step, hstep]; rfl, ⟨_, _, rfl⟩, htime, ?_, rfl, ?_, ?_⟩
  · exact hclocks'.trans hclocks
  · simp [Timeline.due, hpop, Timeline.queue, EventTables.state]
  · refine hperm.trans (.of_eq ?_)
    simp only [hitems, hclocks]
    rfl

/-- The ledger after a step at `tm`. -/
def Ledger.step (L : Ledger Sig Ev) (tm : Nat) : Ledger Sig Ev where
  done := L.done ++ L.pending.filter fun e => e.time = tm
  pending := L.pending.filter fun e => ¬ e.time = tm
  heads := advance tm L.heads

/-- A step applies what is due and queues the next edge of each clock that was. -/
theorem Ledger.Explains.step {x : Executor σ Sig Ev ε} {T : EventTables Addr Sig Ev}
    (hx : x.Total T.idToAddr.length) {tl : Timeline σ Sig Ev} (hT : OverTables T tl)
    {L : Ledger Sig Ev} {shots : List (SimEvent Sig Ev)} {clocks : List (Clock Sig Ev)}
    (h : L.Explains shots clocks tl) {tm : Nat}
    (hnext : tl.state.scheduler.nextEventTime = some tm) (hover : NoOverflow tl tm) :
    ∃ tl', tl.step x = .ok tl' ∧ OverTables T tl' ∧ tl'.time = tm ∧ tl'.clocks = tl.clocks ∧
      (∀ e ∈ tl'.queue, tm < e.time) ∧ (L.step tm).Explains shots clocks tl' := by
  have hclock : ∀ e ∈ tl.queue, e.time = tm → ∀ clock,
      tl.clocks[EventHandle.id e.eventRef]? = some (some clock) →
        tm + clock.period / 2 < u64Size ∧ e.nextVal ≤ 1 := by
    intro e he _ clock hc
    refine ⟨hover clock (List.mem_of_getElem? hc), ?_⟩
    rcases List.mem_append.mp (h.queue.mem_iff.mp he) with he | he
    · exact absurd hc (h.single e he clock)
    · obtain ⟨⟨c, k⟩, _, rfl⟩ := List.mem_map.mp he
      simp only [Clock.edge]
      split <;> decide
  obtain ⟨tl', hstep, hT', htime, hclocks, htimes, happlied, hqueue⟩ :=
    Timeline.step_spec hx hT hnext hclock
  have hle := (popAllAtNextTime_spec hnext).1
  have hmono : tl.time ≤ tm := by
    unfold Scheduler.nextEventTime at hnext
    obtain ⟨e, he, rfl⟩ := Option.map_eq_some_iff.mp hnext
    exact h.notLate e (List.mem_of_head? he)
  -- the shots and the clocks of the batch, apart
  have hdue : (tl.queue.filter fun e => e.time = tm).Perm
      (L.pending.filter (fun e => e.time = tm) ++
        (nextEdges L.heads).filter fun e => e.time = tm) := by
    rw [← List.filter_append]
    exact h.queue.filter _
  have hlater : (tl.queue.filter fun e => ¬ e.time = tm).Perm
      (L.pending.filter (fun e => ¬ e.time = tm) ++
        (nextEdges L.heads).filter fun e => ¬ e.time = tm) := by
    rw [← List.filter_append]
    exact h.queue.filter _
  have hshot : (L.pending.filter fun e => e.time = tm).filterMap (rearmed tl.clocks tm) = [] := by
    refine List.filterMap_eq_nil_iff.mpr fun e he => ?_
    unfold rearmed
    split
    · rename_i c hc
      exact absurd hc (h.single e (List.mem_filter.mp he).1 c)
    · rfl
  have hqueue' : tl'.queue.Perm ((L.step tm).pending ++ nextEdges (L.step tm).heads) := by
    refine hqueue.trans ((hlater.append (hdue.filterMap _)).trans ?_)
    rw [List.filterMap_append, hshot, List.nil_append, List.append_assoc]
    exact (nextEdges_advance tm L.heads h.armed).symm.append_left _
  have hafter : ∀ e ∈ tl'.queue, tm < e.time := by
    intro e he
    rcases List.mem_append.mp (hqueue'.mem_iff.mp he) with he | he
    · obtain ⟨hmem, hne⟩ := List.mem_filter.mp he
      have := hle e (h.queue.mem_iff.mpr (List.mem_append_left _ hmem))
      simp at hne
      omega
    · obtain ⟨⟨c, k'⟩, hm, rfl⟩ := List.mem_map.mp he
      obtain ⟨k, hk, hcase⟩ := mem_advance hm
      have hge := hle (c.edge k)
        (h.queue.mem_iff.mpr (List.mem_append_right _ (List.mem_map_of_mem hk)))
      rcases hcase with ⟨rfl, htm⟩ | ⟨rfl, hne⟩
      · have hp : 2 ≤ c.period := h.periods _ hk
        have hhalf : 0 < c.period / 2 := by omega
        simp only [Clock.edge_time, Nat.add_mul] at htm ⊢
        omega
      · exact Nat.lt_of_le_of_ne hge (Ne.symm hne)
  refine ⟨tl', hstep, hT', htime, hclocks, hafter, ?_⟩
  exact {
    shots := by
      refine List.Perm.trans ?_ h.shots
      simp only [Ledger.step, List.append_assoc]
      have hsplit := List.filter_append_perm (fun e => decide (e.time = tm)) L.pending
      exact List.Perm.append_left _ (by simpa using hsplit)
    clocks := (advance_fst tm L.heads).trans h.clocks
    queue := hqueue'
    applied := by
      rw [happlied, List.map_append, List.map_map]
      simp only [Function.comp_def, List.map_id', Ledger.step, List.append_assoc]
      refine (h.applied.append hdue).trans ?_
      rw [List.append_assoc]
      refine List.Perm.append_left _ ?_
      refine List.perm_append_comm_assoc _ _ _ |>.trans ?_
      exact (pastEdges_advance tm L.heads).symm.append_left _
    appliedAt := by
      rw [happlied, htime]
      intro p hp
      rcases List.mem_append.mp hp with hp | hp
      · obtain ⟨h₁, h₂⟩ := h.appliedAt p hp
        exact ⟨h₁, Nat.le_trans h₂ hmono⟩
      · obtain ⟨e, he, rfl⟩ := List.mem_map.mp hp
        have := (List.mem_filter.mp he).2
        simp at this
        exact ⟨this.symm, Nat.le_refl _⟩
    notLate := fun e he => htime ▸ Nat.le_of_lt (hafter e he)
    periods := by
      intro p hp
      obtain ⟨k, hk, _⟩ := mem_advance hp
      exact h.periods (p.1, k) hk
    armed := by
      intro p hp
      obtain ⟨k, hk, _⟩ := mem_advance hp
      rw [hclocks]
      exact h.armed (p.1, k) hk
    single := by
      intro e he
      rw [hclocks]
      exact h.single e (List.mem_filter.mp he).1
    times := by
      rw [htimes, htime]
      refine ⟨List.pairwise_append.mpr ⟨h.times.1, by simp, fun a ha b hb => ?_⟩, fun t ht => ?_⟩
      · rw [List.mem_singleton.mp hb]
        exact Nat.le_trans (h.times.2 a ha) hmono
      · rcases List.mem_append.mp ht with ht | ht
        · exact Nat.le_trans (h.times.2 t ht) hmono
        · rw [List.mem_singleton.mp ht] }

/-- The loop of `run_until` ends, and leaves nothing due up to `endTime`. -/
theorem Ledger.Explains.runUntilLoop {x : Executor σ Sig Ev ε} {T : EventTables Addr Sig Ev}
    (hx : x.Total T.idToAddr.length) {shots : List (SimEvent Sig Ev)} {clocks : List (Clock Sig Ev)}
    {endTime : Nat} : ∀ (fuel first : Nat) {tl : Timeline σ Sig Ev} {L : Ledger Sig Ev},
      OverTables T tl → L.Explains shots clocks tl → NoOverflow tl endTime → tl.time ≤ endTime →
      (∀ e ∈ tl.queue, first ≤ e.time) → first ≤ endTime + 1 → endTime + 2 ≤ fuel + first →
      ∃ tl', tl.runUntilLoop x endTime fuel = .ok tl' ∧ OverTables T tl' ∧ tl'.time ≤ endTime ∧
        (∀ e ∈ tl'.queue, endTime < e.time) ∧ ∃ L' : Ledger Sig Ev, L'.Explains shots clocks tl'
  | 0, _, _, _, _, _, _, _, _, _, _ => by omega
  | fuel + 1, first, tl, L, hT, h, hover, htime, hfirst, hbound, hfuel => by
    unfold Timeline.runUntilLoop
    cases hnext : tl.state.scheduler.nextEventTime with
    | none =>
      refine ⟨tl, rfl, hT, htime, fun e he => ?_, L, h⟩
      unfold Timeline.queue at he
      unfold Scheduler.nextEventTime at hnext
      rw [List.head?_eq_none_iff.mp (Option.map_eq_none_iff.mp hnext)] at he
      cases he
    | some tm =>
      have hle := (popAllAtNextTime_spec hnext).1
      dsimp only
      split
      · rename_i hgt
        exact ⟨tl, rfl, hT, htime, fun e he => Nat.lt_of_lt_of_le hgt (hle e he), L, h⟩
      · rename_i hgt
        have htm : first ≤ tm := by
          obtain ⟨e, he, rfl⟩ := Option.map_eq_some_iff.mp hnext
          exact hfirst e (List.mem_of_head? he)
        have hover' : NoOverflow tl tm := fun c hc => by have := hover c hc; omega
        obtain ⟨tl₁, hstep, hT₁, htime₁, hclocks₁, hafter, h₁⟩ := h.step hx hT hnext hover'
        rw [hstep]
        exact h₁.runUntilLoop hx fuel (tm + 1) hT₁ (by rwa [NoOverflow, hclocks₁])
          (by omega) hafter (by omega) (by omega)

/-- The one-shot of a call. -/
def SimulationCall.shot (T : EventTables Addr Sig Ev) : SimulationCall Addr → Option (SimEvent Sig Ev)
  | .schedule port time value =>
    (T.resolveEventOpt port).map fun ev => ⟨time, ev, T.resolveSignal port, UInt8.ofNat value⟩
  | _ => none

/-- The clock of a call. -/
def SimulationCall.clock (T : EventTables Addr Sig Ev) : SimulationCall Addr → Option (Clock Sig Ev)
  | .addClock port period initialDelay =>
    (T.resolveEventOpt port).map fun ev => ⟨ev, T.resolveSignal port, period, initialDelay⟩
  | _ => none

/-- What a call needs of the simulation it is made on. -/
def SimulationCall.Admissible (T : EventTables Addr Sig Ev) (tl : Timeline σ Sig Ev) :
    SimulationCall Addr → Prop
  | .addClock port period initialDelay => ∀ ev, T.resolveEventOpt port = some ev →
    2 ≤ period ∧ tl.time ≤ initialDelay ∧
      (∀ c, tl.clocks[EventHandle.id ev]? ≠ some (some c)) ∧
      ∀ e ∈ tl.queue, EventHandle.id e.eventRef ≠ EventHandle.id ev
  | .schedule port time _ => ∀ ev, T.resolveEventOpt port = some ev →
    tl.time ≤ time ∧ ∀ c, tl.clocks[EventHandle.id ev]? ≠ some (some c)
  | .step => ∀ tm, tl.state.scheduler.nextEventTime = some tm → NoOverflow tl tm
  | .runUntil endTime => tl.time ≤ endTime ∧ NoOverflow tl endTime

theorem addClock_clocks {st : SimulationState Sig Ev} {ev : Ev} {signal : Sig}
    {period initialDelay k : Nat} :
    (st.addClock ev signal period initialDelay).scheduler.clocks[k]? =
      if k = EventHandle.id ev then some (some ⟨period⟩)
      else (st.scheduler.clocks ++
        List.replicate (EventHandle.id ev + 1 - st.scheduler.clocks.length) none)[k]? := by
  simp only [SimulationState.addClock, Scheduler.push]
  rw [List.getElem?_set]
  split
  · rename_i h
    have hlen : EventHandle.id ev < (st.scheduler.clocks ++
        List.replicate (EventHandle.id ev + 1 - st.scheduler.clocks.length) none).length := by
      simp
      omega
    simp only [if_pos h.symm, if_pos hlen]
  · rename_i h
    rw [if_neg (Ne.symm h)]

/-- Growing the table adds no clock. -/
theorem resized_clock {clocks : List (Option ClockDef)} {n k : Nat} {c : ClockDef} :
    (clocks ++ List.replicate n none)[k]? = some (some c) ↔ clocks[k]? = some (some c) := by
  rw [List.getElem?_append]
  split
  · rfl
  · rename_i h
    rw [List.getElem?_eq_none (l := clocks) (by omega)]
    constructor
    · intro hr
      have := List.mem_of_getElem? hr
      simp at this
    · intro hr
      cases hr

omit [DecidableEq Addr] in
theorem Ledger.Explains.addClock {T : EventTables Addr Sig Ev} {tl : Timeline σ Sig Ev}
    {L : Ledger Sig Ev} {shots : List (SimEvent Sig Ev)} {clocks : List (Clock Sig Ev)}
    (h : L.Explains shots clocks tl) {port : Addr} {period initialDelay : Nat} {ev : Ev}
    (hev : T.resolveEventOpt port = some ev)
    (hadm : (SimulationCall.addClock port period initialDelay).Admissible T tl) :
    ({ L with heads := L.heads ++ [(⟨ev, T.resolveSignal port, period, initialDelay⟩, 0)] } :
      Ledger Sig Ev).Explains shots (clocks ++ [⟨ev, T.resolveSignal port, period, initialDelay⟩])
        { tl with state := tl.state.addClock ev (T.resolveSignal port) period initialDelay } := by
  obtain ⟨hperiod, hdelay, hfree, hqueue⟩ := hadm ev hev
  have hpush : (Timeline.queue { tl with
      state := tl.state.addClock ev (T.resolveSignal port) period initialDelay }).Perm
      (⟨initialDelay, ev, T.resolveSignal port, 1⟩ :: tl.queue) := enqueue_perm _ _
  exact {
    shots := h.shots
    clocks := by simp [h.clocks]
    queue := by
      refine hpush.trans ((h.queue.cons _).trans ?_)
      simp only [nextEdges, List.map_append, List.map_cons, List.map_nil, Clock.edge, Nat.zero_mul,
        Nat.add_zero, Nat.zero_mod, ↓reduceIte, ← List.append_assoc]
      exact (List.perm_append_singleton _ _).symm
    applied := by simpa [pastEdges, Clock.edges] using h.applied
    appliedAt := h.appliedAt
    notLate := by
      intro e he
      rcases List.mem_cons.mp (hpush.mem_iff.mp he) with rfl | he
      · exact hdelay
      · exact h.notLate e he
    periods := by
      intro p hp
      rcases List.mem_append.mp hp with hp | hp
      · exact h.periods p hp
      · rw [List.mem_singleton.mp hp]
        exact hperiod
    armed := by
      intro p hp
      refine addClock_clocks.trans ?_
      rcases List.mem_append.mp hp with hp | hp
      · have hne : EventHandle.id p.1.event ≠ EventHandle.id ev := fun he =>
          hfree _ (he ▸ h.armed p hp)
        rw [if_neg hne]
        exact resized_clock.mpr (h.armed p hp)
      · rw [List.mem_singleton.mp hp]
        simp
    single := by
      intro e he c hc
      have hmem := h.queue.mem_iff.mpr (List.mem_append_left _ he)
      have hc' := addClock_clocks.symm.trans hc
      rw [if_neg (hqueue e hmem)] at hc'
      exact h.single e he c (resized_clock.mp hc')
    times := h.times }

omit [DecidableEq Addr] in
theorem Ledger.Explains.schedule {T : EventTables Addr Sig Ev} {tl : Timeline σ Sig Ev}
    {L : Ledger Sig Ev} {shots : List (SimEvent Sig Ev)} {clocks : List (Clock Sig Ev)}
    (h : L.Explains shots clocks tl) {port : Addr} {time value : Nat} {ev : Ev}
    (hev : T.resolveEventOpt port = some ev)
    (hadm : (SimulationCall.schedule port time value).Admissible T tl) :
    ({ L with pending := L.pending ++ [⟨time, ev, T.resolveSignal port, UInt8.ofNat value⟩] } :
      Ledger Sig Ev).Explains (shots ++ [⟨time, ev, T.resolveSignal port, UInt8.ofNat value⟩]) clocks
        { tl with state := tl.state.schedule ev (T.resolveSignal port) time (UInt8.ofNat value) } := by
  obtain ⟨htime, hfree⟩ := hadm ev hev
  have hpush : (Timeline.queue { tl with
      state := tl.state.schedule ev (T.resolveSignal port) time (UInt8.ofNat value) }).Perm
      (⟨time, ev, T.resolveSignal port, UInt8.ofNat value⟩ :: tl.queue) := enqueue_perm _ _
  exact {
    shots := by
      rw [← List.append_assoc]
      exact h.shots.append_right _
    clocks := h.clocks
    queue := by
      refine hpush.trans ((h.queue.cons _).trans ?_)
      rw [List.append_assoc, List.singleton_append]
      exact List.perm_middle.symm
    applied := h.applied
    appliedAt := h.appliedAt
    notLate := by
      intro e he
      rcases List.mem_cons.mp (hpush.mem_iff.mp he) with rfl | he
      · exact htime
      · exact h.notLate e he
    periods := h.periods
    armed := h.armed
    single := by
      intro e he
      rcases List.mem_append.mp he with he | he
      · exact h.single e he
      · rw [List.mem_singleton.mp he]
        exact hfree
    times := h.times }

/-- One call keeps a ledger, and does not fault. -/
theorem Ledger.Explains.exec {x : Executor σ Sig Ev ε} {T : EventTables Addr Sig Ev}
    (hx : x.Total T.idToAddr.length) {tl : Timeline σ Sig Ev} (hT : OverTables T tl)
    {L : Ledger Sig Ev} {shots : List (SimEvent Sig Ev)} {clocks : List (Clock Sig Ev)}
    (h : L.Explains shots clocks tl) {call : SimulationCall Addr} (hadm : call.Admissible T tl) :
    ∃ tl', tl.exec x T call = .ok tl' ∧ OverTables T tl' ∧ ∃ L' : Ledger Sig Ev,
      L'.Explains (shots ++ (call.shot T).toList) (clocks ++ (call.clock T).toList) tl' := by
  cases call with
  | addClock port period initialDelay =>
    simp only [Timeline.exec, SimulationCall.shot, SimulationCall.clock, Option.toList_none,
      List.append_nil]
    cases hev : T.resolveEventOpt port with
    | none => exact ⟨tl, rfl, hT, L, by simpa using h⟩
    | some ev =>
      obtain ⟨q, last, hs⟩ := hT
      exact ⟨{ tl with state := tl.state.addClock ev (T.resolveSignal port) period initialDelay },
        rfl, ⟨_, last, by rw [hs]; rfl⟩, _, h.addClock hev hadm⟩
  | schedule port time value =>
    simp only [Timeline.exec, SimulationCall.shot, SimulationCall.clock, Option.toList_none,
      List.append_nil]
    cases hev : T.resolveEventOpt port with
    | none => exact ⟨tl, rfl, hT, L, by simpa using h⟩
    | some ev =>
      obtain ⟨q, last, hs⟩ := hT
      exact ⟨{ tl with
          state := tl.state.schedule ev (T.resolveSignal port) time (UInt8.ofNat value) },
        rfl, ⟨_, last, by rw [hs]; rfl⟩, _, h.schedule hev hadm⟩
  | step =>
    simp only [SimulationCall.shot, SimulationCall.clock, Option.toList_none, List.append_nil]
    cases hnext : tl.state.scheduler.nextEventTime with
    | none =>
      have hpop : tl.state.scheduler.popAllAtNextTime = none := by
        simp [Scheduler.popAllAtNextTime, hnext]
      exact ⟨tl, by simp [Timeline.exec, Timeline.step, SimulationState.step, hpop], hT, L, h⟩
    | some tm =>
      obtain ⟨tl', hstep, hT', _, _, _, h'⟩ := h.step hx hT hnext (hadm tm hnext)
      exact ⟨tl', hstep, hT', _, h'⟩
  | runUntil endTime =>
    simp only [SimulationCall.shot, SimulationCall.clock, Option.toList_none, List.append_nil]
    obtain ⟨tl', hloop, ⟨q, last, hs⟩, htime, hafter, L', h'⟩ := h.runUntilLoop hx (endTime + 2) 0 hT
      hadm.2 hadm.1 (by simp) (by omega) (by omega)
    refine ⟨{ tl' with
      state := { tl'.state with scheduler := { tl'.state.scheduler with time := endTime } }
      times := tl'.times ++ [endTime] }, ?_, ⟨{ q with time := endTime }, last, by
        simp only [hs]; rfl⟩, L', ?_⟩
    · simp only [Timeline.exec, Timeline.runUntil, hloop]
      rfl
    · exact {
        shots := h'.shots
        clocks := h'.clocks
        queue := h'.queue
        applied := h'.applied
        appliedAt := fun p hp => ⟨(h'.appliedAt p hp).1, Nat.le_trans (h'.appliedAt p hp).2 htime⟩
        notLate := fun e he => Nat.le_of_lt (hafter e he)
        periods := h'.periods
        armed := h'.armed
        single := h'.single
        times := by
          refine ⟨List.pairwise_append.mpr ⟨h'.times.1, by simp, fun a ha b hb => ?_⟩, fun t ht => ?_⟩
          · rw [List.mem_singleton.mp hb]
            exact Nat.le_trans (h'.times.2 a ha) htime
          · rcases List.mem_append.mp ht with ht | ht
            · exact Nat.le_trans (h'.times.2 t ht) htime
            · exact Nat.le_of_eq (List.mem_singleton.mp ht) }

/-- Every call of a run meets its condition on the simulation it is made on. -/
def Admits (x : Executor σ Sig Ev ε) (T : EventTables Addr Sig Ev) :
    List (SimulationCall Addr) → Timeline σ Sig Ev → Prop
  | [], _ => True
  | call :: rest, tl =>
    call.Admissible T tl ∧ ∀ tl', tl.exec x T call = .ok tl' → Admits x T rest tl'

omit [DecidableEq Addr] in
theorem Admits.take {x : Executor σ Sig Ev ε} {T : EventTables Addr Sig Ev} :
    ∀ {calls : List (SimulationCall Addr)} {tl : Timeline σ Sig Ev} (k : Nat),
      Admits x T calls tl → Admits x T (calls.take k) tl
  | _, _, 0, _ => trivial
  | [], _, _ + 1, _ => trivial
  | _ :: _, _, k + 1, h => ⟨h.1, fun tl' htl => (h.2 tl' htl).take k⟩

theorem Ledger.Explains.run {x : Executor σ Sig Ev ε} {T : EventTables Addr Sig Ev}
    (hx : x.Total T.idToAddr.length) : ∀ {calls : List (SimulationCall Addr)}
      {tl : Timeline σ Sig Ev} {L : Ledger Sig Ev} {shots : List (SimEvent Sig Ev)}
      {clocks : List (Clock Sig Ev)}, OverTables T tl → L.Explains shots clocks tl →
      Admits x T calls tl → ∃ tl', Timeline.run x T calls tl = .ok tl' ∧ ∃ L' : Ledger Sig Ev,
        L'.Explains (shots ++ calls.filterMap (·.shot T)) (clocks ++ calls.filterMap (·.clock T)) tl'
  | [], tl, L, _, _, _, h, _ => ⟨tl, rfl, L, by simpa using h⟩
  | call :: rest, tl, L, shots, clocks, hT, h, hadm => by
    obtain ⟨tl₁, hexec, hT₁, L₁, h₁⟩ := h.exec hx hT hadm.1
    obtain ⟨tl', hrun, L', h'⟩ := h₁.run hx hT₁ (hadm.2 tl₁ hexec)
    refine ⟨tl', by simp only [Timeline.run, hexec]; exact hrun, L', ?_⟩
    have hshot : (call.shot T).toList ++ rest.filterMap (·.shot T) =
        (call :: rest).filterMap (·.shot T) := by
      rw [List.filterMap_cons]
      cases call.shot T <;> rfl
    have hclock : (call.clock T).toList ++ rest.filterMap (·.clock T) =
        (call :: rest).filterMap (·.clock T) := by
      rw [List.filterMap_cons]
      cases call.clock T <;> rfl
    rw [List.append_assoc, List.append_assoc, hshot, hclock] at h'
    exact h'

end Run

/-! ## The law of the queue -/

/-- The events applied by the steps at one time. -/
def Timeline.appliedAt (tl : Timeline σ Sig Ev) (tm : Nat) : List (SimEvent Sig Ev) :=
  (tl.applied.filter fun p => p.1 = tm).map Prod.snd

/-- What the calls of a run put at one time: its one-shots, and one edge of every
clock that has an edge then. -/
def eventsAt [EventHandle Ev] (T : EventTables Addr Sig Ev) (calls : List (SimulationCall Addr))
    (tm : Nat) : List (SimEvent Sig Ev) :=
  (calls.filterMap (·.shot T)).filter (fun e => e.time = tm) ++
    (calls.filterMap (·.clock T)).filterMap (·.edgeAt tm)

/-- The time never went back; every event was applied at its own time; what lies
before the current time was applied exactly once, what lies at it was applied or
is queued, and nothing is queued for the past. -/
structure QueueLaw [EventHandle Ev] (T : EventTables Addr Sig Ev)
    (calls : List (SimulationCall Addr)) (tl : Timeline σ Sig Ev) : Prop where
  monotone : tl.times.Pairwise (· ≤ ·) ∧ ∀ t ∈ tl.times, t ≤ tl.time
  punctual : ∀ p ∈ tl.applied, p.1 = p.2.time ∧ p.1 ≤ tl.time
  past : ∀ tm < tl.time, (tl.appliedAt tm).Perm (eventsAt T calls tm)
  present : (tl.appliedAt tl.time ++ tl.queue.filter fun e => e.time = tl.time).Perm
    (eventsAt T calls tl.time)
  notLate : ∀ e ∈ tl.queue, tl.time ≤ e.time

theorem pastEdges_at (tm : Nat) : ∀ (heads : List (Clock Sig Ev × Nat)),
    (∀ h ∈ heads, 2 ≤ h.1.period ∧ tm < (h.1.edge h.2).time) →
      (pastEdges heads).filter (fun e => e.time = tm) =
        (heads.map Prod.fst).filterMap (·.edgeAt tm)
  | [], _ => rfl
  | (c, k) :: rest, h => by
    have ih := pastEdges_at tm rest fun p hp => h p (by simp [hp])
    obtain ⟨hp, hk⟩ := h (c, k) (by simp)
    simp only [pastEdges, List.flatMap_cons, List.filter_append, List.map_cons,
      List.filterMap_cons] at ih ⊢
    rw [Clock.edges_at hp hk, ih]
    cases c.edgeAt tm <;> rfl

theorem Ledger.Explains.appliedAt_perm [EventHandle Ev] {L : Ledger Sig Ev}
    {shots : List (SimEvent Sig Ev)} {clocks : List (Clock Sig Ev)} {tl : Timeline σ Sig Ev}
    (h : L.Explains shots clocks tl) (tm : Nat) :
    (tl.appliedAt tm).Perm (L.done.filter (fun e => e.time = tm) ++
      (pastEdges L.heads).filter fun e => e.time = tm) := by
  have heq : tl.appliedAt tm = (tl.applied.map Prod.snd).filter fun e => e.time = tm := by
    rw [Timeline.appliedAt, List.filter_map]
    congr 1
    exact List.filter_congr fun p hp => by simp [(h.appliedAt p hp).1]
  rw [heq, ← List.filter_append]
  exact h.applied.filter _

/-- A run with a ledger obeys the law. -/
theorem Ledger.Explains.law [EventHandle Ev] {T : EventTables Addr Sig Ev}
    {calls : List (SimulationCall Addr)} {tl : Timeline σ Sig Ev} {L : Ledger Sig Ev}
    (h : L.Explains (calls.filterMap (·.shot T)) (calls.filterMap (·.clock T)) tl) :
    QueueLaw T calls tl where
  monotone := h.times
  punctual := h.appliedAt
  past tm htm := by
    refine (h.appliedAt_perm tm).trans ?_
    have hheads : ∀ p ∈ L.heads, 2 ≤ p.1.period ∧ tm < (p.1.edge p.2).time := fun p hp =>
      ⟨h.periods p hp, Nat.lt_of_lt_of_le htm (h.notLate _
        (h.queue.mem_iff.mpr (List.mem_append_right _ (List.mem_map_of_mem hp))))⟩
    rw [pastEdges_at tm L.heads hheads, h.clocks, eventsAt]
    refine List.Perm.append_right _ ?_
    have hpending : L.pending.filter (fun e => e.time = tm) = [] := by
      refine List.filter_eq_nil_iff.mpr fun e he => ?_
      have := h.notLate e (h.queue.mem_iff.mpr (List.mem_append_left _ he))
      simp only [decide_eq_true_eq]
      omega
    have := h.shots.filter fun e => decide (e.time = tm)
    rwa [List.filter_append, hpending, List.append_nil] at this
  present := by
    -- the edges at the current time, applied or not, precede those of the advanced clocks
    have hheads : ∀ p ∈ advance tl.time L.heads,
        2 ≤ p.1.period ∧ tl.time < (p.1.edge p.2).time := by
      intro p hp
      obtain ⟨k, hk, hcase⟩ := mem_advance hp
      have hperiod := h.periods _ hk
      have hge := h.notLate (p.1.edge k)
        (h.queue.mem_iff.mpr (List.mem_append_right _ (List.mem_map_of_mem hk)))
      refine ⟨hperiod, ?_⟩
      rcases hcase with ⟨hk', htm⟩ | ⟨hk', hne⟩
      · have hhalf : 0 < p.1.period / 2 := by simp only at hperiod; omega
        rw [hk']
        simp only [Clock.edge_time, Nat.add_mul] at htm ⊢
        omega
      · rw [hk']
        exact Nat.lt_of_le_of_ne hge (Ne.symm hne)
    have hpast := pastEdges_at tl.time _ hheads
    rw [advance_fst, h.clocks] at hpast
    have hsplit := (pastEdges_advance tl.time L.heads).filter
      fun e => decide (e.time = tl.time)
    rw [hpast, List.filter_append, List.filter_filter] at hsplit
    simp only [Bool.and_self] at hsplit
    have hshots := h.shots.filter fun e => decide (e.time = tl.time)
    have hqueue := h.queue.filter fun e => decide (e.time = tl.time)
    rw [List.filter_append] at hshots hqueue
    refine ((h.appliedAt_perm _).append hqueue).trans ?_
    rw [eventsAt]
    refine List.Perm.trans ?_ (hshots.append hsplit.symm)
    rw [List.append_assoc, List.append_assoc]
    exact List.Perm.append_left _ (List.perm_append_comm_assoc _ _ _)
  notLate := h.notLate

/-- A simulation as `Simulation::new` leaves it. -/
def Timeline.start [DecidableEq Addr] [EventHandle Ev] (x : Executor σ Sig Ev ε)
    (T : EventTables Addr Sig Ev) (s : σ) : Timeline σ Sig Ev :=
  ⟨s, T.simulationState x s, [], []⟩

/-- In every run whose calls are admissible, every state reached obeys the law, and
no call faults. -/
theorem run_queueLaw [DecidableEq Addr] [LinearOrder Sig] [EventHandle Ev]
    (x : Executor σ Sig Ev ε) (T : EventTables Addr Sig Ev) (hx : x.Total T.idToAddr.length) (s : σ)
    (calls : List (SimulationCall Addr)) (h : Admits x T calls (.start x T s)) (k : Nat) :
    ∃ tl, Timeline.run x T (calls.take k) (.start x T s) = .ok tl ∧
      QueueLaw T (calls.take k) tl := by
  have hstart : (⟨[], [], []⟩ : Ledger Sig Ev).Explains [] [] (Timeline.start x T s) := {
    shots := .refl _
    clocks := rfl
    queue := .refl _
    applied := .refl _
    appliedAt := by simp [Timeline.start]
    notLate := by
      intro e he
      cases he
    periods := by simp
    armed := by simp
    single := by simp
    times := by simp [Timeline.start] }
  obtain ⟨tl, hrun, L, hL⟩ := hstart.run hx ⟨_, _, rfl⟩ (h.take k)
  exact ⟨tl, hrun, Ledger.Explains.law (by simpa using hL)⟩

theorem pin_total : pin.Total pinTables.idToAddr.length where
  evalComb s := ⟨s, rfl⟩
  evalApply _ s := ⟨s, rfl⟩
  evalOnly _ s := ⟨s, rfl⟩
  apply _ s := ⟨s, rfl⟩
  stage _ _ s := ⟨s, rfl⟩
  fire _ _ s := ⟨s, rfl⟩
  marks s id hid := by
    simp only [pin] at hid
    split at hid
    · rw [show id = 0 by simpa using hid]
      decide
    · simp at hid

/-- The pin clocked with period 10 from time 5 on, run up to time 12. -/
theorem pin_clock_queueLaw : ∃ tl,
    Timeline.run pin pinTables [.addClock () 10 5, .runUntil 12] (.start pin pinTables ⟨0, false⟩) =
      .ok tl ∧ QueueLaw pinTables [.addClock () 10 5, .runUntil 12] tl := by
  refine run_queueLaw pin pinTables pin_total ⟨0, false⟩ [.addClock () 10 5, .runUntil 12] ?_ 2
  refine ⟨?_, fun tl htl => ⟨?_, fun _ _ => trivial⟩⟩
  · rintro ev -
    refine ⟨by decide, by decide, fun c hc => ?_, fun e he => ?_⟩
    · cases hc
    · cases he
  · cases htl
    refine ⟨by decide, fun clock hclock => ?_⟩
    have hmem : some clock ∈ [some (ClockDef.mk 10)] := hclock
    simp only [List.mem_singleton, Option.some.injEq] at hmem
    rw [hmem]
    decide

/-- A one-shot on a clock's port is re-armed like an edge of the clock: the shot at
time 3 comes back at time 8, where nothing was asked for. A one-shot of value 2 on
it makes the step panic. -/
theorem pin_shot_on_clock_port :
    (∃ tl, Timeline.run pin pinTables [.addClock () 10 0, .schedule () 3 1, .runUntil 9]
        (.start pin pinTables ⟨0, false⟩) = .ok tl ∧
      ¬ QueueLaw pinTables [.addClock () 10 0, .schedule () 3 1, .runUntil 9] tl) ∧
    Timeline.run pin pinTables [.addClock () 10 0, .schedule () 3 2, .runUntil 9]
      (.start pin pinTables ⟨0, false⟩) = .error .panic := by
  constructor
  · have hrun : (Timeline.run pin pinTables [.addClock () 10 0, .schedule () 3 1, .runUntil 9]
        (.start pin pinTables ⟨0, false⟩)).map (fun tl => (tl.time, (tl.appliedAt 8).length)) =
          .ok (9, 1) := by decide +kernel
    cases h : Timeline.run pin pinTables [.addClock () 10 0, .schedule () 3 1, .runUntil 9]
        (.start pin pinTables ⟨0, false⟩) with
    | error e =>
      rw [h] at hrun
      cases hrun
    | ok tl =>
      rw [h] at hrun
      obtain ⟨htime, hlen⟩ : tl.time = 9 ∧ (tl.appliedAt 8).length = 1 := by
        simpa [Except.map] using hrun
      refine ⟨tl, rfl, fun hlaw => ?_⟩
      have := (hlaw.past 8 (by omega)).length_eq
      rw [hlen] at this
      exact absurd this (by decide)
  · have hrun : (Timeline.run pin pinTables [.addClock () 10 0, .schedule () 3 2, .runUntil 9]
        (.start pin pinTables ⟨0, false⟩)).map (fun _ => ()) = .error .panic := by decide +kernel
    cases h : Timeline.run pin pinTables [.addClock () 10 0, .schedule () 3 2, .runUntil 9]
        (.start pin pinTables ⟨0, false⟩) with
    | error e =>
      rw [h] at hrun
      simpa [Except.map] using hrun
    | ok tl =>
      rw [h] at hrun
      cases hrun

end Celox.Runtime
