import Celox.Runtime.Timeline

/-! # Steps that fail

Due events leave the queue before the first evaluation and clocks are re-armed after the last one.
Between the two every call of the executor can end the step, so a step that fails keeps what is due
later and nothing of what was due. -/
namespace Celox.Runtime

section Errors
variable {σ Sig Ev ε : Type} [LinearOrder Sig] [EventHandle Ev]

/-- Clock `id` has its next edge queued: an event that was pending already, or the edge that
follows one that was due. -/
def SimulationState.HasNextEdge (before after : SimulationState Sig Ev) (id : Nat)
    (clock : ClockDef) : Prop :=
  ∃ e ∈ after.scheduler.eventQueue.items, EventHandle.id e.eventRef = id ∧
    (e ∈ before.scheduler.eventQueue.items ∨ ∃ due ∈ before.scheduler.eventQueue.items,
      e = { due with time := due.time + clock.period / 2, nextVal := 1 - due.nextVal })

/-- All registered clocks have their next edge queued, and no event due later than `t` is lost. -/
structure SimulationState.KeepsSchedule (before after : SimulationState Sig Ev) (t : Nat) :
    Prop where
  clocks : ∀ id clock, before.scheduler.clocks[id]? = some (some clock) →
    before.HasNextEdge after id clock
  later : ∀ e ∈ before.scheduler.eventQueue.items, t < e.time →
    e ∈ after.scheduler.eventQueue.items

/-- Every registered clock has an event pending that is due later than `t`. -/
def SimulationState.ClocksDueLater (st : SimulationState Sig Ev) (t : Nat) : Prop :=
  ∀ id clock, st.scheduler.clocks[id]? = some (some clock) →
    ∃ e ∈ st.scheduler.eventQueue.items, EventHandle.id e.eventRef = id ∧ t < e.time

variable {x : Executor σ Sig Ev ε} {st st' : SimulationState Sig Ev} {s u : σ} {fault : Fault ε}

/-- A failed step leaves the queue as taking the batch left it. -/
theorem step_error (h : st.step x s = (st', .error fault u)) (hpanic : fault ≠ .panic) :
    ∃ t batch popped, st.scheduler.popAllAtNextTime = some (t, batch, popped) ∧
      st' = { st with scheduler := { popped with time := t } } := by
  unfold SimulationState.step at h
  cases hp : st.scheduler.popAllAtNextTime with
  | none =>
    rw [hp] at h
    cases h
  | some p =>
    obtain ⟨t, batch, popped⟩ := p
    rw [hp] at h
    dsimp only at h
    refine ⟨t, batch, popped, rfl, ?_⟩
    cases hs : settle x { st with scheduler := { popped with time := t } } t batch s with
    | error e v =>
      rw [hs] at h
      cases h
      rfl
    | ok a v =>
      rw [hs] at h
      dsimp only at h
      cases hr : rearm t batch { popped with time := t } with
      | none =>
        -- recording the settled values comes before the panic of re-arming
        rw [hr] at h
        cases h
        exact absurd rfl hpanic
      | some q =>
        rw [hr] at h
        cases h

omit [LinearOrder Sig] [EventHandle Ev] in
/-- What taking a batch leaves queued is exactly what is due later. -/
theorem mem_popped_iff {sch popped : Scheduler Sig Ev} {t : Nat} {batch : List (SimEvent Sig Ev)}
    (h : sch.popAllAtNextTime = some (t, batch, popped)) (e : SimEvent Sig Ev) :
    e ∈ popped.eventQueue.items ↔ e ∈ sch.eventQueue.items ∧ t < e.time := by
  obtain ⟨t', hnext, heq⟩ := Option.map_eq_some_iff.mp h
  cases heq
  have hsplit := Scheduler.popAt_append t sch.eventQueue.items
  have hmin : ∀ f ∈ sch.eventQueue.items, t ≤ f.time := by
    obtain ⟨first, hfirst, htime⟩ := Option.map_eq_some_iff.mp hnext
    have hordered := sch.eventQueue.ordered
    cases hitems : sch.eventQueue.items with
    | nil => simp [hitems] at hfirst
    | cons g rest =>
      rw [hitems] at hfirst hordered
      obtain rfl : g = first := by simpa using hfirst
      intro f hf
      rcases List.mem_cons.mp hf with rfl | hf
      · exact htime.ge
      · exact htime ▸ (List.pairwise_cons.mp hordered).1 f hf
  constructor
  · intro he
    have hlater := Scheduler.popAt_later sch.eventQueue.ordered hmin e he
    refine ⟨?_, hlater⟩
    rw [← hsplit]
    exact List.mem_append_right _ he
  · rintro ⟨he, hlt⟩
    rw [← hsplit] at he
    rcases List.mem_append.mp he with he | he
    · have := Scheduler.popAt_due e he
      omega
    · exact he

end Errors

/-- The pin with combinational logic that reports an error. -/
def failingPin : Executor Pin Nat PinEvent Unit := { pin with evalComb := throw () }

/-- A clock of period 10 on the pin with its first edge due at 5. -/
def clockedState : SimulationState Nat PinEvent :=
  (pinTables.state .new .empty).addClock .clk 0 10 5

end Celox.Runtime
