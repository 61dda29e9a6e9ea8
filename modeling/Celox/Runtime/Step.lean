import Mathlib

/-! # What the timed engine asks of a backend

The engine of `celox-runtime` is generic over a backend and over the facade
that drives it. Both are one record of operations here, over an arbitrary
state type: an operation that can fail keeps the state it reached, as a
`&mut` receiver does. Panics of the engine itself are a second kind of fault,
apart from the errors the facade reports. -/
namespace Celox.Runtime

/-- Why a call did not return normally: an error code of the facade, or a Rust
panic (arithmetic overflow, an index out of bounds, `unreachable!`). The last
constructor ends a loop of the source that ran out of the fuel its model has. -/
inductive Fault (ε : Type) where
  | error (code : ε)
  | panic
  | outOfFuel
  deriving Repr, DecidableEq

/-- A fallible operation on the executor's state. -/
abbrev Exec (ε σ α : Type) := EStateM (Fault ε) σ α

namespace Exec
variable {ε σ α β : Type}

theorem bind_ok {x : Exec ε σ α} {f : α → Exec ε σ β} {s t : σ} {b : β}
    (h : (x >>= f) s = .ok b t) : ∃ a u, x s = .ok a u ∧ f a u = .ok b t := by
  change EStateM.bind x f s = _ at h
  unfold EStateM.bind at h
  split at h
  · rename_i a u hx
    exact ⟨a, u, hx, h⟩
  · cases h

theorem bind_of_ok {x : Exec ε σ α} {f : α → Exec ε σ β} {s u : σ} {a : α}
    (h : x s = .ok a u) : (x >>= f) s = f a u := by
  change EStateM.bind x f s = _
  simp only [EStateM.bind, h]

theorem pure_ok {s t : σ} {a b : α} (h : (pure a : Exec ε σ α) s = .ok b t) : a = b ∧ s = t := by
  cases h
  exact ⟨rfl, rfl⟩

/-- `?` on an operation of the facade: it fails with an error code, never otherwise. -/
def call (f : EStateM ε σ α) : Exec ε σ α := fun s =>
  match f s with
  | .ok a t => .ok a t
  | .error e t => .error (.error e) t

theorem call_ok {f : EStateM ε σ α} {s t : σ} {a : α} (h : call f s = .ok a t) : f s = .ok a t := by
  unfold call at h
  split at h
  · rename_i b u hf
    cases h
    exact hf
  · cases h

/-- `for` over a list, stopping at the first fault. -/
def forEach (xs : List α) (body : α → Exec ε σ Unit) : Exec ε σ Unit :=
  match xs with
  | [] => pure ()
  | x :: rest => do
    body x
    forEach rest body

/-- What every iteration of a completed loop preserves, the whole loop does. -/
theorem forEach_inv {xs : List α} {body : α → Exec ε σ Unit} {I : σ → Prop}
    (step : ∀ x ∈ xs, ∀ s t, body x s = .ok () t → I s → I t) :
    ∀ {s t}, forEach xs body s = .ok () t → I s → I t := by
  induction xs with
  | nil =>
    intro s t h hs
    obtain ⟨_, rfl⟩ := pure_ok h
    exact hs
  | cons x rest ih =>
    intro s t h hs
    obtain ⟨_, u, hx, hr⟩ := bind_ok h
    exact ih (fun y hy => step y (by simp [hy])) hr (step x (by simp) s u hx hs)

end Exec

/-- `celox_design::DomainKind`. -/
inductive DomainKind where
  | clockPosedge
  | clockNegedge
  | resetAsyncHigh
  | resetAsyncLow
  | other
  deriving Repr, DecidableEq

/-- `bit_set::BitSet`: a finite set of indices, iterated in ascending order. -/
structure BitSet where
  toList : List Nat
  sorted : toList.Pairwise (· < ·)
  deriving DecidableEq

namespace BitSet

def empty : BitSet := ⟨[], .nil⟩

def contains (b : BitSet) (i : Nat) : Bool := b.toList.contains i

/-- The place of `i` in an ascending list. -/
def place (i : Nat) : List Nat → List Nat
  | [] => [i]
  | j :: rest => if i < j then i :: j :: rest else if i = j then j :: rest else j :: place i rest

theorem mem_place {i k : Nat} : ∀ {l : List Nat}, k ∈ place i l ↔ k = i ∨ k ∈ l
  | [] => by simp [place]
  | j :: rest => by
    unfold place
    split
    · simp
    · split
      · rename_i h; subst h; simp
      · simp only [List.mem_cons, mem_place (l := rest)]
        tauto

theorem place_sorted {i : Nat} : ∀ {l : List Nat}, l.Pairwise (· < ·) → (place i l).Pairwise (· < ·)
  | [], _ => by simp [place]
  | j :: rest, h => by
    obtain ⟨hj, hr⟩ := List.pairwise_cons.mp h
    unfold place
    split
    · rename_i hij
      refine List.pairwise_cons.mpr ⟨?_, h⟩
      intro k hk
      rcases List.mem_cons.mp hk with rfl | hk
      · exact hij
      · exact Nat.lt_trans hij (hj k hk)
    · split
      · exact h
      · refine List.pairwise_cons.mpr ⟨?_, place_sorted hr⟩
        intro k hk
        rcases mem_place.mp hk with rfl | hk
        · omega
        · exact hj k hk

def insert (b : BitSet) (i : Nat) : BitSet := ⟨place i b.toList, place_sorted b.sorted⟩

def remove (b : BitSet) (i : Nat) : BitSet := ⟨b.toList.filter (· ≠ i), b.sorted.filter _⟩

def isEmpty (b : BitSet) : Bool := b.toList.isEmpty

def count (b : BitSet) : Nat := b.toList.length

@[simp] theorem contains_iff {b : BitSet} {i : Nat} : b.contains i = true ↔ i ∈ b.toList := by
  simp [contains]

@[simp] theorem contains_eq_false_iff {b : BitSet} {i : Nat} :
    b.contains i = false ↔ i ∉ b.toList := by
  rw [← contains_iff, Bool.not_eq_true]

@[simp] theorem mem_insert {b : BitSet} {i k : Nat} :
    k ∈ (b.insert i).toList ↔ k = i ∨ k ∈ b.toList := mem_place

@[simp] theorem mem_remove {b : BitSet} {i k : Nat} :
    k ∈ (b.remove i).toList ↔ k ∈ b.toList ∧ k ≠ i := by simp [remove]

@[simp] theorem mem_empty {k : Nat} : k ∈ empty.toList ↔ False := by simp [empty]

theorem nodup (b : BitSet) : b.toList.Nodup := b.sorted.imp (fun h => by omega)

theorem isEmpty_iff {b : BitSet} : b.isEmpty = true ↔ b.toList = [] := by simp [isEmpty]

end BitSet

/-- The backend handle of one compiled event domain (`EventHandle`). -/
class EventHandle (Ev : Type) where
  id : Ev → Nat

/-- `SimulationExecutor` together with the parts of its `SimBackend` the engine
uses. `ε` is `SimulatorErrorCode`. -/
structure Executor (σ Sig Ev ε : Type) where
  numEvents : σ → Nat
  set : Sig → UInt8 → σ → σ
  getAs : σ → Sig → UInt8
  clearTriggeredBits : σ → σ
  markTriggeredBit : Nat → σ → σ
  getTriggeredBits : σ → BitSet
  evalComb : EStateM ε σ Unit
  evalApplyFfAt : Ev → EStateM ε σ Unit
  evalOnlyFfAt : Ev → EStateM ε σ Unit
  applyFfAt : Ev → EStateM ε σ Unit
  stageExternalEvent : Ev → Nat → EStateM ε σ Unit
  fireExternalEvent : Ev → Nat → EStateM ε σ Unit
  finishTimedStep : Nat → σ → σ

/-- Runtime metadata for one event domain (`EventInfo`). -/
structure EventInfo (Ev : Type) where
  canonicalId : Nat
  isCascaded : Bool
  evalFfEvent : Option Ev
  evalOnlyEvent : Option Ev
  applyEvent : Option Ev
  deriving Repr, DecidableEq

/-! ## The timed event queue

`celox-runtime/src/scheduler.rs`: pending events ordered by time, then event
id, then signal, and the batch of all events at the next time. -/

/-- Number of values of a `u64`. Simulation times are `u64`. -/
def u64Size : Nat := 2 ^ 64

structure ClockDef where
  period : Nat
  deriving Repr, DecidableEq

structure SimEvent (Sig Ev : Type) where
  time : Nat
  eventRef : Ev
  signal : Sig
  nextVal : UInt8
  deriving Repr, DecidableEq

variable {Sig Ev : Type}

section Order
variable [LinearOrder Sig] [EventHandle Ev]

/-- `SimEvent::cmp`: earlier times compare greater, since the heap is a max-heap. -/
def SimEvent.cmp (self other : SimEvent Sig Ev) : Ordering :=
  (compare other.time self.time).then
    ((compare (EventHandle.id other.eventRef) (EventHandle.id self.eventRef)).then
      (compare other.signal self.signal))

theorem SimEvent.time_le_of_cmp {a b : SimEvent Sig Ev} (h : a.cmp b ≠ .lt) : a.time ≤ b.time := by
  by_contra hlt
  have hc : compare b.time a.time = .lt := Nat.compare_eq_lt.mpr (by omega)
  exact h (by simp [SimEvent.cmp, hc, Ordering.then])

theorem SimEvent.time_ge_of_cmp {a b : SimEvent Sig Ev} (h : a.cmp b ≠ .gt) : b.time ≤ a.time := by
  by_contra hlt
  have hc : compare b.time a.time = .gt := Nat.compare_eq_gt.mpr (by omega)
  exact h (by simp [SimEvent.cmp, hc, Ordering.then])

/-- `e` before the first pending event that compares smaller. -/
def enqueue (e : SimEvent Sig Ev) : List (SimEvent Sig Ev) → List (SimEvent Sig Ev)
  | [] => [e]
  | f :: rest => if e.cmp f = .gt then e :: f :: rest else f :: enqueue e rest

theorem enqueue_perm (e : SimEvent Sig Ev) : ∀ l, (enqueue e l).Perm (e :: l)
  | [] => .refl _
  | f :: rest => by
    unfold enqueue
    split
    · exact .refl _
    · exact ((enqueue_perm e rest).cons f).trans (.swap e f rest)

theorem enqueue_ordered (e : SimEvent Sig Ev) : ∀ {l : List (SimEvent Sig Ev)},
    l.Pairwise (fun a b => a.time ≤ b.time) → (enqueue e l).Pairwise (fun a b => a.time ≤ b.time)
  | [], _ => by simp [enqueue]
  | f :: rest, h => by
    obtain ⟨hf, hr⟩ := List.pairwise_cons.mp h
    unfold enqueue
    split
    · rename_i hgt
      have hef : e.time ≤ f.time := SimEvent.time_le_of_cmp (by rw [hgt]; decide)
      refine List.pairwise_cons.mpr ⟨?_, h⟩
      intro g hg
      rcases List.mem_cons.mp hg with rfl | hg
      · exact hef
      · exact Nat.le_trans hef (hf g hg)
    · rename_i hgt
      refine List.pairwise_cons.mpr ⟨?_, enqueue_ordered e hr⟩
      intro g hg
      rcases List.mem_cons.mp ((enqueue_perm e rest).mem_iff.mp hg) with rfl | hg
      · exact SimEvent.time_ge_of_cmp hgt
      · exact hf g hg

end Order

/-- `BinaryHeap<SimEvent>` as the sequence in which `pop` returns its items. The
order among items that compare equal is unspecified; here it is that of the pushes. -/
structure BinaryHeap (Sig Ev : Type) where
  items : List (SimEvent Sig Ev)
  ordered : items.Pairwise (fun a b => a.time ≤ b.time)

def BinaryHeap.push [LinearOrder Sig] [EventHandle Ev] (q : BinaryHeap Sig Ev) (e : SimEvent Sig Ev) : BinaryHeap Sig Ev :=
  ⟨enqueue e q.items, enqueue_ordered e q.ordered⟩

structure Scheduler (Sig Ev : Type) where
  time : Nat
  clocks : List (Option ClockDef)
  eventQueue : BinaryHeap Sig Ev

namespace Scheduler

def new : Scheduler Sig Ev := ⟨0, [], ⟨[], .nil⟩⟩

def nextEventTime (s : Scheduler Sig Ev) : Option Nat := s.eventQueue.items.head?.map (·.time)

def push [LinearOrder Sig] [EventHandle Ev] (s : Scheduler Sig Ev) (e : SimEvent Sig Ev) : Scheduler Sig Ev :=
  { s with eventQueue := s.eventQueue.push e }

/-- The loop of `pop_all_at_next_time`: pop while the greatest item is due at `t`. -/
def popAt (t : Nat) : List (SimEvent Sig Ev) → List (SimEvent Sig Ev) × List (SimEvent Sig Ev)
  | [] => ([], [])
  | e :: rest => if e.time = t then ((e :: (popAt t rest).1), (popAt t rest).2) else ([], e :: rest)

theorem popAt_append (t : Nat) : ∀ l : List (SimEvent Sig Ev), (popAt t l).1 ++ (popAt t l).2 = l
  | [] => rfl
  | e :: rest => by
    unfold popAt
    split
    · simp [popAt_append t rest]
    · rfl

theorem popAt_due {t : Nat} : ∀ {l : List (SimEvent Sig Ev)}, ∀ e ∈ (popAt t l).1, e.time = t
  | [] => by simp [popAt]
  | f :: rest => by
    unfold popAt
    split
    · rename_i hf
      intro e he
      rcases List.mem_cons.mp he with rfl | he
      · exact hf
      · exact popAt_due e he
    · simp

/-- What stays queued is due later, when nothing was due earlier. -/
theorem popAt_later {t : Nat} : ∀ {l : List (SimEvent Sig Ev)},
    l.Pairwise (fun a b => a.time ≤ b.time) → (∀ e ∈ l, t ≤ e.time) →
      ∀ e ∈ (popAt t l).2, t < e.time
  | [], _, _ => by simp [popAt]
  | f :: rest, h, ht => by
    obtain ⟨hf, hr⟩ := List.pairwise_cons.mp h
    unfold popAt
    split
    · exact popAt_later hr (fun e he => ht e (by simp [he]))
    · rename_i hne
      have hlt : t < f.time := by have := ht f (by simp); omega
      intro e he
      rcases List.mem_cons.mp he with rfl | he
      · exact hlt
      · exact Nat.lt_of_lt_of_le hlt (hf e he)

theorem popAt_ordered {t : Nat} {l : List (SimEvent Sig Ev)}
    (h : l.Pairwise (fun a b => a.time ≤ b.time)) :
    (popAt t l).2.Pairwise (fun a b => a.time ≤ b.time) := by
  rw [← popAt_append t l] at h
  exact (List.pairwise_append.mp h).2.1

/-- The next time, all events due then in heap order, and the queue without them. -/
def popAllAtNextTime (s : Scheduler Sig Ev) :
    Option (Nat × List (SimEvent Sig Ev) × Scheduler Sig Ev) :=
  s.nextEventTime.map fun t =>
    (t, (popAt t s.eventQueue.items).1,
      { s with eventQueue := ⟨(popAt t s.eventQueue.items).2, popAt_ordered s.eventQueue.ordered⟩ })

end Scheduler
end Celox.Runtime

/-! ## One timed step

`SimulationState` of `celox-runtime/src/simulation.rs`: the event tables, the
values the event signals had when the previous step settled, and `step`, which
takes one batch of events and commits the domains they trigger, round by round. -/
namespace Celox.Runtime
open Exec

/-- `usize::MAX`, the id of a signal that is no event of the backend. -/
def usizeMax : Nat := 2 ^ 64 - 1

structure SimulationState (Sig Ev : Type) where
  scheduler : Scheduler Sig Ev
  lastClockValues : BitSet
  topoSignals : List (Sig × Nat × Nat)
  domainKinds : List (Option DomainKind)
  eventInfo : List (EventInfo Ev)
  signalToId : List (Sig × Nat)

/-- The edge rule of `replace_triggers_with_stable_edges`. -/
def stableEdge (kind : Option DomainKind) (was now : Bool) : Bool :=
  match kind with
  | some .clockPosedge | some .resetAsyncHigh => !was && now
  | some .clockNegedge | some .resetAsyncLow => was && !now
  | _ => was != now

/-- The edge rule `step` applies to the value a scheduled event carries. -/
def scheduledEdge (kind : Option DomainKind) (was now : Bool) : Bool :=
  match kind with
  | some .clockPosedge | some .resetAsyncHigh => !was && now
  | some .clockNegedge | some .resetAsyncLow => was && !now
  | _ => !was && now

/-- A scheduled edge is a stable one, if the signal keeps the scheduled value. -/
theorem stableEdge_of_scheduledEdge {kind : Option DomainKind} {was now : Bool}
    (h : scheduledEdge kind was now = true) : stableEdge kind was now = true := by
  revert h
  cases kind with
  | none => cases was <;> cases now <;> decide
  | some k => cases k <;> cases was <;> cases now <;> decide

section Step
variable {σ Sig Ev ε : Type}

/-- `Vec` indexing. -/
def index {α : Type} (xs : List α) (i : Nat) : Exec ε σ α :=
  match xs[i]? with
  | some a => pure a
  | none => throw .panic

theorem index_ok {α : Type} {xs : List α} {i : Nat} {a : α} {s t : σ}
    (h : (index xs i : Exec ε σ α) s = .ok a t) : xs[i]? = some a ∧ s = t := by
  unfold index at h
  cases hi : xs[i]? with
  | some b =>
    rw [hi] at h
    obtain ⟨rfl, rfl⟩ := pure_ok h
    exact ⟨rfl, rfl⟩
  | none =>
    rw [hi] at h
    cases h

/-- Whether a signal is non-zero, as the edge detectors read it. -/
def Executor.isNonzero (x : Executor σ Sig Ev ε) (s : σ) (signal : Sig) : Bool :=
  x.getAs s signal != 0

/-- The entries of `topo_signals` that are events of the backend. -/
def SimulationState.eventSignals (self : SimulationState Sig Ev) : List (Sig × Nat) :=
  self.topoSignals.filterMap fun e => if e.2.1 = usizeMax then none else some (e.1, e.2.1)

/-- `replace_triggers_with_stable_edges`. -/
def replaceTriggersWithStableEdges (x : Executor σ Sig Ev ε) (self : SimulationState Sig Ev) :
    Exec ε σ Unit := do
  modify x.clearTriggeredBits
  forEach self.eventSignals fun e => do
    let kind ← index self.domainKinds e.2
    let s ← get
    if stableEdge kind (self.lastClockValues.contains e.2) (x.isNonzero s e.1) then
      modify (x.markTriggeredBit e.2)

/-- The first pass over the batch: which scheduled events are active edges of
their own signal, and whether any of them is on an event signal at all. -/
def markScheduled [DecidableEq Sig] (x : Executor σ Sig Ev ε) (self : SimulationState Sig Ev) :
    List (SimEvent Sig Ev) → BitSet × Bool → Exec ε σ (BitSet × Bool)
  | [], acc => pure acc
  | e :: rest, (ids, has) =>
    match self.signalToId.lookup e.signal with
    | none => markScheduled x self rest (ids, has)
    | some id => do
      let kind ← index self.domainKinds id
      if scheduledEdge kind (self.lastClockValues.contains id) (e.nextVal != 0) then
        modify (x.markTriggeredBit id)
        markScheduled x self rest (ids.insert id, true)
      else
        markScheduled x self rest (ids, true)

/-- The domain bookkeeping of one step. `newly` holds the canonical domains
evaluated in the current round and not yet applied. -/
structure Marks where
  triggered : BitSet
  discovered : BitSet
  newly : List Nat
  anyNew : Bool

/-- Stage the external inputs of one domain and evaluate it, without committing
where the backend has the split unit. -/
def evalDomain (x : Executor σ Sig Ev ε) (t : Nat) (info : EventInfo Ev) : Exec ε σ Unit :=
  match info.evalOnlyEvent with
  | some event => do
    call (x.stageExternalEvent (info.evalFfEvent.getD event) t)
    call (x.evalOnlyFfAt event)
  | none =>
    match info.evalFfEvent with
    | some event => do
      call (x.stageExternalEvent event t)
      call (x.evalApplyFfAt event)
    | none => throw .panic

/-- One pass of the inner loop over the marked bits: every domain not yet
triggered in this step is staged and evaluated. -/
def evalMarked (x : Executor σ Sig Ev ε) (self : SimulationState Sig Ev) (t : Nat) :
    List Nat → Marks → Exec ε σ Marks
  | [], m => pure m
  | id :: rest, m =>
    if m.discovered.contains id then evalMarked x self t rest m
    else do
      let m := { m with discovered := m.discovered.insert id }
      let info ← index self.eventInfo id
      if m.triggered.contains info.canonicalId then evalMarked x self t rest m
      else do
        evalDomain x t info
        evalMarked x self t rest
          { m with
            triggered := m.triggered.insert info.canonicalId
            newly := m.newly ++ [info.canonicalId]
            anyNew := true }

/-- Settle combinational logic; under a scheduled event signal the trigger bits
are then those of the settled values, whatever generated code marked. -/
def settleComb (x : Executor σ Sig Ev ε) (self : SimulationState Sig Ev) (has : Bool) :
    Exec ε σ Unit := do
  call x.evalComb
  if has then replaceTriggersWithStableEdges x self

/-- The event of the single-domain fast path, when it may be taken. -/
def fastEvent (self : SimulationState Sig Ev) (triggered marked : BitSet) :
    Exec ε σ (Option (Nat × EventInfo Ev × Ev)) :=
  match triggered.isEmpty, marked.toList with
  | true, [id] => do
    let info ← index self.eventInfo id
    return if info.isCascaded then none else info.evalFfEvent.map fun ev => (id, info, ev)
  | _, _ => return none

/-- The fast path: one domain, evaluated and committed by its combined unit. -/
def runFast (x : Executor σ Sig Ev ε) (self : SimulationState Sig Ev) (t : Nat) (has : Bool)
    (event : Ev) : Exec ε σ Unit := do
  call (x.stageExternalEvent event t)
  call (x.evalApplyFfAt event)
  call (x.fireExternalEvent event t)
  settleComb x self has

/-- How the inner loop ended: through the fast path, which has settled already,
or with the domains of the round evaluated. -/
inductive Discovery where
  | fast (m : Marks)
  | round (m : Marks)

/-- The inner loop: evaluate what is marked until nothing new is. -/
def discover (x : Executor σ Sig Ev ε) (self : SimulationState Sig Ev) (t : Nat) (has : Bool) :
    Nat → Marks → Exec ε σ Discovery
  | 0, _ => throw .outOfFuel
  | fuel + 1, m => do
    let marked := x.getTriggeredBits (← get)
    modify x.clearTriggeredBits
    match ← fastEvent self m.triggered marked with
    | some (id, info, event) =>
      runFast x self t has event
      return .fast { m with
        discovered := m.discovered.insert id
        triggered := m.triggered.insert info.canonicalId }
    | none =>
      let m' ← evalMarked x self t marked.toList { m with anyNew := false }
      if m'.anyNew then discover x self t has fuel m' else return .round m'

/-- Apply the domains evaluated in this round, then fire their external hooks. -/
def commitRound (x : Executor σ Sig Ev ε) (self : SimulationState Sig Ev) (t : Nat)
    (newly : List Nat) : Exec ε σ Unit := do
  forEach newly fun id => do
    let info ← index self.eventInfo id
    match info.applyEvent with
    | some event => call (x.applyFfAt event)
    | none => pure ()
  forEach newly fun id => do
    let info ← index self.eventInfo id
    match info.evalFfEvent with
    | some event => call (x.fireExternalEvent event t)
    | none => pure ()

/-- The outer loop. Each pass is one round; the inner loop gets the fuel `bound`. -/
def rounds (x : Executor σ Sig Ev ε) (self : SimulationState Sig Ev) (t : Nat) (has : Bool)
    (bound : Nat) : Nat → Marks → Exec ε σ Unit
  | 0, _ => throw .outOfFuel
  | fuel + 1, m => do
    match ← discover x self t has bound { m with newly := [] } with
    | .fast m' =>
      commitRound x self t m'.newly
      rounds x self t has bound fuel m'
    | .round m' =>
      if m'.newly.isEmpty then return
      commitRound x self t m'.newly
      settleComb x self has
      rounds x self t has bound fuel m'

/-- The triggers of the first round. Settling before an active source domain
commits may expose transient derived edges, so only the source events count then;
without one, the edges of the settled values do. -/
def retrigger (x : Executor σ Sig Ev ε) (self : SimulationState Sig Ev) (ids : BitSet)
    (has : Bool) : Exec ε σ Unit :=
  if has then
    if ids.isEmpty then replaceTriggersWithStableEdges x self
    else do
      modify x.clearTriggeredBits
      forEach ids.toList fun id => modify (x.markTriggeredBit id)
  else pure ()

/-- The body of `step` between taking the batch and recording the settled values.
The bounds on the two loops are those of `settle_fuel`. -/
def settle [DecidableEq Sig] (x : Executor σ Sig Ev ε) (self : SimulationState Sig Ev) (t : Nat)
    (batch : List (SimEvent Sig Ev)) : Exec ε σ Unit := do
  modify fun s => batch.foldl (fun s e => x.set e.signal e.nextVal s) s
  modify x.clearTriggeredBits
  let (ids, has) ← markScheduled x self batch (.empty, false)
  call x.evalComb
  retrigger x self ids has
  let bound := self.eventInfo.length + 1
  rounds x self t has bound bound ⟨.empty, .empty, [], false⟩

/-- The settled values of all event signals (`last_clock_values`). -/
def recordSettled (x : Executor σ Sig Ev ε) (self : SimulationState Sig Ev) (s : σ) : BitSet :=
  self.eventSignals.foldl
    (fun last e => if x.isNonzero s e.1 then last.insert e.2 else last.remove e.2)
    self.lastClockValues

/-- Queue the next edge of the clock an event belongs to, if its id has one.
`None` is a panic: the time or the `u8` subtraction overflows. -/
def rearm [LinearOrder Sig] [EventHandle Ev] (t : Nat) :
    List (SimEvent Sig Ev) → Scheduler Sig Ev → Option (Scheduler Sig Ev)
  | [], s => some s
  | e :: rest, s =>
    match s.clocks[EventHandle.id e.eventRef]? with
    | some (some clock) =>
      if t + clock.period / 2 < u64Size ∧ e.nextVal ≤ 1 then
        rearm t rest (s.push { e with time := t + clock.period / 2, nextVal := 1 - e.nextVal })
      else none
    | _ => rearm t rest s

/-- `SimulationState::step`. The scheduler keeps the popped queue and the new
time whatever happens after; the rest of `self` changes only on success. -/
def SimulationState.step [LinearOrder Sig] [EventHandle Ev] (x : Executor σ Sig Ev ε)
    (self : SimulationState Sig Ev) (s : σ) :
    SimulationState Sig Ev × EStateM.Result (Fault ε) σ (Option Nat) :=
  match self.scheduler.popAllAtNextTime with
  | none => (self, .ok none s)
  | some (t, batch, popped) =>
    let self := { self with scheduler := { popped with time := t } }
    match settle x self t batch s with
    | .error e s => (self, .error e s)
    | .ok () s =>
      let self := { self with lastClockValues := recordSettled x self s }
      match rearm t batch self.scheduler with
      | none => (self, .error .panic s)
      | some scheduler => ({ self with scheduler }, .ok (some t) (x.finishTimedStep t s))

/-- What a completed step did. -/
theorem step_ok [LinearOrder Sig] [EventHandle Ev] {x : Executor σ Sig Ev ε}
    {st st' : SimulationState Sig Ev} {s t : σ} {tm : Nat}
    (h : st.step x s = (st', .ok (some tm) t)) :
    ∃ batch popped u scheduler, st.scheduler.popAllAtNextTime = some (tm, batch, popped) ∧
      settle x { st with scheduler := { popped with time := tm } } tm batch s = .ok () u ∧
      rearm tm batch { popped with time := tm } = some scheduler ∧
      st' = { st with
        scheduler
        lastClockValues := recordSettled x { st with scheduler := { popped with time := tm } } u } ∧
      t = x.finishTimedStep tm u := by
  unfold SimulationState.step at h
  cases hp : st.scheduler.popAllAtNextTime with
  | none =>
    rw [hp] at h
    cases h
  | some p =>
    obtain ⟨tm', batch, popped⟩ := p
    rw [hp] at h
    dsimp only at h
    cases hs : settle x { st with scheduler := { popped with time := tm' } } tm' batch s with
    | error e u =>
      rw [hs] at h
      cases h
    | ok a u =>
      rw [hs] at h
      dsimp only at h
      cases hr : rearm tm' batch { popped with time := tm' } with
      | none =>
        rw [hr] at h
        cases h
      | some q =>
        rw [hr] at h
        cases h
        exact ⟨batch, popped, u, q, rfl, hs, hr, rfl, rfl⟩

theorem step_of [LinearOrder Sig] [EventHandle Ev] {x : Executor σ Sig Ev ε}
    {st : SimulationState Sig Ev} {s u : σ} {tm : Nat} {batch : List (SimEvent Sig Ev)}
    {popped scheduler : Scheduler Sig Ev}
    (hp : st.scheduler.popAllAtNextTime = some (tm, batch, popped))
    (hs : settle x { st with scheduler := { popped with time := tm } } tm batch s = .ok () u)
    (hr : rearm tm batch { popped with time := tm } = some scheduler) :
    st.step x s = ({ st with
        scheduler
        lastClockValues := recordSettled x { st with scheduler := { popped with time := tm } } u },
      .ok (some tm) (x.finishTimedStep tm u)) := by
  simp only [SimulationState.step, hp, hs, hr]

end Step
end Celox.Runtime
