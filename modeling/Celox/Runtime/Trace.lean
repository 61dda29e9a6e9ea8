import Celox.Runtime.Step

/-! # Which executor calls a step makes

`Executor.traced` instruments an executor with the sequence of its evaluations,
commits and settles, in the order the engine asks for them. The lemmas below
say, loop by loop, what a completed run of the engine adds to that sequence. -/
namespace Celox.Runtime
open Exec

/-- The calls that decide a step's commit discipline. A settle records the state
it reached, so that a trace shows the values an edge was detected on. -/
inductive Call (σ Ev : Type) where
  | evalComb (settled : σ)
  | evalApply (event : Ev)
  | evalOnly (event : Ev)
  | apply (event : Ev)

variable {σ Sig Ev ε : Type}

/-- An operation of the facade that appends `c` to the trace when it succeeds. -/
def logged (f : EStateM ε σ Unit) (c : σ → List (Call σ Ev)) :
    EStateM ε (σ × List (Call σ Ev)) Unit := fun s =>
  match f s.1 with
  | .ok () t => .ok () (t, s.2 ++ c t)
  | .error e t => .error e (t, s.2)

theorem call_logged_ok {f : EStateM ε σ Unit} {c : σ → List (Call σ Ev)}
    {s t : σ × List (Call σ Ev)} (h : call (logged f c) s = .ok () t) :
    f s.1 = .ok () t.1 ∧ t.2 = s.2 ++ c t.1 := by
  have h := call_ok h
  unfold logged at h
  split at h
  · rename_i u hf
    cases h
    exact ⟨hf, rfl⟩
  · cases h

def Executor.traced (x : Executor σ Sig Ev ε) : Executor (σ × List (Call σ Ev)) Sig Ev ε where
  numEvents s := x.numEvents s.1
  set signal v s := (x.set signal v s.1, s.2)
  getAs s signal := x.getAs s.1 signal
  clearTriggeredBits s := (x.clearTriggeredBits s.1, s.2)
  markTriggeredBit id s := (x.markTriggeredBit id s.1, s.2)
  getTriggeredBits s := x.getTriggeredBits s.1
  evalComb := logged x.evalComb fun s => [.evalComb s]
  evalApplyFfAt event := logged (x.evalApplyFfAt event) fun _ => [.evalApply event]
  evalOnlyFfAt event := logged (x.evalOnlyFfAt event) fun _ => [.evalOnly event]
  applyFfAt event := logged (x.applyFfAt event) fun _ => [.apply event]
  stageExternalEvent event t := logged (x.stageExternalEvent event t) fun _ => []
  fireExternalEvent event t := logged (x.fireExternalEvent event t) fun _ => []
  finishTimedStep t s := (x.finishTimedStep t s.1, s.2)

@[simp] theorem traced_isNonzero (x : Executor σ Sig Ev ε) (s : σ × List (Call σ Ev)) (g : Sig) :
    x.traced.isNonzero s g = x.isNonzero s.1 g := rfl

@[simp] theorem traced_getTriggeredBits (x : Executor σ Sig Ev ε) (s : σ × List (Call σ Ev)) :
    x.traced.getTriggeredBits s = x.getTriggeredBits s.1 := rfl

/-! ## Instrumentation does not change a run -/

/-- A result without its trace. -/
def erase {α δ τ : Type} : EStateM.Result δ (σ × τ) α → EStateM.Result δ σ α
  | .ok a s => .ok a s.1
  | .error e s => .error e s.1

/-- The instrumented computation `f` computes what `g` does. -/
def Erases {α τ : Type} (f : Exec ε (σ × τ) α) (g : Exec ε σ α) : Prop := ∀ s, erase (f s) = g s.1

namespace Erases
variable {α β τ : Type}

theorem pure (a : α) : Erases (Pure.pure a : Exec ε (σ × τ) α) (Pure.pure a) := fun _ => rfl

theorem throw (e : Fault ε) : Erases (throw e : Exec ε (σ × τ) α) (throw e) := fun _ => rfl

theorem modify {f : σ × τ → σ × τ} {g : σ → σ} (h : ∀ s, (f s).1 = g s.1) :
    Erases (modify f : Exec ε _ _) (modify g) := fun s => congrArg (EStateM.Result.ok ()) (h s)

theorem bind {f : Exec ε (σ × τ) α} {g : Exec ε σ α} {k : α → Exec ε (σ × τ) β}
    {l : α → Exec ε σ β} (h : Erases f g) (hk : ∀ a, Erases (k a) (l a)) :
    Erases (f >>= k) (g >>= l) := by
  intro s
  have hs := h s
  change erase (EStateM.bind f k s) = EStateM.bind g l s.1
  unfold EStateM.bind
  cases hf : f s with
  | ok a t =>
    rw [hf] at hs
    rw [← hs]
    exact hk a t
  | error e t =>
    rw [hf] at hs
    rw [← hs]
    rfl

theorem get {k : σ × τ → Exec ε (σ × τ) β} {l : σ → Exec ε σ β} (h : ∀ s, Erases (k s) (l s.1)) :
    Erases (get >>= k) (get >>= l) := fun s => h s s

theorem logged (f : EStateM ε σ Unit) (c : σ → List (Call σ Ev)) :
    Erases (call (logged f c)) (call f) := by
  intro s
  unfold call Runtime.logged
  cases f s.1 <;> rfl

theorem index (xs : List α) (i : Nat) :
    Erases (index xs i : Exec ε (σ × τ) α) (index xs i) := by
  unfold Runtime.index
  cases xs[i]? with
  | some a => exact pure a
  | none => exact throw _

theorem forEach {xs : List α} {f : α → Exec ε (σ × τ) Unit} {g : α → Exec ε σ Unit}
    (h : ∀ a, Erases (f a) (g a)) : Erases (forEach xs f) (forEach xs g) := by
  induction xs with
  | nil => exact pure ()
  | cons a rest ih => exact bind (h a) fun _ => ih

end Erases

section Erasure
variable (x : Executor σ Sig Ev ε) (st : SimulationState Sig Ev) (tm : Nat) (has : Bool)

theorem replaceTriggers_erases :
    Erases (replaceTriggersWithStableEdges x.traced st) (replaceTriggersWithStableEdges x st) := by
  refine .bind (.modify fun _ => rfl) fun _ => .forEach fun e => ?_
  refine .bind (.index _ _) fun kind => .get fun s => ?_
  rw [traced_isNonzero]
  split
  · exact .modify fun _ => rfl
  · exact .pure _

theorem settleComb_erases : Erases (settleComb x.traced st has) (settleComb x st has) := by
  refine .bind (.logged _ _) fun _ => ?_
  cases has with
  | true => exact replaceTriggers_erases x st
  | false => exact .pure _

theorem evalDomain_erases (info : EventInfo Ev) :
    Erases (evalDomain x.traced tm info) (evalDomain x tm info) := by
  unfold evalDomain
  cases info.evalOnlyEvent with
  | some event => exact .bind (.logged _ _) fun _ => .logged _ _
  | none =>
    cases info.evalFfEvent with
    | some event => exact .bind (.logged _ _) fun _ => .logged _ _
    | none => exact .throw _

theorem evalMarked_erases : ∀ (ids : List Nat) (m : Marks),
    Erases (evalMarked x.traced st tm ids m) (evalMarked x st tm ids m)
  | [], m => .pure m
  | id :: rest, m => by
    unfold evalMarked
    split
    · exact evalMarked_erases rest m
    · refine .bind (.index _ _) fun info => ?_
      split
      · exact evalMarked_erases rest _
      · exact .bind (evalDomain_erases x tm info) fun _ => evalMarked_erases rest _

theorem fastEvent_erases (triggered marked : BitSet) :
    Erases (fastEvent st triggered marked : Exec ε (σ × List (Call σ Ev)) _)
      (fastEvent st triggered marked : Exec ε σ _) := by
  unfold fastEvent
  cases triggered.isEmpty with
  | false => exact .pure _
  | true =>
    rcases marked.toList with _ | ⟨id, _ | ⟨id', rest⟩⟩
    · exact .pure _
    · exact .bind (.index _ _) fun _ => .pure _
    · exact .pure _

theorem discover_erases : ∀ (fuel : Nat) (m : Marks),
    Erases (discover x.traced st tm has fuel m) (discover x st tm has fuel m)
  | 0, _ => .throw _
  | fuel + 1, m => by
    unfold discover
    refine .get fun s => .bind (.modify fun _ => rfl) fun _ => ?_
    rw [traced_getTriggeredBits]
    refine .bind (fastEvent_erases st _ _) fun f => ?_
    cases f with
    | some f =>
      refine .bind ?_ fun _ => .pure _
      exact .bind (.logged _ _) fun _ => .bind (.logged _ _) fun _ => .bind (.logged _ _) fun _ =>
        settleComb_erases x st has
    | none =>
      refine .bind (evalMarked_erases x st tm _ _) fun m' => ?_
      split
      · exact discover_erases fuel m'
      · exact .pure _

theorem commitRound_erases (newly : List Nat) :
    Erases (commitRound x.traced st tm newly) (commitRound x st tm newly) := by
  refine .bind (.forEach fun d => .bind (.index _ _) fun info => ?_) fun _ =>
    .forEach fun d => .bind (.index _ _) fun info => ?_
  · cases info.applyEvent with
    | some event => exact .logged _ _
    | none => exact .pure _
  · cases info.evalFfEvent with
    | some event => exact .logged _ _
    | none => exact .pure _

theorem rounds_erases (bound : Nat) : ∀ (fuel : Nat) (m : Marks),
    Erases (rounds x.traced st tm has bound fuel m) (rounds x st tm has bound fuel m)
  | 0, _ => .throw _
  | fuel + 1, m => by
    unfold rounds
    refine .bind (discover_erases x st tm has _ _) fun r => ?_
    cases r with
    | fast m' => exact .bind (commitRound_erases x st tm _) fun _ => rounds_erases bound fuel m'
    | round m' =>
      dsimp only
      split
      · exact .pure _
      · exact .bind (commitRound_erases x st tm _) fun _ =>
          .bind (settleComb_erases x st has) fun _ => rounds_erases bound fuel m'

theorem markScheduled_erases [DecidableEq Sig] : ∀ (batch : List (SimEvent Sig Ev))
    (acc : BitSet × Bool), Erases (markScheduled x.traced st batch acc) (markScheduled x st batch acc)
  | [], acc => .pure acc
  | e :: rest, (ids, has) => by
    unfold markScheduled
    cases st.signalToId.lookup e.signal with
    | none => exact markScheduled_erases rest _
    | some id =>
      refine .bind (.index _ _) fun kind => ?_
      split
      · exact .bind (.modify fun _ => rfl) fun _ => markScheduled_erases rest _
      · exact markScheduled_erases rest _

theorem retrigger_erases (ids : BitSet) :
    Erases (retrigger x.traced st ids has) (retrigger x st ids has) := by
  unfold retrigger
  split
  · split
    · exact replaceTriggers_erases x st
    · exact .bind (.modify fun _ => rfl) fun _ => .forEach fun _ => .modify fun _ => rfl
  · exact .pure _

/-- The writes of a batch do not touch the trace. -/
theorem traced_writes (x : Executor σ Sig Ev ε) : ∀ (batch : List (SimEvent Sig Ev))
    (s : σ × List (Call σ Ev)), batch.foldl (fun s e => x.traced.set e.signal e.nextVal s) s =
      (batch.foldl (fun s e => x.set e.signal e.nextVal s) s.1, s.2)
  | [], _ => rfl
  | e :: rest, s => traced_writes x rest (x.traced.set e.signal e.nextVal s)

theorem settle_erases [DecidableEq Sig] (batch : List (SimEvent Sig Ev)) :
    Erases (settle x.traced st tm batch) (settle x st tm batch) := by
  refine .bind (.modify fun s => by rw [traced_writes]) fun _ => .bind (.modify fun _ => rfl) fun _ =>
    .bind (markScheduled_erases x st _ _) fun acc => .bind (.logged _ _) fun _ =>
      .bind (retrigger_erases x st _ _) fun _ => rounds_erases x st tm _ _ _ _

/-- A step of the instrumented executor is a step of the executor. -/
theorem step_erases [LinearOrder Sig] [EventHandle Ev] (s : σ × List (Call σ Ev)) :
    (st.step x.traced s).1 = (st.step x s.1).1 ∧
      erase (st.step x.traced s).2 = (st.step x s.1).2 := by
  unfold SimulationState.step
  cases st.scheduler.popAllAtNextTime with
  | none => exact ⟨rfl, rfl⟩
  | some p =>
    obtain ⟨t, batch, q⟩ := p
    have h := settle_erases x { st with scheduler := { q with time := t } } t batch s
    dsimp only
    cases hs : settle x.traced { st with scheduler := { q with time := t } } t batch s with
    | error e u =>
      rw [hs] at h
      rw [← h]
      exact ⟨rfl, rfl⟩
    | ok a u =>
      rw [hs] at h
      rw [← h]
      have hr : recordSettled x.traced { st with scheduler := { q with time := t } } u =
          recordSettled x { st with scheduler := { q with time := t } } u.1 := rfl
      simp only [erase, hr]
      split <;> exact ⟨rfl, rfl⟩

end Erasure

/-! ## Trigger bits -/

/-- The trigger bits are a set of their own: clearing and marking do what they
say and no signal changes. -/
structure Executor.TriggerBits (x : Executor σ Sig Ev ε) : Prop where
  clear_bits : ∀ s, (x.getTriggeredBits (x.clearTriggeredBits s)).toList = []
  mark_bits : ∀ s id k, k ∈ (x.getTriggeredBits (x.markTriggeredBit id s)).toList →
    k = id ∨ k ∈ (x.getTriggeredBits s).toList
  clear_value : ∀ s g, x.isNonzero (x.clearTriggeredBits s) g = x.isNonzero s g
  mark_value : ∀ s id g, x.isNonzero (x.markTriggeredBit id s) g = x.isNonzero s g

/-- Event `id` made an active transition: the value its signal had when the
previous step settled and the one it has in `u` form an edge of its kind. -/
def Edge (x : Executor σ Sig Ev ε) (self : SimulationState Sig Ev) (u : σ) (id : Nat) : Prop :=
  ∃ signal kind, (signal, id) ∈ self.eventSignals ∧ self.domainKinds[id]? = some kind ∧
    stableEdge kind (self.lastClockValues.contains id) (x.isNonzero u signal) = true

/-- Every reported trigger bit belongs to a transition seen in `u`. -/
def BitsSound (x : Executor σ Sig Ev ε) (self : SimulationState Sig Ev) (u s : σ) : Prop :=
  ∀ id ∈ (x.getTriggeredBits s).toList, Edge x self u id

/-- No signal differs between `u` and `s`, as far as the edge detectors can tell. -/
def SameValues (x : Executor σ Sig Ev ε) (u s : σ) : Prop :=
  ∀ g, x.isNonzero s g = x.isNonzero u g

theorem modify_ok {f : σ → σ} {s t : σ} {u : Unit} (h : (modify f : Exec ε σ Unit) s = .ok u t) :
    t = f s := by
  cases h
  rfl

/-- What `replace_triggers_with_stable_edges` marks are the transitions of the
state it is called in; the trace does not see it. -/
theorem replaceTriggers_traced {x : Executor σ Sig Ev ε} {self : SimulationState Sig Ev}
    (hb : x.TriggerBits) {s t : σ × List (Call σ Ev)}
    (h : replaceTriggersWithStableEdges x.traced self s = .ok () t) :
    BitsSound x self s.1 t.1 ∧ SameValues x s.1 t.1 ∧ t.2 = s.2 := by
  obtain ⟨_, s₁, hc, hloop⟩ := bind_ok h
  have hs₁ := modify_ok hc
  subst hs₁
  refine forEach_inv (I := fun t => BitsSound x self s.1 t.1 ∧ SameValues x s.1 t.1 ∧ t.2 = s.2)
    ?_ hloop ?_
  · rintro ⟨g, id⟩ hm u v hbody ⟨hsound, hsame, hlog⟩
    obtain ⟨kind, u₁, hk, hbody⟩ := bind_ok hbody
    obtain ⟨hkind, rfl⟩ := index_ok hk
    obtain ⟨w, u₂, hget, hbody⟩ := bind_ok hbody
    cases hget
    split at hbody
    · rename_i hedge
      have hv := modify_ok hbody
      subst hv
      refine ⟨?_, fun g => ?_, hlog⟩
      · intro k hk
        rcases hb.mark_bits _ _ _ hk with rfl | hk
        · refine ⟨g, kind, hm, hkind, ?_⟩
          rw [← hsame g]
          exact hedge
        · exact hsound k hk
      · exact (hb.mark_value _ _ g).trans (hsame g)
    · obtain ⟨_, rfl⟩ := pure_ok hbody
      exact ⟨hsound, hsame, hlog⟩
  · refine ⟨fun id hid => ?_, hb.clear_value s.1, rfl⟩
    have := hb.clear_bits s.1
    simp only [Executor.traced] at hid
    rw [this] at hid
    cases hid

end Celox.Runtime
