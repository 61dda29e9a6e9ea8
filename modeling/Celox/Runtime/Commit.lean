import Celox.Runtime.Discipline

/-! # A step over built tables does not fault

With a backend whose calls succeed and whose trigger bits are event ids, none of
the table accesses of a step is out of bounds and no domain lacks its unit. -/
namespace Celox.Runtime
open Exec

variable {σ Addr Sig Ev ε : Type}

/-- No call of the executor reports an error, and it only marks events it has. -/
structure Executor.Total (x : Executor σ Sig Ev ε) (events : Nat) : Prop where
  evalComb : ∀ s, ∃ t, x.evalComb s = .ok () t
  evalApply : ∀ ev s, ∃ t, x.evalApplyFfAt ev s = .ok () t
  evalOnly : ∀ ev s, ∃ t, x.evalOnlyFfAt ev s = .ok () t
  apply : ∀ ev s, ∃ t, x.applyFfAt ev s = .ok () t
  stage : ∀ ev tm s, ∃ t, x.stageExternalEvent ev tm s = .ok () t
  fire : ∀ ev tm s, ∃ t, x.fireExternalEvent ev tm s = .ok () t
  marks : ∀ s, ∀ id ∈ (x.getTriggeredBits s).toList, id < events

/-- A computation that only fails for lack of fuel. -/
def Clean {α : Type} (f : Exec ε σ α) : Prop := ∀ s e t, f s = .error e t → e = .outOfFuel

namespace Clean
variable {α β : Type}

theorem pure (a : α) : Clean (Pure.pure a : Exec ε σ α) := fun _ _ _ h => by cases h

theorem modify (f : σ → σ) : Clean (modify f : Exec ε σ Unit) := fun _ _ _ h => by cases h

theorem get : Clean (get : Exec ε σ σ) := fun _ _ _ h => by cases h

theorem outOfFuel : Clean (throw .outOfFuel : Exec ε σ α) := fun _ _ _ h => by cases h; rfl

theorem call {f : EStateM ε σ Unit} (h : ∀ s, ∃ t, f s = .ok () t) : Clean (call f) := by
  intro s e t he
  obtain ⟨u, hu⟩ := h s
  unfold Exec.call at he
  rw [hu] at he
  cases he

theorem index {xs : List α} {i : Nat} (h : i < xs.length) : Clean (index xs i : Exec ε σ α) := by
  unfold Runtime.index
  rw [List.getElem?_eq_getElem h]
  exact pure _

theorem bind_of_ok {f : Exec ε σ α} {g : α → Exec ε σ β} (hf : Clean f)
    (hg : ∀ s a u, f s = .ok a u → ∀ e t, g a u = .error e t → e = .outOfFuel) :
    Clean (f >>= g) := by
  intro s e t h
  change EStateM.bind f g s = _ at h
  unfold EStateM.bind at h
  split at h
  · rename_i a u ha
    exact hg s a u ha e t h
  · rename_i e' u he
    cases h
    exact hf _ _ _ he

theorem bind {f : Exec ε σ α} {g : α → Exec ε σ β} (hf : Clean f) (hg : ∀ a, Clean (g a)) :
    Clean (f >>= g) := hf.bind_of_ok fun _ a u _ e t h => hg a u e t h

theorem forEach {xs : List α} {body : α → Exec ε σ Unit} (h : ∀ x ∈ xs, Clean (body x)) :
    Clean (forEach xs body) := by
  induction xs with
  | nil => exact pure ()
  | cons x rest ih =>
    exact bind (h x (by simp)) fun _ => ih fun y hy => h y (by simp [hy])

end Clean

section Safety
variable {x : Executor σ Sig Ev ε} {st : SimulationState Sig Ev} (hclosed : TableClosed st)
  (hkinds : ∀ e ∈ st.eventSignals, e.2 < st.domainKinds.length) (hx : x.Total st.eventInfo.length)

include hkinds in
theorem replaceTriggers_clean : Clean (replaceTriggersWithStableEdges x st) := by
  refine .bind (.modify _) fun _ => .forEach fun e he => ?_
  refine .bind (.index (hkinds e he)) fun kind => .bind .get fun s => ?_
  split
  · exact .modify _
  · exact .pure _

include hx hkinds in
theorem settleComb_clean (has : Bool) : Clean (settleComb x st has) := by
  refine .bind (.call hx.evalComb) fun _ => ?_
  split
  · exact replaceTriggers_clean hkinds
  · exact .pure _

include hx in
theorem evalDomain_clean {tm : Nat} {info : EventInfo Ev} (h : info.evalFfEvent.isSome) :
    Clean (evalDomain x tm info) := by
  obtain ⟨ev, hev⟩ := Option.isSome_iff_exists.mp h
  unfold evalDomain
  cases info.evalOnlyEvent with
  | some event => exact .bind (.call (hx.stage _ _)) fun _ => .call (hx.evalOnly _)
  | none =>
    rw [hev]
    exact .bind (.call (hx.stage _ _)) fun _ => .call (hx.evalApply _)

include hx hclosed in
theorem evalMarked_clean {tm : Nat} : ∀ {ids : List Nat} (_ : ∀ id ∈ ids, id < st.eventInfo.length)
    (m : Marks), Clean (evalMarked x st tm ids m)
  | [], _, m => .pure m
  | id :: rest, hids, m => by
    have hrest : ∀ id ∈ rest, id < st.eventInfo.length := fun k hk => hids k (by simp [hk])
    unfold evalMarked
    split
    · exact evalMarked_clean hrest m
    · refine Clean.bind_of_ok (.index (hids id (by simp))) fun s info u hidx => ?_
      obtain ⟨hi, rfl⟩ := index_ok hidx
      split
      · exact evalMarked_clean hrest _ _
      · exact Clean.bind (evalDomain_clean hx (hclosed id info hi).2)
          (fun _ => evalMarked_clean hrest _) _

theorem fastEvent_clean {triggered marked : BitSet}
    (h : ∀ id ∈ marked.toList, id < st.eventInfo.length) :
    Clean (fastEvent st triggered marked : Exec ε σ _) := by
  unfold fastEvent
  split
  · rename_i id _ hm
    exact .bind (.index (h id (by simp [hm]))) fun _ => .pure _
  · exact .pure _

/-- The domains of a round are events of the table. -/
def Marks.NewlyInTable (st : SimulationState Sig Ev) (m : Marks) : Prop :=
  ∀ d ∈ m.newly, d < st.eventInfo.length

include hclosed in
theorem Grows.newlyInTable {ids ds : List Nat} {m m' : Marks} (h : Grows st ids m m' ds)
    (hm : m.NewlyInTable st) : m'.NewlyInTable st := by
  intro d hd
  rw [h.newly] at hd
  rcases List.mem_append.mp hd with hd | hd
  · exact hm d hd
  · obtain ⟨id, _, info, hi, rfl⟩ := h.source d hd
    exact (List.getElem?_eq_some_iff.mp (hclosed id info hi).1).1

include hclosed in
theorem discover_newlyInTable {tm : Nat} {has : Bool} : ∀ {fuel : Nat} {m : Marks} {r : Discovery}
    {s t : σ}, discover x st tm has fuel m s = .ok r t → m.NewlyInTable st →
      r.marks.NewlyInTable st
  | 0, _, _, _, _, h, _ => by cases h
  | fuel + 1, m, r, s, t, h, hm => by
    rcases discover_succ_ok h with ⟨_, _, _, _, _, _, _, _, _, rfl⟩ | ⟨m', u, _, hmarked, hnext⟩
    · exact hm
    · obtain ⟨ds, hg⟩ := evalMarked_grows hmarked
      have hm' := hg.newlyInTable hclosed hm
      rcases hnext with ⟨_, hnext⟩ | ⟨_, rfl, _⟩
      · exact discover_newlyInTable hnext hm'
      · exact hm'

include hx hclosed hkinds in
theorem discover_clean {tm : Nat} {has : Bool} : ∀ (fuel : Nat) (m : Marks),
    Clean (discover x st tm has fuel m)
  | 0, _ => .outOfFuel
  | fuel + 1, m => by
    unfold discover
    refine .bind .get fun s => .bind (.modify _) fun _ => ?_
    refine .bind (fastEvent_clean (hx.marks s)) fun f => ?_
    cases f with
    | some f =>
      refine .bind ?_ fun _ => .pure _
      exact .bind (.call (hx.stage _ _)) fun _ => .bind (.call (hx.evalApply _)) fun _ =>
        .bind (.call (hx.fire _ _)) fun _ => settleComb_clean hkinds hx has
    | none =>
      refine .bind (evalMarked_clean hclosed hx (hx.marks s) _) fun m' => ?_
      split
      · exact discover_clean fuel m'
      · exact .pure _

include hx in
theorem commitRound_clean {tm : Nat} {newly : List Nat}
    (h : ∀ d ∈ newly, d < st.eventInfo.length) : Clean (commitRound x st tm newly) := by
  refine .bind (.forEach fun d hd => .bind (.index (h d hd)) fun info => ?_) fun _ =>
    .forEach fun d hd => .bind (.index (h d hd)) fun info => ?_
  · split
    · exact .call (hx.apply _)
    · exact .pure _
  · split
    · exact .call (hx.fire _ _)
    · exact .pure _

include hx hclosed hkinds in
theorem rounds_clean {tm : Nat} {has : Bool} {bound : Nat} : ∀ (fuel : Nat) (m : Marks),
    Clean (rounds x st tm has bound fuel m)
  | 0, _ => .outOfFuel
  | fuel + 1, m => by
    unfold rounds
    refine Clean.bind_of_ok (discover_clean hclosed hkinds hx _ _) fun s r u hr => ?_
    have hnew : r.marks.NewlyInTable st :=
      discover_newlyInTable hclosed hr fun d hd => by simp at hd
    cases r with
    | fast m' => exact Clean.bind (commitRound_clean hx hnew) (fun _ => rounds_clean fuel m') _
    | round m' =>
      dsimp only
      split
      · exact Clean.pure _ _
      · exact Clean.bind (commitRound_clean hx hnew) (fun _ =>
          .bind (settleComb_clean hkinds hx has) fun _ => rounds_clean fuel m') _

theorem markScheduled_clean [DecidableEq Sig]
    (hids : ∀ g id, st.signalToId.lookup g = some id → id < st.domainKinds.length) :
    ∀ (batch : List (SimEvent Sig Ev)) (acc : BitSet × Bool), Clean (markScheduled x st batch acc)
  | [], acc => .pure acc
  | e :: rest, (ids, has) => by
    unfold markScheduled
    cases hl : st.signalToId.lookup e.signal with
    | none => exact markScheduled_clean hids rest _
    | some id =>
      refine .bind (.index (hids _ _ hl)) fun kind => ?_
      split
      · exact .bind (.modify _) fun _ => markScheduled_clean hids rest _
      · exact markScheduled_clean hids rest _

include hkinds in
theorem retrigger_clean (ids : BitSet) (has : Bool) : Clean (retrigger x st ids has) := by
  unfold retrigger
  split
  · split
    · exact replaceTriggers_clean hkinds
    · exact .bind (.modify _) fun _ => .forEach fun _ _ => .modify _
  · exact .pure _

end Safety

namespace EventTables
variable [EventHandle Ev]

theorem domainKinds_length (T : EventTables Addr Sig Ev) :
    T.domainKinds.length = T.idToAddr.length := by
  unfold domainKinds
  generalize hk : List.replicate T.idToAddr.length (none : Option DomainKind) = kinds
  have hlen : kinds.length = T.idToAddr.length := by rw [← hk]; simp
  clear hk
  induction T.eventSignals generalizing kinds with
  | nil => exact hlen
  | cons e es ih =>
    rw [List.foldl_cons]
    refine ih _ ?_
    split
    · simpa using hlen
    · exact hlen

theorem eventSignals_lt (T : EventTables Addr Sig Ev) :
    ∀ e ∈ T.eventSignals, e.2 < T.domainKinds.length := by
  intro e he
  obtain ⟨f, hf, hsome⟩ := List.mem_filterMap.mp he
  obtain ⟨a, _, rfl⟩ := List.mem_map.mp hf
  split at hsome
  · cases hsome
  · rename_i hid
    cases hsome
    rw [domainKinds_length]
    cases hev : T.resolveEventOpt a with
    | none => simp [eventId, hev] at hid
    | some ev =>
      obtain ⟨b, hb, _⟩ := T.home a ev hev
      simpa [eventId, hev] using (List.getElem?_eq_some_iff.mp hb).1

/-- Settling a batch over built tables succeeds, whatever the queue holds. -/
theorem settle_succeeds [DecidableEq Addr] [DecidableEq Sig] {T : EventTables Addr Sig Ev}
    (q : Scheduler Sig Ev) (last : BitSet) {x : Executor σ Sig Ev ε}
    (hx : x.Total T.idToAddr.length) (tm : Nat) (batch : List (SimEvent Sig Ev)) (s : σ) :
    ∃ t, settle x (T.state q last) tm batch s = .ok () t := by
  have hx' : x.Total (T.state q last).eventInfo.length := by simpa [state, eventInfo] using hx
  have hkinds : ∀ e ∈ (T.state q last).eventSignals, e.2 < (T.state q last).domainKinds.length :=
    T.eventSignals_lt
  have hclean : Clean (settle x (T.state q last) tm batch) :=
    .bind (.modify _) fun _ => .bind (.modify _) fun _ =>
      .bind (markScheduled_clean (fun _ _ hl => hkinds _ (mem_eventSignals_of_lookup hl)) _ _)
        fun _ => .bind (.call hx'.evalComb) fun _ => .bind (retrigger_clean hkinds _ _) fun _ =>
          rounds_clean (T.state_closed q last) hkinds hx' _ _
  cases h : settle x (T.state q last) tm batch s with
  | ok a t => exact ⟨t, rfl⟩
  | error e t =>
    have := hclean _ _ _ h
    subst this
    exact absurd h (settle_noFuel x _ tm batch _ _)

end EventTables
end Celox.Runtime

/-! ## What a completed step commits

The first round of a step is triggered by the values the batch carries, later
ones by the settled values. The conditions under which both agree, and the
discipline of the whole step under them. -/
namespace Celox.Runtime
open Exec

variable {σ Addr Sig Ev ε : Type}

/-- The values a batch writes are the ones the edge detectors see after the first
settle: events on one signal agree, a written value reads back, and settling
does not drive the scheduled signals. -/
structure Executor.KeepsScheduled (x : Executor σ Sig Ev ε) (batch : List (SimEvent Sig Ev)) :
    Prop where
  agree : ∀ e ∈ batch, ∀ f ∈ batch, e.signal = f.signal → (e.nextVal != 0) = (f.nextVal != 0)
  set_same : ∀ e ∈ batch, ∀ s, x.isNonzero (x.set e.signal e.nextVal s) e.signal = (e.nextVal != 0)
  set_other : ∀ e ∈ batch, ∀ f ∈ batch, e.signal ≠ f.signal →
    ∀ s, x.isNonzero (x.set e.signal e.nextVal s) f.signal = x.isNonzero s f.signal
  settle : ∀ s t, x.evalComb s = .ok () t →
    ∀ e ∈ batch, x.isNonzero t e.signal = x.isNonzero s e.signal

/-- Writing a batch whose events agree leaves each signal at its event's value. -/
theorem Executor.KeepsScheduled.written [DecidableEq Sig] {x : Executor σ Sig Ev ε}
    {batch : List (SimEvent Sig Ev)} (h : x.KeepsScheduled batch) {f : SimEvent Sig Ev}
    (hf : f ∈ batch) : ∀ (es : List (SimEvent Sig Ev)) (s : σ), (∀ e ∈ es, e ∈ batch) →
      (f ∈ es ∨ x.isNonzero s f.signal = (f.nextVal != 0)) →
        x.isNonzero (es.foldl (fun s e => x.set e.signal e.nextVal s) s) f.signal = (f.nextVal != 0)
  | [], s, _, hs => by simpa using hs
  | e :: es, s, hes, hs => by
    have he := hes e (by simp)
    refine h.written hf es _ (fun e he => hes e (by simp [he])) ?_
    by_cases hsig : e.signal = f.signal
    · right
      rw [← hsig, h.set_same e he, h.agree e he f hf hsig]
    · rcases hs with hmem | hval
      · rcases List.mem_cons.mp hmem with rfl | hmem
        · exact absurd rfl hsig
        · exact .inl hmem
      · exact .inr ((h.set_other e he f hf hsig s).trans hval)

/-- Whether some event of the batch is on an event signal (`has_scheduled_event_signal`). -/
def SimulationState.schedulesEvent [DecidableEq Sig] (st : SimulationState Sig Ev)
    (batch : List (SimEvent Sig Ev)) : Bool :=
  batch.any fun e => (st.signalToId.lookup e.signal).isSome

/-- An event of the batch is an active edge of event `id` by its own value. -/
def ScheduledEdge [DecidableEq Sig] (st : SimulationState Sig Ev) (batch : List (SimEvent Sig Ev))
    (id : Nat) : Prop :=
  ∃ e ∈ batch, ∃ kind, st.signalToId.lookup e.signal = some id ∧ st.domainKinds[id]? = some kind ∧
    scheduledEdge kind (st.lastClockValues.contains id) (e.nextVal != 0) = true

theorem ScheduledEdge.cons [DecidableEq Sig] {st : SimulationState Sig Ev} {e : SimEvent Sig Ev}
    {batch : List (SimEvent Sig Ev)} {id : Nat} (h : ScheduledEdge st batch id) :
    ScheduledEdge st (e :: batch) id := by
  obtain ⟨f, hf, rest⟩ := h
  exact ⟨f, by simp [hf], rest⟩

theorem markScheduled_traced [DecidableEq Sig] {x : Executor σ Sig Ev ε}
    {st : SimulationState Sig Ev} (hb : x.TriggerBits) :
    ∀ {batch : List (SimEvent Sig Ev)} {ids ids' : BitSet} {has has' : Bool}
      {s t : σ × List (Call σ Ev)},
      markScheduled x.traced st batch (ids, has) s = .ok (ids', has') t →
        t.2 = s.2 ∧ SameValues x s.1 t.1 ∧ has' = (has || st.schedulesEvent batch) ∧
        ∀ id ∈ ids'.toList, id ∈ ids.toList ∨ ScheduledEdge st batch id
  | [], ids, ids', has, has', s, t, h => by
    obtain ⟨he, rfl⟩ := pure_ok h
    cases he
    exact ⟨rfl, fun _ => rfl, by simp [SimulationState.schedulesEvent], fun _ => .inl⟩
  | e :: rest, ids, ids', has, has', s, t, h => by
    unfold markScheduled at h
    cases hl : st.signalToId.lookup e.signal with
    | none =>
      rw [hl] at h
      obtain ⟨hlog, hval, hhas, hids⟩ := markScheduled_traced hb h
      refine ⟨hlog, hval, ?_, fun id hid => (hids id hid).imp_right .cons⟩
      rw [hhas]
      simp [SimulationState.schedulesEvent, hl]
    | some k =>
      rw [hl] at h
      have hany : st.schedulesEvent (e :: rest) = true := by
        simp [SimulationState.schedulesEvent, hl]
      obtain ⟨kind, s₁, hidx, h⟩ := bind_ok h
      obtain ⟨hk, rfl⟩ := index_ok hidx
      split at h
      · rename_i hedge
        obtain ⟨_, s₂, hmod, h⟩ := bind_ok h
        have hs₂ := modify_ok hmod
        subst hs₂
        obtain ⟨hlog, hval, hhas, hids⟩ := markScheduled_traced hb h
        refine ⟨hlog, fun g => (hval g).trans (hb.mark_value _ _ g), ?_, fun id hid => ?_⟩
        · rw [hhas, hany]
          simp
        · rcases hids id hid with hid | hid
          · rcases BitSet.mem_insert.mp hid with rfl | hid
            · exact .inr ⟨e, by simp, kind, hl, hk, hedge⟩
            · exact .inl hid
          · exact .inr hid.cons
      · obtain ⟨hlog, hval, hhas, hids⟩ := markScheduled_traced hb h
        refine ⟨hlog, hval, ?_, fun id hid => (hids id hid).imp_right .cons⟩
        rw [hhas, hany]
        simp

/-- The trigger bits of the first round, when the scheduled values are kept. -/
theorem retrigger_traced {x : Executor σ Sig Ev ε} {st : SimulationState Sig Ev} {ids : BitSet}
    {has : Bool} (hb : x.TriggerBits) {s t : σ × List (Call σ Ev)}
    (hids : ∀ id ∈ ids.toList, Edge x st s.1 id)
    (hbits : has = false → BitsSound x st s.1 s.1)
    (h : retrigger x.traced st ids has s = .ok () t) :
    t.2 = s.2 ∧ BitsSound x st s.1 t.1 := by
  unfold retrigger at h
  cases has with
  | false =>
    obtain ⟨_, rfl⟩ := pure_ok h
    exact ⟨rfl, hbits rfl⟩
  | true =>
    simp only [if_true] at h
    split at h
    · obtain ⟨hsound, _, hlog⟩ := replaceTriggers_traced hb h
      exact ⟨hlog, hsound⟩
    · obtain ⟨_, s₁, hmod, h⟩ := bind_ok h
      have hs₁ := modify_ok hmod
      subst hs₁
      refine forEach_inv (I := fun t => t.2 = s.2 ∧ BitsSound x st s.1 t.1) ?_ h ⟨rfl, ?_⟩
      · rintro id hid u v hbody ⟨hlog, hsound⟩
        have hv := modify_ok hbody
        subst hv
        refine ⟨hlog, fun k hk => ?_⟩
        rcases hb.mark_bits _ _ _ hk with rfl | hk
        · exact hids k hid
        · exact hsound k hk
      · intro k hk
        simp only [Executor.traced, hb.clear_bits] at hk
        cases hk

/-- The calls of a step that keep the commit discipline: one settle, then rounds
over pairwise different domains, each of which made an active transition as seen
in the state settled last before its round, and no more rounds than domains. -/
def CommitDiscipline (x : Executor σ Sig Ev ε) (st : SimulationState Sig Ev)
    (calls : List (Call σ Ev)) : Prop :=
  ∃ s₀ rs, calls = .evalComb s₀ :: rs.flatMap (Round.calls st) ∧ Disciplined x st .empty s₀ rs ∧
    rs.length ≤ (st.eventInfo.map (·.canonicalId)).dedup.length

theorem settle_traced [DecidableEq Addr] [DecidableEq Sig] [EventHandle Ev]
    {T : EventTables Addr Sig Ev} (q : Scheduler Sig Ev) (last : BitSet)
    {x : Executor σ Sig Ev ε} {tm : Nat} {batch : List (SimEvent Sig Ev)}
    (hunits : SplitUnits (T.state q last)) (hb : x.TriggerBits) (hx : x.SilentEval)
    (hkeep : x.KeepsScheduled batch)
    (hmarks : (T.state q last).schedulesEvent batch = false → x.HonestMarks (T.state q last))
    {s t : σ × List (Call σ Ev)} (h : settle x.traced (T.state q last) tm batch s = .ok () t) :
    ∃ s₀ rs, t.2 = s.2 ++ .evalComb s₀ :: rs.flatMap (Round.calls (T.state q last)) ∧
      Disciplined x (T.state q last) .empty s₀ rs := by
  obtain ⟨_, s₁, hwrite, h⟩ := bind_ok h
  obtain ⟨_, s₂, hclear, h⟩ := bind_ok h
  obtain ⟨⟨ids, has⟩, s₃, hmark, h⟩ := bind_ok h
  obtain ⟨_, s₄, hcomb, h⟩ := bind_ok h
  obtain ⟨_, s₅, hretrigger, hrounds⟩ := bind_ok h
  have hs₁ := modify_ok hwrite
  have hs₂ := modify_ok hclear
  obtain ⟨hlog₃, hval₃, hhas, hids⟩ := markScheduled_traced hb hmark
  obtain ⟨hsettle, hlog₄⟩ := call_logged_ok hcomb
  have hhas : has = (T.state q last).schedulesEvent batch := by simpa using hhas
  have hseen : ∀ e ∈ batch, x.isNonzero s₄.1 e.signal = (e.nextVal != 0) := by
    intro e he
    rw [hkeep.settle _ _ hsettle e he, hval₃ e.signal, hs₂]
    change x.isNonzero (x.clearTriggeredBits s₁.1) e.signal = _
    rw [hb.clear_value, hs₁, traced_writes]
    exact hkeep.written he batch s.1 (fun _ => id) (.inl he)
  have hedges : ∀ id ∈ ids.toList, Edge x (T.state q last) s₄.1 id := by
    intro id hid
    obtain ⟨e, he, kind, hl, hk, hedge⟩ := (hids id hid).resolve_left (by simp)
    refine ⟨e.signal, kind, EventTables.mem_eventSignals_of_lookup hl, hk, ?_⟩
    rw [hseen e he]
    exact stableEdge_of_scheduledEdge hedge
  have hmarks' : has = false → x.HonestMarks (T.state q last) := fun hf => hmarks (hhas ▸ hf)
  obtain ⟨hlog₅, hsound⟩ := retrigger_traced hb hedges
    (fun hf => hmarks' hf _ _ hsettle) hretrigger
  obtain ⟨rs, hrs, hd⟩ := rounds_traced (T.state_closed q last) hunits hb hx hmarks'
    (m := ⟨.empty, .empty, [], false⟩) (fun _ => rfl) (fun d hd => by simp at hd) hsound hrounds
  refine ⟨s₄.1, rs, ?_, hd⟩
  rw [hrs, hlog₅, hlog₄, hlog₃, hs₂, hs₁, traced_writes]
  simp [Executor.traced]

/-- The backend and the batch due next, as a step needs them to commit each domain
on a transition of its own signal and on a consistent snapshot. -/
structure StepConditions [DecidableEq Sig] (x : Executor σ Sig Ev ε)
    (st : SimulationState Sig Ev) : Prop where
  bits : x.TriggerBits
  silent : x.SilentEval
  split : SplitUnits st
  batch : ∀ tm batch q, st.scheduler.popAllAtNextTime = some (tm, batch, q) →
    x.KeepsScheduled batch ∧ (st.schedulesEvent batch = false → x.HonestMarks st)

/-- The edge rules do not read the queue. -/
theorem Fires.of_queue [DecidableEq Addr] [EventHandle Ev] {T : EventTables Addr Sig Ev}
    {q q' : Scheduler Sig Ev} {last : BitSet} {x : Executor σ Sig Ev ε} :
    ∀ {rs : List (Round σ)} {u : σ}, Fires x (T.state q last) u rs → Fires x (T.state q' last) u rs
  | [], _, h => h
  | _ :: _, _, h => ⟨h.1, Fires.of_queue h.2⟩

/-- A backend with one posedge clock pin and a flip-flop domain on it. -/
structure Pin where
  value : UInt8
  triggered : Bool
  deriving DecidableEq

inductive PinEvent where
  | clk
  deriving DecidableEq

instance : EventHandle PinEvent := ⟨fun _ => 0⟩

def pin : Executor Pin Nat PinEvent Unit where
  numEvents _ := 1
  set _ v s := { s with value := v }
  getAs s _ := s.value
  clearTriggeredBits s := { s with triggered := false }
  markTriggeredBit id s := { s with triggered := s.triggered || id == 0 }
  getTriggeredBits s := if s.triggered then .insert .empty 0 else .empty
  evalComb := pure ()
  evalApplyFfAt _ := pure ()
  evalOnlyFfAt _ := pure ()
  applyFfAt _ := pure ()
  stageExternalEvent _ _ := pure ()
  fireExternalEvent _ _ := pure ()
  finishTimedStep _ s := s

def pinTables : EventTables Unit Nat PinEvent where
  orderedEvents := [()]
  cascadedEvents := []
  canonical a := a
  variableKind _ := some .clockPosedge
  resolveSignal _ := 0
  resolveEventOpt _ := some .clk
  resolveEvalOnlyEvent _ := none
  resolveApplyEvent _ := none
  idToAddr := [()]
  canonical_idem _ := rfl
  home _ _ _ := ⟨(), rfl, rfl⟩
  resolves _ _ := rfl

/-- The pin low and `clk` scheduled for the given values, all at time 10. -/
def pinState (values : List UInt8) : SimulationState Nat PinEvent :=
  pinTables.state (values.foldl (fun q v => q.push ⟨10, .clk, 0, v⟩) .new) .empty

/-- The calls of one step from there. -/
def pinCalls (values : List UInt8) : List (Call Pin PinEvent) :=
  match ((pinState values).step pin.traced (⟨0, false⟩, [])).2 with
  | .ok _ t => t.2
  | .error _ t => t.2

theorem pin_conditions : StepConditions pin (pinState [1]) where
  bits := by
    refine ⟨fun _ => rfl, fun s id k hk => ?_, fun _ _ => rfl, fun _ _ _ => rfl⟩
    simp only [pin, Bool.or_eq_true, beq_iff_eq] at hk ⊢
    split at hk
    · rename_i h
      rcases h with h | rfl
      · exact .inr (by simpa [h] using hk)
      · exact .inl (by simpa using hk)
    · simp at hk
  silent := ⟨fun _ _ _ _ h hs => by cases h; exact hs, fun _ _ _ h hs => by cases h; exact hs⟩
  split := .inr ⟨rfl, by decide⟩
  batch := by
    intro tm batch q h
    have hpop : (pinState [1]).scheduler.popAllAtNextTime.map (fun p => p.2.1) =
        some [⟨10, .clk, 0, 1⟩] := rfl
    rw [h] at hpop
    cases hpop
    refine ⟨⟨by decide, ?_, ?_, ?_⟩, fun hf => absurd hf (by decide)⟩
    · intro e he s
      rw [List.mem_singleton.mp he]
      rfl
    · intro e he f hf hne
      rw [List.mem_singleton.mp he, List.mem_singleton.mp hf] at hne
      exact absurd rfl hne
    · intro s t ht e _
      cases ht
      rfl

end Celox.Runtime
