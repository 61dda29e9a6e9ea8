import Celox.Runtime.Trace

/-! # The rounds of a step

Every round of the engine evaluates domains that were not evaluated before in
the same step, so the loops end, and a completed step is a list of rounds over
pairwise different domains. -/
namespace Celox.Runtime
open Exec

variable {σ Sig Ev ε : Type}

/-! ## The loops end -/

/-- A computation that never stops for lack of fuel. -/
def NoFuel {α : Type} (f : Exec ε σ α) : Prop := ∀ s t, f s ≠ .error .outOfFuel t

namespace NoFuel
variable {α β : Type}

theorem pure (a : α) : NoFuel (Pure.pure a : Exec ε σ α) := fun _ _ h => by cases h

theorem panic : NoFuel (throw .panic : Exec ε σ α) := fun _ _ h => by cases h

theorem modify (f : σ → σ) : NoFuel (modify f : Exec ε σ Unit) := fun _ _ h => by cases h

theorem get : NoFuel (get : Exec ε σ σ) := fun _ _ h => by cases h

theorem call (f : EStateM ε σ α) : NoFuel (call f) := by
  intro s t h
  unfold Exec.call at h
  split at h <;> cases h

theorem index (xs : List α) (i : Nat) : NoFuel (index xs i : Exec ε σ α) := by
  unfold Runtime.index
  cases xs[i]? with
  | some a => exact pure a
  | none => exact panic

/-- It is enough that the continuation does not, on the results that occur. -/
theorem bind_of_ok {f : Exec ε σ α} {g : α → Exec ε σ β} {s t : σ} (hf : NoFuel f)
    (hg : ∀ a u, f s = .ok a u → g a u ≠ .error .outOfFuel t) :
    (f >>= g) s ≠ .error .outOfFuel t := by
  intro h
  change EStateM.bind f g s = _ at h
  unfold EStateM.bind at h
  split at h
  · rename_i a u ha
    exact hg a u ha h
  · rename_i e u ha
    cases h
    exact hf _ _ ha

theorem bind {f : Exec ε σ α} {g : α → Exec ε σ β} (hf : NoFuel f) (hg : ∀ a, NoFuel (g a)) :
    NoFuel (f >>= g) := fun _ _ => bind_of_ok hf fun a u _ => hg a u _

theorem forEach {xs : List α} {body : α → Exec ε σ Unit} (h : ∀ x, NoFuel (body x)) :
    NoFuel (forEach xs body) := by
  induction xs with
  | nil => exact pure ()
  | cons x rest ih => exact bind (h x) fun _ => ih

end NoFuel

theorem replaceTriggers_noFuel (x : Executor σ Sig Ev ε) (self : SimulationState Sig Ev) :
    NoFuel (replaceTriggersWithStableEdges x self) := by
  refine .bind (.modify _) fun _ => .forEach fun e => ?_
  refine .bind (.index _ _) fun kind => .bind .get fun s => ?_
  split
  · exact .modify _
  · exact .pure _

theorem commitRound_noFuel (x : Executor σ Sig Ev ε) (self : SimulationState Sig Ev) (t : Nat)
    (newly : List Nat) : NoFuel (commitRound x self t newly) := by
  refine .bind (.forEach fun id => .bind (.index _ _) fun info => ?_) fun _ =>
    .forEach fun id => .bind (.index _ _) fun info => ?_
  · split
    · exact .call _
    · exact .pure _
  · split
    · exact .call _
    · exact .pure _

theorem evalDomain_noFuel (x : Executor σ Sig Ev ε) (t : Nat) (info : EventInfo Ev) :
    NoFuel (evalDomain x t info) := by
  unfold evalDomain
  split
  · exact .bind (.call _) fun _ => .call _
  · split
    · exact .bind (.call _) fun _ => .call _
    · exact .panic

theorem evalMarked_noFuel (x : Executor σ Sig Ev ε) (self : SimulationState Sig Ev) (t : Nat) :
    ∀ (ids : List Nat) (m : Marks), NoFuel (evalMarked x self t ids m)
  | [], m => .pure m
  | id :: rest, m => by
    unfold evalMarked
    split
    · exact evalMarked_noFuel x self t rest m
    · refine .bind (.index _ _) fun info => ?_
      split
      · exact evalMarked_noFuel x self t rest _
      · exact .bind (evalDomain_noFuel x t info) fun _ => evalMarked_noFuel x self t rest _

theorem fastEvent_noFuel (self : SimulationState Sig Ev) (triggered marked : BitSet) :
    NoFuel (fastEvent self triggered marked : Exec ε σ _) := by
  unfold fastEvent
  split
  · exact .bind (.index _ _) fun _ => .pure _
  · exact .pure _

/-- Event ids not looked at yet in this step. -/
def unseen (self : SimulationState Sig Ev) (discovered : BitSet) : Nat :=
  ((List.range self.eventInfo.length).filter fun id => !discovered.contains id).length

/-- How the marks may change within a round: what was seen stays seen, and the
domains added are new, distinct, and come from events among `ids`. -/
structure Grows (st : SimulationState Sig Ev) (ids : List Nat) (m m' : Marks) (ds : List Nat) :
    Prop where
  newly : m'.newly = m.newly ++ ds
  triggered : ∀ d, d ∈ m'.triggered.toList ↔ d ∈ m.triggered.toList ∨ d ∈ ds
  nodup : ds.Nodup
  fresh : ∀ d ∈ ds, d ∉ m.triggered.toList
  source : ∀ d ∈ ds, ∃ id ∈ ids, ∃ info, st.eventInfo[id]? = some info ∧ info.canonicalId = d
  seen : ∀ id ∈ m.discovered.toList, id ∈ m'.discovered.toList
  any : m'.anyNew = true → m.anyNew = true ∨ ds ≠ []
  progress : ds ≠ [] → ∃ id ∈ m'.discovered.toList,
    id ∉ m.discovered.toList ∧ id < st.eventInfo.length

theorem Grows.refl (self : SimulationState Sig Ev) (ids : List Nat) (m : Marks) :
    Grows self ids m m [] :=
  ⟨by simp, by simp, by simp, by simp, by simp, fun _ h => h, Or.inl, by simp⟩

/-- Each pass starts with `anyNew` cleared. -/
theorem Grows.of_reset {self : SimulationState Sig Ev} {ids ds : List Nat} {m m' : Marks}
    (h : Grows self ids { m with anyNew := false } m' ds) : Grows self ids m m' ds :=
  ⟨h.newly, h.triggered, h.nodup, h.fresh, h.source, h.seen,
    fun ha => .inr ((h.any ha).resolve_left (by simp)), h.progress⟩

theorem unseen_sublist (self : SimulationState Sig Ev) {seen seen' : BitSet}
    (h : ∀ id ∈ seen.toList, id ∈ seen'.toList) :
    ((List.range self.eventInfo.length).filter fun k => !seen'.contains k).Sublist
      ((List.range self.eventInfo.length).filter fun k => !seen.contains k) := by
  refine List.monotone_filter_right _ fun k hk => ?_
  simp only [Bool.not_eq_true', BitSet.contains_eq_false_iff] at hk ⊢
  exact fun hm => hk (h k hm)

theorem Grows.unseen_lt {self : SimulationState Sig Ev} {ids ds : List Nat} {m m' : Marks}
    (h : Grows self ids m m' ds) (hd : ds ≠ []) :
    unseen self m'.discovered < unseen self m.discovered := by
  obtain ⟨id, hnew, hold, hlt⟩ := h.progress hd
  have hp := unseen_sublist self h.seen
  refine Nat.lt_of_le_of_ne hp.length_le fun he => ?_
  have hmem : id ∈ (List.range self.eventInfo.length).filter fun k => !m.discovered.contains k := by
    simpa using ⟨hlt, hold⟩
  rw [← hp.eq_of_length he] at hmem
  simp [hnew] at hmem

/-- One more domain at the front of a pass. -/
theorem Grows.cons {self : SimulationState Sig Ev} {id : Nat} {ids ds : List Nat} {m m' : Marks}
    {info : EventInfo Ev} (hi : self.eventInfo[id]? = some info)
    (hid : id ∉ m.discovered.toList) (hd : info.canonicalId ∉ m.triggered.toList)
    (h : Grows self ids
      { m with
        discovered := m.discovered.insert id
        triggered := m.triggered.insert info.canonicalId
        newly := m.newly ++ [info.canonicalId]
        anyNew := true } m' ds) :
    Grows self (id :: ids) m m' (info.canonicalId :: ds) where
  newly := by rw [h.newly]; simp
  triggered d := by
    rw [h.triggered d]
    simp only [BitSet.mem_insert, List.mem_cons]
    tauto
  nodup := List.nodup_cons.mpr ⟨fun hm => h.fresh _ hm (by simp), h.nodup⟩
  fresh d hm := by
    rcases List.mem_cons.mp hm with rfl | hm
    · exact hd
    · exact fun ht => h.fresh d hm (by simp [ht])
  source d hm := by
    rcases List.mem_cons.mp hm with rfl | hm
    · exact ⟨id, by simp, info, hi, rfl⟩
    · obtain ⟨k, hk, hrest⟩ := h.source d hm
      exact ⟨k, by simp [hk], hrest⟩
  seen k hk := h.seen k (by simp [hk])
  any _ := .inr (by simp)
  progress _ := by
    refine ⟨id, h.seen id (by simp), hid, ?_⟩
    exact (List.getElem?_eq_some_iff.mp hi).1

/-- An event that adds no domain, because it was seen or its domain was. -/
theorem Grows.skip {self : SimulationState Sig Ev} {id : Nat} {ids ds : List Nat} {m m' : Marks}
    {seen : BitSet} (hseen : ∀ k ∈ m.discovered.toList, k ∈ seen.toList)
    (h : Grows self ids { m with discovered := seen } m' ds) : Grows self (id :: ids) m m' ds where
  newly := h.newly
  triggered := h.triggered
  nodup := h.nodup
  fresh := h.fresh
  source d hm := by
    obtain ⟨k, hk, hrest⟩ := h.source d hm
    exact ⟨k, by simp [hk], hrest⟩
  seen k hk := h.seen k (hseen k hk)
  any := h.any
  progress hd := by
    obtain ⟨k, hk, hold, hlt⟩ := h.progress hd
    exact ⟨k, hk, fun hm => hold (hseen k hm), hlt⟩

theorem evalMarked_grows {x : Executor σ Sig Ev ε} {self : SimulationState Sig Ev} {tm : Nat} :
    ∀ {ids : List Nat} {m m' : Marks} {s t : σ}, evalMarked x self tm ids m s = .ok m' t →
      ∃ ds, Grows self ids m m' ds
  | [], m, m', s, t, h => by
    obtain ⟨rfl, _⟩ := pure_ok h
    exact ⟨[], .refl _ _ _⟩
  | id :: rest, m, m', s, t, h => by
    unfold evalMarked at h
    split at h
    · obtain ⟨ds, hg⟩ := evalMarked_grows h
      exact ⟨ds, hg.skip fun _ hk => hk⟩
    · rename_i hseen
      obtain ⟨info, s₁, hidx, h⟩ := bind_ok h
      obtain ⟨hi, rfl⟩ := index_ok hidx
      split at h
      · obtain ⟨ds, hg⟩ := evalMarked_grows h
        exact ⟨ds, hg.skip fun k hk => by simp [hk]⟩
      · rename_i hdom
        obtain ⟨_, s₂, _, h⟩ := bind_ok h
        obtain ⟨ds, hg⟩ := evalMarked_grows h
        exact ⟨_, Grows.cons hi (by simpa using hseen) (by simpa using hdom) hg⟩

theorem Grows.trans {self : SimulationState Sig Ev} {ids ids' ds ds' : List Nat} {m m' m'' : Marks}
    (h : Grows self ids m m' ds) (h' : Grows self ids' { m' with anyNew := false } m'' ds') :
    Grows self (ids ++ ids') m m'' (ds ++ ds') where
  newly := by rw [h'.newly, ← List.append_assoc]; exact congrArg (· ++ ds') h.newly
  triggered d := by
    rw [h'.triggered d, List.mem_append]
    have := h.triggered d
    simp only at this ⊢
    tauto
  nodup := by
    refine List.nodup_append.mpr ⟨h.nodup, h'.nodup, fun a ha b hb he => ?_⟩
    exact h'.fresh b hb ((h.triggered b).mpr (.inr (he ▸ ha)))
  fresh d hm := by
    rcases List.mem_append.mp hm with hm | hm
    · exact h.fresh d hm
    · exact fun ht => h'.fresh d hm ((h.triggered d).mpr (.inl ht))
  source d hm := by
    rcases List.mem_append.mp hm with hm | hm
    · obtain ⟨k, hk, hrest⟩ := h.source d hm
      exact ⟨k, by simp [hk], hrest⟩
    · obtain ⟨k, hk, hrest⟩ := h'.source d hm
      exact ⟨k, by simp [hk], hrest⟩
  seen k hk := h'.seen k (h.seen k hk)
  any ha := by
    rcases h'.any ha with hf | hd
    · cases hf
    · exact .inr (by simp [hd])
  progress hd := by
    by_cases he : ds = []
    · have hd' : ds' ≠ [] := by simpa [he] using hd
      obtain ⟨k, hk, hold, hlt⟩ := h'.progress hd'
      exact ⟨k, hk, fun hm => hold (h.seen k hm), hlt⟩
    · obtain ⟨k, hk, hold, hlt⟩ := h.progress he
      exact ⟨k, h'.seen k hk, hold, hlt⟩

theorem fastEvent_ok {self : SimulationState Sig Ev} {triggered marked : BitSet}
    {r : Option (Nat × EventInfo Ev × Ev)} {s t : σ}
    (h : (fastEvent self triggered marked : Exec ε σ _) s = .ok r t) :
    s = t ∧ ∀ id info event, r = some (id, info, event) →
      triggered.toList = [] ∧ marked.toList = [id] ∧ self.eventInfo[id]? = some info ∧
        info.isCascaded = false ∧ info.evalFfEvent = some event := by
  have hnone : (pure none : Exec ε σ _) s = .ok r t → s = t ∧ ∀ id info event,
      r = some (id, info, event) → triggered.toList = [] ∧ marked.toList = [id] ∧
        self.eventInfo[id]? = some info ∧ info.isCascaded = false ∧
        info.evalFfEvent = some event := fun h => by
    obtain ⟨rfl, rfl⟩ := pure_ok h
    exact ⟨rfl, fun _ _ _ h => by cases h⟩
  unfold fastEvent at h
  cases ht : triggered.isEmpty with
  | false => rw [ht] at h; exact hnone h
  | true =>
    rw [ht] at h
    rcases hm : marked.toList with _ | ⟨id, _ | ⟨id', rest⟩⟩
    · rw [hm] at h hnone; exact hnone h
    · rw [hm] at h
      obtain ⟨info, u, hidx, h⟩ := bind_ok h
      obtain ⟨hi, rfl⟩ := index_ok hidx
      obtain ⟨hr, rfl⟩ := pure_ok h
      refine ⟨rfl, fun id' info' event hsome => ?_⟩
      rw [hsome] at hr
      split at hr
      · cases hr
      · rename_i hc
        obtain ⟨ev, hev, he⟩ := Option.map_eq_some_iff.mp hr
        cases he
        exact ⟨BitSet.isEmpty_iff.mp ht, rfl, hi, by simpa using hc, hev⟩
    · rw [hm] at h hnone; exact hnone h

/-- What one pass through the inner loop body does. -/
theorem discover_succ_ok {x : Executor σ Sig Ev ε} {self : SimulationState Sig Ev} {tm : Nat}
    {has : Bool} {fuel : Nat} {m : Marks} {r : Discovery} {s t : σ}
    (h : discover x self tm has (fuel + 1) m s = .ok r t) :
    (∃ id info event, m.triggered.toList = [] ∧ (x.getTriggeredBits s).toList = [id] ∧
      self.eventInfo[id]? = some info ∧ info.isCascaded = false ∧ info.evalFfEvent = some event ∧
      runFast x self tm has event (x.clearTriggeredBits s) = .ok () t ∧
      r = .fast { m with
        discovered := m.discovered.insert id
        triggered := m.triggered.insert info.canonicalId }) ∨
    (∃ m' u, (fastEvent self m.triggered (x.getTriggeredBits s) : Exec ε σ _)
        (x.clearTriggeredBits s) = .ok none (x.clearTriggeredBits s) ∧
      evalMarked x self tm (x.getTriggeredBits s).toList { m with anyNew := false }
        (x.clearTriggeredBits s) = .ok m' u ∧
      ((m'.anyNew = true ∧ discover x self tm has fuel m' u = .ok r t) ∨
        (m'.anyNew = false ∧ r = .round m' ∧ u = t))) := by
  unfold discover at h
  obtain ⟨s₁, u₁, hget, h⟩ := bind_ok h
  cases hget
  obtain ⟨_, u₂, hmod, h⟩ := bind_ok h
  have := modify_ok hmod
  subst this
  obtain ⟨f, u₃, hf, h⟩ := bind_ok h
  obtain ⟨rfl, hfast⟩ := fastEvent_ok hf
  cases f with
  | some f =>
    obtain ⟨id, info, event⟩ := f
    obtain ⟨ht, hm, hi, hc, he⟩ := hfast id info event rfl
    obtain ⟨_, u₄, hrun, h⟩ := bind_ok h
    obtain ⟨rfl, rfl⟩ := pure_ok h
    exact .inl ⟨id, info, event, ht, hm, hi, hc, he, hrun, rfl⟩
  | none =>
    obtain ⟨m', u₄, hm, h⟩ := bind_ok h
    refine .inr ⟨m', u₄, hf, hm, ?_⟩
    split at h
    · rename_i ha
      exact .inl ⟨ha, h⟩
    · rename_i ha
      obtain ⟨rfl, rfl⟩ := pure_ok h
      exact .inr ⟨by simpa using ha, rfl, rfl⟩

/-- Nothing is discovered without a domain being triggered. -/
def Marks.Anchored (m : Marks) : Prop := m.triggered.toList = [] → m.discovered.toList = []

theorem evalMarked_anchored {x : Executor σ Sig Ev ε} {self : SimulationState Sig Ev} {tm : Nat} :
    ∀ {ids : List Nat} {m m' : Marks} {s t : σ}, evalMarked x self tm ids m s = .ok m' t →
      m.Anchored → m'.Anchored
  | [], m, m', s, t, h, ha => by
    obtain ⟨rfl, _⟩ := pure_ok h
    exact ha
  | id :: rest, m, m', s, t, h, ha => by
    unfold evalMarked at h
    split at h
    · exact evalMarked_anchored h ha
    · obtain ⟨info, s₁, hidx, h⟩ := bind_ok h
      split at h
      · rename_i hdom
        refine evalMarked_anchored h fun he => ?_
        have : info.canonicalId ∈ m.triggered.toList := by simpa using hdom
        rw [show m.triggered.toList = [] from he] at this
        cases this
      · obtain ⟨_, s₂, _, h⟩ := bind_ok h
        refine evalMarked_anchored h fun he => ?_
        have : info.canonicalId ∈ (m.triggered.insert info.canonicalId).toList := by simp
        rw [show (m.triggered.insert info.canonicalId).toList = [] from he] at this
        cases this

def Discovery.marks : Discovery → Marks
  | .fast m => m
  | .round m => m

/-- A completed inner loop saw new events, or there was nothing to commit. -/
theorem discover_progress {x : Executor σ Sig Ev ε} {self : SimulationState Sig Ev} {tm : Nat}
    {has : Bool} : ∀ {fuel : Nat} {m : Marks} {r : Discovery} {s t : σ},
    discover x self tm has fuel m s = .ok r t → m.Anchored →
      r.marks.Anchored ∧ unseen self r.marks.discovered ≤ unseen self m.discovered ∧
      ((∃ m', r = .round m' ∧ m'.newly = m.newly) ∨
        unseen self r.marks.discovered < unseen self m.discovered)
  | 0, m, r, s, t, h, _ => by cases h
  | fuel + 1, m, r, s, t, h, ha => by
    rcases discover_succ_ok h with ⟨id, info, event, ht, hm, hi, hc, he, hrun, rfl⟩ |
      ⟨m', u, _, hmarked, hnext⟩
    · have hnone := ha ht
      have hlt : unseen self (m.discovered.insert id) < unseen self m.discovered := by
        have hg : Grows self [id] m _ _ := .cons hi (by simp [hnone]) (by simp [ht]) (.refl _ _ _)
        exact hg.unseen_lt (by simp)
      refine ⟨fun hempty => ?_, Nat.le_of_lt hlt, .inr hlt⟩
      have : info.canonicalId ∈ (m.triggered.insert info.canonicalId).toList := by simp
      rw [show (m.triggered.insert info.canonicalId).toList = [] from hempty] at this
      cases this
    · obtain ⟨ds, hg⟩ := evalMarked_grows hmarked
      have ha' := evalMarked_anchored hmarked ha
      rcases hnext with ⟨hany, hnext⟩ | ⟨hany, rfl, rfl⟩
      · have hd : ds ≠ [] := by
          rcases hg.any hany with hf | hd
          · cases hf
          · exact hd
        have hlt := hg.unseen_lt hd
        obtain ⟨hr, hle, _⟩ := discover_progress hnext ha'
        exact ⟨hr, Nat.le_of_lt (Nat.lt_of_le_of_lt hle hlt), .inr (Nat.lt_of_le_of_lt hle hlt)⟩
      · by_cases hd : ds = []
        · exact ⟨ha', (unseen_sublist self hg.seen).length_le,
            .inl ⟨m', rfl, by rw [hg.newly, hd]; simp⟩⟩
        · have hlt := hg.unseen_lt hd
          exact ⟨ha', Nat.le_of_lt hlt, .inr hlt⟩

theorem settleComb_noFuel (x : Executor σ Sig Ev ε) (self : SimulationState Sig Ev) (has : Bool) :
    NoFuel (settleComb x self has) := by
  refine .bind (.call _) fun _ => ?_
  split
  · exact replaceTriggers_noFuel x self
  · exact .pure _

theorem runFast_noFuel (x : Executor σ Sig Ev ε) (self : SimulationState Sig Ev) (tm : Nat)
    (has : Bool) (event : Ev) : NoFuel (runFast x self tm has event) :=
  .bind (.call _) fun _ => .bind (.call _) fun _ => .bind (.call _) fun _ =>
    settleComb_noFuel x self has

/-- The inner loop ends within one pass per unseen event, plus one. -/
theorem discover_noFuel (x : Executor σ Sig Ev ε) (self : SimulationState Sig Ev) (tm : Nat)
    (has : Bool) : ∀ (fuel : Nat) (m : Marks), unseen self m.discovered < fuel →
      NoFuel (discover x self tm has fuel m)
  | 0, _, h => absurd h (Nat.not_lt_zero _)
  | fuel + 1, m, h => by
    intro s t
    unfold discover
    refine NoFuel.bind_of_ok .get fun s₁ u₁ _ => ?_
    refine NoFuel.bind_of_ok (.modify _) fun _ u₂ _ => ?_
    refine NoFuel.bind_of_ok (fastEvent_noFuel _ _ _) fun f u₃ _ => ?_
    cases f with
    | some f => exact NoFuel.bind (runFast_noFuel x self tm has _) (fun _ => .pure _) _ _
    | none =>
      refine NoFuel.bind_of_ok (evalMarked_noFuel x self tm _ _) fun m' u₄ hm => ?_
      obtain ⟨ds, hg⟩ := evalMarked_grows hm
      split
      · rename_i hany
        have hd : ds ≠ [] := (hg.any hany).resolve_left (by simp)
        exact discover_noFuel x self tm has fuel m' (by have := hg.unseen_lt hd; simp at this; omega) _ _
      · exact NoFuel.pure _ _ _

/-- The outer loop ends within one round per unseen event, plus one. -/
theorem rounds_noFuel (x : Executor σ Sig Ev ε) (self : SimulationState Sig Ev) (tm : Nat)
    (has : Bool) : ∀ (fuel : Nat) (m : Marks), m.Anchored → unseen self m.discovered < fuel →
      NoFuel (rounds x self tm has (self.eventInfo.length + 1) fuel m)
  | 0, _, _, h => absurd h (Nat.not_lt_zero _)
  | fuel + 1, m, ha, h => by
    have hle : unseen self m.discovered ≤ self.eventInfo.length := by
      unfold unseen
      exact (List.length_filter_le _ _).trans (by simp)
    intro s t
    unfold rounds
    refine NoFuel.bind_of_ok (discover_noFuel x self tm has _ _ (by simp; omega)) fun r u hr => ?_
    obtain ⟨ha', _, hprog⟩ := discover_progress hr ha
    cases r with
    | fast m' =>
      have hlt : unseen self m'.discovered < unseen self m.discovered := by
        rcases hprog with ⟨_, hf, _⟩ | hlt
        · cases hf
        · exact hlt
      exact NoFuel.bind (commitRound_noFuel x self tm _)
        (fun _ => rounds_noFuel x self tm has fuel m' ha' (by omega)) _ _
    | round m' =>
      dsimp only
      split
      · exact NoFuel.pure _ _ _
      · rename_i hne
        have hlt : unseen self m'.discovered < unseen self m.discovered := by
          rcases hprog with ⟨m'', he, hn⟩ | hlt
          · cases he
            simp [hn] at hne
          · exact hlt
        exact NoFuel.bind (commitRound_noFuel x self tm _) (fun _ =>
          .bind (settleComb_noFuel x self has) fun _ =>
            rounds_noFuel x self tm has fuel m' ha' (by omega)) _ _

theorem markScheduled_noFuel [DecidableEq Sig] (x : Executor σ Sig Ev ε)
    (self : SimulationState Sig Ev) : ∀ (batch : List (SimEvent Sig Ev)) (acc : BitSet × Bool),
      NoFuel (markScheduled x self batch acc)
  | [], acc => .pure acc
  | e :: rest, (ids, has) => by
    unfold markScheduled
    split
    · exact markScheduled_noFuel x self rest _
    · refine .bind (.index _ _) fun kind => ?_
      split
      · exact .bind (.modify _) fun _ => markScheduled_noFuel x self rest _
      · exact markScheduled_noFuel x self rest _

theorem retrigger_noFuel (x : Executor σ Sig Ev ε) (self : SimulationState Sig Ev) (ids : BitSet)
    (has : Bool) : NoFuel (retrigger x self ids has) := by
  unfold retrigger
  split
  · split
    · exact replaceTriggers_noFuel x self
    · exact .bind (.modify _) fun _ => .forEach fun _ => .modify _
  · exact .pure _

/-- Neither loop of a step runs out of the fuel `settle` gives it. -/
theorem settle_noFuel [DecidableEq Sig] (x : Executor σ Sig Ev ε) (self : SimulationState Sig Ev)
    (tm : Nat) (batch : List (SimEvent Sig Ev)) : NoFuel (settle x self tm batch) := by
  have hrounds : ∀ has, NoFuel (rounds x self tm has (self.eventInfo.length + 1)
      (self.eventInfo.length + 1) ⟨.empty, .empty, [], false⟩) := fun has =>
    rounds_noFuel x self tm has _ _ (fun _ => rfl) (by
      unfold unseen
      exact Nat.lt_succ_of_le ((List.length_filter_le _ _).trans (by simp)))
  exact .bind (.modify _) fun _ => .bind (.modify _) fun _ =>
    .bind (markScheduled_noFuel x self _ _) fun acc => .bind (.call _) fun _ =>
      .bind (retrigger_noFuel x self _ _) fun _ => hrounds _

end Celox.Runtime
