import Celox.Runtime.Rounds

/-! # The commit discipline of a step

The evaluations, commits and settles of a completed step, as a list of rounds,
and the conditions on the backend and the batch under which every domain a
round commits made an active transition. -/
namespace Celox.Runtime
open Exec

variable {σ Sig Ev ε : Type}

/-- One pass of the outer loop: the domains it committed, in the order they were
evaluated, whether it took the fast path, and the state it settled in. -/
structure Round (σ : Type) where
  domains : List Nat
  fast : Bool
  settled : σ

/-- A unit of each domain of a round, where the table has it. -/
def units (self : SimulationState Sig Ev) (f : EventInfo Ev → Option Ev) (ds : List Nat) : List Ev :=
  ds.filterMap fun d => self.eventInfo[d]?.bind f

/-- The calls of a round: the combined unit of its one domain, or all
evaluations before any commit; then one settle. -/
def Round.calls (self : SimulationState Sig Ev) (r : Round σ) : List (Call σ Ev) :=
  (if r.fast then (units self (·.evalFfEvent) r.domains).map .evalApply
    else (units self (·.evalOnlyEvent) r.domains).map .evalOnly ++
      (units self (·.applyEvent) r.domains).map .apply) ++ [.evalComb r.settled]

/-- The table of `simulation_state`: the entry of an event is the entry of its
canonical domain, which has a combined unit. -/
def TableClosed (self : SimulationState Sig Ev) : Prop :=
  ∀ (id : Nat) (info : EventInfo Ev), self.eventInfo[id]? = some info →
    self.eventInfo[info.canonicalId]? = some info ∧ info.evalFfEvent.isSome

/-- Every domain has both split units, or there is one event only and it is not cascaded. -/
def SplitUnits (self : SimulationState Sig Ev) : Prop :=
  (∀ (id : Nat) (info : EventInfo Ev), self.eventInfo[id]? = some info →
    info.evalOnlyEvent.isSome ∧ info.applyEvent.isSome) ∨
  (self.eventInfo.length = 1 ∧ ∀ info ∈ self.eventInfo, info.isCascaded = false)

theorem units_cons {self : SimulationState Sig Ev} {f : EventInfo Ev → Option Ev} {d : Nat}
    {info : EventInfo Ev} {ev : Ev} {ds : List Nat} (hi : self.eventInfo[d]? = some info)
    (hf : f info = some ev) : units self f (d :: ds) = ev :: units self f ds := by
  simp [units, hi, hf]

/-- Evaluating the marked events with split units: one evaluation per new
domain, no commit, and no trigger bit survives. -/
theorem evalMarked_traced {x : Executor σ Sig Ev ε} {self : SimulationState Sig Ev} {tm : Nat}
    (hclosed : TableClosed self)
    (hsplit : ∀ (id : Nat) (info : EventInfo Ev), self.eventInfo[id]? = some info →
      info.evalOnlyEvent.isSome) :
    ∀ {ids : List Nat} {m m' : Marks} {s t : σ × List (Call σ Ev)} {ds : List Nat},
      evalMarked x.traced self tm ids m s = .ok m' t → m'.newly = m.newly ++ ds →
        t.2 = s.2 ++ (units self (·.evalOnlyEvent) ds).map .evalOnly
  | [], m, m', s, t, ds, h, hds => by
    obtain ⟨rfl, rfl⟩ := pure_ok h
    simp at hds
    simp [hds, units]
  | id :: rest, m, m', s, t, ds, h, hds => by
    unfold evalMarked at h
    split at h
    · exact evalMarked_traced hclosed hsplit h hds
    · obtain ⟨info, s₁, hidx, h⟩ := bind_ok h
      obtain ⟨hi, rfl⟩ := index_ok hidx
      split at h
      · exact evalMarked_traced hclosed hsplit h hds
      · obtain ⟨_, s₂, hdom, h⟩ := bind_ok h
        obtain ⟨ev, hev⟩ := Option.isSome_iff_exists.mp (hsplit id info hi)
        obtain ⟨ds', hg⟩ := evalMarked_grows h
        have hds' : ds = info.canonicalId :: ds' := by
          have := hg.newly
          rw [hds] at this
          simpa using this
        have ih := evalMarked_traced hclosed hsplit h hg.newly
        rw [ih, hds', units_cons (hclosed id info hi).1 hev]
        unfold evalDomain at hdom
        rw [hev] at hdom
        obtain ⟨_, s₃, hstage, heval⟩ := bind_ok hdom
        rw [(call_logged_ok heval).2, (call_logged_ok hstage).2]
        simp

/-- A pass that adds no domain calls nothing. -/
theorem evalMarked_idle {x : Executor σ Sig Ev ε} {self : SimulationState Sig Ev} {tm : Nat} :
    ∀ {ids : List Nat} {m m' : Marks} {s t : σ}, evalMarked x self tm ids m s = .ok m' t →
      m'.newly = m.newly → t = s
  | [], m, m', s, t, h, _ => (pure_ok h).2.symm
  | id :: rest, m, m', s, t, h, hn => by
    unfold evalMarked at h
    split at h
    · exact evalMarked_idle h hn
    · obtain ⟨info, s₁, hidx, h⟩ := bind_ok h
      obtain ⟨hi, rfl⟩ := index_ok hidx
      split at h
      · exact evalMarked_idle h hn
      · obtain ⟨_, s₂, _, h⟩ := bind_ok h
        obtain ⟨ds, hg⟩ := evalMarked_grows h
        have := hg.newly
        rw [hn] at this
        simp at this

theorem evalMarked_inRange {x : Executor σ Sig Ev ε} {self : SimulationState Sig Ev} {tm : Nat} :
    ∀ {ids : List Nat} {m m' : Marks} {s t : σ}, evalMarked x self tm ids m s = .ok m' t →
      ∀ id ∈ ids, id ∈ m.discovered.toList ∨ id < self.eventInfo.length
  | [], _, _, _, _, _ => by simp
  | k :: rest, m, m', s, t, h => by
    unfold evalMarked at h
    split at h
    · rename_i hseen
      intro id hid
      rcases List.mem_cons.mp hid with rfl | hid
      · exact .inl (by simpa using hseen)
      · exact evalMarked_inRange h id hid
    · obtain ⟨info, s₁, hidx, h⟩ := bind_ok h
      obtain ⟨hi, rfl⟩ := index_ok hidx
      have hk := (List.getElem?_eq_some_iff.mp hi).1
      have hrest : ∀ id ∈ rest, id ∈ (m.discovered.insert k).toList ∨
          id < self.eventInfo.length := by
        split at h
        · exact evalMarked_inRange h
        · obtain ⟨_, s₂, _, h⟩ := bind_ok h
          exact evalMarked_inRange h
      intro id hid
      rcases List.mem_cons.mp hid with rfl | hid
      · exact .inr hk
      · rcases hrest id hid with hm | hlt
        · rcases BitSet.mem_insert.mp hm with rfl | hm
          · exact .inr hk
          · exact .inl hm
        · exact .inr hlt

/-- Staging inputs and evaluating without committing set no trigger bit. -/
structure Executor.SilentEval (x : Executor σ Sig Ev ε) : Prop where
  stage : ∀ ev tm s u, x.stageExternalEvent ev tm s = .ok () u →
    (x.getTriggeredBits s).toList = [] → (x.getTriggeredBits u).toList = []
  evalOnly : ∀ ev s u, x.evalOnlyFfAt ev s = .ok () u →
    (x.getTriggeredBits s).toList = [] → (x.getTriggeredBits u).toList = []

theorem evalMarked_silent {x : Executor σ Sig Ev ε} {self : SimulationState Sig Ev} {tm : Nat}
    (hx : x.SilentEval) (hsplit : ∀ (id : Nat) (info : EventInfo Ev),
      self.eventInfo[id]? = some info → info.evalOnlyEvent.isSome) :
    ∀ {ids : List Nat} {m m' : Marks} {s t : σ × List (Call σ Ev)},
      evalMarked x.traced self tm ids m s = .ok m' t →
        (x.getTriggeredBits s.1).toList = [] → (x.getTriggeredBits t.1).toList = []
  | [], m, m', s, t, h, hs => by
    obtain ⟨_, rfl⟩ := pure_ok h
    exact hs
  | id :: rest, m, m', s, t, h, hs => by
    unfold evalMarked at h
    split at h
    · exact evalMarked_silent hx hsplit h hs
    · obtain ⟨info, s₁, hidx, h⟩ := bind_ok h
      obtain ⟨hi, rfl⟩ := index_ok hidx
      split at h
      · exact evalMarked_silent hx hsplit h hs
      · obtain ⟨_, s₂, hdom, h⟩ := bind_ok h
        obtain ⟨ev, hev⟩ := Option.isSome_iff_exists.mp (hsplit id info hi)
        unfold evalDomain at hdom
        rw [hev] at hdom
        obtain ⟨_, s₃, hstage, heval⟩ := bind_ok hdom
        have h₃ := hx.stage _ _ _ _ (call_logged_ok hstage).1 hs
        exact evalMarked_silent hx hsplit h (hx.evalOnly _ _ _ (call_logged_ok heval).1 h₃)

/-- A loop over domains that calls one unit of each. -/
theorem forEach_units {self : SimulationState Sig Ev} {f : EventInfo Ev → Option Ev} {c : Ev → List (Call σ Ev)}
    {body : Nat → Exec ε (σ × List (Call σ Ev)) Unit}
    (hbody : ∀ d s t, body d s = .ok () t → ∃ info, self.eventInfo[d]? = some info ∧
      t.2 = s.2 ++ ((f info).map c).getD []) :
    ∀ {ds : List Nat} {s t : σ × List (Call σ Ev)}, forEach ds body s = .ok () t →
      t.2 = s.2 ++ (units self f ds).flatMap c
  | [], s, t, h => by
    obtain ⟨_, rfl⟩ := pure_ok h
    simp [units]
  | d :: ds, s, t, h => by
    obtain ⟨_, u, hd, h⟩ := bind_ok h
    obtain ⟨info, hi, hu⟩ := hbody d s u hd
    rw [forEach_units hbody h, hu]
    cases hf : f info with
    | none => simp [units, hi, hf]
    | some ev => simp [units_cons hi hf]

theorem commitRound_traced {x : Executor σ Sig Ev ε} {self : SimulationState Sig Ev} {tm : Nat}
    {ds : List Nat} {s t : σ × List (Call σ Ev)}
    (h : commitRound x.traced self tm ds s = .ok () t) :
    t.2 = s.2 ++ (units self (·.applyEvent) ds).map .apply := by
  obtain ⟨_, u, happly, hfire⟩ := bind_ok h
  have hA : u.2 = s.2 ++ (units self (·.applyEvent) ds).flatMap fun ev => [.apply ev] := by
    refine forEach_units (fun d s t hb => ?_) happly
    obtain ⟨info, s₁, hidx, hb⟩ := bind_ok hb
    obtain ⟨hi, rfl⟩ := index_ok hidx
    refine ⟨info, hi, ?_⟩
    cases ha : info.applyEvent with
    | some ev => rw [ha] at hb; simpa using (call_logged_ok hb).2
    | none => rw [ha] at hb; obtain ⟨_, rfl⟩ := pure_ok hb; simp
  have hF : t.2 = u.2 ++ (units self (·.evalFfEvent) ds).flatMap fun _ => [] := by
    refine forEach_units (fun d s t hb => ?_) hfire
    obtain ⟨info, s₁, hidx, hb⟩ := bind_ok hb
    obtain ⟨hi, rfl⟩ := index_ok hidx
    refine ⟨info, hi, ?_⟩
    cases ha : info.evalFfEvent with
    | some ev => rw [ha] at hb; simpa using (call_logged_ok hb).2
    | none => rw [ha] at hb; obtain ⟨_, rfl⟩ := pure_ok hb; simp
  have hnil : ((units self (·.evalFfEvent) ds).flatMap fun _ => ([] : List (Call σ Ev))) = [] :=
    List.flatMap_eq_nil_iff.mpr fun _ _ => rfl
  rw [hF, hA, hnil, List.append_nil, ← List.map_eq_flatMap]

/-- The trigger bits generated code leaves after a settle are transitions of the
settled state. -/
def Executor.HonestMarks (x : Executor σ Sig Ev ε) (self : SimulationState Sig Ev) : Prop :=
  ∀ s t, x.evalComb s = .ok () t → BitsSound x self t t

/-- After a settle the trigger bits are the transitions of the settled state:
those the engine finds under a scheduled event signal, else those of the backend. -/
theorem settleComb_traced {x : Executor σ Sig Ev ε} {self : SimulationState Sig Ev} {has : Bool}
    (hb : x.TriggerBits) (hmarks : has = false → x.HonestMarks self) {s t : σ × List (Call σ Ev)}
    (h : settleComb x.traced self has s = .ok () t) :
    ∃ u, t.2 = s.2 ++ [.evalComb u] ∧ BitsSound x self u t.1 := by
  obtain ⟨_, u, hc, hr⟩ := bind_ok h
  obtain ⟨hcomb, hclog⟩ := call_logged_ok hc
  cases has with
  | true =>
    obtain ⟨hsound, _, hlog⟩ := replaceTriggers_traced hb hr
    exact ⟨u.1, by rw [hlog, hclog], hsound⟩
  | false =>
    obtain ⟨_, rfl⟩ := pure_ok hr
    exact ⟨u.1, hclog, hmarks rfl _ _ hcomb⟩

/-- An event of domain `d` made an active transition, as seen in `u`. -/
def DomainEdge (x : Executor σ Sig Ev ε) (self : SimulationState Sig Ev) (u : σ) (d : Nat) : Prop :=
  ∃ id info, self.eventInfo[id]? = some info ∧ info.canonicalId = d ∧ Edge x self u id

/-- Every round fires only domains with an active transition in the state that
was settled last before it. -/
def Fires (x : Executor σ Sig Ev ε) (self : SimulationState Sig Ev) : σ → List (Round σ) → Prop
  | _, [] => True
  | u, r :: rest => (∀ d ∈ r.domains, DomainEdge x self u d) ∧ Fires x self r.settled rest

/-- The rounds of a step that starts with `triggered` domains already committed. -/
structure Disciplined (x : Executor σ Sig Ev ε) (st : SimulationState Sig Ev) (triggered : BitSet)
    (u : σ) (rs : List (Round σ)) : Prop where
  nonempty : ∀ r ∈ rs, r.domains ≠ []
  nodup : (rs.flatMap (·.domains)).Nodup
  fresh : ∀ d ∈ rs.flatMap (·.domains), d ∉ triggered.toList
  fast : ∀ r ∈ rs, r.fast = true → ∃ d, r.domains = [d]
  split : ∀ r ∈ rs, r.fast = false → ∀ d ∈ r.domains, ∃ info, st.eventInfo[d]? = some info ∧
    info.evalOnlyEvent.isSome ∧ info.applyEvent.isSome
  fires : Fires x st u rs

theorem Disciplined.nil (x : Executor σ Sig Ev ε) (st : SimulationState Sig Ev)
    (triggered : BitSet) (u : σ) : Disciplined x st triggered u [] :=
  ⟨by simp, by simp, by simp, by simp, by simp, trivial⟩

/-- A round in front of rounds over other domains. -/
theorem Disciplined.cons {x : Executor σ Sig Ev ε} {st : SimulationState Sig Ev}
    {triggered triggered' : BitSet} {u : σ} {r : Round σ} {rs : List (Round σ)}
    (hne : r.domains ≠ []) (hnd : r.domains.Nodup)
    (hfresh : ∀ d ∈ r.domains, d ∉ triggered.toList)
    (htrig : ∀ k, k ∈ triggered'.toList ↔ k ∈ triggered.toList ∨ k ∈ r.domains)
    (hfast : r.fast = true → ∃ d, r.domains = [d])
    (hsplit : r.fast = false → ∀ d ∈ r.domains, ∃ info, st.eventInfo[d]? = some info ∧
      info.evalOnlyEvent.isSome ∧ info.applyEvent.isSome)
    (hedge : ∀ d ∈ r.domains, DomainEdge x st u d)
    (h : Disciplined x st triggered' r.settled rs) : Disciplined x st triggered u (r :: rs) where
  nonempty := List.forall_mem_cons.mpr ⟨hne, h.nonempty⟩
  nodup := by
    rw [List.flatMap_cons]
    refine List.nodup_append.mpr ⟨hnd, h.nodup, fun a ha b hb he => ?_⟩
    exact h.fresh b hb ((htrig b).mpr (.inr (he ▸ ha)))
  fresh d hd := by
    rw [List.flatMap_cons] at hd
    rcases List.mem_append.mp hd with hd | hd
    · exact hfresh d hd
    · exact fun ht => h.fresh d hd ((htrig d).mpr (.inl ht))
  fast := List.forall_mem_cons.mpr ⟨hfast, h.fast⟩
  split := List.forall_mem_cons.mpr ⟨hsplit, h.split⟩
  fires := ⟨hedge, h.fires⟩

theorem Fires.domain {x : Executor σ Sig Ev ε} {st : SimulationState Sig Ev} :
    ∀ {u : σ} {rs : List (Round σ)}, Fires x st u rs → ∀ d ∈ rs.flatMap (·.domains),
      d ∈ st.eventInfo.map (·.canonicalId)
  | _, [], _ => by simp
  | _, r :: rs, h => by
    intro d hd
    rw [List.flatMap_cons] at hd
    rcases List.mem_append.mp hd with hd | hd
    · obtain ⟨id, info, hi, rfl, _⟩ := h.1 d hd
      exact List.mem_map_of_mem (List.mem_of_getElem? hi)
    · exact h.2.domain d hd

/-- A step has at most as many rounds as the table has domains. -/
theorem Disciplined.length_le {x : Executor σ Sig Ev ε} {st : SimulationState Sig Ev}
    {triggered : BitSet} {u : σ} {rs : List (Round σ)} (h : Disciplined x st triggered u rs) :
    rs.length ≤ (st.eventInfo.map (·.canonicalId)).dedup.length := by
  have hdom : (rs.flatMap (·.domains)).length ≤ (st.eventInfo.map (·.canonicalId)).dedup.length :=
    (List.subperm_of_subset h.nodup fun d hd => List.mem_dedup.mpr (h.fires.domain d hd)).length_le
  refine Nat.le_trans ?_ hdom
  have hne := h.nonempty
  clear h hdom
  induction rs with
  | nil => simp
  | cons r rs ih =>
    have := List.length_pos_iff.mpr (hne r (by simp))
    have := ih fun r' hr' => hne r' (by simp [hr'])
    simp only [List.flatMap_cons, List.length_append, List.length_cons]
    omega

/-- The marks of a step over the table: domains are events of the table. -/
def Marks.InTable (self : SimulationState Sig Ev) (m : Marks) : Prop :=
  ∀ d ∈ m.triggered.toList, d < self.eventInfo.length

theorem Grows.inTable {self : SimulationState Sig Ev} (hclosed : TableClosed self)
    {ids ds : List Nat} {m m' : Marks} (h : Grows self ids m m' ds) (hm : m.InTable self) :
    m'.InTable self := by
  intro d hd
  rcases (h.triggered d).mp hd with hd | hd
  · exact hm d hd
  · obtain ⟨id, _, info, hi, rfl⟩ := h.source d hd
    exact (List.getElem?_eq_some_iff.mp (hclosed id info hi).1).1

/-- With a single event that is not cascaded, a pass that does not take the fast
path finds nothing to evaluate. -/
theorem single_no_split {x : Executor σ Sig Ev ε} {self : SimulationState Sig Ev}
    (hclosed : TableClosed self) (hone : self.eventInfo.length = 1)
    (hcas : ∀ info ∈ self.eventInfo, info.isCascaded = false) {m m' : Marks} {tm : Nat} {s u : σ}
    {marked : BitSet} {ds : List Nat} (ha : m.Anchored) (hin : m.InTable self)
    (hfast : (fastEvent self m.triggered marked : Exec ε σ _) s = .ok none s)
    (h : evalMarked x self tm marked.toList { m with anyNew := false } s = .ok m' u)
    (hg : Grows self marked.toList { m with anyNew := false } m' ds) : ds = [] := by
  by_contra hne
  obtain ⟨d, hd⟩ := List.exists_mem_of_ne_nil _ hne
  obtain ⟨id, hid, info, hi, hc⟩ := hg.source d hd
  have hidlt := (List.getElem?_eq_some_iff.mp hi).1
  have hclt := (List.getElem?_eq_some_iff.mp (hclosed id info hi).1).1
  have hid0 : id = 0 := by omega
  have hd0 : d = 0 := by omega
  subst hid0
  have htrig : m.triggered.toList = [] := by
    by_contra htne
    obtain ⟨k, hk⟩ := List.exists_mem_of_ne_nil _ htne
    have : k = 0 := by have := hin k hk; omega
    exact hg.fresh d hd (by rw [hd0]; exact this ▸ hk)
  have hmarked : marked.toList = [0] := by
    have hall : ∀ k ∈ marked.toList, k = 0 := by
      intro k hk
      rcases evalMarked_inRange h k hk with hm | hlt
      · rw [show ({ m with anyNew := false } : Marks).discovered.toList = [] from ha htrig] at hm
        cases hm
      · omega
    have hnd := marked.nodup
    rcases hl : marked.toList with _ | ⟨a, _ | ⟨b, rest⟩⟩
    · rw [hl] at hid; cases hid
    · rw [hall a (by simp [hl])]
    · rw [hl] at hnd hall
      have := hall a (by simp)
      have := hall b (by simp)
      simp_all
  obtain ⟨ev, hev⟩ := Option.isSome_iff_exists.mp (hclosed 0 info hi).2
  have hnc := hcas info (List.mem_of_getElem? hi)
  unfold fastEvent at hfast
  rw [show m.triggered.isEmpty = true from BitSet.isEmpty_iff.mpr htrig, hmarked] at hfast
  simp only at hfast
  rw [bind_of_ok (show index self.eventInfo 0 s = .ok info s by simp [index, hi]; rfl)] at hfast
  rw [hnc, hev] at hfast
  cases hfast

/-- Without a trigger bit the inner loop stops at once. -/
theorem discover_quiet {x : Executor σ Sig Ev ε} {self : SimulationState Sig Ev} {tm : Nat}
    {has : Bool} {fuel : Nat} {m : Marks} {r : Discovery} {s t : σ × List (Call σ Ev)}
    (hs : (x.getTriggeredBits s.1).toList = [])
    (h : discover x.traced self tm has fuel m s = .ok r t) :
    r = .round { m with anyNew := false } ∧ t.2 = s.2 := by
  cases fuel with
  | zero => cases h
  | succ fuel =>
    rcases discover_succ_ok h with ⟨id, _, _, _, hm, _⟩ | ⟨m', u, _, hmarked, hnext⟩
    · rw [traced_getTriggeredBits, hs] at hm
      cases hm
    · rw [traced_getTriggeredBits, hs] at hmarked
      obtain ⟨rfl, rfl⟩ := pure_ok hmarked
      rcases hnext with ⟨hf, _⟩ | ⟨_, rfl, rfl⟩
      · cases hf
      · exact ⟨rfl, rfl⟩

theorem domainEdge_of_source {x : Executor σ Sig Ev ε} {self : SimulationState Sig Ev} {u s : σ}
    {m m' : Marks} {ds : List Nat} (hsound : BitsSound x self u s)
    (hg : Grows self (x.getTriggeredBits s).toList m m' ds) : ∀ d ∈ ds, DomainEdge x self u d := by
  intro d hd
  obtain ⟨id, hid, info, hi, hc⟩ := hg.source d hd
  exact ⟨id, info, hi, hc, hsound id hid⟩

section Conditions
variable {x : Executor σ Sig Ev ε} {self : SimulationState Sig Ev}
  {has : Bool} (hclosed : TableClosed self) (hunits : SplitUnits self) (hb : x.TriggerBits)
  (hx : x.SilentEval) (hmarks : has = false → x.HonestMarks self)
include hclosed hunits hb hx hmarks

/-- The inner loop: the fast path on one domain with a transition, or the
evaluation of all domains with one. -/
theorem discover_traced {tm fuel : Nat} {m : Marks} {r : Discovery} {u : σ}
    {s t : σ × List (Call σ Ev)} (ha : m.Anchored) (hin : m.InTable self)
    (hsound : BitsSound x self u s.1)
    (h : discover x.traced self tm has fuel m s = .ok r t) :
    (∃ m' d v, r = .fast m' ∧ m'.newly = m.newly ∧ m.triggered.toList = [] ∧
      (∀ k, k ∈ m'.triggered.toList ↔ k ∈ m.triggered.toList ∨ k = d) ∧ d < self.eventInfo.length ∧
      t.2 = s.2 ++ Round.calls self ⟨[d], true, v⟩ ∧ DomainEdge x self u d ∧
      BitsSound x self v t.1) ∨
    (∃ m' ds ids, r = .round m' ∧ Grows self ids m m' ds ∧ (∀ d ∈ ds, DomainEdge x self u d) ∧
      t.2 = s.2 ++ (units self (·.evalOnlyEvent) ds).map .evalOnly ∧
      ∀ d ∈ ds, ∃ info, self.eventInfo[d]? = some info ∧ info.evalOnlyEvent.isSome ∧
        info.applyEvent.isSome) := by
  cases fuel with
  | zero => cases h
  | succ fuel =>
    rcases discover_succ_ok h with ⟨id, info, event, ht, hm, hi, _, he, hrun, rfl⟩ |
      ⟨m', v, hfast, hmarked, hnext⟩
    · -- the fast path
      obtain ⟨_, s₁, hstage, hrun⟩ := bind_ok hrun
      obtain ⟨_, s₂, heval, hrun⟩ := bind_ok hrun
      obtain ⟨_, s₃, hfire, hset⟩ := bind_ok hrun
      obtain ⟨v, hlog, hv⟩ := settleComb_traced hb hmarks hset
      have hcan := (hclosed id info hi).1
      refine .inl ⟨_, info.canonicalId, v, rfl, rfl, ht, fun k => by simp [ht, or_comm],
        (List.getElem?_eq_some_iff.mp hcan).1, ?_, ?_, hv⟩
      · rw [hlog, (call_logged_ok hfire).2, (call_logged_ok heval).2, (call_logged_ok hstage).2]
        simp [Round.calls, units, hcan, he, Executor.traced]
      · exact ⟨id, info, hi, rfl, hsound id (by simpa using hm ▸ List.mem_singleton_self id)⟩
    · obtain ⟨ds, hg⟩ := evalMarked_grows hmarked
      have hedges := domainEdge_of_source (s := s.1) hsound hg
      rcases hunits with hunits | ⟨hone, hcas⟩
      · -- split units: evaluation marks nothing, so the second pass is quiet
        have hlog := evalMarked_traced hclosed (fun i n h => (hunits i n h).1) hmarked hg.newly
        have hunits' : ∀ d ∈ ds, ∃ info, self.eventInfo[d]? = some info ∧
            info.evalOnlyEvent.isSome ∧ info.applyEvent.isSome := by
          intro d hd
          obtain ⟨id, _, info, hi, rfl⟩ := hg.source d hd
          have hcan := (hclosed id info hi).1
          exact ⟨info, hcan, hunits _ info hcan⟩
        have hquiet : (x.getTriggeredBits v.1).toList = [] :=
          evalMarked_silent hx (fun i n h => (hunits i n h).1) hmarked (hb.clear_bits s.1)
        have hgrow : ∀ m'', m'' = { m' with anyNew := false } →
            Grows self ((x.traced.getTriggeredBits s).toList ++ []) m m'' (ds ++ []) := by
          rintro _ rfl
          exact hg.of_reset.trans (.refl _ _ _)
        rcases hnext with ⟨_, hnext⟩ | ⟨hany, rfl, rfl⟩
        · obtain ⟨rfl, hv⟩ := discover_quiet hquiet hnext
          refine .inr ⟨_, ds, _, rfl, by simpa using hgrow _ rfl, hedges, ?_, hunits'⟩
          rw [hv]
          exact hlog
        · have hm' : m' = { m' with anyNew := false } := by
            cases m'
            simp_all
          exact .inr ⟨m', ds, _, rfl, by simpa using hgrow m' hm', hedges, hlog, hunits'⟩
      · -- a single event takes the fast path or nothing is marked
        have hds : ds = [] := single_no_split hclosed hone hcas ha hin hfast hmarked hg
        subst hds
        have hv : v = x.traced.clearTriggeredBits s := evalMarked_idle hmarked (by simp [hg.newly])
        rcases hnext with ⟨hany, _⟩ | ⟨_, rfl, rfl⟩
        · exact absurd (hg.any hany) (by simp)
        · exact .inr ⟨m', [], _, rfl, hg.of_reset, by simp,
            by simp [hv, units, Executor.traced], by simp⟩

/-- A completed outer loop is a list of rounds over new domains, each of which
saw a transition in the state settled before its round. -/
theorem rounds_traced {tm bound : Nat} : ∀ {fuel : Nat} {m : Marks} {u : σ}
    {s t : σ × List (Call σ Ev)}, m.Anchored → m.InTable self → BitsSound x self u s.1 →
      rounds x.traced self tm has bound fuel m s = .ok () t →
        ∃ rs, t.2 = s.2 ++ rs.flatMap (Round.calls self) ∧ Disciplined x self m.triggered u rs
  | 0, _, _, _, _, _, _, _, h => by cases h
  | fuel + 1, m, u, s, t, ha, hin, hsound, h => by
    unfold rounds at h
    obtain ⟨r, s₁, hdisc, h⟩ := bind_ok h
    have ha' := (discover_progress hdisc ha).1
    rcases discover_traced hclosed hunits hb hx hmarks (m := { m with newly := [] }) ha hin hsound
      hdisc with
      ⟨m', d, v, rfl, hnew, hnone, htrig, hlt, hlog, hedge, hv⟩ |
      ⟨m', ds, ids, rfl, hg, hedges, hlog, hsplit⟩
    · obtain ⟨_, s₂, hcommit, hnext⟩ := bind_ok h
      rw [hnew] at hcommit
      have hs₂ : s₁ = s₂ := by
        obtain ⟨_, u₁, h₁, h₂⟩ := bind_ok hcommit
        rw [(pure_ok h₁).2, (pure_ok h₂).2]
      rw [← hs₂] at hnext
      have hin' : m'.InTable self := fun k hk => by
        rcases (htrig k).mp hk with hk | rfl
        · exact hin k hk
        · exact hlt
      obtain ⟨rs, hrs, hd⟩ := rounds_traced (m := m') ha' hin' hv hnext
      refine ⟨⟨[d], true, v⟩ :: rs, by rw [hrs, hlog]; simp, ?_⟩
      refine hd.cons (r := ⟨[d], true, v⟩) (by simp) (by simp) (fun k _ => ?_)
        (fun k => by simpa using htrig k) (fun _ => ⟨d, rfl⟩) (fun hf => by cases hf) (fun k hk => ?_)
      · rw [show m.triggered.toList = [] from hnone]
        simp
      · rw [List.mem_singleton.mp hk]
        exact hedge
    · have hnew : m'.newly = ds := by simpa using hg.newly
      dsimp only at h
      split at h
      · -- nothing was evaluated: the step ends here
        rename_i hempty
        obtain ⟨_, rfl⟩ := pure_ok h
        have hds : ds = [] := by simpa [hnew] using hempty
        exact ⟨[], by simp [hlog, hds, units], .nil _ _ _ _⟩
      · rename_i hne
        obtain ⟨_, s₂, hcommit, h⟩ := bind_ok h
        obtain ⟨_, s₃, hsettle, h⟩ := bind_ok h
        obtain ⟨v, hvlog, hv⟩ := settleComb_traced hb hmarks hsettle
        have hin' : m'.InTable self := hg.inTable hclosed hin
        obtain ⟨rs, hrs, hd⟩ := rounds_traced (m := m') ha' hin' hv h
        refine ⟨⟨ds, false, v⟩ :: rs, ?_, ?_⟩
        · rw [hrs, hvlog, commitRound_traced hcommit, hlog, hnew]
          simp [Round.calls]
        · exact hd.cons (r := ⟨ds, false, v⟩) (by simpa [hnew] using hne) hg.nodup hg.fresh
            hg.triggered (fun hf => by cases hf) (fun _ => hsplit) hedges

end Conditions
end Celox.Runtime

/-! ## The event tables of a simulation

`simulation_state` of `celox/src/simulation.rs` turns the event topology of a
design and the event maps of a backend into the tables `step` runs on. -/
namespace Celox.Runtime
open Exec

variable {σ Addr Sig Ev ε : Type}

/-- What `simulation_state` reads of the design and of the compiled backend. The
laws are those of the backends' event maps: ids index `id_to_addr`, an event
belongs to the domain of its address, and aliases resolve to canonical events. -/
structure EventTables (Addr Sig Ev : Type) [EventHandle Ev] where
  orderedEvents : List Addr
  cascadedEvents : List Addr
  canonical : Addr → Addr
  variableKind : Addr → Option DomainKind
  resolveSignal : Addr → Sig
  resolveEventOpt : Addr → Option Ev
  resolveEvalOnlyEvent : Addr → Option Ev
  resolveApplyEvent : Addr → Option Ev
  idToAddr : List Addr
  canonical_idem : ∀ a, canonical (canonical a) = canonical a
  home : ∀ a ev, resolveEventOpt a = some ev →
    ∃ b, idToAddr[EventHandle.id ev]? = some b ∧ canonical b = canonical a
  resolves : ∀ a ∈ idToAddr, (resolveEventOpt (canonical a)).isSome

namespace EventTables
variable [EventHandle Ev]

def eventId (T : EventTables Addr Sig Ev) (addr : Addr) : Nat :=
  ((T.resolveEventOpt addr).map EventHandle.id).getD usizeMax

def topoSignals (T : EventTables Addr Sig Ev) : List (Sig × Nat × Nat) :=
  T.orderedEvents.map fun addr =>
    (T.resolveSignal addr, T.eventId addr, T.eventId (T.canonical addr))

/-- The entries of `topo_signals` with an event of the backend. -/
def eventSignals (T : EventTables Addr Sig Ev) : List (Sig × Nat) :=
  T.topoSignals.filterMap fun e => if e.2.1 = usizeMax then none else some (e.1, e.2.1)

def domainKinds (T : EventTables Addr Sig Ev) : List (Option DomainKind) :=
  T.eventSignals.foldl
    (fun kinds e =>
      match T.idToAddr[e.2]?.bind T.variableKind with
      | some kind => kinds.set e.2 (some kind)
      | none => kinds)
    (List.replicate T.idToAddr.length none)

/-- The entry of one event; without a combined unit it keeps the placeholder. -/
def eventInfoAt [DecidableEq Addr] (T : EventTables Addr Sig Ev) (addr : Addr) : EventInfo Ev :=
  let canonical := T.canonical addr
  match T.resolveEventOpt canonical with
  | some ev =>
    { canonicalId := EventHandle.id ev
      isCascaded := T.cascadedEvents.contains canonical
      evalFfEvent := some ev
      evalOnlyEvent := T.resolveEvalOnlyEvent canonical
      applyEvent := T.resolveApplyEvent canonical }
  | none => ⟨usizeMax, false, none, none, none⟩

def eventInfo [DecidableEq Addr] (T : EventTables Addr Sig Ev) : List (EventInfo Ev) :=
  T.idToAddr.map T.eventInfoAt

/-- A simulation over the tables of `T`, with some queue and some settled values. -/
def state [DecidableEq Addr] (T : EventTables Addr Sig Ev) (scheduler : Scheduler Sig Ev)
    (lastClockValues : BitSet) : SimulationState Sig Ev where
  scheduler
  lastClockValues
  topoSignals := T.topoSignals
  domainKinds := T.domainKinds
  eventInfo := T.eventInfo
  -- later entries of one signal replace earlier ones
  signalToId := T.eventSignals.foldl (fun m e => e :: m) []

/-- `simulation_state` with `SimulationState::new`. -/
def simulationState [DecidableEq Addr] (T : EventTables Addr Sig Ev) (x : Executor σ Sig Ev ε)
    (s : σ) : SimulationState Sig Ev :=
  T.state .new (T.eventSignals.foldl
    (fun last e => if x.isNonzero s e.1 then last.insert e.2 else last) .empty)

theorem eventInfoAt_congr [DecidableEq Addr] {T : EventTables Addr Sig Ev} {a b : Addr}
    (h : T.canonical a = T.canonical b) : T.eventInfoAt a = T.eventInfoAt b := by
  simp only [eventInfoAt, h]

/-- Every table `simulation_state` builds is closed under taking the domain. -/
theorem state_closed [DecidableEq Addr] (T : EventTables Addr Sig Ev) (q : Scheduler Sig Ev)
    (last : BitSet) : TableClosed (T.state q last) := by
  intro id info hi
  obtain ⟨a, ha, rfl⟩ : ∃ a, T.idToAddr[id]? = some a ∧ T.eventInfoAt a = info := by
    simpa [state, eventInfo] using hi
  obtain ⟨ev, hev⟩ := Option.isSome_iff_exists.mp (T.resolves a (List.mem_of_getElem? ha))
  obtain ⟨b, hb, hcan⟩ := T.home _ ev hev
  have hinfo : T.eventInfoAt b = T.eventInfoAt a :=
    eventInfoAt_congr (hcan.trans (T.canonical_idem a))
  have hid : (T.eventInfoAt a).canonicalId = EventHandle.id ev := by simp [eventInfoAt, hev]
  refine ⟨?_, by simp [eventInfoAt, hev]⟩
  rw [hid]
  simp [state, eventInfo, hb, hinfo]

theorem mem_eventSignals_of_lookup [DecidableEq Addr] [DecidableEq Sig]
    {T : EventTables Addr Sig Ev} {q : Scheduler Sig Ev} {last : BitSet} {g : Sig} {id : Nat}
    (h : (T.state q last).signalToId.lookup g = some id) :
    (g, id) ∈ (T.state q last).eventSignals := by
  obtain ⟨l₁, l₂, hl, _⟩ := List.lookup_eq_some_iff.mp h
  have hm : (g, id) ∈ (T.state q last).signalToId := by simp [hl]
  have hrev : ∀ (es acc : List (Sig × Nat)), es.foldl (fun m e => e :: m) acc = es.reverse ++ acc := by
    intro es
    induction es with
    | nil => simp
    | cons e es ih => intro acc; simp [ih]
  simpa [state, hrev, SimulationState.eventSignals, eventSignals] using hm

end EventTables
end Celox.Runtime
