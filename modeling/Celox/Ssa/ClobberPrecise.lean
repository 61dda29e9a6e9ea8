import Celox.Ssa.ClobberSessions

/-! # When a clobber answer is precise

All walks back from a start may end at one access. The walker goes depth first over the phis and
answers that access, unless it comes to a phi whose inputs all lead back to phis it came through:
such a phi answers itself. -/
namespace Celox.Ssa
open Relation

section Graph
variable {D : Type} (nodes : List (MemoryAccessNode D)) (mayAlias : D → Bool)

/-! ## Ends of walks -/

/-- A walk back ends at `c`, the entry or the first definition that may alias. -/
def Ends (start c : Nat) : Prop :=
  ReflTransGen (Next nodes mayAlias) start c ∧ (IsEntry nodes c ∨ Clobbers nodes mayAlias c)

/-- There are walks back that end, and all of them end at `c`. -/
structure EndsOnlyAt (start c : Nat) : Prop where
  ends : Ends nodes mayAlias start c
  only : ∀ v, Ends nodes mayAlias start v → v = c

/-! ## Depth first over the phis -/

/-- The phi that definitions which cannot alias lead to. -/
def LeadsTo (a p : Nat) : Prop := ChainEnd nodes mayAlias a p ∧ IsPhi nodes p

/-- An input of the phi `p` leads to `q`, which is not in `path`. -/
def StepsAround (path : List Nat) (p q : Nat) : Prop :=
  q ∉ path ∧ ∃ block inputs, nodes[p]? = some (.phi block inputs) ∧
    ∃ i ∈ inputs.map Prod.snd, LeadsTo nodes mayAlias i q

/-- The phis that can be reached from some nodes without those in `path`. -/
def FoundAround (path starts : List Nat) : Set Nat :=
  { v | ∃ i ∈ starts, ∃ p, LeadsTo nodes mayAlias i p ∧ p ∉ path ∧
    ReflTransGen (StepsAround nodes mayAlias path) p v }

/-- A phi at the moment a depth-first walk comes to it: the phis it came through, and those that
are finished. -/
structure Arrival where
  path : List Nat
  finished : Set Nat
  phi : Nat

/-- From a phi on to what its next input leads to. When its turn comes, all that the inputs before
it lead to is finished. -/
inductive GoesOn : Arrival → Arrival → Prop where
  | input {path before after : List Nat} {finished : Set Nat} {p i q block : Nat}
      {inputs : List (Nat × Nat)} (hp : nodes[p]? = some (.phi block inputs))
      (hi : inputs.map Prod.snd = before ++ i :: after) (hq : LeadsTo nodes mayAlias i q)
      (hpath : q ∉ p :: path)
      (hnew : q ∉ finished ∪ FoundAround nodes mayAlias (p :: path) before) :
      GoesOn ⟨path, finished, p⟩
        ⟨p :: path, finished ∪ FoundAround nodes mayAlias (p :: path) before, q⟩

/-- The arrivals of the walk from `x`, which came through `path`. -/
def ArrivesAt (path : List Nat) (finished : Set Nat) (x : Nat) (d : Arrival) : Prop :=
  ∃ p, LeadsTo nodes mayAlias x p ∧ p ∉ path ∧ p ∉ finished ∧
    ReflTransGen (GoesOn nodes mayAlias) ⟨path, finished, p⟩ d

/-- Every input of the phi leads back to it or to a phi the walk came through. -/
def Arrival.LeadsBack (d : Arrival) : Prop :=
  ∀ block inputs, nodes[d.phi]? = some (.phi block inputs) →
    ∀ i ∈ inputs.map Prod.snd, ∀ e, ChainEnd nodes mayAlias i e → e ∈ d.phi :: d.path

variable {nodes mayAlias} {path starts : List Nat} {finished : Set Nat} {x p c : Nat}

theorem LeadsTo.of_phi (hx : IsPhi nodes x) (h : LeadsTo nodes mayAlias x p) : p = x := by
  obtain ⟨block, inputs, hnode⟩ := hx
  exact h.1.unique (chainEnd_phi hnode)

theorem leadsTo_phi (hx : IsPhi nodes x) : LeadsTo nodes mayAlias x x := by
  obtain ⟨block, inputs, hnode⟩ := hx
  exact ⟨chainEnd_phi hnode, block, inputs, hnode⟩

theorem leadsTo_skip {y : Nat} (hs : Skips nodes mayAlias x y) :
    LeadsTo nodes mayAlias x p ↔ LeadsTo nodes mayAlias y p := by
  refine and_congr_left fun _ => ⟨fun h => ?_, .skip hs⟩
  cases h with
  | stop hstop => exact absurd hs (hstop y)
  | skip hs' rest => exact hs.unique hs' ▸ rest

theorem not_isPhi_of_end (h : IsEntry nodes x ∨ Clobbers nodes mayAlias x) : ¬ IsPhi nodes x := by
  rintro ⟨block, inputs, hp⟩
  rcases h with he | ⟨d, p, hd, -⟩
  · rw [IsEntry, hp] at he
    cases he
  · rw [hp] at hd
    cases hd

theorem foundAround_nil : FoundAround nodes mayAlias path [] = ∅ := by
  simp [FoundAround]

theorem foundAround_append {starts' : List Nat} :
    FoundAround nodes mayAlias path (starts ++ starts') =
      FoundAround nodes mayAlias path starts ∪ FoundAround nodes mayAlias path starts' := by
  ext v
  simp only [FoundAround, List.mem_append, Set.mem_ofPred_eq, Set.mem_union]
  constructor
  · rintro ⟨i, hi | hi, h⟩
    · exact .inl ⟨i, hi, h⟩
    · exact .inr ⟨i, hi, h⟩
  · rintro (⟨i, hi, h⟩ | ⟨i, hi, h⟩)
    · exact ⟨i, .inl hi, h⟩
    · exact ⟨i, .inr hi, h⟩

/-- What is closed under the steps around `path` has all that is found from its members. -/
theorem foundAround_subset {S : Set Nat}
    (hstart : ∀ i ∈ starts, ∀ p, LeadsTo nodes mayAlias i p → p ∉ path → p ∈ S)
    (hclosed : ∀ p ∈ S, ∀ q, StepsAround nodes mayAlias path p q → q ∈ S) :
    FoundAround nodes mayAlias path starts ⊆ S := by
  rintro v ⟨i, hi, p, hp, hpath, hreach⟩
  induction hreach with
  | refl => exact hstart i hi p hp hpath
  | tail _ hstep ih => exact hclosed _ ih _ hstep

theorem Ends.next {y v : Nat} (h : Ends nodes mayAlias y v) (hn : Next nodes mayAlias x y) :
    Ends nodes mayAlias x v := ⟨.head hn h.1, h.2⟩

/-- Where a phi goes on to, by the input that leads there. -/
theorem arrivesAt_phi {block : Nat} {inputs : List (Nat × Nat)} {d : Arrival}
    (hnode : nodes[x]? = some (.phi block inputs)) (hpath : x ∉ path) (hfin : x ∉ finished) :
    ArrivesAt nodes mayAlias path finished x d ↔ d = ⟨path, finished, x⟩ ∨
      ∃ before i after, inputs.map Prod.snd = before ++ i :: after ∧
        ArrivesAt nodes mayAlias (x :: path)
          (finished ∪ FoundAround nodes mayAlias (x :: path) before) i d := by
  constructor
  · rintro ⟨p, hp, -, -, hreach⟩
    obtain rfl := hp.of_phi ⟨block, inputs, hnode⟩
    rcases hreach.cases_head with rfl | ⟨mid, hstep, hrest⟩
    · exact .inl rfl
    · cases hstep with
      | input hp' hi hq hpath' hnew =>
        rw [hnode] at hp'
        cases hp'
        exact .inr ⟨_, _, _, hi, _, hq, hpath', hnew, hrest⟩
  · rintro (rfl | ⟨before, i, after, hi, q, hq, hpath', hnew, hrest⟩)
    · exact ⟨x, leadsTo_phi ⟨block, inputs, hnode⟩, hpath, hfin, .refl⟩
    · exact ⟨x, leadsTo_phi ⟨block, inputs, hnode⟩, hpath, hfin,
        .head (.input hnode hi hq hpath' hnew) hrest⟩

theorem arrivesAt_skip {y : Nat} {d : Arrival} (hs : Skips nodes mayAlias x y) :
    ArrivesAt nodes mayAlias path finished x d ↔ ArrivesAt nodes mayAlias path finished y d := by
  simp only [ArrivesAt, leadsTo_skip hs]

theorem foundAround_skip {y : Nat} (hs : Skips nodes mayAlias x y) :
    FoundAround nodes mayAlias path [x] = FoundAround nodes mayAlias path [y] := by
  simp only [FoundAround, List.mem_singleton, exists_eq_left, leadsTo_skip hs]

/-! ## The marks of a depth-first walk -/

variable (nodes mayAlias) in
/-- The active phis are those the walk came through, the phis that are done are finished, and their
inputs lead to no others. -/
structure Explored (epoch : Nat) (cells : List Cell) (path : List Nat) (finished : Set Nat) :
    Prop where
  marked : Marked nodes mayAlias epoch cells
  active : ∀ p, p ∈ path ↔ IsPhi nodes p ∧ markOf epoch cells p = .active
  done : ∀ p, p ∈ finished ↔ IsPhi nodes p ∧ ∃ c, markOf epoch cells p = .done c
  ends : ∀ a c, markOf epoch cells a = .done c → ∃ e, ChainEnd nodes mayAlias a e
  closed : ∀ p ∈ finished, ∀ q, StepsAround nodes mayAlias [] p q → q ∈ finished ∨ q ∈ path

/-- All answers so far are `c`. -/
def AllAre (epoch : Nat) (cells : List Cell) (c : Nat) : Prop :=
  ∀ a c', markOf epoch cells a = .done c' → c' = c

variable (nodes mayAlias) in
/-- What the walk into `x` hands back, when all answers before are `c` and all walks from `x`
end there. -/
structure Reports (epoch c : Nat) (cells' : List Cell) (path : List Nat) (finished : Set Nat)
    (x : Nat) (result : ClobberResolution) : Prop where
  precise : (∀ d, ArrivesAt nodes mayAlias path finished x d → ¬ d.LeadsBack nodes mayAlias) →
    AllAre epoch cells' c ∧ (result = .cycle ∨ result = .access c)
  imprecise : (∃ d, ArrivesAt nodes mayAlias path finished x d ∧ d.LeadsBack nodes mayAlias) →
    ∃ c', c' ≠ c ∧ result = .access c'

variable (nodes mayAlias) in
/-- Entering `x` comes back having finished all that is found from there around `path`. -/
def Explores (epoch c : Nat) (cells : List Cell) (path : List Nat) (finished : Set Nat)
    (x : Nat) : Prop :=
  ∀ frames values, ∃ result cells',
    Steps nodes mayAlias epoch ⟨cells, .enter x :: frames, values⟩
      ⟨cells', frames, result :: values⟩ ∧
    Explored nodes mayAlias epoch cells' path
      (finished ∪ FoundAround nodes mayAlias path [x]) ∧
    Extends epoch cells cells' ∧ Answers nodes mayAlias epoch cells cells' x result ∧
    (AllAre epoch cells c → (∀ v, Ends nodes mayAlias x v → v = c) →
      Reports nodes mayAlias epoch c cells' path finished x result)

variable {epoch : Nat} {cells cells' : List Cell}

/-- Nothing new is found from a node that only leads to marked phis. -/
theorem Explored.same (h : Explored nodes mayAlias epoch cells path finished)
    (hlead : ∀ p, LeadsTo nodes mayAlias x p → p ∈ path ∨ p ∈ finished) :
    finished ∪ FoundAround nodes mayAlias path [x] = finished := by
  refine Set.union_eq_self_of_subset_right (foundAround_subset ?_ ?_)
  · intro i hi p hp hpath
    rw [List.mem_singleton.mp hi] at hp
    exact (hlead p hp).resolve_left hpath
  · rintro p hp q ⟨hq, hstep⟩
    exact (h.closed p hp q ⟨List.not_mem_nil, hstep⟩).resolve_right hq

theorem no_arrival (hlead : ∀ p, LeadsTo nodes mayAlias x p → p ∈ path ∨ p ∈ finished)
    (d : Arrival) : ¬ ArrivesAt nodes mayAlias path finished x d := by
  rintro ⟨p, hp, hpath, hfin, -⟩
  rcases hlead p hp with h | h
  · exact hpath h
  · exact hfin h

theorem Reports.of_marked {result : ClobberResolution}
    (hlead : ∀ p, LeadsTo nodes mayAlias x p → p ∈ path ∨ p ∈ finished)
    (hall : AllAre epoch cells' c) (hresult : result = .cycle ∨ result = .access c) :
    Reports nodes mayAlias epoch c cells' path finished x result :=
  ⟨fun _ => ⟨hall, hresult⟩, fun ⟨d, hd, _⟩ => absurd hd (no_arrival hlead d)⟩

theorem AllAre.set (h : AllAre epoch cells c) {x : Nat} {cell : Cell} (hx : x < cells.length)
    (hcell : ∀ c', cell.mark epoch = .done c' → c' = c) : AllAre epoch (cells.set x cell) c := by
  intro a c' ha
  rw [markOf_set hx] at ha
  split at ha
  · exact hcell c' ha
  · exact h a c' ha

/-- The mark of a node that is no phi is of no concern to the search. -/
theorem Explored.set (h : Explored nodes mayAlias epoch cells path finished) {x : Nat} {cell : Cell}
    (hx : x < cells.length) (hphi : ¬ IsPhi nodes x)
    (hm : Marked nodes mayAlias epoch (cells.set x cell))
    (hend : ∀ c, cell.mark epoch = .done c → ∃ e, ChainEnd nodes mayAlias x e) :
    Explored nodes mayAlias epoch (cells.set x cell) path finished := by
  have hmark : ∀ p, IsPhi nodes p → markOf epoch (cells.set x cell) p = markOf epoch cells p := by
    intro p hp
    rw [markOf_set hx, if_neg (by rintro rfl; exact hphi hp)]
  refine ⟨hm, fun p => ?_, fun p => ?_, fun a c ha => ?_, h.closed⟩
  · rw [h.active]
    exact and_congr_right fun hp => by rw [hmark p hp]
  · rw [h.done]
    exact and_congr_right fun hp => by rw [hmark p hp]
  · rw [markOf_set hx] at ha
    split at ha
    · rename_i hax
      exact hax ▸ hend c ha
    · exact h.ends a c ha

/-! ## Entering a node -/

theorem explores_active (h : Explored nodes mayAlias epoch cells path finished)
    (hx : x < nodes.length) (hcame : Came nodes mayAlias epoch cells x)
    (hm : markOf epoch cells x = .active) : Explores nodes mayAlias epoch c cells path finished x := by
  intro frames values
  have hlead : ∀ p, LeadsTo nodes mayAlias x p → p ∈ path ∨ p ∈ finished :=
    fun p hp => .inl ((h.active p).mpr ⟨hp.2, hcame.chain_active hm hm hp.1⟩)
  refine ⟨.cycle, cells, .single (by simp) (step_active h.marked hx hm frames values), ?_, .refl,
    .cycle fun _ he => hcame.chain_active hm hm he, fun hall _ => .of_marked hlead hall (.inl rfl)⟩
  rw [h.same hlead]
  exact h

theorem explores_done (h : Explored nodes mayAlias epoch cells path finished)
    (hx : x < nodes.length) {c' : Nat} (hm : markOf epoch cells x = .done c') :
    Explores nodes mayAlias epoch c cells path finished x := by
  intro frames values
  obtain ⟨e, he⟩ := h.ends x c' hm
  have hlead : ∀ p, LeadsTo nodes mayAlias x p → p ∈ path ∨ p ∈ finished :=
    fun p hp => .inr ((h.done p).mpr ⟨hp.2, c', h.marked.chain_done hm hp.1⟩)
  refine ⟨.access c', cells, .single (by simp) (step_done h.marked hx hm frames values), ?_, .refl,
    .access hm he (by simp [h.marked.chain_done hm he]),
    fun hall _ => .of_marked hlead hall (.inr (by rw [hall x c' hm]))⟩
  rw [h.same hlead]
  exact h

theorem explores_end (h : Explored nodes mayAlias epoch cells path finished)
    (hx : x < nodes.length) (hm : markOf epoch cells x = .fresh)
    (hend : IsEntry nodes x ∨ Clobbers nodes mayAlias x) :
    Explores nodes mayAlias epoch c cells path finished x := by
  intro frames values
  have hlt : x < cells.length := h.marked.length ▸ hx
  have hstop : ∀ p, ¬ Skips nodes mayAlias x p := fun p hs => hs.not_end hend
  have hphi : ¬ IsPhi nodes x := not_isPhi_of_end hend
  have hlead : ∀ p, LeadsTo nodes mayAlias x p → p ∈ path ∨ p ∈ finished :=
    fun p hp => absurd ((hp.1.unique (.stop hstop)) ▸ hp.2) hphi
  have hext : Extends epoch cells (cells.set x ⟨epoch, 2, some (.access x)⟩) := by
    constructor
    · intro a ha
      rw [markOf_set hlt, if_neg (by rintro rfl; exact ha hm)]
    · intro a ha
      rw [markOf_set hlt] at ha
      split at ha
      · simp at ha
      · exact ha
  refine ⟨.access x, _, .single (by simp) (step_end h.marked hx hm hend frames values), ?_, hext,
    .access (by simp [markOf_set hlt]) (.stop hstop) (by simp [hm]), fun hall honly => ?_⟩
  · rw [h.same hlead]
    exact h.set hlt hphi (h.marked.finish hx (by simp [hm]) fun p hs => absurd hs (hstop p))
      fun _ _ => ⟨x, .stop hstop⟩
  · obtain rfl : x = c := honly x ⟨.refl, hend⟩
    exact .of_marked hlead (hall.set hlt (by simp)) (.inr rfl)

/-- A definition that cannot alias finds and hands back what its predecessor does. -/
theorem explores_skip (h : Explored nodes mayAlias epoch cells path finished)
    (hx : x < nodes.length) (hm : markOf epoch cells x = .fresh) {y : Nat}
    (hs : Skips nodes mayAlias x y)
    (hy : Explores nodes mayAlias epoch c (cells.set x ⟨epoch, 1, none⟩) path finished y) :
    Explores nodes mayAlias epoch c cells path finished x := by
  intro frames values
  have hlt : x < cells.length := h.marked.length ▸ hx
  have hphi : ¬ IsPhi nodes x := fun ⟨_, _, hp⟩ => hs.not_phi hp
  obtain ⟨result, cells', hsteps, hexp, hext, hans, hreports⟩ :=
    hy (.finishDefinition x :: frames) values
  have hlt' : x < cells'.length := hexp.marked.length ▸ hx
  have hactive : markOf epoch cells' x = .active :=
    (hext.active_iff x).mpr (by simp [markOf_set hlt])
  have hmark : ∀ e, ChainEnd nodes mayAlias y e →
      markOf epoch (cells.set x ⟨epoch, 1, none⟩) e = markOf epoch cells e := by
    intro e he
    rw [markOf_set hlt, if_neg (by rintro rfl; exact he.stops y hs)]
  have hrun : Steps nodes mayAlias epoch ⟨cells, .enter x :: frames, values⟩
      ⟨cells', .finishDefinition x :: frames, result :: values⟩ :=
    (Steps.single (by simp) (step_skip h.marked hx hm hs frames values)).trans hsteps
  have hreport : AllAre epoch cells c → (∀ v, Ends nodes mayAlias x v → v = c) →
      Reports nodes mayAlias epoch c cells' path finished y result := fun hall honly =>
    hreports (hall.set hlt (by simp)) fun v hv => honly v (hv.next (.inl hs))
  rw [foundAround_skip hs]
  cases hans with
  | cycle hcycle =>
    refine ⟨.cycle, cells'.set x ⟨epoch, 0, none⟩,
      hrun.append (by simp) (by simp [stepFrame, stepDefinition]),
      hexp.set hlt' hphi (hexp.marked.reset hx hactive) (by simp),
      .of_entered hlt hlt' hm hext (by simp), .cycle fun e he => ?_, fun hall honly => ?_⟩
    · cases he with
      | stop hstop => exact absurd hs (hstop y)
      | skip hs' rest =>
        obtain rfl := hs.unique hs'
        rw [← hmark e rest]
        exact hcycle e rest
    · constructor
      · intro hopen
        obtain ⟨hall', hresult⟩ := (hreport hall honly).precise
          fun d hd => hopen d ((arrivesAt_skip hs).mpr hd)
        exact ⟨hall'.set hlt' (by simp), hresult⟩
      · rintro ⟨d, hd, hback⟩
        exact (hreport hall honly).imprecise ⟨d, (arrivesAt_skip hs).mp hd, hback⟩
  | @access c' e hdone hend he =>
    refine ⟨.access c', cells'.set x ⟨epoch, 2, some (.access c')⟩,
      hrun.append (by simp) (by simp [stepFrame, stepDefinition, Walk.resolve]),
      hexp.set hlt' hphi (hexp.marked.finish hx (by simp [hactive]) fun p hs' => ?_)
        (fun _ _ => ⟨e, .skip hs hend⟩),
      .of_entered hlt hlt' hm hext (by simp),
      .access (by simp [markOf_set hlt']) (.skip hs hend) ?_, fun hall honly => ?_⟩
    · exact hs.unique hs' ▸ hdone
    · rwa [← hmark e hend]
    · constructor
      · intro hopen
        obtain ⟨hall', hresult⟩ := (hreport hall honly).precise
          fun d hd => hopen d ((arrivesAt_skip hs).mpr hd)
        refine ⟨hall'.set hlt' fun c'' hc'' => ?_, hresult⟩
        simp only [mark_done, Mark.done.injEq] at hc''
        exact hc'' ▸ hall' y c' hdone
      · rintro ⟨d, hd, hback⟩
        exact (hreport hall honly).imprecise ⟨d, (arrivesAt_skip hs).mp hd, hback⟩

/-! ## The inputs of a phi -/

variable (nodes mayAlias) in
/-- What the walks into the inputs hand back, when all answers before are `c`. -/
structure ReportsAll (epoch c : Nat) (cells' : List Cell) (path : List Nat) (finished : Set Nat)
    (inputs : List Nat) (results : List ClobberResolution) : Prop where
  precise : (∀ before i after d, inputs = before ++ i :: after →
      ArrivesAt nodes mayAlias path (finished ∪ FoundAround nodes mayAlias path before) i d →
      ¬ d.LeadsBack nodes mayAlias) →
    AllAre epoch cells' c ∧ ∀ result ∈ results, result = .cycle ∨ result = .access c
  imprecise : (∃ before i after d, inputs = before ++ i :: after ∧
      ArrivesAt nodes mayAlias path (finished ∪ FoundAround nodes mayAlias path before) i d ∧
      d.LeadsBack nodes mayAlias) →
    ∃ result ∈ results, ∃ c', c' ≠ c ∧ result = .access c'

theorem reportsAll_cons {i : Nat} {inputs : List Nat} {result : ClobberResolution}
    {results : List ClobberResolution}
    (hi : Reports nodes mayAlias epoch c cells path finished i result)
    (hrest : AllAre epoch cells c → ReportsAll nodes mayAlias epoch c cells' path
      (finished ∪ FoundAround nodes mayAlias path [i]) inputs results) :
    ReportsAll nodes mayAlias epoch c cells' path finished (i :: inputs) (result :: results) := by
  have hfound : ∀ before : List Nat, finished ∪ FoundAround nodes mayAlias path (i :: before) =
      finished ∪ FoundAround nodes mayAlias path [i] ∪ FoundAround nodes mayAlias path before := by
    intro before
    rw [Set.union_assoc, ← foundAround_append, List.singleton_append]
  constructor
  · intro hopen
    obtain ⟨hall, hresult⟩ := hi.precise fun d hd =>
      hopen [] i inputs d rfl (by rwa [foundAround_nil, Set.union_empty])
    obtain ⟨hall', hresults⟩ := (hrest hall).precise fun before j after d hsplit hd =>
      hopen (i :: before) j after d (by rw [hsplit, List.cons_append]) (by rwa [hfound])
    exact ⟨hall', List.forall_mem_cons.mpr ⟨hresult, hresults⟩⟩
  · rintro ⟨before, j, after, d, hsplit, hd, hback⟩
    by_cases hfirst : ∃ d, ArrivesAt nodes mayAlias path finished i d ∧ d.LeadsBack nodes mayAlias
    · obtain ⟨c', hne, hresult⟩ := hi.imprecise hfirst
      exact ⟨result, List.mem_cons_self .., c', hne, hresult⟩
    cases before with
    | nil =>
      rw [foundAround_nil, Set.union_empty] at hd
      obtain ⟨rfl, -⟩ := List.cons.inj hsplit
      exact absurd ⟨d, hd, hback⟩ hfirst
    | cons i' before =>
      obtain ⟨rfl, rfl⟩ := List.cons.inj hsplit
      rw [hfound] at hd
      have hall := (hi.precise fun d hd hback => hfirst ⟨d, hd, hback⟩).1
      obtain ⟨r, hr, h⟩ := (hrest hall).imprecise ⟨before, j, after, d, rfl, hd, hback⟩
      exact ⟨r, List.mem_cons_of_mem _ hr, h⟩

theorem explores_inputs {bound : Nat}
    (ih : ∀ cells finished x, freshCount nodes epoch cells < bound →
      Explored nodes mayAlias epoch cells path finished → x < nodes.length →
      Came nodes mayAlias epoch cells x → Explores nodes mayAlias epoch c cells path finished x)
    (inputs : List Nat) (cells : List Cell) (finished : Set Nat)
    (hfresh : freshCount nodes epoch cells < bound)
    (h : Explored nodes mayAlias epoch cells path finished)
    (hin : ∀ i ∈ inputs, i < nodes.length ∧ Came nodes mayAlias epoch cells i)
    (frames : List ResolveFrame) (values : List ClobberResolution) :
    ∃ results cells',
      Steps nodes mayAlias epoch ⟨cells, inputs.map .enter ++ frames, values⟩
        ⟨cells', frames, results.reverse ++ values⟩ ∧
      Explored nodes mayAlias epoch cells' path
        (finished ∪ FoundAround nodes mayAlias path inputs) ∧
      Extends epoch cells cells' ∧
      List.Forall₂ (Answers nodes mayAlias epoch cells cells') inputs results ∧
      (AllAre epoch cells c → (∀ i ∈ inputs, ∀ v, Ends nodes mayAlias i v → v = c) →
        ReportsAll nodes mayAlias epoch c cells' path finished inputs results) := by
  induction inputs generalizing cells finished values with
  | nil =>
    refine ⟨[], cells, .refl, ?_, .refl, .nil, fun hall _ => ⟨fun _ => ⟨hall, by simp⟩, ?_⟩⟩
    · rwa [foundAround_nil, Set.union_empty]
    · rintro ⟨before, i, after, d, hsplit, -⟩
      simp at hsplit
  | cons i inputs ihl =>
    obtain ⟨hlt, hcame⟩ := hin i (List.mem_cons_self ..)
    obtain ⟨result, mid, hsteps, hmid, hext, hans, hreports⟩ :=
      ih cells finished i hfresh h hlt hcame (inputs.map .enter ++ frames) values
    have hrest : ∀ j ∈ inputs, j < nodes.length ∧ Came nodes mayAlias epoch mid j := by
      intro j hj
      obtain ⟨hj, hcj⟩ := hin j (List.mem_cons_of_mem _ hj)
      exact ⟨hj, hcj.extends hext⟩
    obtain ⟨results, cells', hsteps', hexp, hext', hall, hreports'⟩ :=
      ihl mid _ (hext.freshCount_le.trans_lt hfresh) hmid hrest (result :: values)
    refine ⟨result :: results, cells', by simpa using hsteps.trans hsteps', ?_, hext.trans hext',
      .cons (hans.trans hext') (hall.imp fun j r hr => hr.before hext), fun hgood honly => ?_⟩
    · rwa [Set.union_assoc, ← foundAround_append, List.singleton_append] at hexp
    · refine reportsAll_cons (hreports hgood (honly i (List.mem_cons_self ..))) fun hgood' => ?_
      exact hreports' hgood' fun j hj => honly j (List.mem_cons_of_mem _ hj)

/-! ## A phi -/

theorem joinInputs_cycles {results : List ClobberResolution} (h : ∀ r ∈ results, r = .cycle) :
    joinInputs x results = .access x := by
  have hj := joins_foldl results
  unfold joinInputs
  generalize results.foldl joinStep (none, false) = state at hj
  cases hj with
  | none => rfl
  | common hr hc => exact absurd (h _ hr) hc
  | diverged hr hc => exact absurd (h _ hr) hc

theorem joinInputs_access (x : Nat) (results : List ClobberResolution) :
    ∃ c, joinInputs x results = .access c := by
  have hj := joins_foldl results
  unfold joinInputs
  generalize results.foldl joinStep (none, false) = state at hj
  cases hj with
  | none => exact ⟨x, rfl⟩
  | @common r _ hc _ =>
    cases r with
    | access c => exact ⟨c, rfl⟩
    | cycle => exact absurd rfl hc
  | diverged => exact ⟨x, rfl⟩

theorem joinInputs_common {results : List ClobberResolution} {r : ClobberResolution}
    (hr : r ∈ results) (hne : r ≠ .cycle) (h : ∀ r ∈ results, r = .cycle ∨ r = .access c) :
    joinInputs x results = .access c := by
  have hj := joins_foldl results
  unfold joinInputs
  generalize results.foldl joinStep (none, false) = state at hj
  cases hj with
  | none hall => exact absurd (hall r hr) hne
  | common hr hc => exact (h _ hr).resolve_left hc
  | diverged hr hc hr' hc' hdiff =>
    have hsame := ((h _ hr).resolve_left hc).trans ((h _ hr').resolve_left hc').symm
    exact absurd hsame hdiff

theorem joinInputs_other {results : List ClobberResolution} {c' : Nat}
    (hr : .access c' ∈ results) (hne : c' ≠ c) (hx : x ≠ c) :
    ∃ c'', c'' ≠ c ∧ joinInputs x results = .access c'' := by
  have hj := joins_foldl results
  unfold joinInputs
  generalize results.foldl joinStep (none, false) = state at hj
  cases hj with
  | none hall => cases hall _ hr
  | common _ _ hall => exact ⟨c', hne, (hall _ hr (by simp)).symm⟩
  | diverged => exact ⟨x, hx, rfl⟩

section Phi
variable {block : Nat} {inputs : List (Nat × Nat)}

/-- Around the path, a phi finds itself and what its inputs find around it. -/
theorem foundAround_phi (hnode : nodes[x]? = some (.phi block inputs)) (hpath : x ∉ path)
    (hclosed : ∀ p ∈ finished ∪ FoundAround nodes mayAlias (x :: path) (inputs.map Prod.snd),
      ∀ q, StepsAround nodes mayAlias [] p q →
        q ∈ finished ∪ FoundAround nodes mayAlias (x :: path) (inputs.map Prod.snd) ∨
          q ∈ x :: path) :
    finished ∪ FoundAround nodes mayAlias path [x] =
      insert x (finished ∪ FoundAround nodes mayAlias (x :: path) (inputs.map Prod.snd)) := by
  have hx : LeadsTo nodes mayAlias x x := leadsTo_phi ⟨block, inputs, hnode⟩
  refine Set.Subset.antisymm (Set.union_subset ?_ (foundAround_subset ?_ ?_)) ?_
  · exact fun v hv => .inr (.inl hv)
  · intro i hi p hp _
    rw [List.mem_singleton.mp hi] at hp
    exact .inl (hp.of_phi ⟨block, inputs, hnode⟩)
  · rintro p (rfl | hp) q ⟨hq, hstep⟩
    · by_cases hqx : q = p
      · exact .inl hqx
      · obtain ⟨block', inputs', hnode', i, hi, hlead⟩ := hstep
        rw [hnode] at hnode'
        cases hnode'
        exact .inr (.inr ⟨i, hi, q, hlead, by simp [hqx, hq], .refl⟩)
    · rcases hclosed p hp q ⟨List.not_mem_nil, hstep⟩ with hin | hin
      · exact .inr hin
      · exact .inl ((List.mem_cons.mp hin).resolve_right hq)
  · have hself : x ∈ FoundAround nodes mayAlias path [x] :=
      ⟨x, List.mem_singleton.mpr rfl, x, hx, hpath, .refl⟩
    rintro v (rfl | hv | ⟨i, hi, q, hq, hqpath, hreach⟩)
    · exact .inr hself
    · exact .inl hv
    · rw [List.mem_cons, not_or] at hqpath
      refine .inr ⟨x, List.mem_singleton.mpr rfl, x, hx, hpath,
        .head ⟨hqpath.2, block, inputs, hnode, i, hi, hq⟩ (ReflTransGen.mono ?_ _ _ hreach)⟩
      exact fun a b hab => ⟨fun hb => hab.1 (List.mem_cons_of_mem _ hb), hab.2⟩

/-- The phi itself is active while its inputs are explored. -/
theorem Explored.activate (h : Explored nodes mayAlias epoch cells path finished)
    (hx : x < nodes.length) (hm : markOf epoch cells x = .fresh)
    (hnode : nodes[x]? = some (.phi block inputs)) :
    Explored nodes mayAlias epoch (cells.set x ⟨epoch, 1, none⟩) (x :: path) finished := by
  have hlt : x < cells.length := h.marked.length ▸ hx
  have hphi : IsPhi nodes x := ⟨block, inputs, hnode⟩
  refine ⟨h.marked.activate hx hm (.inl hphi), fun p => ?_, fun p => ?_, fun a c ha => ?_,
    fun p hp q hq => ?_⟩
  · rw [List.mem_cons, h.active, markOf_set hlt]
    split
    · rename_i hpx
      simp [hpx, hphi]
    · rename_i hpx
      simp [hpx]
  · rw [h.done, markOf_set hlt]
    split
    · rename_i hpx
      simp [hpx, hm]
    · rfl
  · rw [markOf_set hlt] at ha
    split at ha
    · simp at ha
    · exact h.ends a c ha
  · exact (h.closed p hp q hq).imp_right (List.mem_cons_of_mem _)

/-- Behind its inputs the phi is finished, and no longer on the path. -/
theorem Explored.finish (h : Explored nodes mayAlias epoch cells' (x :: path)
      (finished ∪ FoundAround nodes mayAlias (x :: path) (inputs.map Prod.snd)))
    (hx : x < nodes.length) (hpath : x ∉ path) (hnode : nodes[x]? = some (.phi block inputs))
    (c' : Nat) :
    Explored nodes mayAlias epoch (cells'.set x ⟨epoch, 2, some (.access c')⟩) path
      (finished ∪ FoundAround nodes mayAlias path [x]) := by
  have hlt : x < cells'.length := h.marked.length ▸ hx
  have hphi : IsPhi nodes x := ⟨block, inputs, hnode⟩
  have hactive : markOf epoch cells' x = .active := ((h.active x).mp (List.mem_cons_self ..)).2
  rw [foundAround_phi hnode hpath h.closed]
  refine ⟨h.marked.finish hx (by simp [hactive]) fun p hs => absurd hnode hs.not_phi, fun p => ?_,
    fun p => ?_, fun a c ha => ?_, ?_⟩
  · rw [markOf_set hlt]
    split
    · rename_i hpx
      simp [hpx, hpath]
    · rename_i hpx
      rw [← h.active, List.mem_cons, or_iff_right hpx]
  · rw [Set.mem_insert_iff, h.done, markOf_set hlt]
    split
    · rename_i hpx
      simp [hpx, hphi]
    · rename_i hpx
      rw [or_iff_right hpx]
  · rw [markOf_set hlt] at ha
    split at ha
    · rename_i hax
      exact ⟨a, chainEnd_phi (hax ▸ hnode)⟩
    · exact h.ends a c ha
  · rintro p (rfl | hp) q hq
    · by_cases hin : q ∈ p :: path
      · exact (List.mem_cons.mp hin).imp .inl id
      · obtain ⟨-, block', inputs', hnode', i, hi, hlead⟩ := hq
        rw [hnode] at hnode'
        cases hnode'
        exact .inl (.inr (.inr ⟨i, hi, q, hlead, hin, .refl⟩))
    · rcases h.closed p hp q hq with hin | hin
      · exact .inl (.inr hin)
      · exact (List.mem_cons.mp hin).imp .inl id

/-- Whether an input hands back a cycle is told by where it leads. -/
theorem cycle_iff {i : Nat} {result : ClobberResolution}
    (h : Explored nodes mayAlias epoch cells path finished)
    (hans : Answers nodes mayAlias epoch cells cells' i result) :
    result = .cycle ↔ ∀ e, ChainEnd nodes mayAlias i e → e ∈ path := by
  cases hans with
  | cycle hcycle =>
    refine iff_of_true rfl fun e he => (h.active e).mpr ⟨?_, hcycle e he⟩
    exact (h.marked.waits e (hcycle e he)).resolve_right fun ⟨p, hs⟩ => he.stops p hs
  | @access c' e hdone hend he =>
    refine iff_of_false (by simp) fun hall => he ?_
    exact ((h.active e).mp (hall e hend)).2

theorem explores_phi (hwf : WellFormed nodes) (hc : IsEntry nodes c ∨ Clobbers nodes mayAlias c)
    (h : Explored nodes mayAlias epoch cells path finished) (hx : x < nodes.length)
    (hm : markOf epoch cells x = .fresh) (hnode : nodes[x]? = some (.phi block inputs))
    (hcame : Came nodes mayAlias epoch cells x)
    (ih : ∀ cells' finished' y, freshCount nodes epoch cells' < freshCount nodes epoch cells →
      Explored nodes mayAlias epoch cells' (x :: path) finished' → y < nodes.length →
      Came nodes mayAlias epoch cells' y →
      Explores nodes mayAlias epoch c cells' (x :: path) finished' y) :
    Explores nodes mayAlias epoch c cells path finished x := by
  intro frames values
  have hlt : x < cells.length := h.marked.length ▸ hx
  have hpath : x ∉ path := fun hmem => by simp [((h.active x).mp hmem).2] at hm
  have hfin : x ∉ finished := fun hmem => by
    obtain ⟨c', hc'⟩ := ((h.done x).mp hmem).2
    simp [hc'] at hm
  have hxc : x ≠ c := by
    rintro rfl
    exact not_isPhi_of_end hc ⟨block, inputs, hnode⟩
  have hentered := h.activate hx hm hnode
  have hnext : ∀ i ∈ inputs.map Prod.snd, Next nodes mayAlias x i :=
    fun i hi => .inr ⟨block, inputs, hnode, hi⟩
  have hin : ∀ i ∈ inputs.map Prod.snd, i < nodes.length ∧
      Came nodes mayAlias epoch (cells.set x ⟨epoch, 1, none⟩) i := by
    intro i hi
    exact ⟨hwf x i (by simpa [Back, hnode] using hi), hcame.enter hlt (hnext i hi)⟩
  obtain ⟨results, cells', hsteps, hexp, hext, hall, hreports⟩ := explores_inputs ih
    (inputs.map Prod.snd) (cells.set x ⟨epoch, 1, none⟩) finished
    (freshCount_set_lt hx h.marked.length hm (by simp)) hentered hin
    (.finishPhi x inputs.length :: frames) values
  have hlt' : x < cells'.length := hexp.marked.length ▸ hx
  have hlen : results.length = inputs.length := by simpa using hall.length_eq.symm
  obtain ⟨c', hjoin⟩ := joinInputs_access x results
  have hrun : Steps nodes mayAlias epoch ⟨cells, .enter x :: frames, values⟩
      ⟨cells'.set x ⟨epoch, 2, some (.access c')⟩, frames, .access c' :: values⟩ := by
    have hstart : Steps nodes mayAlias epoch ⟨cells, .enter x :: frames, values⟩
        ⟨cells', .finishPhi x inputs.length :: frames, results.reverse ++ values⟩ :=
      (Steps.single (by simp) (step_phi h.marked hx hm hnode frames values)).trans hsteps
    refine hstart.append (by simp) ?_
    have htake : (results.reverse ++ values).take inputs.length = results.reverse :=
      List.take_left' (by simp [hlen])
    have hdrop : (results.reverse ++ values).drop inputs.length = values :=
      List.drop_left' (by simp [hlen])
    simp [stepFrame, stepPhi, hlen, htake, hdrop, hjoin, Walk.resolve]
  refine ⟨.access c', cells'.set x ⟨epoch, 2, some (.access c')⟩, hrun,
    hexp.finish hx hpath hnode c', .of_entered hlt hlt' hm hext (by simp),
    .access (by simp [markOf_set hlt']) (chainEnd_phi hnode) (by simp [hm]), fun hgood honly => ?_⟩
  have hreport := hreports (hgood.set hlt (by simp)) fun i hi v hv =>
    honly v (hv.next (hnext i hi))
  constructor
  · intro hopen
    obtain ⟨hgood', hresults⟩ := hreport.precise fun before i after d hi hd =>
      hopen d ((arrivesAt_phi hnode hpath hfin).mpr (.inr ⟨before, i, after, hi, hd⟩))
    have hself := hopen _ ((arrivesAt_phi hnode hpath hfin).mpr (.inl rfl))
    -- one input leads elsewhere, and what it hands back is no cycle
    obtain ⟨r, hr, hne⟩ : ∃ r ∈ results, r ≠ .cycle := by
      by_contra hcon
      refine hself fun block' inputs' hnode' i hi => ?_
      rw [hnode] at hnode'
      cases hnode'
      obtain ⟨r, hr, hans⟩ := forall₂_exists hall hi
      refine (cycle_iff hentered hans).mp ?_
      by_contra hne
      exact hcon ⟨r, hr, hne⟩
    rw [joinInputs_common hr hne hresults] at hjoin
    cases hjoin
    exact ⟨hgood'.set hlt' (by simp), .inr rfl⟩
  · rintro ⟨d, hd, hback⟩
    rcases (arrivesAt_phi hnode hpath hfin).mp hd with rfl | ⟨before, i, after, hi, hd⟩
    · have hcycles : ∀ r ∈ results, r = .cycle := by
        intro r hr
        obtain ⟨i, hi, hans⟩ := forall₂_exists hall.flip hr
        exact (cycle_iff hentered hans).mpr (hback block inputs hnode i hi)
      rw [joinInputs_cycles hcycles] at hjoin
      cases hjoin
      exact ⟨x, hxc, rfl⟩
    · obtain ⟨r, hr, c'', hne, rfl⟩ := hreport.imprecise ⟨before, i, after, d, hi, hd, hback⟩
      obtain ⟨c₁, hne₁, hjoin₁⟩ := joinInputs_other hr hne hxc
      rw [hjoin] at hjoin₁
      cases hjoin₁
      exact ⟨c', hne₁, rfl⟩

end Phi

/-- Every walk goes depth first from where it enters. -/
theorem explores (hwf : WellFormed nodes) (hc : IsEntry nodes c ∨ Clobbers nodes mayAlias c)
    (h : Explored nodes mayAlias epoch cells path finished) (hx : x < nodes.length)
    (hcame : Came nodes mayAlias epoch cells x) :
    Explores nodes mayAlias epoch c cells path finished x := by
  induction hn : freshCount nodes epoch cells using Nat.strong_induction_on
    generalizing cells path finished x with
  | _ n ih =>
    cases hm : markOf epoch cells x with
    | active => exact explores_active h hx hcame hm
    | done c' => exact explores_done h hx hm
    | fresh =>
      match hnode : nodes[x]? with
      | none =>
        simp only [List.getElem?_eq_none_iff] at hnode
        omega
      | some .liveOnEntry => exact explores_end h hx hm (.inl hnode)
      | some (.definition d p) =>
        by_cases halias : mayAlias d = true
        · exact explores_end h hx hm (.inr ⟨d, p, hnode, halias⟩)
        · have hs : Skips nodes mayAlias x p := ⟨d, hnode, by simpa using halias⟩
          have hlt : x < cells.length := h.marked.length ▸ hx
          have hentered := h.set hlt (fun ⟨_, _, hp⟩ => hs.not_phi hp)
            (h.marked.activate hx hm (.inr ⟨p, hs⟩)) (by simp)
          refine explores_skip h hx hm hs (ih _ ?_ hentered (hwf x p (by simp [Back, hnode]))
            (hcame.enter hlt (.inl hs)) rfl)
          exact hn ▸ freshCount_set_lt hx h.marked.length hm (by simp)
      | some (.phi block inputs) =>
        refine explores_phi hwf hc h hx hm hnode hcame
          fun cells' finished' y hlt hexp hy hcame' => ?_
        exact ih _ (hn ▸ hlt) hexp hy hcame' rfl

/-! ## A query of its own -/

theorem Ends.start_lt {start : Nat} (h : Ends nodes mayAlias start c) : start < nodes.length := by
  have hsome : ∀ {a : Nat} {node : MemoryAccessNode D}, nodes[a]? = some node → a < nodes.length :=
    fun hnode => (List.getElem?_eq_some_iff.mp hnode).1
  rcases h.1.cases_head with rfl | ⟨next, hnext, -⟩
  · rcases h.2 with he | ⟨d, p, hd, -⟩
    · exact hsome he
    · exact hsome hd
  · rcases hnext with ⟨d, hd, -⟩ | ⟨block, inputs, hp, -⟩
    · exact hsome hd
    · exact hsome hp

/-- A walk that ends leaves the definitions it passes by. -/
theorem Ends.chainEnd {start : Nat} (h : Ends nodes mayAlias start c) :
    ∃ e, ChainEnd nodes mayAlias start e := by
  obtain ⟨hreach, hend⟩ := h
  induction hreach using ReflTransGen.head_induction_on with
  | refl => exact ⟨c, .stop fun _ hs => hs.not_end hend⟩
  | head hnext _ ih =>
    rcases hnext with hs | ⟨block, inputs, hp, -⟩
    · obtain ⟨e, he⟩ := ih
      exact ⟨e, .skip hs he⟩
    · exact ⟨_, chainEnd_phi hp⟩

theorem clobber_deterministic {graph : MemoryAccessGraph D} {walker next next' : ClobberWalker}
    {fuel fuel' start : Nat} {answer answer' : MemoryClobber}
    (h : clobber fuel graph mayAlias walker start = some (answer, next))
    (h' : clobber fuel' graph mayAlias walker start = some (answer', next')) : answer' = answer := by
  unfold clobber at h h'
  have hs : start < graph.nodes.length := by
    by_contra hs
    rw [if_neg hs] at h
    cases h
  rw [if_pos hs] at h h'
  split at h <;> split at h' <;> cases h <;> cases h' <;>
    cases runFrames_unique ‹runFrames _ _ _ fuel _ = _› ‹runFrames _ _ _ fuel' _ = _› <;> rfl

/-- Where all walks back that end, end at one access, a query of its own answers that access exactly
if the depth-first walk comes to no phi from which all inputs lead back to phis it came through. -/
theorem freshClobber_precise_iff {P : Type} [DecidableEq D] [DecidableEq P] {cfg : SsaCfg}
    {memoryEvents : List (List (MemoryAccessEvent D P))} {graph : MemoryAccessGraph D}
    {points : MemoryPointMap P} (hbuild : memoryBuild cfg memoryEvents = .ok (graph, points))
    (mayAlias : D → Bool) {walker : ClobberWalker} (hw : walker.Reachable) {start c : Nat}
    (h : EndsOnlyAt graph.nodes mayAlias start c) :
    ∃ answer, (∃ last, Session graph mayAlias (walker.query graph) [start] [answer] last) ∧
      (∀ other last, Session graph mayAlias (walker.query graph) [start] [other] last →
        other = answer) ∧
      (answer = .access c ↔ ∀ d, ArrivesAt graph.nodes mayAlias [] ∅ start d →
        ¬ d.LeadsBack graph.nodes mayAlias) := by
  have hfresh := hw.valid.fresh graph
  have hrests : Rests graph.nodes mayAlias (walker.query graph) := hw.valid.rests graph
  have hlt := h.ends.start_lt
  have hstart : Explored graph.nodes mayAlias (walker.query graph).epoch
      (walker.query graph).cells [] ∅ := by
    refine ⟨hrests.coherent.marked, fun p => ?_, fun p => ?_, fun a c ha => ?_, fun p hp => ?_⟩
    · simp [hfresh]
    · simp [hfresh]
    · simp [hfresh] at ha
    · cases hp
  obtain ⟨result, cells, hsteps, -, -, hans, hreports⟩ :=
    explores (memoryBuild_wellFormed hbuild) h.ends.2 hstart hlt (hrests.came start) [] []
  have hreport := hreports (fun a c' ha => by simp [hfresh] at ha) h.only
  obtain ⟨fuel, hfuel⟩ := hsteps.run rfl
  cases hans with
  | cycle hcycle =>
    obtain ⟨e, he⟩ := h.ends.chainEnd
    have hactive := hcycle e he
    simp [hfresh] at hactive
  | @access c' e hdone hend he =>
    have hcall : clobber fuel graph mayAlias (walker.query graph) start =
        some (.access c', ⟨cells, (walker.query graph).epoch⟩) := by
      simp [clobber, hlt, hfuel]
    refine ⟨.access c', ⟨_, .cons fuel hcall (.nil _)⟩, fun other last hrun => ?_, ?_⟩
    · cases hrun with
      | cons _ hcall' _ => exact clobber_deterministic hcall hcall'
    · constructor
      · rintro heq d hd hback
        obtain ⟨c'', hne, hc''⟩ := hreport.imprecise ⟨d, hd, hback⟩
        cases hc''
        cases heq
        exact hne rfl
      · intro hopen
        rcases (hreport.precise hopen).2 with hcycle | hc
        · cases hcycle
        · cases hc
          rfl

end Graph

/-! ## One loop, and one loop in another -/

theorem loopGraph_arrivals {d : Arrival}
    (hd : ArrivesAt loopGraph.nodes (fun _ => false) [] ∅ 2 d) : d = ⟨[], ∅, 2⟩ := by
  have hphi : ∀ p, IsPhi loopGraph.nodes p → p = 2 := by
    rintro p ⟨block, inputs, hp⟩
    match p with
    | 0 => cases hp
    | 1 => cases hp
    | 2 => rfl
    | _ + 3 => cases hp
  have hnode : loopGraph.nodes[2]? = some (.phi 1 [(0, 0), (1, 1)]) := rfl
  rcases (arrivesAt_phi hnode (by simp) (by simp)).mp hd
    with rfl | ⟨before, i, after, -, q, hq, hpath, -⟩
  · rfl
  · rw [hphi q hq.2] at hpath
    exact absurd (List.mem_cons_self ..) hpath

/-- A store in a loop that cannot alias: the load at the header sees the entry. -/
theorem freshClobber_precise_iff_loop :
    ∃ last, Session loopGraph (fun _ => false) (ClobberWalker.new.query loopGraph) [2]
      [.access 0] last := by
  have hbuild : memoryBuild loopCfg [[], [⟨0, some 7⟩], []] = .ok (loopGraph, loopPoints) := by
    decide +kernel
  have hends : EndsOnlyAt loopGraph.nodes (fun _ => false) 2 0 := by
    refine ⟨⟨.single (.inr ⟨1, [(0, 0), (1, 1)], rfl, by simp⟩), .inl rfl⟩, ?_⟩
    rintro v ⟨-, he | ⟨d, p, -, halias⟩⟩
    · match v with
      | 0 => rfl
      | 1 => cases he
      | 2 => cases he
      | _ + 3 => cases he
    · cases halias
  obtain ⟨answer, hrun, -, hiff⟩ := freshClobber_precise_iff hbuild (fun _ => false) .new hends
  have hopen : ∀ d, ArrivesAt loopGraph.nodes (fun _ => false) [] ∅ 2 d →
      ¬ d.LeadsBack loopGraph.nodes fun _ => false := by
    intro d hd hback
    obtain rfl := loopGraph_arrivals hd
    have hmem := hback 1 [(0, 0), (1, 1)] rfl 0 (by simp) 0
      (.stop fun p hs => hs.not_end (.inl rfl))
    simp at hmem
  rw [← hiff.mpr hopen]
  exact hrun

/-- `0 → 1`, `1 → 2`, `2 → 2 | 3`, `3 → 1 | 4`: a loop in a loop. -/
def innerLoopCfg : SsaCfg :=
  ⟨0, [[], [0, 3], [1, 2], [2], [3]], [[1], [2], [2, 3], [1, 4], []],
    [[1], [2], [3], [4], []], [[], [1], [1, 2], [1], []]⟩

def innerLoopGraph : MemoryAccessGraph Nat :=
  ⟨[.liveOnEntry, .definition 7 3, .phi 1 [(0, 0), (3, 1)], .phi 2 [(1, 2), (2, 1)]], 1, 2⟩

def innerLoopPoints : MemoryPointMap Nat :=
  ⟨[(0, ⟨3, 1⟩)], [0, 2, 3, 1, 1], [0, 2, 1, 1, 1]⟩

/-- From the outer header all walks back only meet the entry, as the store of the inner loop cannot
alias; the answer is the phi of the outer header. -/
theorem outerHeader_answersItself :
    memoryBuild innerLoopCfg [[], [], [⟨0, some 7⟩], [], []] =
        .ok (innerLoopGraph, innerLoopPoints) ∧
      EndsOnlyAt innerLoopGraph.nodes (fun _ => false) 2 0 ∧
      ∃ last, Session innerLoopGraph (fun _ => false) (ClobberWalker.new.query innerLoopGraph) [2]
        [.access 2] last := by
  refine ⟨by decide +kernel, ⟨⟨.single (.inr ?_), .inl rfl⟩, ?_⟩, ⟨_, .cons 12 rfl (.nil _)⟩⟩
  · exact ⟨1, [(0, 0), (3, 1)], rfl, by simp⟩
  · rintro v ⟨-, he | ⟨d, p, -, halias⟩⟩
    · match v with
      | 0 => rfl
      | 1 => cases he
      | 2 => cases he
      | 3 => cases he
      | _ + 4 => cases he
    · cases halias

end Celox.Ssa
