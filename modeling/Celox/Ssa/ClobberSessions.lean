import Celox.Ssa.ClobberWalk

/-! # Sessions of clobber queries

Whatever was asked before, a call answers what the graph says, as long as no phi is finished under
another active phi. -/
namespace Celox.Ssa
open Relation

section Graph
variable {D : Type} {nodes : List (MemoryAccessNode D)} {mayAlias : D → Bool} {epoch : Nat}
  {cells : List Cell}

/-! ## One call -/

/-- What a call answers: the graph's answer, and no access for a run of definitions that never
ends. -/
inductive Settles (nodes : List (MemoryAccessNode D)) (mayAlias : D → Bool) (start : Nat) :
    MemoryClobber → Prop where
  | access {c : Nat} (h : Resolves nodes mayAlias start c) : Settles nodes mayAlias start (.access c)
  | indeterminate (h : ∀ e, ¬ ChainEnd nodes mayAlias start e) :
      Settles nodes mayAlias start .indeterminate

theorem Settles.unique {start : Nat} {answer answer' : MemoryClobber}
    (h : Settles nodes mayAlias start answer) (h' : Settles nodes mayAlias start answer') :
    answer = answer' := by
  cases h with
  | access h =>
    cases h' with
    | access h' => rw [h.unique h']
    | indeterminate hn =>
      obtain ⟨e, he⟩ := h.chainEnd
      exact absurd he (hn e)
  | indeterminate hn =>
    cases h' with
    | access h' =>
      obtain ⟨e, he⟩ := h'.chainEnd
      exact absurd he (hn e)
    | indeterminate => rfl

/-- Between two calls nothing is active. -/
structure Rests (nodes : List (MemoryAccessNode D)) (mayAlias : D → Bool) (walker : ClobberWalker) :
    Prop where
  coherent : Coherent nodes mayAlias walker.epoch walker.cells
  quiet : ∀ a, markOf walker.epoch walker.cells a ≠ .active

section Calls
variable {graph : MemoryAccessGraph D} {walker : ClobberWalker}

theorem Rests.came (h : Rests nodes mayAlias walker) (x : Nat) :
    Came nodes mayAlias walker.epoch walker.cells x :=
  ⟨fun a ha => absurd ha (h.quiet a), fun a _ ha _ => absurd ha (h.quiet a)⟩

theorem clobber_spec (hwf : WellFormed graph.nodes) (hsep : SeparatePhis graph.nodes mayAlias)
    (h : Rests graph.nodes mayAlias walker) {start : Nat} (hs : start < graph.nodes.length) :
    ∃ answer next, (∃ fuel, clobber fuel graph mayAlias walker start = some (answer, next)) ∧
      (∀ fuel answer' next', clobber fuel graph mayAlias walker start = some (answer', next') →
        answer' = answer ∧ next' = next) ∧
      Settles graph.nodes mayAlias start answer ∧ Rests graph.nodes mayAlias next := by
  obtain ⟨result, cells, hsteps, hcoh, hext, hans⟩ :=
    enters hwf hsep h.coherent hs (h.came start) [] []
  obtain ⟨fuel, hfuel⟩ := hsteps.run rfl
  have hquiet : ∀ a, markOf walker.epoch cells a ≠ .active :=
    fun a ha => h.quiet a (hext.closed a ha)
  cases hans with
  | cycle hcycle =>
    refine ⟨.indeterminate, ⟨cells, walker.epoch⟩, ⟨fuel, by simp [clobber, hs, hfuel]⟩, ?_,
      .indeterminate fun e he => h.quiet e (hcycle e he), ⟨hcoh, hquiet⟩⟩
    intro fuel' answer' next' h'
    rw [clobber, if_pos hs] at h'
    split at h'
    · cases runFrames_unique hfuel ‹_›
    · cases runFrames_unique hfuel ‹_›
      simpa [eq_comm] using h'
    · cases h'
  | @access c e hdone hend he =>
    refine ⟨.access c, ⟨cells, walker.epoch⟩, ⟨fuel, by simp [clobber, hs, hfuel]⟩, ?_,
      .access (hcoh.resolves start c hdone), ⟨hcoh, hquiet⟩⟩
    intro fuel' answer' next' h'
    rw [clobber, if_pos hs] at h'
    split at h'
    · cases runFrames_unique hfuel ‹_›
      simpa [eq_comm] using h'
    · cases runFrames_unique hfuel ‹_›
    · cases h'

/-! ## Sessions -/

theorem session_exists (hwf : WellFormed graph.nodes) (hsep : SeparatePhis graph.nodes mayAlias)
    (h : Rests graph.nodes mayAlias walker) (starts : List Nat)
    (hs : ∀ start ∈ starts, start < graph.nodes.length) :
    ∃ answers last, Session graph mayAlias walker starts answers last := by
  induction starts generalizing walker with
  | nil => exact ⟨[], walker, .nil walker⟩
  | cons start starts ih =>
    obtain ⟨answer, next, ⟨fuel, hfuel⟩, -, -, hnext⟩ :=
      clobber_spec hwf hsep h (hs start (List.mem_cons_self ..))
    obtain ⟨answers, last, hrest⟩ := ih hnext fun s hmem => hs s (List.mem_cons_of_mem _ hmem)
    exact ⟨answer :: answers, last, .cons fuel hfuel hrest⟩

theorem clobber_start_lt {fuel start : Nat} {answer : MemoryClobber} {next : ClobberWalker}
    (h : clobber fuel graph mayAlias walker start = some (answer, next)) :
    start < graph.nodes.length := by
  unfold clobber at h
  split at h
  · assumption
  · cases h

/-- Every answer of a session is the graph's. -/
theorem Session.settles (hwf : WellFormed graph.nodes) (hsep : SeparatePhis graph.nodes mayAlias)
    {starts : List Nat} {answers : List MemoryClobber} {last : ClobberWalker}
    (hrun : Session graph mayAlias walker starts answers last)
    (h : Rests graph.nodes mayAlias walker) :
    List.Forall₂ (Settles graph.nodes mayAlias) starts answers := by
  induction hrun with
  | nil => exact .nil
  | cons _ hcall _ ih =>
    obtain ⟨answer, next, -, hunique, hsettles, hnext⟩ :=
      clobber_spec hwf hsep h (clobber_start_lt hcall)
    obtain ⟨rfl, rfl⟩ := hunique _ _ _ hcall
    exact .cons hsettles (ih hnext)

end Calls

/-! ## Walkers across sessions -/

/-- The marks of a walker are of its epoch or of earlier ones. -/
structure ClobberWalker.Valid (walker : ClobberWalker) : Prop where
  epoch_lt : walker.epoch < 2 ^ 32
  cells_le : ∀ cell ∈ walker.cells, cell.epoch ≤ walker.epoch

/-- The walkers there are: new ones, and those that any sessions leave. -/
inductive ClobberWalker.Reachable : ClobberWalker → Prop where
  | new : Reachable .new
  | session {D : Type} {graph : MemoryAccessGraph D} {mayAlias : D → Bool}
      {walker last : ClobberWalker} {starts : List Nat} {answers : List MemoryClobber}
      (h : Reachable walker)
      (hrun : Session graph mayAlias (walker.query graph) starts answers last) : Reachable last

def EpochsLe (epoch : Nat) (cells : List Cell) : Prop := ∀ cell ∈ cells, cell.epoch ≤ epoch

theorem EpochsLe.set (h : EpochsLe epoch cells) (x state : Nat)
    (result : Option ClobberResolution) : EpochsLe epoch (cells.set x ⟨epoch, state, result⟩) := by
  intro cell hmem
  rcases List.mem_or_eq_of_mem_set hmem with hmem | rfl
  · exact h cell hmem
  · exact le_refl epoch

theorem stepFrame_epochsLe {walk next : Walk} (h : EpochsLe epoch walk.cells)
    (hstep : stepFrame nodes mayAlias epoch walk = some next) : EpochsLe epoch next.cells := by
  unfold stepFrame at hstep
  split at hstep
  · cases hstep
  · simp only [stepEnter, Option.bind_eq_bind, Option.bind_eq_some_iff] at hstep
    obtain ⟨cell, -, hstep⟩ := hstep
    split at hstep
    · split at hstep <;> cases hstep <;> exact h
    · obtain ⟨node, -, hstep⟩ := Option.bind_eq_some_iff.mp hstep
      cases node with
      | liveOnEntry =>
        cases hstep
        exact (h.set _ _ _).set _ _ _
      | definition d p =>
        simp only at hstep
        split at hstep <;> cases hstep
        · exact (h.set _ _ _).set _ _ _
        · exact h.set _ _ _
      | phi block inputs =>
        cases hstep
        exact h.set _ _ _
  · unfold stepDefinition at hstep
    split at hstep <;> cases hstep <;> exact h.set _ _ _
  · unfold stepPhi at hstep
    split at hstep <;> cases hstep
    exact h.set _ _ _

theorem runFrames_epochsLe {fuel : Nat} {walk last : Walk}
    (hrun : runFrames nodes mayAlias epoch fuel walk = some last)
    (h : EpochsLe epoch walk.cells) : EpochsLe epoch last.cells := by
  induction fuel generalizing walk with
  | zero =>
    unfold runFrames at hrun
    split at hrun <;> cases hrun
    exact h
  | succ fuel ih =>
    unfold runFrames at hrun
    split at hrun
    · cases hrun
      exact h
    · obtain ⟨next, hstep, hrun⟩ := Option.bind_eq_some_iff.mp hrun
      exact ih hrun (stepFrame_epochsLe h hstep)

theorem clobber_valid {graph : MemoryAccessGraph D} {walker next : ClobberWalker}
    {fuel start : Nat} {answer : MemoryClobber}
    (hcall : clobber fuel graph mayAlias walker start = some (answer, next)) (h : walker.Valid) :
    next.Valid := by
  unfold clobber at hcall
  split at hcall
  · split at hcall
    · rename_i hrun
      cases hcall
      exact ⟨h.epoch_lt, runFrames_epochsLe hrun h.cells_le⟩
    · rename_i hrun
      cases hcall
      exact ⟨h.epoch_lt, runFrames_epochsLe hrun h.cells_le⟩
    · cases hcall
  · cases hcall

theorem Session.valid {graph : MemoryAccessGraph D} {walker last : ClobberWalker}
    {starts : List Nat} {answers : List MemoryClobber}
    (hrun : Session graph mayAlias walker starts answers last) (h : walker.Valid) : last.Valid := by
  induction hrun with
  | nil => exact h
  | cons _ hcall _ ih => exact ih (clobber_valid hcall h)

theorem mem_resize {cell : Cell} {size : Nat} (h : cell ∈ resize cells size) :
    cell ∈ cells ∨ cell.epoch = 0 := by
  rcases List.mem_append.mp h with h | h
  · exact .inl (List.mem_of_mem_take h)
  · rw [List.eq_of_mem_replicate h]
    exact .inr rfl

/-- A new session starts in an epoch of which there are no marks. -/
theorem ClobberWalker.Valid.query {walker : ClobberWalker} (h : walker.Valid)
    (graph : MemoryAccessGraph D) :
    (walker.query graph).Valid ∧
      ∀ cell ∈ (walker.query graph).cells, cell.epoch < (walker.query graph).epoch := by
  have hlt := h.epoch_lt
  have hold : ∀ cell ∈ resize walker.cells graph.nodes.length, cell.epoch ≤ walker.epoch := by
    intro cell hmem
    rcases mem_resize hmem with hmem | h0
    · exact h.cells_le cell hmem
    · omega
  unfold ClobberWalker.query
  dsimp only
  split
  · refine ⟨⟨by simp, fun cell hmem => ?_⟩, fun cell hmem => ?_⟩
    all_goals
      obtain ⟨old, -, rfl⟩ := List.mem_map.mp hmem
      simp
  · rename_i hne
    have hmod : (walker.epoch + 1) % 2 ^ 32 = walker.epoch + 1 := by omega
    simp only [hmod] at hne ⊢
    refine ⟨⟨by dsimp only; omega, fun cell hmem => ?_⟩, fun cell hmem => ?_⟩
    · exact (hold cell hmem).trans (Nat.le_succ _)
    · exact Nat.lt_succ_of_le (hold cell hmem)

theorem ClobberWalker.Reachable.valid {walker : ClobberWalker} (h : walker.Reachable) :
    walker.Valid := by
  induction h with
  | new => exact ⟨by decide, by simp [ClobberWalker.new]⟩
  | session _ hrun ih => exact hrun.valid (ih.query _).1

theorem ClobberWalker.Valid.fresh {walker : ClobberWalker} (h : walker.Valid)
    (graph : MemoryAccessGraph D) (a : Nat) :
    markOf (walker.query graph).epoch (walker.query graph).cells a = .fresh := by
  unfold markOf
  split
  · rename_i cell hcell
    have := (h.query graph).2 cell (List.mem_of_getElem? hcell)
    rw [Cell.mark, if_neg (by omega)]
  · rfl

theorem ClobberWalker.Valid.rests {walker : ClobberWalker} (h : walker.Valid)
    (graph : MemoryAccessGraph D) : Rests graph.nodes mayAlias (walker.query graph) := by
  have hold := (h.query graph).2
  have hfresh := h.fresh graph
  refine ⟨⟨?_, fun cell hmem he => ?_, ?_, ?_, ?_⟩, ?_⟩
  · unfold ClobberWalker.query
    dsimp only
    split <;> simp [resize] <;> omega
  · have := hold cell hmem
    omega
  all_goals simp [hfresh]

theorem memoryBuild_wellFormed {P : Type} [DecidableEq D] [DecidableEq P] {cfg : SsaCfg}
    {memoryEvents : List (List (MemoryAccessEvent D P))} {graph : MemoryAccessGraph D}
    {points : MemoryPointMap P} (h : memoryBuild cfg memoryEvents = .ok (graph, points)) :
    WellFormed graph.nodes := by
  intro a b hback
  unfold Back at hback
  split at hback
  · rename_i hnode
    exact memoryBuild_origins h _ (List.mem_of_getElem? hnode) b (by simp [hback,
      MemoryAccessNode.origins])
  · rename_i hnode
    exact memoryBuild_origins h _ (List.mem_of_getElem? hnode) b hback
  · cases hback

/-! ## The answers of every session -/

/-- In a graph without two phis on a common cycle every session answers all its calls, soundly,
and each as a session of its own would. -/
theorem sessions_sound_and_order_free {P : Type} [DecidableEq D] [DecidableEq P] {cfg : SsaCfg}
    {memoryEvents : List (List (MemoryAccessEvent D P))} {graph : MemoryAccessGraph D}
    {points : MemoryPointMap P} (hbuild : memoryBuild cfg memoryEvents = .ok (graph, points))
    (mayAlias : D → Bool) (hsep : SeparatePhis graph.nodes mayAlias) {walker : ClobberWalker}
    (hw : walker.Reachable) (starts : List Nat)
    (hstarts : ∀ start ∈ starts, start < graph.nodes.length) :
    (∃ answers last, Session graph mayAlias (walker.query graph) starts answers last) ∧
      ∀ answers last, Session graph mayAlias (walker.query graph) starts answers last →
        List.Forall₂ (fun start answer =>
          (∀ c, answer = .access c → Sound graph.nodes mayAlias start c ∧
            (IsEntry graph.nodes c → ∀ path v, Trail graph.nodes start path v →
              ¬ Clobbers graph.nodes mayAlias v)) ∧
          ∀ fresh : ClobberWalker, fresh.Reachable →
            (∃ last', Session graph mayAlias (fresh.query graph) [start] [answer] last') ∧
            ∀ other last', Session graph mayAlias (fresh.query graph) [start] [other] last' →
              other = answer) starts answers := by
  have hwf := memoryBuild_wellFormed hbuild
  refine ⟨session_exists hwf hsep (hw.valid.rests graph) starts hstarts, fun answers last hrun => ?_⟩
  have hsettles := hrun.settles hwf hsep (hw.valid.rests graph)
  refine List.forall₂_iff_zip.mpr ⟨hsettles.length_eq, fun {start answer} hmem => ?_⟩
  have hsettle := List.forall₂_zip hsettles hmem
  have hlt := hstarts start (List.of_mem_zip hmem).1
  refine ⟨fun c hc => ?_, fun fresh hfresh => ?_⟩
  · subst hc
    cases hsettle with
    | access hres =>
      exact ⟨hres.sound, fun hentry path v htrail => hres.sound.not_clobbers hentry htrail⟩
  · have hother : ∀ other last', Session graph mayAlias (fresh.query graph) [start] [other] last' →
        other = answer := by
      intro other last' hrun'
      cases hrun'.settles hwf hsep (hfresh.valid.rests graph) with
      | cons h _ => exact h.unique hsettle
    obtain ⟨answers', last', hrun'⟩ := session_exists hwf hsep (hfresh.valid.rests graph)
      [start] (by simpa using hlt)
    refine ⟨?_, hother⟩
    cases hrun' with
    | cons _ hcall hrest =>
      cases hrest
      have hrun' := Session.cons _ hcall (.nil _)
      obtain rfl := hother _ _ hrun'
      exact ⟨_, hrun'⟩

end Graph

/-! ## A loop and a nested phi -/

/-- `0 → 1`, `1 → 1 | 2`. -/
def loopCfg : SsaCfg :=
  ⟨0, [[], [0, 1], [1]], [[1], [1, 2], []], [[1], [2], []], [[], [1], []]⟩

def loopGraph : MemoryAccessGraph Nat :=
  ⟨[.liveOnEntry, .definition 7 2, .phi 1 [(0, 0), (1, 1)]], 1, 1⟩

def loopPoints : MemoryPointMap Nat :=
  ⟨[(0, ⟨2, 1⟩)], [0, 2, 1], [0, 1, 1]⟩

theorem loopGraph_separatePhis (mayAlias : Nat → Bool) :
    SeparatePhis loopGraph.nodes mayAlias := by
  have hphi : ∀ p, IsPhi loopGraph.nodes p → p = 2 := by
    rintro p ⟨block, inputs, hp⟩
    match p with
    | 0 => cases hp
    | 1 => cases hp
    | 2 => rfl
    | _ + 3 => cases hp
  intro p q hp hq _ _
  rw [hphi p hp, hphi q hq]

/-- A store in a loop: the load after it and the load of another object, in one session. -/
theorem sessions_sound_and_order_free_loop :
    memoryBuild loopCfg [[], [⟨0, some 7⟩], []] = .ok (loopGraph, loopPoints) ∧
      ∃ answers last, Session loopGraph (fun _ => false) (ClobberWalker.new.query loopGraph)
        [1, 2] answers last := by
  have hbuild : memoryBuild loopCfg [[], [⟨0, some 7⟩], []] = .ok (loopGraph, loopPoints) := by
    decide +kernel
  exact ⟨hbuild, (sessions_sound_and_order_free hbuild (fun _ => false)
    (loopGraph_separatePhis _) .new [1, 2] (by decide)).1⟩

/-- `0 → 1`, `1 → 2 | 3`, `2 → 3`, `3 → 1 | 4`: a branch inside a loop. -/
def nestedCfg : SsaCfg :=
  ⟨0, [[], [0, 3], [1], [1, 2], [3]], [[1], [2, 3], [3], [1, 4], []],
    [[1], [2, 3], [], [4], []], [[], [1], [3], [1], []]⟩

def nestedGraph : MemoryAccessGraph Nat :=
  ⟨[.liveOnEntry, .definition 7 2, .phi 1 [(0, 0), (3, 3)], .phi 3 [(1, 2), (2, 1)]], 1, 2⟩

def nestedPoints : MemoryPointMap Nat :=
  ⟨[(0, ⟨2, 1⟩)], [0, 2, 2, 3, 3], [0, 2, 1, 3, 3]⟩

/-- The inner phi is finished while the outer one is active and keeps the definition as its answer,
though the walk over the outer phi goes round it; asked alone it answers itself. -/
theorem inner_phi_answer_depends_on_order :
    memoryBuild nestedCfg [[], [], [⟨0, some 7⟩], [], []] = .ok (nestedGraph, nestedPoints) ∧
      (∃ last, Session nestedGraph (fun _ => true) (ClobberWalker.new.query nestedGraph)
        [2, 3] [.access 2, .access 1] last) ∧
      ¬ Sound nestedGraph.nodes (fun _ => true) 3 1 ∧
      ∃ last, Session nestedGraph (fun _ => true) (ClobberWalker.new.query nestedGraph)
        [3] [.access 3] last := by
  refine ⟨by decide +kernel, ⟨_, .cons 10 rfl (.cons 10 rfl (.nil _))⟩, ?_,
    ⟨_, .cons 10 rfl (.nil _)⟩⟩
  intro h
  have htrail : Trail nestedGraph.nodes 3 [3, 2, 0] 0 :=
    .step (b := 2) (by simp [Back, nestedGraph]) (.step (b := 0) (by simp [Back, nestedGraph])
      (.here 0))
  have hmem := h [3, 2, 0] 0 htrail (.inl rfl)
  simp at hmem

end Celox.Ssa
