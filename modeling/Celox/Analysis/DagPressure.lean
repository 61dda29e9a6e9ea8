import Celox.Analysis.DagSchedule

/-! # The queue of ready nodes as an ordered set of keys

The `BTreeSet` of the loop, with the keys as they were inserted. A key is removed under the delta
its node has at the time, so that a delta changed without its key would leave a stale entry. -/
namespace Celox.Analysis.DagSchedule
open Celox.Graph OrderDual

/-- `(delta, Reverse(exit), Reverse(entry), Reverse(node))`. -/
abbrev Key := Int ×ₗ Natᵒᵈ ×ₗ Natᵒᵈ ×ₗ Natᵒᵈ

def keyOf (entryDepth exitDepth : Nat → Nat) (delta : Int) (node : Nat) : Key :=
  toLex (delta, toLex (toDual (exitDepth node), toLex (toDual (entryDepth node), toDual node)))

def Key.node (key : Key) : Nat := ofDual (ofLex (ofLex (ofLex key).2).2).2

/-- `ready` lists the nodes that are `present`. -/
structure Queued extends Sched where
  keys : Finset Key

namespace Queued
variable (p : Problem) (entryDepth exitDepth : Nat → Nat)

def insertReady (q : Queued) (node : Nat) : Except DagScheduleError Queued := do
  let s ← p.insertReady q.toSched node
  .ok { s with keys := insert (keyOf entryDepth exitDepth (s.deltas node) node) q.keys }

def removeReady (q : Queued) (node : Nat) : Queued :=
  { q with
    ready := q.ready.erase node
    keys := q.keys.erase (keyOf entryDepth exitDepth (q.deltas node) node) }

/-- The common body of `update_for_value` and `update_for_token`. -/
def adjust (adjustment : Int) (q : Queued) (candidate : Nat) : Except DagScheduleError Queued :=
  if candidate ∈ q.ready then do
    let keys := q.keys.erase (keyOf entryDepth exitDepth (q.deltas candidate) candidate)
    let delta ← checkedIsize (q.deltas candidate + adjustment)
    .ok { q with
      deltas := Function.update q.deltas candidate delta
      keys := insert (keyOf entryDepth exitDepth delta candidate) keys }
  else .ok q

def updateForValue (value : Nat) (adjustment : Int) (q : Queued) :
    Except DagScheduleError Queued :=
  (succ p.valueUsers value ++ [value]).foldlM (adjust entryDepth exitDepth adjustment) q

def updateForToken (token : Nat) (adjustment : Int) (q : Queued) :
    Except DagScheduleError Queued :=
  (succ p.tokenUsers token).foldlM (adjust entryDepth exitDepth adjustment) q

def killValue (q : Queued) (selected : Nat) : Except DagScheduleError Queued :=
  if q.live selected then
    updateForValue p entryDepth exitDepth selected 1
      { q with live := Function.update q.live selected false }
  else .ok q

def makeLive (q : Queued) (definition : Nat) : Except DagScheduleError Queued :=
  if q.live definition then .ok q
  else updateForValue p entryDepth exitDepth definition (-1)
    { q with live := Function.update q.live definition true }

def useToken (q : Queued) (token : Nat) : Except DagScheduleError Queued :=
  let before := q.remainingTokenUsers token
  if before = 0 then .error .arithmeticOverflow
  else do
    let q' := { q with
      remainingTokenUsers := Function.update q.remainingTokenUsers token (before - 1) }
    let weight ← checkedIsize (p.weight token)
    if !q.liveTokens token && 1 < before then
      let adjustment ← if before = 2 then checkedIsize (weight * -2) else .ok (-weight)
      updateForToken p entryDepth exitDepth token adjustment
        { q' with liveTokens := Function.update q'.liveTokens token true }
    else if q.liveTokens token && before == 2 then
      updateForToken p entryDepth exitDepth token (-weight) q'
    else if q.liveTokens token && before == 1 then
      .ok { q' with liveTokens := Function.update q'.liveTokens token false }
    else .ok q'

def releaseDependency (q : Queued) (dependency : Nat) : Except DagScheduleError Queued :=
  if q.unscheduledUsers dependency = 0 then .error .arithmeticOverflow
  else
    let q' := { q with
      unscheduledUsers :=
        Function.update q.unscheduledUsers dependency (q.unscheduledUsers dependency - 1) }
    if q.unscheduledUsers dependency - 1 = 0 then
      insertReady p entryDepth exitDepth q' dependency
    else .ok q'

/-- The node of the least key. -/
def first (q : Queued) : Option Nat :=
  if h : q.keys.Nonempty then some (q.keys.min' h).node else none

/-- The body of the loop. `reverse.push` comes first here, the rest does not read it. -/
def select (q : Queued) (selected : Nat) : Except DagScheduleError Queued := do
  let q := removeReady entryDepth exitDepth q selected
  let q := { q with reverse := q.reverse ++ [selected] }
  let q ← killValue p entryDepth exitDepth q selected
  let q ← (succ p.valueDependencies selected).foldlM (makeLive p entryDepth exitDepth) q
  let q ← (succ p.tokensByNode selected).foldlM (useToken p entryDepth exitDepth) q
  (succ p.dependencies selected).foldlM (releaseDependency p entryDepth exitDepth) q

def run : Nat → Queued → Except DagScheduleError Queued
  | 0, q => .ok q
  | fuel + 1, q =>
    match q.first with
    | none => .ok q
    | some selected =>
      match select p entryDepth exitDepth q selected with
      | .error e => .error e
      | .ok q => run fuel q

/-- The queue the loop starts with. -/
def start : Except DagScheduleError Queued :=
  ((List.range p.dependencies.length).filter fun node => (succ p.successors node).length = 0).foldlM
    (insertReady p entryDepth exitDepth) { p.start with keys := ∅ }

end Queued

/-- `schedule_with_users`. One round for each node is enough. -/
def Problem.schedule (p : Problem) : Except DagScheduleError (List Nat) :=
  if p.successors.length ≠ p.dependencies.length ∨ p.valueUsers.length ≠ p.dependencies.length then
    .error .shape
  else do
    let (topological, entryDepth) ←
      topologicalOrder p.successors fun node => (succ p.dependencies node).length
    let exitDepth := exitDepths p.dependencies topological
    let q ← Queued.start p entryDepth exitDepth
    let q ← Queued.run p entryDepth exitDepth p.dependencies.length q
    if q.reverse.length ≠ p.dependencies.length then .error .cycle else .ok q.reverse.reverse

/-! ## The set never holds a stale key -/

@[simp]
theorem keyOf_node (entryDepth exitDepth : Nat → Nat) (delta : Int) (node : Nat) :
    (keyOf entryDepth exitDepth delta node).node = node := rfl

namespace Queued
variable {p : Problem} {entryDepth exitDepth : Nat → Nat} {q : Queued}

/-- The keys are those of the present nodes under their deltas. -/
structure Exact (entryDepth exitDepth : Nat → Nat) (q : Queued) : Prop where
  nodup : q.ready.Nodup
  keys : ∀ k, k ∈ q.keys ↔ ∃ v ∈ q.ready, k = keyOf entryDepth exitDepth (q.deltas v) v

/-- Both fail alike, or the queue is exact and over the same tables. -/
inductive Simulates (entryDepth exitDepth : Nat → Nat) :
    Except DagScheduleError Queued → Except DagScheduleError Sched → Prop
  | ok {q : Queued} (h : q.Exact entryDepth exitDepth) :
    Simulates entryDepth exitDepth (.ok q) (.ok q.toSched)
  | error (e : DagScheduleError) : Simulates entryDepth exitDepth (.error e) (.error e)

theorem Simulates.bind {x : Except DagScheduleError Queued} {y : Except DagScheduleError Sched}
    {f : Queued → Except DagScheduleError Queued} {g : Sched → Except DagScheduleError Sched}
    (h : Simulates entryDepth exitDepth x y)
    (hf : ∀ q, q.Exact entryDepth exitDepth →
      Simulates entryDepth exitDepth (f q) (g q.toSched)) :
    Simulates entryDepth exitDepth (x >>= f) (y >>= g) := by
  cases h with
  | ok h => exact hf _ h
  | error e => exact .error e

theorem Simulates.foldlM {α : Type} {f : Queued → α → Except DagScheduleError Queued}
    {g : Sched → α → Except DagScheduleError Sched}
    (hf : ∀ q x, q.Exact entryDepth exitDepth →
      Simulates entryDepth exitDepth (f q x) (g q.toSched x))
    (row : List α) (h : q.Exact entryDepth exitDepth) :
    Simulates entryDepth exitDepth (row.foldlM f q) (row.foldlM g q.toSched) := by
  induction row generalizing q with
  | nil => exact .ok h
  | cons x row ih =>
    rw [List.foldlM_cons, List.foldlM_cons]
    exact (hf q x h).bind fun q h => ih h

/-- Tables other than the deltas do not matter. -/
theorem Exact.congr {q' : Queued} (h : q.Exact entryDepth exitDepth)
    (hready : q'.ready = q.ready) (hdeltas : q'.deltas = q.deltas) (hkeys : q'.keys = q.keys) :
    q'.Exact entryDepth exitDepth where
  nodup := hready ▸ h.nodup
  keys k := by rw [hkeys, hready, hdeltas, h.keys]

theorem Exact.removeReady (h : q.Exact entryDepth exitDepth) (node : Nat) :
    (removeReady entryDepth exitDepth q node).Exact entryDepth exitDepth where
  nodup := h.nodup.erase node
  keys k := by
    simp only [Queued.removeReady, Finset.mem_erase, h.keys, h.nodup.mem_erase_iff]
    constructor
    · rintro ⟨hne, v, hv, rfl⟩
      refine ⟨v, ⟨?_, hv⟩, rfl⟩
      rintro rfl
      exact hne rfl
    · rintro ⟨v, ⟨hne, hv⟩, rfl⟩
      exact ⟨fun heq => hne (congrArg Key.node heq), v, hv, rfl⟩

theorem Exact.adjust (h : q.Exact entryDepth exitDepth) (adjustment : Int) (candidate : Nat) :
    Simulates entryDepth exitDepth (adjust entryDepth exitDepth adjustment q candidate)
      (Problem.adjust adjustment q.toSched candidate) := by
  unfold Queued.adjust Problem.adjust
  split
  case isFalse => exact .ok h
  rename_i hcand
  cases checkedIsize (q.deltas candidate + adjustment) with
  | error e => exact .error e
  | ok delta =>
    refine .ok ⟨h.nodup, fun k => ?_⟩
    simp only [Finset.mem_insert, Finset.mem_erase, h.keys]
    constructor
    · rintro (rfl | ⟨hne, v, hv, rfl⟩)
      · exact ⟨candidate, hcand, by rw [Function.update_self]⟩
      · have hvc : v ≠ candidate := by
          rintro rfl
          exact hne rfl
        exact ⟨v, hv, by rw [Function.update_of_ne hvc]⟩
    · rintro ⟨v, hv, rfl⟩
      by_cases hvc : v = candidate
      · subst hvc
        exact .inl (by rw [Function.update_self])
      · refine .inr ⟨fun heq => hvc (congrArg Key.node heq), v, hv, ?_⟩
        rw [Function.update_of_ne hvc]

theorem Exact.insertReady (h : q.Exact entryDepth exitDepth) (node : Nat) :
    Simulates entryDepth exitDepth (insertReady p entryDepth exitDepth q node)
      (p.insertReady q.toSched node) := by
  unfold Queued.insertReady Problem.insertReady
  split
  case isTrue => exact .error _
  rename_i hnode
  cases p.pressureDelta q.toSched node with
  | error e => exact .error e
  | ok delta =>
    refine .ok ⟨?_, fun k => ?_⟩
    · exact List.nodup_append.mpr ⟨h.nodup, List.nodup_singleton _, by
        rintro v hv w hw rfl
        exact hnode (List.mem_singleton.mp hw ▸ hv)⟩
    simp only [Finset.mem_insert, h.keys, List.mem_append, List.mem_singleton]
    constructor
    · rintro (rfl | ⟨v, hv, rfl⟩)
      · exact ⟨node, .inr rfl, rfl⟩
      · have hne : v ≠ node := by
          rintro rfl
          exact hnode hv
        exact ⟨v, .inl hv, by rw [Function.update_of_ne hne]⟩
    · rintro ⟨v, hv | rfl, rfl⟩
      · have hne : v ≠ node := by
          rintro rfl
          exact hnode hv
        exact .inr ⟨v, hv, by rw [Function.update_of_ne hne]⟩
      · exact .inl rfl

theorem Exact.updateForValue (h : q.Exact entryDepth exitDepth) (value : Nat) (adjustment : Int) :
    Simulates entryDepth exitDepth (updateForValue p entryDepth exitDepth value adjustment q)
      (p.updateForValue value adjustment q.toSched) :=
  Simulates.foldlM (fun _ candidate h => h.adjust adjustment candidate) _ h

theorem Exact.updateForToken (h : q.Exact entryDepth exitDepth) (token : Nat) (adjustment : Int) :
    Simulates entryDepth exitDepth (updateForToken p entryDepth exitDepth token adjustment q)
      (p.updateForToken token adjustment q.toSched) :=
  Simulates.foldlM (fun _ candidate h => h.adjust adjustment candidate) _ h

theorem Exact.killValue (h : q.Exact entryDepth exitDepth) (selected : Nat) :
    Simulates entryDepth exitDepth (killValue p entryDepth exitDepth q selected)
      (p.killValue q.toSched selected) := by
  unfold Queued.killValue Problem.killValue
  split
  · exact Exact.updateForValue (by exact h.congr rfl rfl rfl) selected 1
  · exact .ok h

theorem Exact.makeLive (h : q.Exact entryDepth exitDepth) (definition : Nat) :
    Simulates entryDepth exitDepth (makeLive p entryDepth exitDepth q definition)
      (p.makeLive q.toSched definition) := by
  unfold Queued.makeLive Problem.makeLive
  split
  · exact .ok h
  · exact Exact.updateForValue (by exact h.congr rfl rfl rfl) definition (-1)

theorem Exact.useToken (h : q.Exact entryDepth exitDepth) (token : Nat) :
    Simulates entryDepth exitDepth (useToken p entryDepth exitDepth q token)
      (p.useToken q.toSched token) := by
  unfold Queued.useToken Problem.useToken
  dsimp only
  split
  · exact .error _
  cases checkedIsize (p.weight token) with
  | error e => exact .error e
  | ok weight =>
    simp only [bind, Except.bind]
    split
    · split
      · cases checkedIsize (weight * -2) with
        | error e => exact .error e
        | ok adjustment => exact Exact.updateForToken (by exact h.congr rfl rfl rfl) token adjustment
      · exact Exact.updateForToken (by exact h.congr rfl rfl rfl) token (-weight)
    · split
      · exact Exact.updateForToken (by exact h.congr rfl rfl rfl) token (-weight)
      · split
        · exact .ok (h.congr rfl rfl rfl)
        · exact .ok (h.congr rfl rfl rfl)

theorem Exact.releaseDependency (h : q.Exact entryDepth exitDepth) (dependency : Nat) :
    Simulates entryDepth exitDepth (releaseDependency p entryDepth exitDepth q dependency)
      (p.releaseDependency q.toSched dependency) := by
  unfold Queued.releaseDependency Problem.releaseDependency
  split
  · exact .error _
  dsimp only
  split
  · exact Exact.insertReady (by exact h.congr rfl rfl rfl) dependency
  · exact .ok (h.congr rfl rfl rfl)

theorem Exact.select (h : q.Exact entryDepth exitDepth) (selected : Nat) :
    Simulates entryDepth exitDepth (select p entryDepth exitDepth q selected)
      (p.select q.toSched selected) := by
  unfold Queued.select Problem.select
  refine Simulates.bind (Exact.killValue
    (by exact (h.removeReady selected).congr rfl rfl rfl) selected) fun q h => ?_
  refine Simulates.bind (Simulates.foldlM (fun _ d h => h.makeLive d) _ h) fun q h => ?_
  refine Simulates.bind (Simulates.foldlM (fun _ t h => h.useToken t) _ h) fun q h => ?_
  exact Simulates.foldlM (fun _ d h => h.releaseDependency d) _ h

/-! ## The first key is the least one -/

theorem keyLt_iff {deltas : Nat → Int} (a b : Nat) : keyLt entryDepth exitDepth deltas a b = true ↔
    keyOf entryDepth exitDepth (deltas a) a < keyOf entryDepth exitDepth (deltas b) b := by
  simp only [keyLt, keyOf, Prod.Lex.toLex_lt_toLex, toDual_lt_toDual, toDual_inj, Bool.or_eq_true,
    Bool.and_eq_true, decide_eq_true_eq, beq_iff_eq]

theorem Exact.first_eq (h : q.Exact entryDepth exitDepth) :
    q.first = Graph.first (keyLt entryDepth exitDepth q.deltas) q.ready := by
  cases hfirst : Graph.first (keyLt entryDepth exitDepth q.deltas) q.ready with
  | none =>
    have hnil := first_eq_none.mp hfirst
    refine dif_neg ?_
    rintro ⟨k, hk⟩
    obtain ⟨v, hv, -⟩ := (h.keys k).mp hk
    simp [hnil] at hv
  | some u =>
    have hu := first_mem hfirst
    have hmem : keyOf entryDepth exitDepth (q.deltas u) u ∈ q.keys := (h.keys _).mpr ⟨u, hu, rfl⟩
    have hmin : q.keys.min' ⟨_, hmem⟩ = keyOf entryDepth exitDepth (q.deltas u) u := by
      refine le_antisymm (Finset.min'_le _ _ hmem) (Finset.le_min' _ _ _ fun k hk => ?_)
      obtain ⟨v, hv, rfl⟩ := (h.keys k).mp hk
      exact first_le keyLt_iff hfirst v hv
    rw [Queued.first, dif_pos ⟨_, hmem⟩, hmin, keyOf_node]

theorem Exact.run (fuel : Nat) (h : q.Exact entryDepth exitDepth) :
    Simulates entryDepth exitDepth (run p entryDepth exitDepth fuel q)
      (p.run entryDepth exitDepth fuel q.toSched) := by
  induction fuel generalizing q with
  | zero => exact .ok h
  | succ fuel ih =>
    rw [Queued.run, Problem.run, h.first_eq]
    cases Graph.first (keyLt entryDepth exitDepth q.deltas) q.ready with
    | none => exact .ok h
    | some selected =>
      dsimp only
      have hselect := h.select (p := p) selected
      revert hselect
      generalize Queued.select p entryDepth exitDepth q selected = x
      generalize p.select q.toSched selected = y
      rintro (hq | e)
      · exact ih hq
      · exact .error e

theorem start_simulates (p : Problem) (entryDepth exitDepth : Nat → Nat) : Simulates entryDepth exitDepth (start p entryDepth exitDepth)
    (((List.range p.dependencies.length).filter fun node =>
      (succ p.successors node).length = 0).foldlM p.insertReady p.start) := by
  have hempty : ({ p.start with keys := ∅ } : Queued).Exact entryDepth exitDepth :=
    ⟨List.nodup_nil, by simp [Problem.start]⟩
  exact Simulates.foldlM (fun _ node h => h.insertReady node) _ hempty

end Queued

/-- The set of keys selects as the search through all present nodes does. -/
theorem Problem.schedule_eq (p : Problem) : p.schedule = p.scheduleWithUsers := by
  unfold Problem.schedule Problem.scheduleWithUsers
  split
  · rfl
  refine bind_congr fun ⟨topological, entryDepth⟩ => ?_
  have hstart := Queued.start_simulates p entryDepth (exitDepths p.dependencies topological)
  dsimp only
  generalize Queued.start p entryDepth (exitDepths p.dependencies topological) = x at hstart ⊢
  generalize List.foldlM p.insertReady p.start _ = y at hstart ⊢
  rcases hstart with hq | e
  · rename_i q
    have hrun := hq.run (p := p) p.dependencies.length
    simp only [bind, Except.bind]
    generalize Queued.run p entryDepth _ p.dependencies.length q = x at hrun ⊢
    generalize p.run entryDepth _ p.dependencies.length q.toSched = y at hrun ⊢
    rcases hrun with hq | e <;> rfl
  · rfl

end Celox.Analysis.DagSchedule

/-! ## Cached deltas are the deltas of the tables

Each phase of a round moves the deltas of the present nodes by what it changes in the tables, so
that a cached delta is at any time the one `insert_ready` would compute. A counter that overflows
ends the loop, and nothing else does. -/
namespace Celox.Analysis.DagSchedule
open Celox.Graph

/-- `Q` holds of the result unless a counter overflows. -/
def Within (Q : Sched → Prop) : Except DagScheduleError Sched → Prop
  | .ok s => Q s
  | .error e => e = .arithmeticOverflow

theorem Within.bind {P Q : Sched → Prop} {x : Except DagScheduleError Sched}
    {f : Sched → Except DagScheduleError Sched} (h : Within P x) (hf : ∀ s, P s → Within Q (f s)) :
    Within Q (x >>= f) := by
  cases x with
  | ok s => exact hf s h
  | error e => exact h

theorem Within.mono {P Q : Sched → Prop} {x : Except DagScheduleError Sched} (h : Within P x)
    (hPQ : ∀ s, P s → Q s) : Within Q x := by
  cases x with
  | ok s => exact hPQ s h
  | error e => exact h

theorem checkedIsize_eq (x : Int) :
    checkedIsize x = .ok x ∨ checkedIsize x = .error .arithmeticOverflow := by
  unfold checkedIsize
  split
  · exact .inl rfl
  · exact .inr rfl

namespace Problem
variable {p : Problem} {s : Sched}

/-- What the checks before `schedule_with_users` establish. -/
structure Sound (p : Problem) : Prop where
  reversed : Reversed p.successors p.dependencies
  valueUsers : Reversed p.valueUsers p.valueDependencies
  values_length : p.valueDependencies.length = p.dependencies.length
  values_sub : ∀ u, ∀ v ∈ succ p.valueDependencies u, v ∈ succ p.dependencies u
  tokens_length : p.tokensByNode.length = p.dependencies.length
  tokens_nodup : ∀ node, (succ p.tokensByNode node).Nodup
  token_lt : ∀ node, ∀ token ∈ succ p.tokensByNode node, token < p.tokenWeights.length
  tokenUsers_eq : p.tokenUsers = (List.range p.tokenWeights.length).map fun token =>
    (List.range p.dependencies.length).filter fun user => token ∈ succ p.tokensByNode user

/-- The delta of a node under the tables. -/
def contribution (p : Problem) (s : Sched) (token : Nat) : Int :=
  if !s.liveTokens token && 1 < s.remainingTokenUsers token then p.weight token
  else if s.liveTokens token && s.remainingTokenUsers token == 1 then -p.weight token
  else 0

def pressure (p : Problem) (s : Sched) (node : Nat) : Int :=
  ((succ p.valueDependencies node).filter fun d => !s.live d).length - (s.live node).toNat +
    ((succ p.tokensByNode node).map (p.contribution s)).sum

def Cached (p : Problem) (s : Sched) : Prop := ∀ v ∈ s.ready, s.deltas v = p.pressure s v

/-! ## One adjustment -/

theorem adjust_row_within (candidates : List Nat) (a : Int) (s : Sched) :
    Within (fun s' => ∃ d, s' = { s with deltas := d } ∧
      ∀ v ∈ s.ready, d v = s.deltas v + candidates.count v * a)
      (candidates.foldlM (adjust a) s) := by
  induction candidates generalizing s with
  | nil => exact ⟨s.deltas, rfl, by simp⟩
  | cons c rest ih =>
    rw [List.foldlM_cons]
    unfold adjust
    by_cases hc : c ∈ s.ready
    · rw [if_pos hc]
      rcases checkedIsize_eq (s.deltas c + a) with hok | herr
      · rw [hok]
        refine Within.mono (ih _) ?_
        rintro _ ⟨d, rfl, hd⟩
        refine ⟨d, rfl, fun v hv => ?_⟩
        rw [hd v hv, List.count_cons]
        dsimp only
        by_cases hvc : v = c
        · subst hvc
          rw [Function.update_self, beq_self_eq_true, if_pos rfl]
          push_cast
          ring
        · rw [Function.update_of_ne hvc, if_neg (by simpa using Ne.symm hvc), Nat.add_zero]
      · rw [herr]
        rfl
    · rw [if_neg hc]
      refine Within.mono (ih s) ?_
      rintro _ ⟨d, rfl, hd⟩
      refine ⟨d, rfl, fun v hv => ?_⟩
      have hvc : c ≠ v := by
        rintro rfl
        exact hc hv
      rw [hd v hv, List.count_cons_of_ne hvc]

/-! ## Values -/

theorem missing_update {row : List Nat} (hnodup : row.Nodup) {live : Nat → Bool} {x : Nat} {b : Bool}
    (hx : live x = !b) : ((row.filter fun d => !Function.update live x b d).length : Int) =
      (row.filter fun d => !live d).length + row.count x * (if b then -1 else 1) := by
  induction row with
  | nil => simp
  | cons d row ih =>
    obtain ⟨hd, hrest⟩ := List.nodup_cons.mp hnodup
    have ih := ih hrest
    rw [List.count_cons]
    by_cases hdx : d = x
    · subst hdx
      rw [List.count_eq_zero.mpr hd] at ih ⊢
      cases b <;> simp_all
    · rw [if_neg (by simpa using hdx), Nat.add_zero]
      cases hlive : live d
      · simp only [List.filter_cons, Function.update_of_ne hdx, hlive, Bool.not_false, if_true,
          List.length_cons]
        push_cast
        omega
      · simpa only [List.filter_cons, Function.update_of_ne hdx, hlive, Bool.not_true,
          Bool.false_eq_true, if_false] using ih

theorem Sound.count_candidates (hp : p.Sound) (x v : Nat) :
    (succ p.valueUsers x ++ [x]).count v =
      (succ p.valueDependencies v).count x + if v = x then 1 else 0 := by
  rw [List.count_append, (hp.valueUsers.nodup x).count, (hp.valueUsers.nodup_rev v).count,
    List.count_singleton]
  congr 1
  · exact if_congr (hp.valueUsers.edge x v) rfl rfl
  · exact if_congr (by rw [beq_iff_eq, eq_comm]) rfl rfl

/-- What a change of one value moves the delta of a node by. -/
theorem Sound.pressure_live (hp : p.Sound) {x : Nat} {b : Bool} (hx : s.live x = !b) (v : Nat) :
    p.pressure { s with live := Function.update s.live x b } v = p.pressure s v +
      ((succ p.valueUsers x ++ [x]).count v : Nat) * (if b then -1 else 1) := by
  have hmissing := missing_update (hp.valueUsers.nodup_rev v) hx
  have hself : ((Function.update s.live x b v).toNat : Int) =
      (s.live v).toNat + (if v = x then 1 else 0) * (if b then 1 else -1) := by
    by_cases hvx : v = x
    · subst hvx
      rw [Function.update_self, hx]
      cases b <;> simp
    · simp [hvx]
  unfold pressure
  dsimp only
  rw [hmissing, hself, hp.count_candidates]
  have hsame : p.contribution { s with live := Function.update s.live x b } = p.contribution s := rfl
  rw [hsame]
  cases b <;> push_cast <;> split <;> simp <;> ring

/-- A changed value and its delta at all present nodes. -/
theorem Cached.value (hp : p.Sound) (h : p.Cached s) {x : Nat} {b : Bool} (hx : s.live x = !b) :
    Within (fun s' => ∃ d,
        s' = { s with live := Function.update s.live x b, deltas := d } ∧ p.Cached s')
      (p.updateForValue x (if b then -1 else 1)
        { s with live := Function.update s.live x b }) := by
  refine (adjust_row_within _ _ _).mono ?_
  rintro _ ⟨d, rfl, hd⟩
  refine ⟨d, rfl, fun v hv => ?_⟩
  have hmoved : d v = s.deltas v + _ := hd v hv
  rw [h v hv] at hmoved
  exact hmoved.trans (hp.pressure_live hx v).symm

theorem Cached.killValue (hp : p.Sound) (h : p.Cached s) (selected : Nat) :
    Within (fun s' => ∃ d,
        s' = { s with live := Function.update s.live selected false, deltas := d } ∧ p.Cached s')
      (p.killValue s selected) := by
  unfold Problem.killValue
  split
  · rename_i hlive
    exact h.value hp hlive
  · rename_i hlive
    have hsame : Function.update s.live selected false = s.live := by
      rw [Function.update_eq_self_iff]
      exact (Bool.not_eq_true _).mp hlive |>.symm
    exact ⟨s.deltas, by rw [hsame], h⟩

theorem Cached.makeLive (hp : p.Sound) (h : p.Cached s) (definition : Nat) :
    Within (fun s' => ∃ d,
        s' = { s with live := Function.update s.live definition true, deltas := d } ∧ p.Cached s')
      (p.makeLive s definition) := by
  unfold Problem.makeLive
  split
  · rename_i hlive
    have hsame : Function.update s.live definition true = s.live := by
      rw [Function.update_eq_self_iff]
      exact hlive.symm
    exact ⟨s.deltas, by rw [hsame], h⟩
  · rename_i hlive
    exact h.value hp ((Bool.not_eq_true _).mp hlive)

theorem Cached.makeLive_row (hp : p.Sound) (row : List Nat) (h : p.Cached s) :
    Within (fun s' => ∃ d,
        s' = { s with live := fun v => s.live v || decide (v ∈ row), deltas := d } ∧ p.Cached s')
      (row.foldlM p.makeLive s) := by
  induction row generalizing s with
  | nil => exact ⟨s.deltas, by simp, h⟩
  | cons x row ih =>
    rw [List.foldlM_cons]
    refine (h.makeLive hp x).bind ?_
    rintro _ ⟨d, rfl, h'⟩
    refine (ih h').mono ?_
    rintro _ ⟨d', rfl, h''⟩
    have hlive : (fun v => Function.update s.live x true v || decide (v ∈ row)) =
        fun v => s.live v || decide (v ∈ x :: row) := by
      funext v
      by_cases hv : v = x
      · subst hv
        simp
      · simp [hv]
    exact ⟨d', by rw [← hlive], h''⟩

/-! ## Tokens -/

theorem Sound.count_tokenUsers (hp : p.Sound) (token v : Nat) :
    (succ p.tokenUsers token).count v = (succ p.tokensByNode v).count token := by
  have hrow : (succ p.tokensByNode v).count token =
      if token ∈ succ p.tokensByNode v then 1 else 0 := (hp.tokens_nodup v).count
  by_cases ht : token < p.tokenWeights.length
  · have husers : succ p.tokenUsers token =
        (List.range p.dependencies.length).filter fun user => token ∈ succ p.tokensByNode user := by
      simp [hp.tokenUsers_eq, succ, List.getElem?_range ht]
    rw [husers, (List.nodup_range.filter _).count, hrow]
    refine if_congr ?_ rfl rfl
    rw [List.mem_filter, List.mem_range, decide_eq_true_iff, and_iff_right_iff_imp]
    intro hmem
    have : v < p.tokensByNode.length := Edge.lt_length hmem
    rwa [hp.tokens_length] at this
  · have hnone : succ p.tokenUsers token = [] := by
      simp [hp.tokenUsers_eq, succ, List.getElem?_eq_none (l := List.range p.tokenWeights.length)
        (i := token) (by simpa using ht)]
    rw [hnone, hrow, if_neg fun hmem => ht (hp.token_lt v token hmem)]
    rfl

theorem sum_map_change {row : List Nat} {f g : Nat → Int} {t : Nat}
    (hsame : ∀ x ∈ row, x ≠ t → g x = f x) :
    (row.map g).sum = (row.map f).sum + row.count t * (g t - f t) := by
  induction row with
  | nil => simp
  | cons x row ih =>
    have ih := ih fun y hy => hsame y (List.mem_cons_of_mem _ hy)
    rw [List.map_cons, List.sum_cons, List.map_cons, List.sum_cons, ih, List.count_cons]
    by_cases hx : x = t
    · subst hx
      rw [beq_self_eq_true, if_pos rfl]
      push_cast
      ring
    · rw [hsame x List.mem_cons_self hx, if_neg (by simpa using hx), Nat.add_zero]
      ring

/-- The tables after the use of a token. -/
def used (s : Sched) (token : Nat) : Sched :=
  { s with
    remainingTokenUsers :=
      Function.update s.remainingTokenUsers token (s.remainingTokenUsers token - 1)
    liveTokens :=
      Function.update s.liveTokens token (decide (1 < s.remainingTokenUsers token)) }

/-- What the use of a token moves the delta of a node by. -/
theorem pressure_used (token v : Nat) : p.pressure (used s token) v = p.pressure s v +
    (succ p.tokensByNode v).count token *
      (p.contribution (used s token) token - p.contribution s token) := by
  have hsame : ∀ x ∈ succ p.tokensByNode v, x ≠ token →
      p.contribution (used s token) x = p.contribution s x := by
    intro x _ hx
    unfold contribution used
    simp only [Function.update_of_ne hx]
  have hsum := sum_map_change hsame
  unfold pressure
  rw [hsum]
  simp only [used]
  ring

theorem contribution_used (token : Nat) : p.contribution (used s token) token =
    if s.remainingTokenUsers token = 2 then -(p.weight token : Int) else 0 := by
  unfold contribution used
  simp only [Function.update_self, Bool.and_eq_true, decide_eq_true_eq, Bool.not_eq_true',
    decide_eq_false_iff_not, beq_iff_eq]
  rw [if_neg (by omega)]
  exact if_congr (by omega) rfl rfl

/-- The adjustment is what the token contributes to its other users, if there are any. -/
theorem Cached.useToken (hp : p.Sound) (h : p.Cached s) (token : Nat)
    (hlast : s.remainingTokenUsers token = 1 → ∀ v ∈ s.ready, token ∉ succ p.tokensByNode v) :
    Within (fun s' => ∃ d, s' = { used s token with deltas := d } ∧ p.Cached s')
      (p.useToken s token) := by
  -- the deltas of the users move as the contribution does
  have hmove : ∀ (a : Int) (s₁ : Sched), s₁ = used s token →
      (s.remainingTokenUsers token ≠ 1 →
        a = p.contribution (used s token) token - p.contribution s token) →
      Within (fun s' => ∃ d, s' = { used s token with deltas := d } ∧ p.Cached s')
        (p.updateForToken token a s₁) := by
    rintro a s₁ rfl ha
    refine (adjust_row_within _ _ _).mono ?_
    rintro _ ⟨d, rfl, hd⟩
    refine ⟨d, rfl, fun v hv => ?_⟩
    have hmoved : d v = s.deltas v + _ := hd v hv
    rw [h v hv, hp.count_tokenUsers] at hmoved
    have hused : p.pressure s v + ((succ p.tokensByNode v).count token : Nat) * a =
        p.pressure (used s token) v := by
      rw [pressure_used]
      by_cases hone : s.remainingTokenUsers token = 1
      · rw [List.count_eq_zero.mpr (hlast hone v hv)]
        simp
      · rw [ha hone]
    exact hmoved.trans hused
  have hstay : (s.remainingTokenUsers token ≠ 1 →
      p.contribution (used s token) token = p.contribution s token) → p.Cached (used s token) := by
    intro hcontribution v hv
    rw [pressure_used]
    refine (h v hv).trans ?_
    by_cases hone : s.remainingTokenUsers token = 1
    · rw [List.count_eq_zero.mpr (hlast hone v hv)]
      simp
    · rw [hcontribution hone]
      simp
  have hliveTokens : s.liveTokens token = decide (1 < s.remainingTokenUsers token) →
      Function.update s.liveTokens token (decide (1 < s.remainingTokenUsers token)) =
        s.liveTokens := fun heq => Function.update_eq_self_iff.mpr heq.symm
  unfold Problem.useToken
  dsimp only
  split
  · rfl
  rename_i hpos
  rcases checkedIsize_eq (p.weight token) with hok | herr
  case inr =>
    rw [herr]
    rfl
  rw [hok]
  simp only [bind, Except.bind]
  split
  · rename_i hfirst
    obtain ⟨hdead, hmany⟩ : s.liveTokens token = false ∧ 1 < s.remainingTokenUsers token := by
      simpa using hfirst
    have hstate : ({ s with
        remainingTokenUsers :=
          Function.update s.remainingTokenUsers token (s.remainingTokenUsers token - 1)
        liveTokens := Function.update s.liveTokens token true } : Sched) = used s token := by
      unfold used
      rw [decide_eq_true hmany]
    have hbefore : p.contribution s token = p.weight token := by
      unfold contribution
      rw [if_pos (by simpa using hfirst)]
    split
    · rename_i htwo
      rcases checkedIsize_eq ((p.weight token : Int) * -2) with hok | herr
      · rw [hok]
        refine hmove _ _ hstate fun _ => ?_
        rw [contribution_used, if_pos htwo, hbefore]
        ring
      · rw [herr]
        rfl
    · rename_i htwo
      refine hmove _ _ hstate fun _ => ?_
      rw [contribution_used, if_neg htwo, hbefore]
      ring
  · rename_i hfirst
    have hbefore : p.contribution s token =
        if s.liveTokens token && s.remainingTokenUsers token == 1 then -(p.weight token : Int)
        else 0 := by
      unfold contribution
      rw [if_neg hfirst]
    split
    · rename_i hsecond
      obtain ⟨hlive, htwo⟩ : s.liveTokens token = true ∧ s.remainingTokenUsers token = 2 := by
        simpa using hsecond
      refine hmove _ _ ?_ fun _ => ?_
      · unfold used
        rw [hliveTokens (by rw [hlive, htwo]; rfl)]
      · rw [contribution_used, if_pos htwo, hbefore, if_neg (by simp [htwo])]
        ring
    · rename_i hsecond
      split
      · rename_i hthird
        obtain ⟨hlive, hone⟩ : s.liveTokens token = true ∧ s.remainingTokenUsers token = 1 := by
          simpa using hthird
        have hstate : ({ s with
            remainingTokenUsers :=
              Function.update s.remainingTokenUsers token (s.remainingTokenUsers token - 1)
            liveTokens := Function.update s.liveTokens token false } : Sched) = used s token := by
          unfold used
          rw [hone]
          rfl
        rw [hstate]
        exact ⟨s.deltas, rfl, hstay fun hne => absurd hone hne⟩
      · rename_i hthird
        have hcases : s.remainingTokenUsers token = 1 ∧ s.liveTokens token = false ∨
            2 < s.remainingTokenUsers token ∧ s.liveTokens token = true := by
          cases hlive : s.liveTokens token <;> simp [hlive] at hfirst hsecond hthird ⊢ <;> omega
        have hstate : ({ s with
            remainingTokenUsers :=
              Function.update s.remainingTokenUsers token (s.remainingTokenUsers token - 1) } :
              Sched) = used s token := by
          unfold used
          rw [hliveTokens]
          rcases hcases with ⟨hone, hlive⟩ | ⟨hmany, hlive⟩
          · rw [hone, hlive]
            rfl
          · rw [hlive, decide_eq_true (by omega)]
        rw [hstate]
        refine ⟨s.deltas, rfl, hstay fun hne => ?_⟩
        rw [contribution_used, if_neg (by omega), hbefore, if_neg hthird]

theorem Cached.useToken_row (hp : p.Sound) {row : List Nat} (hnodup : row.Nodup) (h : p.Cached s)
    (hlast : ∀ t ∈ row, s.remainingTokenUsers t = 1 → ∀ v ∈ s.ready, t ∉ succ p.tokensByNode v) :
    Within (fun s' => ∃ d, s' = { s with
        remainingTokenUsers := fun t => s.remainingTokenUsers t - row.count t
        liveTokens := fun t =>
          if t ∈ row then decide (1 < s.remainingTokenUsers t) else s.liveTokens t
        deltas := d } ∧ p.Cached s')
      (row.foldlM p.useToken s) := by
  induction row generalizing s with
  | nil => exact ⟨s.deltas, by simp, h⟩
  | cons token row ih =>
    obtain ⟨hfresh, hrest⟩ := List.nodup_cons.mp hnodup
    have hother : ∀ t ∈ row, t ≠ token := by
      rintro t ht rfl
      exact hfresh ht
    rw [List.foldlM_cons]
    refine (h.useToken hp token (hlast token List.mem_cons_self)).bind ?_
    rintro _ ⟨d, rfl, h'⟩
    refine (ih hrest h' fun t ht hone => ?_).mono ?_
    · have hsame : (used s token).remainingTokenUsers t = s.remainingTokenUsers t :=
        Function.update_of_ne (hother t ht) _ _
      exact hlast t (List.mem_cons_of_mem _ ht) (hsame ▸ hone)
    · rintro _ ⟨d', rfl, h''⟩
      have hremaining : (fun t => (used s token).remainingTokenUsers t - row.count t) =
          fun t => s.remainingTokenUsers t - (token :: row).count t := by
        funext t
        by_cases ht : t = token
        · subst ht
          simp [used, List.count_eq_zero.mpr hfresh]
        · simp [used, Function.update_of_ne ht, List.count_cons_of_ne (Ne.symm ht)]
      have hlive : (fun t => if t ∈ row then decide (1 < (used s token).remainingTokenUsers t)
            else (used s token).liveTokens t) =
          fun t => if t ∈ token :: row then decide (1 < s.remainingTokenUsers t)
            else s.liveTokens t := by
        funext t
        by_cases ht : t = token
        · subst ht
          simp [used, hfresh]
        · simp [used, ht]
      exact ⟨d', by rw [← hremaining, ← hlive]; rfl, h''⟩

/-! ## Nodes that become ready -/

theorem tokenContribution_eq (s : Sched) (token : Nat) :
    p.tokenContribution s token = .ok (p.contribution s token) ∨
      p.tokenContribution s token = .error .arithmeticOverflow := by
  unfold tokenContribution contribution
  split
  · exact checkedIsize_eq _
  · split
    · rcases checkedIsize_eq (p.weight token) with hok | herr
      · exact .inl (by rw [hok]; rfl)
      · exact .inr (by rw [herr]; rfl)
    · exact .inl rfl

theorem tokenDelta_eq (s : Sched) (row : List Nat) (x : Int) :
    (row.foldlM (fun delta token => do
        let contribution ← p.tokenContribution s token
        checkedIsize (delta + contribution)) x = .ok (x + (row.map (p.contribution s)).sum)) ∨
      row.foldlM (fun delta token => do
        let contribution ← p.tokenContribution s token
        checkedIsize (delta + contribution)) x = .error .arithmeticOverflow := by
  induction row generalizing x with
  | nil => exact .inl (by simp [pure, Except.pure])
  | cons token row ih =>
    rw [List.foldlM_cons, List.map_cons, List.sum_cons, ← add_assoc]
    rcases tokenContribution_eq (p := p) s token with hc | hc
    · rw [hc]
      rcases checkedIsize_eq (x + p.contribution s token) with hok | herr
      · simp only [bind, Except.bind, hok] at ih ⊢
        exact ih _
      · simp only [bind, Except.bind, herr]
        exact .inr trivial
    · rw [hc]
      exact .inr rfl

theorem pressureDelta_eq (s : Sched) (node : Nat) :
    p.pressureDelta s node = .ok (p.pressure s node) ∨
      p.pressureDelta s node = .error .arithmeticOverflow := by
  unfold pressureDelta pressure
  dsimp only
  rcases checkedIsize_eq ((((succ p.valueDependencies node).filter fun d => !s.live d).length : Int)
    - (s.live node).toNat) with hok | herr
  case inr =>
    rw [herr]
    exact .inr rfl
  rw [hok]
  rcases tokenDelta_eq (p := p) s (succ p.tokensByNode node) 0 with htok | herr
  · simp only [bind, Except.bind, zero_add] at htok ⊢
    rw [htok]
    exact checkedIsize_eq _
  · simp only [bind, Except.bind] at herr ⊢
    rw [herr]
    exact .inr rfl

theorem Cached.insertReady (h : p.Cached s) {node : Nat} (hnode : node ∉ s.ready) :
    Within (fun s' => (∃ d, s' = { s with deltas := d, ready := s.ready ++ [node] }) ∧ p.Cached s')
      (p.insertReady s node) := by
  unfold Problem.insertReady
  rw [if_neg hnode]
  rcases pressureDelta_eq (p := p) s node with hok | herr
  case inr =>
    rw [herr]
    rfl
  rw [hok]
  refine ⟨⟨_, rfl⟩, fun v hv => ?_⟩
  change Function.update s.deltas node (p.pressure s node) v = p.pressure s v
  rcases List.mem_append.mp hv with hold | hnew
  · have hne : v ≠ node := fun heq => hnode (heq ▸ hold)
    rw [Function.update_of_ne hne]
    exact h v hold
  · obtain rfl := List.mem_singleton.mp hnew
    rw [Function.update_self]

theorem Cached.release_row {row : List Nat} (hrow : Kahn.Releasable row s.kahn) (h : p.Cached s) :
    Within (fun s' => (∃ users ready d,
        s' = { s with unscheduledUsers := users, ready := ready, deltas := d }) ∧
        s'.kahn = Kahn.release row s.kahn ∧ p.Cached s')
      (row.foldlM p.releaseDependency s) := by
  induction row generalizing s with
  | nil => exact ⟨⟨_, _, _, rfl⟩, rfl, h⟩
  | cons v row ih =>
    have hpos : s.unscheduledUsers v ≠ 0 := by
      have := hrow.pos
      simp only [Sched.kahn] at this
      omega
    have hone : Within (fun s' => (∃ users ready d,
        s' = { s with unscheduledUsers := users, ready := ready, deltas := d }) ∧
        s'.kahn = Kahn.releaseOne s.kahn v ∧ p.Cached s') (p.releaseDependency s v) := by
      unfold releaseDependency
      rw [if_neg hpos]
      dsimp only
      split
      · rename_i hzero
        have hfresh : v ∉ s.ready := fun hm => hrow.fresh (List.mem_append_right _ hm)
        have hcounted : p.Cached { s with
            unscheduledUsers :=
              Function.update s.unscheduledUsers v (s.unscheduledUsers v - 1) } := h
        refine (hcounted.insertReady hfresh).mono ?_
        rintro _ ⟨⟨d, rfl⟩, h'⟩
        refine ⟨⟨_, _, _, rfl⟩, ?_, h'⟩
        simp only [Sched.kahn, Kahn.releaseOne, hzero, if_true]
      · rename_i hzero
        refine ⟨⟨_, _, _, rfl⟩, ?_, h⟩
        unfold Kahn.releaseOne
        rw [if_neg (show ¬ s.kahn.count v - 1 = 0 from hzero)]
        rfl
    rw [List.foldlM_cons]
    refine hone.bind ?_
    rintro s₁ ⟨⟨users, ready, d, rfl⟩, hkahn, h₁⟩
    refine (ih (by rw [hkahn]; exact hrow.releaseOne) h₁).mono ?_
    rintro _ ⟨⟨users', ready', d', rfl⟩, hkahn', h'⟩
    exact ⟨⟨_, _, _, rfl⟩, by rw [hkahn', hkahn, Kahn.release_cons], h'⟩

end Problem
end Celox.Analysis.DagSchedule
