import Celox.Graph.Kahn

/-! # Bottom-up list scheduling of a dependency DAG

`celox-analysis/src/dag_schedule.rs`. Rows are local: node `i` of a mapped graph is the
`i`-th external node of the region. The ready `BTreeSet` is the list of present nodes, its
first element the one with the least key; depths are bounded by the number of nodes and are
plain `Nat`s, while the pressure deltas carry the overflow checks of `isize`. -/
namespace Celox.Analysis.DagSchedule
open Celox.Graph

inductive DagScheduleError where
  | shape
  | invalidNode
  | invalidToken
  | duplicateDependency
  | duplicateToken
  | valueIsNotDependency
  | usersAreNotReverseDependencies
  | cycle
  | arithmeticOverflow
  deriving Repr, DecidableEq

def isizeMax : Nat := 2 ^ 63 - 1

def checkedIsize (x : Int) : Except DagScheduleError Int :=
  if -(isizeMax : Int) - 1 ≤ x ∧ x ≤ isizeMax then .ok x else .error .arithmeticOverflow

def validateTokenRow (tokenCount : Nat) : Option Nat → List Nat → Except DagScheduleError Unit
  | _, [] => .ok ()
  | previous, token :: row =>
    if tokenCount ≤ token then .error .invalidToken
    else if previous.any (token ≤ ·) then .error .duplicateToken
    else validateTokenRow tokenCount (some token) row

/-- `usize::MAX` in `local_by_external` is `none`. -/
def validateMappedUserRow (externalByLocal : List Nat) (localByExternal : Nat → Option Nat)
    (externalCount : Nat) : Option Nat → List Nat → Except DagScheduleError Unit
  | _, [] => .ok ()
  | previous, external :: row =>
    if externalCount ≤ external then .error .invalidNode
    else if previous.any (external ≤ ·) then .error .duplicateDependency
    else if (localByExternal external).any fun node => externalByLocal[node]? ≠ some external then
      .error .invalidNode
    else validateMappedUserRow externalByLocal localByExternal externalCount (some external) row

/-- `MappedGraphRows::new`, with the rows it exposes. -/
def mappedGraphRows (rowsByExternalNode : List (List Nat)) (externalByLocal : List Nat)
    (localByExternal : Nat → Option Nat) (externalCount : Nat) :
    Except DagScheduleError (List (List Nat)) :=
  externalByLocal.zipIdx.mapM fun (external, node) =>
    if rowsByExternalNode.length ≤ external ∨ externalCount ≤ external ∨
        localByExternal external ≠ some node then
      .error .invalidNode
    else do
      validateMappedUserRow externalByLocal localByExternal externalCount none
        (succ rowsByExternalNode external)
      .ok ((succ rowsByExternalNode external).filterMap localByExternal)

/-- `MappedNodeRows::new`: the values of the rows are kept. -/
def mappedNodeRows (rowsByExternalNode : List (List Nat)) (externalByLocal : List Nat) :
    Except DagScheduleError (List (List Nat)) :=
  if externalByLocal.any fun external => rowsByExternalNode.length ≤ external then
    .error .invalidNode
  else .ok (externalByLocal.map fun external => succ rowsByExternalNode external)

/-- The read-only arguments of `schedule_with_users`. -/
structure Problem where
  dependencies : List (List Nat)
  valueDependencies : List (List Nat)
  tokensByNode : List (List Nat)
  tokenWeights : List Nat
  tokenUsers : List (List Nat)
  successors : List (List Nat)
  valueUsers : List (List Nat)

/-- `validate_inputs`, which also inverts the token rows. -/
def validateInputs (dependencies valueDependencies tokensByNode : List (List Nat))
    (tokenWeights : List Nat) : Except DagScheduleError (List (List Nat)) :=
  if valueDependencies.length ≠ dependencies.length ∨
      tokensByNode.length ≠ dependencies.length then
    .error .shape
  else do
    (List.range dependencies.length).forM fun user => do
      validateTokenRow tokenWeights.length none (succ tokensByNode user)
      if (succ valueDependencies user).any fun value => value ∉ succ dependencies user then
        .error .valueIsNotDependency
      else .ok ()
    .ok ((List.range tokenWeights.length).map fun token =>
      (List.range dependencies.length).filter fun user => token ∈ succ tokensByNode user)

def validateReverseUsers (users dependencies : List (List Nat)) : Except DagScheduleError Unit :=
  if users.length ≠ dependencies.length then .error .shape
  else if (List.range users.length).any fun definition =>
      (succ users definition).any fun user => definition ∉ succ dependencies user then
    .error .usersAreNotReverseDependencies
  else if ((List.range users.length).map fun definition => (succ users definition).length).sum ≠
      ((List.range dependencies.length).map fun row => (succ dependencies row).length).sum then
    .error .usersAreNotReverseDependencies
  else .ok ()

/-! ## Depths by a forward order -/

structure Topo where
  indegree : Nat → Nat
  ready : List Nat
  order : List Nat
  entryDepth : Nat → Nat

/-- The body of the loop over the successors of a node. -/
def Topo.release (nextDepth : Nat) (s : Topo) (successor : Nat) : Except DagScheduleError Topo :=
  if s.indegree successor = 0 then .error .arithmeticOverflow
  else .ok
    { s with
      entryDepth := Function.update s.entryDepth successor (max (s.entryDepth successor) nextDepth)
      indegree := Function.update s.indegree successor (s.indegree successor - 1)
      ready := if s.indegree successor - 1 = 0 then s.ready ++ [successor] else s.ready }

def Topo.run (successors : List (List Nat)) : Nat → Topo → Except DagScheduleError Topo
  | 0, s => .ok s
  | fuel + 1, s =>
    match s.ready.min? with
    | none => .ok s
    | some node =>
      match (succ successors node).foldlM (Topo.release (s.entryDepth node + 1))
          { s with ready := s.ready.erase node, order := s.order ++ [node] } with
      | .error e => .error e
      | .ok s => Topo.run successors fuel s

/-- `topological_order`. Every round schedules another node, so that one round for each node
is enough. -/
def topologicalOrder (successors : List (List Nat)) (indegree : Nat → Nat) :
    Except DagScheduleError (List Nat × (Nat → Nat)) :=
  match Topo.run successors successors.length
      { indegree := indegree
        ready := (List.range successors.length).filter fun node => indegree node = 0
        order := []
        entryDepth := fun _ => 1 } with
  | .error e => .error e
  | .ok s => if s.order.length ≠ successors.length then .error .cycle else .ok (s.order, s.entryDepth)

/-- The longest way to a sink, from the end of the topological order. -/
def exitDepths (dependencies : List (List Nat)) (topological : List Nat) : Nat → Nat :=
  topological.reverse.foldl (fun depth node =>
    let successorDepth := depth node + 1
    (succ dependencies node).foldl (fun depth dependency =>
      Function.update depth dependency (max (depth dependency) successorDepth)) depth) fun _ => 1

/-! ## The ready queue ordered by pressure -/

structure Sched where
  unscheduledUsers : Nat → Nat
  live : Nat → Bool
  remainingTokenUsers : Nat → Nat
  liveTokens : Nat → Bool
  deltas : Nat → Int
  ready : List Nat
  reverse : List Nat

/-- The order of the keys `(delta, Reverse(exit), Reverse(entry), Reverse(node))`. -/
def keyLt (entryDepth exitDepth : Nat → Nat) (deltas : Nat → Int) (a b : Nat) : Bool :=
  deltas a < deltas b || deltas a == deltas b &&
    (exitDepth b < exitDepth a || exitDepth a == exitDepth b &&
      (entryDepth b < entryDepth a || entryDepth a == entryDepth b && b < a))

namespace Problem
variable (p : Problem)

def weight (token : Nat) : Nat := p.tokenWeights[token]?.getD 0

/-- What scheduling `node` now would change for one of its tokens. -/
def tokenContribution (s : Sched) (token : Nat) : Except DagScheduleError Int :=
  if !s.liveTokens token && 1 < s.remainingTokenUsers token then checkedIsize (p.weight token)
  else if s.liveTokens token && s.remainingTokenUsers token == 1 then do
    let weight ← checkedIsize (p.weight token)
    .ok (-weight)
  else .ok 0

def pressureDelta (s : Sched) (node : Nat) : Except DagScheduleError Int := do
  let missing := ((succ p.valueDependencies node).filter fun definition => !s.live definition).length
  let valueDelta ← checkedIsize ((missing : Int) - (s.live node).toNat)
  let tokenDelta ← (succ p.tokensByNode node).foldlM (fun delta token => do
    let contribution ← p.tokenContribution s token
    checkedIsize (delta + contribution)) 0
  checkedIsize (valueDelta + tokenDelta)

def insertReady (s : Sched) (node : Nat) : Except DagScheduleError Sched :=
  if node ∈ s.ready then .error .duplicateDependency
  else do
    let delta ← p.pressureDelta s node
    .ok { s with deltas := Function.update s.deltas node delta, ready := s.ready ++ [node] }

/-- The common body of `update_for_value` and `update_for_token`. -/
def adjust (adjustment : Int) (s : Sched) (candidate : Nat) : Except DagScheduleError Sched :=
  if candidate ∈ s.ready then do
    let delta ← checkedIsize (s.deltas candidate + adjustment)
    .ok { s with deltas := Function.update s.deltas candidate delta }
  else .ok s

def updateForValue (value : Nat) (adjustment : Int) (s : Sched) : Except DagScheduleError Sched :=
  (succ p.valueUsers value ++ [value]).foldlM (adjust adjustment) s

def updateForToken (token : Nat) (adjustment : Int) (s : Sched) : Except DagScheduleError Sched :=
  (succ p.tokenUsers token).foldlM (adjust adjustment) s

/-- The selected node is no longer live above itself. -/
def killValue (s : Sched) (selected : Nat) : Except DagScheduleError Sched :=
  if s.live selected then
    p.updateForValue selected 1 { s with live := Function.update s.live selected false }
  else .ok s

def makeLive (s : Sched) (definition : Nat) : Except DagScheduleError Sched :=
  if s.live definition then .ok s
  else p.updateForValue definition (-1) { s with live := Function.update s.live definition true }

def useToken (s : Sched) (token : Nat) : Except DagScheduleError Sched :=
  let before := s.remainingTokenUsers token
  if before = 0 then .error .arithmeticOverflow
  else do
    let s' := { s with
      remainingTokenUsers := Function.update s.remainingTokenUsers token (before - 1) }
    let weight ← checkedIsize (p.weight token)
    if !s.liveTokens token && 1 < before then
      let adjustment ← if before = 2 then checkedIsize (weight * -2) else .ok (-weight)
      p.updateForToken token adjustment
        { s' with liveTokens := Function.update s'.liveTokens token true }
    else if s.liveTokens token && before == 2 then p.updateForToken token (-weight) s'
    else if s.liveTokens token && before == 1 then
      .ok { s' with liveTokens := Function.update s'.liveTokens token false }
    else .ok s'

def releaseDependency (s : Sched) (dependency : Nat) : Except DagScheduleError Sched :=
  if s.unscheduledUsers dependency = 0 then .error .arithmeticOverflow
  else
    let s' := { s with
      unscheduledUsers :=
        Function.update s.unscheduledUsers dependency (s.unscheduledUsers dependency - 1) }
    if s.unscheduledUsers dependency - 1 = 0 then p.insertReady s' dependency else .ok s'

/-- One round of the loop, for the first ready node. `reverse.push` comes first here, the
rest of the round does not read it. -/
def select (s : Sched) (selected : Nat) : Except DagScheduleError Sched := do
  let s := { s with ready := s.ready.erase selected, reverse := s.reverse ++ [selected] }
  let s ← p.killValue s selected
  let s ← (succ p.valueDependencies selected).foldlM p.makeLive s
  let s ← (succ p.tokensByNode selected).foldlM p.useToken s
  (succ p.dependencies selected).foldlM p.releaseDependency s

def run (entryDepth exitDepth : Nat → Nat) : Nat → Sched → Except DagScheduleError Sched
  | 0, s => .ok s
  | fuel + 1, s =>
    match first (keyLt entryDepth exitDepth s.deltas) s.ready with
    | none => .ok s
    | some selected =>
      match p.select s selected with
      | .error e => .error e
      | .ok s => run entryDepth exitDepth fuel s

def start : Sched where
  unscheduledUsers := fun node => (succ p.successors node).length
  live := fun _ => false
  remainingTokenUsers := fun token => (succ p.tokenUsers token).length
  liveTokens := fun _ => false
  deltas := fun _ => 0
  ready := []
  reverse := []

def scheduleWithUsers : Except DagScheduleError (List Nat) :=
  if p.successors.length ≠ p.dependencies.length ∨ p.valueUsers.length ≠ p.dependencies.length then
    .error .shape
  else do
    let (topological, entryDepth) ←
      topologicalOrder p.successors fun node => (succ p.dependencies node).length
    let s ← ((List.range p.dependencies.length).filter fun node =>
      (succ p.successors node).length = 0).foldlM p.insertReady p.start
    let s ← p.run entryDepth (exitDepths p.dependencies topological) p.dependencies.length s
    if s.reverse.length ≠ p.dependencies.length then .error .cycle else .ok s.reverse.reverse

end Problem

/-! ## The forward order is complete on an acyclic graph -/

section Forward
variable {successors : List (List Nat)}

def Topo.kahn (s : Topo) : Kahn.State := ⟨s.indegree, s.ready, s.order⟩

theorem Topo.release_row {row : List Nat} {s : Topo} (depth : Nat)
    (h : Kahn.Releasable row s.kahn) :
    ∃ s', row.foldlM (Topo.release depth) s = .ok s' ∧ s'.kahn = Kahn.release row s.kahn := by
  induction row generalizing s with
  | nil => exact ⟨s, rfl, rfl⟩
  | cons v row ih =>
    have hpos : s.indegree v ≠ 0 := by
      have := h.pos
      simp only [Topo.kahn] at this
      omega
    have hone : ∃ s₁, Topo.release depth s v = .ok s₁ ∧ s₁.kahn = Kahn.releaseOne s.kahn v :=
      ⟨_, if_neg hpos, rfl⟩
    obtain ⟨s₁, h₁, hk₁⟩ := hone
    obtain ⟨s₂, h₂, hk₂⟩ := ih (s := s₁) (by rw [hk₁]; exact h.releaseOne)
    refine ⟨s₂, ?_, ?_⟩
    · rw [List.foldlM_cons, h₁]
      exact h₂
    · rw [hk₂, hk₁, Kahn.release_cons]

theorem Topo.run_spec (hadj : InRange successors) : ∀ (fuel : Nat) {s : Topo},
    Kahn.Inv successors s.kahn → successors.length ≤ fuel + s.order.length →
      ∃ s', Topo.run successors fuel s = .ok s' ∧ Kahn.Inv successors s'.kahn ∧ s'.ready = []
  | 0, s, hinv, hfuel => ⟨s, rfl, hinv, hinv.ready_nil_of_length (by simpa [Topo.kahn] using hfuel)⟩
  | fuel + 1, s, hinv, hfuel => by
    unfold Topo.run
    cases hmin : s.ready.min? with
    | none => exact ⟨s, rfl, hinv, List.min?_eq_none_iff.mp hmin⟩
    | some node =>
      have hmem : node ∈ s.kahn.ready := List.min?_mem hmin
      obtain ⟨s₁, h₁, hk₁⟩ := Topo.release_row (s.entryDepth node + 1)
        (s := { s with ready := s.ready.erase node, order := s.order ++ [node] })
        (hinv.releasable hmem)
      have hinv₁ : Kahn.Inv successors s₁.kahn := by
        rw [hk₁]
        exact hinv.take hadj hmem
      have hlen : s₁.order.length = s.order.length + 1 := by
        have : s₁.order = s.order ++ [node] := by
          rw [show s₁.order = s₁.kahn.order from rfl, hk₁, Kahn.release_order]
          rfl
        simp [this]
      obtain ⟨s₂, h₂, hinv₂⟩ := Topo.run_spec hadj fuel hinv₁ (by omega)
      exact ⟨s₂, by simp only [h₁, h₂], hinv₂⟩

theorem topologicalOrder_ok {dependencies : List (List Nat)}
    (hrev : Reversed successors dependencies) (hac : Acyclic successors) :
    ∃ order depth,
      topologicalOrder successors (fun node => (succ dependencies node).length) = .ok (order, depth) := by
  obtain ⟨s, hs, hinv, hnil⟩ := Topo.run_spec hrev.inRange successors.length
    (s := ⟨fun node => (succ dependencies node).length,
      (List.range successors.length).filter fun node => (succ dependencies node).length = 0, [],
      fun _ => 1⟩)
    (Kahn.Inv.start (fun v => (hrev.pendingIn_nil v).symm) rfl rfl) (by simp)
  have hlen : s.order.length = successors.length := by
    have := (hinv.perm_of_mem (hinv.complete hac hnil)).length_eq
    simpa [Topo.kahn] using this
  exact ⟨s.order, s.entryDepth, by simp only [topologicalOrder, hs, hlen, ne_eq, not_true, if_false]⟩

end Forward

/-! ## The pressure order is complete when its deltas fit

Every delta starts at most at the cost of its node and moves by at most the cost of each
scheduled node, so that twice the total cost bounds every intermediate value. -/

section Checked

def Sched.kahn (s : Sched) : Kahn.State := ⟨s.unscheduledUsers, s.ready, s.reverse⟩

theorem checkedIsize_ok {x : Int} (h : x.natAbs ≤ isizeMax) : checkedIsize x = .ok x :=
  if_pos (by omega)

/-- Candidates that occur rarely enough are all adjusted within the bound. -/
theorem Problem.adjust_row {candidates : List Nat} {a : Int} {s : Sched} {M : Nat}
    (h : ∀ c, (s.deltas c).natAbs + candidates.count c * a.natAbs ≤ M) (hM : M ≤ isizeMax) :
    ∃ d, candidates.foldlM (Problem.adjust a) s = .ok { s with deltas := d } ∧
      ∀ c, (d c).natAbs ≤ M := by
  induction candidates generalizing s with
  | nil =>
    refine ⟨s.deltas, rfl, fun c => ?_⟩
    have := h c
    omega
  | cons w rest ih =>
    have hw := h w
    rw [List.count_cons_self, Nat.succ_mul] at hw
    by_cases hr : w ∈ s.ready
    · have hone : Problem.adjust a s w =
          .ok { s with deltas := Function.update s.deltas w (s.deltas w + a) } := by
        simp only [Problem.adjust, if_pos hr]
        rw [checkedIsize_ok (by omega)]
        rfl
      obtain ⟨d, hd, hb⟩ := ih (s := { s with deltas := Function.update s.deltas w (s.deltas w + a) })
        (fun c => by
          by_cases hc : c = w
          · subst hc
            simp only [Function.update_self]
            omega
          · have := h c
            rw [List.count_cons_of_ne (Ne.symm hc)] at this
            simpa [Function.update_of_ne hc] using this)
      exact ⟨d, by rw [List.foldlM_cons, hone]; exact hd, hb⟩
    · have hone : Problem.adjust a s w = .ok s := by simp only [Problem.adjust, if_neg hr]
      obtain ⟨d, hd, hb⟩ := ih (s := s) (fun c => by
        have := h c
        by_cases hc : c = w
        · subst hc
          omega
        · rwa [List.count_cons_of_ne (Ne.symm hc)] at this)
      exact ⟨d, by rw [List.foldlM_cons, hone]; exact hd, hb⟩

end Checked

namespace Problem
variable {p : Problem}

def tokenWeight (p : Problem) (node : Nat) : Nat := ((succ p.tokensByNode node).map p.weight).sum

/-- How far scheduling `node` can move the delta of any node. -/
def cost (p : Problem) (node : Nat) : Nat :=
  2 * (1 + (succ p.valueDependencies node).length + p.tokenWeight node)

def totalCost (p : Problem) : Nat := ((List.range p.dependencies.length).map p.cost).sum

/-- What the checks before `schedule_with_users` establish, and deltas that fit `isize`. -/
structure Valid (p : Problem) : Prop where
  reversed : Reversed p.successors p.dependencies
  valueUsers_length : p.valueUsers.length = p.dependencies.length
  valueUsers_nodup : ∀ v, (succ p.valueUsers v).Nodup
  tokens_length : p.tokensByNode.length = p.dependencies.length
  tokens_nodup : ∀ node, (succ p.tokensByNode node).Nodup
  token_lt : ∀ node, ∀ token ∈ succ p.tokensByNode node, token < p.tokenWeights.length
  tokenUsers_eq : p.tokenUsers = (List.range p.tokenWeights.length).map fun token =>
    (List.range p.dependencies.length).filter fun user => token ∈ succ p.tokensByNode user
  fits : 2 * p.totalCost ≤ isizeMax

theorem cost_le {node : Nat} (hn : node < p.dependencies.length) :
    p.cost node ≤ p.totalCost := by
  have hmem : p.cost node ∈ (List.range p.dependencies.length).map p.cost :=
    List.mem_map.mpr ⟨node, List.mem_range.mpr hn, rfl⟩
  exact List.single_le_sum (fun _ _ => Nat.zero_le _) _ hmem

theorem Valid.tokenUsers_row (h : p.Valid) {token : Nat} (ht : token < p.tokenWeights.length) :
    succ p.tokenUsers token =
      (List.range p.dependencies.length).filter fun user => token ∈ succ p.tokensByNode user := by
  simp [h.tokenUsers_eq, succ, List.getElem?_range ht]

theorem Valid.tokenUsers_nodup (h : p.Valid) (token : Nat) : (succ p.tokenUsers token).Nodup := by
  by_cases ht : token < p.tokenWeights.length
  · rw [h.tokenUsers_row ht]
    exact List.nodup_range.filter _
  · simp [h.tokenUsers_eq, succ, List.getElem?_eq_none (l := List.range p.tokenWeights.length)
      (i := token) (by simpa using ht)]

section Updates
variable {s : Sched} {D : Nat}

theorem updateForValue_ok (hp : p.Valid) (value : Nat) {a : Int}
    (hb : ∀ c, (s.deltas c).natAbs ≤ D) (hD : D + 2 * a.natAbs ≤ isizeMax) :
    ∃ d, p.updateForValue value a s = .ok { s with deltas := d } ∧
      ∀ c, (d c).natAbs ≤ D + 2 * a.natAbs := by
  refine adjust_row (fun c => ?_) hD
  have h₁ : (succ p.valueUsers value).count c ≤ 1 := List.nodup_iff_count_le_one.mp
    (hp.valueUsers_nodup value) c
  have h₂ : [value].count c ≤ 1 := List.nodup_iff_count_le_one.mp (List.nodup_singleton _) c
  have hcount : (succ p.valueUsers value ++ [value]).count c ≤ 2 := by
    rw [List.count_append]
    omega
  have := Nat.mul_le_mul_right a.natAbs hcount
  have := hb c
  omega

theorem updateForToken_ok (hp : p.Valid) (token : Nat) {a : Int}
    (hb : ∀ c, (s.deltas c).natAbs ≤ D) (hD : D + a.natAbs ≤ isizeMax) :
    ∃ d, p.updateForToken token a s = .ok { s with deltas := d } ∧
      ∀ c, (d c).natAbs ≤ D + a.natAbs := by
  refine adjust_row (fun c => ?_) hD
  have hcount := List.nodup_iff_count_le_one.mp (hp.tokenUsers_nodup token) c
  have := Nat.mul_le_mul_right a.natAbs hcount
  have := hb c
  omega

theorem killValue_ok (hp : p.Valid) (selected : Nat) (hb : ∀ c, (s.deltas c).natAbs ≤ D)
    (hD : D + 2 ≤ isizeMax) :
    ∃ l d, p.killValue s selected = .ok { s with live := l, deltas := d } ∧
      ∀ c, (d c).natAbs ≤ D + 2 := by
  unfold killValue
  by_cases hl : s.live selected
  · rw [if_pos hl]
    obtain ⟨d, hd, hb'⟩ := updateForValue_ok hp selected (a := 1)
      (s := { s with live := Function.update s.live selected false }) hb (by simpa using hD)
    exact ⟨_, d, hd, by simpa using hb'⟩
  · rw [if_neg hl]
    exact ⟨s.live, s.deltas, rfl, fun c => Nat.le_trans (hb c) (Nat.le_add_right _ _)⟩

theorem makeLive_row (hp : p.Valid) (row : List Nat) (hb : ∀ c, (s.deltas c).natAbs ≤ D)
    (hD : D + 2 * row.length ≤ isizeMax) :
    ∃ l d, row.foldlM p.makeLive s = .ok { s with live := l, deltas := d } ∧
      ∀ c, (d c).natAbs ≤ D + 2 * row.length := by
  induction row generalizing s D with
  | nil => exact ⟨s.live, s.deltas, rfl, by simpa using hb⟩
  | cons v row ih =>
    rw [List.length_cons] at hD
    have hone : ∃ l d, p.makeLive s v = .ok { s with live := l, deltas := d } ∧
        ∀ c, (d c).natAbs ≤ D + 2 := by
      unfold makeLive
      by_cases hl : s.live v
      · rw [if_pos hl]
        exact ⟨s.live, s.deltas, rfl, fun c => Nat.le_trans (hb c) (Nat.le_add_right _ _)⟩
      · rw [if_neg hl]
        obtain ⟨d, hd, hb'⟩ := updateForValue_ok hp v (a := -1)
          (s := { s with live := Function.update s.live v true }) hb (by simp; omega)
        exact ⟨_, d, hd, by simpa using hb'⟩
    obtain ⟨l₁, d₁, h₁, hb₁⟩ := hone
    obtain ⟨l₂, d₂, h₂, hb₂⟩ := ih (s := { s with live := l₁, deltas := d₁ }) hb₁ (by omega)
    refine ⟨l₂, d₂, by rw [List.foldlM_cons, h₁]; exact h₂, fun c => ?_⟩
    have := hb₂ c
    rw [List.length_cons]
    omega

theorem useToken_ok (hp : p.Valid) (token : Nat) (hpos : s.remainingTokenUsers token ≠ 0)
    (hb : ∀ c, (s.deltas c).natAbs ≤ D) (hD : D + 2 * p.weight token ≤ isizeMax) :
    ∃ l d, p.useToken s token = .ok { s with
        remainingTokenUsers := Function.update s.remainingTokenUsers token
          (s.remainingTokenUsers token - 1), liveTokens := l, deltas := d } ∧
      ∀ c, (d c).natAbs ≤ D + 2 * p.weight token := by
  have hw : checkedIsize (p.weight token : Int) = .ok (p.weight token : Int) :=
    checkedIsize_ok (by omega)
  have hstay : ∀ c, (s.deltas c).natAbs ≤ D + 2 * p.weight token := fun c => by
    have := hb c
    omega
  simp only [useToken, if_neg hpos, hw, bind, Except.bind]
  split
  · split
    · rw [checkedIsize_ok (by omega)]
      simp only
      obtain ⟨d, hd, hb'⟩ := updateForToken_ok hp token (a := (p.weight token : Int) * -2)
        (s := { s with
          remainingTokenUsers := Function.update s.remainingTokenUsers token
            (s.remainingTokenUsers token - 1)
          liveTokens := Function.update s.liveTokens token true }) hb (by omega)
      exact ⟨_, d, hd, fun c => by have := hb' c; omega⟩
    · obtain ⟨d, hd, hb'⟩ := updateForToken_ok hp token (a := -(p.weight token : Int))
        (s := { s with
          remainingTokenUsers := Function.update s.remainingTokenUsers token
            (s.remainingTokenUsers token - 1)
          liveTokens := Function.update s.liveTokens token true }) hb (by omega)
      exact ⟨_, d, hd, fun c => by have := hb' c; omega⟩
  · split
    · obtain ⟨d, hd, hb'⟩ := updateForToken_ok hp token (a := -(p.weight token : Int))
        (s := { s with
          remainingTokenUsers := Function.update s.remainingTokenUsers token
            (s.remainingTokenUsers token - 1) }) hb (by omega)
      exact ⟨_, d, hd, fun c => by have := hb' c; omega⟩
    · split
      · exact ⟨_, s.deltas, rfl, hstay⟩
      · exact ⟨s.liveTokens, s.deltas, rfl, hstay⟩

theorem useToken_row (hp : p.Valid) (row : List Nat)
    (hpos : ∀ t, row.count t ≤ s.remainingTokenUsers t)
    (hb : ∀ c, (s.deltas c).natAbs ≤ D) (hD : D + 2 * (row.map p.weight).sum ≤ isizeMax) :
    ∃ r l d, row.foldlM p.useToken s =
        .ok { s with remainingTokenUsers := r, liveTokens := l, deltas := d } ∧
      (∀ t, r t = s.remainingTokenUsers t - row.count t) ∧
      ∀ c, (d c).natAbs ≤ D + 2 * (row.map p.weight).sum := by
  induction row generalizing s D with
  | nil => exact ⟨s.remainingTokenUsers, s.liveTokens, s.deltas, rfl, by simp, by simpa using hb⟩
  | cons w row ih =>
    rw [List.map_cons, List.sum_cons] at hD
    have hw := hpos w
    rw [List.count_cons_self] at hw
    obtain ⟨l₁, d₁, h₁, hb₁⟩ := useToken_ok hp w (by omega) hb (by omega)
    obtain ⟨r₂, l₂, d₂, h₂, hr₂, hb₂⟩ := ih (D := D + 2 * p.weight w)
      (s := { s with
        remainingTokenUsers := Function.update s.remainingTokenUsers w (s.remainingTokenUsers w - 1)
        liveTokens := l₁, deltas := d₁ })
      (fun t => by
        by_cases ht : t = w
        · subst ht
          simp only [Function.update_self]
          omega
        · have := hpos t
          rw [List.count_cons_of_ne (Ne.symm ht)] at this
          simpa [Function.update_of_ne ht] using this)
      hb₁ (by omega)
    refine ⟨r₂, l₂, d₂, by rw [List.foldlM_cons, h₁]; exact h₂, fun t => ?_, fun c => ?_⟩
    · rw [hr₂ t]
      by_cases ht : t = w
      · subst ht
        simp only [Function.update_self, List.count_cons_self]
        omega
      · simp [Function.update_of_ne ht, List.count_cons_of_ne (Ne.symm ht)]
    · have := hb₂ c
      rw [List.map_cons, List.sum_cons]
      omega

theorem tokenContribution_ok (s : Sched) (token : Nat) (h : p.weight token ≤ isizeMax) :
    ∃ c, p.tokenContribution s token = .ok c ∧ c.natAbs ≤ p.weight token := by
  have hw : checkedIsize (p.weight token : Int) = .ok (p.weight token : Int) :=
    checkedIsize_ok (by omega)
  unfold tokenContribution
  split
  · exact ⟨_, hw, by omega⟩
  · split
    · rw [hw]
      exact ⟨_, rfl, by omega⟩
    · exact ⟨0, rfl, by omega⟩

theorem tokenDelta_ok (s : Sched) (row : List Nat) {x : Int} {M : Nat}
    (h : x.natAbs + (row.map p.weight).sum ≤ M) (hM : M ≤ isizeMax) :
    ∃ y, row.foldlM (fun delta token => do
        let contribution ← p.tokenContribution s token
        checkedIsize (delta + contribution)) x = .ok y ∧ y.natAbs ≤ M := by
  induction row generalizing x with
  | nil => exact ⟨x, rfl, by simpa using h⟩
  | cons t row ih =>
    rw [List.map_cons, List.sum_cons] at h
    obtain ⟨c, hc, hcb⟩ := tokenContribution_ok (p := p) s t (by omega)
    obtain ⟨y, hy, hyb⟩ := ih (x := x + c) (by omega)
    refine ⟨y, ?_, hyb⟩
    rw [List.foldlM_cons, hc]
    simp only [bind, Except.bind] at hy ⊢
    rw [checkedIsize_ok (by omega)]
    exact hy

theorem pressureDelta_ok (s : Sched) {node : Nat} (h : p.cost node ≤ isizeMax) :
    ∃ delta, p.pressureDelta s node = .ok delta ∧ delta.natAbs ≤ p.cost node := by
  have hmissing : ((succ p.valueDependencies node).filter fun d => !s.live d).length ≤
      (succ p.valueDependencies node).length := List.length_filter_le _ _
  have hlive : (s.live node).toNat ≤ 1 := Bool.toNat_le _
  have hcost : p.cost node = 2 * (1 + (succ p.valueDependencies node).length +
      ((succ p.tokensByNode node).map p.weight).sum) := rfl
  obtain ⟨y, hy, hyb⟩ := tokenDelta_ok (p := p) s (succ p.tokensByNode node) (x := 0)
    (M := ((succ p.tokensByNode node).map p.weight).sum) (by simp) (by omega)
  simp only [pressureDelta, bind, Except.bind] at hy ⊢
  rw [checkedIsize_ok (by omega), hy]
  simp only
  rw [checkedIsize_ok (by omega)]
  exact ⟨_, rfl, by omega⟩

theorem insertReady_ok {node : Nat} (hn : node ∉ s.ready) (h : p.cost node ≤ isizeMax) :
    ∃ delta, p.insertReady s node = .ok { s with
        deltas := Function.update s.deltas node delta, ready := s.ready ++ [node] } ∧
      delta.natAbs ≤ p.cost node := by
  obtain ⟨delta, hd, hb⟩ := pressureDelta_ok (p := p) s h
  refine ⟨delta, ?_, hb⟩
  simp only [insertReady, if_neg hn, hd]
  rfl

/-- The dependencies of the selected node are released as the counting library does. -/
theorem releaseDependency_row {row : List Nat} (h : Kahn.Releasable row s.kahn)
    (hcost : ∀ v ∈ row, p.cost v ≤ D) (hb : ∀ c, (s.deltas c).natAbs ≤ D) (hD : D ≤ isizeMax) :
    ∃ s', row.foldlM p.releaseDependency s = .ok s' ∧ s'.kahn = Kahn.release row s.kahn ∧
      s'.remainingTokenUsers = s.remainingTokenUsers ∧ ∀ c, (s'.deltas c).natAbs ≤ D := by
  induction row generalizing s with
  | nil => exact ⟨s, rfl, rfl, rfl, hb⟩
  | cons v row ih =>
    have hpos : s.unscheduledUsers v ≠ 0 := by
      have := h.pos
      simp only [Sched.kahn] at this
      omega
    have hone : ∃ s₁, p.releaseDependency s v = .ok s₁ ∧ s₁.kahn = Kahn.releaseOne s.kahn v ∧
        s₁.remainingTokenUsers = s.remainingTokenUsers ∧ ∀ c, (s₁.deltas c).natAbs ≤ D := by
      by_cases hlast : s.unscheduledUsers v - 1 = 0
      · have hfresh : v ∉ s.ready := fun hm => h.fresh (List.mem_append_right _ hm)
        have hv := hcost v (by simp)
        obtain ⟨delta, hi, hdb⟩ := insertReady_ok (p := p)
          (s := { s with
            unscheduledUsers := Function.update s.unscheduledUsers v (s.unscheduledUsers v - 1) })
          hfresh (by omega)
        have hrel : p.releaseDependency s v = p.insertReady { s with
            unscheduledUsers := Function.update s.unscheduledUsers v (s.unscheduledUsers v - 1) }
            v := by
          simp only [releaseDependency, if_neg hpos, if_pos hlast]
        refine ⟨_, hrel.trans hi, ?_, rfl, fun c => ?_⟩
        · simp only [Sched.kahn, Kahn.releaseOne, hlast, if_true]
        · by_cases hc : c = v
          · subst hc
            simp only [Function.update_self]
            omega
          · simpa [Function.update_of_ne hc] using hb c
      · have hrel : p.releaseDependency s v = .ok { s with
            unscheduledUsers :=
              Function.update s.unscheduledUsers v (s.unscheduledUsers v - 1) } := by
          simp only [releaseDependency, if_neg hpos, if_neg hlast]
        refine ⟨_, hrel, ?_, rfl, hb⟩
        unfold Kahn.releaseOne
        rw [if_neg (show ¬ s.kahn.count v - 1 = 0 from hlast)]
        rfl
    obtain ⟨s₁, h₁, hk₁, hr₁, hb₁⟩ := hone
    obtain ⟨s₂, h₂, hk₂, hr₂, hb₂⟩ := ih (s := s₁) (by rw [hk₁]; exact h.releaseOne)
      (fun w hw => hcost w (by simp [hw])) hb₁
    refine ⟨s₂, by rw [List.foldlM_cons, h₁]; exact h₂, ?_, hr₂.trans hr₁, hb₂⟩
    rw [hk₂, hk₁, Kahn.release_cons]

end Updates

/-- The state of the loop: the queue counts unscheduled users, the tokens their unscheduled
users, and no delta has moved further than the scheduled nodes can move it. -/
structure Inv (p : Problem) (s : Sched) : Prop where
  kahn : Kahn.Inv p.dependencies s.kahn
  tokens : ∀ t < p.tokenWeights.length,
    s.remainingTokenUsers t = Kahn.pendingIn p.tokensByNode s.reverse t
  bound : ∀ c, (s.deltas c).natAbs ≤ p.totalCost + (s.reverse.map p.cost).sum

section Rounds
variable {s : Sched}

/-- A list of different nodes costs at most all nodes together. -/
theorem cost_sum_le {l : List Nat} (hnd : l.Nodup) (hl : ∀ v ∈ l, v < p.dependencies.length) :
    (l.map p.cost).sum ≤ p.totalCost := by
  have hsub : l.Subperm (List.range p.dependencies.length) :=
    hnd.subperm fun v hv => List.mem_range.mpr (hl v hv)
  obtain ⟨l', hperm, hsub'⟩ := hsub
  rw [← (hperm.map p.cost).sum_eq]
  exact (hsub'.map p.cost).sum_le_sum fun _ _ => Nat.zero_le _

theorem select_ok (hp : p.Valid) (h : p.Inv s) {u : Nat} (hu : u ∈ s.ready) :
    ∃ s', p.select s u = .ok s' ∧ p.Inv s' ∧ s'.reverse = s.reverse ++ [u] := by
  have hlt : u < p.dependencies.length := h.kahn.range u (List.mem_append_right _ hu)
  have hd : u ∉ s.reverse := fun hc => (List.nodup_append.mp h.kahn.nodup).2.2 u hc u hu rfl
  have hspent : (s.reverse.map p.cost).sum + p.cost u ≤ p.totalCost := by
    have := cost_sum_le (p := p) (l := s.reverse ++ [u])
      (List.nodup_append.mpr ⟨h.kahn.topo.nodup, by simp, fun a ha b hb => by
        rw [List.mem_singleton] at hb
        subst hb
        exact fun heq => hd (heq ▸ ha)⟩)
      (fun v hv => by
        rcases List.mem_append.mp hv with hv | hv
        · exact h.kahn.range v (List.mem_append_left _ hv)
        · rw [List.mem_singleton] at hv
          exact hv ▸ hlt)
    simpa using this
  have hcost : p.cost u = 2 * (1 + (succ p.valueDependencies u).length +
      ((succ p.tokensByNode u).map p.weight).sum) := rfl
  have hfits := hp.fits
  have hB : p.totalCost + (s.reverse.map p.cost).sum + p.cost u ≤ isizeMax := by omega
  -- the four phases of a round, each within the cost of `u`
  obtain ⟨l₁, d₁, h₁, hb₁⟩ := killValue_ok hp u (D := p.totalCost + (s.reverse.map p.cost).sum)
    (s := { s with ready := s.ready.erase u, reverse := s.reverse ++ [u] }) h.bound (by omega)
  obtain ⟨l₂, d₂, h₂, hb₂⟩ := makeLive_row hp (succ p.valueDependencies u)
    (s := { s with ready := s.ready.erase u, reverse := s.reverse ++ [u], live := l₁, deltas := d₁ })
    hb₁ (by omega)
  obtain ⟨r₃, l₃, d₃, h₃, hr₃, hb₃⟩ := useToken_row hp (succ p.tokensByNode u)
    (s := { s with
      ready := s.ready.erase u, reverse := s.reverse ++ [u], live := l₂, deltas := d₂ })
    (fun t => by
      by_cases ht : t < p.tokenWeights.length
      · rw [show (_ : Nat → Nat) t = _ from h.tokens t ht]
        exact Kahn.count_le_pendingIn (by rw [hp.tokens_length]; exact hlt) hd
      · rw [List.count_eq_zero.mpr fun hm => ht (hp.token_lt u t hm)]
        exact Nat.zero_le _)
    hb₂ (by omega)
  obtain ⟨s₄, h₄, hk₄, hr₄, hb₄⟩ := releaseDependency_row (p := p)
    (D := p.totalCost + (s.reverse.map p.cost).sum + p.cost u)
    (s := { s with
      ready := s.ready.erase u, reverse := s.reverse ++ [u], live := l₂, deltas := d₃
      remainingTokenUsers := r₃, liveTokens := l₃ })
    (h.kahn.releasable hu)
    (fun v hv => by
      have := cost_le (hp.reversed.symm.inRange u v hv)
      omega)
    (fun c => Nat.le_trans (hb₃ c) (by omega))
    hB
  have hrev : s₄.reverse = s.reverse ++ [u] := by
    rw [show s₄.reverse = s₄.kahn.order from rfl, hk₄, Kahn.release_order]
    rfl
  refine ⟨s₄, ?_, ⟨?_, fun t ht => ?_, fun c => ?_⟩, hrev⟩
  · simp only [select, bind, Except.bind]
    rw [h₁]
    simp only
    rw [h₂]
    simp only
    rw [h₃]
    exact h₄
  · rw [hk₄]
    exact h.kahn.take hp.reversed.symm.inRange hu
  · have hlt' : u < p.tokensByNode.length := by
      rw [hp.tokens_length]
      exact hlt
    have hsnoc := Kahn.pendingIn_snoc (v := t) hlt' hd
    have ht' := h.tokens t ht
    rw [hr₄, hrev]
    simp only [hr₃]
    omega
  · have := hb₄ c
    rw [hrev, List.map_append, List.sum_append]
    simpa [Nat.add_assoc] using this

theorem run_ok (hp : p.Valid) (entry exit : Nat → Nat) : ∀ (fuel : Nat) {s : Sched}, p.Inv s →
    p.dependencies.length ≤ fuel + s.reverse.length →
      ∃ s', p.run entry exit fuel s = .ok s' ∧ p.Inv s' ∧ s'.ready = []
  | 0, s, hinv, hfuel =>
    ⟨s, rfl, hinv, hinv.kahn.ready_nil_of_length (by simpa [Sched.kahn] using hfuel)⟩
  | fuel + 1, s, hinv, hfuel => by
    unfold run
    cases hf : first (keyLt entry exit s.deltas) s.ready with
    | none => exact ⟨s, rfl, hinv, first_eq_none.mp hf⟩
    | some u =>
      obtain ⟨s₁, h₁, hinv₁, hrev₁⟩ := select_ok hp hinv (first_mem hf)
      obtain ⟨s₂, h₂, hrest⟩ := run_ok hp entry exit fuel hinv₁ (by
        rw [hrev₁, List.length_append, List.length_singleton]
        omega)
      exact ⟨s₂, by simp only [h₁, h₂], hrest⟩

/-- The nodes without users enter the queue before the loop starts. -/
theorem start_ok (hp : p.Valid) : ∃ s, ((List.range p.dependencies.length).filter fun node =>
      (succ p.successors node).length = 0).foldlM p.insertReady p.start = .ok s ∧ p.Inv s := by
  have hfits := hp.fits
  have hins : ∀ (row : List Nat) (s : Sched), (s.ready ++ row).Nodup →
      (∀ v ∈ row, v < p.dependencies.length) → (∀ c, (s.deltas c).natAbs ≤ p.totalCost) →
      ∃ d, row.foldlM p.insertReady s = .ok { s with deltas := d, ready := s.ready ++ row } ∧
        ∀ c, (d c).natAbs ≤ p.totalCost := by
    intro row
    induction row with
    | nil => exact fun s _ _ hb => ⟨s.deltas, by simp [pure, Except.pure], hb⟩
    | cons v row ih =>
      intro s hnd hlt hb
      have hnv : v ∉ s.ready := fun hm => (List.nodup_append.mp hnd).2.2 v hm v (by simp) rfl
      have hv := cost_le (hlt v (by simp))
      obtain ⟨delta, h₁, hdb⟩ := insertReady_ok (p := p) hnv (by omega)
      obtain ⟨d, h₂, hb₂⟩ := ih
        { s with deltas := Function.update s.deltas v delta, ready := s.ready ++ [v] }
        (by simpa using hnd) (fun w hw => hlt w (by simp [hw]))
        (fun c => by
          by_cases hc : c = v
          · subst hc
            simp only [Function.update_self]
            omega
          · simpa [Function.update_of_ne hc] using hb c)
      refine ⟨d, ?_, hb₂⟩
      rw [List.append_assoc] at h₂
      rw [List.foldlM_cons, h₁]
      exact h₂
  obtain ⟨d, hd, hb⟩ := hins ((List.range p.dependencies.length).filter fun node =>
      (succ p.successors node).length = 0) p.start (by simpa [start] using List.nodup_range.filter _)
    (fun v hv => List.mem_range.mp (List.mem_filter.mp hv).1) (by simp [start])
  refine ⟨_, hd, Kahn.Inv.start (fun v => ?_) ?_ rfl, fun t ht => ?_, by simpa [start] using hb⟩
  · exact (hp.reversed.symm.pendingIn_nil v).symm
  · simp [Sched.kahn, start]
  · have hrow := hp.tokenUsers_row ht
    have hcount : ∀ u, (succ p.tokensByNode u).count t = if t ∈ succ p.tokensByNode u then 1 else 0 :=
      fun u => (hp.tokens_nodup u).count
    have hsum : ∀ l : List Nat, (l.filter fun u => t ∈ succ p.tokensByNode u).length =
        (l.map fun u => if t ∈ succ p.tokensByNode u then 1 else 0).sum := by
      intro l
      induction l with
      | nil => rfl
      | cons u l ih =>
        by_cases hu : t ∈ succ p.tokensByNode u
        · simp [hu, ih, Nat.add_comm]
        · simp [hu, ih]
    simp [Kahn.pendingIn, start, hcount, hsum, hrow, hp.tokens_length]

end Rounds

/-- On a valid acyclic problem the result is a topological order of all nodes. -/
theorem scheduleWithUsers_ok (hp : p.Valid) (hac : Acyclic p.successors) :
    ∃ order, p.scheduleWithUsers = .ok order ∧
      order.Perm (List.range p.dependencies.length) ∧ Topological p.successors order := by
  obtain ⟨topological, entry, ht⟩ := topologicalOrder_ok hp.reversed hac
  obtain ⟨s₀, h₀, hinv₀⟩ := start_ok hp
  obtain ⟨s, hs, hinv, hnil⟩ := run_ok hp entry (exitDepths p.dependencies topological)
    p.dependencies.length hinv₀ (Nat.le_add_right _ _)
  have hperm := hinv.kahn.perm_of_mem (hinv.kahn.complete (hp.reversed.acyclic hac) hnil)
  have hlen : s.reverse.length = p.dependencies.length := by
    simpa [Sched.kahn] using hperm.length_eq
  refine ⟨s.reverse.reverse, ?_, (List.reverse_perm _).trans hperm,
    hp.reversed.topological hinv.kahn.topo⟩
  have hshape : ¬ (p.successors.length ≠ p.dependencies.length ∨
      p.valueUsers.length ≠ p.dependencies.length) := by
    simp [hp.reversed.length, hp.valueUsers_length]
  simp only [scheduleWithUsers, if_neg hshape, ht, bind, Except.bind]
  rw [h₀]
  simp only
  rw [hs]
  simp [hlen]

end Problem

/-! ## The checks pass on canonical rows -/

theorem validateReverseUsers_ok {users dependencies : List (List Nat)}
    (h : Reversed users dependencies) : validateReverseUsers users dependencies = .ok () := by
  have hany : ¬ ((List.range users.length).any fun definition =>
      (succ users definition).any fun user => definition ∉ succ dependencies user) = true := by
    simp only [List.any_eq_true, List.mem_range, decide_eq_true_eq, not_exists, not_and, not_not]
    exact fun u _ v hv => (h.edge u v).mp hv
  have hsum := h.sum_length
  have hlen : ¬ users.length ≠ dependencies.length := by simp [h.length]
  have hcount : ¬ ((List.range users.length).map fun definition =>
      (succ users definition).length).sum ≠
        ((List.range dependencies.length).map fun row => (succ dependencies row).length).sum := by
    simpa using hsum
  rw [validateReverseUsers, if_neg hlen, if_neg hany, if_neg hcount]

end Celox.Analysis.DagSchedule
