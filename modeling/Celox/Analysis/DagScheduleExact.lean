import Celox.Analysis.DagPressure
import Celox.Data.ExceptList

/-! # What the tables of the loop record

Every table is a function of the nodes selected so far, and so is the delta of each ready node.
The loop selects all nodes of an acyclic graph unless a counter overflows. -/
namespace Celox.Analysis.DagSchedule
open Celox.Graph

namespace Problem
variable {p : Problem} {s : Sched}

structure Tracks (p : Problem) (s : Sched) : Prop where
  kahn : Kahn.Inv p.dependencies s.kahn
  remaining : ∀ t, s.remainingTokenUsers t = Kahn.pendingIn p.tokensByNode s.reverse t
  live : ∀ v, s.live v = true ↔
    v ∉ s.reverse ∧ ∃ u ∈ s.reverse, v ∈ succ p.valueDependencies u
  liveTokens : ∀ t, s.liveTokens t = true ↔ (∃ u ∈ s.reverse, t ∈ succ p.tokensByNode u) ∧
    0 < Kahn.pendingIn p.tokensByNode s.reverse t
  cached : p.Cached s

theorem Tracks.lt (h : p.Tracks s) {u : Nat} (hu : u ∈ s.ready) : u < p.dependencies.length :=
  h.kahn.range u (List.mem_append_right _ hu)

theorem Tracks.not_scheduled (h : p.Tracks s) {u : Nat} (hu : u ∈ s.ready) : u ∉ s.reverse :=
  fun hc => (List.nodup_append.mp h.kahn.nodup).2.2 u hc u hu rfl

/-- Only the selected node is left to use a token that has one user left. -/
theorem Tracks.last_user (hp : p.Sound) (h : p.Tracks s) {u v t : Nat} (hu : u ∈ s.ready)
    (ht : t ∈ succ p.tokensByNode u) (hone : s.remainingTokenUsers t = 1)
    (hv : v ∈ s.ready.erase u) : t ∉ succ p.tokensByNode v := by
  intro htv
  have hready := (List.nodup_append.mp h.kahn.nodup).2.1
  obtain ⟨hne, hv⟩ := hready.mem_erase_iff.mp hv
  have hlt : ∀ w ∈ s.ready, w < p.tokensByNode.length := fun w hw => by
    rw [hp.tokens_length]
    exact h.lt hw
  have hsnoc : Kahn.pendingIn p.tokensByNode s.reverse t =
      Kahn.pendingIn p.tokensByNode (s.reverse ++ [u]) t + (succ p.tokensByNode u).count t :=
    Kahn.pendingIn_snoc (hlt u hu) (h.not_scheduled hu)
  have hnot : v ∉ s.reverse ++ [u] := by
    rw [List.mem_append, List.mem_singleton, not_or]
    exact ⟨h.not_scheduled hv, hne⟩
  have hle : (succ p.tokensByNode v).count t ≤ Kahn.pendingIn p.tokensByNode (s.reverse ++ [u]) t :=
    Kahn.count_le_pendingIn (hlt v hv) hnot
  have hcu := List.count_pos_iff.mpr ht
  have hcv := List.count_pos_iff.mpr htv
  rw [h.remaining] at hone
  omega

theorem Tracks.select (hp : p.Sound) (h : p.Tracks s) {u : Nat} (hu : u ∈ s.ready) :
    Within (fun s' => p.Tracks s' ∧ s'.reverse = s.reverse ++ [u]) (p.select s u) := by
  have hlt := h.lt hu
  have hd := h.not_scheduled hu
  have hready := (List.nodup_append.mp h.kahn.nodup).2.1
  have htlt : u < p.tokensByNode.length := by rwa [hp.tokens_length]
  -- the edges of a selected node lead to nodes that are neither scheduled nor ready
  have hnew : ∀ v ∈ succ p.valueDependencies u, v ∉ s.reverse ++ [u] := by
    intro v hv hmem
    refine h.kahn.not_edge hu ?_ (hp.values_sub u v hv)
    rcases List.mem_append.mp hmem with hmem | hmem
    · exact List.mem_append_left _ hmem
    · rw [List.mem_singleton.mp hmem]
      exact List.mem_append_right _ hu
  have htaken : p.Cached { s with ready := s.ready.erase u, reverse := s.reverse ++ [u] } :=
    fun v hv => h.cached v (List.mem_of_mem_erase hv)
  unfold Problem.select
  refine (htaken.killValue hp u).bind ?_
  rintro _ ⟨d₁, rfl, h₁⟩
  refine (h₁.makeLive_row hp (succ p.valueDependencies u)).bind ?_
  rintro _ ⟨d₂, rfl, h₂⟩
  refine (h₂.useToken_row hp (hp.tokens_nodup u) fun t ht hone v hv =>
    h.last_user hp hu ht hone hv).bind ?_
  rintro _ ⟨d₃, rfl, h₃⟩
  refine (h₃.release_row (by exact h.kahn.releasable hu)).mono ?_
  rintro _ ⟨⟨users, ready, d₄, rfl⟩, hkahn, h₄⟩
  refine ⟨⟨?_, fun t => ?_, fun v => ?_, fun t => ?_, h₄⟩, rfl⟩
  · rw [hkahn]
    exact h.kahn.take hp.reversed.symm.inRange hu
  · have hsnoc := Kahn.pendingIn_snoc (v := t) htlt hd
    have := h.remaining t
    simp only
    omega
  · simp only [Bool.or_eq_true, decide_eq_true_eq]
    by_cases hv : v ∈ succ p.valueDependencies u
    · simp only [hv, or_true, true_iff]
      exact ⟨hnew v hv, u, by simp, hv⟩
    by_cases hvu : v = u
    · subst hvu
      simp [hv]
    · rw [Function.update_of_ne hvu, h.live]
      simp [hv, hvu]
  · have hsnoc := Kahn.pendingIn_snoc (v := t) htlt hd
    have hbefore := h.remaining t
    have hcount : (succ p.tokensByNode u).count t =
        if t ∈ succ p.tokensByNode u then 1 else 0 := (hp.tokens_nodup u).count
    simp only
    by_cases ht : t ∈ succ p.tokensByNode u
    · rw [if_pos ht] at hcount ⊢
      rw [decide_eq_true_iff]
      constructor
      · intro hmany
        exact ⟨⟨u, by simp, ht⟩, by omega⟩
      · rintro ⟨-, hpos⟩
        omega
    · rw [if_neg ht] at hcount ⊢
      rw [h.liveTokens, hsnoc, hcount, Nat.add_zero]
      simp [ht]

theorem Tracks.run (hp : p.Sound) (entry exit : Nat → Nat) (fuel : Nat) (h : p.Tracks s)
    (hfuel : p.dependencies.length ≤ fuel + s.reverse.length) :
    Within (fun s' => p.Tracks s' ∧ s'.ready = []) (p.run entry exit fuel s) := by
  induction fuel generalizing s with
  | zero => exact ⟨h, h.kahn.ready_nil_of_length (by simpa [Sched.kahn] using hfuel)⟩
  | succ fuel ih =>
    unfold Problem.run
    cases hfirst : first (keyLt entry exit s.deltas) s.ready with
    | none => exact ⟨h, first_eq_none.mp hfirst⟩
    | some u =>
      have hselect := h.select hp (first_mem hfirst)
      dsimp only
      revert hselect
      cases p.select s u with
      | error e => exact id
      | ok s₁ =>
        rintro ⟨h₁, hreverse⟩
        refine ih h₁ ?_
        rw [hreverse, List.length_append, List.length_singleton]
        omega

/-! ## The whole loop -/

theorem Cached.insertReady_row {row : List Nat} (h : p.Cached s) (hnodup : (s.ready ++ row).Nodup) :
    Within (fun s' => (∃ d, s' = { s with deltas := d, ready := s.ready ++ row }) ∧ p.Cached s')
      (row.foldlM p.insertReady s) := by
  induction row generalizing s with
  | nil => exact ⟨⟨s.deltas, by rw [List.append_nil]⟩, h⟩
  | cons node row ih =>
    have hnode : node ∉ s.ready := fun hm =>
      (List.nodup_append.mp hnodup).2.2 node hm node List.mem_cons_self rfl
    rw [List.foldlM_cons]
    refine (h.insertReady hnode).bind ?_
    rintro _ ⟨⟨d, rfl⟩, h₁⟩
    refine (ih h₁ (by simpa using hnodup)).mono ?_
    rintro _ ⟨⟨d', rfl⟩, h₂⟩
    exact ⟨⟨d', by rw [List.append_assoc, List.singleton_append]⟩, h₂⟩

theorem Sound.start (hp : p.Sound) : Within p.Tracks
    (((List.range p.dependencies.length).filter fun node =>
      (succ p.successors node).length = 0).foldlM p.insertReady p.start) := by
  have hempty : p.Cached p.start := fun v hv => absurd hv List.not_mem_nil
  refine (hempty.insertReady_row (by simpa [Problem.start] using List.nodup_range.filter _)).mono ?_
  rintro _ ⟨⟨d, rfl⟩, hcached⟩
  refine ⟨Kahn.Inv.start (fun v => (hp.reversed.symm.pendingIn_nil v).symm) ?_ rfl, fun t => ?_,
    fun v => ?_, fun t => ?_, hcached⟩
  · simp [Sched.kahn, Problem.start]
  · change (succ p.tokenUsers t).length = Kahn.pendingIn p.tokensByNode [] t
    rw [Kahn.pendingIn_start hp.tokens_nodup, hp.tokens_length]
    by_cases ht : t < p.tokenWeights.length
    · simp [hp.tokenUsers_eq, succ, List.getElem?_range ht]
    · have hnone : ((List.range p.dependencies.length).filter fun u =>
          t ∈ succ p.tokensByNode u) = [] :=
        List.filter_eq_nil_iff.mpr fun u _ hmem => ht (hp.token_lt u t (of_decide_eq_true hmem))
      rw [hnone]
      simp [hp.tokenUsers_eq, succ, List.getElem?_eq_none (l := List.range p.tokenWeights.length)
        (i := t) (by simpa using ht)]
  · simp [Problem.start]
  · simp [Problem.start]

/-- The forward order exists on acyclic graphs only. -/
theorem topologicalOrder_cases {successors dependencies : List (List Nat)}
    (hrev : Reversed successors dependencies) :
    (Acyclic successors ∧ ∃ order depth,
        topologicalOrder successors (fun node => (succ dependencies node).length) =
          .ok (order, depth)) ∨
      (¬ Acyclic successors ∧
        topologicalOrder successors (fun node => (succ dependencies node).length) =
          .error .cycle) := by
  by_cases hac : Acyclic successors
  · exact .inl ⟨hac, topologicalOrder_ok hrev hac⟩
  refine .inr ⟨hac, ?_⟩
  obtain ⟨s, hs, hinv, hnil⟩ := Topo.run_spec hrev.inRange successors.length
    (s := ⟨fun node => (succ dependencies node).length,
      (List.range successors.length).filter fun node => (succ dependencies node).length = 0, [],
      fun _ => 1⟩)
    (Kahn.Inv.start (fun v => (hrev.pendingIn_nil v).symm) rfl rfl) (by simp)
  have hshort : s.order.length ≠ successors.length := by
    intro hlen
    have hperm := hinv.perm_of_length hlen
    exact hac (hinv.topo.acyclic hrev.inRange fun v hv =>
      hperm.mem_iff.mpr (List.mem_range.mpr hv))
  simp only [topologicalOrder, hs, hshort, ne_eq, not_false_eq_true, if_true]

/-- A schedule is a topological order of all nodes of an acyclic graph; without one the graph has
a cycle or a counter overflows. -/
theorem scheduleWithUsers_cases (hp : p.Sound) :
    (Acyclic p.successors ∧ ((∃ order, p.scheduleWithUsers = .ok order ∧
        order.Perm (List.range p.dependencies.length) ∧ Topological p.successors order) ∨
      p.scheduleWithUsers = .error .arithmeticOverflow)) ∨
    (¬ Acyclic p.successors ∧ p.scheduleWithUsers = .error .cycle) := by
  have hshape : ¬ (p.successors.length ≠ p.dependencies.length ∨
      p.valueUsers.length ≠ p.dependencies.length) := by
    have hvalues : p.valueUsers.length = p.dependencies.length :=
      hp.valueUsers.length.symm.trans hp.values_length
    simp [hp.reversed.length, hvalues]
  rcases topologicalOrder_cases hp.reversed with ⟨hac, topological, entry, ht⟩ | ⟨hac, hcycle⟩
  case inr =>
    refine .inr ⟨hac, ?_⟩
    rw [scheduleWithUsers, if_neg hshape, hcycle]
    rfl
  refine .inl ⟨hac, ?_⟩
  have hrun : Within (fun s' => p.Tracks s' ∧ s'.ready = [])
      ((((List.range p.dependencies.length).filter fun node =>
        (succ p.successors node).length = 0).foldlM p.insertReady p.start) >>=
          p.run entry (exitDepths p.dependencies topological) p.dependencies.length) :=
    hp.start.bind fun s hs => hs.run hp entry _ _ (Nat.le_add_right _ _)
  have heq : p.scheduleWithUsers = ((((List.range p.dependencies.length).filter fun node =>
        (succ p.successors node).length = 0).foldlM p.insertReady p.start) >>=
          p.run entry (exitDepths p.dependencies topological) p.dependencies.length) >>= fun s =>
        if s.reverse.length ≠ p.dependencies.length then .error .cycle
        else .ok s.reverse.reverse := by
    rw [scheduleWithUsers, if_neg hshape, ht, bind_assoc]
    rfl
  rw [heq]
  revert hrun
  generalize (List.foldlM p.insertReady p.start _ >>= _) = x
  cases x with
  | error e =>
    intro he
    exact .inr (congrArg Except.error he)
  | ok s =>
    rintro ⟨hs, hnil⟩
    have hperm := hs.kahn.perm_of_mem (hs.kahn.complete (hp.reversed.acyclic hac) hnil)
    have hlen : s.reverse.length = p.dependencies.length := by
      simpa [Sched.kahn] using hperm.length_eq
    refine .inl ⟨s.reverse.reverse, ?_, (List.reverse_perm _).trans hperm,
      hp.reversed.topological hs.kahn.topo⟩
    simp only [bind, Except.bind, hlen, ne_eq, not_true, if_false]

/-! ## Deltas from the selected nodes -/

/-- Whether one of the nodes has the value or token in its row. -/
def hasUser (rows : List (List Nat)) (selected : List Nat) (x : Nat) : Bool :=
  selected.any fun u => x ∈ succ rows u

def usersLeft (rows : List (List Nat)) (selected : List Nat) (x : Nat) : Nat :=
  ((List.range rows.length).filter fun u => u ∉ selected ∧ x ∈ succ rows u).length

/-- A token becomes live with the first of several users and dies with the last one. -/
def tokenTerm (p : Problem) (selected : List Nat) (token : Nat) : Int :=
  if !hasUser p.tokensByNode selected token && 1 < usersLeft p.tokensByNode selected token then
    p.weight token
  else if hasUser p.tokensByNode selected token && usersLeft p.tokensByNode selected token == 1 then
    -p.weight token
  else 0

/-- Values that become live with `node`, less its own value if that is live, and its tokens. -/
def recomputedDelta (p : Problem) (selected : List Nat) (node : Nat) : Int :=
  ((succ p.valueDependencies node).filter fun d => !hasUser p.valueDependencies selected d).length -
    (hasUser p.valueDependencies selected node).toNat +
    ((succ p.tokensByNode node).map (p.tokenTerm selected)).sum

theorem hasUser_iff {rows : List (List Nat)} {selected : List Nat} {x : Nat} :
    hasUser rows selected x = true ↔ ∃ u ∈ selected, x ∈ succ rows u := by
  simp [hasUser]

/-- A value of an unscheduled node is live once it has a user. -/
theorem Tracks.live_eq (h : p.Tracks s) {d : Nat} (hd : d ∉ s.reverse) :
    s.live d = hasUser p.valueDependencies s.reverse d := by
  rw [Bool.eq_iff_iff, h.live, hasUser_iff]
  exact and_iff_right hd

theorem Tracks.pressure_eq (hp : p.Sound) (h : p.Tracks s) {v : Nat} (hv : v ∈ s.ready) :
    p.pressure s v = p.recomputedDelta s.reverse v := by
  have hd := h.not_scheduled hv
  have hmissing : (succ p.valueDependencies v).filter (fun d => !s.live d) =
      (succ p.valueDependencies v).filter
        fun d => !hasUser p.valueDependencies s.reverse d := by
    refine List.filter_congr fun d hdv => ?_
    have hnot : d ∉ s.reverse := fun hmem =>
      h.kahn.not_edge hv (List.mem_append_left _ hmem) (hp.values_sub v d hdv)
    rw [h.live_eq hnot]
  have hleft : ∀ t, s.remainingTokenUsers t = usersLeft p.tokensByNode s.reverse t :=
    fun t => (h.remaining t).trans (Kahn.pendingIn_eq_length hp.tokens_nodup _ _)
  have hterm : (succ p.tokensByNode v).map (p.contribution s) =
      (succ p.tokensByNode v).map (p.tokenTerm s.reverse) := by
    refine List.map_congr_left fun t ht => ?_
    have hpending := Kahn.count_le_pendingIn (v := t)
      (by rw [hp.tokens_length]; exact h.lt hv) hd
    have hcount := List.count_pos_iff.mpr ht
    have hlive : s.liveTokens t = hasUser p.tokensByNode s.reverse t := by
      rw [Bool.eq_iff_iff, h.liveTokens, hasUser_iff]
      exact and_iff_left (by omega)
    unfold contribution tokenTerm
    rw [hlive, hleft]
  unfold pressure recomputedDelta
  rw [hmissing, hterm, h.live_eq hd]

theorem Tracks.ready_iff (h : p.Tracks s) (v : Nat) :
    v ∈ s.ready ↔ v < p.dependencies.length ∧ v ∉ s.reverse ∧
      ∀ u, v ∈ succ p.dependencies u → u ∈ s.reverse := by
  have hzero : ∀ w, s.kahn.count w = 0 ↔ ∀ u, w ∈ succ p.dependencies u → u ∈ s.reverse := by
    intro w
    rw [h.kahn.count, Kahn.pendingIn_eq_zero]
    constructor
    · intro hall u hu
      by_contra hnot
      exact hall u (Edge.lt_length hu) hnot hu
    · exact fun hall u _ hnot hu => hnot (hall u hu)
  constructor
  · intro hv
    exact ⟨h.lt hv, h.not_scheduled hv,
      (hzero v).mp ((h.kahn.zero v (h.lt hv)).mp (List.mem_append_right _ hv))⟩
  · rintro ⟨hlt, hnot, hall⟩
    exact (List.mem_append.mp ((h.kahn.zero v hlt).mpr ((hzero v).mpr hall))).resolve_left hnot

end Problem

/-! ## The queue in every state the loop reaches -/

namespace Queued
variable {p : Problem} {entryDepth exitDepth : Nat → Nat} {q : Queued}

/-- The states before each round. -/
inductive Reached (p : Problem) (entryDepth exitDepth : Nat → Nat) : Queued → Prop
  | start {q : Queued} (h : start p entryDepth exitDepth = .ok q) : Reached p entryDepth exitDepth q
  | select {q q' : Queued} {selected : Nat} (h : Reached p entryDepth exitDepth q)
      (hfirst : q.first = some selected)
      (hselect : select p entryDepth exitDepth q selected = .ok q') :
      Reached p entryDepth exitDepth q'

theorem Simulates.of_ok {x : Except DagScheduleError Queued} {y : Except DagScheduleError Sched}
    (h : Simulates entryDepth exitDepth x y) (hx : x = .ok q) :
    y = .ok q.toSched ∧ q.Exact entryDepth exitDepth := by
  cases h with
  | ok h =>
    obtain rfl := Except.ok.inj hx
    exact ⟨rfl, h⟩
  | error e => cases hx

theorem Reached.tracks (hp : p.Sound) (h : Reached p entryDepth exitDepth q) :
    q.Exact entryDepth exitDepth ∧ p.Tracks q.toSched := by
  induction h with
  | start hstart =>
    obtain ⟨hok, hexact⟩ := (start_simulates p entryDepth exitDepth).of_ok hstart
    have hwithin := hp.start
    rw [hok] at hwithin
    exact ⟨hexact, hwithin⟩
  | @select q q' selected _ hfirst hselect ih =>
    obtain ⟨hok, hexact⟩ := (ih.1.select selected).of_ok hselect
    have hmem := first_mem (ih.1.first_eq ▸ hfirst)
    have hwithin := ih.2.select hp hmem
    rw [hok] at hwithin
    exact ⟨hexact, hwithin.1⟩

/-- The queue holds the ready nodes under their recomputed deltas, and the loop selects the least
of them. -/
theorem Reached.queue (hp : p.Sound) (h : Reached p entryDepth exitDepth q) :
    (∀ v, v ∈ q.ready ↔ v < p.dependencies.length ∧ v ∉ q.reverse ∧
      ∀ u, v ∈ succ p.dependencies u → u ∈ q.reverse) ∧
    (∀ v ∈ q.ready, q.deltas v = p.recomputedDelta q.reverse v) ∧
    (∀ k, k ∈ q.keys ↔ ∃ v ∈ q.ready,
      k = keyOf entryDepth exitDepth (p.recomputedDelta q.reverse v) v) ∧
    ∀ selected, q.first = some selected → selected ∈ q.ready ∧ ∀ v ∈ q.ready,
      keyOf entryDepth exitDepth (p.recomputedDelta q.reverse selected) selected ≤
        keyOf entryDepth exitDepth (p.recomputedDelta q.reverse v) v := by
  obtain ⟨hexact, htracks⟩ := h.tracks hp
  have hdelta : ∀ v ∈ q.ready, q.deltas v = p.recomputedDelta q.reverse v := fun v hv =>
    (htracks.cached v hv).trans (htracks.pressure_eq hp hv)
  refine ⟨htracks.ready_iff, hdelta, fun k => ?_, fun selected hfirst => ?_⟩
  · rw [hexact.keys]
    exact exists_congr fun v => and_congr_right fun hv => by rw [hdelta v hv]
  · rw [hexact.first_eq] at hfirst
    have hmem := first_mem hfirst
    refine ⟨hmem, fun v hv => ?_⟩
    have hle := first_le keyLt_iff hfirst v hv
    rwa [hdelta v hv, hdelta selected hmem] at hle

end Queued

/-! ## Rows that list the same nodes have the same schedule

The order inside a row decides the order of the updates only: depths, ready nodes and deltas come
out the same, and with them the node that is selected next. -/

/-! ## Depths -/

section Depths
variable {successors successors' dependencies dependencies' : List (List Nat)}

theorem Topo.release_row_eq {row : List Nat} (hnodup : row.Nodup) (depth : Nat) {s : Topo}
    (hpos : ∀ v ∈ row, s.indegree v ≠ 0) :
    row.foldlM (Topo.release depth) s = .ok
      { s with
        entryDepth := fun v => if v ∈ row then max (s.entryDepth v) depth else s.entryDepth v
        indegree := fun v => s.indegree v - row.count v
        ready := s.ready ++ row.filter fun v => s.indegree v - 1 = 0 } := by
  induction row generalizing s with
  | nil => simp [pure, Except.pure]
  | cons w row ih =>
    obtain ⟨hfresh, hrest⟩ := List.nodup_cons.mp hnodup
    have hother : ∀ v ∈ row, v ≠ w := by
      rintro v hv rfl
      exact hfresh hv
    have hstep : Topo.release depth s w = .ok
        { s with
          entryDepth := Function.update s.entryDepth w (max (s.entryDepth w) depth)
          indegree := Function.update s.indegree w (s.indegree w - 1)
          ready := if s.indegree w - 1 = 0 then s.ready ++ [w] else s.ready } :=
      if_neg (hpos w List.mem_cons_self)
    rw [List.foldlM_cons, hstep]
    refine (ih hrest fun v hv => ?_).trans ?_
    · dsimp only
      rw [Function.update_of_ne (hother v hv)]
      exact hpos v (List.mem_cons_of_mem _ hv)
    have hdepth : (fun v => if v ∈ row then
          max (Function.update s.entryDepth w (max (s.entryDepth w) depth) v) depth
        else Function.update s.entryDepth w (max (s.entryDepth w) depth) v) =
        fun v => if v ∈ w :: row then max (s.entryDepth v) depth else s.entryDepth v := by
      funext v
      by_cases hv : v = w
      · subst hv
        simp [hfresh]
      · simp [hv]
    have hdegree : (fun v => Function.update s.indegree w (s.indegree w - 1) v - row.count v) =
        fun v => s.indegree v - (w :: row).count v := by
      funext v
      by_cases hv : v = w
      · subst hv
        simp [List.count_eq_zero.mpr hfresh]
      · simp [Function.update_of_ne hv, List.count_cons_of_ne (Ne.symm hv)]
    have hready : (if s.indegree w - 1 = 0 then s.ready ++ [w] else s.ready) ++
          row.filter (fun v => Function.update s.indegree w (s.indegree w - 1) v - 1 = 0) =
        s.ready ++ (w :: row).filter fun v => s.indegree v - 1 = 0 := by
      have hfilter : row.filter (fun v => Function.update s.indegree w (s.indegree w - 1) v - 1 = 0)
          = row.filter fun v => s.indegree v - 1 = 0 :=
        List.filter_congr fun v hv => by rw [Function.update_of_ne (hother v hv)]
      rw [hfilter, List.filter_cons]
      by_cases hzero : s.indegree w - 1 = 0 <;> simp [hzero]
    exact congrArg Except.ok (by rw [← hdepth, ← hdegree, ← hready])

/-- The same but for the order of the ready nodes. -/
structure Topo.Alike (s s' : Topo) : Prop where
  indegree : s'.indegree = s.indegree
  ready : s'.ready.Perm s.ready
  order : s'.order = s.order
  entryDepth : s'.entryDepth = s.entryDepth

theorem min?_perm {l l' : List Nat} (h : l'.Perm l) : l'.min? = l.min? := by
  cases hl : l.min? with
  | none =>
    rw [List.min?_eq_none_iff] at hl ⊢
    exact List.perm_nil.mp (hl ▸ h)
  | some a =>
    rw [List.min?_eq_some_iff] at hl ⊢
    exact ⟨h.mem_iff.mpr hl.1, fun b hb => hl.2 b (h.mem_iff.mp hb)⟩

theorem Topo.run_alike (hrows : ∀ u, (succ successors' u).Perm (succ successors u))
    (hnodup : ∀ u, (succ successors u).Nodup) (hadj : InRange successors) (fuel : Nat) {s s' t t' : Topo}
    (h : s.Alike s') (hinv : Kahn.Inv successors s.kahn)
    (ht : Topo.run successors fuel s = .ok t) (ht' : Topo.run successors' fuel s' = .ok t') :
    t.Alike t' := by
  induction fuel generalizing s s' with
  | zero =>
    cases ht
    cases ht'
    exact h
  | succ fuel ih =>
    unfold Topo.run at ht ht'
    rw [min?_perm h.ready] at ht'
    cases hmin : s.ready.min? with
    | none =>
      rw [hmin] at ht ht'
      cases ht
      cases ht'
      exact h
    | some node =>
      rw [hmin] at ht ht'
      have hmem : node ∈ s.kahn.ready := List.min?_mem hmin
      have hrel := hinv.releasable hmem
      have hpos : ∀ v ∈ succ successors node, s.indegree v ≠ 0 := by
        intro v hv
        have hcount := hrel.count v
        have := List.count_pos_iff.mpr hv
        simp only [Topo.kahn] at hcount
        omega
      have hpos' : ∀ v ∈ succ successors' node, s'.indegree v ≠ 0 := fun v hv => by
        rw [h.indegree]
        exact hpos v ((hrows node).mem_iff.mp hv)
      have hone := Topo.release_row_eq (hnodup node) (s.entryDepth node + 1)
        (s := { s with ready := s.ready.erase node, order := s.order ++ [node] }) hpos
      have hone' := Topo.release_row_eq ((hrows node).nodup_iff.mpr (hnodup node))
        (s'.entryDepth node + 1)
        (s := { s' with ready := s'.ready.erase node, order := s'.order ++ [node] }) hpos'
      obtain ⟨s₁, h₁, hk₁⟩ := Topo.release_row (s.entryDepth node + 1)
        (s := { s with ready := s.ready.erase node, order := s.order ++ [node] }) hrel
      have hs₁ := Except.ok.inj (h₁.symm.trans hone)
      have hinv₁ : Kahn.Inv successors s₁.kahn := by
        rw [hk₁]
        exact hinv.take hadj hmem
      dsimp only at ht ht' hone hone'
      rw [hone] at ht
      rw [hone'] at ht'
      refine ih ?_ (hs₁ ▸ hinv₁) ht ht'
      refine ⟨?_, ?_, by rw [h.order], ?_⟩
      · funext v
        dsimp only
        rw [h.indegree, (hrows node).count_eq]
      · dsimp only
        rw [h.indegree]
        exact (h.ready.erase node).append ((hrows node).filter _)
      · funext v
        dsimp only
        rw [h.entryDepth]
        exact if_congr (hrows node).mem_iff rfl rfl

theorem topologicalOrder_alike (hrows : ∀ u, (succ successors' u).Perm (succ successors u))
    (hrev : Reversed successors dependencies) (hrev' : Reversed successors' dependencies')
    (hlength : successors'.length = successors.length)
    (hdegree : ∀ v, (succ dependencies' v).length = (succ dependencies v).length)
    {order order' : List Nat} {depth depth' : Nat → Nat}
    (h : topologicalOrder successors (fun node => (succ dependencies node).length) =
      .ok (order, depth))
    (h' : topologicalOrder successors' (fun node => (succ dependencies' node).length) =
      .ok (order', depth')) : order' = order ∧ depth' = depth := by
  have hinv : ∀ {adj rev : List (List Nat)}, Reversed adj rev → Kahn.Inv adj (Topo.kahn
      ⟨fun node => (succ rev node).length,
        (List.range adj.length).filter fun node => (succ rev node).length = 0, [], fun _ => 1⟩) :=
    fun hrev => Kahn.Inv.start (fun v => (hrev.pendingIn_nil v).symm) rfl rfl
  obtain ⟨t, ht, -⟩ := Topo.run_spec hrev.inRange successors.length (hinv hrev) (by simp)
  obtain ⟨t', ht', -⟩ := Topo.run_spec hrev'.inRange successors'.length (hinv hrev') (by simp)
  have halike : t.Alike t' := by
    rw [hlength] at ht'
    refine Topo.run_alike hrows hrev.nodup hrev.inRange successors.length ?_ (hinv hrev) ht ht'
    refine ⟨funext hdegree, ?_, rfl, rfl⟩
    simp only [hdegree]
    rfl
  unfold topologicalOrder at h h'
  rw [ht] at h
  rw [ht'] at h'
  dsimp only at h h'
  split at h
  · cases h
  split at h'
  · cases h'
  obtain ⟨rfl, rfl⟩ := Prod.mk.inj (Except.ok.inj h)
  obtain ⟨rfl, rfl⟩ := Prod.mk.inj (Except.ok.inj h')
  exact ⟨halike.order, halike.entryDepth⟩

theorem exitRow_eq (row : List Nat) (m : Nat) (depth : Nat → Nat) :
    row.foldl (fun depth dependency =>
      Function.update depth dependency (max (depth dependency) m)) depth =
      fun v => if v ∈ row then max (depth v) m else depth v := by
  induction row generalizing depth with
  | nil => simp
  | cons w row ih =>
    rw [List.foldl_cons, ih]
    funext v
    by_cases hv : v = w
    · subst hv
      simp
    · simp [hv]

theorem exitDepths_alike (hrows : ∀ u, (succ dependencies' u).Perm (succ dependencies u))
    (topological : List Nat) :
    exitDepths dependencies' topological = exitDepths dependencies topological := by
  unfold exitDepths
  congr 1
  funext depth node
  dsimp only
  rw [exitRow_eq, exitRow_eq]
  funext v
  exact if_congr (hrows node).mem_iff rfl rfl

end Depths
/-! ## Rounds -/

namespace Problem
variable {p p' : Problem} {s s' : Sched}

/-- The same relations and tokens, the rows in any order. -/
structure Alike (p p' : Problem) : Prop where
  length : p'.dependencies.length = p.dependencies.length
  dependencies : ∀ u, (succ p'.dependencies u).Perm (succ p.dependencies u)
  values : ∀ u, (succ p'.valueDependencies u).Perm (succ p.valueDependencies u)
  tokens : p'.tokensByNode = p.tokensByNode
  weights : p'.tokenWeights = p.tokenWeights

theorem Alike.successors (h : p.Alike p') (hp : p.Sound) (hp' : p'.Sound) (u : Nat) :
    (succ p'.successors u).Perm (succ p.successors u) := by
  refine (List.perm_ext_iff_of_nodup (hp'.reversed.nodup u) (hp.reversed.nodup u)).mpr fun v => ?_
  rw [hp'.reversed.edge, hp.reversed.edge]
  exact (h.dependencies v).mem_iff

theorem Alike.recomputedDelta (h : p.Alike p') (selected : List Nat) (node : Nat) :
    p'.recomputedDelta selected node = p.recomputedDelta selected node := by
  have husers : hasUser p'.valueDependencies selected = hasUser p.valueDependencies selected := by
    funext x
    rw [Bool.eq_iff_iff, hasUser_iff, hasUser_iff]
    exact exists_congr fun u => and_congr_right fun _ => (h.values u).mem_iff
  have hterm : p'.tokenTerm selected = p.tokenTerm selected := by
    funext token
    unfold tokenTerm weight
    rw [h.tokens, h.weights]
  unfold Problem.recomputedDelta
  rw [husers, hterm, h.tokens, ((h.values node).filter _).length_eq]

/-- Both loops select the same nodes as long as neither overflows. -/
theorem Alike.run (h : p.Alike p') (hp : p.Sound) (hp' : p'.Sound) (entry exit : Nat → Nat)
    (fuel : Nat) {t t' : Sched} (hs : p.Tracks s) (hs' : p'.Tracks s')
    (hreverse : s'.reverse = s.reverse) (ht : p.run entry exit fuel s = .ok t)
    (ht' : p'.run entry exit fuel s' = .ok t') : t'.reverse = t.reverse := by
  induction fuel generalizing s s' with
  | zero =>
    cases ht
    cases ht'
    exact hreverse
  | succ fuel ih =>
    have hready : ∀ v, v ∈ s'.ready ↔ v ∈ s.ready := by
      intro v
      rw [hs'.ready_iff, hs.ready_iff, h.length, hreverse]
      simp only [(h.dependencies _).mem_iff]
    have hdelta : ∀ v ∈ s.ready, s'.deltas v = s.deltas v := by
      intro v hv
      have hv' := (hready v).mpr hv
      rw [hs'.cached v hv', hs'.pressure_eq hp' hv', hs.cached v hv, hs.pressure_eq hp hv,
        hreverse, h.recomputedDelta]
    unfold Problem.run at ht ht'
    cases hfirst : first (keyLt entry exit s.deltas) s.ready with
    | none =>
      have hnil : s'.ready = [] :=
        List.eq_nil_iff_forall_not_mem.mpr fun v hv => by
          rw [hready, first_eq_none.mp hfirst] at hv
          exact List.not_mem_nil hv
      rw [hfirst] at ht
      rw [first_eq_none.mpr hnil] at ht'
      cases ht
      cases ht'
      exact hreverse
    | some u =>
      have hu := first_mem hfirst
      cases hfirst' : first (keyLt entry exit s'.deltas) s'.ready with
      | none =>
        have hu' := (hready u).mpr hu
        rw [first_eq_none.mp hfirst'] at hu'
        cases hu'
      | some u' =>
        have hu' := first_mem hfirst'
        -- both are least among the same nodes
        obtain rfl : u' = u := by
          have hle := first_le Queued.keyLt_iff hfirst u' ((hready u').mp hu')
          have hle' := first_le Queued.keyLt_iff hfirst' u ((hready u).mpr hu)
          rw [hdelta u hu, hdelta u' ((hready u').mp hu')] at hle'
          exact congrArg Key.node (le_antisymm hle' hle)
        rw [hfirst] at ht
        rw [hfirst'] at ht'
        dsimp only at ht ht'
        have hselect := hs.select hp hu
        have hselect' := hs'.select hp' hu'
        cases hone : p.select s u' with
        | error e =>
          rw [hone] at ht
          cases ht
        | ok s₁ =>
          rw [hone] at ht hselect
          cases hone' : p'.select s' u' with
          | error e =>
            rw [hone'] at ht'
            cases ht'
          | ok s₁' =>
            rw [hone'] at ht' hselect'
            exact ih hselect.1 hselect'.1 (by rw [hselect.2, hselect'.2, hreverse]) ht ht'

/-- Schedules of the same relations are the same. -/
theorem Alike.schedule (h : p.Alike p') (hp : p.Sound) (hp' : p'.Sound) {order order' : List Nat}
    (ho : p.scheduleWithUsers = .ok order) (ho' : p'.scheduleWithUsers = .ok order') :
    order' = order := by
  unfold scheduleWithUsers at ho ho'
  split at ho
  · cases ho
  split at ho'
  · cases ho'
  obtain ⟨⟨topological, entry⟩, htopo, ho⟩ := bind_eq_ok.mp ho
  obtain ⟨⟨topological', entry'⟩, htopo', ho'⟩ := bind_eq_ok.mp ho'
  obtain ⟨s, hstart, hloop⟩ := bind_eq_ok.mp ho
  obtain ⟨s', hstart', hloop'⟩ := bind_eq_ok.mp ho'
  obtain ⟨t, hrun, hend⟩ := bind_eq_ok.mp hloop
  obtain ⟨t', hrun', hend'⟩ := bind_eq_ok.mp hloop'
  obtain ⟨rfl, rfl⟩ := topologicalOrder_alike (h.successors hp hp') hp.reversed hp'.reversed
    (by rw [← hp'.reversed.length, ← hp.reversed.length, h.length])
    (fun v => (h.dependencies v).length_eq) htopo htopo'
  rw [exitDepths_alike h.dependencies, h.length] at hrun'
  have htracks : p.Tracks s := by
    have := hp.start
    rwa [hstart] at this
  have htracks' : p'.Tracks s' := by
    have := hp'.start
    rwa [hstart'] at this
  have hempty : ∀ {p : Problem} {s : Sched}, ((List.range p.dependencies.length).filter fun node =>
      (succ p.successors node).length = 0).foldlM p.insertReady p.start = .ok s →
      s.reverse = [] := by
    intro p s hs
    refine foldlM_invariant (P := fun s => s.reverse = []) (fun b node b' _ hb hstep => ?_) rfl hs
    unfold insertReady at hstep
    split at hstep
    · cases hstep
    · obtain ⟨delta, -, hok⟩ := bind_eq_ok.mp hstep
      cases hok
      exact hb
  have hreverse := h.run hp hp' entry' _ _ htracks htracks'
    (by rw [hempty hstart, hempty hstart']) hrun hrun'
  split at hend
  · cases hend
  split at hend'
  · cases hend'
  cases hend
  cases hend'
  rw [hreverse]

end Problem

/-! ## The entry points of the scheduler

One builds the rows of users from its own rows, the other borrows rows of a larger graph and checks
that the borrowed users are the reverse of the borrowed dependencies. Both run the same loop. -/

/-- The common body of `validate_row` and `validate_token_row`. -/
def ascendingRow (invalid duplicate : DagScheduleError) (count : Nat) :
    Option Nat → List Nat → Except DagScheduleError Unit
  | _, [] => .ok ()
  | previous, node :: row =>
    if count ≤ node then .error invalid
    else if previous.any (node ≤ ·) then .error duplicate
    else ascendingRow invalid duplicate count (some node) row

def validateRow (nodeCount : Nat) (row : List Nat) : Except DagScheduleError Unit :=
  ascendingRow .invalidNode .duplicateDependency nodeCount none row

/-- `LocalGraphRows::new`. -/
def localGraphRows (rows : List (List Nat)) : Except DagScheduleError (List (List Nat)) := do
  rows.forM (validateRow rows.length)
  .ok rows

/-- Each user is pushed to the rows of its definitions. -/
def userRows (nodeCount : Nat) (rows : List (List Nat)) : List (List Nat) :=
  (List.range nodeCount).map fun definition =>
    (List.range nodeCount).flatMap fun user =>
      List.replicate ((succ rows user).count definition) user

def ownedProblem (dependencies valueDependencies tokensByNode : List (List Nat))
    (tokenWeights : List Nat) : Except DagScheduleError Problem := do
  let dependencies ← localGraphRows dependencies
  let valueDependencies ← localGraphRows valueDependencies
  let tokenUsers ← validateInputs dependencies valueDependencies tokensByNode tokenWeights
  let successors ← localGraphRows (userRows dependencies.length dependencies)
  let valueUsers ← localGraphRows (userRows dependencies.length valueDependencies)
  .ok { dependencies, valueDependencies, tokensByNode, tokenWeights, tokenUsers, successors,
        valueUsers }

/-- `schedule_min_live_values_and_tokens`. -/
def scheduleOwned (dependencies valueDependencies tokensByNode : List (List Nat))
    (tokenWeights : List Nat) : Except DagScheduleError (List Nat) := do
  let p ← ownedProblem dependencies valueDependencies tokensByNode tokenWeights
  p.schedule

def scheduleMinLiveValues (dependencies valueDependencies : List (List Nat)) :
    Except DagScheduleError (List Nat) :=
  scheduleOwned dependencies valueDependencies (List.replicate dependencies.length []) []

/-- Rows that the constructor accepted. -/
structure MappedGraphRows where
  rowsByExternalNode : List (List Nat)
  externalByLocal : List Nat
  localByExternal : Nat → Option Nat
  externalCount : Nat
  rows : List (List Nat)
  built : mappedGraphRows rowsByExternalNode externalByLocal localByExternal externalCount = .ok rows

structure MappedNodeRows where
  rowsByExternalNode : List (List Nat)
  externalByLocal : List Nat
  rows : List (List Nat)
  built : mappedNodeRows rowsByExternalNode externalByLocal = .ok rows

def mappedProblem (dependencies valueDependencies : MappedGraphRows) (tokensByNode : MappedNodeRows)
    (tokenWeights : List Nat) (successors valueUsers : MappedGraphRows) :
    Except DagScheduleError Problem := do
  let tokenUsers ←
    validateInputs dependencies.rows valueDependencies.rows tokensByNode.rows tokenWeights
  validateReverseUsers successors.rows dependencies.rows
  validateReverseUsers valueUsers.rows valueDependencies.rows
  .ok { dependencies := dependencies.rows, valueDependencies := valueDependencies.rows
        tokensByNode := tokensByNode.rows, tokenWeights, tokenUsers
        successors := successors.rows, valueUsers := valueUsers.rows }

/-- `schedule_min_live_values_and_tokens_with_mapped_rows`. -/
def scheduleMapped (dependencies valueDependencies : MappedGraphRows) (tokensByNode : MappedNodeRows)
    (tokenWeights : List Nat) (successors valueUsers : MappedGraphRows) :
    Except DagScheduleError (List Nat) := do
  let p ← mappedProblem dependencies valueDependencies tokensByNode tokenWeights successors valueUsers
  p.schedule

/-! ## Checks of rows -/

theorem ascendingRow_ok_iff {invalid duplicate : DagScheduleError} {count : Nat}
    {previous : Option Nat} {row : List Nat} :
    ascendingRow invalid duplicate count previous row = .ok () ↔
      row.Pairwise (· < ·) ∧ (∀ v ∈ row, v < count) ∧ ∀ q ∈ previous, ∀ v ∈ row, q < v := by
  induction row generalizing previous with
  | nil => simp [ascendingRow]
  | cons node row ih =>
    unfold ascendingRow
    by_cases hcount : count ≤ node
    · rw [if_pos hcount]
      simp only [reduceCtorEq, false_iff, not_and]
      intro _ hlt
      exact absurd (hlt node List.mem_cons_self) (by omega)
    rw [if_neg hcount]
    have hany : previous.any (node ≤ ·) = true ↔ ∃ q ∈ previous, node ≤ q := by
      cases previous <;> simp
    by_cases hprev : previous.any (node ≤ ·) = true
    · rw [if_pos hprev]
      simp only [reduceCtorEq, false_iff, not_and]
      intro _ _ hq
      obtain ⟨q, hmem, hle⟩ := hany.mp hprev
      have := hq q hmem node List.mem_cons_self
      omega
    rw [if_neg hprev, ih, List.pairwise_cons]
    have hprev' : ∀ q ∈ previous, q < node := fun q hq =>
      Nat.lt_of_not_le fun hle => hprev (hany.mpr ⟨q, hq, hle⟩)
    constructor
    · rintro ⟨hpair, hlt, hfirst⟩
      have hnode := hfirst node rfl
      refine ⟨⟨hnode, hpair⟩, fun v hv => ?_, fun q hq v hv => ?_⟩
      · rcases List.mem_cons.mp hv with rfl | hv
        · omega
        · exact hlt v hv
      · have hqn := hprev' q hq
        rcases List.mem_cons.mp hv with rfl | hv
        · exact hqn
        · exact hqn.trans (hnode v hv)
    · rintro ⟨⟨hnode, hpair⟩, hlt, -⟩
      refine ⟨hpair, fun v hv => hlt v (List.mem_cons_of_mem _ hv), ?_⟩
      rintro q hq v hv
      obtain rfl : node = q := Option.some.inj hq
      exact hnode v hv

theorem validateTokenRow_eq (tokenCount : Nat) (previous : Option Nat) (row : List Nat) :
    validateTokenRow tokenCount previous row =
      ascendingRow .invalidToken .duplicateToken tokenCount previous row := by
  induction row generalizing previous with
  | nil => rfl
  | cons token row ih => rw [validateTokenRow, ascendingRow, ih]

/-- Rows in ascending order, of members below a count. -/
structure Ascending (count : Nat) (rows : List (List Nat)) : Prop where
  pairwise : ∀ u, (succ rows u).Pairwise (· < ·)
  lt : ∀ u, ∀ v ∈ succ rows u, v < count

theorem Ascending.nodup {count : Nat} {rows : List (List Nat)} (h : Ascending count rows) (u : Nat) :
    (succ rows u).Nodup := (h.pairwise u).imp Nat.ne_of_lt

theorem forall_mem_iff_forall_succ {rows : List (List Nat)} {P : List Nat → Prop} (hnil : P []) :
    (∀ row ∈ rows, P row) ↔ ∀ u, P (succ rows u) := by
  constructor
  · intro h u
    unfold succ
    cases hu : rows[u]? with
    | none => exact hnil
    | some row => exact h row (List.mem_of_getElem? hu)
  · intro h row hrow
    obtain ⟨u, hu⟩ := List.getElem?_of_mem hrow
    have := h u
    rwa [succ, hu, Option.getD_some] at this

theorem localGraphRows_ok_iff {rows result : List (List Nat)} :
    localGraphRows rows = .ok result ↔ Ascending rows.length rows ∧ result = rows := by
  have hrow : ∀ row, validateRow rows.length row = .ok () ↔
      row.Pairwise (· < ·) ∧ ∀ v ∈ row, v < rows.length := by
    intro row
    rw [validateRow, ascendingRow_ok_iff]
    simp
  unfold localGraphRows
  rw [bind_eq_ok]
  constructor
  · rintro ⟨_, hall, heq⟩
    have hall := (forall_mem_iff_forall_succ (P := fun row =>
      row.Pairwise (· < ·) ∧ ∀ v ∈ row, v < rows.length) (by simp)).mp
        fun row hmem => (hrow row).mp (forM_eq_ok.mp hall row hmem)
    exact ⟨⟨fun u => (hall u).1, fun u => (hall u).2⟩, (Except.ok.inj heq).symm⟩
  · rintro ⟨h, rfl⟩
    refine ⟨(), forM_eq_ok.mpr fun row hmem => (hrow row).mpr ?_, rfl⟩
    exact (forall_mem_iff_forall_succ (P := fun row =>
      row.Pairwise (· < ·) ∧ ∀ v ∈ row, v < result.length) (by simp)).mpr
        (fun u => ⟨h.pairwise u, h.lt u⟩) row hmem

theorem validateInputs_ok_iff {dependencies valueDependencies tokensByNode tokenUsers : List (List Nat)}
    {tokenWeights : List Nat} :
    validateInputs dependencies valueDependencies tokensByNode tokenWeights = .ok tokenUsers ↔
      valueDependencies.length = dependencies.length ∧
      tokensByNode.length = dependencies.length ∧
      Ascending tokenWeights.length tokensByNode ∧
      (∀ u, ∀ v ∈ succ valueDependencies u, v ∈ succ dependencies u) ∧
      tokenUsers = (List.range tokenWeights.length).map fun token =>
        (List.range dependencies.length).filter fun user => token ∈ succ tokensByNode user := by
  unfold validateInputs
  by_cases hshape : valueDependencies.length ≠ dependencies.length ∨
      tokensByNode.length ≠ dependencies.length
  · rw [if_pos hshape]
    simp only [reduceCtorEq, false_iff]
    rintro ⟨hv, ht, -⟩
    exact hshape.elim (· hv) (· ht)
  rw [if_neg hshape]
  obtain ⟨hv, ht⟩ : valueDependencies.length = dependencies.length ∧
      tokensByNode.length = dependencies.length := by simpa using hshape
  have hone : ∀ user, (do
      validateTokenRow tokenWeights.length none (succ tokensByNode user)
      if (succ valueDependencies user).any fun value => value ∉ succ dependencies user then
        (.error .valueIsNotDependency : Except DagScheduleError Unit)
      else .ok ()) = .ok () ↔
      ((succ tokensByNode user).Pairwise (· < ·) ∧
        ∀ t ∈ succ tokensByNode user, t < tokenWeights.length) ∧
        ∀ v ∈ succ valueDependencies user, v ∈ succ dependencies user := by
    intro user
    rw [bind_eq_ok, validateTokenRow_eq]
    have hrow : ascendingRow .invalidToken .duplicateToken tokenWeights.length none
        (succ tokensByNode user) = .ok () ↔ (succ tokensByNode user).Pairwise (· < ·) ∧
          ∀ t ∈ succ tokensByNode user, t < tokenWeights.length := by
      rw [ascendingRow_ok_iff]
      simp
    rw [← hrow]
    constructor
    · rintro ⟨_, hrow, hany⟩
      refine ⟨hrow, fun v hv => ?_⟩
      by_contra hnot
      rw [if_pos (List.any_eq_true.mpr ⟨v, hv, by simpa using hnot⟩)] at hany
      cases hany
    · rintro ⟨hrow, hsub⟩
      refine ⟨(), hrow, if_neg ?_⟩
      simpa using hsub
  rw [bind_eq_ok]
  constructor
  · rintro ⟨_, hall, heq⟩
    have hall := fun u hu => (hone u).mp (forM_eq_ok.mp hall u (List.mem_range.mpr hu))
    have hempty : ∀ {rows : List (List Nat)} {u : Nat}, rows.length = dependencies.length →
        ¬ u < dependencies.length → succ rows u = [] := by
      intro rows u hlength hu
      rw [succ, List.getElem?_eq_none (by omega)]
      rfl
    refine ⟨hv, ht, ⟨fun u => ?_, fun u => ?_⟩, fun u => ?_, (Except.ok.inj heq).symm⟩
    all_goals by_cases hu : u < dependencies.length
    · exact (hall u hu).1.1
    · simp [hempty ht hu]
    · exact (hall u hu).1.2
    · simp [hempty ht hu]
    · exact (hall u hu).2
    · simp [hempty hv hu]
  · rintro ⟨-, -, hrows, hsub, rfl⟩
    exact ⟨(), forM_eq_ok.mpr fun u _ =>
      (hone u).mpr ⟨⟨hrows.pairwise u, hrows.lt u⟩, hsub u⟩, rfl⟩

/-! ## The rows of users -/

theorem succ_userRows {nodeCount : Nat} {rows : List (List Nat)} {definition : Nat}
    (hlt : definition < nodeCount) : succ (userRows nodeCount rows) definition =
      (List.range nodeCount).flatMap fun user =>
        List.replicate ((succ rows user).count definition) user := by
  simp [succ, userRows, List.getElem?_range hlt]

theorem mem_userRows {rows : List (List Nat)} (h : Ascending rows.length rows) (u v : Nat) :
    v ∈ succ (userRows rows.length rows) u ↔ u ∈ succ rows v := by
  by_cases hu : u < rows.length
  · rw [succ_userRows hu]
    simp only [List.mem_flatMap, List.mem_range, List.mem_replicate]
    constructor
    · rintro ⟨w, -, hcount, rfl⟩
      exact List.count_pos_iff.mp (Nat.pos_of_ne_zero hcount)
    · intro hmem
      exact ⟨v, Edge.lt_length hmem, (List.count_pos_iff.mpr hmem).ne', rfl⟩
  · have hnone : succ (userRows rows.length rows) u = [] := by
      rw [succ, List.getElem?_eq_none (by simpa [userRows] using hu)]
      rfl
    rw [hnone]
    exact iff_of_false List.not_mem_nil fun hmem => hu (h.lt v u hmem)

/-- Users are pushed in their order, each of them once. -/
theorem userRows_ascending {rows : List (List Nat)} (h : Ascending rows.length rows) :
    Ascending rows.length (userRows rows.length rows) := by
  refine ⟨fun u => ?_, fun u v hv => Edge.lt_length ((mem_userRows h u v).mp hv)⟩
  by_cases hu : u < rows.length
  · have hrow : succ (userRows rows.length rows) u =
        (List.range rows.length).filter fun user => u ∈ succ rows user := by
      rw [succ_userRows hu]
      have hfilter : ∀ l : List Nat,
          (l.flatMap fun user => List.replicate ((succ rows user).count u) user) =
            l.filter fun user => u ∈ succ rows user := by
        intro l
        induction l with
        | nil => rfl
        | cons user l ih =>
          rw [List.flatMap_cons, ih, (h.nodup user).count, List.filter_cons]
          by_cases hmem : u ∈ succ rows user <;> simp [hmem]
      exact hfilter _
    rw [hrow]
    exact List.pairwise_lt_range.filter _
  · rw [succ, List.getElem?_eq_none (by simpa [userRows] using hu)]
    exact List.Pairwise.nil

theorem userRows_reversed {rows : List (List Nat)} (h : Ascending rows.length rows) :
    Reversed (userRows rows.length rows) rows where
  length := by simp [userRows]
  edge u v := mem_userRows h u v
  nodup := (userRows_ascending h).nodup
  nodup_rev := h.nodup

/-- Users that are dependencies, as many as those, are all of them. -/
theorem validateReverseUsers_ok_iff {users dependencies : List (List Nat)}
    (hnodup : ∀ u, (succ users u).Nodup) (hnodup' : ∀ u, (succ dependencies u).Nodup) :
    validateReverseUsers users dependencies = .ok () ↔ Reversed users dependencies := by
  refine ⟨fun h => ?_, validateReverseUsers_ok⟩
  unfold validateReverseUsers at h
  split at h
  · cases h
  rename_i hlength
  split at h
  · cases h
  rename_i hany
  split at h
  · cases h
  rename_i hsum
  have hlength := (not_not.mp hlength).symm
  have hsub : ∀ u v, v ∈ succ users u → u ∈ succ dependencies v := by
    simp only [List.any_eq_true, List.mem_range, decide_eq_true_eq, not_exists, not_and,
      not_not] at hany
    exact fun u v hv => hany u (Edge.lt_length hv) v hv
  refine ⟨hlength, fun u v => ⟨hsub u v, fun hu => ?_⟩, hnodup, hnodup'⟩
  have hpairs : ((Reversed.pairs users).map Prod.swap).Subperm (Reversed.pairs dependencies) := by
    refine ((Reversed.nodup_pairs hnodup).map Prod.swap_injective).subperm ?_
    rintro ⟨a, b⟩ hab
    obtain ⟨⟨c, d⟩, hcd, heq⟩ := List.mem_map.mp hab
    simp only [Prod.swap_prod_mk, Prod.mk.injEq] at heq
    obtain ⟨rfl, rfl⟩ := heq
    exact Reversed.mem_pairs.mpr (hsub _ _ (Reversed.mem_pairs.mp hcd))
  have hperm := hpairs.perm_of_length_le (by
    rw [List.length_map, Reversed.length_pairs, Reversed.length_pairs]
    exact (not_not.mp hsum).ge)
  have hmem := hperm.mem_iff.mpr (Reversed.mem_pairs.mpr hu)
  obtain ⟨⟨c, d⟩, hcd, heq⟩ := List.mem_map.mp hmem
  simp only [Prod.swap_prod_mk, Prod.mk.injEq] at heq
  obtain ⟨rfl, rfl⟩ := heq
  exact Reversed.mem_pairs.mp hcd

end Celox.Analysis.DagSchedule
