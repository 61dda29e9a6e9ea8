import Celox.Graph.Reach

/-! # List scheduling by counting unscheduled predecessors

A ready node is one all of whose incoming edges come from scheduled nodes. Which
ready node is taken next is left open: every result below holds for any policy. -/
namespace Celox.Graph

/-- No edge of the graph goes backwards along the list, nor from a node to itself. -/
structure Topological (adj : List (List Nat)) (l : List Nat) : Prop where
  nodup : l.Nodup
  forward : l.Pairwise fun a b => ¬ Edge adj b a
  irrefl : ∀ a ∈ l, ¬ Edge adj a a

/-- Two members of a list without repetition stand in one order or the other. -/
theorem sublist_or_sublist {α : Type} {l : List α} {a b : α} (ha : a ∈ l) (hb : b ∈ l)
    (hne : a ≠ b) : [a, b].Sublist l ∨ [b, a].Sublist l := by
  induction l with
  | nil => cases ha
  | cons x l ih =>
    rcases List.mem_cons.mp ha with rfl | ha'
    · rcases List.mem_cons.mp hb with rfl | hb'
      · exact absurd rfl hne
      · exact .inl ((List.singleton_sublist.mpr hb').cons_cons _)
    · rcases List.mem_cons.mp hb with rfl | hb'
      · exact .inr ((List.singleton_sublist.mpr ha').cons_cons _)
      · exact (ih ha' hb').imp (·.cons _) (·.cons _)

namespace Topological
variable {adj : List (List Nat)} {l : List Nat}

theorem before (h : Topological adj l) {u v : Nat} (he : Edge adj u v) (hu : u ∈ l)
    (hv : v ∈ l) : [u, v].Sublist l := by
  have hne : u ≠ v := by
    rintro rfl
    exact h.irrefl u hu he
  refine (sublist_or_sublist hu hv hne).resolve_right fun hs => ?_
  exact List.pairwise_iff_forall_sublist.mp h.forward hs he

theorem idxOf_lt (h : Topological adj l) {u v : Nat} (he : Edge adj u v) (hu : u ∈ l)
    (hv : v ∈ l) : l.idxOf u < l.idxOf v := by
  obtain ⟨l₁, l₂, rfl, h₁, h₂⟩ := List.append_sublist_iff.mp
    (show ([u] ++ [v]).Sublist l from h.before he hu hv)
  have hu' : u ∈ l₁ := List.singleton_sublist.mp h₁
  have hv' : v ∈ l₂ := List.singleton_sublist.mp h₂
  have hnv : v ∉ l₁ := fun hc => (List.nodup_append.mp h.nodup).2.2 v hc v hv' rfl
  rw [List.idxOf_append_of_mem hu', List.idxOf_append_of_notMem hnv]
  exact Nat.lt_of_lt_of_le (List.idxOf_lt_length_of_mem hu') (Nat.le_add_right _ _)

/-- A graph with a topological list of all its nodes has no cycle. -/
theorem acyclic (h : Topological adj l) (hadj : InRange adj)
    (hall : ∀ v < adj.length, v ∈ l) : Acyclic adj := by
  have hlt : ∀ {u v}, Relation.TransGen (Edge adj) u v → l.idxOf u < l.idxOf v := by
    intro u v ht
    induction ht with
    | single he => exact h.idxOf_lt he (hall _ he.lt_length) (hall _ (hadj _ _ he))
    | tail _ he ih =>
      exact ih.trans (h.idxOf_lt he (hall _ he.lt_length) (hall _ (hadj _ _ he)))
  exact fun u hu => Nat.lt_irrefl _ (hlt hu)

end Topological

/-! ## Counting unscheduled predecessors -/

/-- The least element of a queue, for the order of its keys. -/
def first (lt : Nat → Nat → Bool) : List Nat → Option Nat
  | [] => none
  | node :: rest => some (rest.foldl (fun best node => if lt node best then node else best) node)

theorem first_mem {lt : Nat → Nat → Bool} {l : List Nat} {u : Nat} (h : first lt l = some u) :
    u ∈ l := by
  cases l with
  | nil => simp [first] at h
  | cons x rest =>
    have hfold : ∀ (rest : List Nat) (x : Nat),
        rest.foldl (fun best node => if lt node best then node else best) x ∈ x :: rest := by
      intro rest
      induction rest with
      | nil => simp
      | cons y rest ih =>
        intro x
        rw [List.foldl_cons]
        rcases List.mem_cons.mp (ih (if lt y x then y else x)) with h | h
        · rw [h]
          split <;> simp
        · simp [h]
    rw [first, Option.some.injEq] at h
    exact h ▸ hfold rest x

/-- The first node of an order by keys has the least key. -/
theorem first_le {K : Type} [LinearOrder K] {lt : Nat → Nat → Bool} {key : Nat → K}
    (hlt : ∀ a b, lt a b = true ↔ key a < key b) {l : List Nat} {u : Nat}
    (h : first lt l = some u) : ∀ v ∈ l, key u ≤ key v := by
  cases l with
  | nil => simp [first] at h
  | cons x rest =>
    have hfold : ∀ (rest : List Nat) (x : Nat), ∀ v ∈ x :: rest,
        key (rest.foldl (fun best node => if lt node best then node else best) x) ≤ key v := by
      intro rest
      induction rest with
      | nil => simp
      | cons y rest ih =>
        intro x v hv
        rw [List.foldl_cons]
        have hbest := ih (if lt y x then y else x)
        by_cases hyx : lt y x
        · rw [if_pos hyx] at hbest ⊢
          rcases List.mem_cons.mp hv with rfl | hv
          · exact (hbest y List.mem_cons_self).trans ((hlt y v).mp hyx).le
          · exact hbest v hv
        · rw [if_neg hyx] at hbest ⊢
          rcases List.mem_cons.mp hv with rfl | hv
          · exact hbest v List.mem_cons_self
          rcases List.mem_cons.mp hv with rfl | hv
          · exact (hbest x List.mem_cons_self).trans (not_lt.mp fun hc => hyx ((hlt v x).mpr hc))
          · exact hbest v (List.mem_cons_of_mem _ hv)
    rw [first, Option.some.injEq] at h
    exact h ▸ hfold rest x

@[simp]
theorem first_eq_none {lt : Nat → Nat → Bool} {l : List Nat} : first lt l = none ↔ l = [] := by
  cases l <;> simp [first]

namespace Kahn

structure State where
  count : Nat → Nat
  ready : List Nat
  order : List Nat

/-- Edges into `v` from the nodes that are not in `done`, with multiplicity. -/
def pendingIn (adj : List (List Nat)) (done : List Nat) (v : Nat) : Nat :=
  (((List.range adj.length).filter fun u => u ∉ done).map fun u => (succ adj u).count v).sum

/-- One edge into `v` is accounted for; the last one makes it ready. -/
def releaseOne (s : State) (v : Nat) : State :=
  { s with
    count := Function.update s.count v (s.count v - 1)
    ready := if s.count v - 1 = 0 then s.ready ++ [v] else s.ready }

def release (row : List Nat) (s : State) : State := row.foldl releaseOne s

/-- The state after a ready node is scheduled. -/
def take (adj : List (List Nat)) (u : Nat) (s : State) : State :=
  release (succ adj u) { s with ready := s.ready.erase u, order := s.order ++ [u] }

structure Inv (adj : List (List Nat)) (s : State) : Prop where
  nodup : (s.order ++ s.ready).Nodup
  range : ∀ v ∈ s.order ++ s.ready, v < adj.length
  count : ∀ v, s.count v = pendingIn adj s.order v
  zero : ∀ v < adj.length, (v ∈ s.order ++ s.ready ↔ s.count v = 0)
  topo : Topological adj s.order

/-- Enough incoming edges are left to account for the whole row. -/
structure Releasable (row : List Nat) (s : State) : Prop where
  count : ∀ v, row.count v ≤ s.count v
  zero : ∀ v ∈ s.order ++ s.ready, s.count v = 0
  nodup : (s.order ++ s.ready).Nodup

section Release
variable {row : List Nat} {s : State} {v w : Nat}

@[simp]
theorem release_nil : release [] s = s := rfl

@[simp]
theorem release_cons : release (w :: row) s = release row (releaseOne s w) := rfl

theorem release_order : (release row s).order = s.order := by
  induction row generalizing s with
  | nil => rfl
  | cons v row ih => exact ih

theorem Releasable.pos (h : Releasable (w :: row) s) : 1 + row.count w ≤ s.count w := by
  have := h.count w
  rw [List.count_cons_self] at this
  omega

theorem Releasable.fresh (h : Releasable (w :: row) s) : w ∉ s.order ++ s.ready := by
  intro hm
  have := h.zero w hm
  have := h.pos
  omega

theorem Releasable.releaseOne (h : Releasable (w :: row) s) :
    Releasable row (releaseOne s w) := by
  have hpos := h.pos
  have hfresh := h.fresh
  refine ⟨fun v => ?_, fun v hv => ?_, ?_⟩
  · by_cases hv : v = w
    · subst hv
      simp only [Kahn.releaseOne, Function.update_self]
      omega
    · have := h.count v
      rw [List.count_cons_of_ne (Ne.symm hv)] at this
      simpa [Kahn.releaseOne, Function.update_of_ne hv] using this
  · by_cases hvw : v = w
    · subst hvw
      simp only [Kahn.releaseOne, Function.update_self] at hv ⊢
      split at hv
      · assumption
      · exact absurd hv hfresh
    · have hm : v ∈ s.order ++ s.ready := by
        simp only [Kahn.releaseOne] at hv
        split at hv
        · simpa [hvw] using hv
        · exact hv
      simpa [Kahn.releaseOne, Function.update_of_ne hvw] using h.zero v hm
  · simp only [Kahn.releaseOne]
    split
    · rw [← List.append_assoc]
      refine List.nodup_append.mpr ⟨h.nodup, by simp, fun a ha b hb => ?_⟩
      rw [List.mem_singleton] at hb
      subst hb
      exact fun heq => hfresh (heq ▸ ha)
    · exact h.nodup

/-- What is left of each count, and which nodes have become ready. -/
theorem release_spec (h : Releasable row s) :
    (∀ v, (release row s).count v = s.count v - row.count v) ∧
      (s.order ++ (release row s).ready).Nodup ∧
      ∀ v, v ∈ (release row s).ready ↔ v ∈ s.ready ∨ (v ∈ row ∧ s.count v = row.count v) := by
  induction row generalizing s with
  | nil => simpa using h.nodup
  | cons w row ih =>
    have hpos := h.pos
    have hfresh := h.fresh
    obtain ⟨h₁, h₂, h₃⟩ := ih h.releaseOne
    refine ⟨fun v => ?_, h₂, fun v => ?_⟩
    · rw [release_cons, h₁]
      by_cases hv : v = w
      · subst hv
        simp only [releaseOne, Function.update_self, List.count_cons_self]
        omega
      · simp [releaseOne, Function.update_of_ne hv, List.count_cons_of_ne (Ne.symm hv)]
    · rw [release_cons, h₃]
      by_cases hv : v = w
      · subst hv
        have hnr : v ∉ s.ready := fun hm => hfresh (List.mem_append_right _ hm)
        have hzero : row.count v = 0 ↔ v ∉ row := List.count_eq_zero
        simp only [releaseOne, Function.update_self, List.count_cons_self, List.mem_cons,
          true_or, true_and]
        by_cases hlast : s.count v - 1 = 0
        · simp only [hlast, if_true, List.mem_append, List.mem_singleton, or_true, true_or, true_iff]
          omega
        · rw [if_neg hlast]
          constructor
          · rintro (hr | ⟨_, he⟩)
            · exact absurd hr hnr
            · omega
          · rintro (hr | he)
            · exact absurd hr hnr
            · refine .inr ⟨?_, by omega⟩
              by_contra hn
              have := hzero.mpr hn
              omega
      · have hmem : v ∈ (releaseOne s w).ready ↔ v ∈ s.ready := by
          simp only [releaseOne]
          split
          · simp [hv]
          · rfl
        rw [hmem]
        simp [releaseOne, List.count_cons_of_ne (Ne.symm hv), hv]

end Release

section Pending
variable {adj : List (List Nat)} {done : List Nat} {u v : Nat}

theorem pendingIn_eq_zero :
    pendingIn adj done v = 0 ↔ ∀ u < adj.length, u ∉ done → ¬ Edge adj u v := by
  unfold pendingIn
  rw [List.sum_eq_zero_iff_forall_eq_nat]
  simp only [List.mem_map, List.mem_filter, List.mem_range, decide_eq_true_eq]
  constructor
  · intro h u hu hd he
    have := h _ ⟨u, ⟨hu, hd⟩, rfl⟩
    exact List.count_eq_zero.mp this he
  · rintro h _ ⟨u, ⟨hu, hd⟩, rfl⟩
    exact List.count_eq_zero.mpr (h u hu hd)

/-- With one edge between two nodes at most, the nodes that are left are counted. -/
theorem pendingIn_eq_length (hnd : ∀ u, (succ adj u).Nodup) (done : List Nat) (v : Nat) :
    pendingIn adj done v =
      ((List.range adj.length).filter fun u => u ∉ done ∧ v ∈ succ adj u).length := by
  have hsum : ∀ l : List Nat, (l.map fun u => (succ adj u).count v).sum =
      (l.filter fun u => v ∈ succ adj u).length := by
    intro l
    induction l with
    | nil => rfl
    | cons u l ih =>
      rw [List.map_cons, List.sum_cons, ih, (hnd u).count]
      by_cases hv : v ∈ succ adj u
      · simp [hv, Nat.add_comm]
      · simp [hv]
  rw [pendingIn, hsum, List.filter_filter]
  congr 2
  funext u
  rw [Bool.eq_iff_iff, Bool.and_eq_true]
  simp only [decide_eq_true_eq]
  exact and_comm

/-- Before anything is scheduled, the edges into a node are counted. -/
theorem pendingIn_start (hnd : ∀ u, (succ adj u).Nodup) (v : Nat) :
    pendingIn adj [] v = ((List.range adj.length).filter fun u => v ∈ succ adj u).length := by
  simp [pendingIn_eq_length hnd]

/-- Scheduling `u` accounts for its row. -/
theorem pendingIn_snoc (hu : u < adj.length) (hd : u ∉ done) :
    pendingIn adj done v = pendingIn adj (done ++ [u]) v + (succ adj u).count v := by
  unfold pendingIn
  have hsplit : ((List.range adj.length).filter fun w => w ∉ done).Perm
      (u :: (List.range adj.length).filter fun w => w ∉ done ++ [u]) := by
    refine (List.perm_ext_iff_of_nodup (List.nodup_range.filter _) ?_).mpr fun w => ?_
    · exact List.nodup_cons.mpr ⟨by simp, List.nodup_range.filter _⟩
    · simp only [List.mem_filter, List.mem_range, decide_eq_true_eq, List.mem_cons,
        List.mem_append, not_or]
      constructor
      · rintro ⟨hw, hwd⟩
        by_cases hwu : w = u
        · exact .inl hwu
        · exact .inr ⟨hw, hwd, by simpa using hwu⟩
      · rintro (rfl | ⟨hw, hwd, _⟩)
        · exact ⟨hu, hd⟩
        · exact ⟨hw, hwd⟩
  rw [(hsplit.map _).sum_eq]
  simp [Nat.add_comm]

theorem count_le_pendingIn (hu : u < adj.length) (hd : u ∉ done) :
    (succ adj u).count v ≤ pendingIn adj done v := by
  rw [pendingIn_snoc hu hd]
  omega

theorem Inv.start {s : State} (hadj : ∀ v, s.count v = pendingIn adj [] v)
    (hready : s.ready = (List.range adj.length).filter fun v => s.count v = 0)
    (horder : s.order = []) : Inv adj s := by
  refine ⟨?_, ?_, ?_, ?_, ?_⟩
  · rw [horder, hready]
    exact List.nodup_range.filter _
  · intro v hv
    rw [horder, hready, List.nil_append, List.mem_filter, List.mem_range] at hv
    exact hv.1
  · intro v
    rw [horder, hadj v]
  · intro v hv
    simp [horder, hready, hv]
  · rw [horder]
    exact ⟨List.nodup_nil, .nil, by simp⟩

end Pending

section Steps
variable {adj : List (List Nat)} {s : State} {u : Nat}

theorem Inv.not_edge (h : Inv adj s) (hu : u ∈ s.ready) {a : Nat}
    (ha : a ∈ s.order ++ s.ready) : ¬ Edge adj u a := by
  have hlt := h.range u (List.mem_append_right _ hu)
  have hd : u ∉ s.order := fun hc => (List.nodup_append.mp h.nodup).2.2 u hc u hu rfl
  have hz := (h.zero a (h.range a ha)).mp ha
  rw [h.count, pendingIn_eq_zero] at hz
  exact hz u hlt hd

theorem erase_perm (hu : u ∈ s.ready) :
    (s.order ++ [u] ++ s.ready.erase u).Perm (s.order ++ s.ready) := by
  rw [List.append_assoc]
  exact (List.perm_cons_erase hu).symm.append_left _

/-- The row of a ready node can be accounted for. -/
theorem Inv.releasable (h : Inv adj s) (hu : u ∈ s.ready) :
    Releasable (succ adj u) { s with ready := s.ready.erase u, order := s.order ++ [u] } := by
  have hlt := h.range u (List.mem_append_right _ hu)
  have hd : u ∉ s.order := fun hc => (List.nodup_append.mp h.nodup).2.2 u hc u hu rfl
  have hperm := erase_perm hu
  refine ⟨fun v => ?_, fun v hv => ?_, hperm.nodup_iff.mpr h.nodup⟩
  · simpa [h.count v] using count_le_pendingIn hlt hd
  · have hm := hperm.mem_iff.mp hv
    exact (h.zero v (h.range v hm)).mp hm

/-- Taking any ready node keeps the invariant. -/
theorem Inv.take (h : Inv adj s) (hadj : InRange adj) (hu : u ∈ s.ready) :
    Inv adj (take adj u s) := by
  have hlt := h.range u (List.mem_append_right _ hu)
  have hd : u ∉ s.order := fun hc => (List.nodup_append.mp h.nodup).2.2 u hc u hu rfl
  have hperm := erase_perm hu
  have hmem : ∀ v, v ∈ s.order ++ [u] ++ s.ready.erase u ↔ v ∈ s.order ++ s.ready :=
    fun v => hperm.mem_iff
  obtain ⟨hcount, hnodup, hready⟩ := release_spec (h.releasable hu)
  have horder : (Kahn.take adj u s).order = s.order ++ [u] := release_order
  replace hcount : ∀ v, (Kahn.take adj u s).count v = s.count v - (succ adj u).count v := hcount
  replace hready : ∀ v, v ∈ (Kahn.take adj u s).ready ↔
      v ∈ s.ready.erase u ∨ v ∈ succ adj u ∧ s.count v = (succ adj u).count v := hready
  have hcount' : ∀ v, (Kahn.take adj u s).count v = pendingIn adj (s.order ++ [u]) v := by
    intro v
    have := pendingIn_snoc (v := v) hlt hd
    rw [hcount v, h.count v]
    omega
  refine ⟨?_, ?_, ?_, ?_, ?_⟩
  · rw [horder]
    exact hnodup
  · intro v hv
    rw [horder] at hv
    rcases List.mem_append.mp hv with ho | hr
    · exact h.range v ((hmem v).mp (List.mem_append_left _ ho))
    · rcases (hready v).mp hr with hr | ⟨hrow, _⟩
      · exact h.range v ((hmem v).mp (List.mem_append_right _ hr))
      · exact hadj u v hrow
  · intro v
    rw [horder]
    exact hcount' v
  · intro v hv
    rw [horder, hcount v, List.mem_append, hready v]
    have hzero := h.zero v hv
    rw [← hmem v, List.mem_append] at hzero
    have hle : (succ adj u).count v ≤ s.count v := by
      rw [h.count v]
      exact count_le_pendingIn hlt hd
    have hcz : (succ adj u).count v = 0 ↔ v ∉ succ adj u := List.count_eq_zero
    constructor
    · rintro (ho | hr | ⟨_, he⟩)
      · have := hzero.mp (.inl ho)
        omega
      · have := hzero.mp (.inr hr)
        omega
      · omega
    · intro hz
      by_cases hrow : v ∈ succ adj u
      · exact .inr (.inr ⟨hrow, by omega⟩)
      · have := hcz.mpr hrow
        exact (hzero.mpr (by omega)).elim .inl fun hr => .inr (.inl hr)
  · rw [horder]
    refine ⟨?_, ?_, ?_⟩
    · exact (List.nodup_append.mp (hperm.nodup_iff.mpr h.nodup)).1
    · refine List.pairwise_append.mpr ⟨h.topo.forward, by simp, fun a ha b hb => ?_⟩
      rw [List.mem_singleton] at hb
      subst hb
      exact h.not_edge hu (List.mem_append_left _ ha)
    · intro a ha
      rcases List.mem_append.mp ha with ha | ha
      · exact h.topo.irrefl a ha
      · rw [List.mem_singleton] at ha
        subst ha
        exact h.not_edge hu (List.mem_append_right _ hu)

/-- A loop that takes ready nodes as long as there are any needs at most one round per node. -/
theorem Inv.ready_nil_of_length (h : Inv adj s) (hlen : adj.length ≤ s.order.length) :
    s.ready = [] := by
  have hsub : s.order ++ s.ready ⊆ List.range adj.length := fun v hv =>
    List.mem_range.mpr (h.range v hv)
  have hle := (h.nodup.subperm hsub).length_le
  simp only [List.length_append, List.length_range] at hle
  exact List.eq_nil_of_length_eq_zero (by omega)

/-- With no ready node left on an acyclic graph, every node is scheduled. -/
theorem Inv.complete (h : Inv adj s) (hac : Acyclic adj) (hempty : s.ready = []) :
    ∀ v < adj.length, v ∈ s.order := by
  -- induction along the edges, which are well-founded on finitely many nodes
  let r : Fin adj.length → Fin adj.length → Prop :=
    fun a b => Relation.TransGen (Edge adj) a.val b.val
  have : IsTrans (Fin adj.length) r := ⟨fun _ _ _ => Relation.TransGen.trans⟩
  have : Std.Irrefl r := ⟨fun a => hac a.val⟩
  have hwf : WellFounded r := Finite.wellFounded_of_trans_of_irrefl r
  have hall : ∀ v : Fin adj.length, v.val ∈ s.order := by
    intro v
    induction v using hwf.induction with
    | _ v ih =>
      have hz : s.count v.val = 0 := by
        rw [h.count, pendingIn_eq_zero]
        intro u hu hd he
        exact hd (ih ⟨u, hu⟩ (.single he))
      simpa [hempty] using (h.zero v.val v.isLt).mpr hz
  exact fun v hv => hall ⟨v, hv⟩

theorem Inv.perm_of_length (h : Inv adj s) (hlen : s.order.length = adj.length) :
    s.order.Perm (List.range adj.length) := by
  have hsub : s.order ⊆ List.range adj.length := fun v hv =>
    List.mem_range.mpr (h.range v (List.mem_append_left _ hv))
  exact (h.topo.nodup.subperm hsub).perm_of_length_le (by simp [hlen])

theorem Inv.perm_of_mem (h : Inv adj s) (hall : ∀ v < adj.length, v ∈ s.order) :
    s.order.Perm (List.range adj.length) := by
  refine (List.perm_ext_iff_of_nodup h.topo.nodup List.nodup_range).mpr fun v => ?_
  rw [List.mem_range]
  exact ⟨fun hv => h.range v (List.mem_append_left _ hv), hall v⟩

end Steps
end Kahn

/-! ## Both directions of one edge relation -/

/-- `rev` lists the edges of `adj` the other way round, each of them once. -/
structure Reversed (adj rev : List (List Nat)) : Prop where
  length : rev.length = adj.length
  edge : ∀ u v, v ∈ succ adj u ↔ u ∈ succ rev v
  nodup : ∀ u, (succ adj u).Nodup
  nodup_rev : ∀ u, (succ rev u).Nodup

namespace Reversed
variable {adj rev : List (List Nat)}

theorem symm (h : Reversed adj rev) : Reversed rev adj :=
  ⟨h.length.symm, fun u v => (h.edge v u).symm, h.nodup_rev, h.nodup⟩

theorem inRange (h : Reversed adj rev) : InRange adj := fun u v hv => by
  have he : Edge rev v u := (h.edge u v).mp hv
  have := he.lt_length
  rwa [h.length] at this

theorem topological (h : Reversed adj rev) {l : List Nat} (ht : Topological rev l) :
    Topological adj l.reverse := by
  refine ⟨List.nodup_reverse.mpr ht.nodup, ?_, fun a ha he => ?_⟩
  · rw [List.pairwise_reverse]
    exact ht.forward.imp fun hab he => hab ((h.edge _ _).mp he)
  · exact ht.irrefl a (List.mem_reverse.mp ha) ((h.edge a a).mp he)

theorem acyclic (h : Reversed adj rev) (ha : Acyclic adj) : Acyclic rev := by
  intro u hu
  have hswap : ∀ {a b}, Relation.TransGen (Edge rev) a b → Relation.TransGen (Edge adj) b a := by
    intro a b ht
    induction ht with
    | single he => exact .single ((h.edge _ _).mpr he)
    | tail _ he ih => exact .head ((h.edge _ _).mpr he) ih
  exact ha u (hswap hu)

/-- The incoming edges of a node are counted by its row of predecessors. -/
theorem pendingIn_nil (h : Reversed adj rev) (v : Nat) :
    Kahn.pendingIn adj [] v = (succ rev v).length := by
  have hcount : ∀ u, (succ adj u).count v = if u ∈ succ rev v then 1 else 0 := by
    intro u
    rw [(h.nodup u).count]
    exact if_congr (h.edge u v) rfl rfl
  have hfilter : ((List.range adj.length).filter fun u => u ∈ succ rev v).Perm (succ rev v) := by
    refine (List.perm_ext_iff_of_nodup (List.nodup_range.filter _) (h.nodup_rev v)).mpr fun u => ?_
    simp only [List.mem_filter, List.mem_range, decide_eq_true_eq, and_iff_right_iff_imp]
    exact fun hu => Edge.lt_length ((h.edge u v).mpr hu)
  have hsum : ∀ l : List Nat, (l.map fun u => if u ∈ succ rev v then 1 else 0).sum =
      (l.filter fun u => u ∈ succ rev v).length := by
    intro l
    induction l with
    | nil => rfl
    | cons u l ih =>
      by_cases hu : u ∈ succ rev v
      · simp [hu, ih, Nat.add_comm]
      · simp [hu, ih]
  simp only [Kahn.pendingIn, hcount, List.not_mem_nil, not_false_eq_true, decide_true,
    List.filter_true, hsum]
  exact hfilter.length_eq

/-- The edges of a graph as pairs. -/
def pairs (adj : List (List Nat)) : List (Nat × Nat) :=
  (List.range adj.length).flatMap fun u => (succ adj u).map fun v => (u, v)

theorem mem_pairs {u v : Nat} : (u, v) ∈ pairs adj ↔ Edge adj u v := by
  simp only [pairs, List.mem_flatMap, List.mem_range, List.mem_map, Prod.mk.injEq]
  constructor
  · rintro ⟨_, _, _, hv, rfl, rfl⟩
    exact hv
  · exact fun he => ⟨u, he.lt_length, v, he, rfl, rfl⟩

theorem nodup_pairs (hnd : ∀ u, (succ adj u).Nodup) : (pairs adj).Nodup := by
  refine List.nodup_flatMap.mpr ⟨fun u _ => (hnd u).map fun a b hab => by simpa using hab, ?_⟩
  refine List.nodup_range.imp fun hne => ?_
  intro p hp hq
  obtain ⟨_, _, rfl⟩ := List.mem_map.mp hp
  obtain ⟨_, _, heq⟩ := List.mem_map.mp hq
  exact hne (Prod.mk.inj heq).1.symm

theorem length_pairs :
    (pairs adj).length = ((List.range adj.length).map fun u => (succ adj u).length).sum := by
  simp [pairs, List.length_flatMap]

/-- Both directions have the same number of edges. -/
theorem sum_length (h : Reversed adj rev) :
    ((List.range adj.length).map fun u => (succ adj u).length).sum =
      ((List.range rev.length).map fun v => (succ rev v).length).sum := by
  rw [← length_pairs, ← length_pairs]
  have hswap : (pairs adj).Perm ((pairs rev).map Prod.swap) := by
    refine (List.perm_ext_iff_of_nodup (nodup_pairs h.nodup)
      ((nodup_pairs h.nodup_rev).map Prod.swap_injective)).mpr fun ⟨u, v⟩ => ?_
    rw [mem_pairs, List.mem_map]
    constructor
    · exact fun he => ⟨(v, u), mem_pairs.mpr ((h.edge u v).mp he), rfl⟩
    · rintro ⟨⟨a, b⟩, hp, heq⟩
      simp only [Prod.swap_prod_mk, Prod.mk.injEq] at heq
      obtain ⟨rfl, rfl⟩ := heq
      exact (h.edge b a).mpr (mem_pairs.mp hp)
  simpa using hswap.length_eq

end Reversed
end Celox.Graph
