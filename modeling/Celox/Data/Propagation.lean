import Mathlib

/-! # Sets that spread over a graph

A node is visited with the set that has come to it, and what leaves it is joined into the sets of its
successors. Where a set grows, or a node is met first, the node is visited again. Along the way the
visits record what they observe. -/
namespace Celox.Data

variable {K F R O : Type} [DecidableEq K] [DecidableEq F]

/-- The sets of the nodes met so far, and the nodes still to visit. -/
structure Spread (K F : Type) where
  values : K → Option (Finset F)
  work : List K

def Spread.join (out : Finset F) (state : Spread K F) (node : K) : Spread K F :=
  if state.values node = none ∨ ¬ out ⊆ (state.values node).getD ∅ then
    ⟨Function.update state.values node (some ((state.values node).getD ∅ ∪ out)),
      state.work ++ [node]⟩
  else state

def spread (next : K → List K) (visit : K → Finset F → R → Finset F × R) :
    (fuel : Nat) → Spread K F → R → R
  | 0, _, record => record
  | fuel + 1, state, record =>
    match state.work with
    | [] => record
    | node :: work =>
      let (out, record) := visit node ((state.values node).getD ∅) record
      spread next visit fuel ((next node).foldl (Spread.join out) { state with work }) record

/-! ## One join -/

section Join
variable {state state' : Spread K F} {out : Finset F} {node : K}

/-- Sets grow, and the nodes of changed sets are queued. -/
structure Spread.Grows (state state' : Spread K F) : Prop where
  values : ∀ k X, state.values k = some X → ∃ Y, state'.values k = some Y ∧ X ⊆ Y
  changed : ∀ k, k ∉ state'.work → state'.values k = state.values k
  work : state.work ⊆ state'.work

omit [DecidableEq K] [DecidableEq F] in
theorem Spread.Grows.refl (state : Spread K F) : state.Grows state :=
  ⟨fun _ X h => ⟨X, h, Finset.Subset.refl X⟩, fun _ _ => rfl, List.Subset.refl _⟩

omit [DecidableEq K] [DecidableEq F] in
theorem Spread.Grows.trans {state'' : Spread K F} (h : state.Grows state')
    (h' : state'.Grows state'') : state.Grows state'' where
  values := fun k X hk => by
    obtain ⟨Y, hY, hXY⟩ := h.values k X hk
    obtain ⟨Z, hZ, hYZ⟩ := h'.values k Y hY
    exact ⟨Z, hZ, hXY.trans hYZ⟩
  changed := fun k hk => (h'.changed k hk).trans (h.changed k fun hmem => hk (h'.work hmem))
  work := fun _ hk => h'.work (h.work hk)

theorem Spread.join_grows (state : Spread K F) (out : Finset F) (node : K) :
    state.Grows (state.join out node) ∧
    ∃ Y, (state.join out node).values node = some Y ∧ out ⊆ Y := by
  unfold join
  split
  · refine ⟨⟨fun k X hk => ?_, fun k hk => ?_, List.subset_append_left _ _⟩, _,
      Function.update_self _ _ _, Finset.subset_union_right⟩
    · by_cases heq : k = node
      · subst heq
        simp only [Function.update_self, hk, Option.getD_some]
        exact ⟨_, rfl, Finset.subset_union_left⟩
      · exact ⟨X, by rw [← hk]; exact Function.update_of_ne heq _ _, Finset.Subset.refl X⟩
    · exact Function.update_of_ne (fun heq => hk (by simp [heq])) _ _
  · rename_i h
    rw [not_or, not_not] at h
    obtain ⟨Y, hY⟩ := Option.ne_none_iff_exists'.mp h.1
    refine ⟨.refl state, Y, hY, ?_⟩
    simpa [hY] using h.2

theorem Spread.join_values {k : K} {X : Finset F} (h : (state.join out node).values k = some X) :
    (∀ f ∈ X, (∃ Y, state.values k = some Y ∧ f ∈ Y) ∨ k = node ∧ f ∈ out) := by
  unfold join at h
  split at h
  · intro f hf
    by_cases heq : k = node
    · subst heq
      simp only [Function.update_self, Option.some.injEq] at h
      subst h
      rcases Finset.mem_union.mp hf with hf | hf
      · cases hk : state.values k with
        | none => simp [hk] at hf
        | some Y => exact .inl ⟨Y, rfl, by simpa [hk] using hf⟩
      · exact .inr ⟨rfl, hf⟩
    · simp only [Function.update_of_ne heq] at h
      exact .inl ⟨X, h, hf⟩
  · exact fun f hf => .inl ⟨X, h, hf⟩

theorem Spread.join_work {k : K} (h : k ∈ (state.join out node).work) :
    k ∈ state.work ∨ k = node := by
  unfold join at h
  split at h
  · exact (List.mem_append.mp h).imp_right List.mem_singleton.mp
  · exact .inl h

end Join

/-! ## Soundness -/

section Sound
variable {next : K → List K} {visit : K → Finset F → R → Finset F × R}
  {transfer : K → Finset F → Finset F} {Shows : R → O → Prop} {obs : K → Finset F → O → Prop}

/-- What a visit gives back and records. -/
structure Visits (visit : K → Finset F → R → Finset F × R) (transfer : K → Finset F → Finset F)
    (Shows : R → O → Prop) (obs : K → Finset F → O → Prop) : Prop where
  out : ∀ k X record, (visit k X record).1 = transfer k X
  shows_iff : ∀ k X record o, Shows (visit k X record).2 o ↔ Shows record o ∨ obs k X o

variable {Good : K → F → Prop} {Met : K → Prop}

/-- The nodes met, and what their sets hold, are as good as the steps make them. -/
structure Spread.Fine (Met : K → Prop) (Good : K → F → Prop) (state : Spread K F) : Prop where
  met : ∀ k ∈ state.work, Met k
  good : ∀ k X, state.values k = some X → ∀ f ∈ X, Good k f

theorem Spread.Fine.foldl {out : Finset F} {state : Spread K F} (h : state.Fine Met Good)
    {targets : List K} (hmet : ∀ j ∈ targets, Met j) (hgood : ∀ j ∈ targets, ∀ f ∈ out, Good j f) :
    (targets.foldl (Spread.join out) state).Fine Met Good := by
  induction targets generalizing state with
  | nil => exact h
  | cons j targets ih =>
    refine ih ⟨fun k hk => ?_, fun k X hk f hf => ?_⟩ (fun i hi => hmet i (List.mem_cons_of_mem _ hi))
      fun i hi => hgood i (List.mem_cons_of_mem _ hi)
    · rcases Spread.join_work hk with hk | rfl
      · exact h.met k hk
      · exact hmet k List.mem_cons_self
    · rcases Spread.join_values hk f hf with ⟨Y, hY, hf⟩ | ⟨rfl, hf⟩
      · exact h.good k Y hY f hf
      · exact hgood k List.mem_cons_self f hf

/-- Whatever is recorded was observed at a node that was met, with a set of good elements. -/
theorem spread_sound (hvisit : Visits visit transfer Shows obs)
    (hstep : ∀ k X, Met k → (∀ f ∈ X, Good k f) → ∀ j ∈ next k, Met j ∧ ∀ f ∈ transfer k X, Good j f)
    {fuel : Nat} {state : Spread K F} {record : R} (h : state.Fine Met Good) {o : O}
    (ho : Shows (spread next visit fuel state record) o) :
    Shows record o ∨ ∃ k X, Met k ∧ (∀ f ∈ X, Good k f) ∧ obs k X o := by
  induction fuel generalizing state record with
  | zero => exact .inl ho
  | succ fuel ih =>
    unfold spread at ho
    split at ho
    · exact .inl ho
    · rename_i node work hwork
      have hmet : Met node := h.met node (hwork ▸ List.mem_cons_self)
      have hgood : ∀ f ∈ (state.values node).getD ∅, Good node f := by
        intro f hf
        cases hvalue : state.values node with
        | none => simp [hvalue] at hf
        | some X => exact h.good node X hvalue f (by simpa [hvalue] using hf)
      have hrest : ({ state with work } : Spread K F).Fine Met Good :=
        ⟨fun k hk => h.met k (hwork ▸ List.mem_cons_of_mem _ hk), h.good⟩
      have hall := hstep node _ hmet hgood
      simp only [hvisit.out] at ho
      rcases ih (hrest.foldl (fun j hj => (hall j hj).1) fun j hj => (hall j hj).2) ho with ho | ho
      · rcases (hvisit.shows_iff _ _ _ _).mp ho with ho | ho
        · exact .inl ho
        · exact .inr ⟨node, _, hmet, hgood, ho⟩
      · exact .inr ho

end Sound

/-! ## Completeness -/

section Closed
variable {next : K → List K} {visit : K → Finset F → R → Finset F × R}
  {transfer : K → Finset F → Finset F} {Shows : R → O → Prop} {obs : K → Finset F → O → Prop}
  {nodes : List K} {bound : Finset F} {state : Spread K F} {record : R}

/-- How far a set is from its bound. -/
def room (bound : Finset F) : Option (Finset F) → Nat
  | none => bound.card + 1
  | some X => bound.card - X.card

/-- Steps that are left at most. -/
def Spread.rank (nodes : List K) (bound : Finset F) (state : Spread K F) : Nat :=
  state.work.length + (nodes.map fun node => room bound (state.values node)).sum

def Spread.Bounded (nodes : List K) (bound : Finset F) (state : Spread K F) : Prop :=
  (∀ k ∈ state.work, k ∈ nodes) ∧ ∀ k X, state.values k = some X → X ⊆ bound

theorem Spread.Bounded.join {out : Finset F} {node : K} (h : state.Bounded nodes bound)
    (hnode : node ∈ nodes) (hout : out ⊆ bound) :
    (state.join out node).Bounded nodes bound ∧
      (state.join out node).rank nodes bound ≤ state.rank nodes bound := by
  refine ⟨⟨fun k hk => ?_, fun k X hk f hf => ?_⟩, ?_⟩
  · rcases Spread.join_work hk with hk | rfl
    · exact h.1 k hk
    · exact hnode
  · rcases Spread.join_values hk f hf with ⟨Y, hY, hf⟩ | ⟨rfl, hf⟩
    · exact h.2 k Y hY hf
    · exact hout hf
  · unfold Spread.join
    split
    · rename_i hgrow
      have hold : (state.values node).getD ∅ ⊆ bound := by
        cases hvalue : state.values node with
        | none => simp
        | some X => simpa using h.2 node X hvalue
      have hunion : (state.values node).getD ∅ ∪ out ⊆ bound := Finset.union_subset hold hout
      have hless : room bound (some ((state.values node).getD ∅ ∪ out)) <
          room bound (state.values node) := by
        have hcard := Finset.card_le_card hunion
        cases hvalue : state.values node with
        | none =>
          simp only [room]
          omega
        | some X =>
          rw [hvalue] at hgrow hcard
          simp only [reduceCtorEq, false_or, Option.getD_some] at hgrow hcard
          have hlt : X.card < (X ∪ out).card := Finset.card_lt_card
            ⟨Finset.subset_union_left, fun hsub => hgrow (Finset.subset_union_right.trans hsub)⟩
          simp only [room, Option.getD_some]
          omega
      unfold Spread.rank
      have hsum : (nodes.map fun k => room bound (Function.update state.values node
          (some ((state.values node).getD ∅ ∪ out)) k)).sum <
          (nodes.map fun k => room bound (state.values k)).sum := by
        refine List.sum_lt_sum _ _ (fun k _ => ?_) ⟨node, hnode, ?_⟩
        · by_cases heq : k = node
          · subst heq
            rw [Function.update_self]
            exact hless.le
          · rw [Function.update_of_ne heq]
        · rw [Function.update_self]
          exact hless
      simp only [List.length_append, List.length_singleton]
      omega
    · exact le_rfl

/-- A set with all that its node has passed on and recorded. -/
def Settled (next : K → List K) (transfer : K → Finset F → Finset F) (Shows : R → O → Prop)
    (obs : K → Finset F → O → Prop) (values : K → Option (Finset F)) (record : R) (k : K)
    (X : Finset F) : Prop :=
  (∀ j ∈ next k, ∃ Y, values j = some Y ∧ transfer k X ⊆ Y) ∧ ∀ o, obs k X o → Shows record o

/-- Nodes that are not queued are settled. -/
structure Spread.Waiting (next : K → List K) (transfer : K → Finset F → Finset F)
    (Shows : R → O → Prop) (obs : K → Finset F → O → Prop) (state : Spread K F) (record : R) :
    Prop where
  queued : ∀ k ∈ state.work, state.values k ≠ none
  settled : ∀ k X, state.values k = some X → k ∉ state.work →
    Settled next transfer Shows obs state.values record k X

theorem foldl_join_spec {out : Finset F} {targets : List K} (h : state.Bounded nodes bound)
    (htargets : ∀ j ∈ targets, j ∈ nodes) (hout : out ⊆ bound)
    (hqueued : ∀ k ∈ state.work, state.values k ≠ none) :
    let state' := targets.foldl (Spread.join out) state
    state.Grows state' ∧ (∀ j ∈ targets, ∃ Y, state'.values j = some Y ∧ out ⊆ Y) ∧
      state'.Bounded nodes bound ∧ state'.rank nodes bound ≤ state.rank nodes bound ∧
      ∀ k ∈ state'.work, state'.values k ≠ none := by
  induction targets generalizing state with
  | nil => exact ⟨.refl state, nofun, h, le_rfl, hqueued⟩
  | cons j targets ih =>
    obtain ⟨hgrows, Y, hY, houtY⟩ := Spread.join_grows state out j
    obtain ⟨hbounded, hrank⟩ := h.join (htargets j List.mem_cons_self) hout
    have hqueued' : ∀ k ∈ (state.join out j).work, (state.join out j).values k ≠ none := by
      intro k hk
      rcases Spread.join_work hk with hk | rfl
      · obtain ⟨X, hX⟩ := Option.ne_none_iff_exists'.mp (hqueued k hk)
        obtain ⟨Z, hZ, -⟩ := hgrows.values k X hX
        rw [hZ]
        exact Option.some_ne_none Z
      · rw [hY]
        exact Option.some_ne_none Y
    obtain ⟨hgrows', hall, hbounded', hrank', hqueuedEnd⟩ :=
      ih hbounded (fun i hi => htargets i (List.mem_cons_of_mem _ hi)) hqueued'
    refine ⟨hgrows.trans hgrows', fun i hi => ?_, hbounded', hrank'.trans hrank, hqueuedEnd⟩
    rcases List.mem_cons.mp hi with rfl | hi
    · obtain ⟨Z, hZ, hYZ⟩ := hgrows'.values i Y hY
      exact ⟨Z, hZ, houtY.trans hYZ⟩
    · exact hall i hi

/-- With a step for every node queued and every element that a set can still get, all nodes are
settled at the end. -/
theorem spread_closed (hvisit : Visits visit transfer Shows obs)
    (hnext : ∀ k ∈ nodes, ∀ j ∈ next k, j ∈ nodes)
    (htransfer : ∀ k X, X ⊆ bound → transfer k X ⊆ bound) {fuel : Nat}
    (hbounded : state.Bounded nodes bound) (hfuel : state.rank nodes bound ≤ fuel)
    (h : state.Waiting next transfer Shows obs record) :
    ∃ values : K → Option (Finset F),
      (∀ k X, state.values k = some X → ∃ Y, values k = some Y ∧ X ⊆ Y) ∧
      ∀ k X, values k = some X →
        Settled next transfer Shows obs values (spread next visit fuel state record) k X := by
  induction fuel generalizing state record with
  | zero =>
    have hempty : state.work = [] := List.length_eq_zero_iff.mp (by
      unfold Spread.rank at hfuel
      omega)
    exact ⟨state.values, fun k X hk => ⟨X, hk, Finset.Subset.refl X⟩,
      fun k X hk => h.settled k X hk (by simp [hempty])⟩
  | succ fuel ih =>
    unfold spread
    split
    · rename_i hempty
      exact ⟨state.values, fun k X hk => ⟨X, hk, Finset.Subset.refl X⟩,
        fun k X hk => h.settled k X hk (by simp [hempty])⟩
    · rename_i node work hwork
      obtain ⟨X, hX⟩ := Option.ne_none_iff_exists'.mp (h.queued node (hwork ▸ List.mem_cons_self))
      have hnode : node ∈ nodes := hbounded.1 node (hwork ▸ List.mem_cons_self)
      have hrest : ({ state with work } : Spread K F).Bounded nodes bound :=
        ⟨fun k hk => hbounded.1 k (hwork ▸ List.mem_cons_of_mem _ hk), hbounded.2⟩
      simp only [hX, Option.getD_some, hvisit.out]
      have hout := htransfer node X (hbounded.2 node X hX)
      obtain ⟨hgrows, hall, hbounded', hrank, hqueued⟩ := foldl_join_spec hrest
        (hnext node hnode) hout fun k hk => h.queued k (hwork ▸ List.mem_cons_of_mem _ hk)
      have hless : ({ state with work } : Spread K F).rank nodes bound + 1 =
          state.rank nodes bound := by
        simp only [Spread.rank, hwork, List.length_cons, Nat.add_right_comm]
      have hwaiting : Spread.Waiting next transfer Shows obs
          ((next node).foldl (Spread.join (transfer node X)) { state with work })
          (visit node X record).2 := by
        refine ⟨hqueued, fun k Z hk hnot => ?_⟩
        -- a node that is not queued has the set it had
        have hold : state.values k = some Z := (hgrows.changed k hnot).symm.trans hk
        by_cases heq : k = node
        · subst heq
          rw [hX] at hold
          cases hold
          exact ⟨hall, fun o ho => (hvisit.shows_iff _ _ _ _).mpr (.inr ho)⟩
        · have hnotOld : k ∉ state.work := fun hmem => by
            rw [hwork] at hmem
            rcases List.mem_cons.mp hmem with hmem | hmem
            · exact heq hmem
            · exact hnot (hgrows.work hmem)
          obtain ⟨hpassed, hshown⟩ := h.settled k Z hold hnotOld
          refine ⟨fun j hj => ?_, fun o ho => (hvisit.shows_iff _ _ _ _).mpr (.inl (hshown o ho))⟩
          obtain ⟨Y, hY, hle⟩ := hpassed j hj
          obtain ⟨Y', hY', hle'⟩ := hgrows.values j Y hY
          exact ⟨Y', hY', hle.trans hle'⟩
      obtain ⟨values, hvalues, hsettled⟩ := ih hbounded' (by omega) hwaiting
      refine ⟨values, fun k Z hk => ?_, hsettled⟩
      obtain ⟨Z', hZ', hle⟩ := hgrows.values k Z hk
      obtain ⟨Z'', hZ'', hle'⟩ := hvalues k Z' hZ'
      exact ⟨Z'', hZ'', hle.trans hle'⟩

end Closed
end Celox.Data
