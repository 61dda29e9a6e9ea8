import Celox.Liveness.NextUse

/-! # The edges along which the search goes back

Each of them closes a cycle, and without them there is none. -/
namespace Celox.Liveness
open Relation

section
variable {successors : Nat → List Nat} {settled settled' : Nat → Nat → Prop} {above : Option Nat}
  {stack : List (Nat × List Nat)} {state : BackedgeSearch} {count : Nat}

/-- Each open node has an edge to the one above it; its other edges are settled or still to be
looked at. -/
def Opened (successors : Nat → List Nat) (settled : Nat → Nat → Prop) :
    Option Nat → List (Nat × List Nat) → Prop
  | _, [] => True
  | above, (node, rest) :: stack =>
    (∀ c ∈ successors node, c ∈ rest ∨ settled node c ∨ above = some c) ∧
      (∀ c ∈ rest, c ∈ successors node) ∧ (∀ c ∈ above, c ∈ successors node) ∧
      Opened successors settled (some node) stack

theorem Opened.mono (hsettled : ∀ b c, settled b c → settled' b c)
    (h : Opened successors settled above stack) : Opened successors settled' above stack := by
  induction stack generalizing above with
  | nil => trivial
  | cons frame stack ih =>
    obtain ⟨hedges, hrest, habove, hstack⟩ := h
    exact ⟨fun c hc => (hedges c hc).imp_right (Or.imp_left (hsettled _ _)), hrest, habove,
      ih hstack⟩

/-- The node above is closed. -/
theorem Opened.close {node : Nat} (h : Opened successors settled (some node) stack)
    (hnode : ∀ b, settled b node) : Opened successors settled none stack := by
  cases stack with
  | nil => trivial
  | cons frame stack =>
    obtain ⟨hedges, hrest, -, hstack⟩ := h
    refine ⟨fun c hc => (hedges c hc).imp_right fun hc => ?_, hrest, nofun, hstack⟩
    rcases hc with hc | hc
    · exact .inl hc
    · exact .inl (Option.some.inj hc ▸ hnode _)

/-- The open nodes lead to the one above them. -/
theorem Opened.reaches (h : Opened successors settled above stack) {b : Nat}
    (hb : b ∈ stack.map Prod.fst) : ∀ c ∈ above, ReflTransGen (fun b c => c ∈ successors b) b c := by
  induction stack generalizing above with
  | nil => cases hb
  | cons frame stack ih =>
    obtain ⟨-, -, habove, hstack⟩ := h
    intro c hc
    rcases List.mem_cons.mp hb with rfl | hb
    · exact .single (habove c hc)
    · exact (ih hstack hb frame.1 rfl).tail (habove c hc)

/-- An edge that goes back or leads to a closed node. -/
def BackedgeSearch.Settled (state : BackedgeSearch) (b c : Nat) : Prop :=
  c ∈ state.backedges b ∨ state.colors c = .black

/-- The gray nodes are open, closed nodes lead to nodes closed before them, and an edge that goes
back leads to a node from which it was reached. -/
structure BackedgeSearch.Ordered (successors : Nat → List Nat) (state : BackedgeSearch) :
    Prop where
  gray : ∀ b, state.colors b = .gray ↔ b ∈ state.stack.map Prod.fst
  nodup : (state.stack.map Prod.fst).Nodup
  opened : Opened successors state.Settled none state.stack
  ranked : ∃ rank : Nat → Nat, ∃ bound, ∀ b, state.colors b = .black → rank b < bound ∧
    ∀ c ∈ successors b, c ∈ state.backedges b ∨ state.colors c = .black ∧ rank c < rank b
  back : ∀ b, ∀ c ∈ state.backedges b,
    c ∈ successors b ∧ ReflTransGen (fun b c => c ∈ successors b) c b

/-- A white node is opened on top of the stack. -/
theorem BackedgeSearch.Ordered.push (h : state.Ordered successors) {node : Nat}
    (hwhite : state.colors node = .white)
    {stack : List (Nat × List Nat)} (hstack : stack.map Prod.fst = state.stack.map Prod.fst)
    (hopened : Opened successors state.Settled (some node) stack) :
    BackedgeSearch.Ordered successors { state with
      colors := Function.update state.colors node .gray
      stack := (node, successors node) :: stack } := by
  have hblack : ∀ b, Function.update state.colors node .gray b = .black ↔
      state.colors b = .black := fun b => by
    by_cases hb : b = node
    · subst hb
      simp [hwhite]
    · rw [Function.update_of_ne hb]
  have hmem := h.gray
  rw [← hstack] at hmem
  refine ⟨fun b => ?_, ?_, ⟨fun c hc => .inl hc, fun c hc => hc, nofun, hopened.mono
    fun b c => Or.imp_right (hblack c).mpr⟩, ?_, h.back⟩
  · by_cases hb : b = node
    · simp [hb]
    · simp [hb, hmem b]
  · refine List.nodup_cons.mpr ⟨fun hin => ?_, hstack ▸ h.nodup⟩
    exact absurd (hwhite.symm.trans ((hmem node).mpr hin)) nofun
  · simp only [hblack]
    exact h.ranked

theorem BackedgeSearch.Ordered.step (h : state.Ordered successors) :
    (state.step successors).Ordered successors := by
  obtain ⟨colors, backedges, stack⟩ := state
  match stack with
  | [] => exact h
  | (node, []) :: stack =>
    obtain ⟨hgray, hnodup, ⟨hedges, -, -, hopened⟩, ⟨rank, bound, hranked⟩, hback⟩ := h
    obtain ⟨hnotin, hnodup⟩ := List.nodup_cons.mp hnodup
    have hnode : colors node = .gray := (hgray node).mpr List.mem_cons_self
    have hkeep : ∀ c, colors c = .black → Function.update colors node .black c = .black := by
      intro c hc
      rw [Function.update_apply]
      split <;> [rfl; exact hc]
    refine ⟨fun b => ?_, hnodup, ?_, ⟨Function.update rank node bound, bound + 1, fun b hb => ?_⟩,
      hback⟩
    · by_cases hb : b = node
      · subst hb
        simpa [BackedgeSearch.step] using hnotin
      · simpa [BackedgeSearch.step, hb] using hgray b
    · exact (hopened.mono fun b c => Or.imp_right (hkeep c)).close fun b => .inr (by simp)
    · have hlater : ∀ c, colors c = .black → Function.update rank node bound c = rank c :=
        fun c hc => Function.update_of_ne (fun heq => by rw [heq, hnode] at hc; cases hc) ..
      by_cases hbn : b = node
      · subst hbn
        rw [Function.update_self]
        refine ⟨Nat.lt_succ_self _, fun c hc => ?_⟩
        rcases hedges c hc with hc | hc | hc
        · cases hc
        · exact hc.imp_right fun hc => ⟨hkeep c hc, (hlater c hc).symm ▸ (hranked c hc).1⟩
        · cases hc
      · have hb : colors b = .black := by simpa [BackedgeSearch.step, hbn] using hb
        obtain ⟨hlt, hall⟩ := hranked b hb
        rw [hlater b hb]
        refine ⟨hlt.trans (Nat.lt_succ_self _), fun c hc => (hall c hc).imp_right fun hc => ?_⟩
        exact ⟨hkeep c hc.1, (hlater c hc.1).symm ▸ hc.2⟩
  | (node, successor :: rest) :: stack =>
    obtain ⟨hedges, hrest, -, hopened⟩ := h.opened
    have hsuccessor := hrest successor List.mem_cons_self
    have hrest' : ∀ c ∈ rest, c ∈ successors node := fun c hc => hrest c (List.mem_cons_of_mem _ hc)
    unfold BackedgeSearch.step
    dsimp only
    cases hcolor : colors successor with
    | white =>
      refine h.push hcolor rfl ⟨fun c hc => ?_, hrest', fun c hc => ?_, hopened⟩
      · rcases hedges c hc with hc | hc | hc
        · exact (List.mem_cons.mp hc).elim (fun heq => .inr (.inr (heq ▸ rfl))) .inl
        · exact .inr (.inl hc)
        · cases hc
      · exact Option.some.inj hc ▸ hsuccessor
    | gray =>
      have hgrows : ∀ b c, c ∈ backedges b →
          c ∈ Function.update backedges node (backedges node ++ [successor]) b := by
        intro b c hc
        rw [Function.update_apply]
        split
        · rename_i heq
          exact List.mem_append_left _ (heq ▸ hc)
        · exact hc
      refine ⟨h.gray, h.nodup, ⟨fun c hc => ?_, hrest', (by rintro c ⟨⟩),
        hopened.mono fun b c => Or.imp_left (hgrows b c)⟩, ?_, fun b c hc => ?_⟩
      · rcases hedges c hc with hc | hc | hc
        · rcases List.mem_cons.mp hc with rfl | hc
          · exact .inr (.inl (.inl (by simp)))
          · exact .inl hc
        · exact .inr (.inl (hc.imp_left (hgrows node c)))
        · cases hc
      · obtain ⟨rank, bound, hranked⟩ := h.ranked
        exact ⟨rank, bound, fun b hb => ⟨(hranked b hb).1, fun c hc =>
          ((hranked b hb).2 c hc).imp_left (hgrows b c)⟩⟩
      · dsimp only at hc
        by_cases hb : b = node
        · subst hb
          rw [Function.update_self, List.mem_append, List.mem_singleton] at hc
          rcases hc with hc | rfl
          · exact h.back b c hc
          · refine ⟨hsuccessor, ?_⟩
            rcases List.mem_cons.mp ((h.gray c).mp hcolor) with rfl | hin
            · exact .refl
            · exact hopened.reaches hin b rfl
        · rw [Function.update_of_ne hb] at hc
          exact h.back b c hc
    | black =>
      refine ⟨h.gray, h.nodup, ⟨fun c hc => ?_, hrest', (by rintro c ⟨⟩), hopened⟩,
        h.ranked, h.back⟩
      rcases hedges c hc with hc | hc | hc
      · rcases List.mem_cons.mp hc with rfl | hc
        · exact .inr (.inl (.inr hcolor))
        · exact .inl hc
      · exact .inr (.inl hc)
      · cases hc

/-- A met node stays met. -/
theorem BackedgeSearch.step_met {b : Nat} (h : state.colors b ≠ .white) :
    (state.step successors).colors b ≠ .white := by
  have hupdate : ∀ (node : Nat) (color : Color), color ≠ .white →
      Function.update state.colors node color b ≠ .white := by
    intro node color hcolor
    rw [Function.update_apply]
    split <;> [exact hcolor; exact h]
  unfold BackedgeSearch.step
  split
  · exact h
  · exact hupdate _ .black nofun
  · split
    · exact hupdate _ .gray nofun
    · exact h
    · exact h

theorem BackedgeSearch.Ordered.run (h : state.Ordered successors) (fuel : Nat) :
    (BackedgeSearch.run successors fuel state).Ordered successors ∧ ∀ b,
      state.colors b ≠ .white → (BackedgeSearch.run successors fuel state).colors b ≠ .white := by
  induction fuel generalizing state with
  | zero => exact ⟨h, fun _ => id⟩
  | succ fuel ih =>
    obtain ⟨hordered, hmet⟩ := ih h.step
    exact ⟨hordered, fun b hb => hmet b (BackedgeSearch.step_met hb)⟩

theorem BackedgeSearch.Ordered.visit (h : state.Ordered successors) (hstack : state.stack = [])
    (fuel root : Nat) :
    (BackedgeSearch.visit successors fuel state root).Ordered successors ∧ ∀ b,
      b = root ∨ state.colors b ≠ .white →
        (BackedgeSearch.visit successors fuel state root).colors b ≠ .white := by
  unfold BackedgeSearch.visit
  split
  · rename_i hwhite
    have hempty : ([] : List (Nat × List Nat)).map Prod.fst = state.stack.map Prod.fst := by
      rw [hstack]
    obtain ⟨hordered, hmet⟩ := (h.push hwhite hempty trivial).run fuel
    refine ⟨hordered, fun b hb => hmet b ?_⟩
    dsimp only
    rw [Function.update_apply]
    split
    · nofun
    · rename_i hne
      exact hb.resolve_left hne
  · rename_i hroot
    exact ⟨h, fun b hb => hb.elim (fun heq => heq ▸ hroot) id⟩

/-- The edges along which the search goes back close a cycle each, and every cycle has one. -/
theorem computeBackedgeSuccessors_exact (hlt : ∀ b, ∀ c ∈ successors b, c < count) :
    (∀ b, ∀ c ∈ computeBackedgeSuccessors successors count b,
      c ∈ successors b ∧ ReflTransGen (fun b c => c ∈ successors b) c b) ∧
    ∀ b, ¬ TransGen (fun b c => c ∈ successors b ∧
      c ∉ computeBackedgeSuccessors successors count b) b b := by
  have hvisits : ∀ k ≤ count, ∀ state, state = (List.range k).foldl
      (BackedgeSearch.visit successors ((List.range count).map fun b =>
        (successors b).length + 1).sum) ⟨fun _ => .white, fun _ => [], []⟩ →
      state.Ordered successors ∧ state.stack = [] ∧ ∀ b < k, state.colors b ≠ .white := by
    intro k
    induction k with
    | zero =>
      rintro - state rfl
      refine ⟨⟨fun b => ?_, List.nodup_nil, trivial, ⟨fun _ => 0, 0, nofun⟩, nofun⟩, rfl, nofun⟩
      simp
    | succ k ih =>
      rintro hk state rfl
      obtain ⟨hordered, hstack, hmet⟩ := ih (Nat.le_of_succ_le hk) _ rfl
      rw [List.range_succ, List.foldl_append, List.foldl_cons, List.foldl_nil]
      obtain ⟨hordered', hmet'⟩ := hordered.visit hstack _ k
      refine ⟨hordered', BackedgeSearch.visit_done hlt hk hstack, fun b hb => hmet' b ?_⟩
      exact (Nat.lt_succ_iff_lt_or_eq.mp hb).symm.imp_right (hmet b)
  obtain ⟨hordered, hstack, hmet⟩ := hvisits count le_rfl _ rfl
  obtain ⟨rank, bound, hranked⟩ := hordered.ranked
  have hblack : ∀ b < count, _ = Color.black := fun b hb => by
    cases hcolor : ((List.range count).foldl (BackedgeSearch.visit successors _) _).colors b with
    | white => exact absurd hcolor (hmet b hb)
    | gray => exact absurd ((hordered.gray b).mp hcolor) (by rw [hstack]; nofun)
    | black => exact hcolor
  refine ⟨hordered.back, fun b hcycle => ?_⟩
  have hend : ∀ {b c}, TransGen (fun b c => c ∈ successors b ∧
      c ∉ computeBackedgeSuccessors successors count b) b c → c < count := fun hpath => by
    cases hpath with
    | single hedge | tail _ hedge => exact hlt _ _ hedge.1
  -- along the other edges the rank falls
  have hfalls : ∀ {c}, TransGen (fun b c => c ∈ successors b ∧
      c ∉ computeBackedgeSuccessors successors count b) b c → rank c < rank b := by
    intro c hpath
    induction hpath with
    | single hedge =>
      exact (((hranked b (hblack b (hend hcycle))).2 _ hedge.1).resolve_left hedge.2).2
    | tail hpath hedge ih =>
      exact (((hranked _ (hblack _ (hend hpath))).2 _ hedge.1).resolve_left hedge.2).2.trans ih
  exact lt_irrefl _ (hfalls hcycle)

/-- A node with an edge to itself. -/
theorem computeBackedgeSuccessors_self :
    (∀ b, ∀ c ∈ computeBackedgeSuccessors (fun b => if b = 0 then [0] else []) 1 b,
      c ∈ (if b = 0 then [0] else []) ∧
        ReflTransGen (fun b c => c ∈ (if b = 0 then [0] else [])) c b) ∧
    ∀ b, ¬ TransGen (fun b c => c ∈ (if b = 0 then [0] else []) ∧
      c ∉ computeBackedgeSuccessors (fun b => if b = 0 then [0] else []) 1 b) b b :=
  computeBackedgeSuccessors_exact fun b c hc => by
    split at hc
    · simpa using hc
    · cases hc

end
end Celox.Liveness
