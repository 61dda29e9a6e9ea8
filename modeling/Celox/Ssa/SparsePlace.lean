import Celox.Ssa.SparseScan
import Celox.Cfg.Frontier

/-! # Liveness and placement of phis

Both worklists queue an item at most once and end closed: liveness under predecessors without a
definition, the phis of a variable under the live part of the frontiers. -/
namespace Celox.Ssa
open Celox.Graph Celox.Cfg Relation

section Living
variable {V D U : Type} {successors : List (List Nat)} {events : List (List (Event V D U))}

structure Living (successors : List (List Nat)) (events : List (List (Event V D U)))
    (vars : List V) (work live : List (V × Nat)) : Prop where
  work_mem : ∀ q ∈ work, q ∈ live
  sound : ∀ q ∈ live, LiveInto successors events q.1 q.2
  range : ∀ q ∈ live, q.1 ∈ vars ∧ q.2 < successors.length
  closed : ∀ q ∈ live, q ∈ work ∨
    ∀ p, Edge successors p q.2 → ¬ Defines events q.1 p → (q.1, p) ∈ live
  nodup : live.Nodup

theorem Living.length_le {vars : List V} {work live : List (V × Nat)}
    (h : Living successors events vars work live) :
    live.length ≤ vars.length * successors.length := by
  have hsub : live ⊆ vars ×ˢ List.range successors.length := by
    intro q hq
    obtain ⟨hvar, hlt⟩ := h.range q hq
    exact List.mem_product.mpr ⟨hvar, List.mem_range.mpr hlt⟩
  have hle := (h.nodup.subperm hsub).length_le
  rwa [List.length_product, List.length_range] at hle

end Living

section Live
variable {V D U : Type} [LinearOrder V]

/-- What the predecessors of a block add. -/
theorem liveStep_foldl (definitions : List (V × Nat)) (var : V) (predecessors : List Nat)
    (work live : List (V × Nat)) (hnodup : live.Nodup) :
    ∃ added, predecessors.foldl (liveStep definitions var) (work, live) =
        (work ++ added, live ++ added) ∧ (live ++ added).Nodup ∧
      (∀ q ∈ added, q.1 = var ∧ q.2 ∈ predecessors ∧ q ∉ definitions) ∧
      ∀ p ∈ predecessors, (var, p) ∉ definitions → (var, p) ∈ live ++ added := by
  induction predecessors generalizing work live with
  | nil => exact ⟨[], by simp, by simpa using hnodup, by simp, by simp⟩
  | cons p predecessors ih =>
    rw [List.foldl_cons, liveStep]
    by_cases hnew : (var, p) ∉ definitions ∧ (var, p) ∉ live
    · rw [if_pos hnew]
      have hnodup' : (live ++ [(var, p)]).Nodup := by
        have := hnew.2
        grind
      obtain ⟨added, heq, hall, hadded, hclosed⟩ :=
        ih (work ++ [(var, p)]) (live ++ [(var, p)]) hnodup'
      refine ⟨(var, p) :: added, by simpa using heq, by simpa using hall, fun q hq => ?_,
        fun p' hp' hdef => ?_⟩
      · rcases List.mem_cons.mp hq with rfl | hq
        · exact ⟨rfl, List.mem_cons_self, hnew.1⟩
        · obtain ⟨hvar, hmem, hdef⟩ := hadded q hq
          exact ⟨hvar, List.mem_cons_of_mem _ hmem, hdef⟩
      · rcases List.mem_cons.mp hp' with rfl | hp'
        · simp
        · simpa using hclosed p' hp' hdef
    · rw [if_neg hnew]
      obtain ⟨added, heq, hall, hadded, hclosed⟩ := ih work live hnodup
      refine ⟨added, heq, hall, fun q hq => ?_, fun p' hp' hdef => ?_⟩
      · obtain ⟨hvar, hmem, hdef⟩ := hadded q hq
        exact ⟨hvar, List.mem_cons_of_mem _ hmem, hdef⟩
      · rcases List.mem_cons.mp hp' with rfl | hp'
        · have : (var, p') ∈ live := by tauto
          exact List.mem_append_left _ this
        · exact hclosed p' hp' hdef

variable {successors : List (List Nat)} {events : List (List (Event V D U))} {cfg : SsaCfg}
  {definitions : List (V × Nat)}

theorem Living.step {vars : List V} {work live : List (V × Nat)} {var : V} {block : Nat}
    (hdefs : ∀ x b, (x, b) ∈ definitions ↔ Defines events x b)
    (hpred : ∀ b < successors.length, ∀ p, p ∈ row cfg.predecessors b ↔ Edge successors p b)
    (h : Living successors events vars ((var, block) :: work) live) :
    ∃ added, (row cfg.predecessors block).foldl (liveStep definitions var) (work, live) =
        (work ++ added, live ++ added) ∧
      Living successors events vars (work ++ added) (live ++ added) := by
  have hblock : (var, block) ∈ live := h.work_mem _ List.mem_cons_self
  obtain ⟨hvar, hlt⟩ := h.range _ hblock
  obtain ⟨added, heq, hnodup, hadded, hclosed⟩ :=
    liveStep_foldl definitions var (row cfg.predecessors block) work live h.nodup
  refine ⟨added, heq, fun q hq => ?_, fun q hq => ?_, fun q hq => ?_, fun q hq => ?_, hnodup⟩
  · rcases List.mem_append.mp hq with hq | hq
    · exact List.mem_append_left _ (h.work_mem q (List.mem_cons_of_mem _ hq))
    · exact List.mem_append_right _ hq
  · rcases List.mem_append.mp hq with hq | hq
    · exact h.sound q hq
    · obtain ⟨rfl, hp, hdef⟩ := hadded q hq
      obtain ⟨last, hwalk, hexposed⟩ := h.sound _ hblock
      refine ⟨last, hwalk.head ⟨(hpred block hlt q.2).mp hp, ?_⟩, hexposed⟩
      exact fun hd => hdef ((hdefs q.1 q.2).mpr hd)
  · rcases List.mem_append.mp hq with hq | hq
    · exact h.range q hq
    · obtain ⟨hqvar, hp, -⟩ := hadded q hq
      exact ⟨hqvar ▸ hvar, Edge.lt_length ((hpred block hlt q.2).mp hp)⟩
  · rcases List.mem_append.mp hq with hq | hq
    · rcases h.closed q hq with hwork | hdone
      · rcases List.mem_cons.mp hwork with rfl | hwork
        · refine .inr fun p hp hdef => hclosed p ((hpred block hlt p).mpr hp) ?_
          exact fun hmem => hdef ((hdefs _ _).mp hmem)
        · exact .inl (List.mem_append_left _ hwork)
      · exact .inr fun p hp hdef => List.mem_append_left _ (hdone p hp hdef)
    · exact .inl (List.mem_append_right _ hq)

theorem Living.loop {vars : List V}
    (hdefs : ∀ x b, (x, b) ∈ definitions ↔ Defines events x b)
    (hpred : ∀ b < successors.length, ∀ p, p ∈ row cfg.predecessors b ↔ Edge successors p b)
    (fuel : Nat) {work live : List (V × Nat)}
    (h : Living successors events vars work live)
    (hfuel : work.length + vars.length * successors.length ≤ fuel + live.length) :
    Living successors events vars [] (liveLoop cfg definitions fuel work live) ∧
      ∀ q ∈ live, q ∈ liveLoop cfg definitions fuel work live := by
  induction fuel generalizing work live with
  | zero =>
    have hle := h.length_le
    obtain rfl : work = [] := List.eq_nil_of_length_eq_zero (by omega)
    exact ⟨h, fun _ hq => hq⟩
  | succ fuel ih =>
    match work with
    | [] => exact ⟨h, fun _ hq => hq⟩
    | (var, block) :: work =>
      obtain ⟨added, heq, hnext⟩ := h.step hdefs hpred
      rw [liveLoop, heq]
      obtain ⟨hall, hkeep⟩ := ih hnext (by
        rw [List.length_cons] at hfuel
        rw [List.length_append, List.length_append]
        omega)
      exact ⟨hall, fun q hq => hkeep q (List.mem_append_left _ hq)⟩

theorem mem_liveIn [DecidableEq D] [DecidableEq U] {scan : Scan V D U}
    (hscan : Scanned events scan) (hlength : events.length = successors.length)
    (hcfg : cfg.successors.length = successors.length)
    (hpred : ∀ b < successors.length, ∀ p, p ∈ row cfg.predecessors b ↔ Edge successors p b)
    {var : V} {block : Nat} :
    (var, block) ∈ liveIn cfg scan ↔ LiveInto successors events var block := by
  have hstart : Living successors events (scan.upwardUses.map Prod.fst)
      (scan.upwardUses.insertionSort pairLe) scan.upwardUses := by
    refine ⟨fun q hq => by simpa using hq, fun q hq => ?_, fun q hq => ?_, fun q hq => ?_,
      hscan.upward_nodup⟩
    · exact ⟨q.2, .refl, (hscan.upward q.1 q.2).mp hq⟩
    · exact ⟨List.mem_map_of_mem hq, hlength ▸ exposed_lt ((hscan.upward q.1 q.2).mp hq)⟩
    · exact .inl (by simpa using hq)
  obtain ⟨hdone, hkeep⟩ := Living.loop hscan.definitions hpred
    (scan.upwardUses.length * (cfg.successors.length + 1)) hstart (by
      rw [List.length_insertionSort, List.length_map, hcfg, Nat.mul_add]
      omega)
  constructor
  · exact hdone.sound (var, block)
  · rintro ⟨last, hwalk, hexposed⟩
    have hlast := hkeep _ ((hscan.upward var last).mpr hexposed)
    induction hwalk using ReflTransGen.head_induction_on with
    | refl => exact hlast
    | @head a b hab _ ih => exact (hdone.closed _ ih).resolve_left (by simp) a hab.1 hab.2

end Live

/-! ## Phis of one variable -/

section Place
variable {V D U : Type} [LinearOrder V]

/-- What one frontier adds. -/
theorem placeStep_foldl (live : List (V × Nat)) (var : V) (frontier : List Nat)
    (state : Placement V) (hpairs : state.phiPairs.Nodup) (hqueued : state.queued.Nodup)
    (hphi : ∀ b, (b, var) ∈ state.phiPairs → b ∈ state.queued) :
    ∃ placed queued : List Nat, frontier.foldl (placeStep live var) state =
        ⟨state.work ++ queued, state.queued ++ queued, state.phiPairs ++ placed.map (·, var)⟩ ∧
      (state.phiPairs ++ placed.map (·, var)).Nodup ∧ (state.queued ++ queued).Nodup ∧
      (∀ b ∈ placed, b ∈ frontier ∧ (var, b) ∈ live ∧ b ∈ state.queued ++ queued) ∧
      (∀ b ∈ queued, b ∈ placed) ∧
      ∀ b ∈ frontier, (var, b) ∈ live → (b, var) ∈ state.phiPairs ++ placed.map (·, var) := by
  induction frontier generalizing state with
  | nil => exact ⟨[], [], by simp, by simpa using hpairs, by simpa using hqueued, by simp, by simp,
      by simp⟩
  | cons y frontier ih =>
    rw [List.foldl_cons]
    by_cases hskip : (var, y) ∉ live ∨ (y, var) ∈ state.phiPairs
    · have hstep : placeStep live var state y = state := by
        rw [placeStep, if_pos hskip]
      obtain ⟨placed, queued, heq, hp, hq, hplaced, hsub, hclosed⟩ := ih state hpairs hqueued hphi
      rw [hstep]
      refine ⟨placed, queued, heq, hp, hq, fun b hb => ?_, hsub, fun b hb hlive => ?_⟩
      · obtain ⟨hmem, hrest⟩ := hplaced b hb
        exact ⟨List.mem_cons_of_mem _ hmem, hrest⟩
      · rcases List.mem_cons.mp hb with rfl | hb
        · exact List.mem_append_left _ (hskip.resolve_left (not_not_intro hlive))
        · exact hclosed b hb hlive
    · rw [not_or, not_not] at hskip
      have hpairs' : (state.phiPairs ++ [(y, var)]).Nodup := by
        have := hskip.2
        grind
      by_cases hold : y ∈ state.queued
      · have hstep : placeStep live var state y =
            { state with phiPairs := state.phiPairs ++ [(y, var)] } := by
          rw [placeStep, if_neg (by tauto)]
          exact if_pos hold
        obtain ⟨placed, queued, heq, hp, hq, hplaced, hsub, hclosed⟩ :=
          ih { state with phiPairs := state.phiPairs ++ [(y, var)] } hpairs' hqueued (by grind)
        rw [hstep, heq]
        refine ⟨y :: placed, queued, by simp, by simpa using hp, hq, fun b hb => ?_,
          fun b hb => List.mem_cons_of_mem _ (hsub b hb), fun b hb hlive => ?_⟩
        · rcases List.mem_cons.mp hb with rfl | hb
          · exact ⟨List.mem_cons_self, hskip.1, List.mem_append_left _ hold⟩
          · obtain ⟨hmem, hrest⟩ := hplaced b hb
            exact ⟨List.mem_cons_of_mem _ hmem, hrest⟩
        · rcases List.mem_cons.mp hb with rfl | hb
          · simp
          · simpa using hclosed b hb hlive
      · have hstep : placeStep live var state y =
            ⟨state.work ++ [y], state.queued ++ [y], state.phiPairs ++ [(y, var)]⟩ := by
          rw [placeStep, if_neg (by tauto)]
          exact if_neg hold
        obtain ⟨placed, queued, heq, hp, hq, hplaced, hsub, hclosed⟩ :=
          ih ⟨state.work ++ [y], state.queued ++ [y], state.phiPairs ++ [(y, var)]⟩ hpairs'
            (by grind) (by grind)
        rw [hstep, heq]
        refine ⟨y :: placed, y :: queued, by simp, by simpa using hp, by simpa using hq,
          fun b hb => ?_, fun b hb => ?_, fun b hb hlive => ?_⟩
        · rcases List.mem_cons.mp hb with rfl | hb
          · exact ⟨List.mem_cons_self, hskip.1, by simp⟩
          · obtain ⟨hmem, hlive, hqueue⟩ := hplaced b hb
            exact ⟨List.mem_cons_of_mem _ hmem, hlive, by simpa using hqueue⟩
        · rcases List.mem_cons.mp hb with rfl | hb
          · exact List.mem_cons_self
          · exact List.mem_cons_of_mem _ (hsub b hb)
        · rcases List.mem_cons.mp hb with rfl | hb
          · simp
          · simpa using hclosed b hb hlive

variable {successors : List (List Nat)} {root : Nat} {events : List (List (Event V D U))}
  {cfg : SsaCfg} {live : List (V × Nat)}

/-- The phis of a variable lie where it is live and a definition of it leads, and close the
frontiers of its definitions and of themselves. -/
structure PhisOf (successors : List (List Nat)) (events : List (List (Event V D U)))
    (cfg : SsaCfg) (live : List (V × Nat)) (pairs : List (Nat × V)) (var : V) : Prop where
  is_live : ∀ b, (b, var) ∈ pairs → (var, b) ∈ live
  origin : ∀ b, (b, var) ∈ pairs → ∃ m, Defines events var m ∧ TransGen (Edge successors) m b
  closed : ∀ m, Defines events var m ∨ (m, var) ∈ pairs →
    ∀ b ∈ row cfg.dominanceFrontier m, (var, b) ∈ live → (b, var) ∈ pairs

structure Placing (successors : List (List Nat)) (events : List (List (Event V D U)))
    (cfg : SsaCfg) (live : List (V × Nat)) (var : V) (before : List (Nat × V))
    (state : Placement V) : Prop where
  work_mem : ∀ m ∈ state.work, m ∈ state.queued
  queued_nodup : state.queued.Nodup
  queued_lt : ∀ m ∈ state.queued, m < successors.length
  pairs_nodup : state.phiPairs.Nodup
  other : ∀ b v, v ≠ var → ((b, v) ∈ state.phiPairs ↔ (b, v) ∈ before)
  queued_iff : ∀ m, m ∈ state.queued ↔ Defines events var m ∨ (m, var) ∈ state.phiPairs
  is_live : ∀ b, (b, var) ∈ state.phiPairs → (var, b) ∈ live
  origin : ∀ b, (b, var) ∈ state.phiPairs →
    ∃ m, Defines events var m ∧ TransGen (Edge successors) m b
  closed : ∀ m ∈ state.queued, m ∈ state.work ∨
    ∀ b ∈ row cfg.dominanceFrontier m, (var, b) ∈ live → (b, var) ∈ state.phiPairs

theorem Placing.step {var : V} {before : List (Nat × V)} {definition : Nat}
    {work queued : List Nat} {pairs : List (Nat × V)}
    (hfrontier : ∀ m < successors.length, ∀ b ∈ row cfg.dominanceFrontier m,
      b < successors.length ∧ TransGen (Edge successors) m b)
    (h : Placing successors events cfg live var before ⟨definition :: work, queued, pairs⟩) :
    ∃ added pairs', (row cfg.dominanceFrontier definition).foldl (placeStep live var)
        ⟨work, queued, pairs⟩ = ⟨work ++ added, queued ++ added, pairs'⟩ ∧
      Placing successors events cfg live var before ⟨work ++ added, queued ++ added, pairs'⟩ := by
  have hdef : definition ∈ queued := h.work_mem _ List.mem_cons_self
  have hlt := h.queued_lt _ hdef
  obtain ⟨placed, added, heq, hp, hq, hplaced, hsub, hclosed⟩ :=
    placeStep_foldl live var (row cfg.dominanceFrontier definition) ⟨work, queued, pairs⟩
      h.pairs_nodup h.queued_nodup fun b hb => (h.queued_iff b).mpr (.inr hb)
  have hmem : ∀ b, (b, var) ∈ pairs ++ placed.map (·, var) ↔
      (b, var) ∈ pairs ∨ b ∈ placed := by simp
  refine ⟨added, _, heq, fun m hm => ?_, hq, fun m hm => ?_, hp, fun b v hv => ?_, fun m => ?_,
    fun b hb => ?_, fun b hb => ?_, fun m hm => ?_⟩
  · rcases List.mem_append.mp hm with hm | hm
    · exact List.mem_append_left _ (h.work_mem m (List.mem_cons_of_mem _ hm))
    · exact List.mem_append_right _ hm
  · rcases List.mem_append.mp hm with hm | hm
    · exact h.queued_lt m hm
    · exact (hfrontier definition hlt m (hplaced m (hsub m hm)).1).1
  · have := h.other b v hv
    simpa [hv.symm] using this
  · dsimp only
    rw [hmem, List.mem_append]
    have hold := h.queued_iff m
    constructor
    · rintro (hm | hm)
      · exact (hold.mp hm).imp id .inl
      · exact .inr (.inr (hsub m hm))
    · rintro (hm | hm | hm)
      · exact .inl (hold.mpr (.inl hm))
      · exact .inl (hold.mpr (.inr hm))
      · exact List.mem_append.mp (hplaced m hm).2.2
  · rcases (hmem b).mp hb with hb | hb
    · exact h.is_live b hb
    · exact (hplaced b hb).2.1
  · rcases (hmem b).mp hb with hb | hb
    · exact h.origin b hb
    · -- the popped block is a definition or has a phi itself
      have hedge := (hfrontier definition hlt b (hplaced b hb).1).2
      rcases (h.queued_iff definition).mp hdef with hd | hd
      · exact ⟨definition, hd, hedge⟩
      · obtain ⟨m, hm, hwalk⟩ := h.origin definition hd
        exact ⟨m, hm, hwalk.trans hedge⟩
  · dsimp only at hm ⊢
    rcases List.mem_append.mp hm with hm | hm
    · rcases h.closed m hm with hwork | hdone
      · rcases List.mem_cons.mp hwork with rfl | hwork
        · exact .inr hclosed
        · exact .inl (List.mem_append_left _ hwork)
      · exact .inr fun b hb hlive => List.mem_append_left _ (hdone b hb hlive)
    · exact .inl (List.mem_append_right _ hm)

theorem Placing.loop {var : V} {before : List (Nat × V)}
    (hfrontier : ∀ m < successors.length, ∀ b ∈ row cfg.dominanceFrontier m,
      b < successors.length ∧ TransGen (Edge successors) m b)
    (fuel : Nat) {state : Placement V}
    (h : Placing successors events cfg live var before state)
    (hfuel : state.work.length + successors.length ≤ fuel + state.queued.length) :
    ∃ queued, Placing successors events cfg live var before
      ⟨[], queued, placeLoop cfg live var fuel state⟩ := by
  have hle : state.queued.length ≤ successors.length := by
    have hsub : state.queued ⊆ List.range successors.length :=
      fun m hm => List.mem_range.mpr (h.queued_lt m hm)
    simpa using (h.queued_nodup.subperm hsub).length_le
  induction fuel generalizing state with
  | zero =>
    obtain ⟨work, queued, pairs⟩ := state
    obtain rfl : work = [] := List.eq_nil_of_length_eq_zero (by dsimp only at *; omega)
    exact ⟨queued, h⟩
  | succ fuel ih =>
    obtain ⟨work, queued, pairs⟩ := state
    match work with
    | [] => exact ⟨queued, h⟩
    | definition :: work =>
      obtain ⟨added, pairs', heq, hnext⟩ :=
        h.step hfrontier
      have hle' : (queued ++ added).length ≤ successors.length := by
        have hsub : queued ++ added ⊆ List.range successors.length :=
          fun m hm => List.mem_range.mpr (hnext.queued_lt m hm)
        simpa using (hnext.queued_nodup.subperm hsub).length_le
      rw [placeLoop]
      dsimp only at *
      rw [heq]
      refine ih hnext ?_ hle'
      dsimp only
      rw [List.length_cons] at hfuel
      rw [List.length_append, List.length_append]
      omega

/-! ## Phis of all variables -/

theorem placeVariable_spec [DecidableEq D] [DecidableEq U] (live : List (V × Nat))
    {scan : Scan V D U} (hscan : Scanned events scan) (hlength : events.length = successors.length)
    (hcfg : cfg.successors.length = successors.length)
    (hfrontier : ∀ m < successors.length, ∀ b ∈ row cfg.dominanceFrontier m,
      b < successors.length ∧ TransGen (Edge successors) m b)
    {var : V} {before : List (Nat × V)} (hnodup : before.Nodup)
    (hnone : ∀ b, (b, var) ∉ before) :
    (placeVariable cfg scan live before var).Nodup ∧
      (∀ b v, v ≠ var → ((b, v) ∈ placeVariable cfg scan live before var ↔ (b, v) ∈ before)) ∧
      PhisOf successors events cfg live (placeVariable cfg scan live before var) var := by
  unfold placeVariable
  set original := ((scan.definitions.filter (·.1 = var)).map (·.2)).insertionSort (· ≤ ·)
  have hmem : ∀ m, m ∈ original ↔ Defines events var m := by
    intro m
    rw [← hscan.definitions]
    simp [original]
  have horiginal : original.Nodup := by
    rw [(List.perm_insertionSort _ _).nodup_iff]
    refine (hscan.definitions_nodup.filter _).map_on fun p hp q hq heq => ?_
    simp only [List.mem_filter, decide_eq_true_eq] at hp hq
    exact Prod.ext (hp.2.trans hq.2.symm) heq
  have hstart : Placing successors events cfg live var before ⟨original, original, before⟩ :=
    ⟨fun _ hm => hm, horiginal, fun m hm => hlength ▸ defines_lt ((hmem m).mp hm), hnodup,
      fun _ _ _ => Iff.rfl, fun m => by simp [hmem, hnone], fun b hb => absurd hb (hnone b),
      fun b hb => absurd hb (hnone b), fun _ hm => .inl hm⟩
  obtain ⟨queued, hdone⟩ := hstart.loop hfrontier (original.length + cfg.successors.length) (by
    dsimp only
    omega)
  refine ⟨hdone.pairs_nodup, hdone.other, hdone.is_live, hdone.origin, fun m hm => ?_⟩
  exact (hdone.closed m ((hdone.queued_iff m).mpr hm)).resolve_left (by simp)

theorem phiPairs_spec [DecidableEq D] [DecidableEq U] (live : List (V × Nat))
    {scan : Scan V D U} (hscan : Scanned events scan) (hlength : events.length = successors.length)
    (hcfg : cfg.successors.length = successors.length)
    (hfrontier : ∀ m < successors.length, ∀ b ∈ row cfg.dominanceFrontier m,
      b < successors.length ∧ TransGen (Edge successors) m b) :
    (phiPairs cfg scan live).Nodup ∧
      ∀ var, PhisOf successors events cfg live (phiPairs cfg scan live) var := by
  unfold phiPairs
  set vars := (scan.definitions.map (·.1)).dedup.insertionSort (· ≤ ·)
  have hvars : vars.Nodup := by
    rw [(List.perm_insertionSort _ _).nodup_iff]
    exact List.nodup_dedup _
  have hmem : ∀ var, var ∉ vars → ∀ m, ¬ Defines events var m := by
    intro var hvar m hdef
    refine hvar ?_
    have := (hscan.definitions var m).mpr hdef
    simp only [vars, List.mem_insertionSort, List.mem_dedup, List.mem_map]
    exact ⟨_, this, rfl⟩
  -- the phis of the variables handled so far, and no others
  have hfold : ∀ (rest : List V) (done : List V) (pairs : List (Nat × V)),
      (done ++ rest).Nodup → pairs.Nodup →
      (∀ v ∈ done, PhisOf successors events cfg live pairs v) →
      (∀ b v, v ∉ done → (b, v) ∉ pairs) →
      (rest.foldl (placeVariable cfg scan live) pairs).Nodup ∧
        (∀ v ∈ done ++ rest, PhisOf successors events cfg live
          (rest.foldl (placeVariable cfg scan live) pairs) v) ∧
        ∀ b v, v ∉ done ++ rest → (b, v) ∉ rest.foldl (placeVariable cfg scan live) pairs := by
    intro rest
    induction rest with
    | nil =>
      intro done pairs _ hnodup hdone hnone
      rw [List.append_nil]
      exact ⟨hnodup, hdone, hnone⟩
    | cons var rest ih =>
      intro done pairs hall hnodup hdone hnone
      have hnew : var ∉ done := by
        have := hall
        grind
      obtain ⟨hnodup', hother, hphis⟩ := placeVariable_spec live hscan hlength hcfg hfrontier
        hnodup (hnone · var hnew)
      have hsplit : done ++ var :: rest = done ++ [var] ++ rest := by simp
      rw [hsplit, List.foldl_cons]
      refine ih (done ++ [var]) _ (hsplit ▸ hall) hnodup' (fun v hv => ?_) fun b v hv => ?_
      · rcases eq_or_ne v var with rfl | hne
        · exact hphis
        · have hv : v ∈ done := by simpa [hne] using hv
          obtain ⟨h1, h2, h3⟩ := hdone v hv
          refine ⟨fun b hb => h1 b ((hother b v hne).mp hb),
            fun b hb => h2 b ((hother b v hne).mp hb), fun m hm b hb hlive => ?_⟩
          rw [hother m v hne] at hm
          exact (hother b v hne).mpr (h3 m hm b hb hlive)
      · have hv : v ∉ done ∧ v ≠ var := by simpa using hv
        rw [hother b v hv.2]
        exact hnone b v hv.1
  obtain ⟨hnodup, hdone, hnone⟩ := hfold vars [] [] (by simpa using hvars) List.nodup_nil (by simp)
    (by simp)
  refine ⟨hnodup, fun var => ?_⟩
  by_cases hvar : var ∈ vars
  · exact hdone var (by simpa using hvar)
  · have hno := fun b => hnone b var (by simpa using hvar)
    refine ⟨fun b hb => absurd hb (hno b), fun b hb => absurd hb (hno b), fun m hm => ?_⟩
    rcases hm with hm | hm
    · exact absurd hm (hmem var hvar m)
    · exact absurd hm (hno m)

end Place
end Celox.Ssa
