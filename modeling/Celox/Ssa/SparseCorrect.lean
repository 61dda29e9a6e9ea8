import Celox.Ssa.SparseRename
import Celox.Data.ExceptList

/-! # The finished construction

Events with distinct identities are accepted. What is recorded follows from the versions each
block is entered and left with. -/
namespace Celox.Ssa
open Celox.Graph Celox.Cfg Relation

/-- The versions of each variable at the entry and the exit of each block, and what is recorded
of them. -/
structure Built {V D U : Type} [LinearOrder V] [DecidableEq U] (successors : List (List Nat))
    (root : Nat) (events : List (List (Event V D U))) (pairs : List (Nat × V))
    (ssa : SparseSsa V D U) (inn out : Nat → V → Version V D) : Prop where
  inn_phi : ∀ b x, b < successors.length → (b, x) ∈ pairs → inn b x = .phi x b
  inn_root : ∀ x, (root, x) ∉ pairs → inn root x = .entry x
  inn_idom : ∀ b d x, b < successors.length → IsIdom (Edge successors) root d b →
    (b, x) ∉ pairs → inn b x = out d x
  out_eq : ∀ b x, b < successors.length →
    out b x = (blockEvents events b).foldl (lastStep x) (inn b x)
  uses : ∀ b, b < successors.length → ∀ done x usage rest,
    blockEvents events b = done ++ .use x usage :: rest →
      ssa.uses.lookup usage = some (done.foldl (lastStep x) (inn b x))
  phi : ∀ b x, (b, x) ∈ pairs → ∃ phi : Phi V D,
    ssa.phis.find? (fun phi => phi.block = b ∧ phi.var = x) = some phi ∧
      ∀ p, Edge successors p b → phi.select p = some (out p x)
  no_phi : ∀ b x, (b, x) ∉ pairs →
    ssa.phis.find? (fun phi : Phi V D => phi.block = b ∧ phi.var = x) = none

/-- The phis lie where their variable is live and a definition of it leads, and close the
frontiers of the definitions and of themselves. -/
structure PlacedPhis {V D U : Type} (successors : List (List Nat)) (root : Nat)
    (events : List (List (Event V D U))) (pairs : List (Nat × V)) : Prop where
  live : ∀ b x, (b, x) ∈ pairs → LiveInto successors events x b
  origin : ∀ b x, (b, x) ∈ pairs → ∃ m, Defines events x m ∧ TransGen (Edge successors) m b
  closed : ∀ m x, m < successors.length → Defines events x m ∨ (m, x) ∈ pairs →
    ∀ b, InFrontier (Edge successors) root m b → LiveInto successors events x b → (b, x) ∈ pairs

section Finish
variable {V D : Type}

instance : Std.Total (inputLe (V := V) (D := D)) := ⟨fun p q => Nat.le_total p.1 q.1⟩

instance : IsTrans (Nat × Version V D) inputLe := ⟨fun _ _ _ h h' => Nat.le_trans h h'⟩

/-- A phi with its inputs in order. -/
def sortInputs (phi : Phi V D) : Phi V D :=
  { phi with inputs := phi.inputs.insertionSort inputLe }

theorem finishPhi_ok {cfg : SsaCfg} {phi : Phi V D}
    (hperm : (phi.inputs.map Prod.fst).Perm (row cfg.predecessors phi.block))
    (hsorted : (row cfg.predecessors phi.block).Pairwise (· < ·)) :
    finishPhi cfg phi = .ok (sortInputs phi) := by
  have hkeys : (phi.inputs.insertionSort inputLe).map Prod.fst = row cfg.predecessors phi.block := by
    have hpairwise : ((phi.inputs.insertionSort inputLe).map Prod.fst).Pairwise (· ≤ ·) :=
      List.pairwise_map.mpr (List.pairwise_insertionSort inputLe phi.inputs)
    refine List.Perm.eq_of_pairwise' (r := (· ≤ ·)) hpairwise
      (hsorted.imp fun h => Nat.le_of_lt h) ?_
    exact ((List.perm_insertionSort inputLe phi.inputs).map Prod.fst).trans hperm
  unfold finishPhi
  dsimp only
  rw [if_pos hkeys]
  rfl

/-- A phi of the shaped list is that of a placed pair. -/
theorem Shaped.of_mem {pairs : List (Nat × V)} {inputs : Nat → V → List (Nat × Version V D)}
    {phis : List (Phi V D)} (h : Shaped pairs inputs phis) {phi : Phi V D} (hphi : phi ∈ phis) :
    (phi.block, phi.var) ∈ pairs ∧ phi = phiWith phi.block phi.var (inputs phi.block phi.var) := by
  obtain ⟨i, hi⟩ := List.mem_iff_getElem?.mp hphi
  have hlt := (List.getElem?_eq_some_iff.mp hi).1
  rw [h.length] at hlt
  obtain ⟨⟨b, x⟩, hbx⟩ : ∃ p, pairs[i]? = some p := ⟨_, List.getElem?_eq_getElem hlt⟩
  have heq := h.phi i b x hbx
  rw [hi] at heq
  cases heq
  exact ⟨List.mem_of_getElem? hbx, rfl⟩

theorem Shaped.mem {pairs : List (Nat × V)} {inputs : Nat → V → List (Nat × Version V D)}
    {phis : List (Phi V D)} (h : Shaped pairs inputs phis) {b : Nat} {x : V}
    (hbx : (b, x) ∈ pairs) : phiWith b x (inputs b x) ∈ phis := by
  obtain ⟨i, hi⟩ := List.mem_iff_getElem?.mp hbx
  exact List.mem_of_getElem? (h.phi i b x hi)

theorem select_sortInputs {successors : List (List Nat)} {entered : List Nat}
    {out : Nat → Bindings V D} {b p : Nat} {x : V} (hp : p ∈ entered)
    (hedge : Edge successors p b) :
    (sortInputs (phiWith b x (inputsFrom successors entered out b x))).select p =
      some (bound (out p) x) := by
  have hmem : ∀ q, q ∈ (inputsFrom successors entered out b x).insertionSort inputLe ↔
      q ∈ inputsFrom successors entered out b x := fun q => List.mem_insertionSort _
  have hinput : (p, bound (out p) x) ∈ inputsFrom successors entered out b x := by
    refine List.mem_map.mpr ⟨p, List.mem_filter.mpr ⟨hp, ?_⟩, rfl⟩
    rw [decide_eq_true_eq]
    exact hedge
  unfold Phi.select sortInputs phiWith
  dsimp only
  cases hfind : ((inputsFrom successors entered out b x).insertionSort inputLe).find?
      fun q => q.1 = p with
  | none =>
    have hno := List.find?_eq_none.mp hfind _ ((hmem _).mpr hinput)
    simp at hno
  | some q =>
    have hq : q.1 = p := by simpa using List.find?_some hfind
    have hq' := (hmem q).mp (List.mem_of_find?_eq_some hfind)
    obtain ⟨p', -, rfl⟩ := List.mem_map.mp hq'
    obtain rfl : p' = p := hq
    rfl

end Finish

section Entered
variable {V D U : Type} [LinearOrder V]

/-- A finished renaming has entered every block once. -/
theorem Renaming.entered_all {successors : List (List Nat)} {root : Nat}
    {cfg : ForwardControlFlowGraph} (h : Analyzed successors root cfg)
    {events : List (List (Event V D U))} {pairs : List (Nat × V)} {entered : List Nat}
    {inn out : Nat → Bindings V D} {state : Rename V D U}
    (hdone : Renaming (ssaCfg cfg) pairs events entered inn out [] state) :
    entered.Nodup ∧ ∀ b, b ∈ entered ↔ b < cfg.successors.length := by
  obtain rfl := h.root_eq
  have hentering : Entering (succ cfg.dominators.children) cfg.root entered [] := hdone.entering
  refine ⟨by simpa using hentering.nodup, fun b => ⟨fun hb => ?_, fun hb => ?_⟩⟩
  · exact hentering.lt h.tree.isTree (by simpa using hb)
  · exact hentering.all (h.tree.descendant hb)

theorem Renaming.keys {cfg : SsaCfg} {events : List (List (Event V D U))} {pairs : List (Nat × V)}
    {entered : List Nat} {inn out : Nat → Bindings V D} {actions : List (Action V D)}
    {state : Rename V D U} (h : Renaming cfg pairs events entered inn out actions state) :
    state.uses.map Prod.fst =
      entered.flatMap fun b => (blockEvents events b).filterMap usageOf := by
  rw [h.uses, List.map_flatMap]
  simp only [recordedUses_fst]

end Entered

section Build
variable {V D U : Type} [LinearOrder V] [DecidableEq U]

/-- What a finished renaming has recorded. -/
theorem Renaming.built {successors : List (List Nat)} {root : Nat}
    {cfg : ForwardControlFlowGraph} (h : Analyzed successors root cfg)
    {events : List (List (Event V D U))} (hids : DistinctIds events) {pairs : List (Nat × V)}
    {entered : List Nat} {inn out : Nat → Bindings V D} {state : Rename V D U}
    (hdone : Renaming (ssaCfg cfg) pairs events entered inn out [] state)
    {ssa : SparseSsa V D U} (huses : ssa.uses = state.uses)
    (hphis : ssa.phis = state.phis.map sortInputs) :
    Built cfg.successors root events pairs ssa (fun b => bound (inn b))
      (fun b => bound (out b)) := by
  obtain ⟨hnodup, hall⟩ := hdone.entered_all h
  have hentered : ∀ b < cfg.successors.length, b ∈ entered := fun b => (hall b).mpr
  have hstart : ∀ b < cfg.successors.length, ∀ x, (b, x) ∉ pairs →
      (b = root ∧ bound (inn b) x = .entry x) ∨ ∃ d, IsIdom (Edge cfg.successors) root d b ∧
        bound (inn b) x = bound (out d) x := by
    intro b hb x hno
    obtain ⟨current, hinn, hstart⟩ := hdone.starts b (hentered b hb)
    have hbound : bound (inn b) x = bound current x := by
      rw [hinn]
      simp [bound, phiBindings, hno]
    rcases hstart with ⟨rfl, rfl⟩ | ⟨d, -, hmem, rfl⟩
    · exact .inl ⟨h.root_eq, hbound⟩
    · exact .inr ⟨d, (h.tree.child_iff.mp hmem).2, hbound⟩
  refine ⟨fun b x hb hbx => ?_, fun x hno => ?_, fun b d x hb hidom hno => ?_, fun b x hb => ?_,
    fun b hb done x usage rest hevents => ?_, fun b x hbx => ?_, fun b x hno => ?_⟩
  · obtain ⟨current, hinn, -⟩ := hdone.starts b (hentered b hb)
    rw [hinn]
    simp [bound, phiBindings, hbx]
  · rcases hstart root h.tree.root_lt x hno with ⟨-, hentry⟩ | ⟨d, hidom, -⟩
    · exact hentry
    · exact absurd rfl hidom.ne_root
  · rcases hstart b hb x hno with ⟨rfl, -⟩ | ⟨e, hidom', hbound⟩
    · exact absurd rfl hidom.ne_root
    · rw [hidom.unique hidom' (h.tree.reach b hb)]
      exact hbound
  · rw [hdone.ends b (hentered b hb)]
    exact bound_eventBindings ..
  · have hkeys : (state.uses.map Prod.fst).Nodup := by
      rw [hdone.keys]
      exact distinct_usages hids hnodup
    have hmem : (usage, done.foldl (lastStep x) (bound (inn b) x)) ∈ state.uses := by
      rw [hdone.uses]
      refine List.mem_flatMap.mpr ⟨b, hentered b hb, ?_⟩
      rw [hevents]
      exact mem_recordedUses ..
    rw [huses, List.lookup_eq_some_iff]
    obtain ⟨before, after, hsplit⟩ := List.append_of_mem hmem
    refine ⟨before, after, hsplit, fun q hq => ?_⟩
    rw [hsplit, List.map_append, List.map_cons] at hkeys
    have hne := (List.nodup_append.mp hkeys).2.2 q.1 (List.mem_map_of_mem hq) usage
      List.mem_cons_self
    rw [bne_iff_ne]
    exact hne.symm
  · -- the phi found is the one of the pair
    have hmem := List.mem_map_of_mem (f := sortInputs) (hdone.phis.mem hbx)
    rw [hphis]
    cases hfind : (state.phis.map sortInputs).find? fun phi => phi.block = b ∧ phi.var = x with
    | none =>
      have hno := List.find?_eq_none.mp hfind _ hmem
      simp [sortInputs, phiWith] at hno
    | some phi =>
      refine ⟨phi, rfl, fun p hedge => ?_⟩
      obtain ⟨hblock, hvar⟩ : phi.block = b ∧ phi.var = x := by
        simpa using List.find?_some hfind
      obtain ⟨phi', hphi', rfl⟩ := List.mem_map.mp (List.mem_of_find?_eq_some hfind)
      obtain ⟨-, heq⟩ := hdone.phis.of_mem hphi'
      rw [show phi'.block = b from hblock, show phi'.var = x from hvar] at heq
      rw [heq]
      exact select_sortInputs (hentered p hedge.lt_length) hedge
  · rw [hphis, List.find?_eq_none]
    intro phi hphi
    obtain ⟨phi', hphi', rfl⟩ := List.mem_map.mp hphi
    obtain ⟨hmem, -⟩ := hdone.phis.of_mem hphi'
    simp only [decide_eq_true_eq, not_and]
    rintro hblock hvar
    exact hno (by rwa [← hblock, ← hvar])

variable [DecidableEq D]

theorem phiPairs_placed {successors : List (List Nat)} {root : Nat}
    {cfg : ForwardControlFlowGraph} (h : Analyzed successors root cfg)
    {events : List (List (Event V D U))} (hlength : events.length = cfg.successors.length)
    {scan : Scan V D U} (hscan : Scanned events scan) :
    ((phiPairs (ssaCfg cfg) scan (liveIn (ssaCfg cfg) scan)).insertionSort phiLe).Nodup ∧
      PlacedPhis cfg.successors root events
        ((phiPairs (ssaCfg cfg) scan (liveIn (ssaCfg cfg) scan)).insertionSort phiLe) := by
  have hlive : ∀ x b, (x, b) ∈ liveIn (ssaCfg cfg) scan ↔ LiveInto cfg.successors events x b := by
    intro x b
    refine mem_liveIn hscan hlength rfl fun b hb p => ?_
    rw [h.edge]
    exact h.predecessors b (by rwa [← h.length]) p
  have hfrontier : ∀ m < cfg.successors.length, ∀ b, b ∈ row (ssaCfg cfg).dominanceFrontier m ↔
      InFrontier (Edge cfg.successors) root m b :=
    fun m hm b => h.frontier m (by rwa [← h.length]) b
  have hreach : ∀ m < cfg.successors.length, ∀ b ∈ row (ssaCfg cfg).dominanceFrontier m,
      b < cfg.successors.length ∧ TransGen (Edge cfg.successors) m b := by
    intro m hm b hb
    obtain ⟨p, hp, hdom, hedge, -⟩ := (hfrontier m hm b).mp hb
    exact ⟨h.tree.range p b hedge, TransGen.tail' (hdom.walk hp) hedge⟩
  obtain ⟨hnodup, hphis⟩ := phiPairs_spec (liveIn (ssaCfg cfg) scan) hscan hlength rfl hreach
  rw [(List.perm_insertionSort _ _).nodup_iff]
  refine ⟨hnodup, fun b x hbx => ?_, fun b x hbx => ?_, fun m x hm hdef b hb hl => ?_⟩
  · rw [List.mem_insertionSort] at hbx
    exact (hlive x b).mp ((hphis x).is_live b hbx)
  · rw [List.mem_insertionSort] at hbx
    exact (hphis x).origin b hbx
  · rw [List.mem_insertionSort] at hdef ⊢
    exact (hphis x).closed m hdef b ((hfrontier m hm b).mpr hb) ((hlive x b).mpr hl)

theorem build_ok {successors : List (List Nat)} {root : Nat} {cfg : ForwardControlFlowGraph}
    (h : Analyzed successors root cfg) {events : List (List (Event V D U))}
    (hlength : events.length = successors.length) (hids : DistinctIds events) :
    ∃ ssa pairs inn out, build (ssaCfg cfg) events = .ok ssa ∧
      Built cfg.successors root events pairs ssa inn out ∧
      PlacedPhis cfg.successors root events pairs := by
  obtain ⟨scan, hscan_ok, hscan⟩ := scanEvents_ok hids
  have hlength' : events.length = cfg.successors.length := hlength.trans h.length.symm
  obtain ⟨hnodup, hplaced⟩ := phiPairs_placed h hlength' hscan
  set pairs := (phiPairs (ssaCfg cfg) scan (liveIn (ssaCfg cfg) scan)).insertionSort phiLe
  have hroot := h.root_eq
  subst hroot
  have hstart : Renaming (ssaCfg cfg) pairs events [] (fun _ _ => none) (fun _ _ => none)
      [.enter (ssaCfg cfg).root] (⟨fun _ => none, [], makePhis pairs⟩ : Rename V D U) := by
    refine ⟨.start, ⟨.inl ⟨rfl, rfl⟩, trivial⟩, by simp, by simp, rfl, ?_, fun i b x hi => ?_⟩
    · simp [makePhis]
    · simp [makePhis, hi, phiWith, inputsFrom]
  obtain ⟨entered, inn, out, state, hloop, hdone⟩ := hstart.loop h.tree.isTree hnodup hids h.nodup
    (fun b s hs => h.tree.range b s hs) (2 * cfg.successors.length) (by simp [pendingExits])
  obtain ⟨hdistinct, hentered⟩ := hdone.entered_all h
  -- the renaming visits every use
  have hcount : state.uses.length = scan.usageIds.length := by
    have hperm : entered.Perm (List.range events.length) := by
      rw [List.perm_ext_iff_of_nodup hdistinct List.nodup_range]
      intro b
      rw [hentered, List.mem_range, hlength']
    have hrange : (List.range events.length).flatMap
        (fun b => (blockEvents events b).filterMap usageOf) = events.flatten.filterMap usageOf := by
      rw [List.filterMap_flatten, List.flatMap_def]
      congr 1
      refine List.ext_getElem (by simp) fun b hb _ => ?_
      have hb : b < events.length := by simpa using hb
      simp [blockEvents, hb]
    rw [← List.length_map (f := Prod.fst), hdone.keys, hscan.usageIds, ← hrange]
    exact (hperm.flatMap_right _).length_eq
  -- every phi has an input for each predecessor
  have hfinish : state.phis.mapM (finishPhi (ssaCfg cfg)) = .ok (state.phis.map sortInputs) := by
    refine mapM_ok fun phi hphi => ?_
    obtain ⟨hmem, heq⟩ := hdone.phis.of_mem hphi
    obtain ⟨_, -, hwalk⟩ := hplaced.origin _ _ hmem
    obtain ⟨a, -, hedge⟩ := TransGen.tail'_iff.mp hwalk
    have hlt : phi.block < successors.length := h.length ▸ h.tree.range a _ hedge
    have hsorted := h.predecessors_sorted phi.block hlt
    refine finishPhi_ok ?_ hsorted
    have hkeys : phi.inputs.map Prod.fst =
        entered.filter fun p => phi.block ∈ succ cfg.successors p := by
      have hinputs : phi.inputs =
          inputsFrom cfg.successors entered out phi.block phi.var := congrArg Phi.inputs heq
      rw [hinputs, inputsFrom, List.map_map]
      exact List.map_id _
    have hpreds : (succ cfg.predecessors phi.block).Nodup :=
      hsorted.imp fun hlt => Nat.ne_of_lt hlt
    rw [hkeys]
    refine (List.perm_ext_iff_of_nodup (hdistinct.filter _) hpreds).mpr fun p => ?_
    rw [List.mem_filter, decide_eq_true_eq, hentered]
    have hpred := h.predecessors phi.block hlt p
    rw [← h.edge] at hpred
    exact ⟨fun hp => hpred.mpr hp.2, fun hp => ⟨(hpred.mp hp).lt_length, hpred.mp hp⟩⟩
  refine ⟨⟨state.phis.map sortInputs, indexPhis cfg.successors.length pairs, state.uses⟩, pairs,
    fun b => bound (inn b), fun b => bound (out b), ?_, hdone.built h hids rfl rfl, hplaced⟩
  have hshape : ¬ (events.length ≠ (ssaCfg cfg).successors.length ∨
      (ssaCfg cfg).predecessors.length ≠ (ssaCfg cfg).successors.length ∨
      (ssaCfg cfg).dominatorChildren.length ≠ (ssaCfg cfg).successors.length ∨
      (ssaCfg cfg).dominanceFrontier.length ≠ (ssaCfg cfg).successors.length) := by
    have := h.length
    have := h.predecessors_length
    have := h.children_length
    have := h.frontier_length
    dsimp only [ssaCfg]
    omega
  unfold build
  dsimp only
  rw [if_neg hshape, hscan_ok]
  simp only [bind, Except.bind]
  rw [show renameLoop (ssaCfg cfg) events (indexPhis (ssaCfg cfg).successors.length pairs)
    (2 * (ssaCfg cfg).successors.length) [.enter (ssaCfg cfg).root]
    ⟨fun _ => none, [], makePhis pairs⟩ = .ok state from hloop]
  dsimp only
  rw [if_neg (not_not_intro hcount), hfinish]
  rfl

end Build

/-! ## The recorded versions are the reaching ones

Entering a block along an edge carries over the value of every live variable. Only the phis of the
root have no value when a path starts. -/

section Paths
variable {V D U : Type} {successors : List (List Nat)} {root : Nat}
  {events : List (List (Event V D U))} {pairs : List (Nat × V)} {idom : List (Option Nat)}
  {children : List (List Nat)}

theorem history_concat (events : List (List (Event V D U))) (before : List Nat) (block : Nat) :
    history events (before ++ [block]) = history events before ++ blockEvents events block := by
  simp [history]

theorem Path.reach {before : List Nat} {b : Nat} (h : Path successors root before b) :
    Reach successors root b := by
  induction h with
  | start => exact .refl root
  | step _ hedge ih => exact ih.tail hedge

theorem liveInto_of_edge {x : V} {p b : Nat} (hedge : Edge successors p b)
    (hno : ¬ Defines events x p) (h : LiveInto successors events x b) :
    LiveInto successors events x p := by
  obtain ⟨last, hwalk, hexposed⟩ := h
  exact ⟨last, hwalk.head ⟨hedge, hno⟩, hexposed⟩

/-- A walk without definitions of a variable is a path whose history has none. -/
theorem exists_quiet_path {x : V} {b : Nat} (hwalk : ReflTransGen
      (fun a b => Edge successors a b ∧ ¬ Defines events x a) root b) :
    ∃ before, Path successors root before b ∧ ∀ d, .definition x d ∉ history events before := by
  induction hwalk with
  | refl => exact ⟨[], .start, by simp [history]⟩
  | @tail a b _ hab ih =>
    obtain ⟨before, hpath, hno⟩ := ih
    refine ⟨before ++ [a], hpath.step hab.1, fun d hd => ?_⟩
    rw [history_concat, List.mem_append] at hd
    exact hd.elim (hno d) fun hd => hab.2 ⟨d, hd⟩

/-! ## Phis of the root -/

/-- A live variable with a definition that leads back to the root has a phi there. -/
theorem PlacedPhis.root_phi (hplaced : PlacedPhis successors root events pairs)
    (t : TreeOf successors root idom children) {x : V} {w : Nat}
    (hwalk : TransGen (Edge successors) w root) (hroot : LiveInto successors events x root)
    (hw : (∃ c, (Defines events x c ∨ (c, x) ∈ pairs) ∧ Dom (Edge successors) root c w) ∨
      ¬ LiveInto successors events x w) : (root, x) ∈ pairs := by
  -- one edge of the walk: the reason to have a phi is handed on or the root has it
  have hstep : ∀ w w', Edge successors w w' →
      ((∃ c, (Defines events x c ∨ (c, x) ∈ pairs) ∧ Dom (Edge successors) root c w) ∨
        ¬ LiveInto successors events x w) →
      (w' ≠ root ∧ ((∃ c, (Defines events x c ∨ (c, x) ∈ pairs) ∧
        Dom (Edge successors) root c w') ∨ ¬ LiveInto successors events x w')) ∨
        (w', x) ∈ pairs := by
    intro w w' hedge hw
    have hreach := t.reach w hedge.lt_length
    by_cases hdead : LiveInto successors events x w'
    · obtain ⟨c, hc, hdom⟩ : ∃ c, (Defines events x c ∨ (c, x) ∈ pairs) ∧
          Dom (Edge successors) root c w := by
        rcases hw with hw | hw
        · exact hw
        · refine ⟨w, .inl ?_, .refl w⟩
          by_contra hno
          exact hw (liveInto_of_edge hedge hno hdead)
      by_cases hsdom : Dom (Edge successors) root c w' ∧ c ≠ w'
      · refine .inl ⟨?_, .inl ⟨c, hc, hsdom.1⟩⟩
        rintro rfl
        exact hsdom.2 (dom_root_eq hsdom.1)
      · exact .inr (hplaced.closed c x (t.reach_lt (hdom.reach hreach)) hc w'
          ⟨w, hreach, hdom, hedge, hsdom⟩ hdead)
    · refine .inl ⟨?_, .inr hdead⟩
      rintro rfl
      exact hdead hroot
  induction hwalk using TransGen.head_induction_on with
  | single hedge =>
    rcases hstep _ root hedge hw with ⟨hne, -⟩ | hphi
    · exact absurd rfl hne
    · exact hphi
  | @head w w' hedge _ ih =>
    rcases hstep w w' hedge hw with ⟨-, hnext⟩ | hphi
    · exact ih hnext
    · exact ih (.inl ⟨w', .inr hphi, .refl w'⟩)

end Paths

section Correct
variable {V D U : Type} [LinearOrder V] {successors : List (List Nat)} {root : Nat}
  {events : List (List (Event V D U))} {pairs : List (Nat × V)} {ssa : SparseSsa V D U}
  {inn out : Nat → V → Version V D} {idom : List (Option Nat)} {children : List (List Nat)}

/-! ## Last definitions -/

/-- Without a definition the version stays, else it is a definition whatever it was before. -/
theorem lastStep_foldl (done : List (Event V D U)) (x : V) :
    ((∀ d, .definition x d ∉ done) ∧ ∀ v, done.foldl (lastStep x) v = v) ∨
      ∃ d, .definition x d ∈ done ∧ ∀ v, done.foldl (lastStep x) v = .definition x d := by
  induction done using List.reverseRecOn with
  | nil => exact .inl ⟨by simp, fun _ => rfl⟩
  | append_singleton done event ih =>
    simp only [List.foldl_append, List.foldl_cons, List.foldl_nil]
    cases event with
    | use y u =>
      rcases ih with ⟨hno, heq⟩ | ⟨d, hd, heq⟩
      · exact .inl ⟨fun d => by simpa using hno d, fun v => heq v⟩
      · exact .inr ⟨d, List.mem_append_left _ hd, fun v => heq v⟩
    | definition y e =>
      by_cases hy : y = x
      · subst hy
        exact .inr ⟨e, by simp, fun v => by simp [lastStep]⟩
      · have hkeep : ∀ v : Version V D, lastStep x v (.definition y e : Event V D U) = v :=
          fun v => by simp [lastStep, hy]
        rcases ih with ⟨hno, heq⟩ | ⟨d, hd, heq⟩
        · refine .inl ⟨fun d hd => ?_, fun v => by rw [hkeep, heq]⟩
          rcases List.mem_append.mp hd with hd | hd
          · exact hno d hd
          · cases List.mem_singleton.mp hd
            exact hy rfl
        · exact .inr ⟨d, List.mem_append_left _ hd, fun v => by rw [hkeep, heq]⟩

/-! ## Values of phis -/

theorem runPhis_of_ne (ssa : SparseSsa V D U) {source block place : Nat} (values : PhiValues V D)
    {x : V} (h : place ≠ block) : runPhis ssa source block values x place = values x place :=
  if_neg h

theorem valuesAlong_concat (ssa : SparseSsa V D U) (before : List Nat) (block next : Nat) :
    valuesAlong ssa (before ++ [block] ++ [next]) =
      runPhis ssa block next (valuesAlong ssa (before ++ [block])) := by
  simp [valuesAlong, enterBlock]

/-! ## Versions between a block and its dominators -/

section Transfer
variable [DecidableEq U]

/-- A phi version is that of a placed phi. -/
theorem Built.phi_placed (h : Built successors root events pairs ssa inn out)
    (t : TreeOf successors root idom children) {b : Nat} (hb : b < successors.length)
    {x y : V} {m : Nat} (hphi : out b x = .phi y m) : y = x ∧ (m, x) ∈ pairs := by
  have hout : ∀ b, b < successors.length → ∀ v, out b x = .phi y m → inn b x = v →
      v = .phi y m := by
    intro b hb v heq hv
    rw [h.out_eq b x hb, hv] at heq
    rcases lastStep_foldl (blockEvents events b) x with ⟨-, hsame⟩ | ⟨d, -, hdef⟩
    · rwa [hsame] at heq
    · rw [hdef] at heq
      cases heq
  refine idom_induction (P := fun b => out b x = .phi y m → y = x ∧ (m, x) ∈ pairs) t.hasIdoms
    (fun hphi => ?_) (fun b d hreach hidom ih hphi => ?_) (t.reach b hb) hphi
  · by_cases hroot : (root, x) ∈ pairs
    · have := hout root t.root_lt _ hphi (h.inn_phi root x t.root_lt hroot)
      cases this
      exact ⟨rfl, hroot⟩
    · have := hout root t.root_lt _ hphi (h.inn_root x hroot)
      cases this
  · have hlt := t.reach_lt hreach
    by_cases hbx : (b, x) ∈ pairs
    · have := hout b hlt _ hphi (h.inn_phi b x hlt hbx)
      cases this
      exact ⟨rfl, hbx⟩
    · exact ih (hout b hlt _ hphi (h.inn_idom b d x hlt hidom hbx))

/-- A block with neither a definition nor a phi of a variable passes its version on. -/
theorem Built.out_eq_inn (h : Built successors root events pairs ssa inn out) {b : Nat}
    (hb : b < successors.length) {x : V} (hno : ¬ Defines events x b) : out b x = inn b x := by
  rw [h.out_eq b x hb]
  rcases lastStep_foldl (blockEvents events b) x with ⟨-, hsame⟩ | ⟨d, hd, -⟩
  · exact hsame _
  · exact absurd ⟨d, hd⟩ hno

/-- Between a predecessor of `b` and what `b` starts from nothing happens to a variable that has
no phi in `b`. -/
theorem Built.out_of_quiet (h : Built successors root events pairs ssa inn out)
    (t : TreeOf successors root idom children) {b p : Nat} {x : V}
    (hp : Reach successors root p)
    (hquiet : ∀ m, Dom (Edge successors) root m p →
      ¬ (Dom (Edge successors) root m b ∧ m ≠ b) → ¬ Defines events x m ∧ (m, x) ∉ pairs) :
    (b = root → out p x = .entry x) ∧
      ∀ d, IsIdom (Edge successors) root d b → Dom (Edge successors) root d p →
        out p x = out d x := by
  revert hquiet
  refine idom_induction (P := fun p => (∀ m, Dom (Edge successors) root m p →
      ¬ (Dom (Edge successors) root m b ∧ m ≠ b) → ¬ Defines events x m ∧ (m, x) ∉ pairs) →
    (b = root → out p x = .entry x) ∧
      ∀ d, IsIdom (Edge successors) root d b → Dom (Edge successors) root d p →
        out p x = out d x) t.hasIdoms (fun hquiet => ⟨fun hbr => ?_, fun d _ hd => ?_⟩)
    (fun p i hreach hi ih hquiet => ?_) hp
  · obtain ⟨hdef, hphi⟩ := hquiet root (.refl root) fun hdom => hdom.2 hbr.symm
    rw [h.out_eq_inn t.root_lt hdef, h.inn_root x hphi]
  · rw [dom_root_eq hd]
  · have hlt := t.reach_lt hreach
    have hstep : ¬ (Dom (Edge successors) root p b ∧ p ≠ b) → out p x = out i x := by
      intro hno
      obtain ⟨hdef, hphi⟩ := hquiet p (.refl p) hno
      rw [h.out_eq_inn hlt hdef, h.inn_idom p i x hlt hi hphi]
    obtain ⟨hroot, hidom⟩ := ih fun m hm => hquiet m (hi.dom.trans hm)
    refine ⟨fun hbr => ?_, fun d hd hdp => ?_⟩
    · rw [hstep fun hdom => hdom.2 (hbr ▸ dom_root_eq (hbr ▸ hdom.1)), hroot hbr]
    · by_cases hdp' : d = p
      · rw [hdp']
      · rw [hstep, hidom d hd (hi.least d hdp' hdp)]
        rintro ⟨hdom, hne⟩
        exact hdp' (hdp.antisymm (hd.least p hne hdom) hreach)

/-! ## Entering a block -/

/-- A live variable keeps its value along an edge. -/
theorem Built.transfer (h : Built successors root events pairs ssa inn out)
    (hplaced : PlacedPhis successors root events pairs)
    (t : TreeOf successors root idom children) {p b : Nat} {x : V}
    (hedge : Edge successors p b) (hlive : LiveInto successors events x b)
    (values : PhiValues V D) :
    evalVersion (runPhis ssa p b values) (inn b x) = evalVersion values (out p x) := by
  have hb : b < successors.length := t.range p b hedge
  have hplt := hedge.lt_length
  have hp := t.reach p hplt
  by_cases hbx : (b, x) ∈ pairs
  · -- the phi selects what `p` hands over
    obtain ⟨phi, hfind, hselect⟩ := h.phi b x hbx
    rw [h.inn_phi b x hb hbx]
    show runPhis ssa p b values x b = _
    rw [runPhis, if_pos rfl, hfind]
    dsimp only
    rw [hselect p hedge, Option.bind_some]
  · have hquiet : ∀ m, Dom (Edge successors) root m p →
        ¬ (Dom (Edge successors) root m b ∧ m ≠ b) → ¬ Defines events x m ∧ (m, x) ∉ pairs := by
      intro m hm hno
      have hlt := t.reach_lt (hm.reach hp)
      rw [← not_or]
      intro hdef
      exact hbx (hplaced.closed m x hlt hdef b ⟨p, hp, hm, hedge, hno⟩ hlive)
    obtain ⟨hroot, hidom⟩ := h.out_of_quiet t hp hquiet
    -- without a phi in `b` its version is the one of `p`, and the phis of `b` do not matter
    have hsame : inn b x = out p x := by
      by_cases hbr : b = root
      · subst hbr
        rw [h.inn_root x hbx, hroot rfl]
      · obtain ⟨d, hd⟩ := t.hasIdoms b (t.reach b hb) hbr
        rw [h.inn_idom b d x hb hd hbx, hidom d hd (hd.dom.of_edge hd.ne hedge)]
    rw [hsame]
    cases hout : out p x with
    | phi y m =>
      obtain ⟨rfl, hmem⟩ := h.phi_placed t hplt hout
      have hmb : m ≠ b := fun heq => hbx (heq ▸ hmem)
      exact runPhis_of_ne ssa values hmb
    | entry y => rfl
    | definition y d => rfl

/-! ## Whole paths -/

/-- A live variable has the value of its last definition on the path; before any definition it
has what the root is entered with. -/
theorem Built.path_value (h : Built successors root events pairs ssa inn out)
    (hplaced : PlacedPhis successors root events pairs)
    (t : TreeOf successors root idom children) {before : List Nat} {b : Nat}
    (hpath : Path successors root before b) {x : V} (hlive : LiveInto successors events x b) :
    ((∀ d, .definition x d ∉ history events before) ∧
        evalVersion (valuesAlong ssa (before ++ [b])) (inn b x) =
          evalVersion (fun _ _ => none) (inn root x)) ∨
      ((∃ d, .definition x d ∈ history events before) ∧
        evalVersion (valuesAlong ssa (before ++ [b])) (inn b x) =
          some (lastDefinition (history events before) x)) := by
  induction hpath with
  | start => exact .inl ⟨by simp [history], rfl⟩
  | @step before block next hpath hedge ih =>
    have hblock := t.reach_lt hpath.reach
    rw [valuesAlong_concat, h.transfer hplaced t hedge hlive, h.out_eq block x hblock,
      history_concat, lastDefinition, List.foldl_append, ← lastDefinition]
    rcases lastStep_foldl (blockEvents events block) x with ⟨hno, hsame⟩ | ⟨d, hd, hdef⟩
    · -- the block leaves the variable alone
      rw [hsame, hsame]
      have hlive' : LiveInto successors events x block :=
        liveInto_of_edge hedge (fun ⟨d, hd⟩ => hno d hd) hlive
      rcases ih hlive' with ⟨hnone, heq⟩ | ⟨⟨d, hd⟩, heq⟩
      · exact .inl ⟨fun d hd => (List.mem_append.mp hd).elim (hnone d) (hno d), heq⟩
      · exact .inr ⟨⟨d, List.mem_append_left _ hd⟩, heq⟩
    · rw [hdef, hdef]
      exact .inr ⟨⟨d, List.mem_append_right _ hd⟩, rfl⟩

/-! ## When the recorded versions are right -/

theorem Built.records_iff (h : Built successors root events pairs ssa inn out)
    (hplaced : PlacedPhis successors root events pairs)
    (t : TreeOf successors root idom children) :
    RecordsLastDefinitions successors root events ssa ↔
      ¬ ∃ x, LiveInto successors events x root ∧
        ∃ m, Defines events x m ∧ TransGen (Edge successors) m root := by
  constructor
  · rintro hrecords ⟨x, hlive, m, hdef, hwalk⟩
    have hphi : (root, x) ∈ pairs :=
      hplaced.root_phi t hwalk hlive (.inl ⟨m, .inl hdef, .refl m⟩)
    obtain ⟨last, hquiet, hexposed⟩ := id hlive
    obtain ⟨before, hpath, hnone⟩ := exists_quiet_path hquiet
    obtain ⟨done, usage, rest, hevents, hno⟩ := id hexposed
    obtain ⟨version, hlookup, heval⟩ := hrecords before last hpath done x usage rest hevents
    -- the use has the version of the root's phi, which has no value yet
    rw [h.uses last (t.reach_lt hpath.reach) done x usage rest hevents] at hlookup
    obtain rfl := Option.some.inj hlookup
    rcases lastStep_foldl done x with ⟨-, hsame⟩ | ⟨d, hd, -⟩
    · rw [hsame] at heval
      rcases h.path_value hplaced t hpath ⟨last, .refl, hexposed⟩ with ⟨-, hvalue⟩ | ⟨⟨d, hd⟩, -⟩
      · rw [hvalue, h.inn_phi root x t.root_lt hphi] at heval
        cases heval
      · exact hnone d hd
    · exact hno d hd
  · intro hgood before b hpath done x usage rest hevents
    refine ⟨_, h.uses b (t.reach_lt hpath.reach) done x usage rest hevents, ?_⟩
    rw [lastDefinition, List.foldl_append, ← lastDefinition]
    rcases lastStep_foldl done x with ⟨hno, hsame⟩ | ⟨d, -, hdef⟩
    · rw [hsame, hsame]
      have hlive : LiveInto successors events x b := ⟨b, .refl, done, usage, rest, hevents, hno⟩
      rcases h.path_value hplaced t hpath hlive with ⟨hnone, hvalue⟩ | ⟨-, hvalue⟩
      · -- no definition on the way: the root has no phi, its version is the entry
        have hphi : (root, x) ∉ pairs := by
          intro hphi
          exact hgood ⟨x, hplaced.live root x hphi, hplaced.origin root x hphi⟩
        have hlast : lastDefinition (history events before) x = .entry x := by
          rcases lastStep_foldl (history events before) x with ⟨-, hkeep⟩ | ⟨d, hd, -⟩
          · exact hkeep _
          · exact absurd hd (hnone d)
        rw [hvalue, h.inn_root x hphi, hlast]
        rfl
      · exact hvalue
    · rw [hdef, hdef]
      rfl

end Transfer
end Correct

section Construction
variable {V D U : Type} [LinearOrder V] [DecidableEq U]

theorem path_of_edges {successors successors' : List (List Nat)} {root : Nat}
    (hedge : ∀ u v, Edge successors u v → Edge successors' u v) {before : List Nat} {b : Nat}
    (h : Path successors root before b) : Path successors' root before b := by
  induction h with
  | start => exact .start
  | step _ huv ih => exact ih.step (hedge _ _ huv)

theorem records_iff_of_analyzed {successors : List (List Nat)} {root : Nat}
    {cfg : ForwardControlFlowGraph} (h : Analyzed successors root cfg)
    {events : List (List (Event V D U))} {pairs : List (Nat × V)} {ssa : SparseSsa V D U}
    {inn out : Nat → V → Version V D}
    (hbuilt : Built cfg.successors root events pairs ssa inn out)
    (hplaced : PlacedPhis cfg.successors root events pairs) :
    RecordsLastDefinitions successors root events ssa ↔
      ¬ ∃ x, LiveInto successors events x root ∧
        ∃ m, Defines events x m ∧ TransGen (Edge successors) m root := by
  have hiff := hbuilt.records_iff hplaced h.tree
  have hedge : Edge cfg.successors = Edge successors := by
    funext u v
    exact propext (h.edge u v)
  simp only [LiveInto, hedge] at hiff ⊢
  rw [← hiff]
  constructor
  · exact fun hr before b hpath => hr before b (path_of_edges (fun u v => (h.edge u v).mp) hpath)
  · exact fun hr before b hpath => hr before b (path_of_edges (fun u v => (h.edge u v).mpr) hpath)

variable [DecidableEq D]

/-- The construction succeeds, and its versions are right on every path, unless a path can start
with a use that a definition can reach through the root. -/
theorem build_records_last_definitions_iff {successors : List (List Nat)} {root : Nat}
    {cfg : ForwardControlFlowGraph} {events : List (List (Event V D U))}
    (hcfg : ForwardControlFlowGraph.analyze successors root = .ok cfg)
    (hlength : events.length = successors.length) (hids : DistinctIds events) :
    ∃ ssa, build (ssaCfg cfg) events = .ok ssa ∧
      (RecordsLastDefinitions successors root events ssa ↔
        ¬ ∃ x, LiveInto successors events x root ∧
          ∃ m, Defines events x m ∧ TransGen (Edge successors) m root) := by
  have h := analyze_ok hcfg
  obtain ⟨ssa, pairs, inn, out, hbuild, hbuilt, hplaced⟩ := build_ok h hlength hids
  exact ⟨ssa, hbuild, records_iff_of_analyzed h hbuilt hplaced⟩

/-- A loop whose header reads what the entry and the loop define. -/
theorem build_records_last_definitions_iff_loop :
    ∃ cfg, ForwardControlFlowGraph.analyze [[1], [2, 3], [1], []] 0 = .ok cfg ∧
      ∃ ssa, build (ssaCfg cfg) ([[.definition 0 0], [.use 0 0], [.definition 0 1], []] :
          List (List (Event Nat Nat Nat))) = .ok ssa ∧
        RecordsLastDefinitions [[1], [2, 3], [1], []] 0
          [[.definition 0 0], [.use 0 0], [.definition 0 1], []] ssa := by
  cases hcfg : ForwardControlFlowGraph.analyze [[1], [2, 3], [1], []] 0 with
  | error e =>
    have hok : (ForwardControlFlowGraph.analyze [[1], [2, 3], [1], []] 0).isOk = true := by
      decide +kernel
    rw [hcfg] at hok
    cases hok
  | ok cfg =>
    have hids : DistinctIds ([[.definition 0 0], [.use 0 0], [.definition 0 1], []] :
        List (List (Event Nat Nat Nat))) := ⟨by decide, by decide⟩
    obtain ⟨ssa, hbuild, hiff⟩ := build_records_last_definitions_iff hcfg rfl hids
    refine ⟨cfg, rfl, ssa, hbuild, hiff.mpr ?_⟩
    rintro ⟨x, -, m, -, hwalk⟩
    -- no edge leads to the root
    obtain ⟨p, -, hedge⟩ := TransGen.tail'_iff.mp hwalk
    have hnone : ∀ p < 4, 0 ∉ succ [[1], [2, 3], [1], []] p := by decide
    exact hnone p hedge.lt_length hedge

/-- In a root that loops to itself a use before a definition starts without a version. -/
theorem root_phi_without_entry :
    ∃ cfg ssa, ForwardControlFlowGraph.analyze [[0]] 0 = .ok cfg ∧
      build (ssaCfg cfg) ([[.use 0 0, .definition 0 7]] : List (List (Event Nat Nat Nat))) =
        .ok ssa ∧
      ¬ RecordsLastDefinitions [[0]] 0 [[.use 0 0, .definition 0 7]] ssa := by
  cases hcfg : ForwardControlFlowGraph.analyze [[0]] 0 with
  | error e =>
    have hok : (ForwardControlFlowGraph.analyze [[0]] 0).isOk = true := by decide +kernel
    rw [hcfg] at hok
    cases hok
  | ok cfg =>
    have h := analyze_ok hcfg
    have hids : DistinctIds ([[.use 0 0, .definition 0 7]] : List (List (Event Nat Nat Nat))) :=
      ⟨by decide, by decide⟩
    obtain ⟨ssa, pairs, inn, out, hbuild, hbuilt, hplaced⟩ := build_ok h rfl hids
    refine ⟨cfg, ssa, rfl, hbuild, fun hrecords => ?_⟩
    refine (records_iff_of_analyzed h hbuilt hplaced).mp hrecords ⟨0, ?_, 0, ?_, ?_⟩
    · exact ⟨0, .refl, [], 0, [.definition 0 7], rfl, by simp⟩
    · exact ⟨7, by decide⟩
    · exact .single (by decide : 0 ∈ succ [[0]] 0)

end Construction
end Celox.Ssa
