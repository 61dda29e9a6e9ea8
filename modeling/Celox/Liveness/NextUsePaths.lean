import Celox.Liveness.NextUseExact

/-! # Next uses along paths

The reported distances against those along the paths of the graph. A path of a value goes on until a
use of it, and it does not pass a definition. -/
namespace Celox.Liveness
open Celox.Data

/-! ## Paths to the next use -/

/-- The entry or the exit of a block. -/
inductive Boundary where
  | entry (b : Nat)
  | exit (b : Nat)

section Paths
variable {V R : Type} [LinearOrder V] (facts : FunctionAllocationFacts V R) (v : V)

/-- An instruction uses the value, and neither a phi nor an instruction before it defines it. -/
def ExposedUse (b i : Nat) : Prop :=
  ∃ instruction, (facts.block b).instructions[i]? = some instruction ∧ v ∈ instruction.uses ∧
    v ∉ defsUpTo facts b i

/-- The length of a path to the next use: its instructions, and what its edges add. -/
inductive UsedAfter : Boundary → Nat → Prop
  | here {b i : Nat} : ExposedUse facts v b i → (∀ j < i, ¬ ExposedUse facts v b j) →
      UsedAfter (.entry b) i
  | through {b n : Nat} : (∀ i, ¬ ExposedUse facts v b i) → (∀ s, ¬ DefinesAt facts v (b, s)) →
      UsedAfter (.exit b) n → UsedAfter (.entry b) ((facts.block b).instructions.length + n)
  | phi {b c : Nat} : EdgeUse facts v b c → UsedAfter (.exit b) (edgeLength facts b c)
  | edge {b c n : Nat} : c ∈ facts.successors b → ¬ EdgeUse facts v b c → UsedAfter (.entry c) n →
      UsedAfter (.exit b) (edgeLength facts b c + n)

/-- The least of the lengths, saturated, or none where there is no path. -/
def Nearest (lengths : Nat → Prop) : Option Nat → Prop
  | none => ∀ n, ¬ lengths n
  | some d => ∃ n, lengths n ∧ (∀ m, lengths m → n ≤ m) ∧ d = min n (2 ^ 32 - 1)

/-- Where an instruction both uses and defines a value, its block has used or defined it before. -/
def NoHiddenUse : Prop :=
  ∀ (v : V) (b i : Nat) (instruction : InstructionAllocationFacts V R),
    (facts.block b).instructions[i]? = some instruction → v ∈ instruction.uses →
      v ∈ instruction.defs → v ∈ defsUpTo facts b i ∨ ∃ j < i, ∃ earlier,
        (facts.block b).instructions[j]? = some earlier ∧ v ∈ earlier.uses

variable {facts v}

theorem localUse_iff {b i : Nat} : LocalUse facts v b i ↔
    ∃ instruction, (facts.block b).instructions[i]? = some instruction ∧ v ∈ instruction.uses ∧
      v ∉ defsUpTo facts b (i + 1) := by
  unfold LocalUse
  simp only [not_mem_defsUpTo]
  rfl

theorem defsUpTo_mono {b i j : Nat} (hij : i ≤ j) (h : v ∈ defsUpTo facts b i) :
    v ∈ defsUpTo facts b j := by
  rw [mem_defsUpTo] at h ⊢
  refine h.imp_right fun ⟨k, hk, instruction, hat, hv⟩ => ?_
  exact ⟨k, hk.trans_le hij, instruction, hat, hv⟩

theorem exposedUse_of_localUse {b i : Nat} (h : LocalUse facts v b i) : ExposedUse facts v b i := by
  obtain ⟨instruction, hat, hv, hno⟩ := localUse_iff.mp h
  exact ⟨instruction, hat, hv, fun hdef => hno (defsUpTo_mono (Nat.le_succ i) hdef)⟩

/-- The first use is not hidden by a definition of its own instruction. -/
theorem NoHiddenUse.localUse (h : NoHiddenUse facts) {b i : Nat} (hexposed : ExposedUse facts v b i)
    (hfirst : ∀ j < i, ¬ ExposedUse facts v b j) : LocalUse facts v b i := by
  obtain ⟨instruction, hat, hv, hno⟩ := hexposed
  refine localUse_iff.mpr ⟨instruction, hat, hv, fun hdef => ?_⟩
  rcases mem_defsUpTo.mp hdef with hphi | ⟨j, hj, other, hother, hdefines⟩
  · exact hno (mem_defsUpTo.mpr (.inl hphi))
  · rcases Nat.lt_succ_iff_lt_or_eq.mp hj with hlt | rfl
    · exact hno (mem_defsUpTo.mpr (.inr ⟨j, hlt, other, hother, hdefines⟩))
    · obtain rfl := Option.some.inj (hat.symm.trans hother)
      rcases h v b j instruction hat hv hdefines with hbefore | ⟨k, hk, earlier, hearlier, huse⟩
      · exact hno hbefore
      · exact hfirst k hk ⟨earlier, hearlier, huse, fun hdef => hno (defsUpTo_mono hk.le hdef)⟩

/-- A block uses the value at a first place, or nowhere before it is defined. -/
theorem first_exposedUse (facts : FunctionAllocationFacts V R) (v : V) (b : Nat) :
    (∃ i, ExposedUse facts v b i ∧ ∀ j < i, ¬ ExposedUse facts v b j) ∨
      ∀ i, ¬ ExposedUse facts v b i := by
  classical
  by_cases h : ∃ i, ExposedUse facts v b i
  · exact .inl ⟨Nat.find h, Nat.find_spec h, fun j => Nat.find_min h⟩
  · exact .inr (not_exists.mp h)

end Paths

/-! ## One round along paths -/

section Round
variable {V R : Type} [LinearOrder V] {facts : FunctionAllocationFacts V R}
  {distances : Nat → NextUseDistances V × NextUseDistances V} {v : V} {b d : Nat}

theorem LeastOf.unique {raw : List (V × Nat)} {row : NextUseDistances V} (h : LeastOf raw row)
    (hd : (v, d) ∈ row.entries) {k : Nat} (hk : (v, k) ∈ raw) : d ≤ k := by
  obtain ⟨d', hle, hmem⟩ := h.least _ hk
  have hsame : row.get v = some d := NextUseDistances.Ascending.get_eq_some h.ascending |>.mpr hd
  have hsame' : row.get v = some d' :=
    NextUseDistances.Ascending.get_eq_some h.ascending |>.mpr hmem
  exact (Option.some.inj (hsame.symm.trans hsame')).le.trans hle

/-- Blocks whose lengths and positions are numbers of 32 bits. -/
def ShortBlocks (facts : FunctionAllocationFacts V R) : Prop :=
  ∀ b, (facts.block b).instructions.length < 2 ^ 32

omit [LinearOrder V] in
theorem ShortBlocks.index_mod (h : ShortBlocks facts) {i : Nat}
    {instruction : InstructionAllocationFacts V R}
    (hat : (facts.block b).instructions[i]? = some instruction) : i % 2 ^ 32 = i :=
  Nat.mod_eq_of_lt ((List.getElem?_eq_some_iff.mp hat).1.trans (h b))

theorem ShortBlocks.blockLen (h : ShortBlocks facts) (b : Nat) :
    (computeBlockTransfer facts b).blockLen = (facts.block b).instructions.length := by
  have hmod : (computeBlockTransfer facts b).blockLen =
      (facts.block b).instructions.length % 2 ^ 32 := rfl
  rw [hmod, Nat.mod_eq_of_lt (h b)]

/-- The first use of a block is what its local uses have. -/
theorem mem_localUses_first (hshort : ShortBlocks facts) {i : Nat} (huse : LocalUse facts v b i)
    (hfirst : ∀ j < i, ¬ LocalUse facts v b j) :
    (v, i) ∈ (computeBlockTransfer facts b).localUses := by
  obtain ⟨raw, hraw, hleast⟩ := transfer_localUses facts b
  obtain ⟨instruction, hat, -⟩ := id huse
  obtain ⟨d, hd, hmem⟩ := hleast.least (v, i) ((hraw v i).mpr
    ⟨i, (List.getElem?_eq_some_iff.mp hat).1, (hshort.index_mod hat).symm, huse⟩)
  obtain ⟨j, -, hj, huse'⟩ := (hraw v d).mp (hleast.mem _ hmem)
  obtain ⟨other, hother, -⟩ := id huse'
  rw [hshort.index_mod hother] at hj
  obtain rfl : d = i := Nat.le_antisymm hd (Nat.not_lt.mp fun hlt => hfirst d hlt (hj ▸ huse'))
  exact hmem

/-- Every distance is the length of a path, as far as a distance can tell. -/
def Realized (facts : FunctionAllocationFacts V R) (point : Boundary) (row : NextUseDistances V) :
    Prop :=
  ∀ v d, (v, d) ∈ row.entries → ∃ n, UsedAfter facts v point n ∧ d = min n (2 ^ 32 - 1)

theorem realized_exit (h : ∀ c, Realized facts (.entry c) (distances c).1) (b : Nat) :
    Realized facts (.exit b) (computeBlockDistances facts distances b).2 := by
  intro v d hd
  obtain ⟨c, hc, hseen⟩ := mem_exitEntries.mp (leastOf_exit.mem _ hd)
  have hlength := @edgeLength_lt V R facts b c
  by_cases hedge : EdgeUse facts v b c
  · refine ⟨_, .phi hedge, ?_⟩
    have hle := leastOf_exit.unique hd (mem_exitEntries.mpr ⟨c, hc, .inr ⟨hedge, rfl⟩⟩)
    rcases hseen with ⟨d', -, heq⟩ | ⟨-, heq⟩
    · unfold saturatingAdd at heq
      omega
    · omega
  · obtain ⟨d', hd', heq⟩ := hseen.resolve_right fun hphi => hedge hphi.1
    obtain ⟨n, hn, hsat⟩ := h c v d' hd'
    refine ⟨_, .edge hc hedge hn, ?_⟩
    unfold saturatingAdd at heq
    omega

theorem realized_entry (hhidden : NoHiddenUse facts) (hshort : ShortBlocks facts)
    (h : ∀ c, Realized facts (.entry c) (distances c).1) (b : Nat) :
    Realized facts (.entry b) (computeBlockDistances facts distances b).1 := by
  intro v d hd
  have hlen := hshort b
  have hblock := hshort.blockLen b
  have hseen := mem_entryEntries.mp (leastOf_entry.mem _ hd)
  rcases first_exposedUse facts v b with ⟨i, hexposed, hfirst⟩ | hnone
  · refine ⟨i, .here hexposed hfirst, ?_⟩
    have hlocal := hhidden.localUse hexposed hfirst
    have hi : i < (facts.block b).instructions.length :=
      (List.getElem?_eq_some_iff.mp hexposed.choose_spec.1).1
    have hle := leastOf_entry.unique hd (mem_entryEntries.mpr (.inr (mem_localUses_first hshort hlocal
      fun j hj huse => hfirst j hj (exposedUse_of_localUse huse))))
    have hge : i ≤ d := by
      rcases hseen with ⟨d', -, -, heq⟩ | hmem
      · unfold saturatingAdd at heq
        omega
      · obtain ⟨j, hj, huse⟩ := mem_localUses hmem
        obtain ⟨other, hother, -⟩ := id huse
        rw [hshort.index_mod hother] at hj
        exact hj ▸ Nat.not_lt.mp fun hlt => hfirst j hlt (exposedUse_of_localUse huse)
    omega
  · have hlocal : (v, d) ∉ (computeBlockTransfer facts b).localUses := fun hmem => by
      obtain ⟨j, -, huse⟩ := mem_localUses hmem
      exact hnone j (exposedUse_of_localUse huse)
    obtain ⟨d', hd', hdef, heq⟩ := hseen.resolve_right hlocal
    obtain ⟨n, hn, hsat⟩ := realized_exit h b v d' hd'
    refine ⟨_, .through hnone hdef hn, ?_⟩
    rw [hblock] at heq
    unfold saturatingAdd at heq
    omega

end Round

/-! ## The reported distances -/

section Reported
variable {V R : Type} [LinearOrder V] {facts : FunctionAllocationFacts V R} {v : V} {b d : Nat}

/-- The distances of a boundary. -/
def rowAt (distances : Nat → NextUseDistances V × NextUseDistances V) :
    Boundary → NextUseDistances V
  | .entry b => (distances b).1
  | .exit b => (distances b).2

omit [LinearOrder V] in
theorem rowAt_pair (distances : Nat → NextUseDistances V × NextUseDistances V) (b : Nat) :
    (rowAt distances (.entry b), rowAt distances (.exit b)) = distances b := rfl

/-- The solved distances solve the equations of their block. -/
theorem rowAt_solved (facts : FunctionAllocationFacts V R) (b : Nat) :
    rowAt (solveDistances facts) (.entry b) =
        (computeBlockDistances facts (solveDistances facts) b).1 ∧
      rowAt (solveDistances facts) (.exit b) =
        (computeBlockDistances facts (solveDistances facts) b).2 := by
  rw [← solveDistances_eq, rowAt, rowAt]
  exact ⟨rfl, rfl⟩

theorem solved_ascending (point : Boundary) :
    (rowAt (solveDistances facts) point).Ascending := by
  cases point with
  | entry b =>
    rw [(rowAt_solved facts b).1]
    exact leastOf_entry.ascending
  | exit b =>
    rw [(rowAt_solved facts b).2]
    exact leastOf_exit.ascending

theorem solved_realized (hhidden : NoHiddenUse facts) (hshort : ShortBlocks facts)
    (point : Boundary) : Realized facts point (rowAt (solveDistances facts) point) := by
  have hentry : ∀ b, Realized facts (.entry b) (solveDistances facts b).1 := by
    refine worklist_invariant (P := fun distances : Nat → NextUseDistances V × NextUseDistances V =>
      ∀ b, Realized facts (.entry b) (distances b).1) (fun distances node h b => ?_)
      (fun _ _ _ hd => by cases hd) _ _
    by_cases hnode : b = node
    · subst hnode
      rw [Function.update_self]
      exact realized_entry hhidden hshort h b
    · rw [Function.update_of_ne hnode]
      exact h b
  cases point with
  | entry b =>
    rw [rowAt]
    exact hentry b
  | exit b =>
    rw [(rowAt_solved facts b).2]
    exact realized_exit hentry b

/-- No path is shorter than the reported distance. -/
theorem UsedAfter.reported (hhidden : NoHiddenUse facts) (hshort : ShortBlocks facts)
    {point : Boundary} {n : Nat} (h : UsedAfter facts v point n) :
    ∃ d ≤ min n (2 ^ 32 - 1), (v, d) ∈ (rowAt (solveDistances facts) point).entries := by
  induction h with
  | @here b i hexposed hfirst =>
    have hi : i < (facts.block b).instructions.length :=
      (List.getElem?_eq_some_iff.mp hexposed.choose_spec.1).1
    have hlen := hshort b
    have hlocal := mem_localUses_first hshort (hhidden.localUse hexposed hfirst)
      fun j hj huse => hfirst j hj (exposedUse_of_localUse huse)
    obtain ⟨d, hd, hmem⟩ := (@leastOf_entry V R _ facts (solveDistances facts) b).least _
      (mem_entryEntries.mpr (.inr hlocal))
    rw [(rowAt_solved facts b).1]
    exact ⟨d, by omega, hmem⟩
  | @through b n hnone hdef _ ih =>
    obtain ⟨d', hd', hmem'⟩ := ih
    have hblock := hshort.blockLen b
    rw [(rowAt_solved facts b).2] at hmem'
    obtain ⟨d, hd, hmem⟩ := leastOf_entry.least _ (mem_entryEntries.mpr (.inl ⟨d', hmem', hdef, rfl⟩))
    rw [(rowAt_solved facts b).1]
    refine ⟨d, ?_, hmem⟩
    rw [hblock, saturatingAdd] at hd
    omega
  | @phi b c hedge =>
    have hlength := @edgeLength_lt V R facts b c
    obtain ⟨d, hd, hmem⟩ := (@leastOf_exit V R _ facts (solveDistances facts) b).least _
      (mem_exitEntries.mpr ⟨c, hedge.1, .inr ⟨hedge, rfl⟩⟩)
    rw [(rowAt_solved facts b).2]
    exact ⟨d, by omega, hmem⟩
  | @edge b c n hc _ _ ih =>
    obtain ⟨d', hd', hmem'⟩ := ih
    rw [rowAt] at hmem'
    obtain ⟨d, hd, hmem⟩ := (@leastOf_exit V R _ facts (solveDistances facts) b).least _
      (mem_exitEntries.mpr ⟨c, hc, .inl ⟨d', hmem', rfl⟩⟩)
    rw [(rowAt_solved facts b).2]
    refine ⟨d, ?_, hmem⟩
    rw [saturatingAdd] at hd
    omega

theorem solved_nearest (hhidden : NoHiddenUse facts) (hshort : ShortBlocks facts)
    (point : Boundary) (v : V) : Nearest (UsedAfter facts v point) ((rowAt (solveDistances facts) point).get v) := by
  classical
  cases hget : (rowAt (solveDistances facts) point).get v with
  | none =>
    intro n hn
    obtain ⟨d, -, hmem⟩ := hn.reported hhidden hshort
    rw [(solved_ascending point).get_eq_some.mpr hmem] at hget
    cases hget
  | some d =>
    obtain ⟨n, hn, hd⟩ := solved_realized hhidden hshort point v d
      ((solved_ascending point).get_eq_some.mp hget)
    have hexists : ∃ n, UsedAfter facts v point n := ⟨n, hn⟩
    refine ⟨Nat.find hexists, Nat.find_spec hexists, fun m hm => Nat.find_le hm, ?_⟩
    obtain ⟨d', hd', hmem⟩ := (Nat.find_spec hexists).reported hhidden hshort
    obtain rfl : d = d' := Option.some.inj
      (hget.symm.trans ((solved_ascending point).get_eq_some.mpr hmem))
    have hle : Nat.find hexists ≤ n := Nat.find_le hn
    omega

/-- A first use that its own instruction hides is not reported. -/
theorem solved_hidden {i : Nat} {instruction : InstructionAllocationFacts V R}
    (hat : (facts.block b).instructions[i]? = some instruction) (huse : v ∈ instruction.uses)
    (hdef : v ∈ instruction.defs) (hbefore : v ∉ defsUpTo facts b i)
    (hearlier : ¬ ∃ j < i, ∃ earlier, (facts.block b).instructions[j]? = some earlier ∧
      v ∈ earlier.uses) :
    UsedAfter facts v (.entry b) i ∧ (rowAt (solveDistances facts) (.entry b)).get v = none := by
  have hfirst : ∀ j < i, ¬ ExposedUse facts v b j := fun j hj ⟨earlier, hearly, hv, _⟩ =>
    hearlier ⟨j, hj, earlier, hearly, hv⟩
  refine ⟨.here ⟨instruction, hat, huse, hbefore⟩ hfirst, Option.eq_none_iff_forall_ne_some.mpr
    fun d hget => ?_⟩
  have hmem := (solved_ascending _).get_eq_some.mp hget
  rw [(rowAt_solved facts b).1] at hmem
  have hdefined : v ∈ defsUpTo facts b (i + 1) :=
    mem_defsUpTo.mpr (.inr ⟨i, Nat.lt_succ_self i, instruction, hat, hdef⟩)
  have hseen := (@leastOf_entry V R _ facts (solveDistances facts) b).mem _ hmem
  rcases mem_entryEntries.mp hseen with ⟨_, -, hno, -⟩ | hlocal
  · exact hno _ (.instruction hat hdef)
  · obtain ⟨j, -, hlocal⟩ := mem_localUses hlocal
    rcases Nat.lt_or_ge j i with hlt | hge
    · exact hfirst j hlt (exposedUse_of_localUse hlocal)
    · obtain ⟨_, -, -, hno⟩ := localUse_iff.mp hlocal
      exact hno (defsUpTo_mono (Nat.succ_le_succ hge) hdefined)

/-- What an analysis reports at a boundary. -/
def NextUseAnalysis.reported (analysis : NextUseAnalysis V) : Boundary → NextUseDistances V
  | .entry b => analysis.entryDistances[b]?.getD ⟨[]⟩
  | .exit b => analysis.exitDistances[b]?.getD ⟨[]⟩

/-- Another round changes nothing, and the distances are those of the nearest next uses. -/
structure ShortestDistances (facts : FunctionAllocationFacts V R) (analysis : NextUseAnalysis V) :
    Prop where
  settled : ∀ b, computeBlockDistances facts
      (fun b => (analysis.reported (.entry b), analysis.reported (.exit b))) b =
    (analysis.reported (.entry b), analysis.reported (.exit b))
  nearest : ∀ point v, Nearest (UsedAfter facts v point) ((analysis.reported point).get v)

theorem analyzeNextUses_reported (hverify : facts.verify = .ok ()) :
    ∃ analysis, analyzeNextUses facts = .ok analysis ∧
      ∀ point, analysis.reported point = rowAt (solveDistances facts) point := by
  refine ⟨_, by unfold analyzeNextUses; rw [hverify]; rfl, fun point => ?_⟩
  have hrow : ∀ (row : Nat → NextUseDistances V) (b : Nat), (facts.blocks.length ≤ b → row b = ⟨[]⟩) →
      (((List.range facts.blocks.length).map row)[b]?).getD ⟨[]⟩ = row b := by
    intro row b houtside
    rcases Nat.lt_or_ge b facts.blocks.length with hb | hb
    · simp [hb]
    · rw [List.getElem?_eq_none (by simpa using hb), houtside hb, Option.getD_none]
  cases point with
  | entry b =>
    rw [rowAt, NextUseAnalysis.reported]
    exact hrow (fun b => (solveDistances facts b).1) b fun hb => by rw [solveDistances_outside hb]
  | exit b =>
    rw [rowAt, NextUseAnalysis.reported]
    exact hrow (fun b => (solveDistances facts b).2) b fun hb => by rw [solveDistances_outside hb]

/-- The distances are the shortest ones if and only if no instruction hides a first use of its own. -/
theorem analyzeNextUses_shortest_iff (hverify : facts.verify = .ok ()) (hshort : ShortBlocks facts) :
    ∃ analysis, analyzeNextUses facts = .ok analysis ∧
      (ShortestDistances facts analysis ↔ NoHiddenUse facts) := by
  obtain ⟨analysis, hok, hreported⟩ := analyzeNextUses_reported hverify
  refine ⟨analysis, hok, fun h => ?_, fun hhidden => ⟨fun b => ?_, fun point v => ?_⟩⟩
  · intro v b i instruction hat huse hdef
    by_contra hnot
    obtain ⟨hbefore, hearlier⟩ := not_or.mp hnot
    obtain ⟨hpath, hnone⟩ := solved_hidden hat huse hdef hbefore hearlier
    have hnearest := h.nearest (.entry b) v
    rw [hreported, hnone] at hnearest
    exact hnearest i hpath
  · have hrow : ∀ b, (analysis.reported (.entry b), analysis.reported (.exit b)) =
        solveDistances facts b := fun b => by rw [hreported, hreported, rowAt_pair]
    rw [hrow b, funext hrow]
    exact (solveDistances_eq facts b).symm
  · rw [hreported]
    exact solved_nearest hhidden hshort point v

/-- A loop whose value is used in its body, and behind it. -/
def loopFacts : FunctionAllocationFacts Nat Nat where
  entry := 0
  blocks := [⟨[1], [], [{ defs := [0] }]⟩, ⟨[1, 2], [], [{}, { uses := [0] }]⟩,
    ⟨[], [], [{ uses := [0] }]⟩]

theorem analyzeNextUses_shortest_loop :
    ∃ analysis, analyzeNextUses loopFacts = .ok analysis ∧
      (ShortestDistances loopFacts analysis ↔ NoHiddenUse loopFacts) := by
  refine analyzeNextUses_shortest_iff rfl fun b => ?_
  match b with
  | 0 | 1 | 2 => decide
  | b + 3 => exact Nat.two_pow_pos 32

/-- An instruction that uses a value and defines it again. -/
def rewriteFacts : FunctionAllocationFacts Nat Nat where
  entry := 0
  blocks := [⟨[], [], [{ uses := [0], defs := [0] }]⟩]

/-- The use is reached at once, and there is no distance for it. -/
theorem rewriteFacts_unreported :
    rewriteFacts.verify = .ok () ∧ UsedAfter rewriteFacts 0 (.entry 0) 0 ∧
      ∃ analysis, analyzeNextUses rewriteFacts = .ok analysis ∧
        (analysis.reported (.entry 0)).get 0 = none ∧ ¬ ShortestDistances rewriteFacts analysis := by
  obtain ⟨hpath, hnone⟩ := @solved_hidden Nat Nat _ rewriteFacts 0 0 0 _ rfl
    (List.mem_singleton_self 0) (List.mem_singleton_self 0) (by decide) (by simp)
  obtain ⟨analysis, hok, hreported⟩ := @analyzeNextUses_reported Nat Nat _ rewriteFacts rfl
  refine ⟨rfl, hpath, analysis, hok, by rw [hreported, hnone], fun h => ?_⟩
  have hnearest := h.nearest (.entry 0) 0
  rw [hreported, hnone] at hnearest
  exact hnearest 0 hpath

end Reported
end Celox.Liveness
