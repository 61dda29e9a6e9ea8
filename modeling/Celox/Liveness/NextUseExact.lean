import Celox.Liveness.NextUse

/-! # What next uses are found

The values with a distance solve the liveness equations, with the one difference that an
instruction's definitions hide its own uses. -/
namespace Celox.Liveness
open Celox.Data

section Blocks
variable {V R : Type} [LinearOrder V] {facts : FunctionAllocationFacts V R} {v : V} {b : Nat}

/-- An instruction uses the value, and neither a phi nor an instruction up to it defines it. -/
def LocalUse (facts : FunctionAllocationFacts V R) (v : V) (b i : Nat) : Prop :=
  ∃ instruction, (facts.block b).instructions[i]? = some instruction ∧ v ∈ instruction.uses ∧
    NoDef facts v b 0 (3 * i + 4)

/-- The definitions of the phis and of the first instructions. -/
def defsUpTo (facts : FunctionAllocationFacts V R) (b n : Nat) : Finset V :=
  ((facts.block b).phis.map (·.destination)).toFinset ∪
    (((facts.block b).instructions.take n).flatMap (·.defs)).toFinset

theorem mem_defsUpTo {n : Nat} : v ∈ defsUpTo facts b n ↔
    (∃ phi ∈ (facts.block b).phis, phi.destination = v) ∨ ∃ j < n, ∃ instruction,
      (facts.block b).instructions[j]? = some instruction ∧ v ∈ instruction.defs := by
  simp only [defsUpTo, Finset.mem_union, List.mem_toFinset, List.mem_map, List.mem_flatMap]
  refine or_congr_right ?_
  constructor
  · rintro ⟨instruction, hmem, hv⟩
    obtain ⟨j, hj⟩ := List.getElem?_of_mem hmem
    rw [List.getElem?_take] at hj
    split at hj
    · rename_i hlt
      exact ⟨j, hlt, instruction, hj, hv⟩
    · cases hj
  · rintro ⟨j, hlt, instruction, hj, hv⟩
    refine ⟨instruction, List.mem_of_getElem? (i := j) ?_, hv⟩
    rw [List.getElem?_take, if_pos hlt]
    exact hj

theorem not_mem_defsUpTo {n : Nat} : v ∉ defsUpTo facts b n ↔ NoDef facts v b 0 (3 * n + 1) := by
  rw [mem_defsUpTo, not_or]
  constructor
  · rintro ⟨hphi, hinstruction⟩ d hd
    cases hd with
    | phi hmem hdest => exact absurd ⟨_, hmem, hdest⟩ hphi
    | @instruction _ j _ hj hv =>
      have : ¬ j < n := fun hlt => hinstruction ⟨j, hlt, _, hj, hv⟩
      omega
  · refine fun hno => ⟨?_, ?_⟩
    · rintro ⟨phi, hmem, hdest⟩
      have := hno 1 (.phi hmem hdest)
      omega
    · rintro ⟨j, hlt, instruction, hj, hv⟩
      have := hno (3 * j + 4) (.instruction hj hv)
      omega

theorem mem_foldl_insert {defs : List V} {start : Finset V} :
    v ∈ defs.foldl (fun defs definition => insert definition defs) start ↔
      v ∈ start ∨ v ∈ defs := by
  induction defs generalizing start with
  | nil => simp
  | cons first defs ih =>
    rw [List.foldl_cons, ih, Finset.mem_insert, List.mem_cons]
    tauto

/-- What the fold over the instructions has after `n` of them. -/
structure Transferred (facts : FunctionAllocationFacts V R) (b n : Nat)
    (state : Finset V × List (V × Nat)) : Prop where
  defs : state.1 = defsUpTo facts b n
  uses : ∀ v d, (v, d) ∈ state.2 ↔ ∃ i < n, d = i % 2 ^ 32 ∧ LocalUse facts v b i

theorem Transferred.step {n : Nat} {state : Finset V × List (V × Nat)}
    {instruction : InstructionAllocationFacts V R} (h : Transferred facts b n state)
    (hn : (facts.block b).instructions[n]? = some instruction) :
    Transferred facts b (n + 1) (transferInstruction state (instruction, n)) := by
  have hdefs : instruction.defs.foldl (fun defs definition => insert definition defs) state.1 =
      defsUpTo facts b (n + 1) := by
    ext w
    rw [mem_foldl_insert, h.defs, mem_defsUpTo, mem_defsUpTo, or_assoc]
    refine or_congr_right ?_
    constructor
    · rintro (⟨j, hj, other, hother, hw⟩ | hw)
      · exact ⟨j, Nat.lt_succ_of_lt hj, other, hother, hw⟩
      · exact ⟨n, Nat.lt_succ_self n, instruction, hn, hw⟩
    · rintro ⟨j, hj, other, hother, hw⟩
      rcases Nat.lt_succ_iff_lt_or_eq.mp hj with hj | rfl
      · exact .inl ⟨j, hj, other, hother, hw⟩
      · rw [hn, Option.some.injEq] at hother
        exact .inr (hother ▸ hw)
  refine ⟨hdefs, fun w d => ?_⟩
  unfold transferInstruction
  dsimp only
  rw [hdefs, List.mem_append, h.uses]
  have hlocal : LocalUse facts w b n ↔ w ∈ instruction.uses ∧ w ∉ defsUpTo facts b (n + 1) := by
    unfold LocalUse
    rw [hn, not_mem_defsUpTo]
    simp only [Option.some.injEq, exists_eq_left']
    rfl
  simp only [List.mem_map, List.mem_filter, decide_eq_true_eq, Prod.mk.injEq]
  constructor
  · rintro (⟨i, hi, hd, hw⟩ | ⟨u, hu, rfl, rfl⟩)
    · exact ⟨i, Nat.lt_succ_of_lt hi, hd, hw⟩
    · exact ⟨n, Nat.lt_succ_self n, rfl, hlocal.mpr hu⟩
  · rintro ⟨i, hi, rfl, hw⟩
    rcases Nat.lt_succ_iff_lt_or_eq.mp hi with hi | rfl
    · exact .inl ⟨i, hi, rfl, hw⟩
    · exact .inr ⟨w, hlocal.mp hw, rfl, rfl⟩

theorem transferred_all (facts : FunctionAllocationFacts V R) (b : Nat) :
    Transferred facts b (facts.block b).instructions.length
      ((facts.block b).instructions.zipIdx.foldl transferInstruction
        (((facts.block b).phis.map (·.destination)).toFinset, [])) := by
  have hrun : ∀ (rest : List (InstructionAllocationFacts V R)) (n : Nat)
      (state : Finset V × List (V × Nat)), (facts.block b).instructions.drop n = rest →
      n + rest.length = (facts.block b).instructions.length → Transferred facts b n state →
      Transferred facts b (facts.block b).instructions.length
        ((rest.zipIdx n).foldl transferInstruction state) := by
    intro rest
    induction rest with
    | nil =>
      intro n state _ hlen h
      rw [List.length_nil, Nat.add_zero] at hlen
      exact hlen ▸ h
    | cons instruction rest ih =>
      intro n state hdrop hlen h
      have hn : (facts.block b).instructions[n]? = some instruction := by
        have := congrArg (·[0]?) hdrop
        simpa using this
      rw [List.zipIdx_cons, List.foldl_cons]
      refine ih (n + 1) _ ?_ (by rw [List.length_cons] at hlen; omega) (h.step hn)
      rw [← List.drop_drop, hdrop, List.drop_one, List.tail_cons]
  refine hrun _ 0 _ rfl (Nat.zero_add _) ⟨?_, fun v d => ?_⟩
  · simp [defsUpTo]
  · simp

theorem transfer_defs : (computeBlockTransfer facts b).defs =
    defsUpTo facts b (facts.block b).instructions.length :=
  (transferred_all facts b).defs

theorem mem_transfer_defs : v ∈ (computeBlockTransfer facts b).defs ↔
    ∃ d, DefinesAt facts v (b, d) := by
  rw [transfer_defs, ← not_iff_not, not_mem_defsUpTo, not_exists]
  constructor
  · intro hno d hd
    have hlt := hd.lt
    have hpos := hd.pos
    have := hno d hd
    unfold exitSlot at hlt
    omega
  · exact fun hno d hd => absurd hd (hno d)

/-- Each value with a local use, at the position of the first one. -/
theorem transfer_localUses (facts : FunctionAllocationFacts V R) (b : Nat) : ∃ raw : List (V × Nat),
    (∀ v d, (v, d) ∈ raw ↔ ∃ i < (facts.block b).instructions.length, d = i % 2 ^ 32 ∧
      LocalUse facts v b i) ∧ LeastOf raw ⟨(computeBlockTransfer facts b).localUses⟩ := by
  refine ⟨_, (transferred_all facts b).uses, ?_⟩
  unfold computeBlockTransfer
  dsimp only
  generalize ((facts.block b).instructions.zipIdx.foldl transferInstruction
    (((facts.block b).phis.map (·.destination)).toFinset, [])).2 = raw
  have hle : ∀ a b : V × Nat, entryLe a b = true ↔ a.1 < b.1 ∨ a.1 = b.1 ∧ a.2 ≤ b.2 := by
    intro a b
    rw [entryLe, Bool.or_eq_true, Bool.and_eq_true, decide_eq_true_eq, decide_eq_true_eq,
      decide_eq_true_eq]
  have hsorted : (raw.insertionSort (entryLe · ·)).Pairwise fun a b => entryLe a b = true := by
    have : Std.Total fun a b : V × Nat => entryLe a b = true := ⟨fun a b => by
      rw [hle, hle]
      rcases lt_trichotomy a.1 b.1 with h | h | h
      · exact .inl (.inl h)
      · rcases Nat.le_total a.2 b.2 with h' | h'
        · exact .inl (.inr ⟨h, h'⟩)
        · exact .inr (.inr ⟨h.symm, h'⟩)
      · exact .inr (.inl h)⟩
    have : IsTrans (V × Nat) fun a b => entryLe a b = true := ⟨fun a b c hab hbc => by
      rw [hle] at hab hbc ⊢
      rcases hab with hab | ⟨hab, hab'⟩
      · rcases hbc with hbc | ⟨hbc, -⟩
        · exact .inl (hab.trans hbc)
        · exact .inl (hbc ▸ hab)
      · rcases hbc with hbc | ⟨hbc, hbc'⟩
        · exact .inl (hab ▸ hbc)
        · exact .inr ⟨hab.trans hbc, hab'.trans hbc'⟩⟩
    exact List.pairwise_insertionSort _ raw
  have hkeys : (raw.insertionSort (entryLe · ·)).Pairwise fun a b => a.1 ≤ b.1 := by
    refine hsorted.imp fun hab => ?_
    rcases (hle _ _).mp hab with hab | ⟨hab, -⟩
    · exact hab.le
    · exact hab.le
  have hfirst : (raw.insertionSort (entryLe · ·)).Pairwise fun a b =>
      a.1 = b.1 → (fun first _ => first) a.2 b.2 = min a.2 b.2 := by
    refine hsorted.imp fun hab heq => ?_
    rcases (hle _ _).mp hab with hab | ⟨-, hab⟩
    · exact absurd heq hab.ne
    · exact (min_eq_left hab).symm
  have hmin := (MinOf.nil (V := V)).foldl (fun first _ => first) _ hkeys hfirst
  exact hmin.reverse fun e => List.mem_insertionSort _

omit [LinearOrder V] in
theorem mem_phiEdgeUses {c : Nat} (hc : c ∈ facts.successors b) :
    v ∈ phiEdgeUses facts b c ↔ EdgeUse facts v b c := by
  simp only [phiEdgeUses, EdgeUse, List.mem_flatMap, List.mem_map, List.mem_filter,
    decide_eq_true_eq, hc, true_and]
  constructor
  · rintro ⟨phi, hphi, source, ⟨hsource, hb⟩, rfl⟩
    exact ⟨phi, hphi, source, hsource, hb, rfl⟩
  · rintro ⟨phi, hphi, source, hsource, hb, rfl⟩
    exact ⟨phi, hphi, source, ⟨hsource, hb⟩, rfl⟩

end Blocks

/-! ## The solved distances

Distances only fall, so the worklist ends in a solution; the values that have one are live. -/

section Order
variable {V : Type} [LinearOrder V] {near far : NextUseDistances V} {values : Finset V}
  {v : V}

/-- Whatever has a distance has one that is no greater on the other side. -/
def Closer (far near : NextUseDistances V) : Prop :=
  ∀ e ∈ far.entries, ∃ d ≤ e.2, (e.1, d) ∈ near.entries

omit [LinearOrder V] in
theorem Closer.refl (far : NextUseDistances V) : Closer far far := fun e he => ⟨e.2, le_rfl, he⟩

omit [LinearOrder V] in
theorem Closer.trans {nearest : NextUseDistances V} (h : Closer far near)
    (h' : Closer near nearest) : Closer far nearest := by
  intro e he
  obtain ⟨d, hd, hmem⟩ := h e he
  obtain ⟨d', hd', hmem'⟩ := h' _ hmem
  exact ⟨d', hd'.trans hd, hmem'⟩

theorem LeastOf.closer {raw raw' : List (V × Nat)} (h : LeastOf raw far) (h' : LeastOf raw' near)
    (hraw : ∀ e ∈ raw, ∃ d ≤ e.2, (e.1, d) ∈ raw') : Closer far near := by
  intro e he
  obtain ⟨d, hd, hmem⟩ := hraw e (h.mem e he)
  obtain ⟨d', hd', hmem'⟩ := h'.least _ hmem
  exact ⟨d', hd'.trans hd, hmem'⟩

/-- Sorted `u32` distances of some of the given values. -/
structure Admitted (values : Finset V) (distances : NextUseDistances V) : Prop where
  ascending : distances.Ascending
  within : ∀ e ∈ distances.entries, e.1 ∈ values
  lt : ∀ e ∈ distances.entries, e.2 < 2 ^ 32

def nearness : Option Nat → Nat
  | none => 0
  | some d => 2 ^ 32 - d

theorem nearness_le (d : Option Nat) : nearness d ≤ 2 ^ 32 := by
  cases d with
  | none => exact Nat.zero_le _
  | some d => exact Nat.sub_le _ _

theorem Closer.nearness (hfar : Admitted values far) (hnear : Admitted values near)
    (h : Closer far near) (v : V) : nearness (far.get v) ≤ nearness (near.get v) ∧
      (far.get v ≠ near.get v →
        Liveness.nearness (far.get v) < Liveness.nearness (near.get v)) := by
  cases hget : far.get v with
  | none =>
    refine ⟨Nat.zero_le _, fun hne => ?_⟩
    cases hget' : near.get v with
    | none => exact absurd hget'.symm hne
    | some d =>
      have := hnear.lt _ (hnear.ascending.get_eq_some.mp hget')
      exact Nat.sub_pos_of_lt this
  | some d =>
    have hmem := hfar.ascending.get_eq_some.mp hget
    obtain ⟨d', hd', hmem'⟩ := h _ hmem
    have hget' := hnear.ascending.get_eq_some.mpr hmem'
    have hlt := hfar.lt _ hmem
    dsimp only at hd' hlt
    rw [hget']
    refine ⟨Nat.sub_le_sub_left hd' _, fun hne => ?_⟩
    have hless : d' < d := lt_of_le_of_ne hd' fun heq => hne (congrArg some heq.symm)
    exact Nat.sub_lt_sub_left (hless.trans hlt) hless

def distanceRank (values : Finset V) (distances : NextUseDistances V) : Nat :=
  ∑ v ∈ values, nearness (distances.get v)

theorem distanceRank_le (values : Finset V) (distances : NextUseDistances V) :
    distanceRank values distances ≤ values.card * 2 ^ 32 := by
  have := Finset.sum_le_card_nsmul values (fun v => nearness (distances.get v)) (2 ^ 32)
    fun v _ => nearness_le _
  simpa [distanceRank] using this

theorem Closer.rank_le (hfar : Admitted values far) (hnear : Admitted values near)
    (h : Closer far near) : distanceRank values far ≤ distanceRank values near :=
  Finset.sum_le_sum fun v _ => (h.nearness hfar hnear v).1

theorem Closer.rank_lt (hfar : Admitted values far) (hnear : Admitted values near)
    (h : Closer far near) (hne : far ≠ near) :
    distanceRank values far < distanceRank values near := by
  have hdiff : ∃ v, far.get v ≠ near.get v := by
    by_contra hnone
    exact hne (hfar.ascending.ext hnear.ascending (not_exists_not.mp hnone))
  obtain ⟨v, hv⟩ := hdiff
  have hmem : v ∈ values := by
    cases hget : near.get v with
    | some d => exact hnear.within _ (hnear.ascending.get_eq_some.mp hget)
    | none =>
      cases hget' : far.get v with
      | some d => exact hfar.within _ (hfar.ascending.get_eq_some.mp hget')
      | none => exact absurd (hget'.trans hget.symm) hv
  exact Finset.sum_lt_sum (fun w _ => (h.nearness hfar hnear w).1)
    ⟨v, hmem, (h.nearness hfar hnear v).2 hv⟩

end Order

/-! ## One round -/

section Round
variable {V R : Type} [LinearOrder V] {facts : FunctionAllocationFacts V R}
  {distances distances' : Nat → NextUseDistances V × NextUseDistances V} {v : V} {b d : Nat}

/-- What the exit of a block sees through its edges. -/
def exitEntries (facts : FunctionAllocationFacts V R)
    (distances : Nat → NextUseDistances V × NextUseDistances V) (b : Nat) : List (V × Nat) :=
  (facts.successors b).flatMap (edgeEntries facts (fun b => (distances b).1) b)

omit [LinearOrder V] in
theorem mem_exitEntries : (v, d) ∈ exitEntries facts distances b ↔
    ∃ c ∈ facts.successors b,
      (∃ d', (v, d') ∈ (distances c).1.entries ∧ saturatingAdd d' (edgeLength facts b c) = d) ∨
        EdgeUse facts v b c ∧ edgeLength facts b c = d := by
  simp only [exitEntries, edgeEntries, List.mem_flatMap, List.mem_append, List.mem_map,
    Prod.mk.injEq]
  refine exists_congr fun c => and_congr_right fun hc => or_congr ?_ ?_
  · constructor
    · rintro ⟨e, he, rfl, hd⟩
      exact ⟨e.2, he, hd⟩
    · rintro ⟨d', he, hd⟩
      exact ⟨(v, d'), he, rfl, hd⟩
  · constructor
    · rintro ⟨w, hw, rfl, hd⟩
      exact ⟨(mem_phiEdgeUses hc).mp hw, hd⟩
    · rintro ⟨hw, hd⟩
      exact ⟨v, (mem_phiEdgeUses hc).mpr hw, rfl, hd⟩

theorem leastOf_exit : LeastOf (exitEntries facts distances b)
    (computeBlockDistances facts distances b).2 :=
  leastOf_fromMinEntries _

/-- What the entry of a block sees: its local uses, and what passes through it. -/
def entryEntries (facts : FunctionAllocationFacts V R)
    (distances : Nat → NextUseDistances V × NextUseDistances V) (b : Nat) : List (V × Nat) :=
  let transfer := computeBlockTransfer facts b
  (((computeBlockDistances facts distances b).2.entries.filter fun entry =>
    entry.1 ∉ transfer.defs).map fun entry =>
      (entry.1, saturatingAdd transfer.blockLen entry.2)) ++ transfer.localUses

theorem mem_entryEntries : (v, d) ∈ entryEntries facts distances b ↔
    (∃ d', (v, d') ∈ (computeBlockDistances facts distances b).2.entries ∧
      (∀ s, ¬ DefinesAt facts v (b, s)) ∧
        saturatingAdd (computeBlockTransfer facts b).blockLen d' = d) ∨
      (v, d) ∈ (computeBlockTransfer facts b).localUses := by
  simp only [entryEntries, List.mem_append, List.mem_map, List.mem_filter, decide_eq_true_eq,
    mem_transfer_defs, not_exists, Prod.mk.injEq]
  refine or_congr_left ?_
  constructor
  · rintro ⟨e, ⟨he, hdef⟩, rfl, hd⟩
    exact ⟨e.2, he, hdef, hd⟩
  · rintro ⟨d', he, hdef, hd⟩
    exact ⟨(v, d'), ⟨he, hdef⟩, rfl, hd⟩

theorem leastOf_entry : LeastOf (entryEntries facts distances b)
    (computeBlockDistances facts distances b).1 :=
  leastOf_fromMinEntries _

theorem saturatingAdd_lt (a b : Nat) : saturatingAdd a b < 2 ^ 32 := by
  unfold saturatingAdd
  omega

theorem saturatingAdd_mono {a a' b b' : Nat} (ha : a ≤ a') (hb : b ≤ b') :
    saturatingAdd a b ≤ saturatingAdd a' b' := by
  unfold saturatingAdd
  omega

omit [LinearOrder V] in
theorem edgeLength_lt (b c : Nat) : edgeLength facts b c < 2 ^ 32 := by
  unfold edgeLength loopExitLength
  split <;> omega

def CloserPair (far near : NextUseDistances V × NextUseDistances V) : Prop :=
  Closer far.1 near.1 ∧ Closer far.2 near.2

theorem computeBlockDistances_mono (h : ∀ b, CloserPair (distances b) (distances' b)) (b : Nat) :
    CloserPair (computeBlockDistances facts distances b)
      (computeBlockDistances facts distances' b) := by
  have hexit : Closer (computeBlockDistances facts distances b).2
      (computeBlockDistances facts distances' b).2 := by
    refine leastOf_exit.closer leastOf_exit fun e he => ?_
    obtain ⟨w, k⟩ := e
    obtain ⟨c, hc, ⟨d', hd', hk⟩ | ⟨hedge, hk⟩⟩ := mem_exitEntries.mp he
    · obtain ⟨d'', hle, hmem⟩ := (h c).1 _ hd'
      refine ⟨_, ?_, mem_exitEntries.mpr ⟨c, hc, .inl ⟨d'', hmem, rfl⟩⟩⟩
      rw [← hk]
      exact saturatingAdd_mono hle le_rfl
    · exact ⟨k, le_rfl, mem_exitEntries.mpr ⟨c, hc, .inr ⟨hedge, hk⟩⟩⟩
  refine ⟨leastOf_entry.closer leastOf_entry fun e he => ?_, hexit⟩
  obtain ⟨w, k⟩ := e
  rcases mem_entryEntries.mp he with ⟨d', hd', hdef, hk⟩ | hlocal
  · obtain ⟨d'', hle, hmem⟩ := hexit _ hd'
    refine ⟨_, ?_, mem_entryEntries.mpr (.inl ⟨d'', hmem, hdef, rfl⟩)⟩
    rw [← hk]
    exact saturatingAdd_mono le_rfl hle
  · exact ⟨k, le_rfl, mem_entryEntries.mpr (.inr hlocal)⟩

theorem mem_localUses (h : (v, d) ∈ (computeBlockTransfer facts b).localUses) :
    ∃ i, d = i % 2 ^ 32 ∧ LocalUse facts v b i := by
  obtain ⟨raw, hraw, hleast⟩ := transfer_localUses facts b
  obtain ⟨i, -, hd, huse⟩ := (hraw v d).mp (hleast.mem _ h)
  exact ⟨i, hd, huse⟩

omit [LinearOrder V] in
theorem mem_mentionedValues_of_edge {c : Nat} (h : EdgeUse facts v b c) :
    v ∈ mentionedValues facts := by
  obtain ⟨-, phi, hphi, source, hsource, -, rfl⟩ := h
  exact List.mem_flatMap.mpr ⟨c, List.mem_range.mpr (lt_of_phi hphi), List.mem_append_right _
    (List.mem_flatMap.mpr ⟨phi, hphi, List.mem_map.mpr ⟨source, hsource, rfl⟩⟩)⟩

omit [LinearOrder V] in
theorem mem_mentionedValues_of_local {i : Nat} (h : LocalUse facts v b i) :
    v ∈ mentionedValues facts := by
  obtain ⟨instruction, hi, hv, -⟩ := h
  exact List.mem_flatMap.mpr ⟨b, List.mem_range.mpr (lt_of_instruction hi), List.mem_append_left _
    (List.mem_flatMap.mpr ⟨instruction, List.mem_of_getElem? hi, hv⟩)⟩

def AdmittedPair (facts : FunctionAllocationFacts V R)
    (pair : NextUseDistances V × NextUseDistances V) : Prop :=
  Admitted (mentionedValues facts).toFinset pair.1 ∧
    Admitted (mentionedValues facts).toFinset pair.2

theorem computeBlockDistances_admitted (h : ∀ b, AdmittedPair facts (distances b)) (b : Nat) :
    AdmittedPair facts (computeBlockDistances facts distances b) := by
  have hexit : Admitted (mentionedValues facts).toFinset
      (computeBlockDistances facts distances b).2 := by
    refine ⟨leastOf_exit.ascending, fun e he => ?_, fun e he => ?_⟩
    · obtain ⟨c, hc, ⟨d', hd', -⟩ | ⟨hedge, -⟩⟩ := mem_exitEntries.mp (leastOf_exit.mem e he)
      · exact (h c).1.within (e.1, d') hd'
      · exact List.mem_toFinset.mpr (mem_mentionedValues_of_edge hedge)
    · obtain ⟨c, hc, ⟨d', hd', hk⟩ | ⟨hedge, hk⟩⟩ := mem_exitEntries.mp (leastOf_exit.mem e he)
      · exact hk ▸ saturatingAdd_lt _ _
      · exact hk ▸ edgeLength_lt _ _
  refine ⟨⟨leastOf_entry.ascending, fun e he => ?_, fun e he => ?_⟩, hexit⟩
  · rcases mem_entryEntries.mp (leastOf_entry.mem e he) with ⟨d', hd', -, -⟩ | hlocal
    · exact hexit.within (e.1, d') hd'
    · obtain ⟨i, -, huse⟩ := mem_localUses hlocal
      exact List.mem_toFinset.mpr (mem_mentionedValues_of_local huse)
  · rcases mem_entryEntries.mp (leastOf_entry.mem e he) with ⟨d', hd', -, hk⟩ | hlocal
    · exact hk ▸ saturatingAdd_lt _ _
    · obtain ⟨i, hk, -⟩ := mem_localUses hlocal
      exact hk ▸ Nat.mod_lt _ (by decide)

theorem computeBlockDistances_congr (h : ∀ c ∈ facts.successors b, distances c = distances' c) :
    computeBlockDistances facts distances b = computeBlockDistances facts distances' b := by
  have hentries : (facts.successors b).flatMap (edgeEntries facts (fun b => (distances b).1) b) =
      (facts.successors b).flatMap (edgeEntries facts (fun b => (distances' b).1) b) := by
    refine List.flatMap_congr fun c hc => ?_
    unfold edgeEntries
    dsimp only
    rw [h c hc]
  unfold computeBlockDistances
  rw [hentries]

theorem computeBlockDistances_outside (hb : facts.blocks.length ≤ b) :
    computeBlockDistances facts distances b = (⟨[]⟩, ⟨[]⟩) := by
  unfold computeBlockDistances computeBlockTransfer FunctionAllocationFacts.successors
  rw [block_of_length_le hb]
  rfl

end Round

section Solved
variable {V R : Type} [LinearOrder V] {facts : FunctionAllocationFacts V R} {v : V} {b : Nat}

def pairRank (facts : FunctionAllocationFacts V R)
    (pair : NextUseDistances V × NextUseDistances V) : Nat :=
  distanceRank (mentionedValues facts).toFinset pair.1 +
    distanceRank (mentionedValues facts).toFinset pair.2

theorem pairRank_lt {far near : NextUseDistances V × NextUseDistances V}
    (hfar : AdmittedPair facts far) (hnear : AdmittedPair facts near) (h : CloserPair far near)
    (hne : far ≠ near) : pairRank facts far < pairRank facts near := by
  unfold pairRank
  have hfst := h.1.rank_le hfar.1 hnear.1
  have hsnd := h.2.rank_le hfar.2 hnear.2
  by_cases hsame : far.1 = near.1
  · have := h.2.rank_lt hfar.2 hnear.2 fun heq => hne (Prod.ext hsame heq)
    omega
  · have := h.1.rank_lt hfar.1 hnear.1 hsame
    omega

theorem pairRank_le (pair : NextUseDistances V × NextUseDistances V) :
    pairRank facts pair ≤ 2 * ((mentionedValues facts).length * 2 ^ 32) := by
  have hcard := Nat.mul_le_mul_right (2 ^ 32) (mentionedValues facts).toFinset_card_le
  have hfst := distanceRank_le (mentionedValues facts).toFinset pair.1
  have hsnd := distanceRank_le (mentionedValues facts).toFinset pair.2
  unfold pairRank
  omega

theorem admitted_empty (values : Finset V) : Admitted values (⟨[]⟩ : NextUseDistances V) :=
  ⟨List.Pairwise.nil, by simp, by simp⟩

theorem solveDistances_solves (hb : b < facts.blocks.length) :
    computeBlockDistances facts (solveDistances facts) b = solveDistances facts b := by
  refine worklist_climbs CloserPair (List.range facts.blocks.length) (pairRank facts)
    (2 * ((mentionedValues facts).length * 2 ^ 32)) (fun _ => ⟨.refl _, .refl _⟩)
    (fun _ _ _ h h' => ⟨h.1.trans h'.1, h.2.trans h'.2⟩)
    (fun _ _ => computeBlockDistances_mono) (fun _ => computeBlockDistances_admitted)
    (fun _ _ => pairRank_lt) (fun pair _ => pairRank_le pair) ?_ ?_ ?_ List.nodup_range ?_ b
    (List.mem_range.mpr hb)
  · intro distances node next other hother hout
    refine computeBlockDistances_congr fun c hc => ?_
    have hne : c ≠ node := fun heq =>
      hout (mem_predecessors.mpr ⟨List.mem_range.mp hother, heq ▸ hc⟩)
    rw [Function.update_of_ne hne]
  · exact fun _ _ _ hother => List.mem_range.mpr (mem_predecessors.mp hother).1
  · refine ⟨fun _ => ⟨fun e he => ?_, fun e he => ?_⟩,
      fun _ => ⟨admitted_empty _, admitted_empty _⟩⟩
    · cases he
    · cases he
  · rw [List.length_range]

theorem solveDistances_outside (hb : facts.blocks.length ≤ b) :
    solveDistances facts b = (⟨[]⟩, ⟨[]⟩) := by
  refine worklist_invariant
    (P := fun distances : Nat → NextUseDistances V × NextUseDistances V =>
      distances b = (⟨[]⟩, ⟨[]⟩))
    (fun distances node h => ?_) rfl _ _
  by_cases hnode : b = node
  · subst hnode
    rw [Function.update_self, computeBlockDistances_outside hb]
  · rw [Function.update_of_ne hnode, h]

theorem solveDistances_eq (facts : FunctionAllocationFacts V R) (b : Nat) :
    solveDistances facts b = computeBlockDistances facts (solveDistances facts) b := by
  rcases Nat.lt_or_ge b facts.blocks.length with hb | hb
  · exact (solveDistances_solves hb).symm
  · rw [solveDistances_outside hb, computeBlockDistances_outside hb]

end Solved
end Celox.Liveness
