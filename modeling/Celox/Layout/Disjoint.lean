import Celox.Layout.Build

/-! # Objects of a layout share bytes only through aliases

An accepted alias takes the home its canonical object has when the pair is applied, in the order
of the alias addresses. -/
namespace Celox.Layout
open Celox.Memory Relation

section Aliases
variable {A : Type} [LinearOrder A] {input : LayoutInput A} {fourState : Bool}

/-! ## Accepted pairs -/

/-- The pairs that pass the checks of the layout. -/
structure Accepted (input : LayoutInput A) (fourState : Bool) (aliased canonical : A) : Prop where
  pair : (aliased, canonical) ∈ input.requirements.stateAliases
  fourstate : fourstateOk fourState (is4statesOf input) aliased canonical = true
  fits : aliasFits (widthsOf input) aliased canonical = true
  unreferenced : aliased ∉ input.ffReferencedAddresses

theorem Accepted.widths {aliased canonical : A} (h : Accepted input fourState aliased canonical) :
    ∃ w w', widthsOf input aliased = some w ∧ widthsOf input canonical = some w' ∧ w ≤ w' := by
  have hfits := h.fits
  unfold aliasFits at hfits
  split at hfits
  · rename_i w w' hw hw'
    exact ⟨w, w', hw, hw', by simpa using hfits⟩
  · cases hfits

abbrev aliasStep (input : LayoutInput A) (fourState : Bool) (offsets : A → Option Nat)
    (pair : A × A) : A → Option Nat :=
  applyAlias fourState (widthsOf input) (is4statesOf input) input.ffReferencedAddresses offsets pair

/-- A pair changes nothing, or it is accepted and moves its alias. -/
theorem aliasStep_cases (fourState : Bool) (offsets : A → Option Nat) {aliased canonical : A}
    (hmem : (aliased, canonical) ∈ input.requirements.stateAliases) :
    (aliasStep input fourState offsets (aliased, canonical) = offsets ∧
        (offsets canonical = none ∨ ¬ Accepted input fourState aliased canonical)) ∨
      (Accepted input fourState aliased canonical ∧
        aliasStep input fourState offsets (aliased, canonical) =
          Function.update offsets aliased (offsets canonical)) := by
  unfold aliasStep applyAlias
  dsimp only
  split
  · rename_i hguard
    simp only [Bool.and_eq_true, Bool.not_eq_true', List.contains_eq_mem, decide_eq_false_iff_not]
      at hguard
    have haccepted : Accepted input fourState aliased canonical :=
      ⟨hmem, hguard.1.1, hguard.1.2, hguard.2⟩
    cases hc : offsets canonical with
    | none => exact .inl ⟨rfl, .inl rfl⟩
    | some o => exact .inr ⟨haccepted, rfl⟩
  · rename_i hguard
    refine .inl ⟨rfl, .inr fun h => hguard ?_⟩
    simp [h.fourstate, h.fits, h.unreferenced]

/-! ## Homes -/

/-- Every object has the home of an object that accepted pairs lead to. -/
def Homes (input : LayoutInput A) (fourState : Bool) (home offsets : A → Option Nat) : Prop :=
  ∃ root : A → A, ∀ a, offsets a = home (root a) ∧
    ReflTransGen (Accepted input fourState) a (root a)

theorem Homes.step {home offsets : A → Option Nat} (h : Homes input fourState home offsets)
    {pair : A × A} (hmem : pair ∈ input.requirements.stateAliases) :
    Homes input fourState home (aliasStep input fourState offsets pair) := by
  obtain ⟨aliased, canonical⟩ := pair
  rcases aliasStep_cases fourState offsets hmem with ⟨hsame, -⟩ | ⟨hacc, hmove⟩
  · rwa [hsame]
  · obtain ⟨root, hroot⟩ := h
    refine ⟨Function.update root aliased (root canonical), fun a => ?_⟩
    rw [hmove, Function.update_apply, Function.update_apply]
    split
    · rename_i ha
      subst ha
      exact ⟨(hroot canonical).1, .head hacc (hroot canonical).2⟩
    · exact hroot a

theorem Homes.foldl {home offsets : A → Option Nat} (h : Homes input fourState home offsets)
    {pairs : List (A × A)} (hmem : ∀ pair ∈ pairs, pair ∈ input.requirements.stateAliases) :
    Homes input fourState home (pairs.foldl (aliasStep input fourState) offsets) := by
  induction pairs generalizing offsets with
  | nil => exact h
  | cons pair pairs ih =>
    exact ih (h.step (hmem pair (List.mem_cons_self ..)))
      fun p hp => hmem p (List.mem_cons_of_mem _ hp)

/-! ## Sharing -/

theorem foldl_aliasStep_of_ne {offsets : A → Option Nat} {pairs : List (A × A)} {a : A}
    (hmem : ∀ pair ∈ pairs, pair ∈ input.requirements.stateAliases)
    (h : ∀ pair ∈ pairs, Accepted input fourState pair.1 pair.2 → pair.1 ≠ a) :
    pairs.foldl (aliasStep input fourState) offsets a = offsets a := by
  induction pairs generalizing offsets with
  | nil => rfl
  | cons pair pairs ih =>
    rw [List.foldl_cons, ih (fun p hp => hmem p (List.mem_cons_of_mem _ hp))
      fun p hp => h p (List.mem_cons_of_mem _ hp)]
    obtain ⟨aliased, canonical⟩ := pair
    rcases aliasStep_cases fourState offsets (hmem _ (List.mem_cons_self ..)) with
      ⟨hsame, -⟩ | ⟨hacc, hmove⟩
    · rw [hsame]
    · rw [hmove, Function.update_of_ne (Ne.symm (h _ (List.mem_cons_self ..) hacc))]

theorem Homes.isSome {home offsets : A → Option Nat} (h : Homes input fourState home offsets)
    (hhome : ∀ a, (home a).isSome ↔ a ∈ input.stateObjects.map (·.address)) {a : A}
    (ha : a ∈ input.stateObjects.map (·.address)) : (offsets a).isSome := by
  obtain ⟨root, hroot⟩ := h
  obtain ⟨heq, hreach⟩ := hroot a
  rw [heq, hhome]
  rcases hreach.cases_tail with hself | ⟨b, -, hacc⟩
  · rwa [hself]
  · obtain ⟨w, w', -, hw', -⟩ := hacc.widths
    by_contra hnot
    rw [widthsOf_of_notMem hnot] at hw'
    cases hw'

/-- When no canonical object moves after its alias, the two of an accepted pair share one home. -/
theorem accepted_share {home offsets : A → Option Nat} {pairs : List (A × A)}
    (h : Homes input fourState home offsets)
    (hhome : ∀ a, (home a).isSome ↔ a ∈ input.stateObjects.map (·.address))
    (hmem : ∀ pair ∈ pairs, pair ∈ input.requirements.stateAliases)
    (hsorted : pairs.Pairwise fun x y => x.1 < y.1)
    (hsettled : ∀ a b c, Accepted input fourState a b → Accepted input fourState b c → b ≤ a)
    {aliased canonical : A} (hpair : (aliased, canonical) ∈ pairs)
    (hacc : Accepted input fourState aliased canonical) :
    pairs.foldl (aliasStep input fourState) offsets aliased =
      pairs.foldl (aliasStep input fourState) offsets canonical := by
  obtain ⟨before, after, rfl⟩ := List.append_of_mem hpair
  have hafter : ∀ pair ∈ after, pair ∈ input.requirements.stateAliases :=
    fun p hp => hmem p (List.mem_append_right _ (List.mem_cons_of_mem _ hp))
  have hlater : ∀ pair ∈ after, aliased < pair.1 :=
    fun p hp => (List.pairwise_cons.mp (List.pairwise_append.mp hsorted).2.1).1 p hp
  rw [List.foldl_append, List.foldl_cons, foldl_aliasStep_of_ne hafter fun p hp _ => ?_,
    foldl_aliasStep_of_ne hafter fun p hp hp' => ?_]
  · have hhomes := h.foldl fun p hp => hmem p (List.mem_append_left _ hp)
    generalize before.foldl (aliasStep input fourState) offsets = state at hhomes
    rcases aliasStep_cases fourState state (hmem _ hpair) with
      ⟨-, hnone | hno⟩ | ⟨-, hmove⟩
    · obtain ⟨w, w', -, hw', -⟩ := hacc.widths
      have hobject : canonical ∈ input.stateObjects.map (·.address) := by
        by_contra hnot
        rw [widthsOf_of_notMem hnot] at hw'
        cases hw'
      have := hhomes.isSome hhome hobject
      simp [hnone] at this
    · exact absurd hacc hno
    · rw [hmove, Function.update_self, Function.update_apply]
      split <;> rfl
  · -- a later pair of the canonical object would be a chain in the wrong order
    rintro rfl
    exact absurd (hlater p hp) (not_lt.mpr (hsettled _ _ _ hacc hp'))
  · exact (hlater p hp).ne'

theorem aliasLe_sorted (requirements : LayoutRequirements A) :
    (requirements.stateAliases.insertionSort fun x y => aliasLe x y).Pairwise
      fun x y => x.1 < y.1 := by
  have htotal : Std.Total fun x y : A × A => aliasLe x y = true := ⟨fun x y => by
    simp only [aliasLe, decide_eq_true_eq]
    rcases lt_trichotomy x.1 y.1 with h | h | h
    · exact .inl (.inl h)
    · rcases le_total x.2 y.2 with h' | h'
      · exact .inl (.inr ⟨h, h'⟩)
      · exact .inr (.inr ⟨h.symm, h'⟩)
    · exact .inr (.inl h)⟩
  have htrans : IsTrans (A × A) fun x y => aliasLe x y = true := ⟨fun x y z hxy hyz => by
    simp only [aliasLe, decide_eq_true_eq] at hxy hyz ⊢
    rcases hxy with hxy | ⟨hxy, hxy'⟩
    · rcases hyz with hyz | ⟨hyz, -⟩
      · exact .inl (hxy.trans hyz)
      · exact .inl (hyz ▸ hxy)
    · rcases hyz with hyz | ⟨hyz, hyz'⟩
      · exact .inl (hxy ▸ hyz)
      · exact .inr ⟨hxy.trans hyz, hxy'.trans hyz'⟩⟩
  have hsorted := List.pairwise_insertionSort (fun x y : A × A => aliasLe x y = true)
    requirements.stateAliases
  have hperm := (List.perm_insertionSort (fun x y : A × A => aliasLe x y = true)
    requirements.stateAliases).map Prod.fst
  have hnodup := List.pairwise_map.mp (hperm.nodup_iff.mpr requirements.nodup)
  refine (hsorted.and hnodup).imp fun {x y} ⟨hle, hne⟩ => ?_
  simp only [aliasLe, decide_eq_true_eq] at hle
  rcases hle with hlt | ⟨heq, -⟩
  · exact hlt
  · exact absurd heq hne

end Aliases

/-! ## Areas -/

/-- What a layout reserves bytes for. -/
inductive Area (A : Type) where
  | header
  | stable (address : A)
  | working (address : A)
  | sparse (address : A)
  | dirty (address : A)
  | summary (address : A)
  | activeBits
  | triggeredBits
  deriving DecidableEq, Repr

/-- Start and length in bytes. -/
structure Range where
  start : Nat
  length : Nat
  deriving DecidableEq, Repr

def Range.Disjoint (x y : Range) : Prop :=
  x.start + x.length ≤ y.start ∨ y.start + y.length ≤ x.start

section Areas
variable {A : Type} [LinearOrder A]

def MemoryLayout.area (layout : MemoryLayout A) : Area A → Option Range
  | .header => some ⟨0, stateHeaderSize⟩
  | .stable a => (layout.offsets a).map fun offset =>
      ⟨offset, planeExtent layout.fourState (layout.planeSize a)⟩
  | .working a => (layout.workingOffsets a).map fun offset =>
      ⟨layout.workingBaseOffset + offset, planeExtent layout.fourState (layout.planeSize a)⟩
  | .sparse a => (layout.sparseOffsets a).map fun offset =>
      ⟨layout.sparseBaseOffset + offset, sparseExtent layout.fourState (layout.planeSize a)⟩
  | .dirty a => (layout.sparseLayouts a).map fun sparse =>
      ⟨sparse.dirtyWordsOffset, sparse.dirtyWordCount * 8⟩
  | .summary a => (layout.sparseLayouts a).map fun sparse =>
      ⟨sparse.summaryWordsOffset, sparse.summaryWordCount * 8⟩
  | .activeBits => some ⟨layout.sparseActiveBitsOffset, divCeil layout.sparseActiveCapacity 64 * 8⟩
  | .triggeredBits => some ⟨layout.triggeredBitsOffset, layout.triggeredBitsTotalSize⟩

/-- The region an area is in, by its place in the memory. -/
def Area.region : Area A → Nat
  | .header => 0
  | .stable _ => 1
  | .working _ => 2
  | .sparse _ => 3
  | .dirty _ => 4
  | .summary _ => 4
  | .activeBits => 5
  | .triggeredBits => 6

/-- Where a region starts. -/
def regionStart (layout : MemoryLayout A) (cursors : Cursors) : Nat → Nat
  | 0 => 0
  | 1 => stateHeaderSize
  | 2 => layout.workingBaseOffset
  | 3 => layout.sparseBaseOffset
  | 4 => cursors.metadataStart
  | 5 => layout.sparseActiveBitsOffset
  | 6 => layout.triggeredBitsOffset
  | _ => layout.mergedTotalSize

variable {input : LayoutInput A} {fourState : Bool} {layout : MemoryLayout A}
  {home : A → Option Nat} {cursors : Cursors}

theorem Parts.regionStart_mono (h : Parts input fourState layout home cursors) {r r' : Nat}
    (hr : r ≤ r') : regionStart layout cursors r ≤ regionStart layout cursors r' := by
  refine monotone_nat_of_le_succ (fun r => ?_) hr
  have hstable := h.stable.start_le
  have hmeta := h.metadata.start_le
  have hworking := h.workingBase
  have hsparse := h.sparseBase
  have hbase := h.metadataBase
  have hactive := h.activeBits
  have htriggered := h.triggeredBits
  have hmerged := h.merged
  dsimp only at hstable hmeta
  match r with
  | 0 => exact Nat.zero_le _
  | 1 => exact hstable.trans hworking
  | 2 => simp only [regionStart]; omega
  | 3 => simp only [regionStart]; omega
  | 4 => simp only [regionStart]; omega
  | 5 => simp only [regionStart]; omega
  | 6 => simp only [regionStart]; omega
  | _ + 7 => simp [regionStart]

theorem Parts.planeSize (h : Parts input fourState layout home cursors) (a : A) :
    layout.planeSize a = sizeOf input a := by
  rw [MemoryLayout.planeSize, h.arrays, h.widths, sizeOf]

/-! ## Aliased homes -/

theorem planeExtent_mono (fourState : Bool) {size size' : Nat} (h : size ≤ size') :
    planeExtent fourState size ≤ planeExtent fourState size' := by
  unfold planeExtent
  split <;> omega

/-- The home an alias takes has room for it. -/
theorem Accepted.sizeOf_le {arrayDims : A → List Nat} (harrays : ArraysDeclared input arrayDims)
    {aliased canonical : A} (h : Accepted input fourState aliased canonical) :
    sizeOf input aliased ≤ sizeOf input canonical := by
  obtain ⟨w, w', hw, hw', hle⟩ := h.widths
  obtain ⟨hpacked, hpacked'⟩ := harrays.alias_packed h.pair
  simp only [sizeOf, objectSize, hpacked, hpacked', hw, hw', Option.getD_some]
  exact getByteSize_mono hle

theorem sizeOf_le_root {arrayDims : A → List Nat} (harrays : ArraysDeclared input arrayDims)
    {a root : A} (h : ReflTransGen (Accepted input fourState) a root) :
    sizeOf input a ≤ sizeOf input root := by
  induction h with
  | refl => exact le_refl _
  | tail _ hacc ih => exact ih.trans (hacc.sizeOf_le harrays)

theorem Parts.homes (h : Parts input fourState layout home cursors) :
    Homes input fourState home layout.offsets := by
  rw [h.offsets]
  refine Homes.foldl ⟨id, fun a => ⟨rfl, .refl⟩⟩ fun pair hpair => ?_
  exact (List.mem_insertionSort _).mp hpair

/-- The stable bytes of an object are bytes of the home it has. -/
theorem Parts.stable_within (h : Parts input fourState layout home cursors)
    {arrayDims : A → List Nat} (harrays : ArraysDeclared input arrayDims) {a : A} {range : Range}
    (hrange : layout.area (.stable a) = some range) :
    ∃ root, ReflTransGen (Accepted input fourState) a root ∧ home root = some range.start ∧
      range.length ≤ planeExtent fourState (sizeOf input root) := by
  obtain ⟨root, hroot⟩ := h.homes
  obtain ⟨heq, hreach⟩ := hroot a
  obtain ⟨offset, hoffset, rfl⟩ := Option.map_eq_some_iff.mp hrange
  refine ⟨root a, hreach, heq ▸ hoffset, ?_⟩
  dsimp only
  rw [h.state, h.planeSize]
  exact planeExtent_mono fourState (sizeOf_le_root harrays hreach)

/-! ## Areas lie apart -/

/-- Every area lies in its region. -/
theorem Parts.area_within (h : Parts input fourState layout home cursors)
    {arrayDims : A → List Nat} (harrays : ArraysDeclared input arrayDims) {x : Area A}
    {range : Range} (hrange : layout.area x = some range) :
    regionStart layout cursors x.region ≤ range.start ∧
      range.start + range.length ≤ regionStart layout cursors (x.region + 1) := by
  cases x with
  | header =>
    cases hrange
    exact ⟨le_refl _, le_refl _⟩
  | stable a =>
    obtain ⟨root, -, hhome, hlength⟩ := h.stable_within harrays hrange
    have hbounds := h.stable.bounds root _ hhome
    have hworking := h.workingBase
    simp only [Area.region, regionStart]
    dsimp only at hbounds
    omega
  | working a =>
    obtain ⟨offset, hoffset, rfl⟩ := Option.map_eq_some_iff.mp hrange
    have hbounds := h.working.bounds a _ hoffset
    have hsparse := h.sparseBase
    simp only [Area.region, regionStart, h.state, h.planeSize]
    dsimp only at hbounds
    omega
  | sparse a =>
    obtain ⟨offset, hoffset, rfl⟩ := Option.map_eq_some_iff.mp hrange
    have hbounds := h.sparse.bounds a _ hoffset
    have hround := le_alignUp_eight (sparseExtent fourState (sizeOf input a))
    have hbase := h.metadataBase
    simp only [Area.region, regionStart, h.state, h.planeSize]
    dsimp only at hbounds
    omega
  | dirty a =>
    obtain ⟨sparse, hsparse, rfl⟩ := Option.map_eq_some_iff.mp hrange
    have hbounds := h.metadata.bounds a sparse.dirtyWordsOffset (by simp [hsparse])
    have hshape := h.shape a sparse hsparse
    have hactive := h.activeBits
    simp only [Area.region, regionStart, hshape.dirty]
    dsimp only [metadataSize] at hbounds
    omega
  | summary a =>
    obtain ⟨sparse, hsparse, rfl⟩ := Option.map_eq_some_iff.mp hrange
    have hbounds := h.metadata.bounds a sparse.dirtyWordsOffset (by simp [hsparse])
    have hshape := h.shape a sparse hsparse
    have hactive := h.activeBits
    simp only [Area.region, regionStart, hshape.behind, hshape.dirty, hshape.summary]
    dsimp only [metadataSize] at hbounds
    omega
  | activeBits =>
    cases hrange
    exact ⟨le_refl _, h.triggeredBits⟩
  | triggeredBits =>
    cases hrange
    exact ⟨le_refl _, h.merged⟩

/-- Stable objects that accepted pairs link, directly or through others. -/
def Linked (input : LayoutInput A) (fourState : Bool) : Area A → Area A → Prop
  | .stable a, .stable b => EqvGen (Accepted input fourState) a b
  | _, _ => False

theorem Parts.metadata_apart (h : Parts input fourState layout home cursors) {a b : A}
    {sparse sparse' : SparseWorkingLayout} (hne : a ≠ b)
    (ha : layout.sparseLayouts a = some sparse) (hb : layout.sparseLayouts b = some sparse') :
    sparse.summaryWordsOffset + sparse.summaryWordCount * 8 ≤ sparse'.dirtyWordsOffset ∨
      sparse'.summaryWordsOffset + sparse'.summaryWordCount * 8 ≤ sparse.dirtyWordsOffset := by
  have hapart := h.metadata.apart a b sparse.dirtyWordsOffset sparse'.dirtyWordsOffset hne
    (by simp [ha]) (by simp [hb])
  have hshape := h.shape a sparse ha
  have hshape' := h.shape b sparse' hb
  have hbehind := hshape.behind
  have hbehind' := hshape'.behind
  rw [hshape.dirty] at hbehind
  rw [hshape'.dirty] at hbehind'
  rw [hshape.summary, hshape'.summary]
  unfold metadataSize at hapart
  omega

theorem eqvGen_of_reach {a b : A} (h : ReflTransGen (Accepted input fourState) a b) :
    EqvGen (Accepted input fourState) a b := by
  induction h with
  | refl => exact .refl _
  | tail _ hacc ih => exact .trans _ _ _ ih (.rel _ _ hacc)

/-- Two areas of one region that no accepted pair links. -/
theorem Parts.apart_in_region (h : Parts input fourState layout home cursors)
    {arrayDims : A → List Nat} (harrays : ArraysDeclared input arrayDims) {x y : Area A}
    {range range' : Range} (hne : x ≠ y) (hregion : x.region = y.region)
    (hlinked : ¬ Linked input fourState x y) (hx : layout.area x = some range)
    (hy : layout.area y = some range') : range.Disjoint range' := by
  unfold Range.Disjoint
  cases x <;> cases y <;> first
    | exact absurd rfl hne
    | (simp [Area.region] at hregion; done)
    | skip
  case stable.stable a b =>
    obtain ⟨root, hreach, hhome, hlength⟩ := h.stable_within harrays hx
    obtain ⟨root', hreach', hhome', hlength'⟩ := h.stable_within harrays hy
    have hroots : root ≠ root' := by
      rintro rfl
      exact hlinked (.trans _ root _ (eqvGen_of_reach hreach)
        (.symm _ _ (eqvGen_of_reach hreach')))
    have hapart := h.stable.apart root root' _ _ hroots hhome hhome'
    omega
  case working.working a b =>
    obtain ⟨offset, hoffset, rfl⟩ := Option.map_eq_some_iff.mp hx
    obtain ⟨offset', hoffset', rfl⟩ := Option.map_eq_some_iff.mp hy
    have hapart := h.working.apart a b _ _ (by simpa using hne) hoffset hoffset'
    dsimp only at hapart ⊢
    rw [h.state, h.planeSize, h.planeSize]
    omega
  case sparse.sparse a b =>
    obtain ⟨offset, hoffset, rfl⟩ := Option.map_eq_some_iff.mp hx
    obtain ⟨offset', hoffset', rfl⟩ := Option.map_eq_some_iff.mp hy
    have hapart := h.sparse.apart a b _ _ (by simpa using hne) hoffset hoffset'
    have hround := le_alignUp_eight (sparseExtent fourState (sizeOf input a))
    have hround' := le_alignUp_eight (sparseExtent fourState (sizeOf input b))
    dsimp only at hapart ⊢
    rw [h.state, h.planeSize, h.planeSize]
    omega
  case dirty.dirty a b =>
    obtain ⟨sparse, hsparse, rfl⟩ := Option.map_eq_some_iff.mp hx
    obtain ⟨sparse', hsparse', rfl⟩ := Option.map_eq_some_iff.mp hy
    have hapart := h.metadata_apart (by simpa using hne) hsparse hsparse'
    have hbehind := (h.shape a sparse hsparse).behind
    have hbehind' := (h.shape b sparse' hsparse').behind
    dsimp only
    omega
  case dirty.summary a b =>
    obtain ⟨sparse, hsparse, rfl⟩ := Option.map_eq_some_iff.mp hx
    obtain ⟨sparse', hsparse', rfl⟩ := Option.map_eq_some_iff.mp hy
    have hbehind := (h.shape a sparse hsparse).behind
    have hbehind' := (h.shape b sparse' hsparse').behind
    dsimp only
    by_cases hab : a = b
    · subst hab
      rw [hsparse] at hsparse'
      cases hsparse'
      omega
    · have hapart := h.metadata_apart hab hsparse hsparse'
      omega
  case summary.dirty a b =>
    obtain ⟨sparse, hsparse, rfl⟩ := Option.map_eq_some_iff.mp hx
    obtain ⟨sparse', hsparse', rfl⟩ := Option.map_eq_some_iff.mp hy
    have hbehind := (h.shape a sparse hsparse).behind
    have hbehind' := (h.shape b sparse' hsparse').behind
    dsimp only
    by_cases hab : a = b
    · subst hab
      rw [hsparse] at hsparse'
      cases hsparse'
      omega
    · have hapart := h.metadata_apart hab hsparse hsparse'
      omega
  case summary.summary a b =>
    obtain ⟨sparse, hsparse, rfl⟩ := Option.map_eq_some_iff.mp hx
    obtain ⟨sparse', hsparse', rfl⟩ := Option.map_eq_some_iff.mp hy
    have hapart := h.metadata_apart (by simpa using hne) hsparse hsparse'
    have hbehind := (h.shape a sparse hsparse).behind
    have hbehind' := (h.shape b sparse' hsparse').behind
    dsimp only
    omega

theorem Parts.apart (h : Parts input fourState layout home cursors) {arrayDims : A → List Nat}
    (harrays : ArraysDeclared input arrayDims) {x y : Area A} {range range' : Range} (hne : x ≠ y)
    (hlinked : ¬ Linked input fourState x y) (hx : layout.area x = some range)
    (hy : layout.area y = some range') : range.Disjoint range' := by
  have hwithin := h.area_within harrays hx
  have hwithin' := h.area_within harrays hy
  rcases lt_trichotomy x.region y.region with hlt | heq | hgt
  · have := h.regionStart_mono (Nat.succ_le_of_lt hlt)
    exact .inl (hwithin.2.trans (this.trans hwithin'.1))
  · exact h.apart_in_region harrays hne heq hlinked hx hy
  · have := h.regionStart_mono (Nat.succ_le_of_lt hgt)
    exact .inr (hwithin'.2.trans (this.trans hwithin.1))

/-- No area ends behind the merged memory. -/
theorem Parts.below (h : Parts input fourState layout home cursors) {arrayDims : A → List Nat}
    (harrays : ArraysDeclared input arrayDims) {x : Area A} {range : Range}
    (hx : layout.area x = some range) : range.start + range.length ≤ layout.mergedTotalSize := by
  have hregion : x.region + 1 ≤ 7 := by cases x <;> simp [Area.region]
  exact (h.area_within harrays hx).2.trans (h.regionStart_mono hregion)

/-! ## Bits of an object -/

theorem packed_bit {width bit : Nat} (h : bit < width) : bit / 8 < getByteSize width := by
  unfold getByteSize divCeil
  omega

/-- The byte of a strided array determines the element and the byte in it. -/
theorem strided_byte {stride element element' byte byte' : Nat} (h : byte < stride)
    (h' : byte' < stride) (heq : element * stride + byte = element' * stride + byte') :
    element = element' ∧ byte = byte' := by
  have hpos : 0 < stride := by omega
  have hdiv : (element * stride + byte) / stride = (element' * stride + byte') / stride := by
    rw [heq]
  rw [Nat.mul_comm element, Nat.mul_comm element', Nat.mul_add_div hpos, Nat.mul_add_div hpos,
    Nat.div_eq_of_lt h, Nat.div_eq_of_lt h'] at hdiv
  have helement : element = element' := by omega
  subst helement
  exact ⟨rfl, by omega⟩

/-- Every bit of an object has its own place inside the plane. -/
theorem Parts.bits (h : Parts input fourState layout home cursors) (hin : InputOk input)
    {arrayDims : A → List Nat} (harrays : ArraysDeclared input arrayDims)
    {object : StateObjectLayout A} (hmem : object ∈ input.stateObjects) :
    (∀ bit < object.width,
      (layout.mapStaticBitOffset object.address bit).1 < layout.planeSize object.address ∧
        (layout.mapStaticBitOffset object.address bit).2 < 8) ∧
    ∀ bit < object.width, ∀ bit' < object.width,
      layout.mapStaticBitOffset object.address bit =
        layout.mapStaticBitOffset object.address bit' → bit = bit' := by
  have hwidth := (hin.fields hmem).1
  rw [h.planeSize, sizeOf, hwidth, Option.getD_some, objectSize]
  unfold MemoryLayout.mapStaticBitOffset
  rw [h.arrays]
  cases harray : input.unpackedArrays object.address with
  | none =>
    refine ⟨fun bit hbit => ⟨packed_bit hbit, Nat.mod_lt _ (by omega)⟩, ?_⟩
    intro bit _ bit' _ heq
    simp only [Prod.mk.injEq] at heq
    omega
  | some array =>
    obtain ⟨object', hmem', haddress, hlayout⟩ := harrays.object harray
    obtain ⟨hsize, hstride, hplane⟩ := declaredStridedArrayLayout_eq hlayout
    have hwidths : object'.width = object.width := by
      have hfields := (hin.fields hmem').1
      rw [haddress, hwidth] at hfields
      exact (Option.some.inj hfields).symm
    rw [hwidths] at hsize
    have hpos := harrays.width_pos _ _ harray
    have hbyte : ∀ bit, bit % array.elementWidth / 8 < array.elementStride := fun bit =>
      hstride ▸ packed_bit (Nat.mod_lt bit hpos)
    have helement : ∀ bit < object.width, bit / array.elementWidth < array.elementCount := by
      intro bit hbit
      rw [hsize] at hbit
      exact Nat.div_lt_of_lt_mul hbit
    dsimp only
    refine ⟨fun bit hbit => ⟨?_, Nat.mod_lt _ (by omega)⟩, ?_⟩
    · calc bit / array.elementWidth * array.elementStride + bit % array.elementWidth / 8
          < bit / array.elementWidth * array.elementStride + array.elementStride :=
            Nat.add_lt_add_left (hbyte bit) _
        _ = (bit / array.elementWidth + 1) * array.elementStride := (Nat.succ_mul _ _).symm
        _ ≤ array.elementCount * array.elementStride :=
            Nat.mul_le_mul_right _ (helement bit hbit)
        _ = array.planeSize := by rw [hplane, Nat.mul_comm]
    · intro bit _ bit' _ heq
      simp only [Prod.mk.injEq] at heq
      obtain ⟨hdiv, hbytes⟩ := strided_byte (hbyte bit) (hbyte bit') heq.1
      have hmod : bit % array.elementWidth = bit' % array.elementWidth := by omega
      rw [← Nat.div_add_mod bit array.elementWidth, ← Nat.div_add_mod bit' array.elementWidth,
        hdiv, hmod]

/-! ## The layout as a whole -/

/-- Linked objects share one home when no canonical object is moved after its alias. -/
theorem Parts.shared (h : Parts input fourState layout home cursors)
    (hsettled : ∀ a b c, Accepted input fourState a b → Accepted input fourState b c → b ≤ a)
    {a b : A} (hlinked : EqvGen (Accepted input fourState) a b) :
    layout.offsets a = layout.offsets b := by
  induction hlinked with
  | rel a b hacc =>
    rw [h.offsets]
    exact accepted_share ⟨id, fun a => ⟨rfl, .refl⟩⟩ h.home_isSome
      (fun pair hpair => (List.mem_insertionSort _).mp hpair)
      (aliasLe_sorted input.requirements) hsettled
      ((List.mem_insertionSort _).mpr hacc.pair) hacc
  | refl => rfl
  | symm _ _ _ ih => exact ih.symm
  | trans _ _ _ _ _ ih ih' => exact ih.trans ih'

/-- What a layout promises. Areas that accepted alias pairs do not link lie apart and below the
total size, every bit of an object has its own place in the object's plane, and an alias has the
home of an object that accepted pairs lead to, which has room for it. -/
structure Faithful (input : LayoutInput A) (fourState : Bool) (layout : MemoryLayout A) :
    Prop where
  stable : ∀ object ∈ input.stateObjects, (layout.area (.stable object.address)).isSome
  working : ∀ a ∈ input.workingAddresses, (layout.area (.working a)).isSome
  sparse : ∀ a ∈ input.sparseAddresses, (layout.area (.sparse a)).isSome ∧
    (layout.area (.dirty a)).isSome ∧ (layout.area (.summary a)).isSome
  apart : ∀ x y range range', x ≠ y → ¬ Linked input fourState x y →
    layout.area x = some range → layout.area y = some range' → range.Disjoint range'
  below : ∀ x range, layout.area x = some range →
    range.start + range.length ≤ layout.mergedTotalSize
  bit_in_plane : ∀ object ∈ input.stateObjects, ∀ bit < object.width,
    (layout.mapStaticBitOffset object.address bit).1 < layout.planeSize object.address ∧
      (layout.mapStaticBitOffset object.address bit).2 < 8
  bit_injective : ∀ object ∈ input.stateObjects, ∀ bit < object.width, ∀ bit' < object.width,
    layout.mapStaticBitOffset object.address bit = layout.mapStaticBitOffset object.address bit' →
      bit = bit'
  homes : ∃ home : A → Option Nat,
    (∀ a b offset offset', a ≠ b → home a = some offset → home b = some offset' →
      Range.Disjoint ⟨offset, planeExtent fourState (layout.planeSize a)⟩
        ⟨offset', planeExtent fourState (layout.planeSize b)⟩) ∧
    ∀ a, ∃ root, ReflTransGen (Accepted input fourState) a root ∧
      layout.offsets a = home root ∧ layout.planeSize a ≤ layout.planeSize root

theorem Parts.faithful (h : Parts input fourState layout home cursors) (hin : InputOk input)
    {arrayDims : A → List Nat} (harrays : ArraysDeclared input arrayDims) :
    Faithful input fourState layout where
  stable object hmem := by
    simpa [MemoryLayout.area] using
      h.homes.isSome h.home_isSome (List.mem_map.mpr ⟨object, hmem, rfl⟩)
  working a ha := by simpa [MemoryLayout.area] using (h.working_isSome a).mpr ha
  sparse a ha := by
    simpa [MemoryLayout.area] using
      And.intro ((h.sparse_isSome a).mpr ha) ((h.metadata_isSome a).mpr ha)
  apart _ _ _ _ hne hlinked hx hy := h.apart harrays hne hlinked hx hy
  below _ _ hx := h.below harrays hx
  bit_in_plane _ hmem := (h.bits hin harrays hmem).1
  bit_injective _ hmem := (h.bits hin harrays hmem).2
  homes := by
    refine ⟨home, fun a b offset offset' hne ha hb => ?_, fun a => ?_⟩
    · simpa only [Range.Disjoint, h.planeSize] using h.stable.apart a b offset offset' hne ha hb
    · obtain ⟨root, hroot⟩ := h.homes
      refine ⟨root a, (hroot a).2, (hroot a).1, ?_⟩
      rw [h.planeSize, h.planeSize]
      exact sizeOf_le_root harrays (hroot a).2

/-- Every build of distinct objects gives such a layout, and all objects linked by accepted pairs
share one home there as long as no canonical object is moved after its alias. -/
theorem build_disjoint_and_faithful (hin : InputOk input) {arrayDims : A → List Nat}
    (harrays : ArraysDeclared input arrayDims) (fourState : Bool) (mode : MemoryLayoutMode) :
    ∃ layout, build input fourState mode = some layout ∧ Faithful input fourState layout ∧
      ((∀ a b c, Accepted input fourState a b → Accepted input fourState b c → b ≤ a) →
        ∀ a b, EqvGen (Accepted input fourState) a b → layout.offsets a = layout.offsets b) := by
  obtain ⟨layout, home, cursors, hbuild, h⟩ := build_parts hin harrays fourState mode
  exact ⟨layout, hbuild, h.faithful hin harrays,
    fun hsettled a b hlinked => h.shared hsettled hlinked⟩

end Areas

/-! ## An array and a chain of aliases -/

/-- A byte, and three elements of four bits that are also written sparsely. -/
def arrayInput : LayoutInput Nat where
  stateObjects := [⟨1, 8, false⟩, ⟨2, 12, true⟩]
  workingAddresses := [1]
  sparseAddresses := [2]
  unpackedArrays := fun a => if a = 2 then some ⟨4, 3, 1, 3⟩ else none
  requirements := ⟨[], by simp⟩
  ffReferencedAddresses := []
  numEvents := 2
  runtimeEventSites := []

theorem build_disjoint_and_faithful_array :
    InputOk arrayInput ∧ ArraysDeclared arrayInput (fun a => if a = 2 then [3] else []) ∧
      ∃ layout, build arrayInput true .elementStrided = some layout ∧
        Faithful arrayInput true layout := by
  have hin : InputOk arrayInput := ⟨by decide, by decide, by decide⟩
  have harrays : ArraysDeclared arrayInput (fun a => if a = 2 then [3] else []) := by
    constructor
    all_goals
      intro address array h
      by_cases ha : address = 2
      · subst ha
        cases h
        decide
      · simp [arrayInput, ha] at h
  obtain ⟨layout, hbuild, hfaithful, -⟩ :=
    build_disjoint_and_faithful hin harrays true .elementStrided
  exact ⟨hin, harrays, layout, hbuild, hfaithful⟩

/-- Object 1 may share the home of 2, and 2 that of 3. -/
def chainInput : LayoutInput Nat where
  stateObjects := [⟨1, 8, false⟩, ⟨2, 8, false⟩, ⟨3, 8, false⟩]
  workingAddresses := []
  sparseAddresses := []
  unpackedArrays := fun _ => none
  requirements := ⟨[(1, 2), (2, 3)], by decide⟩
  ffReferencedAddresses := []
  numEvents := 0
  runtimeEventSites := []

/-- The pair of 1 is applied first, so 1 takes the home that 2 then leaves. -/
theorem chain_of_aliases_not_shared :
    InputOk chainInput ∧ ArraysDeclared chainInput (fun _ => []) ∧
      Accepted chainInput false 1 2 ∧ Accepted chainInput false 2 3 ∧
      (build chainInput false .packed).map (fun layout => (layout.offsets 1, layout.offsets 2,
        layout.offsets 3)) = some (some 33, some 34, some 34) := by
  refine ⟨⟨by decide, by decide, by decide⟩, ⟨by simp [chainInput], by simp [chainInput]⟩,
    ⟨by decide, by decide +kernel, by decide +kernel, by decide⟩,
    ⟨by decide, by decide +kernel, by decide +kernel, by decide⟩, by decide +kernel⟩

end Celox.Layout
