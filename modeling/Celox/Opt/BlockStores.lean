import Celox.Opt.DelayedStores

/-! # Coalescing of stores in a block

The stores to one object are sorted by their offsets, and of stores to one range only the last is
kept. Those that adjoin each other become one store at the position of the last of them, unless all
have a native width or a load of the object is in the way. -/
namespace Celox.Opt
open Celox.Sir Celox.Layout

variable {A : Type}

/-- The widest store that several ones are merged into. -/
def maxScalarCoalescedStoreBits : Nat := 64

structure StoreInfo (A : Type) extends StoreCandidate A where
  triggers : List TriggerIdWithKind

/-! ## Groups -/

/-- A store that is left as it is where all others of its segment are, too. -/
def isNative (offset width : Nat) : Bool :=
  offset % 8 = 0 && (width = 8 || width = 16 || width = 32 || width = 64)

section Groups
variable [DecidableEq A]

/-- The store to an object, if an instruction is one at a constant offset. -/
def storeInfo (addr : RegionedAbsoluteAddr A) (i : Nat) :
    SIRInstruction (RegionedAbsoluteAddr A) → Option (StoreInfo A)
  | .store a (.static offset) width src triggers sites =>
    if a = addr then some ⟨⟨addr, i, offset, width, src, sites⟩, triggers⟩ else none
  | _ => none

/-- All stores to an object, from the instruction at `i` on. -/
def storeInfos (addr : RegionedAbsoluteAddr A) :
    Nat → List (SIRInstruction (RegionedAbsoluteAddr A)) → List (StoreInfo A)
  | _, [] => []
  | i, inst :: rest => (storeInfo addr i inst).toList ++ storeInfos addr (i + 1) rest

omit [DecidableEq A] in
/-- Of the stores to one range the last one. -/
def lastOfRange (details : List (StoreInfo A)) : List (StoreInfo A) :=
  details.filter fun d => !details.any fun e =>
    e.offset = d.offset && e.width = d.width && d.instIndex < e.instIndex

def sortByOffset (details : List (StoreInfo A)) : List (StoreInfo A) :=
  details.insertionSort fun a b => a.offset ≤ b.offset

/-- The stores of an object that may be merged, in the order of their offsets. -/
def storeDetails (addr : RegionedAbsoluteAddr A)
    (instructions : List (SIRInstruction (RegionedAbsoluteAddr A))) : List (StoreInfo A) :=
  let infos := storeInfos addr 0 instructions
  if 2 ≤ infos.length ∧ infos.any (fun info => !isNative info.offset info.width) then
    sortByOffset (lastOfRange (sortByOffset infos))
  else []

/-! ## Segments -/

/-- Adjoining stores; as many steps are enough as there are stores. -/
def segmentsOf (elementWidth : Option Nat) : Nat → List (StoreInfo A) → List (List (StoreInfo A))
  | 0, _ | _, [] => []
  | fuel + 1, first :: rest =>
    let segmentEnd := scanRun elementWidth maxScalarCoalescedStoreBits first.offset
      (first.offset + first.width) 0 0 (rest.map (·.toStoreCandidate))
    (first :: rest.take segmentEnd) :: segmentsOf elementWidth fuel (rest.drop segmentEnd)

def candidates (segment : List (StoreInfo A)) : List (StoreCandidate A) :=
  segment.map (·.toStoreCandidate)

/-- A load that may read what a store has written. -/
def loadsRange (s : StoreInfo A) : SIRInstruction (RegionedAbsoluteAddr A) → Bool
  | .load _ addr (.static offset) width | .load _ addr (.packedElements offset _) width =>
    addr = s.addr && s.offset < offset + width && offset < s.offset + s.width
  | .load _ addr (.dynamic _) _ | .load _ addr (.element ..) _ => addr = s.addr
  | _ => false

/-- No load between a store and the last one of its segment may read what it has written. -/
def isSafe (instructions : List (SIRInstruction (RegionedAbsoluteAddr A)))
    (segment : List (StoreInfo A)) : Bool :=
  let insertAt := anchorOf (candidates segment)
  segment.all fun s => s.instIndex = insertAt ||
    !((instructions.take (insertAt + 1)).drop (s.instIndex + 1)).any (loadsRange s)

variable (elementWidths : RegionedAbsoluteAddr A → Option Nat)

/-- The segments of an object that are merged. -/
def mergedSegments (instructions : List (SIRInstruction (RegionedAbsoluteAddr A)))
    (addr : RegionedAbsoluteAddr A) : List (List (StoreInfo A)) :=
  let details := storeDetails addr instructions
  (segmentsOf (elementWidths addr) details.length details).filter fun segment =>
    2 ≤ segment.length && !(segment.all fun s => isNative s.offset s.width) &&
      isSafe instructions segment

/-! ## Replacements -/

/-- The stores of a segment are left out also where no one store can stand for them. -/
def mergeSegment (segment : List (StoreInfo A)) (allocation : Allocation) :
    List (Replacement A) × Allocation :=
  match segment with
  | [] => ([], allocation)
  | first :: _ =>
    let run := candidates segment
    let (newReg, allocation) := allocation.allocReg (.logic (runWidth run))
    ([{ removedIndices := runIndices run
        anchorIndex := anchorOf run
        newInstructions :=
          match aggregateStaticOffset first.offset (runWidth run) (elementWidths first.addr) with
          | none => []
          | some offset => [
              .concat newReg (run.map (·.srcReg)).reverse,
              .store first.addr offset (runWidth run) newReg (segment.flatMap (·.triggers))
                (segment.flatMap (·.combCaptureSites)).eraseDups] }], allocation)

def mergeSegments : List (List (StoreInfo A)) → Allocation → List (Replacement A) × Allocation
  | [], allocation => ([], allocation)
  | segment :: segments, allocation =>
    let (replacement, allocation) := mergeSegment elementWidths segment allocation
    let (replacements, allocation) := mergeSegments segments allocation
    (replacement ++ replacements, allocation)

/-- What is left of the instruction at an index, and what is inserted behind it. -/
def insertAt (replacements : List (Replacement A)) (i : Nat)
    (inst : SIRInstruction (RegionedAbsoluteAddr A)) :
    List (SIRInstruction (RegionedAbsoluteAddr A)) :=
  (if replacements.any fun replacement => i ∈ replacement.removedIndices then [] else [inst]) ++
    (replacements.filter fun replacement => replacement.anchorIndex = i).flatMap (·.newInstructions)

def insertAll (replacements : List (Replacement A)) :
    Nat → List (SIRInstruction (RegionedAbsoluteAddr A)) →
    List (SIRInstruction (RegionedAbsoluteAddr A))
  | _, [] => []
  | i, inst :: rest => insertAt replacements i inst ++ insertAll replacements (i + 1) rest

/-- The groups are taken in the order in which the table of them gives its objects. -/
def coalesceStaticStores (objects : List (RegionedAbsoluteAddr A))
    (instructions : List (SIRInstruction (RegionedAbsoluteAddr A))) (allocation : Allocation) :
    List (SIRInstruction (RegionedAbsoluteAddr A)) × Allocation :=
  let (replacements, allocation) := mergeSegments elementWidths
    (objects.flatMap (mergedSegments elementWidths instructions)) allocation
  (insertAll replacements 0 instructions, allocation)

end Groups
end Celox.Opt

/-! ## When coalescing in a block keeps the meaning

Loads that may see a difference are looked for, commits are not, nor are later writes to what is
merged. Where there are none, and where the sources have no more bits than their stores, the merged
block stores the same and reads the same. -/
namespace Celox.Opt
open Celox.Sir Celox.Layout

variable {A : Type} [DecidableEq A] {elementWidths : RegionedAbsoluteAddr A → Option Nat}
  {instructions : List (SIRInstruction (RegionedAbsoluteAddr A))}
  {addr : RegionedAbsoluteAddr A} {objects : List (RegionedAbsoluteAddr A)} {i : Nat}

/-! ## Segments -/

section Segments
variable {details details' : List (StoreInfo A)} {segment : List (StoreInfo A)}

def StoreInfo.instruction (info : StoreInfo A) : SIRInstruction (RegionedAbsoluteAddr A) :=
  .store info.addr (.static info.offset) info.width info.srcReg info.triggers info.combCaptureSites

/-- Different stores to one object. -/
structure DetailsAt (instructions : List (SIRInstruction (RegionedAbsoluteAddr A)))
    (addr : RegionedAbsoluteAddr A) (details : List (StoreInfo A)) : Prop where
  stores : ∀ info ∈ details, info.addr = addr ∧
    instructions[info.instIndex]? = some info.instruction
  distinct : details.Pairwise fun a b => a.instIndex ≠ b.instIndex

omit [DecidableEq A] in
theorem DetailsAt.subperm (h : DetailsAt instructions addr details)
    (hsub : details'.Subperm details) : DetailsAt instructions addr details' := by
  obtain ⟨middle, hperm, hsub⟩ := hsub
  refine ⟨fun info hinfo => h.stores info (hsub.subset (hperm.mem_iff.mpr hinfo)), ?_⟩
  exact (hperm.pairwise_iff fun hne => hne.symm).mp (h.distinct.sublist hsub)

theorem storeInfo_some {inst : SIRInstruction (RegionedAbsoluteAddr A)} {info : StoreInfo A}
    (h : storeInfo addr i inst = some info) :
    info.instIndex = i ∧ info.addr = addr ∧ inst = info.instruction := by
  unfold storeInfo at h
  split at h
  · split_ifs at h with haddr
    cases h
    exact ⟨rfl, rfl, by rw [haddr]; rfl⟩
  · cases h

theorem storeInfos_spec {rest : List (SIRInstruction (RegionedAbsoluteAddr A))}
    (hrest : instructions.drop i = rest) : DetailsAt instructions addr (storeInfos addr i rest) ∧
      ∀ info ∈ storeInfos addr i rest, i ≤ info.instIndex := by
  induction rest generalizing i with
  | nil => exact ⟨⟨nofun, .nil⟩, nofun⟩
  | cons inst rest ih =>
    obtain ⟨hi, hrest, -⟩ := drop_cons hrest
    obtain ⟨⟨hstores, hdistinct⟩, hle⟩ := ih hrest
    rw [storeInfos]
    cases hinfo : storeInfo addr i inst with
    | none => exact ⟨⟨hstores, hdistinct⟩, fun info hmem => (Nat.le_succ i).trans (hle info hmem)⟩
    | some first =>
      obtain ⟨hindex, haddr, rfl⟩ := storeInfo_some hinfo
      refine ⟨⟨fun info hmem => ?_, List.pairwise_cons.mpr ⟨fun info hmem => ?_, hdistinct⟩⟩,
        fun info hmem => ?_⟩
      · rcases List.mem_cons.mp hmem with rfl | hmem
        · exact ⟨haddr, hindex ▸ hi⟩
        · exact hstores info hmem
      · exact Nat.ne_of_lt (hindex ▸ hle info hmem)
      · rcases List.mem_cons.mp hmem with rfl | hmem
        · exact hindex.ge
        · exact (Nat.le_succ i).trans (hle info hmem)

theorem storeDetails_at : DetailsAt instructions addr (storeDetails addr instructions) := by
  refine (storeInfos_spec List.drop_zero).1.subperm ?_
  simp only [storeDetails]
  split_ifs
  · exact (List.perm_insertionSort _ _).subperm.trans
      (List.filter_sublist.subperm.trans (List.perm_insertionSort _ _).subperm)
  · exact List.nil_subperm

omit [DecidableEq A] in
theorem map_segmentsOf (elementWidth : Option Nat) (fuel : Nat) (details : List (StoreInfo A)) :
    (segmentsOf elementWidth fuel details).map candidates =
      runsOf (fun _ => elementWidth) maxScalarCoalescedStoreBits fuel (candidates details) := by
  induction fuel generalizing details with
  | zero => rfl
  | succ fuel ih =>
    cases details with
    | nil => rfl
    | cons first rest =>
      simp only [segmentsOf, List.map_cons, ih, runsOf, candidates, List.map_take, List.map_drop]

omit [DecidableEq A] in
theorem flatten_segmentsOf {elementWidth : Option Nat} {fuel : Nat}
    (h : details.length ≤ fuel) : (segmentsOf elementWidth fuel details).flatten = details := by
  induction fuel generalizing details with
  | zero =>
    rw [List.eq_nil_of_length_eq_zero (Nat.le_zero.mp h)]
    rfl
  | succ fuel ih =>
    cases details with
    | nil => rfl
    | cons first rest =>
      simp only [segmentsOf, List.flatten_cons]
      rw [ih (by rw [List.length_drop]; simp only [List.length_cons] at h; omega), List.cons_append,
        List.take_append_drop]

/-- What a merged segment is. -/
structure MergedSegment (elementWidths : RegionedAbsoluteAddr A → Option Nat)
    (instructions : List (SIRInstruction (RegionedAbsoluteAddr A)))
    (segment : List (StoreInfo A)) : Prop where
  mergeable : Mergeable elementWidths (candidates segment)
  same : ∃ addr, ∀ info ∈ segment, info.addr = addr
  stores : ∀ info ∈ segment, instructions[info.instIndex]? = some info.instruction
  safe : isSafe instructions segment = true

theorem mergedSegments_spec (instructions : List (SIRInstruction (RegionedAbsoluteAddr A)))
    (addr : RegionedAbsoluteAddr A) :
    (∀ segment ∈ mergedSegments elementWidths instructions addr,
      MergedSegment elementWidths instructions segment ∧ ∀ info ∈ segment, info.addr = addr) ∧
      (mergedSegments elementWidths instructions addr).Pairwise fun segment segment' =>
        Apart (candidates segment) (candidates segment') := by
  have hat : DetailsAt instructions addr (storeDetails addr instructions) := storeDetails_at
  unfold mergedSegments
  generalize storeDetails addr instructions = details at hat
  have hflatten : (segmentsOf (elementWidths addr) details.length details).flatten = details :=
    flatten_segmentsOf le_rfl
  refine ⟨fun segment hsegment => ?_, List.Pairwise.filter _ ?_⟩
  · obtain ⟨hmem, hcond⟩ := List.mem_filter.mp hsegment
    simp only [Bool.and_eq_true, decide_eq_true_eq] at hcond
    have hstores : ∀ info ∈ segment, info.addr = addr ∧
        instructions[info.instIndex]? = some info.instruction := fun info hinfo =>
      hat.stores info (hflatten ▸ List.mem_flatten.mpr ⟨segment, hmem, hinfo⟩)
    have hrun := List.mem_map_of_mem (f := candidates) hmem
    rw [map_segmentsOf] at hrun
    obtain ⟨first, rest, hcons, hadjoining, hsome⟩ :=
      mergeable_of_mem hrun ((List.length_map _).symm ▸ hcond.1.1)
    have haddr : first.addr = addr := by
      obtain ⟨info, hinfo, rfl⟩ := List.mem_map.mp
        (show first ∈ candidates segment from hcons ▸ List.mem_cons_self)
      exact (hstores info hinfo).1
    exact ⟨⟨⟨first, rest, hcons, hadjoining, haddr ▸ hsome⟩,
      ⟨addr, fun info hinfo => (hstores info hinfo).1⟩, fun info hinfo => (hstores info hinfo).2,
      hcond.2⟩, fun info hinfo => (hstores info hinfo).1⟩
  · have hdistinct := hat.distinct
    rw [← hflatten] at hdistinct
    refine (List.pairwise_flatten.mp hdistinct).2.imp fun h c hc d hd => ?_
    obtain ⟨info, hinfo, rfl⟩ := List.mem_map.mp hc
    obtain ⟨info', hinfo', rfl⟩ := List.mem_map.mp hd
    exact h info hinfo info' hinfo'

/-- The segments of a block that are merged. -/
def blockSegments (elementWidths : RegionedAbsoluteAddr A → Option Nat)
    (objects : List (RegionedAbsoluteAddr A))
    (instructions : List (SIRInstruction (RegionedAbsoluteAddr A))) : List (List (StoreInfo A)) :=
  objects.flatMap (mergedSegments elementWidths instructions)

/-- The stores of them. -/
def blockRuns (elementWidths : RegionedAbsoluteAddr A → Option Nat)
    (objects : List (RegionedAbsoluteAddr A))
    (instructions : List (SIRInstruction (RegionedAbsoluteAddr A))) :
    List (List (StoreCandidate A)) :=
  (blockSegments elementWidths objects instructions).map candidates

theorem blockSegments_spec (hobjects : objects.Nodup) :
    (∀ segment ∈ blockSegments elementWidths objects instructions,
      MergedSegment elementWidths instructions segment) ∧
      (blockRuns elementWidths objects instructions).Pairwise Apart := by
  unfold blockRuns blockSegments
  refine ⟨fun segment hsegment => ?_, ?_⟩
  · obtain ⟨addr, -, hmem⟩ := List.mem_flatMap.mp hsegment
    exact ((mergedSegments_spec instructions addr).1 segment hmem).1
  · rw [List.pairwise_map, List.pairwise_flatMap]
    refine ⟨fun addr _ => (mergedSegments_spec instructions addr).2, hobjects.imp fun hne segment
      hsegment segment' hsegment' c hc d hd hindex => hne ?_⟩
    obtain ⟨info, hinfo, rfl⟩ := List.mem_map.mp hc
    obtain ⟨info', hinfo', rfl⟩ := List.mem_map.mp hd
    obtain ⟨hmerged, haddr⟩ := (mergedSegments_spec instructions _).1 segment hsegment
    obtain ⟨hmerged', haddr'⟩ := (mergedSegments_spec instructions _).1 segment' hsegment'
    have hsame := hmerged.stores info hinfo
    rw [hindex, hmerged'.stores info' hinfo', Option.some.injEq, StoreInfo.instruction,
      StoreInfo.instruction, SIRInstruction.store.injEq] at hsame
    rw [← haddr info hinfo, ← haddr' info' hinfo', hsame.1]

end Segments

/-! ## Replacements -/

section Replacements
variable {segment : List (StoreInfo A)} {segments : List (List (StoreInfo A))}
  {before after : Allocation}

/-- The concatenation and the store for a segment. -/
structure ReplacesSegment (before after : Allocation) (run : List (StoreCandidate A))
    (replacement : Replacement A) : Prop where
  anchored : Anchored run replacement
  stands : ∃ triggers sites, StandsFor before after run triggers sites replacement.newInstructions

theorem mergeSegment_spec (hbounded : before.Bounded)
    (hmerged : MergedSegment elementWidths instructions segment) :
    before.Before (mergeSegment elementWidths segment before).2 ∧ ∃ replacement,
      (mergeSegment elementWidths segment before).1 = [replacement] ∧
      ReplacesSegment before (mergeSegment elementWidths segment before).2 (candidates segment)
        replacement := by
  obtain ⟨first, rest, hcons, hadjoining, hsome⟩ := hmerged.mergeable
  obtain ⟨addr, haddr⟩ := hmerged.same
  obtain ⟨offset, hoffset⟩ := Option.isSome_iff_exists.mp hsome
  cases segment with
  | nil => cases hcons
  | cons info segment =>
    obtain rfl : info.toStoreCandidate = first := (List.cons.inj hcons).1
    simp only [mergeSegment, hoffset]
    refine ⟨allocReg_before _ hbounded, _, rfl, ⟨rfl, rfl⟩, _, _, info.addr, info.offset, _, offset,
      rfl, fun c hc => ?_, hadjoining, aggregateStaticOffset_start hoffset,
      allocReg_fresh _ hbounded, _, allocReg_type _ hbounded, rfl⟩
    obtain ⟨other, hother, rfl⟩ := List.mem_map.mp hc
    rw [haddr other hother, haddr info List.mem_cons_self]

theorem mergeSegments_spec (hbounded : before.Bounded)
    (hsegments : ∀ segment ∈ segments, MergedSegment elementWidths instructions segment) :
    before.Before (mergeSegments elementWidths segments before).2 ∧
      List.Forall₂ (ReplacesSegment before (mergeSegments elementWidths segments before).2)
        (segments.map candidates) (mergeSegments elementWidths segments before).1 := by
  induction segments generalizing before with
  | nil => exact ⟨.refl hbounded, .nil⟩
  | cons segment segments ih =>
    obtain ⟨hbefore, replacement, heq, hanchored, triggers, sites, hstands⟩ :=
      mergeSegment_spec hbounded (hsegments segment List.mem_cons_self)
    obtain ⟨hafter, hall⟩ := ih hbefore.bounded fun s hs => hsegments s (List.mem_cons_of_mem _ hs)
    unfold mergeSegments
    simp only [heq]
    exact ⟨hbefore.trans hafter, .cons ⟨hanchored, _, _, hstands.mono (.refl hbounded) hafter⟩
      (hall.imp fun _ _ ⟨hanchored, _, _, h⟩ => ⟨hanchored, _, _,
        h.mono hbefore (.refl hafter.bounded)⟩)⟩

variable {runs : List (List (StoreCandidate A))} {replacements : List (Replacement A)}

omit [DecidableEq A] in
/-- At an index all of one run is stored, or nothing is done for a store of a run, or nothing is
changed. -/
theorem insertAt_cases (hreplaces : List.Forall₂ (ReplacesSegment before after) runs replacements)
    (hne : ∀ run ∈ runs, run ≠ []) (hapart : runs.Pairwise Apart) (i : Nat)
    (inst : SIRInstruction (RegionedAbsoluteAddr A)) :
    (∃ run ∈ runs, ∃ triggers sites, anchorOf run = i ∧
      StandsFor before after run triggers sites (insertAt replacements i inst)) ∨
    ((∀ run ∈ runs, anchorOf run ≠ i) ∧ (∃ run ∈ runs, i ∈ runIndices run) ∧
      insertAt replacements i inst = []) ∨
    ((∀ run ∈ runs, i ∉ runIndices run) ∧ insertAt replacements i inst = [inst]) := by
  have hany := any_removed hreplaces (fun _ _ h => h.anchored) i
  unfold insertAt
  rcases filter_anchored hreplaces (fun _ _ h => h.anchored) hne hapart i with
    ⟨run, hrun, replacement, ⟨-, triggers, sites, hstands⟩, hanchor, hfilter⟩ | ⟨hnone, hfilter⟩
  · refine .inl ⟨run, hrun, triggers, sites, hanchor, ?_⟩
    rw [if_pos (hany.mpr ⟨run, hrun, hanchor ▸ anchorOf_mem (hne run hrun)⟩), hfilter]
    simpa using hstands
  · rw [hfilter, List.flatMap_nil, List.append_nil]
    by_cases hmem : ∃ run ∈ runs, i ∈ runIndices run
    · exact .inr (.inl ⟨hnone, hmem, if_pos (hany.mpr hmem)⟩)
    · exact .inr (.inr ⟨fun run hrun hi => hmem ⟨run, hrun, hi⟩, if_neg fun h => hmem (hany.mp h)⟩)

end Replacements

/-! ## Runs of stores -/

section Delay
variable {eu : ExecutionUnit (RegionedAbsoluteAddr A)} {b : BlockId}
  {block : BasicBlock (RegionedAbsoluteAddr A)} {segment : List (StoreInfo A)}
  {runs : List (List (StoreCandidate A))} {run : List (StoreCandidate A)} {info : StoreInfo A}
  {inst : SIRInstruction (RegionedAbsoluteAddr A)} {k bit : Nat}

/-- The stores of a run have bits, and their sources no more but for the uppermost one. No commit
in front of the end of the run may copy what a store of it has written, and whatever may write that
behind the store lands behind the end. -/
structure PublishesWell (eu : ExecutionUnit (RegionedAbsoluteAddr A))
    (instructions : List (SIRInstruction (RegionedAbsoluteAddr A)))
    (runs : List (List (StoreCandidate A))) (run : List (StoreCandidate A)) : Prop where
  bits : ∀ c ∈ run, c.width ≠ 0
  width : ∀ c ∈ run.dropLast, HasWidth eu.types c.srcReg c.width
  commits : ∀ c ∈ run, ∀ (k : Nat) src dst offset width triggers bit, c.instIndex < k →
    k < anchorOf run → instructions[k]? = some (.commit src dst offset width triggers) →
    c.offset ≤ bit → bit < c.offset + c.width → offset.reaches width bit → src ≠ c.addr
  order : ∀ c ∈ run, ∀ (k : Nat) inst bit, c.instIndex < k → instructions[k]? = some inst →
    c.offset ≤ bit → bit < c.offset + c.width → inst.mayWrite c.addr bit →
    anchorOf run < landing runs k

/-- All merged stores of a block are published well. -/
def MergesWell (elementWidths : RegionedAbsoluteAddr A → Option Nat)
    (objects : List (RegionedAbsoluteAddr A)) (eu : ExecutionUnit (RegionedAbsoluteAddr A))
    (instructions : List (SIRInstruction (RegionedAbsoluteAddr A))) : Prop :=
  ∀ run ∈ blockRuns elementWidths objects instructions,
    PublishesWell eu instructions (blockRuns elementWidths objects instructions) run

theorem loadsRange_of_mayRead (hle : info.offset ≤ bit) (hlt : bit < info.offset + info.width)
    (hread : inst.mayRead info.addr bit) :
    loadsRange info inst = true ∨ ∃ src dst offset width triggers,
      inst = .commit src dst offset width triggers := by
  cases inst with
  | load dst addr offset width =>
    obtain ⟨rfl, hreach⟩ := hread
    refine .inl ?_
    cases offset with
    | static start | packedElements start elementWidth =>
      have hbounds : start ≤ bit ∧ bit < start + width := hreach
      simp only [loadsRange, Bool.and_eq_true, decide_eq_true_eq]
      exact ⟨⟨trivial, by omega⟩, by omega⟩
    | dynamic | element => exact decide_eq_true rfl
  | commit => exact .inr ⟨_, _, _, _, _, rfl⟩
  | _ => exact hread.elim

/-- What lies in front of the last store of a safe segment reads nothing of it. -/
theorem loadsRange_of_safe (hsafe : isSafe instructions segment = true) (hinfo : info ∈ segment)
    (hlt : info.instIndex < k) (hend : k < anchorOf (candidates segment))
    (hk : instructions[k]? = some inst) : loadsRange info inst = false := by
  have hall := List.all_eq_true.mp hsafe info hinfo
  rw [Bool.or_eq_true, decide_eq_true_eq] at hall
  rcases hall with heq | hnone
  · omega
  · rw [Bool.not_eq_true', List.any_eq_false] at hnone
    refine Bool.eq_false_iff.mpr (hnone inst (List.mem_of_getElem? (i := k - (info.instIndex + 1)) ?_))
    rw [List.getElem?_drop, List.getElem?_take_of_lt (by omega), ← hk]
    congr 1
    omega

/-- A block with well merged segments is one with delayed stores. -/
theorem blockSegments_delays (hv : Verified eu) (hb : eu.blocks.lookup b = some block)
    (hobjects : objects.Nodup)
    (hwell : MergesWell elementWidths objects eu block.instructions) :
    Delays eu b block (blockRuns elementWidths objects block.instructions) := by
  obtain ⟨hmerged, hapart⟩ := blockSegments_spec hobjects
  refine ⟨hv, hb, hapart, fun run hrun => ?_⟩
  obtain ⟨hbits, hwidth, hcommits, horder⟩ := hwell run hrun
  obtain ⟨segment, hsegment, rfl⟩ := List.mem_map.mp hrun
  obtain ⟨⟨first, rest, hcons, -⟩, -, hstores, hsafe⟩ := hmerged segment hsegment
  refine ⟨by rw [hcons]; exact nofun, fun c hc => ?_, hbits, hwidth, ?_, horder⟩
  · obtain ⟨info, hinfo, rfl⟩ := List.mem_map.mp hc
    exact ⟨_, _, hstores info hinfo⟩
  · intro c hc k inst bit hlt hend hk hle hbit hread
    obtain ⟨info, hinfo, rfl⟩ := List.mem_map.mp hc
    rcases loadsRange_of_mayRead hle hbit hread with hload | ⟨src, dst, offset, width, triggers, rfl⟩
    · rw [loadsRange_of_safe hsafe hinfo hlt hend hk] at hload
      cases hload
    · exact hcommits _ hc k src dst offset width triggers bit hlt hend hk hle hbit hread.2 hread.1

end Delay

/-! ## Runs -/

section Run
variable {eu eu' : ExecutionUnit (RegionedAbsoluteAddr A)} {model : BitModel (RegionedAbsoluteAddr A)}
  {b : BlockId} {block : BasicBlock (RegionedAbsoluteAddr A)} {before after : Allocation}
  {runs : List (List (StoreCandidate A))} {replacements : List (Replacement A)}
  {s s' t : State (RegionedAbsoluteAddr A) (BitMemory (RegionedAbsoluteAddr A))}

omit [DecidableEq A] in
theorem insertAll_append (i : Nat) (insts insts' : List (SIRInstruction (RegionedAbsoluteAddr A))) :
    insertAll replacements i (insts ++ insts') = insertAll replacements i insts ++
      insertAll replacements (i + insts.length) insts' := by
  induction insts generalizing i with
  | nil => rfl
  | cons inst insts ih =>
    rw [List.cons_append, insertAll, insertAll, ih, List.append_assoc, List.length_cons,
      Nat.add_right_comm, Nat.add_assoc]

theorem insertAll_exec (h : Delays eu b block runs) (hext : Extends eu eu')
    (hknown : ∀ reg, Declared eu.types reg → reg ∈ before.registerMap)
    (hfinal : ShapesIn after.registerMap eu'.registerMap)
    (hreplaces : List.Forall₂ (ReplacesSegment before after) runs replacements)
    {rest : List (SIRInstruction (RegionedAbsoluteAddr A))}
    (hrest : rest <+: block.instructions.drop i) (hexec : eu.execList model.machine s rest = some t)
    (hlag : Lagging eu model runs i s s') :
    ∃ t', eu'.execList model.machine s' (insertAll replacements i rest) = some t' ∧
      Lagging eu model runs (i + rest.length) t t' := by
  induction rest generalizing i s s' with
  | nil =>
    cases hexec
    exact ⟨s', rfl, hlag⟩
  | cons inst rest ih =>
    obtain ⟨tail, htail⟩ := hrest
    obtain ⟨hi, hrest, -⟩ := drop_cons htail.symm
    obtain ⟨u, hu, hexec⟩ := Option.bind_eq_some_iff.mp hexec
    have hone : ∃ u', eu'.execList model.machine s' (insertAt replacements i inst) = some u' ∧
        Lagging eu model runs (i + 1) u u' := by
      rcases insertAt_cases hreplaces (fun run hrun => (h.run run hrun).ne_nil) h.apart i inst with
        ⟨run, hrun, triggers, sites, hanchor, hstands⟩ | ⟨hanchor, hmem, heq⟩ | ⟨hnone, heq⟩
      · obtain ⟨u', hexec', hlag', -⟩ :=
          hlag.anchored h hext hknown hfinal hstands hi hrun hanchor hu
        exact ⟨u', hexec', hlag'⟩
      · rw [heq]
        exact ⟨s', rfl, hlag.removed h hi hanchor hmem hu⟩
      · rw [heq, execList_singleton]
        obtain ⟨u', hexec', hlag', -⟩ := hlag.kept h hext hi hnone hu
        exact ⟨u', hexec', hlag'⟩
    obtain ⟨u', hexecOne, hlag'⟩ := hone
    obtain ⟨t', hexecRest, hlagEnd⟩ := ih ⟨tail, hrest.symm⟩ hexec hlag'
    refine ⟨t', ?_, ?_⟩
    · rw [insertAll, execList_append, hexecOne, Option.bind_some, hexecRest]
    · rwa [List.length_cons, Nat.add_comm rest.length, ← Nat.add_assoc]

/-- Loads and commits stay, and find what they found before. -/
theorem insertAll_reads (h : Delays eu b block runs) (hext : Extends eu eu')
    (hknown : ∀ reg, Declared eu.types reg → reg ∈ before.registerMap)
    (hfinal : ShapesIn after.registerMap eu'.registerMap)
    (hreplaces : List.Forall₂ (ReplacesSegment before after) runs replacements)
    (hlag : Lagging eu model runs 0 s s') :
    ListReads model.machine model.machine eu eu' block.instructions
      (insertAll replacements 0 block.instructions) s s' := by
  intro i u inst hi hreads htake
  obtain ⟨u', hexec', hlag'⟩ := insertAll_exec h hext hknown hfinal hreplaces
    (List.take_prefix i block.instructions) htake hlag
  have hlength : (block.instructions.take i).length = i :=
    List.length_take_of_le (List.getElem?_eq_some_iff.mp hi).1.le
  rw [hlength, Nat.zero_add] at hlag'
  -- stores are not reads
  have hnone : ∀ run ∈ runs, i ∉ runIndices run := fun run hrun hmem => by
    obtain ⟨c, hc, rfl⟩ := List.mem_map.mp hmem
    obtain ⟨_, _, hinst⟩ := (h.run run hrun).stores c hc
    rw [hi] at hinst
    cases hinst
    cases hreads
  have hat : insertAt replacements i inst = [inst] := by
    rcases insertAt_cases hreplaces (fun run hrun => (h.run run hrun).ne_nil) h.apart i inst with
      ⟨run, hrun, _, _, hanchor, -⟩ | ⟨-, ⟨run, hrun, hmem⟩, -⟩ | ⟨-, heq⟩
    · exact absurd (hanchor ▸ anchorOf_mem (h.run run hrun).ne_nil) (hnone run hrun)
    · exact absurd hmem (hnone run hrun)
    · exact heq
  have hsplit : insertAll replacements 0 block.instructions =
      insertAll replacements 0 (block.instructions.take i) ++
        (inst :: insertAll replacements (i + 1) (block.instructions.drop (i + 1))) := by
    conv_lhs => rw [← List.take_append_drop i block.instructions]
    rw [insertAll_append, hlength, Nat.zero_add, List.drop_eq_getElem?_toList_append, hi]
    simp only [Option.toList_some, List.singleton_append, insertAll, hat]
  refine ⟨(insertAll replacements 0 (block.instructions.take i)).length, u', ?_, ?_, ?_, ?_⟩
  · rw [hsplit, List.getElem?_append_right le_rfl, Nat.sub_self, List.getElem?_cons_zero]
  · rw [hsplit, List.take_left, hexec']
  · exact fun reg hreg => hlag'.regs reg
      (h.verified.declares h.lookup hi reg (List.mem_append_right _ hreg))
  · exact fun a bit hread => (hlag'.memory a bit (h.unread hi hnone hread)).symm

/-- A merged block stores and reads the same if nothing may copy or write over what it stores too
late. -/
theorem coalesceStaticStores_alike (hverified : eu.verifyResult = .ok ())
    (hb : eu.blocks.lookup b = some block) (hbounded : before.Bounded)
    (hdeclared : ShapesIn eu.registerMap before.registerMap) (hobjects : objects.Nodup)
    (hwell : MergesWell elementWidths objects eu block.instructions)
    (hfinal : ShapesIn (coalesceStaticStores elementWidths objects block.instructions
      before).2.registerMap eu'.registerMap) (model : BitModel (RegionedAbsoluteAddr A))
    (hregs : RegsAgree eu s.regs s'.regs) (hmemory : s'.memory = s.memory) (hfits : Fits eu s.regs) :
    ListAlike model.machine model.machine eu eu' block.instructions
      (coalesceStaticStores elementWidths objects block.instructions before).1 s s' := by
  have hv := (verifyResult_ok_iff eu).mp hverified
  have hdelays := blockSegments_delays hv hb hobjects hwell
  obtain ⟨hbefore, hreplaces⟩ := mergeSegments_spec hbounded
    (show ∀ segment ∈ blockSegments elementWidths objects block.instructions,
      MergedSegment elementWidths block.instructions segment from (blockSegments_spec hobjects).1)
  have hext : Extends eu eu' := (hdeclared.trans hbefore.shapes).trans hfinal
  have hknown : ∀ reg, Declared eu.types reg → reg ∈ before.registerMap := fun reg ⟨_, htype⟩ =>
    hdeclared.mem (AList.lookup_isSome.mp (Option.isSome_of_eq_some htype))
  have hlag : Lagging eu model (blockRuns elementWidths objects block.instructions) 0 s s' :=
    .start hregs hmemory hfits
  intro t hexec
  obtain ⟨t', hexec', hlag'⟩ := insertAll_exec hdelays hext hknown hfinal hreplaces
    (List.prefix_refl _) hexec hlag
  rw [Nat.zero_add] at hlag'
  exact ⟨t', hexec', hlag'.stop hdelays, hlag'.regs,
    insertAll_reads hdelays hext hknown hfinal hreplaces hlag⟩

end Run

/-! ## Two blocks -/

def workingObject : RegionedAbsoluteAddr Unit := ⟨WORKING_REGION, ()⟩

/-- A byte and half of one, with instructions between their stores. -/
def nibbleBlock (between : List (SIRInstruction (RegionedAbsoluteAddr Unit))) :
    BasicBlock (RegionedAbsoluteAddr Unit) where
  id := 0
  params := []
  instructions := [.imm 0 ⟨1, 0⟩, .imm 1 ⟨2, 0⟩, .store workingObject (.static 0) 8 0 [] []] ++
    between ++ [.store workingObject (.static 8) 4 1 [] []]
  terminator := .ret

def nibbleStores (between : List (SIRInstruction (RegionedAbsoluteAddr Unit))) :
    ExecutionUnit (RegionedAbsoluteAddr Unit) where
  entryBlockId := 0
  blocks := [⟨0, nibbleBlock between⟩].toAList
  registerMap := [⟨0, .bit 8 false⟩, ⟨1, .bit 4 false⟩].toAList

/-- The merged block of it, with the registers that are declared then. -/
def mergedNibbles (between : List (SIRInstruction (RegionedAbsoluteAddr Unit))) :
    List (SIRInstruction (RegionedAbsoluteAddr Unit)) × ExecutionUnit (RegionedAbsoluteAddr Unit) :=
  let (instructions, allocation) := coalesceStaticStores (fun _ => none) [workingObject]
    (nibbleBlock between).instructions (startAllocation (nibbleStores between))
  (instructions, { nibbleStores between with registerMap := allocation.registerMap })

theorem nibbleStores_merge : MergesWell (fun _ => none) [workingObject] (nibbleStores [])
    (nibbleBlock []).instructions := by
  intro run hrun
  obtain rfl := List.mem_singleton.mp
    (show run ∈ [[⟨workingObject, 2, 0, 8, 0, []⟩, ⟨workingObject, 3, 8, 4, 1, []⟩]] from hrun)
  refine ⟨by decide, fun c hc => ?_, fun c hc k _ _ _ _ _ _ hlt hend hk => ?_,
    fun c hc k inst bit hlt hk hle hbit hwrite => ?_⟩
  · obtain rfl := List.mem_singleton.mp hc
    exact ⟨_, rfl, rfl⟩
  · have hend : k < 3 := hend
    rcases List.mem_pair.mp hc with rfl | rfl <;> simp only at hlt <;> omega
  · have hk4 : k < 4 := (List.getElem?_eq_some_iff.mp hk).1
    rcases List.mem_pair.mp hc with rfl | rfl <;> simp only at hlt hle hbit
    · obtain rfl : k = 3 := by omega
      cases hk
      have habove : 8 ≤ bit := hwrite.2.1
      omega
    · omega

theorem coalesceStaticStores_alike_nibbles : ListAlike (BitModel.plain _).machine
    (BitModel.plain _).machine (nibbleStores []) (mergedNibbles []).2 (nibbleBlock []).instructions
    (mergedNibbles []).1 ⟨fun _ => none, fun _ _ => (false, false), []⟩
    ⟨fun _ => none, fun _ _ => (false, false), []⟩ :=
  coalesceStaticStores_alike (b := 0) (by decide) rfl (startAllocation_bounded _) (.refl _)
    (List.nodup_singleton _) nibbleStores_merge (.refl _) (.plain _) (fun _ _ => rfl) rfl nofun

def copyByte : SIRInstruction (RegionedAbsoluteAddr Unit) :=
  .commit workingObject ⟨STABLE_REGION, ()⟩ (.static 0) 8 []

/-- The byte is copied before it is stored. -/
theorem mergedNibbles_late : (nibbleStores [copyByte]).verifyResult = .ok () ∧
    ¬ ListAlike (BitModel.plain _).machine (BitModel.plain _).machine (nibbleStores [copyByte])
      (mergedNibbles [copyByte]).2 (nibbleBlock [copyByte]).instructions
      (mergedNibbles [copyByte]).1 ⟨fun _ => none, fun _ _ => (false, false), []⟩
      ⟨fun _ => none, fun _ _ => (false, false), []⟩ := by
  refine ⟨by decide, fun h => ?_⟩
  obtain ⟨t', hexec', hmemory, -⟩ := h _ rfl
  have hbit : t'.memory ⟨STABLE_REGION, ()⟩ 0 = (false, false) := by
    obtain rfl := Option.some.inj hexec'
    decide
  rw [hmemory] at hbit
  exact absurd hbit (by decide)

end Celox.Opt
