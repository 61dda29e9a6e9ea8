import Celox.Data.Sweep
import Celox.Data.ExceptList

/-! # Linear scan

`allocate_linear_scan` of `celox-backend-common/src/regalloc.rs`: ranges that include both their ends
are taken in order, each with the first register that no range still active has. -/
namespace Celox.Regalloc
open Sweep (Lifetimes books_nil countP_le_colours not_meet_of_safe)

structure LiveRange (V : Type) where
  value : V
  start : Nat
  stop : Nat
  deriving Repr, DecidableEq

inductive LinearScanError (V : Type) where
  | emptyRegisterFile
  | duplicateValue (value : V)
  | invalidRange (range : LiveRange V)
  | registerPressure (value : V) (point : Nat)
  deriving Repr, DecidableEq

section Scan
variable {V R : Type} [LinearOrder V] [DecidableEq R] (index : R → Nat)

local instance lawfulRangeValue : LawfulBEq V := inferInstance

def LiveRange.key (range : LiveRange V) : Nat ×ₗ Nat ×ₗ V :=
  toLex (range.start, toLex (range.stop, range.value))

/-- An active range by its end, its value and the index of its register. -/
def activeKey (entry : Nat × V × R) : Nat ×ₗ V ×ₗ Nat :=
  toLex (entry.1, toLex (entry.2.1, index entry.2.2))

def checkRanges : List (LiveRange V) → List V → Except (LinearScanError V) Unit
  | [], _ => .ok ()
  | range :: ranges, seen =>
    if range.stop < range.start then .error (.invalidRange range)
    else if range.value ∈ seen then .error (.duplicateValue range.value)
    else checkRanges ranges (range.value :: seen)

def scanRanges (allocatable : List R) : List (LiveRange V) → List (Nat × V × R) → (V → Option R) →
    Except (LinearScanError V) (V → Option R)
  | [], _, assignments => .ok assignments
  | range :: ranges, active, assignments =>
    let active := active.filter (range.start ≤ ·.1)
    match allocatable.find? fun candidate => active.all (·.2.2 ≠ candidate) with
    | none => .error (.registerPressure range.value range.start)
    | some register =>
      scanRanges allocatable ranges
        ((active ++ [(range.stop, range.value, register)]).insertionSort
          (activeKey index · ≤ activeKey index ·))
        (Function.update assignments range.value (some register))

/-- The register of each value. -/
def allocateLinearScan (ranges : List (LiveRange V)) (allocatable : List R) :
    Except (LinearScanError V) (V → Option R) :=
  if allocatable = [] then .error .emptyRegisterFile
  else do
    let ordered := ranges.insertionSort (·.key ≤ ·.key)
    checkRanges ordered []
    scanRanges index allocatable ordered [] fun _ => none

end Scan

/-! ## What the scan keeps -/

section Spec
variable {V R : Type} {index : R → Nat}

/-- A range covers its points, with both its ends. -/
def LiveRange.Covers (range : LiveRange V) (point : Nat) : Prop :=
  range.start ≤ point ∧ point ≤ range.stop

instance decidableRangeCovers (range : LiveRange V) (point : Nat) :
    Decidable (range.Covers point) :=
  inferInstanceAs (Decidable (_ ∧ _))

def rangeLifetimes : Lifetimes (LiveRange V) Nat where
  start := LiveRange.start
  alive range point := point ≤ range.stop
  alive_of_le hpq hq := hpq.trans hq

instance decidableRangeMeets (range : LiveRange V) (point : Nat) :
    Decidable (rangeLifetimes.Covers range point) :=
  inferInstanceAs (Decidable (range.Covers point))

/-- An active range as the sweep sees it. -/
def activeEntry (entry : LiveRange V × R) : Nat × V × R := (entry.1.stop, entry.1.value, entry.2)

structure Scanned (allocatable : List R) (given kept : List (LiveRange V × R))
    (active : List (Nat × V × R)) (assignments : V → Option R) (now : Nat) : Prop where
  books : rangeLifetimes.Books given kept now
  active : active.Perm (kept.map activeEntry)
  register : ∀ entry ∈ given, entry.2 ∈ allocatable
  assigned : ∀ entry ∈ given, assignments entry.1.value = some entry.2

variable {allocatable : List R} {given kept : List (LiveRange V × R)} {active : List (Nat × V × R)}
  {assignments : V → Option R} {now : Nat} {range : LiveRange V}

/-- The ranges that have ended are dropped. -/
theorem Scanned.retain (h : Scanned allocatable given kept active assignments now)
    (hstart : now ≤ range.start) :
    Scanned allocatable given (kept.filter (range.start ≤ ·.1.stop))
      (active.filter (range.start ≤ ·.1)) assignments range.start where
  books := by
    refine h.books.expire hstart List.filter_sublist fun entry hentry halive => ?_
    exact List.mem_filter.mpr ⟨hentry, decide_eq_true halive⟩
  active := by
    refine (h.active.filter _).trans (List.Perm.of_eq ?_)
    rw [List.filter_map]
    rfl
  register := h.register
  assigned := h.assigned

/-- Without a free register, the range meets one range for each register where it starts. -/
theorem Scanned.pressure [DecidableEq R]
    (h : Scanned allocatable given kept active assignments range.start)
    (hvalid : range.start ≤ range.stop) (halive : ∀ entry ∈ kept, range.start ≤ entry.1.stop)
    (hnone : ∀ register ∈ allocatable, ∃ entry ∈ active, entry.2.2 = register)
    (ranges : List (LiveRange V)) :
    allocatable.dedup.length <
      (given.map Prod.fst ++ range :: ranges).countP (·.Covers range.start) := by
  have hused : allocatable.dedup.Subperm (kept.map Prod.snd) := by
    refine List.subperm_of_subset (List.nodup_dedup _) fun register hregister => ?_
    obtain ⟨entry, hentry, rfl⟩ := hnone register (List.mem_dedup.mp hregister)
    obtain ⟨item, hitem, rfl⟩ := List.mem_map.mp (h.active.mem_iff.mp hentry)
    exact List.mem_map_of_mem hitem
  have hmeet := h.books.pressure halive
  have hself : range.Covers range.start := ⟨le_rfl, hvalid⟩
  rw [List.countP_append, List.countP_cons_of_pos (by simpa using hself)]
  calc allocatable.dedup.length ≤ (kept.map Prod.snd).length := hused.length_le
    _ = kept.length := List.length_map _
    _ ≤ (given.map Prod.fst).countP (·.Covers range.start) := hmeet
    _ < _ := by omega

variable [LinearOrder V]

theorem Scanned.give (h : Scanned allocatable given kept active assignments range.start)
    (hvalue : ∀ entry ∈ given, entry.1.value ≠ range.value) {register : R}
    (hmem : register ∈ allocatable) (hfree : ∀ entry ∈ active, entry.2.2 ≠ register) :
    Scanned allocatable (given ++ [(range, register)]) ((range, register) :: kept)
      ((active ++ [(range.stop, range.value, register)]).insertionSort
        (activeKey index · ≤ activeKey index ·))
      (Function.update assignments range.value (some register)) range.start where
  books := by
    refine h.books.give rfl fun hused => ?_
    obtain ⟨entry, hentry, rfl⟩ := List.mem_map.mp hused
    exact hfree (activeEntry entry) (h.active.mem_iff.mpr (List.mem_map_of_mem hentry)) rfl
  active := (List.perm_insertionSort _ _).trans
    ((List.perm_append_singleton _ _).trans (h.active.cons _))
  register entry hentry := by
    rcases List.mem_append.mp hentry with hentry | hentry
    · exact h.register entry hentry
    · rwa [List.mem_singleton.mp hentry]
  assigned entry hentry := by
    rcases List.mem_append.mp hentry with hentry | hentry
    · exact (Function.update_of_ne (hvalue entry hentry) ..).trans (h.assigned entry hentry)
    · rw [List.mem_singleton.mp hentry]
      exact Function.update_self ..

variable [DecidableEq R]

/-- A scan goes through, or it stops where too many ranges meet. -/
theorem scanRanges_spec {ranges : List (LiveRange V)}
    (h : Scanned allocatable given kept active assignments now)
    (hsorted : ranges.Pairwise (·.start ≤ ·.start)) (hnow : ∀ range ∈ ranges, now ≤ range.start)
    (hvalid : ∀ range ∈ ranges, range.start ≤ range.stop)
    (hvalues : ((given.map Prod.fst ++ ranges).map LiveRange.value).Nodup) :
    (∃ allocation given' kept' active' now',
      scanRanges index allocatable ranges active assignments = .ok allocation ∧
        Scanned allocatable given' kept' active' allocation now' ∧
        given'.map Prod.fst = given.map Prod.fst ++ ranges) ∨
      ∃ value point,
        scanRanges index allocatable ranges active assignments =
          .error (.registerPressure value point) ∧
        allocatable.dedup.length < (given.map Prod.fst ++ ranges).countP (·.Covers point) := by
  induction ranges generalizing given kept active assignments now with
  | nil => exact .inl ⟨_, _, _, _, _, rfl, h, (List.append_nil _).symm⟩
  | cons range ranges ih =>
    obtain ⟨hfirst, hsorted⟩ := List.pairwise_cons.mp hsorted
    obtain ⟨hvalidRange, hvalid⟩ := List.forall_mem_cons.mp hvalid
    have hretained := h.retain (hnow range (List.mem_cons_self ..))
    rw [scanRanges]
    cases hfind : allocatable.find? fun candidate =>
        (active.filter (range.start ≤ ·.1)).all (·.2.2 ≠ candidate) with
    | none =>
      refine .inr ⟨_, _, rfl, hretained.pressure hvalidRange (fun entry hentry => ?_)
        (fun register hregister => ?_) ranges⟩
      · exact of_decide_eq_true (List.mem_filter.mp hentry).2
      · simpa using List.find?_eq_none.mp hfind register hregister
    | some register =>
      have hvalue : ∀ entry ∈ given, entry.1.value ≠ range.value := by
        intro entry hentry heq
        rw [List.map_append, List.nodup_append] at hvalues
        exact hvalues.2.2 _ (List.mem_map_of_mem (List.mem_map_of_mem hentry)) _
          (List.mem_map_of_mem (List.mem_cons_self ..)) heq
      have hfree : ∀ entry ∈ active.filter (range.start ≤ ·.1), entry.2.2 ≠ register := by
        have hall := List.find?_some hfind
        exact fun entry hentry => of_decide_eq_true (List.all_eq_true.mp hall entry hentry)
      have hfirsts : (given ++ [(range, register)]).map Prod.fst ++ ranges =
          given.map Prod.fst ++ range :: ranges := by simp
      rw [← hfirsts] at hvalues ⊢
      exact ih (hretained.give hvalue (List.mem_of_find?_eq_some hfind) hfree) hsorted hfirst hvalid
        hvalues

end Spec

/-! ## The allocation -/

section Allocation
variable {V R : Type} [LinearOrder V]

structure WellFormedRanges (ranges : List (LiveRange V)) : Prop where
  ordered : ∀ range ∈ ranges, range.start ≤ range.stop
  distinct : (ranges.map LiveRange.value).Nodup

theorem checkRanges_ok {ranges : List (LiveRange V)} {seen : List V} :
    checkRanges ranges seen = .ok () ↔
      WellFormedRanges ranges ∧ ∀ range ∈ ranges, range.value ∉ seen := by
  induction ranges generalizing seen with
  | nil => exact ⟨fun _ => ⟨⟨by simp, by simp⟩, by simp⟩, fun _ => rfl⟩
  | cons range ranges ih =>
    rw [checkRanges]
    constructor
    · intro h
      split at h
      · cases h
      · rename_i hordered
        split at h
        · cases h
        · rename_i hnew
          obtain ⟨⟨hrest, hdistinct⟩, hseen⟩ := ih.mp h
          refine ⟨⟨List.forall_mem_cons.mpr ⟨Nat.le_of_not_lt hordered, hrest⟩, ?_⟩,
            List.forall_mem_cons.mpr ⟨hnew, fun other hother hmem =>
              hseen other hother (List.mem_cons_of_mem _ hmem)⟩⟩
          refine List.nodup_cons.mpr ⟨fun hmem => ?_, hdistinct⟩
          obtain ⟨other, hother, heq⟩ := List.mem_map.mp hmem
          exact hseen other hother (heq ▸ List.mem_cons_self ..)
    · rintro ⟨⟨hordered, hdistinct⟩, hseen⟩
      obtain ⟨hrange, hordered⟩ := List.forall_mem_cons.mp hordered
      obtain ⟨hnew, hseen⟩ := List.forall_mem_cons.mp hseen
      obtain ⟨hfirst, hdistinct⟩ := List.nodup_cons.mp hdistinct
      rw [if_neg (Nat.not_lt.mpr hrange), if_neg hnew]
      refine ih.mpr ⟨⟨hordered, hdistinct⟩, fun other hother hmem => ?_⟩
      rcases List.mem_cons.mp hmem with heq | hmem
      · exact hfirst (heq ▸ List.mem_map_of_mem hother)
      · exact hseen other hother hmem

/-- The error names a range that is not one, or a value that comes again. -/
theorem checkRanges_error {ranges : List (LiveRange V)} {seen : List V} {error : LinearScanError V}
    (h : checkRanges ranges seen = .error error) :
    (∃ range ∈ ranges, range.stop < range.start ∧ error = .invalidRange range) ∨
      ∃ value, error = .duplicateValue value ∧ value ∈ ranges.map LiveRange.value ∧
        (value ∈ seen ∨ 1 < (ranges.map LiveRange.value).count value) := by
  induction ranges generalizing seen with
  | nil => cases h
  | cons range ranges ih =>
    rw [checkRanges] at h
    split at h
    · rename_i hinvalid
      cases h
      exact .inl ⟨range, List.mem_cons_self .., hinvalid, rfl⟩
    · split at h
      · rename_i hseen
        cases h
        exact .inr ⟨_, rfl, List.mem_cons_self .., .inl hseen⟩
      · rcases ih h with ⟨other, hother, hinvalid, heq⟩ | ⟨value, heq, hmem, hagain⟩
        · exact .inl ⟨other, List.mem_cons_of_mem _ hother, hinvalid, heq⟩
        · refine .inr ⟨value, heq, List.mem_cons_of_mem _ hmem, ?_⟩
          rw [List.map_cons, List.count_cons]
          have hcount : 0 < (ranges.map LiveRange.value).count value := List.count_pos_iff.mpr hmem
          rcases hagain with hseen | hcount
          · rcases List.mem_cons.mp hseen with rfl | hseen
            · exact .inr (by simpa using hcount)
            · exact .inl hseen
          · exact .inr (by omega)

variable [DecidableEq R] (index : R → Nat)

/-- The register file is checked first, then the ranges. Of ranges that are well formed the scan
fails when more of them meet at a point than there are registers, and only then; and when it does not
fail, each has a register of the list, and two that share a point do not have the same. -/
theorem allocateLinearScan_exact (ranges : List (LiveRange V)) (allocatable : List R) :
    (allocatable = [] → allocateLinearScan index ranges allocatable = .error .emptyRegisterFile) ∧
    (allocatable ≠ [] → ¬ WellFormedRanges ranges →
      (∃ range ∈ ranges, range.stop < range.start ∧
        allocateLinearScan index ranges allocatable = .error (.invalidRange range)) ∨
      ∃ value, 1 < (ranges.map LiveRange.value).count value ∧
        allocateLinearScan index ranges allocatable = .error (.duplicateValue value)) ∧
    (allocatable ≠ [] → WellFormedRanges ranges →
      ((∃ value point, allocateLinearScan index ranges allocatable =
          .error (.registerPressure value point)) ↔
        ∃ point, allocatable.dedup.length < ranges.countP (·.Covers point)) ∧
      ((∃ allocation, allocateLinearScan index ranges allocatable = .ok allocation) ↔
        ¬ ∃ point, allocatable.dedup.length < ranges.countP (·.Covers point)) ∧
      ∀ allocation, allocateLinearScan index ranges allocatable = .ok allocation →
        (∀ range ∈ ranges, ∃ register ∈ allocatable, allocation range.value = some register) ∧
        ∀ range ∈ ranges, ∀ other ∈ ranges, range ≠ other →
          (∃ point, range.Covers point ∧ other.Covers point) →
            allocation range.value ≠ allocation other.value) := by
  have hperm := List.perm_insertionSort (fun a b : LiveRange V => a.key ≤ b.key) ranges
  have hsorted := List.pairwise_insertionSort (fun a b : LiveRange V => a.key ≤ b.key) ranges
  unfold allocateLinearScan
  dsimp only
  generalize ranges.insertionSort (·.key ≤ ·.key) = ordered at *
  have hwell : WellFormedRanges ordered ↔ WellFormedRanges ranges :=
    ⟨fun h => ⟨fun range hrange => h.ordered range (hperm.mem_iff.mpr hrange),
        (hperm.map _).nodup_iff.mp h.distinct⟩,
      fun h => ⟨fun range hrange => h.ordered range (hperm.mem_iff.mp hrange),
        (hperm.map _).nodup_iff.mpr h.distinct⟩⟩
  refine ⟨fun hempty => if_pos hempty, fun hempty hbad => ?_, fun hempty hgood => ?_⟩
  · rw [if_neg hempty]
    cases hcheck : checkRanges ordered [] with
    | ok =>
      exact absurd (hwell.mp (checkRanges_ok.mp hcheck).1) hbad
    | error error =>
      rcases checkRanges_error hcheck with ⟨range, hrange, hinvalid, rfl⟩ |
        ⟨value, rfl, -, hseen | hcount⟩
      · exact .inl ⟨range, hperm.mem_iff.mp hrange, hinvalid, rfl⟩
      · cases hseen
      · exact .inr ⟨value, (hperm.map _).count_eq value ▸ hcount, rfl⟩
  · rw [if_neg hempty, checkRanges_ok.mpr ⟨hwell.mpr hgood, by simp⟩]
    have hstart : ordered.Pairwise fun a b => a.start ≤ b.start :=
      hsorted.imp fun h => (Prod.Lex.toLex_le_toLex.mp h).elim le_of_lt fun h => h.1.le
    have hspec := @scanRanges_spec V R index allocatable [] [] [] (fun _ => none) 0 _ _ ordered
      ⟨books_nil 0, .refl _, by simp, by simp⟩ hstart (fun _ _ => Nat.zero_le _)
      (hwell.mpr hgood).ordered (hwell.mpr hgood).distinct
    simp only [List.map_nil, List.nil_append, hperm.countP_eq] at hspec
    rcases hspec with ⟨allocation, given, kept, active, now, hscan, hscanned, hgiven⟩ |
      ⟨value, point, hscan, hpressure⟩
    · have hsafe := hscanned.books.safe
      have hroom : ¬ ∃ point, allocatable.dedup.length < ranges.countP (·.Covers point) := by
        rintro ⟨point, hpressure⟩
        have hle := countP_le_colours hsafe hscanned.register point
        rw [hgiven] at hle
        exact absurd hpressure (Nat.not_lt.mpr ((hperm.countP_eq _).symm.le.trans hle))
      have hgiven : ∀ range ∈ ranges, ∃ entry ∈ given, entry.1 = range := fun range hrange =>
        List.mem_map.mp (hgiven ▸ hperm.mem_iff.mpr hrange)
      refine ⟨⟨fun ⟨_, _, herror⟩ => ?_, fun hpressure => absurd hpressure hroom⟩,
        ⟨fun _ => hroom, fun _ => ⟨allocation, hscan⟩⟩, fun result hresult => ?_⟩
      · exact nomatch hscan.symm.trans herror
      obtain rfl : allocation = result := Except.ok.inj (hscan.symm.trans hresult)
      constructor
      · intro range hrange
        obtain ⟨entry, hentry, rfl⟩ := hgiven range hrange
        exact ⟨entry.2, hscanned.register entry hentry, hscanned.assigned entry hentry⟩
      · intro range hrange other hother hne hmeet hsame
        obtain ⟨entry, hentry, rfl⟩ := hgiven range hrange
        obtain ⟨entry', hentry', rfl⟩ := hgiven other hother
        rw [hscanned.assigned entry hentry, hscanned.assigned entry' hentry'] at hsame
        exact not_meet_of_safe hsafe hentry hentry' (fun heq => hne (congrArg Prod.fst heq))
          (Option.some.inj hsame) hmeet
    · have hfail : ∃ point, allocatable.dedup.length < ranges.countP (·.Covers point) :=
        ⟨point, hpressure⟩
      refine ⟨⟨fun _ => hfail, fun _ => ⟨value, point, hscan⟩⟩,
        ⟨fun ⟨_, hok⟩ => ?_, fun hroom => absurd hfail hroom⟩, fun _ hok => ?_⟩
      · exact nomatch hscan.symm.trans hok
      · exact nomatch hscan.symm.trans hok

/-- Without registers one range is already too many, but that is another error. -/
theorem allocateLinearScan_noRegisters :
    (∃ point, ([] : List Nat).dedup.length <
      [(⟨0, 0, 0⟩ : LiveRange Nat)].countP (·.Covers point)) ∧
    ¬ ∃ value point, allocateLinearScan id [(⟨0, 0, 0⟩ : LiveRange Nat)] ([] : List Nat) =
      .error (.registerPressure value point) := by
  refine ⟨⟨0, by decide⟩, ?_⟩
  rintro ⟨value, point, h⟩
  exact nomatch h

end Allocation
end Celox.Regalloc
