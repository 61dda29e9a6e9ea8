import Celox.Data.Sweep
import Celox.Data.ExceptList

/-! # Stack slots

`color_stack_slots` of `celox-backend-common/src/regalloc/stack_color.rs`: an interval is taken as the
envelope from its first start to its last end, over blocks in their order. -/
namespace Celox.Liveness

/-- `stop` is the source's `end`. -/
structure LiveSegment where
  block : Nat
  start : Nat
  stop : Nat
deriving DecidableEq

def LiveSegment.overlaps (self other : LiveSegment) : Bool :=
  self.block = other.block && self.start < other.stop && other.start < self.stop

structure LiveInterval (V : Type) where
  value : V
  segments : List LiveSegment

end Celox.Liveness

namespace Celox.Regalloc
open Liveness (LiveInterval)

/-- `u32::MAX`. -/
def u32Max : Nat := 2 ^ 32 - 1

open Sweep (Lifetimes books_nil countP_le_colours not_meet_of_safe)

inductive StackColorError (V : Type) where
  | duplicateValue (value : V)
  | emptyInterval (value : V)
  | slotCountOverflow
  deriving Repr, DecidableEq

/-- A block and a point of it, the block first. -/
abbrev BlockPoint := Nat ×ₗ Nat

structure Envelope (V : Type) where
  start : BlockPoint
  stop : BlockPoint
  value : V

structure StackSlotColoring (V : Type) where
  assignments : V → Option Nat
  slotCount : Nat

def envelope {V : Type} (interval : LiveInterval V) : Option (Envelope V) :=
  match interval.segments with
  | [] => none
  | first :: rest =>
    let last := (first :: rest).getLast (List.cons_ne_nil _ _)
    some ⟨toLex (first.block, first.start), toLex (last.block, last.stop), interval.value⟩

section Color
variable {V : Type} [LinearOrder V]

local instance lawfulEnvelopeValue : LawfulBEq V := inferInstance

def Envelope.key (envelope : Envelope V) : BlockPoint ×ₗ BlockPoint ×ₗ V :=
  toLex (envelope.start, toLex (envelope.stop, envelope.value))

/-- Active envelopes are ordered by their end, then by slot and value. -/
def heapKey (entry : BlockPoint × Nat × V) : BlockPoint ×ₗ Nat ×ₗ V :=
  toLex (entry.1, toLex (entry.2.1, entry.2.2))

def collectEnvelopes : List (LiveInterval V) → List V →
    Except (StackColorError V) (List (Envelope V))
  | [], _ => .ok []
  | interval :: intervals, seen =>
    if interval.value ∈ seen then .error (.duplicateValue interval.value)
    else
      match envelope interval with
      | none => .error (.emptyInterval interval.value)
      | some first => do
        let rest ← collectEnvelopes intervals (interval.value :: seen)
        return first :: rest

/-- Both heaps are in ascending order; the slots of what ends by `start` become available. -/
def releaseSlots (start : BlockPoint) : List (BlockPoint × Nat × V) → List Nat →
    List (BlockPoint × Nat × V) × List Nat
  | [], available => ([], available)
  | entry :: active, available =>
    if entry.1 ≤ start then
      releaseSlots start active (available.orderedInsert (· ≤ ·) entry.2.1)
    else (entry :: active, available)

def colorEnvelopes : List (Envelope V) → List (BlockPoint × Nat × V) → List Nat → Nat →
    (V → Option Nat) → Except (StackColorError V) (StackSlotColoring V)
  | [], _, _, nextSlot, assignments => .ok ⟨assignments, nextSlot⟩
  | envelope :: ordered, active, available, nextSlot, assignments =>
    let (active, available) := releaseSlots envelope.start active available
    match available with
    | slot :: available =>
      colorEnvelopes ordered
        (active.orderedInsert (heapKey · ≤ heapKey ·) (envelope.stop, slot, envelope.value))
        available nextSlot (Function.update assignments envelope.value (some slot))
    | [] =>
      if nextSlot + 1 ≤ u32Max then
        colorEnvelopes ordered
          (active.orderedInsert (heapKey · ≤ heapKey ·) (envelope.stop, nextSlot, envelope.value))
          [] (nextSlot + 1) (Function.update assignments envelope.value (some nextSlot))
      else .error .slotCountOverflow

def colorStackSlots (intervals : List (LiveInterval V)) :
    Except (StackColorError V) (StackSlotColoring V) := do
  let envelopes ← collectEnvelopes intervals []
  colorEnvelopes (envelopes.insertionSort (·.key ≤ ·.key)) [] [] 0 fun _ => none

end Color

/-! ## What the sweep keeps -/

section Spec
variable {V : Type}

/-- An envelope ends before its end. -/
def Envelope.Covers (envelope : Envelope V) (point : BlockPoint) : Prop :=
  envelope.start ≤ point ∧ point < envelope.stop

instance decidableEnvelopeCovers (envelope : Envelope V) (point : BlockPoint) :
    Decidable (envelope.Covers point) :=
  inferInstanceAs (Decidable (_ ∧ _))

def envelopeLifetimes : Lifetimes (Envelope V) BlockPoint where
  start := Envelope.start
  alive envelope point := point < envelope.stop
  alive_of_le hpq hq := hpq.trans_lt hq

instance decidableEnvelopeMeets (envelope : Envelope V) (point : BlockPoint) :
    Decidable (envelopeLifetimes.Covers envelope point) :=
  inferInstanceAs (Decidable (envelope.Covers point))

/-- An active envelope as the sweep sees it. -/
def heapEntry (entry : Envelope V × Nat) : BlockPoint × Nat × V :=
  (entry.1.stop, entry.2, entry.1.value)

variable [LinearOrder V]

/-- The slots handed out are in use or available, and at some point there were as many envelopes. -/
structure Swept (given kept : List (Envelope V × Nat)) (active : List (BlockPoint × Nat × V))
    (available : List Nat) (nextSlot : Nat) (assignments : V → Option Nat) (now : BlockPoint) :
    Prop where
  books : envelopeLifetimes.Books given kept now
  entries : active.Perm (kept.map heapEntry)
  ordered : active.Pairwise (heapKey · ≤ heapKey ·)
  slots : (available ++ kept.map Prod.snd).Perm (List.range nextSlot)
  bound : nextSlot ≤ u32Max
  below : ∀ entry ∈ given, entry.2 < nextSlot
  assigned : ∀ entry ∈ given, assignments entry.1.value = some entry.2
  tight : nextSlot = 0 ∨ ∃ point, nextSlot ≤ (given.map Prod.fst).countP (·.Covers point)

variable {given kept : List (Envelope V × Nat)} {active : List (BlockPoint × Nat × V)}
  {available : List Nat} {nextSlot : Nat} {assignments : V → Option Nat} {now : BlockPoint}
  {item : Envelope V}

theorem fst_le_of_heapKey {entry other : BlockPoint × Nat × V} (h : heapKey entry ≤ heapKey other) :
    entry.1 ≤ other.1 :=
  (Prod.Lex.toLex_le_toLex.mp h).elim le_of_lt fun h => h.1.le

theorem releaseSlots_spec {start : BlockPoint}
    (hordered : active.Pairwise (heapKey · ≤ heapKey ·)) :
    (releaseSlots start active available).1 = active.filter (start < ·.1) ∧
      (releaseSlots start active available).2.Perm
        (available ++ (active.filter (·.1 ≤ start)).map (·.2.1)) := by
  induction active generalizing available with
  | nil => exact ⟨rfl, by simp [releaseSlots]⟩
  | cons entry active ih =>
    obtain ⟨hfirst, hordered⟩ := List.pairwise_cons.mp hordered
    rw [releaseSlots]
    by_cases hend : entry.1 ≤ start
    · rw [if_pos hend, List.filter_cons_of_neg (by simpa using hend),
        List.filter_cons_of_pos (by simpa using hend)]
      obtain ⟨hactive, havailable⟩ :=
        @ih (available.orderedInsert (· ≤ ·) entry.2.1) hordered
      refine ⟨hactive, havailable.trans ?_⟩
      refine ((List.perm_orderedInsert _ _ _).append_right _).trans ?_
      exact List.perm_middle.symm
    · have hlater : ∀ other ∈ entry :: active, start < other.1 := by
        refine List.forall_mem_cons.mpr ⟨lt_of_not_ge hend, fun other hother => ?_⟩
        exact (lt_of_not_ge hend).trans_le (fst_le_of_heapKey (hfirst other hother))
      rw [if_neg hend]
      constructor
      · exact (List.filter_eq_self.mpr fun other hother => decide_eq_true (hlater other hother)).symm
      · rw [List.filter_eq_nil_iff.mpr fun other hother => by simpa using hlater other hother]
        simp

/-- The envelopes that have ended are dropped, and their slots can be used again. -/
theorem Swept.release (h : Swept given kept active available nextSlot assignments now)
    (hstart : now ≤ item.start) :
    Swept given (kept.filter (item.start < ·.1.stop)) (releaseSlots item.start active available).1
      (releaseSlots item.start active available).2 nextSlot assignments item.start := by
  obtain ⟨hactive, havailable⟩ := @releaseSlots_spec V _ active available item.start h.ordered
  refine ⟨?_, ?_, ?_, ?_, h.bound, h.below, h.assigned, h.tight⟩
  · refine h.books.expire hstart List.filter_sublist fun entry hentry halive => ?_
    exact List.mem_filter.mpr ⟨hentry, decide_eq_true halive⟩
  · rw [hactive]
    refine (h.entries.filter _).trans (List.Perm.of_eq ?_)
    rw [List.filter_map]
    rfl
  · rw [hactive]
    exact h.ordered.filter _
  · have hended : ((active.filter (·.1 ≤ item.start)).map (·.2.1)).Perm
        ((kept.filter (·.1.stop ≤ item.start)).map Prod.snd) := by
      refine ((h.entries.filter _).map _).trans (List.Perm.of_eq ?_)
      rw [List.filter_map, List.map_map]
      rfl
    have hsplit : (kept.filter (·.1.stop ≤ item.start) ++ kept.filter (item.start < ·.1.stop)).Perm
        kept := by
      have hnot : kept.filter (item.start < ·.1.stop) =
          kept.filter fun entry => !decide (entry.1.stop ≤ item.start) :=
        List.filter_congr fun entry _ => by rw [← decide_not, decide_eq_decide, not_le]
      rw [hnot]
      exact List.filter_append_perm _ kept
    refine (havailable.append_right _).trans ?_
    rw [List.append_assoc]
    refine List.Perm.trans (List.Perm.append_left _ ?_) h.slots
    refine (hended.append_right _).trans ?_
    rw [← List.map_append]
    exact hsplit.map _

/-- An envelope takes a slot that no active one has. -/
theorem Swept.place (h : Swept given kept active available nextSlot assignments item.start)
    (hvalue : ∀ entry ∈ given, entry.1.value ≠ item.value) {slot nextSlot' : Nat}
    {available' : List Nat} (hfree : slot ∉ kept.map Prod.snd) (hnext : nextSlot ≤ nextSlot')
    (hslots : (available' ++ slot :: kept.map Prod.snd).Perm (List.range nextSlot'))
    (hbound : nextSlot' ≤ u32Max) (hslot : slot < nextSlot')
    (htight : ∃ point, nextSlot' ≤ (given.map Prod.fst ++ [item]).countP (·.Covers point)) :
    Swept (given ++ [(item, slot)]) ((item, slot) :: kept)
      (active.orderedInsert (heapKey · ≤ heapKey ·) (item.stop, slot, item.value)) available'
      nextSlot' (Function.update assignments item.value (some slot)) item.start where
  books := h.books.give rfl hfree
  entries := (List.perm_orderedInsert _ _ _).trans (h.entries.cons _)
  ordered := h.ordered.orderedInsert _ _
  slots := hslots
  bound := hbound
  below entry hentry := by
    rcases List.mem_append.mp hentry with hentry | hentry
    · exact (h.below entry hentry).trans_le hnext
    · rwa [List.mem_singleton.mp hentry]
  assigned entry hentry := by
    rcases List.mem_append.mp hentry with hentry | hentry
    · exact (Function.update_of_ne (hvalue entry hentry) ..).trans (h.assigned entry hentry)
    · rw [List.mem_singleton.mp hentry]
      exact Function.update_self ..
  tight := by simpa using Or.inr htight

/-- With all slots in use, the envelope meets one envelope for each of them where it starts. -/
theorem Swept.pressure (h : Swept given kept active [] nextSlot assignments item.start)
    (hvalid : item.start < item.stop) (halive : ∀ entry ∈ kept, item.start < entry.1.stop)
    (ordered : List (Envelope V)) :
    nextSlot + 1 ≤ (given.map Prod.fst ++ item :: ordered).countP (·.Covers item.start) := by
  have hlength : kept.length = nextSlot := by
    simpa using h.slots.length_eq
  have hmeet := h.books.pressure halive
  have hself : item.Covers item.start := ⟨le_rfl, hvalid⟩
  rw [List.countP_append, List.countP_cons_of_pos (by simpa using hself), ← hlength]
  calc kept.length + 1 ≤ (given.map Prod.fst).countP (·.Covers item.start) + 1 :=
        Nat.succ_le_succ hmeet
    _ ≤ _ := by omega

/-- The sweep goes through, or it stops where there are more envelopes than slots. -/
theorem colorEnvelopes_spec {ordered : List (Envelope V)}
    (h : Swept given kept active available nextSlot assignments now)
    (hsorted : ordered.Pairwise (·.start ≤ ·.start)) (hnow : ∀ item ∈ ordered, now ≤ item.start)
    (hvalid : ∀ item ∈ ordered, item.start < item.stop)
    (hvalues : ((given.map Prod.fst ++ ordered).map Envelope.value).Nodup) :
    (∃ coloring given' kept' active' available' now',
      colorEnvelopes ordered active available nextSlot assignments = .ok coloring ∧
        Swept given' kept' active' available' coloring.slotCount coloring.assignments now' ∧
        given'.map Prod.fst = given.map Prod.fst ++ ordered) ∨
      ∃ point, colorEnvelopes ordered active available nextSlot assignments =
          .error .slotCountOverflow ∧
        u32Max < (given.map Prod.fst ++ ordered).countP (·.Covers point) := by
  induction ordered generalizing given kept active available nextSlot assignments now with
  | nil => exact .inl ⟨_, _, _, _, _, _, rfl, h, (List.append_nil _).symm⟩
  | cons item ordered ih =>
    obtain ⟨hfirst, hsorted⟩ := List.pairwise_cons.mp hsorted
    obtain ⟨hvalidItem, hvalid⟩ := List.forall_mem_cons.mp hvalid
    have hreleased := h.release (hnow item (List.mem_cons_self ..))
    have halive : ∀ entry ∈ kept.filter (item.start < ·.1.stop), item.start < entry.1.stop :=
      fun entry hentry => of_decide_eq_true (List.mem_filter.mp hentry).2
    have hvalue : ∀ entry ∈ given, entry.1.value ≠ item.value := by
      intro entry hentry heq
      rw [List.map_append, List.nodup_append] at hvalues
      exact hvalues.2.2 _ (List.mem_map_of_mem (List.mem_map_of_mem hentry)) _
        (List.mem_map_of_mem (List.mem_cons_self ..)) heq
    have hfirsts : ∀ slot : Nat, (given ++ [(item, slot)]).map Prod.fst ++ ordered =
        given.map Prod.fst ++ item :: ordered := by simp
    rw [colorEnvelopes]
    generalize hrelease : releaseSlots item.start active available = released at hreleased
    obtain ⟨active', available'⟩ := released
    dsimp only at hreleased ⊢
    cases available' with
    | cons slot available' =>
      have hslots := List.perm_middle.trans hreleased.slots
      have hfree : slot ∉ (kept.filter (item.start < ·.1.stop)).map Prod.snd := fun hused =>
        (List.nodup_cons.mp (hreleased.slots.nodup_iff.mpr List.nodup_range)).1
          (List.mem_append_right _ hused)
      have hslot : slot < nextSlot := List.mem_range.mp
        (hreleased.slots.mem_iff.mp (List.mem_append_left _ (List.mem_cons_self ..)))
      have htight : ∃ point,
          nextSlot ≤ (given.map Prod.fst ++ [item]).countP (·.Covers point) := by
        obtain hzero | ⟨point, hpoint⟩ := hreleased.tight
        · omega
        · refine ⟨point, hpoint.trans ?_⟩
          rw [List.countP_append]
          exact Nat.le_add_right ..
      rw [← hfirsts slot] at hvalues ⊢
      exact ih (hreleased.place hvalue hfree le_rfl hslots hreleased.bound hslot htight) hsorted hfirst
        hvalid hvalues
    | nil =>
      have hpressure := hreleased.pressure hvalidItem halive
      dsimp only
      by_cases hroom : nextSlot + 1 ≤ u32Max
      · have hslots : (([] : List Nat) ++ nextSlot ::
            (kept.filter (item.start < ·.1.stop)).map Prod.snd).Perm (List.range (nextSlot + 1)) := by
          rw [List.range_succ]
          exact (List.perm_append_singleton _ _).symm.trans (hreleased.slots.append_right _)
        have hfree : nextSlot ∉ (kept.filter (item.start < ·.1.stop)).map Prod.snd := fun hused =>
          Nat.lt_irrefl _ (List.mem_range.mp (hreleased.slots.mem_iff.mp hused))
        rw [if_pos hroom]
        rw [← hfirsts nextSlot] at hvalues ⊢
        exact ih (hreleased.place hvalue hfree (Nat.le_succ _) hslots hroom (Nat.lt_succ_self _)
          ⟨item.start, hpressure []⟩) hsorted hfirst hvalid hvalues
      · rw [if_neg hroom]
        exact .inr ⟨item.start, rfl, (Nat.lt_of_not_le hroom).trans_le (hpressure ordered)⟩

end Spec

/-! ## The colouring -/

section Coloring
variable {V : Type}

/-- Segments with points, in the order of their starts and of their ends. -/
structure SortedSegments (segments : List Liveness.LiveSegment) : Prop where
  nonempty : segments ≠ []
  valid : ∀ segment ∈ segments, segment.start < segment.stop
  ordered : segments.Pairwise fun segment later =>
    toLex (segment.block, segment.start) ≤ toLex (later.block, later.start) ∧
      toLex (segment.block, segment.stop) ≤ toLex (later.block, later.stop)

/-- Two intervals interfere when some segments of theirs do. -/
def Interfere (interval other : LiveInterval V) : Prop :=
  ∃ segment ∈ interval.segments, ∃ segment' ∈ other.segments, segment.overlaps segment' = true

/-- The envelopes that overlap at a point. -/
def envelopesAt (intervals : List (LiveInterval V)) (point : BlockPoint) : Nat :=
  (intervals.filterMap envelope).countP (·.Covers point)

theorem segment_lt {segment : Liveness.LiveSegment} (h : segment.start < segment.stop) :
    toLex (segment.block, segment.start) < toLex (segment.block, segment.stop) :=
  Prod.Lex.toLex_lt_toLex.mpr (.inr ⟨rfl, h⟩)

/-- The envelope reaches from the start to the end of every segment. -/
theorem envelope_spec {interval : LiveInterval V} (h : SortedSegments interval.segments) :
    ∃ item, envelope interval = some item ∧ item.value = interval.value ∧ item.start < item.stop ∧
      ∀ segment ∈ interval.segments, item.start ≤ toLex (segment.block, segment.start) ∧
        toLex (segment.block, segment.stop) ≤ item.stop := by
  unfold envelope
  cases hsegments : interval.segments with
  | nil => exact absurd hsegments h.nonempty
  | cons first rest =>
    obtain ⟨-, hvalid, hordered⟩ := hsegments ▸ h
    have hfirst : ∀ segment ∈ first :: rest,
        toLex (first.block, first.start) ≤ toLex (segment.block, segment.start) :=
      List.forall_mem_cons.mpr ⟨le_rfl, fun segment hsegment =>
        ((List.pairwise_cons.mp hordered).1 segment hsegment).1⟩
    have hlast : ∀ segment ∈ first :: rest, toLex (segment.block, segment.stop) ≤
        toLex (((first :: rest).getLast (List.cons_ne_nil _ _)).block,
          ((first :: rest).getLast (List.cons_ne_nil _ _)).stop) :=
      fun segment hsegment => (hordered.imp And.right).rel_getLast_of_rel_getLast_getLast hsegment le_rfl
    have hmem := List.mem_cons_self (a := first) (l := rest)
    refine ⟨_, rfl, rfl, (segment_lt (hvalid first hmem)).trans_le (hlast first hmem),
      fun segment hsegment => ⟨hfirst segment hsegment, hlast segment hsegment⟩⟩

/-- Where segments overlap the envelopes do. -/
theorem meet_of_interfere {interval other : LiveInterval V} {item item' : Envelope V}
    (h : SortedSegments interval.segments) (h' : SortedSegments other.segments)
    (hitem : envelope interval = some item) (hitem' : envelope other = some item')
    (hinterfere : Interfere interval other) : envelopeLifetimes.Meet item item' := by
  obtain ⟨segment, hsegment, segment', hsegment', hoverlaps⟩ := hinterfere
  obtain ⟨_, heq, -, -, hcover⟩ := envelope_spec h
  obtain rfl := Option.some.inj (hitem.symm.trans heq)
  obtain ⟨_, heq', -, -, hcover'⟩ := envelope_spec h'
  obtain rfl := Option.some.inj (hitem'.symm.trans heq')
  simp only [Liveness.LiveSegment.overlaps, Bool.and_eq_true, decide_eq_true_eq] at hoverlaps
  obtain ⟨⟨hblock, hlt⟩, hlt'⟩ := hoverlaps
  have hvalid := h.valid segment hsegment
  have hvalid' := h'.valid segment' hsegment'
  have hpoint : ∀ {s : Liveness.LiveSegment}, s.block = segment.block →
      s.start ≤ max segment.start segment'.start → max segment.start segment'.start < s.stop →
      toLex (s.block, s.start) ≤ toLex (segment.block, max segment.start segment'.start) ∧
        toLex (segment.block, max segment.start segment'.start) < toLex (s.block, s.stop) :=
    fun hs hle hlt => ⟨Prod.Lex.toLex_le_toLex.mpr (.inr ⟨hs, hle⟩),
      Prod.Lex.toLex_lt_toLex.mpr (.inr ⟨hs.symm, hlt⟩)⟩
  have hp := hpoint rfl (Nat.le_max_left ..) (max_lt hvalid hlt')
  have hp' := hpoint hblock.symm (Nat.le_max_right ..) (max_lt hlt hvalid')
  exact ⟨_, ⟨(hcover segment hsegment).1.trans hp.1, hp.2.trans_le (hcover segment hsegment).2⟩,
    ⟨(hcover' segment' hsegment').1.trans hp'.1, hp'.2.trans_le (hcover' segment' hsegment').2⟩⟩

variable [LinearOrder V]

theorem collectEnvelopes_eq {intervals : List (LiveInterval V)} {seen : List V}
    (hsorted : ∀ interval ∈ intervals, SortedSegments interval.segments)
    (hdistinct : (intervals.map LiveInterval.value).Nodup)
    (hseen : ∀ interval ∈ intervals, interval.value ∉ seen) :
    collectEnvelopes intervals seen = .ok (intervals.filterMap envelope) := by
  induction intervals generalizing seen with
  | nil => rfl
  | cons interval intervals ih =>
    obtain ⟨hfirst, hsorted⟩ := List.forall_mem_cons.mp hsorted
    obtain ⟨hnew, hdistinct⟩ := List.nodup_cons.mp hdistinct
    obtain ⟨hunseen, hseen⟩ := List.forall_mem_cons.mp hseen
    obtain ⟨item, hitem, -⟩ := envelope_spec hfirst
    have hrest := @ih (interval.value :: seen) hsorted hdistinct fun other hother hmem => by
      rcases List.mem_cons.mp hmem with heq | hmem
      · exact hnew (heq ▸ List.mem_map_of_mem hother)
      · exact hseen other hother hmem
    rw [collectEnvelopes, if_neg hunseen, hitem, List.filterMap_cons_some hitem]
    simp only [hrest]
    rfl

/-- What becomes of intervals with sorted segments. -/
theorem colorStackSlots_spec {intervals : List (LiveInterval V)}
    (hdistinct : (intervals.map LiveInterval.value).Nodup)
    (hsorted : ∀ interval ∈ intervals, SortedSegments interval.segments) :
    (∃ coloring given kept active available now, colorStackSlots intervals = .ok coloring ∧
        Swept given kept active available coloring.slotCount coloring.assignments now ∧
        (given.map Prod.fst).Perm (intervals.filterMap envelope)) ∨
      ∃ point, colorStackSlots intervals = .error .slotCountOverflow ∧
        u32Max < envelopesAt intervals point := by
  unfold colorStackSlots
  rw [collectEnvelopes_eq hsorted hdistinct (by simp)]
  have hperm := List.perm_insertionSort (fun a b : Envelope V => a.key ≤ b.key)
    (intervals.filterMap envelope)
  have hpairwise := List.pairwise_insertionSort (fun a b : Envelope V => a.key ≤ b.key)
    (intervals.filterMap envelope)
  simp only [bind, Except.bind]
  generalize (intervals.filterMap envelope).insertionSort (·.key ≤ ·.key) = ordered at *
  have hmem : ∀ item ∈ ordered, ∃ interval ∈ intervals, envelope interval = some item :=
    fun item hitem => List.mem_filterMap.mp (hperm.mem_iff.mp hitem)
  have hvalid : ∀ item ∈ ordered, item.start < item.stop := by
    intro item hitem
    obtain ⟨interval, hinterval, heq⟩ := hmem item hitem
    obtain ⟨_, heq', -, hlt, -⟩ := envelope_spec (hsorted interval hinterval)
    exact Option.some.inj (heq.symm.trans heq') ▸ hlt
  have hvalues : (ordered.map Envelope.value).Nodup := by
    have hsame : (intervals.filterMap envelope).map Envelope.value =
        intervals.map LiveInterval.value := by
      rw [List.map_filterMap, ← List.filterMap_eq_map]
      refine List.filterMap_congr fun interval hinterval => ?_
      obtain ⟨item, hitem, hvalue, -⟩ := envelope_spec (hsorted interval hinterval)
      simp [hitem, hvalue]
    exact (hperm.map _).nodup_iff.mpr (hsame ▸ hdistinct)
  have hstart : ordered.Pairwise fun a b => a.start ≤ b.start :=
    hpairwise.imp fun h => (Prod.Lex.toLex_le_toLex.mp h).elim le_of_lt fun h => h.1.le
  have hbottom : ∀ item ∈ ordered, toLex (0, 0) ≤ item.start := fun item _ => by
    rcases Nat.eq_zero_or_pos item.start.1 with hzero | hpos
    · exact Prod.Lex.toLex_le_toLex.mpr (.inr ⟨hzero.symm, Nat.zero_le _⟩)
    · exact Prod.Lex.toLex_le_toLex.mpr (.inl hpos)
  have hspec := @colorEnvelopes_spec V _ [] [] [] [] 0 (fun _ => none) (toLex (0, 0)) ordered
    ⟨books_nil _, .refl _, .nil, .refl _, Nat.zero_le _, by simp, by simp, .inl rfl⟩ hstart hbottom
    hvalid hvalues
  rcases hspec with ⟨coloring, given, kept, active, available, now, hcolor, hswept, hgiven⟩ |
    ⟨point, hcolor, hover⟩
  · exact .inl ⟨coloring, given, kept, active, available, now, hcolor, hswept,
      (List.Perm.of_eq hgiven).trans hperm⟩
  · exact .inr ⟨point, hcolor, hover.trans_eq (hperm.countP_eq _)⟩

/-- A colouring uses as many slots as envelopes overlap at some point. -/
theorem Swept.slotCount_eq {given kept : List (Envelope V × Nat)}
    {active : List (BlockPoint × Nat × V)} {available : List Nat} {nextSlot : Nat}
    {assignments : V → Option Nat} {now : BlockPoint}
    (h : Swept given kept active available nextSlot assignments now) :
    (∀ point, (given.map Prod.fst).countP (·.Covers point) ≤ nextSlot) ∧
      ∃ point, (given.map Prod.fst).countP (·.Covers point) = nextSlot := by
  have hle : ∀ point, (given.map Prod.fst).countP (·.Covers point) ≤ nextSlot := by
    intro point
    have hcolours := countP_le_colours h.books.safe
      (fun entry hentry => List.mem_range.mpr (h.below entry hentry)) point
    rwa [List.nodup_range.dedup, List.length_range] at hcolours
  refine ⟨hle, ?_⟩
  obtain hzero | ⟨point, hpoint⟩ := h.tight
  · exact ⟨now, Nat.le_antisymm (hle now) (hzero ▸ Nat.zero_le _)⟩
  · exact ⟨point, Nat.le_antisymm (hle point) hpoint⟩

/-- Intervals that interfere have different slots, and there are as many slots as envelopes overlap at
some point; only where that is more than a slot number can count there is no colouring. -/
theorem colorStackSlots_exact (intervals : List (LiveInterval V))
    (hdistinct : (intervals.map LiveInterval.value).Nodup)
    (hsorted : ∀ interval ∈ intervals, SortedSegments interval.segments) :
    ((∃ point, u32Max < envelopesAt intervals point) →
      colorStackSlots intervals = .error .slotCountOverflow) ∧
    ((∀ point, envelopesAt intervals point ≤ u32Max) →
      ∃ coloring, colorStackSlots intervals = .ok coloring ∧
        (∀ interval ∈ intervals, ∃ slot < coloring.slotCount,
          coloring.assignments interval.value = some slot) ∧
        (∀ interval ∈ intervals, ∀ other ∈ intervals, interval.value ≠ other.value →
          Interfere interval other →
            coloring.assignments interval.value ≠ coloring.assignments other.value) ∧
        (∀ point, envelopesAt intervals point ≤ coloring.slotCount) ∧
        ∃ point, envelopesAt intervals point = coloring.slotCount) := by
  rcases colorStackSlots_spec hdistinct hsorted with
    ⟨coloring, given, kept, active, available, now, hcolor, hswept, hgiven⟩ | ⟨point, hcolor, hover⟩
  · have hcount := hswept.slotCount_eq
    simp only [hgiven.countP_eq] at hcount
    refine ⟨fun ⟨point, hover⟩ => ?_, fun _ => ⟨coloring, hcolor, ?_, ?_, hcount⟩⟩
    · exact absurd (hcount.1 point) (Nat.not_le.mpr (hswept.bound.trans_lt hover))
    · intro interval hinterval
      obtain ⟨item, hitem, hvalue, -⟩ := envelope_spec (hsorted interval hinterval)
      obtain ⟨entry, hentry, rfl⟩ := List.mem_map.mp
        (hgiven.mem_iff.mpr (List.mem_filterMap.mpr ⟨interval, hinterval, hitem⟩))
      exact ⟨entry.2, hswept.below entry hentry, hvalue ▸ hswept.assigned entry hentry⟩
    · intro interval hinterval other hother hne hinterfere hsame
      obtain ⟨item, hitem, hvalue, -⟩ := envelope_spec (hsorted interval hinterval)
      obtain ⟨item', hitem', hvalue', -⟩ := envelope_spec (hsorted other hother)
      obtain ⟨entry, hentry, rfl⟩ := List.mem_map.mp
        (hgiven.mem_iff.mpr (List.mem_filterMap.mpr ⟨interval, hinterval, hitem⟩))
      obtain ⟨entry', hentry', rfl⟩ := List.mem_map.mp
        (hgiven.mem_iff.mpr (List.mem_filterMap.mpr ⟨other, hother, hitem'⟩))
      rw [← hvalue, ← hvalue', hswept.assigned entry hentry, hswept.assigned entry' hentry'] at hsame
      refine not_meet_of_safe hswept.books.safe hentry hentry' (fun heq => hne ?_)
        (Option.some.inj hsame)
        (meet_of_interfere (hsorted interval hinterval) (hsorted other hother) hitem hitem' hinterfere)
      rw [← hvalue, ← hvalue', heq]
  · exact ⟨fun _ => hcolor, fun hroom => absurd (hroom point) (Nat.not_le.mpr hover)⟩

theorem colorStackSlots_exact_sparse :
    ∃ coloring, colorStackSlots [(⟨0, [⟨0, 0, 2⟩, ⟨2, 0, 8⟩]⟩ : LiveInterval Nat),
        ⟨1, [⟨1, 0, 2⟩, ⟨2, 7, 9⟩]⟩] = .ok coloring ∧
      coloring.assignments 0 ≠ coloring.assignments 1 := by
  have hsorted : ∀ interval ∈ [(⟨0, [⟨0, 0, 2⟩, ⟨2, 0, 8⟩]⟩ : LiveInterval Nat),
      ⟨1, [⟨1, 0, 2⟩, ⟨2, 7, 9⟩]⟩], SortedSegments interval.segments := by
    refine List.forall_mem_cons.mpr ⟨⟨by simp, by simp, ?_⟩,
      List.forall_mem_singleton.mpr ⟨by simp, by simp, ?_⟩⟩ <;>
      simp [Prod.Lex.toLex_le_toLex]
  obtain ⟨coloring, hok, -, hsafe, -⟩ := (colorStackSlots_exact _ (by decide) hsorted).2
    fun point => (List.countP_le_length).trans (by decide)
  exact ⟨coloring, hok, hsafe _ (List.mem_cons_self ..) _
    (List.mem_cons_of_mem _ (List.mem_cons_self ..)) (by decide)
    ⟨⟨2, 0, 8⟩, by simp, ⟨2, 7, 9⟩, by simp, by decide⟩⟩

/-- One short interval for each of `n` values. -/
def crowd (n : Nat) : List (LiveInterval Nat) := (List.range n).map fun value => ⟨value, [⟨0, 0, 1⟩]⟩

theorem envelopesAt_crowd (n : Nat) : envelopesAt (crowd n) (toLex (0, 0)) = n := by
  have hall : (crowd n).filterMap envelope =
      (List.range n).map fun value => ⟨toLex (0, 0), toLex (0, 1), value⟩ := by
    rw [crowd, List.filterMap_map, ← List.filterMap_eq_map]
    rfl
  have hcovers : ∀ value : Nat, Envelope.Covers ⟨toLex (0, 0), toLex (0, 1), value⟩ (toLex (0, 0)) :=
    fun value => ⟨le_rfl, Prod.Lex.toLex_lt_toLex.mpr (.inr ⟨rfl, Nat.one_pos⟩)⟩
  rw [envelopesAt, hall, List.countP_map]
  refine (List.countP_eq_length.mpr fun value _ => ?_).trans List.length_range
  exact decide_eq_true (hcovers value)

/-- Sorted intervals of different values that have no colouring. -/
theorem colorStackSlots_crowd :
    ((crowd (u32Max + 1)).map LiveInterval.value).Nodup ∧
      (∀ interval ∈ crowd (u32Max + 1), SortedSegments interval.segments) ∧
      colorStackSlots (crowd (u32Max + 1)) = .error .slotCountOverflow := by
  have hdistinct : ∀ n, ((crowd n).map LiveInterval.value).Nodup := by
    intro n
    rw [crowd, List.map_map]
    exact (List.map_id' (List.range n)).symm ▸ List.nodup_range
  have hsorted : ∀ n, ∀ interval ∈ crowd n, SortedSegments interval.segments := by
    intro n interval hinterval
    obtain ⟨value, -, rfl⟩ := List.mem_map.mp hinterval
    exact ⟨by simp, by simp, List.pairwise_singleton ..⟩
  refine ⟨hdistinct _, hsorted _, ?_⟩
  rcases colorStackSlots_spec (hdistinct (u32Max + 1)) (hsorted (u32Max + 1)) with
    ⟨coloring, given, kept, active, available, now, -, hswept, hgiven⟩ | ⟨_, hcolor, -⟩
  · have hle := hswept.slotCount_eq.1 (toLex (0, 0))
    rw [hgiven.countP_eq] at hle
    change envelopesAt _ _ ≤ _ at hle
    rw [envelopesAt_crowd] at hle
    exact absurd hle (Nat.not_le.mpr (Nat.lt_succ_of_le hswept.bound))
  · exact hcolor

end Coloring
end Celox.Regalloc
