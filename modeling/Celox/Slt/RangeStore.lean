import Celox.Analysis.Usize
import Celox.Data.ExceptList
import Celox.Data.OrderedMap
import Celox.Slt.Node

/-! # Range store

`celox-slt/src/range_store.rs`: the value of a variable as ranges of bits, each with the
expression it was assigned and the bit at which that expression was placed. -/
namespace Celox.Slt
open Celox.Analysis

structure RangeStoreError where
  message : String
  deriving Repr, DecidableEq

/-- `origin` is the lsb at which the data was originally placed. -/
structure StoredRange (T : Type) where
  expr : T
  width : Nat
  origin : Nat
  deriving Repr, DecidableEq

/-- The ranges by their lsb. -/
structure RangeStore (T : Type) where
  ranges : OrderedMap Nat (StoredRange T)

/-- `ok_or_else`. -/
def okOr {α : Type} (message : String) : Option α → Except RangeStoreError α
  | some a => .ok a
  | none => .error ⟨message⟩

/-- `usize::checked_sub`. -/
def checkedSub (a b : Nat) : Option Nat := if b ≤ a then some (a - b) else none

/-- Both ends in order and inside a store of `width` bits. -/
def BitAccess.Within (access : BitAccess) (width : Nat) : Prop :=
  access.lsb ≤ access.msb ∧ access.msb < width

namespace RangeStore
variable {T : Type}

def totalWidth (self : RangeStore T) : Except RangeStoreError Nat :=
  match self.ranges.last? with
  | none => .ok 0
  | some (lastLsb, last) =>
    if last.width = 0 then .error ⟨"range store contains a zero-width terminal range"⟩
    else okOr "range store total width overflows usize" (checkedAdd lastLsb last.width)

def new (initial : T) (width : Nat) : RangeStore T where
  ranges := if 0 < width then OrderedMap.empty.insert 0 ⟨initial, width, 0⟩ else .empty

def validateAccess (self : RangeStore T) (access : BitAccess) : Except RangeStoreError Nat := do
  let ⟨lsb, msb⟩ := access
  let width ← okOr s!"range access [{msb}:{lsb}] is malformed"
    ((checkedSub msb lsb).bind fun span => checkedAdd span 1)
  let totalWidth ← self.totalWidth
  if totalWidth = 0 ∨ totalWidth ≤ msb then
    .error ⟨s!"range access [{msb}:{lsb}] is outside store width {totalWidth}"⟩
  else .ok width

/-- The range `split_at` cuts in two, with its lsb. -/
def splitRange (self : RangeStore T) (bit : Nat) :
    Except RangeStoreError (Option (Nat × StoredRange T)) :=
  match self.ranges.lastBelow? bit with
  | none => .ok none
  | some (lsb, stored) =>
    if stored.width = 0 then .error ⟨s!"range at bit {lsb} has zero width"⟩
    else do
      let msb ← okOr "range end overflows usize" (checkedAdd lsb (stored.width - 1))
      return if lsb < bit ∧ bit ≤ msb then some (lsb, stored) else none

/-- Both halves keep the origin. -/
def splitAt (bit : Nat) : EStateM RangeStoreError (RangeStore T) Unit := do
  if bit = 0 then return
  let self ← get
  let totalWidth ← MonadExcept.ofExcept self.totalWidth
  if totalWidth < bit then
    throw ⟨s!"split position {bit} is outside store width {totalWidth}"⟩
  match ← MonadExcept.ofExcept (self.splitRange bit) with
  | none => return
  | some (lsb, stored) =>
    let left := { stored with width := bit - lsb }
    let right := { stored with width := lsb + (stored.width - 1) - bit + 1 }
    set (⟨(self.ranges.insert lsb left).insert bit right⟩ : RangeStore T)

/-- The new range is placed at the access. -/
def update (access : BitAccess) (value : T) : EStateM RangeStoreError (RangeStore T) Unit := do
  let width ← MonadExcept.ofExcept ((← get).validateAccess access)
  let stop ← MonadExcept.ofExcept
    (okOr "updated range end overflows usize" (checkedAdd access.msb 1))
  splitAt access.lsb
  splitAt stop
  modify fun self =>
    ⟨(self.ranges.removeRange access.lsb access.msb).insert access.lsb
      ⟨value, width, access.lsb⟩⟩

/-- The part of one range that lies in the access, relative to the origin of its expression. -/
def partOf (access : BitAccess) :
    Nat × StoredRange T → Except RangeStoreError (Option (T × BitAccess))
  | (rangeLsb, stored) =>
    if stored.width = 0 then .error ⟨s!"range at bit {rangeLsb} has zero width"⟩
    else do
      let rangeMsb ← okOr "range end overflows usize" (checkedAdd rangeLsb (stored.width - 1))
      let overlapLsb := max rangeLsb access.lsb
      let overlapMsb := min rangeMsb access.msb
      if overlapLsb ≤ overlapMsb then
        let lsb ← okOr "range origin is above its overlapping LSB"
          (checkedSub overlapLsb stored.origin)
        let msb ← okOr "range origin is above its overlapping MSB"
          (checkedSub overlapMsb stored.origin)
        return some (stored.expr, ⟨lsb, msb⟩)
      else return none

def getParts (self : RangeStore T) (access : BitAccess) :
    Except RangeStoreError (List (T × BitAccess)) := do
  let _ ← self.validateAccess access
  let first ← okOr "range store does not cover access LSB" (self.ranges.lastUpTo? access.lsb)
  let parts ← (self.ranges.range first.1 access.msb).mapM (partOf access)
  return parts.reduceOption

/-! ## Partitions -/

/-- Consecutive nonempty ranges from `a` up to `b`, none placed above its lsb. -/
def Tiles : Nat → Nat → List (Nat × StoredRange T) → Prop
  | a, b, [] => a = b
  | a, b, (lsb, stored) :: rest =>
    lsb = a ∧ 0 < stored.width ∧ stored.origin ≤ lsb ∧ Tiles (lsb + stored.width) b rest

/-- The stored ranges are a partition of `[0, width)`. -/
def Partition (self : RangeStore T) (width : Nat) : Prop := Tiles 0 width self.ranges.entries

variable {a b m bit : Nat} {xs ys l : List (Nat × StoredRange T)} {e : Nat × StoredRange T}

theorem tiles_append : Tiles a b (xs ++ ys) ↔ ∃ m, Tiles a m xs ∧ Tiles m b ys := by
  induction xs generalizing a with
  | nil => simp [Tiles]
  | cons e xs ih =>
    simp only [List.cons_append, Tiles, ih]
    constructor
    · rintro ⟨ha, hw, ho, m, hx, hy⟩
      exact ⟨m, ⟨ha, hw, ho, hx⟩, hy⟩
    · rintro ⟨m, ⟨ha, hw, ho, hx⟩, hy⟩
      exact ⟨ha, hw, ho, m, hx, hy⟩

theorem Tiles.le (h : Tiles a b l) : a ≤ b := by
  induction l generalizing a with
  | nil => exact Nat.le_of_eq h
  | cons e l ih =>
    obtain ⟨rfl, -, -, hl⟩ := h
    exact (Nat.le_add_right _ _).trans (ih hl)

/-- A range lies between the ends of its partition. -/
theorem Tiles.mem (h : Tiles a b l) (he : e ∈ l) :
    a ≤ e.1 ∧ e.1 + e.2.width ≤ b ∧ 0 < e.2.width ∧ e.2.origin ≤ e.1 := by
  obtain ⟨xs, ys, rfl⟩ := List.append_of_mem he
  obtain ⟨m, hx, rfl, hw, ho, hy⟩ := tiles_append.mp h
  exact ⟨hx.le, hy.le, hw, ho⟩

theorem Tiles.key_lt (h : Tiles a b l) (he : e ∈ l) : e.1 < b := by
  obtain ⟨-, hle, hw, -⟩ := h.mem he
  omega

variable (bit) in
/-- Every position between the ends is above the start of a range, and at most at its end. -/
theorem Tiles.find (h : Tiles a b l) (ha : a < bit) (hb : bit ≤ b) :
    ∃ xs e ys, l = xs ++ e :: ys ∧ e.1 < bit ∧ bit ≤ e.1 + e.2.width ∧ Tiles a e.1 xs ∧
      Tiles (e.1 + e.2.width) b ys := by
  induction l generalizing a with
  | nil =>
    obtain rfl : a = b := h
    omega
  | cons e l ih =>
    obtain ⟨rfl, hw, ho, hl⟩ := h
    by_cases hbit : bit ≤ e.1 + e.2.width
    · exact ⟨[], e, l, rfl, ha, hbit, rfl, hl⟩
    · obtain ⟨xs, f, ys, rfl, hlt, hle, hx, hy⟩ := ih hl (by omega)
      exact ⟨e :: xs, f, ys, rfl, hlt, hle, ⟨rfl, hw, ho, hx⟩, hy⟩

/-- A partition can be cut where one of its ranges starts. -/
theorem Tiles.cut (h : Tiles a b l) (hm : m ∈ l.map Prod.fst ∨ m = b) :
    ∃ xs ys, l = xs ++ ys ∧ Tiles a m xs ∧ Tiles m b ys := by
  rcases hm with hm | rfl
  · obtain ⟨e, he, rfl⟩ := List.mem_map.mp hm
    obtain ⟨xs, ys, rfl⟩ := List.append_of_mem he
    obtain ⟨m, hx, rfl, hw, ho, hy⟩ := tiles_append.mp h
    exact ⟨xs, e :: ys, rfl, hx, rfl, hw, ho, hy⟩
  · exact ⟨l, [], by simp, h, rfl⟩

/-! ## The bits of a store -/

/-- For each bit the value it belongs to, and its position in that value. -/
abbrev BitMap (T : Type) := Nat → Option (T × Nat)

/-- What the ranges say about each bit. -/
def bitsOf (l : List (Nat × StoredRange T)) : BitMap T := fun i =>
  (l.find? fun e => e.1 ≤ i ∧ i < e.1 + e.2.width).map fun e => (e.2.expr, i - e.2.origin)

def bitMap (self : RangeStore T) : BitMap T := bitsOf self.ranges.entries

theorem bitsOf_append (i : Nat) : bitsOf (xs ++ ys) i = (bitsOf xs i).or (bitsOf ys i) := by
  simp only [bitsOf, List.find?_append]
  cases xs.find? fun e => e.1 ≤ i ∧ i < e.1 + e.2.width <;> rfl

theorem bitsOf_cons (i : Nat) : bitsOf (e :: l) i =
    if e.1 ≤ i ∧ i < e.1 + e.2.width then some (e.2.expr, i - e.2.origin) else bitsOf l i := by
  by_cases h : e.1 ≤ i ∧ i < e.1 + e.2.width
  · simp [bitsOf, h]
  · rw [if_neg h, bitsOf, List.find?_cons_of_neg (by simpa using h)]
    rfl

theorem Tiles.bitsOf_outside (h : Tiles a b l) {i : Nat} (hi : i < a ∨ b ≤ i) :
    bitsOf l i = none := by
  refine Option.map_eq_none_iff.mpr (List.find?_eq_none.mpr fun e he => ?_)
  obtain ⟨ha, hb, -, -⟩ := h.mem he
  simp only [decide_eq_true_eq]
  omega

/-- Two adjacent ranges that keep the origin mean what the range they came from means. -/
theorem bitsOf_halves {stored : StoredRange T} {lsb : Nat} (hlo : lsb < bit)
    (hhi : bit < lsb + stored.width) (i : Nat) :
    bitsOf ((lsb, { stored with width := bit - lsb }) ::
        (bit, { stored with width := lsb + (stored.width - 1) - bit + 1 }) :: l) i =
      bitsOf ((lsb, stored) :: l) i := by
  simp only [bitsOf_cons]
  split_ifs <;> first | rfl | omega

/-! ## Splitting -/

@[simp] theorem ofExcept_ok {α : Type} (x : α) (s : RangeStore T) :
    (MonadExcept.ofExcept (.ok x : Except RangeStoreError α) :
      EStateM RangeStoreError (RangeStore T) α) s = .ok x s := rfl

@[simp] theorem ofExcept_error {α : Type} (e : RangeStoreError) (s : RangeStore T) :
    (MonadExcept.ofExcept (.error e : Except RangeStoreError α) :
      EStateM RangeStoreError (RangeStore T) α) s = .error e s := rfl

variable {self : RangeStore T} {width : Nat}

/-- The lsbs of the stored ranges. -/
def lsbs (self : RangeStore T) : List Nat := self.ranges.entries.map Prod.fst

theorem Tiles.start (h : Tiles a b l) : a ∈ l.map Prod.fst ∨ a = b := by
  cases l with
  | nil => exact .inr h
  | cons e l => exact .inl (by simp [h.1])

theorem totalWidth_eq (h : self.Partition width) (hw : width ≤ usizeMax) :
    self.totalWidth = .ok width := by
  unfold totalWidth
  cases hlast : self.ranges.last? with
  | none =>
    rw [Partition, List.getLast?_eq_none_iff.mp hlast] at h
    exact congrArg _ h
  | some e =>
    obtain ⟨xs, hxs⟩ := List.getLast?_eq_some_iff.mp hlast
    rw [Partition, hxs] at h
    obtain ⟨m, -, rfl, hpos, -, rfl⟩ := tiles_append.mp h
    dsimp only
    rw [if_neg hpos.ne', checkedAdd, if_pos hw]
    rfl

/-- The range a split position falls into, and whether it is cut. -/
theorem splitRange_eq (h : self.Partition width) (hw : width ≤ usizeMax)
    (hentries : self.ranges.entries = xs ++ e :: ys) (hlo : e.1 < bit)
    (hhi : bit ≤ e.1 + e.2.width) :
    self.splitRange bit = .ok (if bit < e.1 + e.2.width then some e else none) := by
  have htiles : Tiles 0 width (xs ++ e :: ys) := hentries ▸ h
  obtain ⟨m, hx, rfl, hpos, ho, hy⟩ := tiles_append.mp htiles
  have hlast : self.ranges.lastBelow? bit = some e :=
    OrderedMap.lastBelow_eq hentries hlo fun f hf => hhi.trans (hy.mem hf).1
  have hle := hy.le
  unfold splitRange
  rw [hlast]
  dsimp only
  rw [if_neg hpos.ne', checkedAdd, if_pos (by omega)]
  show Except.ok _ = Except.ok _
  congr 1
  split_ifs <;> first | rfl | omega

/-- A split inside a range inserts its halves, and one at its end does nothing. -/
theorem splitAt_run (h : self.Partition width) (hw : width ≤ usizeMax)
    (hentries : self.ranges.entries = xs ++ e :: ys) (hlo : e.1 < bit)
    (hhi : bit ≤ e.1 + e.2.width) :
    splitAt bit self = .ok () (if bit < e.1 + e.2.width then
      ⟨(self.ranges.insert e.1 { e.2 with width := bit - e.1 }).insert bit
        { e.2 with width := e.1 + (e.2.width - 1) - bit + 1 }⟩
      else self) := by
  have hzero : bit ≠ 0 := by omega
  have hle : bit ≤ width := hhi.trans (h.mem (e := e) (by simp [hentries])).2.1
  simp only [splitAt, if_neg hzero, bind, EStateM.bind, get, getThe, MonadStateOf.get,
    EStateM.get, totalWidth_eq h hw, ofExcept_ok, if_neg (Nat.not_lt.mpr hle),
    splitRange_eq h hw hentries hlo hhi, pure]
  split_ifs <;> rfl

variable (bit) in
/-- What a split in range does: no bit changes its meaning, and a range starts at the position. -/
theorem splitAt_spec (h : self.Partition width) (hw : width ≤ usizeMax) (hb : bit ≤ width) :
    ∃ self', splitAt bit self = .ok () self' ∧ self'.Partition width ∧
      self'.bitMap = self.bitMap ∧ (bit ∈ self'.lsbs ∨ bit = width) ∧
      ∀ k ∈ self.lsbs, k ∈ self'.lsbs := by
  by_cases hzero : bit = 0
  · subst hzero
    exact ⟨self, rfl, h, rfl, h.start, fun k hk => hk⟩
  obtain ⟨xs, e, ys, hentries, hlo, hhi, hx, hy⟩ := h.find bit (Nat.pos_of_ne_zero hzero) hb
  obtain ⟨-, -, hpos, ho⟩ := h.mem (e := e) (by simp [hentries])
  refine ⟨_, splitAt_run h hw hentries hlo hhi, ?_⟩
  split_ifs with hlt
  · have hcut := OrderedMap.insert_split hentries hlo (fun f hf => hlt.trans_le (hy.mem hf).1)
      { e.2 with width := bit - e.1 } { e.2 with width := e.1 + (e.2.width - 1) - bit + 1 }
    refine ⟨?_, ?_, .inl ?_, ?_⟩
    · rw [Partition, hcut]
      refine tiles_append.mpr ⟨e.1, hx, rfl, by dsimp only; omega, ho, by dsimp only; omega,
        by dsimp only; omega, by dsimp only; omega, ?_⟩
      dsimp only
      convert hy using 1
      omega
    · funext i
      rw [bitMap, bitMap, hcut, hentries, bitsOf_append, bitsOf_append]
      exact congrArg _ (bitsOf_halves hlo hlt i)
    · simp [lsbs, hcut]
    · intro k hk
      rw [lsbs, hentries] at hk
      rw [lsbs, hcut]
      simp only [List.map_append, List.map_cons, List.mem_append, List.mem_cons] at hk ⊢
      tauto
  · obtain rfl : bit = e.1 + e.2.width := by omega
    refine ⟨h, rfl, ?_, fun k hk => hk⟩
    rw [lsbs, hentries]
    refine hy.start.imp_left fun hk => ?_
    simp only [List.map_append, List.map_cons, List.mem_append, List.mem_cons]
    exact .inr (.inr hk)

theorem splitAt_error (h : self.Partition width) (hw : width ≤ usizeMax) (hb : width < bit) :
    ∃ e, splitAt bit self = .error e self := by
  have hzero : bit ≠ 0 := by omega
  simp only [splitAt, if_neg hzero, bind, EStateM.bind, get, getThe, MonadStateOf.get,
    EStateM.get, totalWidth_eq h hw, ofExcept_ok, if_pos hb, throw, throwThe,
    MonadExceptOf.throw, EStateM.throw]
  exact ⟨_, rfl⟩

/-! ## Updating -/

/-- The bits of the access get the new value, each at its distance from the lsb. -/
def BitMap.update (bits : BitMap T) (access : BitAccess) (value : T) : BitMap T := fun i =>
  if access.Has i then some (value, i - access.lsb) else bits i

variable {access : BitAccess}

theorem validateAccess_ok (h : self.Partition width) (hw : width ≤ usizeMax)
    (ha : access.Within width) :
    self.validateAccess access = .ok (access.msb - access.lsb + 1) := by
  obtain ⟨lsb, msb⟩ := access
  obtain ⟨hle, hlt⟩ : lsb ≤ msb ∧ msb < width := ha
  have hspan : checkedAdd (msb - lsb) 1 = some (msb - lsb + 1) := if_pos (by omega)
  simp [validateAccess, checkedSub, hle, hspan, okOr, totalWidth_eq h hw, bind, Except.bind,
    Nat.not_le.mpr hlt, Nat.ne_zero_of_lt hlt]

theorem validateAccess_error (h : self.Partition width) (hw : width ≤ usizeMax)
    (ha : ¬ access.Within width) : ∃ e, self.validateAccess access = .error e := by
  obtain ⟨lsb, msb⟩ := access
  unfold validateAccess
  dsimp only
  cases hspan : (checkedSub msb lsb).bind fun span => checkedAdd span 1 with
  | none => exact ⟨_, rfl⟩
  | some span =>
    have hle : lsb ≤ msb := by
      by_contra hlt
      simp [checkedSub, hlt] at hspan
    have hout : width = 0 ∨ width ≤ msb := .inr (Nat.not_lt.mp fun hlt => ha ⟨hle, hlt⟩)
    simp only [okOr, bind, Except.bind, totalWidth_eq h hw, if_pos hout]
    exact ⟨_, rfl⟩

/-- The bits of a partition that had a segment replaced by one range. -/
theorem bitsOf_replace {zs : List (Nat × StoredRange T)} {value : T} (ha : access.Within width)
    (hx : Tiles 0 access.lsb xs) (hy : Tiles access.lsb (access.msb + 1) ys) :
    bitsOf (xs ++ (access.lsb, ⟨value, access.msb - access.lsb + 1, access.lsb⟩) :: zs) =
      BitMap.update (bitsOf (xs ++ ys ++ zs)) access value := by
  have hle := ha.1
  funext i
  rw [BitMap.update, bitsOf_append, bitsOf_cons, bitsOf_append, bitsOf_append]
  dsimp only
  by_cases hhas : access.Has i
  · rw [if_pos hhas, hx.bitsOf_outside (.inr hhas.1),
      if_pos ⟨hhas.1, by have := hhas.2; omega⟩, Option.none_or]
  · rw [if_neg hhas, if_neg fun hin => hhas ⟨hin.1, by omega⟩]
    have hout : i < access.lsb ∨ access.msb + 1 ≤ i := by
      by_contra hin
      exact hhas ⟨by omega, by omega⟩
    rw [hy.bitsOf_outside hout, Option.or_none]

/-- What an update in range does. -/
theorem update_spec (h : self.Partition width) (hw : width ≤ usizeMax)
    (ha : access.Within width) (value : T) :
    ∃ self', update access value self = .ok () self' ∧ self'.Partition width ∧
      self'.bitMap = self.bitMap.update access value := by
  obtain ⟨hle, hlt⟩ := ha
  obtain ⟨first, hfirst, hpart₁, hbits₁, hkey₁, -⟩ :=
    splitAt_spec access.lsb h hw (by omega)
  obtain ⟨second, hsecond, hpart₂, hbits₂, hkey₂, hkeys⟩ :=
    splitAt_spec (access.msb + 1) hpart₁ hw hlt
  have hlsb : access.lsb ∈ second.lsbs := hkeys _ (hkey₁.resolve_right (by omega))
  -- the store after both splits: a range starts at the lsb, and one behind the msb
  obtain ⟨xs, rest, hentries, hx, hrest⟩ := hpart₂.cut (.inl hlsb)
  obtain ⟨ys, zs, rfl, hy, hz⟩ := hrest.cut (m := access.msb + 1) <| by
    refine hkey₂.imp_left fun hmem => ?_
    rw [lsbs, hentries, List.map_append] at hmem
    refine (List.mem_append.mp hmem).resolve_left fun hleft => ?_
    obtain ⟨e, he, hkey⟩ := List.mem_map.mp hleft
    have := hx.key_lt he
    omega
  rw [← List.append_assoc] at hentries
  have hremoved := OrderedMap.removeRange_eq access.lsb access.msb hentries
    (fun e he => hx.key_lt he)
    (fun e he => ⟨(hy.mem he).1, Nat.le_of_lt_succ (hy.key_lt he)⟩) (fun e he => (hz.mem he).1)
  have hinserted := OrderedMap.insert_new hremoved (k := access.lsb) (fun e he => hx.key_lt he)
    (fun e he => by have := (hz.mem he).1; omega)
    (⟨value, access.msb - access.lsb + 1, access.lsb⟩ : StoredRange T)
  refine ⟨⟨(second.ranges.removeRange access.lsb access.msb).insert access.lsb
    ⟨value, access.msb - access.lsb + 1, access.lsb⟩⟩, ?_, ?_, ?_⟩
  · have hstop : checkedAdd access.msb 1 = some (access.msb + 1) := if_pos (by omega)
    simp only [update, bind, EStateM.bind, get, getThe, MonadStateOf.get, EStateM.get,
      validateAccess_ok h hw ⟨hle, hlt⟩, ofExcept_ok, hstop, okOr, hfirst, hsecond]
    rfl
  · rw [Partition, hinserted]
    refine tiles_append.mpr ⟨access.lsb, hx, rfl, Nat.succ_pos _, le_refl _, ?_⟩
    dsimp only
    convert hz using 1
    omega
  · rw [bitMap, hinserted, bitsOf_replace ⟨hle, hlt⟩ hx hy, ← hentries]
    exact congrArg (BitMap.update · access value) (hbits₂.trans hbits₁)

theorem update_error (h : self.Partition width) (hw : width ≤ usizeMax)
    (ha : ¬ access.Within width) (value : T) :
    ∃ e, update access value self = .error e self := by
  obtain ⟨e, he⟩ := validateAccess_error h hw ha
  refine ⟨e, ?_⟩
  simp only [update, bind, EStateM.bind, get, getThe, MonadStateOf.get, EStateM.get, he,
    ofExcept_error]

/-! ## Reading -/

/-- Consecutive nonempty parts from bit `start` to bit `stop`, each with a value and the bits
of it that the map has there. -/
def Covers (bits : BitMap T) : Nat → Nat → List (T × BitAccess) → Prop
  | start, stop, [] => start = stop
  | start, stop, (value, part) :: rest =>
    part.lsb ≤ part.msb ∧
      (∀ k < part.width, bits (start + k) = some (value, part.lsb + k)) ∧
      Covers bits (start + part.width) stop rest

theorem Covers.le {bits : BitMap T} {start stop : Nat} {parts : List (T × BitAccess)}
    (h : Covers bits start stop parts) : start ≤ stop := by
  induction parts generalizing start with
  | nil => exact Nat.le_of_eq h
  | cons p parts ih => exact (Nat.le_add_right _ _).trans (ih h.2.2)

theorem Covers.nil_of_eq {bits : BitMap T} {start : Nat} {parts : List (T × BitAccess)}
    (h : Covers bits start start parts) : parts = [] := by
  cases parts with
  | nil => rfl
  | cons p parts =>
    have hle := Covers.le h.2.2
    have hwidth : p.2.width = p.2.msb - p.2.lsb + 1 := rfl
    omega

/-- The part of a well-formed range that lies in the access. -/
def clip (access : BitAccess) (e : Nat × StoredRange T) : Option (T × BitAccess) :=
  let overlapLsb := max e.1 access.lsb
  let overlapMsb := min (e.1 + (e.2.width - 1)) access.msb
  if overlapLsb ≤ overlapMsb then
    some (e.2.expr, ⟨overlapLsb - e.2.origin, overlapMsb - e.2.origin⟩)
  else none

theorem partOf_eq (hend : e.1 + e.2.width ≤ usizeMax) (hpos : 0 < e.2.width)
    (ho : e.2.origin ≤ e.1) : partOf access e = .ok (clip access e) := by
  obtain ⟨lsb, expr, width, origin⟩ := e
  dsimp only at hend hpos ho
  have hmsb : checkedAdd lsb (width - 1) = some (lsb + (width - 1)) := if_pos (by omega)
  simp only [partOf, if_neg hpos.ne', hmsb, okOr, clip, bind, Except.bind]
  split_ifs with hle
  · have hlow : checkedSub (max lsb access.lsb) origin = some (max lsb access.lsb - origin) :=
      if_pos (by omega)
    have hhigh : checkedSub (min (lsb + (width - 1)) access.msb) origin =
        some (min (lsb + (width - 1)) access.msb - origin) := if_pos (by omega)
    rw [hlow, hhigh]
    rfl
  · rfl

variable (access) in
/-- The clipped ranges of a partition cover what the access has in common with it. -/
theorem Tiles.clip_covers {bits : BitMap T} (h : Tiles a b l)
    (hbits : ∀ i, a ≤ i → bits i = bitsOf l i) :
    Covers bits (max a access.lsb) (max (max a access.lsb) (min b (access.msb + 1)))
      (l.filterMap (clip access)) := by
  induction l generalizing a with
  | nil =>
    obtain rfl : a = b := h
    show max a access.lsb = _
    omega
  | cons e l ih =>
    obtain ⟨rfl, hpos, ho, hl⟩ := h
    have hle := hl.le
    have hrest := ih hl fun i hi => by
      rw [hbits i (by omega), bitsOf_cons, if_neg (by omega)]
    by_cases hover : max e.1 access.lsb ≤ min (e.1 + (e.2.width - 1)) access.msb
    · have hclip : clip access e = some (e.2.expr, ⟨max e.1 access.lsb - e.2.origin,
          min (e.1 + (e.2.width - 1)) access.msb - e.2.origin⟩) := if_pos hover
      rw [List.filterMap_cons_some hclip]
      refine ⟨by dsimp only; omega, fun k hk => ?_, ?_⟩
      · simp only [BitAccess.width] at hk
        rw [hbits _ (by omega), bitsOf_cons, if_pos (by omega)]
        show some (_, _) = some (_, _)
        rw [show max e.1 access.lsb + k - e.2.origin = max e.1 access.lsb - e.2.origin + k by omega]
      · simp only [BitAccess.width]
        by_cases hend : e.1 + e.2.width ≤ access.msb + 1
        · convert hrest using 1 <;> omega
        · -- the access ends in this range, and no later range has a part of it
          rw [show max (max (e.1 + e.2.width) access.lsb) (min b (access.msb + 1)) =
            max (e.1 + e.2.width) access.lsb by omega] at hrest
          rw [hrest.nil_of_eq]
          show _ + _ = max (max e.1 access.lsb) (min b (access.msb + 1))
          omega
    · have hclip : clip access e = none := if_neg hover
      rw [List.filterMap_cons_none hclip]
      by_cases hbefore : e.1 + e.2.width ≤ access.lsb
      · convert hrest using 1 <;> omega
      · rw [show max (max (e.1 + e.2.width) access.lsb) (min b (access.msb + 1)) =
          max (e.1 + e.2.width) access.lsb by omega] at hrest
        rw [hrest.nil_of_eq]
        show max e.1 access.lsb = _
        omega

/-- What a read in range returns. -/
theorem getParts_spec (h : self.Partition width) (hw : width ≤ usizeMax)
    (ha : access.Within width) :
    ∃ parts, self.getParts access = .ok parts ∧
      Covers self.bitMap access.lsb (access.msb + 1) parts := by
  obtain ⟨hle, hlt⟩ := ha
  obtain ⟨xs, e, ys, hentries, hlo, hhi, hx, hy⟩ :=
    h.find (access.lsb + 1) (Nat.succ_pos _) (by omega)
  have hfirst : self.ranges.lastUpTo? access.lsb = some e :=
    OrderedMap.lastUpTo_eq hentries (by omega) fun f hf => by
      have := (hy.mem hf).1
      omega
  have hmap : (self.ranges.range e.1 access.msb).mapM (partOf access) =
      .ok ((self.ranges.range e.1 access.msb).map (clip access)) := by
    refine mapM_ok fun f hf => ?_
    obtain ⟨-, hend, hpos, ho⟩ := h.mem (List.mem_filter.mp hf).1
    exact partOf_eq (hend.trans hw) hpos ho
  have hparts : ((self.ranges.range e.1 access.msb).map (clip access)).reduceOption =
      self.ranges.entries.filterMap (clip access) := by
    rw [List.reduceOption, List.filterMap_map, OrderedMap.range, List.filterMap_filter]
    refine List.filterMap_congr fun f hf => ?_
    split_ifs with hin
    · rfl
    · -- a range outside the bounds of the loop has no bit of the access
      refine (if_neg ?_).symm
      have hf' := h.mem hf
      simp only [decide_eq_true_eq] at hin
      by_cases hmsb : f.1 ≤ access.msb
      · rw [hentries] at hf
        rcases List.mem_append.mp hf with hf | hf
        · have := (hx.mem hf).2.1
          omega
        · rcases List.mem_cons.mp hf with rfl | hf
          · omega
          · have := (hy.mem hf).1
            omega
      · omega
  refine ⟨self.ranges.entries.filterMap (clip access), ?_, ?_⟩
  · rw [← hparts]
    simp only [getParts, validateAccess_ok h hw ⟨hle, hlt⟩, hfirst, okOr, bind, Except.bind, hmap]
    rfl
  · have hcovers := Tiles.clip_covers access h (fun i _ => rfl)
    rwa [Nat.zero_max, show max access.lsb (min width (access.msb + 1)) = access.msb + 1 by omega]
      at hcovers

theorem getParts_error (h : self.Partition width) (hw : width ≤ usizeMax)
    (ha : ¬ access.Within width) : ∃ e, self.getParts access = .error e := by
  obtain ⟨e, he⟩ := validateAccess_error h hw ha
  refine ⟨e, ?_⟩
  simp only [getParts, he, bind, Except.bind]

/-! ## Sequences of calls -/

/-- The calls of the interface, with their arguments. -/
inductive Call (T : Type) where
  | update (access : BitAccess) (value : T)
  | splitAt (bit : Nat)
  | getParts (access : BitAccess)

/-- One call. Only a read returns parts. -/
def Call.run : Call T → EStateM RangeStoreError (RangeStore T) (List (T × BitAccess))
  | .update access value => do
    RangeStore.update access value
    return []
  | .splitAt bit => do
    RangeStore.splitAt bit
    return []
  | .getParts access => do MonadExcept.ofExcept ((← get).getParts access)

/-- The store after a call, whether it failed or not. -/
def Call.after (call : Call T) (self : RangeStore T) : RangeStore T :=
  match call.run self with
  | .ok _ self' | .error _ self' => self'

def runCalls (calls : List (Call T)) (self : RangeStore T) : RangeStore T :=
  calls.foldl (fun self call => call.after self) self

/-- The arguments the interface accepts on a store of `width` bits. -/
def Call.InRange (width : Nat) : Call T → Prop
  | .update access _ | .getParts access => access.Within width
  | .splitAt bit => bit ≤ width

instance (access : BitAccess) : Decidable (access.Within width) :=
  inferInstanceAs (Decidable (_ ∧ _))

/-- What a call does to the bit map: only an update in range changes it. -/
def Call.onBits (width : Nat) : Call T → BitMap T → BitMap T
  | .update access value, bits =>
    if access.Within width then bits.update access value else bits
  | .splitAt _, bits | .getParts _, bits => bits

/-- What a call returns when it is accepted. -/
def Call.Returns (bits : BitMap T) : Call T → List (T × BitAccess) → Prop
  | .getParts access, parts => Covers bits access.lsb (access.msb + 1) parts
  | .update _ _, parts | .splitAt _, parts => parts = []

/-- A call does on the store what it does on the bit map, and leaves the store as it is when it
returns an error. -/
structure Call.Refines (call : Call T) (store : RangeStore T) (width : Nat) : Prop where
  accepted : call.InRange width → ∃ parts store', call.run store = .ok parts store' ∧
    call.Returns store.bitMap parts ∧ store'.Partition width ∧
    store'.bitMap = call.onBits width store.bitMap
  rejected : ¬ call.InRange width → ∃ e, call.run store = .error e store

theorem Call.refines (h : self.Partition width) (hw : width ≤ usizeMax) (call : Call T) :
    call.Refines self width := by
  cases call with
  | update access value =>
    constructor
    · intro ha
      obtain ⟨self', hrun, hpart, hbits⟩ := update_spec h hw ha value
      refine ⟨[], self', ?_, rfl, hpart, by rw [hbits]; exact (if_pos ha).symm⟩
      simp only [Call.run, bind, EStateM.bind, hrun]
      rfl
    · intro ha
      obtain ⟨e, he⟩ := update_error h hw ha value
      refine ⟨e, ?_⟩
      simp only [Call.run, bind, EStateM.bind, he]
  | splitAt bit =>
    constructor
    · intro hb
      obtain ⟨self', hrun, hpart, hbits, -⟩ := splitAt_spec _ h hw hb
      refine ⟨[], self', ?_, rfl, hpart, hbits⟩
      simp only [Call.run, bind, EStateM.bind, hrun]
      rfl
    · intro hb
      obtain ⟨e, he⟩ := splitAt_error h hw (Nat.not_le.mp hb)
      refine ⟨e, ?_⟩
      simp only [Call.run, bind, EStateM.bind, he]
  | getParts access =>
    constructor
    · intro ha
      obtain ⟨parts, hrun, hcovers⟩ := getParts_spec h hw ha
      refine ⟨parts, self, ?_, hcovers, h, rfl⟩
      simp only [Call.run, bind, EStateM.bind, get, getThe, MonadStateOf.get, EStateM.get, hrun,
        ofExcept_ok]
    · intro ha
      obtain ⟨e, he⟩ := getParts_error h hw ha
      refine ⟨e, ?_⟩
      simp only [Call.run, bind, EStateM.bind, get, getThe, MonadStateOf.get, EStateM.get, he,
        ofExcept_error]

/-- A rejected call does nothing to the bit map either. -/
theorem Call.onBits_rejected {call : Call T} (h : ¬ call.InRange width) (bits : BitMap T) :
    call.onBits width bits = bits := by
  cases call with
  | update access value => exact if_neg h
  | splitAt bit => rfl
  | getParts access => rfl

theorem Call.Refines.after {call : Call T} (h : call.Refines self width)
    (hself : self.Partition width) :
    (call.after self).Partition width ∧
      (call.after self).bitMap = call.onBits width self.bitMap := by
  by_cases hrange : call.InRange width
  · obtain ⟨parts, self', hrun, -, hpart, hbits⟩ := h.accepted hrange
    simp only [Call.after, hrun]
    exact ⟨hpart, hbits⟩
  · obtain ⟨e, he⟩ := h.rejected hrange
    simp only [Call.after, he, Call.onBits_rejected hrange]
    exact ⟨hself, trivial⟩

/-- The map of a new store. -/
def BitMap.new (initial : T) (width : Nat) : BitMap T := fun i =>
  if i < width then some (initial, i) else none

theorem new_partition (initial : T) (width : Nat) : (new initial width).Partition width := by
  unfold new Partition
  split_ifs with hpos
  · exact ⟨rfl, hpos, le_refl _, Nat.zero_add _⟩
  · exact (Nat.eq_zero_of_not_pos hpos).symm

theorem new_bitMap (initial : T) (width : Nat) :
    (new initial width).bitMap = BitMap.new initial width := by
  funext i
  unfold new bitMap BitMap.new
  split_ifs with hpos hlt hlt
  · exact (bitsOf_cons i).trans (if_pos ⟨Nat.zero_le _, by simpa using hlt⟩)
  · exact (bitsOf_cons i).trans (if_neg fun h => hlt (by simpa using h.2))
  · omega
  · rfl

theorem runCalls_partition (hw : width ≤ usizeMax) (calls : List (Call T))
    (h : self.Partition width) :
    (runCalls calls self).Partition width ∧
      (runCalls calls self).bitMap =
        calls.foldl (fun bits call => call.onBits width bits) self.bitMap := by
  induction calls generalizing self with
  | nil => exact ⟨h, rfl⟩
  | cons call calls ih =>
    obtain ⟨hpart, hbits⟩ := (Call.refines h hw call).after h
    have := ih hpart
    rw [hbits] at this
    exact this

/-- A store is the bit map that its calls make of the map it was created with, and each further
call does to it what it does to that map. -/
theorem refines_bitMap (initial : T) (hw : width ≤ usizeMax) (calls : List (Call T)) :
    (runCalls calls (new initial width)).Partition width ∧
      (runCalls calls (new initial width)).bitMap =
        calls.foldl (fun bits call => call.onBits width bits) (BitMap.new initial width) ∧
      ∀ call : Call T, call.Refines (runCalls calls (new initial width)) width := by
  obtain ⟨hpart, hbits⟩ := runCalls_partition hw calls (new_partition initial width)
  exact ⟨hpart, hbits.trans (by rw [new_bitMap]), Call.refines hpart hw⟩

/-- Overlapping updates of a byte, and a read across their boundaries. -/
theorem refines_bitMap_byte :
    (runCalls [.update ⟨2, 5⟩ 1, .update ⟨4, 7⟩ 2] (new 0 8)).getParts ⟨1, 6⟩ =
        .ok [(0, ⟨1, 1⟩), (1, ⟨0, 1⟩), (2, ⟨0, 2⟩)] ∧
      (runCalls [.update ⟨2, 5⟩ 1, .update ⟨4, 7⟩ 2] (new 0 8)).Partition 8 :=
  ⟨by decide, (refines_bitMap 0 (by decide) [.update ⟨2, 5⟩ 1, .update ⟨4, 7⟩ 2]).1⟩

end RangeStore

/-! ## Two range stores side by side

`aligned_parts` of `celox-slt/src/range_store.rs`: one pass over two partitions of the same width,
with a part for each range between two neighbouring boundaries of either. -/

structure AlignedRangePart (T U : Type) where
  access : BitAccess
  left : T × BitAccess
  right : U × BitAccess
  deriving Repr, DecidableEq

namespace RangeStore
variable {T U : Type}

def validateRangeBoundary (current : Nat × StoredRange T) (nextLsb totalWidth : Nat) :
    Except RangeStoreError Unit :=
  let (lsb, stored) := current
  if stored.width = 0 then .error ⟨s!"range at bit {lsb} has zero width"⟩
  else do
    let stop ← okOr "range end overflows usize" (checkedAdd lsb stored.width)
    if stop ≠ nextLsb ∨ totalWidth < stop then
      .error ⟨s!"range at bit {lsb} does not end at the next boundary {nextLsb}"⟩
    else .ok ()

def relativeAccess (origin absoluteLsb absoluteMsb : Nat) : Except RangeStoreError BitAccess := do
  let lsb ← okOr "range origin is above its aligned LSB" (checkedSub absoluteLsb origin)
  let msb ← okOr "range origin is above its aligned MSB" (checkedSub absoluteMsb origin)
  return ⟨lsb, msb⟩

/-- The lsb of the range that is peeked at, or the end of the store. -/
def nextBoundary (rest : List (Nat × StoredRange T)) (totalWidth : Nat) : Nat :=
  (rest.head?.map Prod.fst).getD totalWidth

/-- The ranges from the next boundary on; the error is the panic of `expect`. -/
def advance (expected : String) (boundary lsb totalWidth : Nat) (current : Nat × StoredRange T)
    (rest : List (Nat × StoredRange T)) :
    Except RangeStoreError ((Nat × StoredRange T) × List (Nat × StoredRange T)) :=
  if boundary = lsb ∧ lsb < totalWidth then
    match rest with
    | [] => .error ⟨expected⟩
    | next :: rest => .ok (next, rest)
  else .ok (current, rest)

/-- The loop, with the ranges of either side that are not behind it. -/
def alignLoop (totalWidth lsb : Nat) (left : Nat × StoredRange T)
    (leftRanges : List (Nat × StoredRange T)) (right : Nat × StoredRange U)
    (rightRanges : List (Nat × StoredRange U)) :
    Except RangeStoreError (List (AlignedRangePart T U)) :=
  if _ : lsb < totalWidth then do
    let leftBoundary := nextBoundary leftRanges totalWidth
    let rightBoundary := nextBoundary rightRanges totalWidth
    validateRangeBoundary left leftBoundary totalWidth
    validateRangeBoundary right rightBoundary totalWidth
    let nextLsb := min leftBoundary rightBoundary
    if _ : nextLsb ≤ lsb then
      .error ⟨"range store boundaries are not strictly ordered"⟩
    else
      let msb := nextLsb - 1
      let leftAccess ← relativeAccess left.2.origin lsb msb
      let rightAccess ← relativeAccess right.2.origin lsb msb
      let (left', leftRanges) ← advance "a peeked left range boundary exists" leftBoundary nextLsb
        totalWidth left leftRanges
      let (right', rightRanges) ← advance "a peeked right range boundary exists" rightBoundary
        nextLsb totalWidth right rightRanges
      let parts ← alignLoop totalWidth nextLsb left' leftRanges right' rightRanges
      return ⟨⟨lsb, msb⟩, (left.2.expr, leftAccess), (right.2.expr, rightAccess)⟩ :: parts
  else .ok []
termination_by totalWidth - lsb

def alignedParts (self : RangeStore T) (other : RangeStore U) :
    Except RangeStoreError (List (AlignedRangePart T U)) := do
  let totalWidth ← self.totalWidth
  let otherWidth ← other.totalWidth
  if totalWidth ≠ otherWidth then
    .error ⟨s!"range store widths differ: {totalWidth} and {otherWidth}"⟩
  else if totalWidth = 0 then .ok []
  else
    match self.ranges.entries, other.ranges.entries with
    | [], _ => .error ⟨"left range store is empty"⟩
    | _, [] => .error ⟨"right range store is empty"⟩
    | left :: leftRanges, right :: rightRanges =>
      if left.1 ≠ 0 ∨ right.1 ≠ 0 then .error ⟨"range store does not begin at bit zero"⟩
      else alignLoop totalWidth 0 left leftRanges right rightRanges

/-! ## One side of the walk -/

/-- The current range holds the bit the walk is at, and the ranges from it on agree with the map. -/
structure Cursor (bits : BitMap T) (lsb totalWidth : Nat) (current : Nat × StoredRange T)
    (rest : List (Nat × StoredRange T)) : Prop where
  tiles : Tiles current.1 totalWidth (current :: rest)
  start_le : current.1 ≤ lsb
  lt_stop : lsb < current.1 + current.2.width
  agrees : ∀ i, lsb ≤ i → bits i = bitsOf (current :: rest) i

section Cursor
variable {bits : BitMap T} {lsb next totalWidth : Nat} {current : Nat × StoredRange T}
  {rest : List (Nat × StoredRange T)}

theorem Cursor.origin_le (h : Cursor bits lsb totalWidth current rest) :
    current.2.origin ≤ lsb := h.tiles.2.2.1.trans h.start_le

theorem Cursor.boundary (h : Cursor bits lsb totalWidth current rest) :
    nextBoundary rest totalWidth = current.1 + current.2.width := by
  have hrest := h.tiles.2.2.2
  cases rest with
  | nil => exact hrest.symm
  | cons e rest => exact hrest.1

theorem Cursor.boundary_le (h : Cursor bits lsb totalWidth current rest) :
    current.1 + current.2.width ≤ totalWidth := h.tiles.2.2.2.le

theorem Cursor.validate (h : Cursor bits lsb totalWidth current rest)
    (hw : totalWidth ≤ usizeMax) :
    validateRangeBoundary current (current.1 + current.2.width) totalWidth = .ok () := by
  have hle := h.boundary_le
  unfold validateRangeBoundary
  dsimp only
  rw [if_neg h.tiles.2.1.ne', checkedAdd, if_pos (hle.trans hw)]
  refine if_neg ?_
  omega

theorem relativeAccess_eq {origin msb : Nat} (ho : origin ≤ lsb) (hle : lsb ≤ msb) :
    relativeAccess origin lsb msb = .ok ⟨lsb - origin, msb - origin⟩ := by
  unfold relativeAccess checkedSub
  rw [if_pos ho, if_pos (ho.trans hle)]
  rfl

theorem Cursor.bit (h : Cursor bits lsb totalWidth current rest) {i : Nat} (hlo : lsb ≤ i)
    (hhi : i < current.1 + current.2.width) :
    bits i = some (current.2.expr, i - current.2.origin) := by
  rw [h.agrees i hlo, bitsOf_cons, if_pos ⟨h.start_le.trans hlo, hhi⟩]

theorem Cursor.advance (h : Cursor bits lsb totalWidth current rest) (expected : String)
    (hlo : lsb < next) (hhi : next ≤ current.1 + current.2.width) (hend : next < totalWidth) :
    ∃ current' rest', advance expected (current.1 + current.2.width) next totalWidth current rest =
        .ok (current', rest') ∧ Cursor bits next totalWidth current' rest' := by
  unfold RangeStore.advance
  by_cases heq : current.1 + current.2.width = next
  · rw [if_pos ⟨heq, hend⟩]
    have hrest := h.tiles.2.2.2
    cases rest with
    | nil => exact absurd (heq.symm.trans hrest) hend.ne
    | cons e rest =>
      have hstart : e.1 = next := hrest.1.trans heq
      refine ⟨e, rest, rfl, ?_, hstart.le, ?_, fun i hi => ?_⟩
      · rw [hstart, ← heq]
        exact hrest
      · have := hrest.2.1
        omega
      · rw [h.agrees i (hlo.le.trans hi), bitsOf_cons, if_neg (by omega)]
  · rw [if_neg fun hc => heq hc.1]
    refine ⟨current, rest, rfl, h.tiles, h.start_le.trans hlo.le, by omega, fun i hi => ?_⟩
    exact h.agrees i (hlo.le.trans hi)

end Cursor

/-! ## The parts -/

/-- Consecutive nonempty parts from bit `start` to bit `stop`, each with the values and the bits of
them that the two maps have there. -/
def Aligned (left : BitMap T) (right : BitMap U) : Nat → Nat → List (AlignedRangePart T U) → Prop
  | start, stop, [] => start = stop
  | start, stop, part :: rest =>
    part.access.lsb = start ∧ start ≤ part.access.msb ∧
      part.left.2.msb = part.left.2.lsb + (part.access.msb - start) ∧
      part.right.2.msb = part.right.2.lsb + (part.access.msb - start) ∧
      (∀ i, start ≤ i → i ≤ part.access.msb →
        left i = some (part.left.1, part.left.2.lsb + (i - start)) ∧
        right i = some (part.right.1, part.right.2.lsb + (i - start))) ∧
      Aligned left right (part.access.msb + 1) stop rest

theorem alignLoop_spec {bits : BitMap T} {bits' : BitMap U} {totalWidth lsb : Nat}
    {left : Nat × StoredRange T} {leftRanges : List (Nat × StoredRange T)}
    {right : Nat × StoredRange U} {rightRanges : List (Nat × StoredRange U)}
    (hw : totalWidth ≤ usizeMax) (hl : Cursor bits lsb totalWidth left leftRanges)
    (hr : Cursor bits' lsb totalWidth right rightRanges) :
    ∃ parts, alignLoop totalWidth lsb left leftRanges right rightRanges = .ok parts ∧
      Aligned bits bits' lsb totalWidth parts := by
  generalize hn : totalWidth - lsb = n
  induction n using Nat.strong_induction_on generalizing lsb left leftRanges right rightRanges with
  | _ n ih =>
    subst hn
    have hlle := hl.boundary_le
    have hrle := hr.boundary_le
    have hllt := hl.lt_stop
    have hrlt := hr.lt_stop
    have hol := hl.origin_le
    have hor := hr.origin_le
    rw [alignLoop, dif_pos (by omega), hl.boundary, hr.boundary]
    dsimp only
    rw [hl.validate hw, hr.validate hw]
    generalize hnext : min (left.1 + left.2.width) (right.1 + right.2.width) = next
    have hlo : lsb < next := by omega
    have hmsb : lsb ≤ next - 1 := by omega
    simp only [bind, Except.bind]
    rw [dif_neg (by omega), relativeAccess_eq hol hmsb, relativeAccess_eq hor hmsb]
    have hbits : ∀ i, lsb ≤ i → i ≤ next - 1 →
        bits i = some (left.2.expr, lsb - left.2.origin + (i - lsb)) ∧
        bits' i = some (right.2.expr, lsb - right.2.origin + (i - lsb)) := by
      intro i hi hi'
      rw [hl.bit hi (by omega), hr.bit hi (by omega)]
      refine ⟨?_, ?_⟩ <;> congr 2 <;> omega
    have hstop : next - 1 + 1 = next := by omega
    have haligned : ∀ parts, Aligned bits bits' next totalWidth parts →
        Aligned bits bits' lsb totalWidth
          (⟨⟨lsb, next - 1⟩, (left.2.expr, ⟨lsb - left.2.origin, next - 1 - left.2.origin⟩),
            (right.2.expr, ⟨lsb - right.2.origin, next - 1 - right.2.origin⟩)⟩ :: parts) := by
      intro parts hparts
      refine ⟨rfl, hmsb, ?_, ?_, hbits, ?_⟩
      · dsimp only
        omega
      · dsimp only
        omega
      · rw [hstop]
        exact hparts
    by_cases hend : next < totalWidth
    · obtain ⟨left', leftRanges', hladv, hl'⟩ :=
        hl.advance "a peeked left range boundary exists" hlo (by omega) hend
      obtain ⟨right', rightRanges', hradv, hr'⟩ :=
        hr.advance "a peeked right range boundary exists" hlo (by omega) hend
      obtain ⟨parts, hparts, hrest⟩ := ih (totalWidth - next) (by omega) hl' hr' rfl
      simp only [hladv, hradv, hparts]
      exact ⟨_, rfl, haligned parts hrest⟩
    · -- the last part: neither side moves on
      have hstay : ∀ {S : Type} (expected : String) (boundary : Nat) (current : Nat × StoredRange S)
          (rest : List (Nat × StoredRange S)),
          advance expected boundary next totalWidth current rest = .ok (current, rest) :=
        fun _ _ _ _ => if_neg fun hc => hend hc.2
      have hdone : alignLoop totalWidth next left leftRanges right rightRanges = .ok [] := by
        rw [alignLoop, dif_neg hend]
      simp only [hstay, hdone]
      exact ⟨_, rfl, haligned [] (by show next = totalWidth; omega)⟩

variable {self : RangeStore T} {other : RangeStore U} {width : Nat}

/-- Two partitions of one width are aligned, with the bits of both. -/
theorem alignedParts_spec (h : self.Partition width) (h' : other.Partition width)
    (hw : width ≤ usizeMax) : ∃ parts, self.alignedParts other = .ok parts ∧
      Aligned self.bitMap other.bitMap 0 width parts := by
  unfold alignedParts
  rw [totalWidth_eq h hw, totalWidth_eq h' hw]
  simp only [bind, Except.bind]
  rw [if_neg (by simp)]
  by_cases hzero : width = 0
  · rw [if_pos hzero]
    exact ⟨[], rfl, hzero.symm⟩
  rw [if_neg hzero]
  have hcursor : ∀ {S : Type} {store : RangeStore S}, store.Partition width →
      ∃ current rest, store.ranges.entries = current :: rest ∧ current.1 = 0 ∧
        Cursor store.bitMap 0 width current rest := by
    intro S store hstore
    unfold Partition at hstore
    unfold bitMap
    cases hentries : store.ranges.entries with
    | nil =>
      rw [hentries] at hstore
      exact absurd hstore.symm hzero
    | cons current rest =>
      rw [hentries] at hstore
      have hstart : current.1 = 0 := hstore.1
      have hpos := hstore.2.1
      exact ⟨current, rest, rfl, hstart, hstart.symm ▸ hstore, hstart.le, by omega,
        fun _ _ => rfl⟩
  obtain ⟨left, leftRanges, hl, hl0, hcl⟩ := hcursor h
  obtain ⟨right, rightRanges, hr, hr0, hcr⟩ := hcursor h'
  rw [hl, hr]
  dsimp only
  rw [if_neg (by simp [hl0, hr0])]
  exact alignLoop_spec hw hcl hcr

/-- Two bytes with overlapping updates. -/
theorem alignedParts_bytes : ∃ parts,
    (runCalls [.update ⟨2, 5⟩ 1] (new 0 8)).alignedParts
        (runCalls [.update ⟨4, 7⟩ 2] (new 0 8)) = .ok parts ∧
      Aligned (runCalls [.update ⟨2, 5⟩ 1] (new 0 8)).bitMap
        (runCalls [.update ⟨4, 7⟩ 2] (new 0 8)).bitMap 0 8 parts :=
  alignedParts_spec (refines_bitMap 0 (by decide) [.update ⟨2, 5⟩ 1]).1
    (refines_bitMap 0 (by decide) [.update ⟨4, 7⟩ 2]).1 (by decide)

end RangeStore
end Celox.Slt
