import Celox.Opt.InlineForwarding
import Celox.Opt.LoadedBits

/-! # Forwarded commits publish the same

Between a store that was forwarded and the commit it stands for, the stable copy is ahead; behind the
store, the working copy is behind until it is written again. Where nothing sees either, the unit runs
as before. -/
namespace Celox.Opt
open Celox.Sir Celox.Layout Celox.Data Relation

variable {A : Type} [DecidableEq A]

/-! ## The plan -/

section Plan
variable {hazards : DirectStableStoreHazards A} {instructions : List (Instruction A)}
  {src : RegisterId} {off bits : Nat}

theorem contiguous_covers {found : List FoundStore} {start bit : Nat}
    (h : contiguousFrom start found = true) (hle : start ≤ bit)
    (hlt : bit < start + (found.map (·.bits)).sum) :
    ∃ store ∈ found, store.offset ≤ bit ∧ bit < store.offset + store.bits := by
  induction found generalizing start with
  | nil =>
    rw [List.map_nil, List.sum_nil] at hlt
    omega
  | cons store rest ih =>
    rw [contiguousFrom, Bool.and_eq_true, decide_eq_true_eq] at h
    obtain ⟨rfl, hrest⟩ := h
    rw [List.map_cons, List.sum_cons] at hlt
    by_cases hbit : bit < store.offset + store.bits
    · exact ⟨store, List.mem_cons_self, hle, hbit⟩
    · obtain ⟨other, hmem, hin⟩ := ih hrest (by omega) (by omega)
      exact ⟨other, List.mem_cons_of_mem _ hmem, hin⟩

theorem findStores_spec {src : RegionedAbsoluteAddr A} {entries : List (Instruction A × Nat)}
    {found : List FoundStore} (h : findStores src off bits entries = some found) :
    ∀ store ∈ found, ∃ value triggers sites,
      (.store src (.static store.offset) store.bits value triggers sites, store.index) ∈ entries ∧
      off ≤ store.offset ∧ store.offset + store.bits ≤ off + bits := by
  induction entries generalizing found with
  | nil =>
    cases h
    exact fun _ h => by cases h
  | cons entry rest ih =>
    obtain ⟨inst, index⟩ := entry
    have hskip : findStores src off bits rest = some found →
        ∀ store ∈ found, ∃ value triggers sites,
          (.store src (.static store.offset) store.bits value triggers sites, store.index) ∈
            (inst, index) :: rest ∧ off ≤ store.offset ∧
          store.offset + store.bits ≤ off + bits := by
      intro h store hstore
      obtain ⟨value, triggers, sites, hmem, hrange⟩ := ih h store hstore
      exact ⟨value, triggers, sites, List.mem_cons_of_mem _ hmem, hrange⟩
    unfold findStores at h
    split at h
    · rename_i addr storeOff storeBits value triggers sites
      split at h
      · rename_i hin
        obtain ⟨rfl, hrange⟩ := hin
        simp only [Option.bind_eq_bind, Option.bind_eq_some_iff, Option.pure_def,
          Option.some.injEq] at h
        obtain ⟨others, hothers, rfl⟩ := h
        intro store hstore
        rcases List.mem_cons.mp hstore with rfl | hstore
        · exact ⟨value, triggers, sites, List.mem_cons_self, hrange⟩
        · obtain ⟨value, triggers, sites, hmem, hrange⟩ := ih hothers store hstore
          exact ⟨value, triggers, sites, List.mem_cons_of_mem _ hmem, hrange⟩
      · exact hskip h
    all_goals
      first
        | exact hskip h
        | split at h
          · cases h
          · exact hskip h

/-- What a replacement stands for. -/
structure CommitReplacement.Fine (hazards : DirectStableStoreHazards A)
    (instructions : List (Instruction A)) (replacement : CommitReplacement A)
    (src : RegionedAbsoluteAddr A) (off bits : Nat) : Prop where
  commit : ∃ triggers, instructions[replacement.commit]? =
    some (.commit src replacement.target (.static off) bits triggers)
  working : src.region = WORKING_REGION
  stable : replacement.target.region = STABLE_REGION
  quiet : hazards.overlaps replacement.target.absoluteAddr off bits = false
  stores : ∀ si ∈ replacement.stores, si < replacement.commit ∧
    ∃ storeOff storeBits value triggers sites, instructions[si]? =
      some (.store src (.static storeOff) storeBits value triggers sites) ∧
      off ≤ storeOff ∧ storeOff + storeBits ≤ off + bits
  covers : ∀ bit, off ≤ bit → bit < off + bits → ∃ si ∈ replacement.stores,
    ∃ storeOff storeBits value triggers sites, instructions[si]? =
      some (.store src (.static storeOff) storeBits value triggers sites) ∧
      storeOff ≤ bit ∧ bit < storeOff + storeBits

omit [DecidableEq A] in
theorem mem_take_zipIdx {inst : Instruction A} {n si : Nat}
    (h : (inst, si) ∈ (instructions.zipIdx.take n).reverse) :
    si < n ∧ instructions[si]? = some inst := by
  obtain ⟨k, hk⟩ := List.mem_iff_getElem?.mp (List.mem_reverse.mp h)
  rw [List.getElem?_take] at hk
  split at hk
  · rename_i hlt
    rw [List.getElem?_zipIdx, Option.map_eq_some_iff] at hk
    obtain ⟨_, hget, heq⟩ := hk
    cases heq
    rw [Nat.zero_add]
    exact ⟨hlt, hget⟩
  · cases hk

theorem commitReplacements_fine {replacement : CommitReplacement A}
    (h : replacement ∈ commitReplacements hazards instructions) :
    ∃ src off bits, replacement.Fine hazards instructions src off bits := by
  obtain ⟨⟨inst, index⟩, hentry, hreplacement⟩ := List.mem_filterMap.mp h
  have hget : instructions[index]? = some inst := by
    obtain ⟨k, hk⟩ := List.mem_iff_getElem?.mp hentry
    rw [List.getElem?_zipIdx, Option.map_eq_some_iff] at hk
    obtain ⟨_, hget, heq⟩ := hk
    cases heq
    rwa [Nat.zero_add]
  unfold commitReplacement at hreplacement
  split at hreplacement
  · rename_i src dst off bits triggers heq
    obtain rfl : inst = _ := heq
    split at hreplacement
    · cases hreplacement
    · rename_i hguard
      rw [not_or, not_or, not_not, not_not, Bool.not_eq_true] at hguard
      obtain ⟨hworking, hstable, hquiet⟩ := hguard
      simp only [Option.bind_eq_bind, Option.bind_eq_some_iff] at hreplacement
      obtain ⟨found, hfound, hreplacement⟩ := hreplacement
      split at hreplacement
      · cases hreplacement
      · rename_i hsum
        split at hreplacement
        · rename_i hcontiguous
          cases hreplacement
          have hperm := List.perm_insertionSort (fun a b : FoundStore => a.offset ≤ b.offset) found
          have hspec := findStores_spec hfound
          refine ⟨src, off, bits, ⟨triggers, hget⟩, hworking, hstable, hquiet, fun si hsi => ?_,
            fun bit hle hlt => ?_⟩
          · obtain ⟨store, hstore, rfl⟩ := List.mem_map.mp hsi
            obtain ⟨value, triggers, sites, hmem, hrange⟩ :=
              hspec store (hperm.mem_iff.mp hstore)
            obtain ⟨hbefore, hstored⟩ := mem_take_zipIdx hmem
            exact ⟨hbefore, _, _, value, triggers, sites, hstored, hrange⟩
          · rw [← not_not.mp hsum] at hlt
            obtain ⟨store, hstore, hin⟩ := contiguous_covers hcontiguous hle hlt
            obtain ⟨value, triggers, sites, hmem, -⟩ := hspec store (hperm.mem_iff.mp hstore)
            exact ⟨store.index, List.mem_map_of_mem hstore, _, _, value, triggers, sites,
              (mem_take_zipIdx hmem).2, hin⟩
        · cases hreplacement
  · cases hreplacement

end Plan

/-! ## Where the copies differ -/

section Differ
variable (hazards : DirectStableStoreHazards A) (eu : RegionedUnit A)

def replacementsOf (b : BlockId) : List (CommitReplacement A) :=
  commitReplacements hazards (instructionsOf eu b)

/-- A bit that a forwarded store at `si` writes for a commit that is left out. -/
structure Forwarded (b : BlockId) (replacement : CommitReplacement A) (si : Nat)
    (src : RegionedAbsoluteAddr A) (bit : Nat) : Prop where
  planned : replacement ∈ replacementsOf hazards eu b
  store : si ∈ replacement.stores
  writes : ∃ off bits value triggers sites, (instructionsOf eu b)[si]? =
    some (.store src (.static off) bits value triggers sites) ∧ off ≤ bit ∧ bit < off + bits

/-- A stable bit that was stored to before its commit. -/
def StoredAhead (b : BlockId) (i : Nat) (target : RegionedAbsoluteAddr A) (bit : Nat) : Prop :=
  ∃ replacement si src, Forwarded hazards eu b replacement si src bit ∧
    replacement.target = target ∧ si < i ∧
    ∀ other, Forwarded hazards eu b other si src bit → i ≤ other.commit

/-- A working bit that was not stored to, on a path to a position. -/
inductive Behind (src : RegionedAbsoluteAddr A) (bit : Nat) : BlockId → Nat → Prop
  | store {b : BlockId} {replacement : CommitReplacement A} {si : Nat} : ReachesBlock eu b →
    Forwarded hazards eu b replacement si src bit → Behind src bit b (si + 1)
  | pass {b : BlockId} {i : Nat} {inst : Instruction A} : Behind src bit b i →
    (instructionsOf eu b)[i]? = some inst → ¬ inst.mustWrite src bit → Behind src bit b (i + 1)
  | edge {b c : BlockId} : Behind src bit b (instructionsOf eu b).length →
    c ∈ successorBlocks eu b → Behind src bit c 0

def LeftOut (b : BlockId) (i : Nat) : Prop :=
  ∃ replacement ∈ replacementsOf hazards eu b, replacement.commit = i

/-- The hazard analysis takes the access for an observation of bits that are still pending. -/
def SeenBetween (b : BlockId) (si p : Nat) (src target : RegionedAbsoluteAddr A) (bit : Nat)
    (inst : Instruction A) : Prop :=
  src.absoluteAddr = target.absoluteAddr ∧
    observesBit (inRange eu.registerMap) inst target.absoluteAddr bit ∧
    ∀ (q : Nat) other, si < q → q < p → (instructionsOf eu b)[q]? = some other →
      ¬ publishesBit (inRange eu.registerMap) other target.absoluteAddr bit

/-- Nothing sees that the copies differ. -/
structure ForwardsCommitsWell : Prop where
  /-- What is committed is what the forwarded store wrote. -/
  kept : ∀ b replacement si src bit, Forwarded hazards eu b replacement si src bit →
    ∀ (p : Nat) inst, si < p → p < replacement.commit → (instructionsOf eu b)[p]? = some inst →
      ¬ inst.mayWrite src bit
  /-- All commits of a store have one target. -/
  target : ∀ b replacement si src bit, Forwarded hazards eu b replacement si src bit →
    newTarget (replacementsOf hazards eu b) si = some replacement.target
  /-- No other forwarded store to the stable bit comes between. -/
  apart : ∀ b replacement si src bit, Forwarded hazards eu b replacement si src bit →
    ∀ other p src', Forwarded hazards eu b other p src' bit → other.target = replacement.target →
      ¬ (si < p ∧ p < replacement.commit)
  /-- Accesses to the stable bit in between are seen by the analysis. -/
  seen : ∀ b replacement si src bit, Forwarded hazards eu b replacement si src bit →
    ∀ (p : Nat) inst, si < p → p < replacement.commit → (instructionsOf eu b)[p]? = some inst →
      ¬ LeftOut hazards eu b p →
      inst.mayWrite replacement.target bit ∨
        inst.mayRead replacement.target bit ∧ StoredAhead hazards eu b p replacement.target bit →
      SeenBetween eu b si p src replacement.target bit inst
  /-- Working bits are not read before they are written again. -/
  unread : ∀ b (i : Nat) inst addr bit, (instructionsOf eu b)[i]? = some inst →
    ¬ LeftOut hazards eu b i → inst.mayRead addr bit → ¬ Behind hazards eu addr bit b i

end Differ

section Facts
variable {hazards : DirectStableStoreHazards A} {eu : RegionedUnit A} {b : BlockId} {i si : Nat}
  {replacement other : CommitReplacement A} {src target : RegionedAbsoluteAddr A} {bit : Nat}
  {inst : Instruction A}

theorem Forwarded.region (h : Forwarded hazards eu b replacement si src bit) :
    src.region = WORKING_REGION := by
  obtain ⟨src', _, _, hfine⟩ := commitReplacements_fine h.planned
  obtain ⟨_, _, _, _, _, hstore, -⟩ := h.writes
  obtain ⟨-, _, _, _, _, _, hstore', -⟩ := hfine.stores si h.store
  rw [hstore] at hstore'
  cases hstore'
  exact hfine.working

theorem Forwarded.before (h : Forwarded hazards eu b replacement si src bit) :
    si < replacement.commit := by
  obtain ⟨_, _, _, hfine⟩ := commitReplacements_fine h.planned
  exact (hfine.stores si h.store).1

/-- The commit of a forwarded store takes its bits. -/
theorem Forwarded.commits (h : Forwarded hazards eu b replacement si src bit) :
    ∃ off bits triggers, (instructionsOf eu b)[replacement.commit]? =
      some (.commit src replacement.target (.static off) bits triggers) ∧
      off ≤ bit ∧ bit < off + bits ∧
      hazards.overlaps replacement.target.absoluteAddr off bits = false := by
  obtain ⟨src', off, bits, hfine⟩ := commitReplacements_fine h.planned
  obtain ⟨storeOff, storeBits, _, _, _, hstore, hle, hlt⟩ := h.writes
  obtain ⟨-, _, _, _, _, _, hstore', hin⟩ := hfine.stores si h.store
  rw [hstore] at hstore'
  cases hstore'
  obtain ⟨triggers, hcommit⟩ := hfine.commit
  exact ⟨off, bits, triggers, hcommit, by omega, by omega, hfine.quiet⟩

omit [DecidableEq A] in
theorem newTarget_some {replacements : List (CommitReplacement A)}
    (h : newTarget replacements i = some target) :
    ∃ replacement ∈ replacements, i ∈ replacement.stores ∧ replacement.target = target := by
  obtain ⟨replacement, hlast, heq⟩ := Option.map_eq_some_iff.mp h
  obtain ⟨hmem, hstore⟩ := List.mem_filter.mp (List.mem_of_getLast? hlast)
  exact ⟨replacement, hmem, of_decide_eq_true hstore, heq⟩

omit [DecidableEq A] in
theorem newTarget_none {replacements : List (CommitReplacement A)}
    (h : newTarget replacements i = none) (hmem : replacement ∈ replacements) :
    i ∉ replacement.stores := by
  intro hstore
  have hnil := List.getLast?_eq_none_iff.mp (Option.map_eq_none_iff.mp h)
  exact List.filter_eq_nil_iff.mp hnil replacement hmem (decide_eq_true hstore)

theorem inRange_lt {registerMap : Table RegisterId RegisterType} {offset : SIROffset} {bits : Nat}
    (h : inRange registerMap offset bits bit) : bit < usizeMax := by
  have hstop : (instructionRange registerMap offset bits).stop ≤ usizeMax := by
    unfold instructionRange saturatingAdd
    split
    · exact Nat.min_le_right _ _
    · exact Nat.min_le_right _ _
    · split
      · exact le_rfl
      · exact Nat.min_le_right _ _
    · split
      · exact le_rfl
      · exact Nat.min_le_right _ _
    · exact le_rfl
  exact h.2.trans_le hstop

theorem observesBit_lt {a : A} (h : observesBit (inRange eu.registerMap) inst a bit) :
    bit < usizeMax := by
  cases inst with
  | load | store => exact inRange_lt h.2.2
  | commit => exact inRange_lt h.2
  | _ => exact h.elim

/-- What the analysis sees it reports, so the commit would have stayed. -/
theorem SeenBetween.absurd (hreach : ReachesBlock eu b)
    (h : Forwarded (directStableStoreHazards eu) eu b replacement si src bit) {p : Nat}
    (hp : si < p) (hinst : (instructionsOf eu b)[p]? = some inst)
    (hseen : SeenBetween eu b si p src replacement.target bit inst) : False := by
  obtain ⟨haddr, hobserves, hquiet⟩ := hseen
  obtain ⟨off, bits, -, -, hle, hlt, hoverlaps⟩ := h.commits
  obtain ⟨storeOff, storeBits, value, triggers, sites, hstore, hin⟩ := h.writes
  have hmax := observesBit_lt hobserves
  have hwrites : writesBit (inRange eu.registerMap)
      (.store src (.static storeOff) storeBits value triggers sites) replacement.target.absoluteAddr
      bit := by
    refine ⟨?_, haddr, hin.1, ?_⟩
    · unfold isStateWrite
      rw [h.region]
      rfl
    · simp only [instructionRange, saturatingAdd]
      omega
  have hpends : ∀ n, si + 1 + n ≤ p → Pends eu
      (writesBit (inRange eu.registerMap) · replacement.target.absoluteAddr bit)
      (publishesBit (inRange eu.registerMap) · replacement.target.absoluteAddr bit) b
      (si + 1 + n) := by
    intro n
    induction n with
    | zero => exact fun _ => .write hreach hstore hwrites
    | succ n ih =>
      intro hn
      obtain ⟨other, hother⟩ : ∃ other, (instructionsOf eu b)[si + 1 + n]? = some other :=
        ⟨_, List.getElem?_eq_getElem (by
          have := (List.getElem?_eq_some_iff.mp hinst).1
          omega)⟩
      exact .pass (ih (by omega)) hother (hquiet _ other (by omega) (by omega) hother)
  have hat := hpends (p - (si + 1)) (by omega)
  rw [show si + 1 + (p - (si + 1)) = p by omega] at hat
  obtain ⟨range, hmem, hhas⟩ := (reported_iff_hazardous eu replacement.target.absoluteAddr bit).mpr
    ⟨b, .inl ⟨p, inst, hinst, hobserves, hat⟩⟩
  have hany : (directStableStoreHazards eu).overlaps replacement.target.absoluteAddr off bits =
      true := by
    refine List.any_eq_true.mpr ⟨range, hmem, ?_⟩
    rw [Bool.and_eq_true, decide_eq_true_eq, decide_eq_true_eq]
    refine ⟨hle.trans_lt hhas.2, hhas.1.trans_lt ?_⟩
    unfold saturatingAdd
    omega
  rw [hoverlaps] at hany
  cases hany

end Facts

/-! ## Steps -/

section Step
variable {eu : RegionedUnit A} {model : BitModel (RegionedAbsoluteAddr A)} {b : BlockId} {i : Nat}
  {s s' t : State (RegionedAbsoluteAddr A) (BitMemory (RegionedAbsoluteAddr A))}
  {inst : Instruction A}

/-- In front of an instruction: what was forwarded is in the stable copy already, and the copies are
the same but for bits that are ahead or behind. -/
structure Follows (eu : RegionedUnit A) (model : BitModel (RegionedAbsoluteAddr A)) (b : BlockId)
    (i : Nat) (s s' : State (RegionedAbsoluteAddr A) (BitMemory (RegionedAbsoluteAddr A))) :
    Prop where
  regs : s'.regs = s.regs
  held : ∀ replacement si src bit,
    Forwarded (directStableStoreHazards eu) eu b replacement si src bit → si < i →
      i ≤ replacement.commit →
      s'.memory replacement.target bit = model.hold replacement.target (s.memory src bit)
  same : ∀ addr bit, ¬ StoredAhead (directStableStoreHazards eu) eu b i addr bit →
    ¬ Behind (directStableStoreHazards eu) eu addr bit b i →
      s'.memory addr bit = s.memory addr bit

/-- The stable copy keeps of a working bit what it keeps of the bit that was stored. -/
def HoldsAlike (eu : RegionedUnit A) (model : BitModel (RegionedAbsoluteAddr A)) : Prop :=
  ∀ b replacement si src bit, Forwarded (directStableStoreHazards eu) eu b replacement si src bit →
    ∀ value, model.hold replacement.target (model.hold src value) =
      model.hold replacement.target value

theorem not_behind_pass {hazards : DirectStableStoreHazards A} {addr : RegionedAbsoluteAddr A}
    {bit : Nat} (hi : (instructionsOf eu b)[i]? = some inst)
    (h : ¬ Behind hazards eu addr bit b (i + 1)) (hwrite : ¬ inst.mustWrite addr bit) :
    ¬ Behind hazards eu addr bit b i :=
  fun hbehind => h (.pass hbehind hi hwrite)

/-- Where no commit is left out, what is ahead stays ahead. -/
theorem StoredAhead.next {hazards : DirectStableStoreHazards A} {addr : RegionedAbsoluteAddr A}
    {bit : Nat} (h : StoredAhead hazards eu b i addr bit) (hstays : ¬ LeftOut hazards eu b i) :
    StoredAhead hazards eu b (i + 1) addr bit := by
  obtain ⟨replacement, si, src, hforwarded, htarget, hlt, hall⟩ := h
  refine ⟨replacement, si, src, hforwarded, htarget, by omega, fun other hother => ?_⟩
  have hle := hall other hother
  have hne : other.commit ≠ i := fun heq => hstays ⟨other, hother.planned, heq⟩
  omega

/-- A store to another copy writes the same bits there. -/
theorem exec_retarget {src target : RegionedAbsoluteAddr A} {off bits : Nat} {reg : RegisterId}
    {triggers : List TriggerIdWithKind} {sites : List Nat} (hregs : s'.regs = s.regs)
    (hexec : eu.execInstruction model.machine s (.store src (.static off) bits reg triggers sites) =
      some t) : ∃ t' value, eu.execInstruction model.machine s'
        (.store target (.static off) bits reg triggers sites) = some t' ∧ t.regs = s.regs ∧
      t'.regs = s'.regs ∧ t.memory = writeBits model s.memory src off bits value ∧
      t'.memory = writeBits model s'.memory target off bits value := by
  have hnone : ∀ (memory : BitMemory (RegionedAbsoluteAddr A)) addr,
      memory = writeBits model memory addr off 0 ⟨0, 0⟩ := by
    intro memory addr
    funext a bit
    exact (if_neg fun hin => by omega).symm
  by_cases hbits : bits = 0
  · subst hbits
    simp only [ExecutionUnit.execInstruction, if_true, Option.some.injEq] at hexec ⊢
    subst hexec
    exact ⟨_, ⟨0, 0⟩, rfl, rfl, rfl, hnone _ _, hnone _ _⟩
  · obtain ⟨value, _, hvalue, hsame, hmemory, -⟩ := exec_store (.inl rfl) hbits hexec
    obtain ⟨t', hexec'⟩ := exec_store_some model eu (s := s') target bits
      triggers sites (.inl rfl) ((congrFun hregs reg).trans hvalue)
    obtain ⟨value', _, hvalue', hsame', hmemory', -⟩ := exec_store (.inl rfl) hbits hexec'
    rw [hregs, hvalue] at hvalue'
    cases hvalue'
    exact ⟨t', value, hexec', hsame, hsame', hmemory, hmemory'⟩

theorem exec_commit {src dst : RegionedAbsoluteAddr A} {off bits : Nat}
    {triggers : List TriggerIdWithKind}
    (hexec : eu.execInstruction model.machine s (.commit src dst (.static off) bits triggers) =
      some t) : t.regs = s.regs ∧ t.memory = copyBits model s.memory src dst off off bits := by
  cases hexec
  refine ⟨rfl, ?_⟩
  simp only [State.perform, BitModel.machine, BitModel.perform, model.start_static]

variable (hwell : ForwardsCommitsWell (directStableStoreHazards eu) eu) (hreach : ReachesBlock eu b)
  (hi : (instructionsOf eu b)[i]? = some inst)
  (hexec : eu.execInstruction model.machine s inst = some t)
include hwell hreach hi hexec

/-- An instruction that is neither left out nor redirected. -/
theorem Follows.keep (h : Follows eu model b i s s')
    (hstays : ¬ LeftOut (directStableStoreHazards eu) eu b i)
    (htarget : newTarget (replacementsOf (directStableStoreHazards eu) eu b) i = none) :
    ∃ t', eu.execInstruction model.machine s' inst = some t' ∧
      Follows eu model b (i + 1) t t' := by
  have hbetween : ∀ replacement si src bit,
      Forwarded (directStableStoreHazards eu) eu b replacement si src bit → si < i →
      i ≤ replacement.commit → i < replacement.commit := by
    intro replacement si src bit hforwarded _ hle
    have hne : replacement.commit ≠ i := fun heq => hstays ⟨replacement, hforwarded.planned, heq⟩
    omega
  have hread : ∀ addr bit, inst.mayRead addr bit → s.memory addr bit = s'.memory addr bit := by
    intro addr bit hread
    refine (h.same addr bit (fun hahead => ?_)
      (hwell.unread b i inst addr bit hi hstays hread)).symm
    obtain ⟨replacement, si, src, hforwarded, rfl, hlt, hall⟩ := id hahead
    exact (hwell.seen b replacement si src bit hforwarded i inst hlt
      (hbetween _ _ _ _ hforwarded hlt (hall _ hforwarded)) hi hstays (.inr ⟨hread, hahead⟩)).absurd
      hreach hforwarded hlt hi
  obtain ⟨t', hexec', hregs, hmemory⟩ := exec_alike h.regs
    (Q := fun addr bit => ¬ StoredAhead (directStableStoreHazards eu) eu b (i + 1) addr bit ∧
      ¬ Behind (directStableStoreHazards eu) eu addr bit b (i + 1))
    (fun addr bit hcase => by
      rcases hcase with hreads | ⟨⟨hahead, hbehind⟩, hwrite⟩
      · exact hread addr bit hreads
      · exact (h.same addr bit (fun hold => hahead (hold.next hstays))
          (not_behind_pass hi hbehind hwrite)).symm) hexec
  refine ⟨t', hexec', hregs, fun replacement si src bit hforwarded hlt hle => ?_,
    fun addr bit hahead hbehind => (hmemory addr bit ⟨hahead, hbehind⟩).symm⟩
  have hne : si ≠ i := by
    rintro rfl
    exact newTarget_none htarget hforwarded.planned hforwarded.store
  have hbefore : si < i := by omega
  have hseen := fun hwrite => (hwell.seen b replacement si src bit hforwarded i inst hbefore
    (by omega) hi hstays (.inl hwrite)).absurd hreach hforwarded hbefore hi
  rw [exec_memory hexec' hseen, h.held replacement si src bit hforwarded hbefore (by omega),
    exec_memory hexec (hwell.kept b replacement si src bit hforwarded i inst hbefore (by omega) hi)]

/-- A store that goes to the stable copy. -/
theorem Follows.redirect (hhold : HoldsAlike eu model) (h : Follows eu model b i s s')
    {target : RegionedAbsoluteAddr A}
    (htarget : newTarget (replacementsOf (directStableStoreHazards eu) eu b) i = some target) :
    ∃ t', eu.execInstruction model.machine s' (retarget target inst) = some t' ∧
      Follows eu model b (i + 1) t t' := by
  obtain ⟨replacement, hmem, hstore, rfl⟩ := newTarget_some htarget
  obtain ⟨src, _, _, hfine⟩ := commitReplacements_fine hmem
  obtain ⟨-, off, bits, reg, triggers, sites, hget, -⟩ := hfine.stores i hstore
  rw [show (instructionsOf eu b)[i]? = _ from hi] at hget
  cases hget
  obtain ⟨t', value, hexec', hregs, hregs', hmemory, hmemory'⟩ :=
    exec_retarget h.regs hexec
  have hforwards : ∀ bit, off ≤ bit → bit < off + bits →
      Forwarded (directStableStoreHazards eu) eu b replacement i src bit := fun bit hle hlt =>
    ⟨hmem, hstore, off, bits, reg, triggers, sites, hi, hle, hlt⟩
  refine ⟨t', hexec', hregs'.trans (h.regs.trans hregs.symm),
    fun other si src' bit hforwarded hlt hle => ?_, fun addr bit hahead hbehind => ?_⟩
  · by_cases heq : si = i
    · subst heq
      have hone := hwell.target b other si src' bit hforwarded
      rw [htarget] at hone
      obtain ⟨off', bits', _, _, _, hsame, hin⟩ := hforwarded.writes
      rw [show (instructionsOf eu b)[si]? = _ from hi] at hsame
      cases hsame
      rw [hmemory, hmemory', ← Option.some.inj hone]
      simp only [writeBits, if_pos (And.intro trivial hin)]
      exact (hhold b replacement si src bit (hforwards bit hin.1 hin.2) _).symm
    · have hbefore : si < i := by omega
      have hkept := hwell.kept b other si src' bit hforwarded i _ hbefore (by omega) hi
      rw [exec_memory hexec hkept, hmemory']
      refine (if_neg ?_).trans (h.held other si src' bit hforwarded hbefore (by omega))
      rintro ⟨hsame, hle', hlt'⟩
      exact hwell.apart b other si src' bit hforwarded replacement i src (hforwards bit hle' hlt')
        hsame.symm ⟨hbefore, by omega⟩
  · have hstays : ¬ LeftOut (directStableStoreHazards eu) eu b i := by
      rintro ⟨other, hother, heq⟩
      obtain ⟨_, _, _, hfine'⟩ := commitReplacements_fine hother
      obtain ⟨_, hcommit⟩ := hfine'.commit
      rw [heq, show (instructionsOf eu b)[i]? = _ from hi] at hcommit
      cases hcommit
    have houtside : ¬ (addr = src ∧ off ≤ bit ∧ bit < off + bits) := by
      rintro ⟨rfl, hle, hlt⟩
      exact hbehind (.store hreach (hforwards bit hle hlt))
    have hahead' : ¬ (addr = replacement.target ∧ off ≤ bit ∧ bit < off + bits) := by
      rintro ⟨rfl, hle, hlt⟩
      exact hahead ⟨replacement, i, src, hforwards bit hle hlt, rfl, Nat.lt_succ_self i,
        fun other hother => hother.before⟩
    rw [hmemory, hmemory']
    simp only [writeBits, if_neg houtside, if_neg hahead']
    refine h.same addr bit (fun hold => hahead (hold.next hstays))
      (not_behind_pass hi hbehind fun hwrite => houtside ⟨hwrite.1.symm, hwrite.2⟩)

omit hreach in
/-- A commit that is left out. -/
theorem Follows.drop (h : Follows eu model b i s s')
    (hleft : LeftOut (directStableStoreHazards eu) eu b i) : Follows eu model b (i + 1) t s' := by
  obtain ⟨replacement, hmem, rfl⟩ := hleft
  obtain ⟨src, off, bits, hfine⟩ := commitReplacements_fine hmem
  obtain ⟨triggers, hcommit⟩ := hfine.commit
  rw [show (instructionsOf eu b)[replacement.commit]? = _ from hi] at hcommit
  cases hcommit
  obtain ⟨hregs, hmemory⟩ := exec_commit hexec
  refine ⟨h.regs.trans hregs.symm, fun other si src' bit hforwarded hlt hle => ?_,
    fun addr bit hahead hbehind => ?_⟩
  · have hne : si ≠ replacement.commit := by
      rintro rfl
      obtain ⟨_, _, _, _, _, hstore, -⟩ := hforwarded.writes
      rw [show (instructionsOf eu b)[replacement.commit]? = _ from hi] at hstore
      cases hstore
    rw [h.held other si src' bit hforwarded (by omega) (by omega), hmemory]
    congr 1
    refine (if_neg ?_).symm
    rintro ⟨rfl, -⟩
    have hregion := hforwarded.region
    rw [hfine.stable] at hregion
    cases hregion
  · by_cases hin : addr = replacement.target ∧ off ≤ bit ∧ bit < off + bits
    · obtain ⟨rfl, hle, hlt⟩ := hin
      obtain ⟨si, hsi, hstore⟩ := hfine.covers bit hle hlt
      have hforwarded : Forwarded (directStableStoreHazards eu) eu b replacement si src bit :=
        ⟨hmem, hsi, hstore⟩
      rw [h.held replacement si src bit hforwarded hforwarded.before le_rfl, hmemory]
      simp only [copyBits, if_pos (And.intro trivial (And.intro hle hlt))]
      rw [show off + (bit - off) = bit by omega]
    · have hsame : t.memory addr bit = s.memory addr bit := by
        rw [hmemory]
        exact if_neg hin
      rw [hsame]
      refine h.same addr bit (fun hold => ?_)
        (not_behind_pass hi hbehind fun hwrite => hin ⟨hwrite.1.symm, hwrite.2⟩)
      -- the commit takes other bits, so what was ahead stays ahead
      obtain ⟨other, si, src', hforwarded, rfl, hlt, hall⟩ := hold
      refine hahead ⟨other, si, src', hforwarded, rfl, by omega, fun third hthird => ?_⟩
      have hle := hall third hthird
      refine lt_of_le_of_ne hle fun heq => hin ?_
      obtain ⟨off', bits', _, hcommit, hle', hlt', -⟩ := hthird.commits
      rw [← heq, show (instructionsOf eu b)[replacement.commit]? = _ from hi] at hcommit
      have htarget := hwell.target b other si src' bit hforwarded
      rw [hwell.target b third si src' bit hthird] at htarget
      have hsame := Option.some.inj hcommit
      simp only [SIRInstruction.commit.injEq, SIROffset.static.injEq] at hsame
      obtain ⟨-, hdst, rfl, rfl, -⟩ := hsame
      exact ⟨(Option.some.inj htarget).symm.trans hdst.symm, hle', hlt'⟩

end Step

/-! ## Runs -/

section Runs
variable {eu : RegionedUnit A} {model : BitModel (RegionedAbsoluteAddr A)} {b : BlockId}
  {block : BasicBlock (RegionedAbsoluteAddr A)} {i : Nat}
  {s s' t : State (RegionedAbsoluteAddr A) (BitMemory (RegionedAbsoluteAddr A))}

/-- All registers, and all but the working copies. -/
structure SamePublished
    (s s' : State (RegionedAbsoluteAddr A) (BitMemory (RegionedAbsoluteAddr A))) : Prop where
  regs : s'.regs = s.regs
  memory : ∀ addr bit, addr.region ≠ WORKING_REGION → s'.memory addr bit = s.memory addr bit

theorem Behind.region {hazards : DirectStableStoreHazards A} {addr : RegionedAbsoluteAddr A}
    {bit : Nat} (h : Behind hazards eu addr bit b i) : addr.region = WORKING_REGION := by
  induction h with
  | store _ hforwarded => exact hforwarded.region
  | pass _ _ _ ih | edge _ _ ih => exact ih

/-- At both ends of a block nothing is ahead. -/
theorem Follows.published (h : Follows eu model b i s s')
    (hends : i = 0 ∨ i = (instructionsOf eu b).length) : SamePublished s s' := by
  refine ⟨h.regs, fun addr bit hregion => h.same addr bit ?_ fun hbehind => hregion hbehind.region⟩
  rintro ⟨replacement, si, src, hforwarded, -, hlt, hall⟩
  have hle := hall replacement hforwarded
  obtain ⟨_, _, _, hcommit, -⟩ := hforwarded.commits
  have hindex := (List.getElem?_eq_some_iff.mp hcommit).1
  omega

/-- The rest of a block, from a position on. -/
theorem forward_exec (hwell : ForwardsCommitsWell (directStableStoreHazards eu) eu)
    (hhold : HoldsAlike eu model) (hreach : ReachesBlock eu b) {list : List (Instruction A)}
    (hdrop : (instructionsOf eu b).drop i = list) (h : Follows eu model b i s s')
    (hexec : eu.execList model.machine s list = some t) :
    ∃ t', eu.execList model.machine s' ((list.zipIdx i).filterMap fun entry => forwardedInstruction
        (replacementsOf (directStableStoreHazards eu) eu b) entry.2 entry.1) = some t' ∧
      Follows eu model b (i + list.length) t t' := by
  induction list generalizing i s s' with
  | nil =>
    cases hexec
    exact ⟨s', rfl, h⟩
  | cons inst list ih =>
    obtain ⟨hi, hrest, -⟩ := drop_cons hdrop
    obtain ⟨u, hu, htail⟩ := Option.bind_eq_some_iff.mp hexec
    have hlength : i + (inst :: list).length = i + 1 + list.length := by
      rw [List.length_cons]
      omega
    rw [List.zipIdx_cons, List.filterMap_cons, hlength]
    unfold forwardedInstruction
    simp only
    split
    · rename_i hnone
      split at hnone
      · rename_i hany
        obtain ⟨replacement, hmem, heq⟩ := List.any_eq_true.mp hany
        exact ih hrest (h.drop hwell hi hu ⟨replacement, hmem, of_decide_eq_true heq⟩) htail
      · split at hnone <;> cases hnone
    · rename_i inst' hsome
      split at hsome
      · cases hsome
      · rename_i hany
        have hstays : ¬ LeftOut (directStableStoreHazards eu) eu b i := by
          rintro ⟨replacement, hmem, heq⟩
          exact hany (List.any_eq_true.mpr ⟨replacement, hmem, decide_eq_true heq⟩)
        have hstep : ∃ u', eu.execInstruction model.machine s' inst' = some u' ∧
            Follows eu model b (i + 1) u u' := by
          split at hsome
          · rename_i htarget
            cases hsome
            exact h.redirect hwell hreach hi hu hhold htarget
          · rename_i htarget
            cases hsome
            exact h.keep hwell hreach hi hu hstays htarget
        obtain ⟨u', hu', hfollows⟩ := hstep
        obtain ⟨t', ht', hend⟩ := ih hrest hfollows htail
        exact ⟨t', by rw [ExecutionUnit.execList, hu', Option.bind_some]; exact ht', hend⟩

/-- Wherever nothing sees the difference, forwarded commits leave the same in all registers and in
all stable copies. -/
theorem inlineCommitForwarding_alike (hwell : ForwardsCommitsWell (directStableStoreHazards eu) eu)
    (hhold : HoldsAlike eu model) (memory : BitMemory (RegionedAbsoluteAddr A)) :
    EndsAlike model.machine model.machine eu (inlineCommitForwarding eu) memory SamePublished := by
  have hlookup : ∀ b, (inlineCommitForwarding eu).blocks.lookup b =
      (eu.blocks.lookup b).map (forwardBlock (directStableStoreHazards eu)) := fun b =>
    ExecutionUnit.lookup_mapBlocks _ b
  have hparams : ∀ b, ((inlineCommitForwarding eu).blocks.lookup b).map (·.params) =
      (eu.blocks.lookup b).map (·.params) := by
    intro b
    rw [hlookup, Option.map_map]
    rfl
  have hfollow : BlocksFollow model.machine model.machine eu (inlineCommitForwarding eu) memory
      (fun b => Follows eu model b 0)
      (fun b => Follows eu model b (instructionsOf eu b).length) SamePublished := by
    refine ⟨rfl, ⟨rfl, fun _ _ _ _ _ hlt => absurd hlt (Nat.not_lt_zero _), fun _ _ _ _ => rfl⟩,
      fun b block hb => ?_, fun b block s s' hb h => ?_⟩
    · have hinstructions := instructionsOf_lookup hb
      refine ⟨forwardBlock (directStableStoreHazards eu) block, by rw [hlookup, hb]; rfl, rfl,
        fun s s' t hvisit h hexec => ?_⟩
      obtain ⟨t', hexec', hend⟩ := forward_exec hwell hhold (reachesBlock_of_visits hvisit)
        (List.drop_zero (l := instructionsOf eu b)) h (by rwa [hinstructions])
      rw [Nat.zero_add] at hend
      refine ⟨t', ?_, hend⟩
      rw [execList_congr (show (inlineCommitForwarding eu).registerMap = eu.registerMap from rfl)]
      simpa only [forwardBlock, replacementsOf, hinstructions] using hexec'
    · have hsame : s' = ⟨s.regs, s'.memory, s'.trace⟩ := by rw [← h.regs]
      have hnext : eu.execTerminator model.machine s' block.terminator =
          (eu.execTerminator model.machine s block.terminator).withMemory s'.memory s'.trace :=
        (congrArg (eu.execTerminator model.machine · block.terminator) hsame).trans
          (execTerminator_withMemory s s'.memory s'.trace block.terminator)
      rw [execTerminator_congr hparams rfl, hnext]
      cases hgo : eu.execTerminator model.machine s block.terminator with
      | done outcome u =>
        obtain rfl := execTerminator_done hgo
        exact .done ⟨rfl, (h.published (.inr rfl)).memory⟩
      | goto c =>
        obtain ⟨hsucc, -, hmemory, -⟩ := execTerminator_goto hgo
        refine .goto ⟨rfl, fun _ _ _ _ _ hlt => absurd hlt (Nat.not_lt_zero _), fun addr bit _ hbehind => ?_⟩
        rw [hmemory]
        refine h.same addr bit ?_ fun hend =>
          hbehind (.edge hend ((mem_successorBlocks hb).mpr hsucc))
        rintro ⟨replacement, si, src, hforwarded, -, -, hall⟩
        have hle := hall replacement hforwarded
        obtain ⟨_, _, _, hcommit, -⟩ := hforwarded.commits
        have hindex := (List.getElem?_eq_some_iff.mp hcommit).1
        omega
  exact hfollow.ends (fun b s s' h => h.published (.inl rfl)) fun b s s' h => h.published (.inr rfl)

end Runs

/-! ## A byte stored in two halves -/

def workingByte : RegionedAbsoluteAddr Unit := ⟨WORKING_REGION, ()⟩

def stableByte : RegionedAbsoluteAddr Unit := ⟨STABLE_REGION, ()⟩

def committedUnit (instructions : List (Instruction Unit)) : RegionedUnit Unit where
  entryBlockId := 0
  blocks := [⟨0, ⟨0, [], instructions, .ret⟩⟩].toAList
  registerMap := [⟨0, .bit 8 false⟩, ⟨1, .bit 8 false⟩].toAList

def halves : RegionedUnit Unit :=
  committedUnit [.imm 0 ⟨5, 0⟩, .store workingByte (.static 0) 4 0 [] [],
    .store workingByte (.static 4) 4 0 [] [], .commit workingByte stableByte (.static 0) 8 [],
    .load 1 stableByte (.static 0) 8]

theorem halves_forwarded {b : BlockId} {replacement : CommitReplacement Unit} {si : Nat}
    {src : RegionedAbsoluteAddr Unit} {bit : Nat}
    (h : Forwarded (directStableStoreHazards halves) halves b replacement si src bit) :
    b = 0 ∧ replacement = ⟨3, [1, 2], stableByte⟩ ∧ src = workingByte ∧
      (si = 1 ∧ bit < 4 ∨ si = 2 ∧ 4 ≤ bit ∧ bit < 8) := by
  have hb : b = 0 := by
    by_contra hne
    have hnone : halves.blocks.lookup b = none :=
      AList.lookup_eq_none.mpr fun hmem => hne (List.mem_singleton.mp hmem)
    have hplanned := h.planned
    unfold replacementsOf instructionsOf at hplanned
    rw [hnone] at hplanned
    cases hplanned
  subst hb
  obtain rfl := List.mem_singleton.mp (show replacement ∈ [⟨3, [1, 2], stableByte⟩] from h.planned)
  obtain ⟨off, bits, reg, triggers, sites, hget, hle, hlt⟩ := h.writes
  rcases List.mem_pair.mp h.store with rfl | rfl <;> cases hget
  · exact ⟨rfl, rfl, rfl, .inl ⟨rfl, by omega⟩⟩
  · exact ⟨rfl, rfl, rfl, .inr ⟨rfl, hle, by omega⟩⟩

theorem halves_forwardsCommitsWell : ForwardsCommitsWell (directStableStoreHazards halves) halves where
  kept b replacement si src bit h p inst hlt hp hinst hwrite := by
    obtain ⟨rfl, rfl, rfl, ⟨rfl, hbit⟩ | ⟨rfl, hbit⟩⟩ := halves_forwarded h <;> simp only at hp
    · obtain rfl : p = 2 := by omega
      cases hinst
      obtain ⟨-, hle, -⟩ := hwrite
      omega
    · omega
  target b replacement si src bit h := by
    obtain ⟨rfl, rfl, -, ⟨rfl, -⟩ | ⟨rfl, -⟩⟩ := halves_forwarded h <;> rfl
  apart b replacement si src bit h other p src' h' _ hbetween := by
    obtain ⟨-, rfl, -, hbits⟩ := halves_forwarded h
    obtain ⟨-, rfl, -, hbits'⟩ := halves_forwarded h'
    omega
  seen b replacement si src bit h p inst hlt hp hinst _ haccess := by
    obtain ⟨rfl, rfl, rfl, ⟨rfl, hbit⟩ | ⟨rfl, hbit⟩⟩ := halves_forwarded h <;> simp only at hp
    · obtain rfl : p = 2 := by omega
      cases hinst
      rcases haccess with ⟨haddr, -⟩ | ⟨hread, -⟩
      · cases haddr
      · exact hread.elim
    · omega
  unread b i inst addr bit hinst hstays hread hbehind := by
    have hregion := hbehind.region
    have hb : b = 0 := by
      by_contra hne
      have hnone : halves.blocks.lookup b = none :=
        AList.lookup_eq_none.mpr fun hmem => hne (List.mem_singleton.mp hmem)
      unfold instructionsOf at hinst
      rw [hnone] at hinst
      cases hinst
    subst hb
    have hlt : i < 5 := (List.getElem?_eq_some_iff.mp hinst).1
    interval_cases i <;> cases hinst
    · exact hread
    · exact hread
    · exact hread
    · exact hstays ⟨⟨3, [1, 2], stableByte⟩, List.mem_singleton_self _, rfl⟩
    · obtain ⟨rfl, -⟩ := hread
      cases hregion

theorem inlineCommitForwarding_halves :
    EndsAlike (BitModel.plain _).machine (BitModel.plain _).machine halves
      (inlineCommitForwarding halves) (fun _ _ => (false, false)) SamePublished :=
  inlineCommitForwarding_alike halves_forwardsCommitsWell (fun _ _ _ _ _ _ _ => rfl) _

/-- A bit of a working copy is read behind a commit of it, before it is written again. -/
def ReadAfterCommit {A : Type} (eu : RegionedUnit A) : Prop :=
  ∃ b block, eu.blocks.lookup b = some block ∧ ∃ (i : Nat) (src dst : RegionedAbsoluteAddr A)
    (offset : SIROffset) (bits : Nat) (triggers : List TriggerIdWithKind) (bit : Nat),
    block.instructions[i]? = some (.commit src dst offset bits triggers) ∧
    offset.reaches bits bit ∧
    eu.Meets (fun inst => inst.mustWrite src bit) (fun inst => inst.mayRead src bit) b (i + 1)

/-- The working copy is read between the store and the commit. -/
def readBetween : RegionedUnit Unit :=
  committedUnit [.imm 0 ⟨5, 0⟩, .store workingByte (.static 0) 8 0 [] [],
    .load 1 workingByte (.static 0) 8, .commit workingByte stableByte (.static 0) 8 []]

/-- It is read as if nothing had been stored. -/
theorem readBetween_stale : readBetween.verifyResult = .ok () ∧ ¬ ReadAfterCommit readBetween ∧
    ¬ EndsAlike (BitModel.plain _).machine (BitModel.plain _).machine readBetween
      (inlineCommitForwarding readBetween) (fun _ _ => (false, false)) SamePublished := by
  refine ⟨by decide, ?_, fun h => ?_⟩
  · rintro ⟨b, block, hb, i, src, dst, offset, bits, triggers, bit, hi, -, hmeets⟩
    obtain ⟨rfl, rfl⟩ := ExecutionUnit.Straight.only
      (show readBetween.Straight _ from ⟨rfl, rfl⟩) hb
    have hlt : i < 4 := (List.getElem?_eq_some_iff.mp hi).1
    interval_cases i <;> cases hi
    obtain ⟨target, htarget, -⟩ := (ExecutionUnit.Meets.at_terminator hb).mp hmeets
    cases htarget
  · have hstraight : (inlineCommitForwarding readBetween).Straight _ := ⟨rfl, rfl⟩
    obtain ⟨t, hexec, hvalue⟩ : ∃ t, readBetween.execList (BitModel.plain _).machine
        (readBetween.start (fun _ _ => (false, false)) []).state
        ((readBetween.blocks.lookup 0).get rfl).instructions = some t ∧
        t.regs 1 = some ⟨5, 0⟩ := ⟨_, rfl, by decide +kernel⟩
    obtain ⟨block', s', hb', hrun', hsame, -⟩ := h 0 _ t rfl (execList_block rfl hexec)
    obtain ⟨-, rfl⟩ := hstraight.only hb'
    have hexec' := hstraight.exec hrun'
    obtain ⟨t', ht', hvalue'⟩ : ∃ t', some s' = some t' ∧ t'.regs 1 = some ⟨0, 0⟩ :=
      ⟨_, hexec'.symm, by decide +kernel⟩
    cases ht'
    rw [hsame.regs, hvalue] at hvalue'
    cases hvalue'

end Celox.Opt
