import Celox.Opt.StableStoreHazards
import Celox.Sir.Cfg

/-! # Slots of exact state fragments

`state_ssa.rs` up to the selection of slots. One region is analysed: the shapes of its exact accesses
are found first, then what every access does to each shape; the shapes that loads can be replaced for
become slots. -/
namespace Celox.Opt.StateVersions
open Celox.Sir Celox.Layout Celox.Opt

inductive StatePlane where
  | twoStateValue
  | fourStateValueAndMask
deriving DecidableEq, Repr

def StatePlane.forType : RegisterType → StatePlane
  | .bit .. => .twoStateValue
  | .logic _ => .fourStateValueAndMask

structure StateLocation (A : Type) where
  addr : RegionedAbsoluteAddr A
  bitOffset : Nat
  width : Nat
  dynamic : Bool
deriving DecidableEq, Repr

structure StateFragment (A : Type) where
  addr : RegionedAbsoluteAddr A
  plane : StatePlane
  bitOffset : Nat
  width : Nat
  dynamic : Bool
deriving DecidableEq, Repr

structure StateSsaSlot (A : Type) where
  fragment : StateFragment A
  ty : RegisterType
  phiBlocks : List Nat
  liveInEntry : Bool
  hasEffectfulStore : Bool
  hasKill : Bool
  escapes : Bool
deriving DecidableEq, Repr

inductive StateSsaError where
  | missingRegister (register : RegisterId)
  | missingReachingVersion (block : BlockId) (slot : Nat)
  | missingPhiIncoming (block : BlockId) (slot : Nat)
  | invalidAccess (message : String)
deriving DecidableEq, Repr

structure RawSlot where
  ty : Option RegisterType := none
  invalid : Bool := false
  hasLoad : Bool := false
  hasStore : Bool := false
  hasEffectfulStore : Bool := false
  hasKill : Bool := false
  escapes : Bool := false
  defBlocks : List BlockId := []
  upwardUseBlocks : List BlockId := []
deriving DecidableEq, Repr

structure UseEffect where
  slot : Nat
  destination : Option RegisterId
deriving DecidableEq, Repr

inductive DefEffectKind where
  | exact (source : RegisterId) (observable : Bool)
  | kill
deriving DecidableEq, Repr

structure DefEffect where
  slot : Nat
  kind : DefEffectKind
deriving DecidableEq, Repr

structure InstructionEffects where
  uses : List UseEffect
  defs : List DefEffect
deriving DecidableEq, Repr

/-- The arguments of `analyze_selected`. -/
structure Selection where
  region : Nat
  eligibleLoadBlocks : Option (List BlockId)
  eligibleLoads : Option (List RegisterId)
  includeReadOnly : Bool
  twoState : Bool
deriving DecidableEq, Repr

/-! ## Types of the accesses -/

/-- In a two-state compilation `bit` and `logic` of a width are one. -/
def normalized (twoState : Bool) (width : Nat) (ty : RegisterType) : RegisterType :=
  if twoState then .bit width false else ty

def RawSlot.recordType (slot : RawSlot) (ty : RegisterType) (width : Nat) (twoState : Bool) :
    RawSlot :=
  let ty' := normalized twoState width ty
  { slot with
    invalid := slot.invalid || decide (width = 0 ∨ ty.width ≠ width ∨ slot.ty.any (· ≠ ty'))
    ty := some (slot.ty.getD ty') }

section Analyze
variable {A : Type} [LinearOrder A]

/-- Bits of the two locations that may be the same. -/
def StateLocation.overlaps (l l' : StateLocation A) : Bool :=
  l.addr = l'.addr && (l.dynamic || l'.dynamic ||
    (l.bitOffset < saturatingAdd l'.bitOffset l'.width &&
      l'.bitOffset < saturatingAdd l.bitOffset l.width))

/-- The fields in the order in which locations are compared. -/
def StateLocation.key (l : StateLocation A) : ℕ ×ₗ A ×ₗ ℕ ×ₗ ℕ ×ₗ Bool :=
  toLex (l.addr.region, toLex (l.addr.absoluteAddr, toLex (l.bitOffset, toLex (l.width, l.dynamic))))

def StateFragment.ofLocation (l : StateLocation A) (ty : RegisterType) : StateFragment A :=
  ⟨l.addr, .forType ty, if l.dynamic then 0 else l.bitOffset, l.width, l.dynamic⟩

variable (eu : ExecutionUnit (RegionedAbsoluteAddr A)) (cfg : SirCfg) (sel : Selection)

/-- The instructions of a block. A graph of the unit only has blocks of the unit. -/
def instructionsOf (b : BlockId) : List (SIRInstruction (RegionedAbsoluteAddr A)) :=
  ((eu.blocks.lookup b).map (·.instructions)).getD []

def Selection.eligible (sel : Selection) (destination : RegisterId) : Bool :=
  sel.eligibleLoads.all fun loads => destination ∈ loads

/-! ## Discovery -/

/-- The location and the register of an access that the first sweep records. -/
def discovered : SIRInstruction (RegionedAbsoluteAddr A) → Option (StateLocation A × RegisterId)
  | .load destination addr (.static bitOffset) width =>
    if addr.region = sel.region && sel.eligible destination then
      some (⟨addr, bitOffset, width, false⟩, destination)
    else none
  | .load destination addr offset width =>
    if addr.region = sel.region && sel.includeReadOnly && sel.eligibleLoads.isNone then
      match offset with
      | .dynamic _ | .element .. => some (⟨addr, 0, width, true⟩, destination)
      | _ => none
    else none
  | .store addr (.static bitOffset) width source _ _ =>
    if addr.region = sel.region && sel.eligibleLoads.isNone then
      some (⟨addr, bitOffset, width, false⟩, source)
    else none
  | _ => none

/-- The location and the register of a writer that the second sweep checks. -/
def writer : SIRInstruction (RegionedAbsoluteAddr A) → Option (StateLocation A × RegisterId)
  | .store addr (.static bitOffset) width source _ _ =>
    if addr.region = sel.region then some (⟨addr, bitOffset, width, false⟩, source) else none
  | _ => none

abbrev RawSlots (A : Type) [LinearOrder A] := Table (StateLocation A) RawSlot

def record (raw : RawSlots A) (access : StateLocation A × RegisterId) :
    Except StateSsaError (RawSlots A) :=
  match eu.registerMap.lookup access.2 with
  | none => .error (.missingRegister access.2)
  | some ty => .ok (raw.insert access.1
      (((raw.lookup access.1).getD {}).recordType ty access.1.width sel.twoState))

/-- Only at locations that are there. -/
def recordWriter (raw : RawSlots A) (access : StateLocation A × RegisterId) :
    Except StateSsaError (RawSlots A) :=
  if access.1 ∈ raw then record eu sel raw access else .ok raw

/-- The instructions of all blocks in the order of the graph. -/
def allInstructions : List (SIRInstruction (RegionedAbsoluteAddr A)) :=
  cfg.blockIds.flatMap (instructionsOf eu)

def discover : Except StateSsaError (RawSlots A) := do
  let raw ← ((allInstructions eu cfg).filterMap (discovered sel)).foldlM (record eu sel) ∅
  if sel.eligibleLoads.isSome then
    ((allInstructions eu cfg).filterMap (writer sel)).foldlM (recordWriter eu sel) raw
  else return raw

/-! ## Effects -/

variable (locations : List (StateLocation A))

def rawIndex (location : StateLocation A) : Option Nat :=
  if location ∈ locations then some (locations.idxOf location) else none

/-- The slot an access moves as a whole. A dynamic access is one for loads alone. -/
def exactSlot (addr : RegionedAbsoluteAddr A) (width : Nat) (load : Bool) :
    SIROffset → Option Nat
  | .static bitOffset | .packedElements bitOffset _ =>
    rawIndex locations ⟨addr, bitOffset, width, false⟩
  | .dynamic _ | .element .. =>
    if load then rawIndex locations ⟨addr, 0, width, true⟩ else none

/-- The locations of an object are in the order of their offsets. -/
def overlappingSlots (addr : RegionedAbsoluteAddr A) (offset : SIROffset) (width : Nat) :
    List Nat :=
  if width = 0 then []
  else
    let entries := locations.zipIdx.filter (·.1.addr = addr)
    match offset with
    | .static bitOffset | .packedElements bitOffset _ =>
      ((entries.takeWhile fun e => e.1.bitOffset < saturatingAdd bitOffset width).filter
        fun e => e.1.overlaps ⟨addr, bitOffset, width, false⟩).map Prod.snd
    | .dynamic _ | .element .. => entries.map Prod.snd

/-- Load blocks and destinations that are asked for. -/
def Selection.uses (sel : Selection) (b : BlockId) (destination : RegisterId) : Bool :=
  sel.eligibleLoadBlocks.all (fun blocks => b ∈ blocks) && sel.eligible destination

/-- The effects of one instruction, in the order they are found. -/
def rawEffects (b : BlockId) : SIRInstruction (RegionedAbsoluteAddr A) → InstructionEffects
  | .load destination addr offset width =>
    if addr.region = sel.region then
      match exactSlot locations addr width true offset with
      | some slot => ⟨if sel.uses b destination then [⟨slot, some destination⟩] else [], []⟩
      | none => ⟨[], []⟩
    else ⟨[], []⟩
  | .store addr offset width source triggers captureSites =>
    if addr.region = sel.region then
      let exact := exactSlot locations addr width false offset
      let observable := triggers ≠ [] || captureSites ≠ []
      ⟨[], exact.toList.map (⟨·, .exact source observable⟩) ++
        ((overlappingSlots locations addr offset width).filter (some · ≠ exact)).map (⟨·, .kill⟩)⟩
    else ⟨[], []⟩
  | .commit source destination offset width _ =>
    ⟨if source.region = sel.region then
        (exactSlot locations source width false offset).toList.map (⟨·, none⟩)
      else [],
      if destination.region = sel.region then
        (overlappingSlots locations destination offset width).map (⟨·, .kill⟩)
      else []⟩
  | _ => ⟨[], []⟩

/-- By slot, with the first effect on each. -/
def InstructionEffects.sorted (effects : InstructionEffects) : InstructionEffects :=
  ⟨(effects.uses.insertionSort (·.slot ≤ ·.slot)).destutter (·.slot ≠ ·.slot),
    (effects.defs.insertionSort (·.slot ≤ ·.slot)).destutter (·.slot ≠ ·.slot)⟩

abbrev Effects := List ((BlockId × Nat) × InstructionEffects)

def InstructionEffects.isEmpty (effects : InstructionEffects) : Bool :=
  effects.uses.isEmpty && effects.defs.isEmpty

def collectEffects : Effects :=
  cfg.blockIds.flatMap fun b => (instructionsOf eu b).zipIdx.filterMap fun (inst, i) =>
    let effects := (rawEffects sel locations b inst).sorted
    if effects.isEmpty then none else some ((b, i), effects)

/-! ## Facts -/

def insertNew (b : BlockId) (blocks : List BlockId) : List BlockId :=
  if b ∈ blocks then blocks else blocks ++ [b]

/-- What an instruction adds to the facts, with the slots its block has defined before. -/
def addFacts (b : BlockId) (state : List RawSlot × List Nat) :
    SIRInstruction (RegionedAbsoluteAddr A) → List RawSlot × List Nat
  | .load destination addr offset width =>
    let (facts, defined) := state
    if addr.region = sel.region then
      let exact := exactSlot locations addr width true offset
      let facts := match exact with
        | some slot =>
          if sel.uses b destination then facts.modify slot fun raw => { raw with
            hasLoad := true
            upwardUseBlocks := if slot ∈ defined then raw.upwardUseBlocks
              else insertNew b raw.upwardUseBlocks }
          else facts
        | none => facts
      (((overlappingSlots locations addr offset width).filter (some · ≠ exact)).foldl
        (fun facts slot => facts.modify slot fun raw => { raw with escapes := true }) facts, defined)
    else state
  | .store addr offset width _ triggers captureSites =>
    if addr.region = sel.region then
      let exact := exactSlot locations addr width false offset
      let (facts, defined) := match exact with
        | some slot => (state.1.modify slot fun raw => { raw with
            hasStore := true
            hasEffectfulStore := raw.hasEffectfulStore || (triggers ≠ [] || captureSites ≠ [])
            defBlocks := insertNew b raw.defBlocks }, insertNew slot state.2)
        | none => state
      ((overlappingSlots locations addr offset width).filter (some · ≠ exact)).foldl kill
        (facts, defined)
    else state
  | .commit source destination offset width _ =>
    let facts := if source.region = sel.region then
        (overlappingSlots locations source offset width).foldl
          (fun facts slot => facts.modify slot fun raw => { raw with escapes := true }) state.1
      else state.1
    if destination.region = sel.region then
      (overlappingSlots locations destination offset width).foldl kill (facts, state.2)
    else (facts, state.2)
  | _ => state
where
  /-- An overlapping write whose value the slot does not take over. -/
  kill (state : List RawSlot × List Nat) (slot : Nat) : List RawSlot × List Nat :=
    (state.1.modify slot fun raw => { raw with
      hasKill := true
      defBlocks := insertNew b raw.defBlocks }, insertNew slot state.2)

def collectFacts (facts : List RawSlot) : List RawSlot :=
  cfg.blockIds.foldl (fun facts b =>
    ((instructionsOf eu b).foldl (addFacts sel locations b) (facts, [])).1) facts

/-! ## Slots -/

def RawSlot.selected (sel : Selection) (raw : RawSlot) : Bool :=
  !raw.invalid && raw.hasLoad && (sel.includeReadOnly || raw.hasStore)

/-- The number of a block of the graph. -/
def blockNumber (b : BlockId) : Nat := cfg.blockIds.idxOf b

def rowOf (table : List (List Nat)) (block : Nat) : List Nat := table[block]?.getD []

/-- Every block is queued at most once. -/
def liveInLoop (definitions : List Nat) : Nat → List Nat → List Nat → List Nat
  | 0, _, liveIn => liveIn
  | _ + 1, [], liveIn => liveIn
  | fuel + 1, block :: work, liveIn =>
    let fresh := ((rowOf cfg.predecessors block).filter fun p =>
      p ∉ definitions ∧ p ∉ liveIn).dedup
    liveInLoop definitions fuel (work ++ fresh) (liveIn ++ fresh)

def liveInBlocks (raw : RawSlot) : List Nat :=
  let uses := raw.upwardUseBlocks.map (blockNumber cfg)
  liveInLoop cfg (raw.defBlocks.map (blockNumber cfg)) cfg.blockIds.length uses uses

/-- One frontier of a definition: the phis, the blocks queued so far and the work. -/
def placePhi (liveIn : List Nat) (state : List Nat × List Nat × List Nat) (frontier : Nat) :
    List Nat × List Nat × List Nat :=
  let (phis, queued, work) := state
  if frontier ∉ liveIn ∨ frontier ∈ phis then state
  else if frontier ∈ queued then (phis ++ [frontier], queued, work)
  else (phis ++ [frontier], queued ++ [frontier], frontier :: work)

/-- Every block is queued at most once. -/
def placeLoop (liveIn : List Nat) : Nat → List Nat × List Nat × List Nat → List Nat
  | 0, (phis, _, _) => phis
  | _ + 1, (phis, _, []) => phis
  | fuel + 1, (phis, queued, definition :: work) =>
    placeLoop liveIn fuel ((rowOf cfg.dominanceFrontier definition).foldl (placePhi liveIn)
      (phis, queued, work))

def phiBlocksForSlot (raw : RawSlot) (liveIn : List Nat) : List Nat :=
  let definitions := raw.defBlocks.map (blockNumber cfg)
  (placeLoop cfg liveIn cfg.blockIds.length ([], definitions, definitions)).insertionSort (· ≤ ·)

/-- Placement asks at blocks without a load too, so nothing is pruned for it. -/
def makeSlot (location : StateLocation A) (raw : RawSlot) :
    Except StateSsaError (StateSsaSlot A) :=
  match raw.ty with
  | none => .error (.invalidAccess "exact slot has no register type")
  | some ty =>
    let mayNeedPhi := raw.defBlocks.any fun b =>
      rowOf cfg.dominanceFrontier (blockNumber cfg b) ≠ []
    let needsLiveness :=
      sel.region = WORKING_REGION || mayNeedPhi || raw.upwardUseBlocks ≠ []
    let liveIn := if sel.includeReadOnly then List.range cfg.blockIds.length
      else if needsLiveness then liveInBlocks cfg raw else []
    .ok {
      fragment := .ofLocation location ty
      ty
      phiBlocks := if mayNeedPhi then phiBlocksForSlot cfg raw liveIn else []
      liveInEntry := 0 ∈ liveIn
      hasEffectfulStore := raw.hasEffectfulStore
      hasKill := raw.hasKill
      escapes := raw.escapes }

/-- Only the effects on selected slots, by their new numbers. -/
def InstructionEffects.remap (selected : List Nat) (effects : InstructionEffects) :
    InstructionEffects :=
  ⟨(effects.uses.filter (·.slot ∈ selected)).map fun e => { e with slot := selected.idxOf e.slot },
    (effects.defs.filter (·.slot ∈ selected)).map fun e => { e with slot := selected.idxOf e.slot }⟩

def analyzeSlots : Except StateSsaError (List (StateSsaSlot A) × Effects) := do
  let raw ← discover eu cfg sel
  let locations := raw.keys.insertionSort (·.key ≤ ·.key)
  let facts := collectFacts eu cfg sel locations
    (locations.map fun location => (raw.lookup location).getD {})
  let selected := (List.range facts.length).filter fun i => (facts[i]?.getD {}).selected sel
  let slots ← selected.mapM fun i => match locations[i]?, facts[i]? with
    | some location, some raw => makeSlot cfg sel location raw
    | _, _ => .error (.invalidAccess "exact slot has no register type")
  let effects := (collectEffects eu cfg sel locations).filterMap fun e =>
    let effects := e.2.remap selected
    if effects.isEmpty then none else some (e.1, effects)
  return (slots, effects)

end Analyze
end Celox.Opt.StateVersions

/-! ## What is known of the slots

The types recorded at a location, and the loads and stores that are exact there. -/
namespace Celox.Opt.StateVersions
open Celox.Sir Celox.Layout Celox.Opt Celox.Data

variable {A : Type} [LinearOrder A] {eu : ExecutionUnit (RegionedAbsoluteAddr A)} {cfg : SirCfg}
  {sel : Selection}

/-! ## Recorded types -/

variable (eu) in
/-- The types of the registers among `accesses` that are at a location. -/
def typesAt (accesses : List (StateLocation A × RegisterId)) (location : StateLocation A) :
    List RegisterType :=
  accesses.filterMap fun access =>
    if access.1 = location then eu.registerMap.lookup access.2 else none

/-- A slot that the types have been recorded in, at least one. -/
structure Records (twoState : Bool) (width : Nat) (types : List RegisterType) (raw : RawSlot) :
    Prop where
  ty : ∃ type ∈ types, raw.ty = some (normalized twoState width type)
  invalid : raw.invalid = false ↔ ∀ type ∈ types, width ≠ 0 ∧ type.width = width ∧
    raw.ty = some (normalized twoState width type)
  unused : raw.hasLoad = false ∧ raw.hasStore = false

variable {twoState : Bool} {width : Nat} {types : List RegisterType} {raw : RawSlot}
  {type : RegisterType}

theorem Records.first : Records twoState width [type] (RawSlot.recordType {} type width twoState) := by
  refine ⟨⟨type, List.mem_singleton.mpr rfl, rfl⟩, ?_, rfl, rfl⟩
  simp [RawSlot.recordType]

theorem Records.record (h : Records twoState width types raw) (type : RegisterType) :
    Records twoState width (types ++ [type]) (raw.recordType type width twoState) := by
  obtain ⟨first, hfirst, hty⟩ := h.ty
  refine ⟨⟨first, List.mem_append_left _ hfirst, by simp [RawSlot.recordType, hty]⟩, ?_, h.unused⟩
  have hkept : (raw.recordType type width twoState).ty = raw.ty := by simp [RawSlot.recordType, hty]
  have hinvalid : (raw.recordType type width twoState).invalid = false ↔ raw.invalid = false ∧
      width ≠ 0 ∧ type.width = width ∧ raw.ty = some (normalized twoState width type) := by
    simp [RawSlot.recordType, hty]
  rw [hinvalid, hkept, h.invalid]
  simp only [List.mem_append, List.mem_singleton]
  constructor
  · rintro ⟨hall, hlast⟩ t (ht | rfl)
    · exact hall t ht
    · exact hlast
  · intro hall
    exact ⟨fun t ht => hall t (.inl ht), hall type (.inr rfl)⟩

variable (eu sel) in
/-- The table holds what `accesses` record. -/
structure Discovered (accesses : List (StateLocation A × RegisterId)) (raw : RawSlots A) :
    Prop where
  typed : ∀ access ∈ accesses, ∃ type, eu.registerMap.lookup access.2 = some type
  slots : ∀ location, match raw.lookup location with
    | none => ∀ access ∈ accesses, access.1 ≠ location
    | some slot => Records sel.twoState location.width (typesAt eu accesses location) slot

variable {accesses more : List (StateLocation A × RegisterId)} {slots slots' : RawSlots A}
  {access : StateLocation A × RegisterId}

theorem typesAt_none {location : StateLocation A}
    (h : ∀ access ∈ accesses, access.1 ≠ location) : typesAt eu accesses location = [] := by
  refine List.filterMap_eq_nil_iff.mpr fun access haccess => ?_
  rw [if_neg (h access haccess)]

theorem record_spec (h : Discovered eu sel accesses slots)
    (hrec : record eu sel slots access = .ok slots') :
    Discovered eu sel (accesses ++ [access]) slots' := by
  unfold record at hrec
  split at hrec
  · cases hrec
  rename_i type htype
  cases hrec
  refine ⟨fun a ha => ?_, fun location => ?_⟩
  · rcases List.mem_append.mp ha with ha | ha
    · exact h.typed a ha
    · exact ⟨type, List.mem_singleton.mp ha ▸ htype⟩
  by_cases heq : location = access.1
  · subst heq
    rw [AList.lookup_insert]
    have hlast : typesAt eu (accesses ++ [access]) access.1 =
        typesAt eu accesses access.1 ++ [type] := by
      simp [typesAt, htype]
    have hslot := h.slots access.1
    rw [hlast]
    split at hslot
    · rename_i hnone
      rw [hnone, typesAt_none hslot]
      exact .first
    · rename_i slot hsome
      rw [hsome]
      exact hslot.record type
  · rw [AList.lookup_insert_ne heq]
    have hslot := h.slots location
    have hsame : typesAt eu (accesses ++ [access]) location = typesAt eu accesses location := by
      simp [typesAt, Ne.symm heq]
    split at hslot
    · intro a ha
      rcases List.mem_append.mp ha with ha | ha
      · exact hslot a ha
      · rw [List.mem_singleton.mp ha]
        exact Ne.symm heq
    · rw [hsame]
      exact hslot

theorem foldl_record_spec (h : Discovered eu sel accesses slots)
    (hrec : more.foldlM (record eu sel) slots = .ok slots') :
    Discovered eu sel (accesses ++ more) slots' := by
  induction more generalizing accesses slots with
  | nil =>
    cases hrec
    rwa [List.append_nil]
  | cons access more ih =>
    rw [List.foldlM_cons, bind_eq_ok] at hrec
    obtain ⟨mid, hmid, hrest⟩ := hrec
    rw [List.append_cons]
    exact ih (record_spec h hmid) hrest

theorem Discovered.mem_iff (h : Discovered eu sel accesses slots) {location : StateLocation A} :
    location ∈ slots ↔ ∃ access ∈ accesses, access.1 = location := by
  have hslot := h.slots location
  rw [← AList.lookup_isSome]
  split at hslot
  · rename_i hnone
    rw [hnone]
    exact iff_of_false (by simp) fun ⟨a, ha, heq⟩ => hslot a ha heq
  · rename_i slot hsome
    rw [hsome]
    obtain ⟨type, htype, -⟩ := hslot.ty
    obtain ⟨access, haccess, heq⟩ := List.mem_filterMap.mp htype
    split at heq
    · rename_i hloc
      exact iff_of_true rfl ⟨access, haccess, hloc⟩
    · cases heq

/-- The second sweep adds the writers at locations that are there. -/
theorem foldl_recordWriter_spec (h : Discovered eu sel accesses slots)
    (hrec : more.foldlM (recordWriter eu sel) slots = .ok slots') :
    Discovered eu sel (accesses ++ more.filter fun e => ∃ access ∈ accesses, access.1 = e.1)
      slots' := by
  induction more generalizing accesses slots with
  | nil =>
    cases hrec
    simpa using h
  | cons access more ih =>
    rw [List.foldlM_cons, bind_eq_ok] at hrec
    obtain ⟨mid, hmid, hrest⟩ := hrec
    unfold recordWriter at hmid
    by_cases hin : ∃ a ∈ accesses, a.1 = access.1
    · rw [if_pos (h.mem_iff.mpr hin)] at hmid
      have hfinal := ih (record_spec h hmid) hrest
      have hsame : ∀ e : StateLocation A × RegisterId,
          (∃ a ∈ accesses ++ [access], a.1 = e.1) ↔ ∃ a ∈ accesses, a.1 = e.1 := by
        intro e
        constructor
        · rintro ⟨a, ha, heq⟩
          rcases List.mem_append.mp ha with ha | ha
          · exact ⟨a, ha, heq⟩
          · obtain ⟨a', ha', heq'⟩ := hin
            rw [List.mem_singleton.mp ha] at heq
            exact ⟨a', ha', heq'.trans heq⟩
        · rintro ⟨a, ha, heq⟩
          exact ⟨a, List.mem_append_left _ ha, heq⟩
      simp only [hsame] at hfinal
      rw [List.filter_cons_of_pos (by simpa using hin), List.append_cons]
      exact hfinal
    · rw [if_neg (fun hmem => hin (h.mem_iff.mp hmem))] at hmid
      cases hmid
      rw [List.filter_cons_of_neg (by simpa using hin)]
      exact ih h hrest

variable (eu cfg sel) in
/-- The accesses whose types are recorded. -/
def recorded : List (StateLocation A × RegisterId) :=
  let found := (allInstructions eu cfg).filterMap (discovered sel)
  found ++ if sel.eligibleLoads.isSome then
      ((allInstructions eu cfg).filterMap (writer sel)).filter
        fun e => ∃ access ∈ found, access.1 = e.1
    else []

theorem discover_spec (h : discover eu cfg sel = .ok slots) :
    Discovered eu sel (recorded eu cfg sel) slots := by
  unfold discover at h
  obtain ⟨mid, hmid, hrest⟩ := bind_eq_ok.mp h
  have hfirst : Discovered eu sel ((allInstructions eu cfg).filterMap (discovered sel)) mid := by
    have hempty : Discovered eu sel [] (∅ : RawSlots A) := by
      refine ⟨by simp, fun location => ?_⟩
      rw [AList.lookup_empty]
      exact fun access haccess => absurd haccess (List.not_mem_nil)
    simpa using foldl_record_spec hempty hmid
  unfold recorded
  dsimp only
  by_cases hsparse : sel.eligibleLoads.isSome
  · rw [if_pos hsparse] at hrest ⊢
    exact foldl_recordWriter_spec hfirst hrest
  · rw [if_neg hsparse] at hrest ⊢
    cases hrest
    rwa [List.append_nil]

/-! ## Loads and stores of a slot -/

variable {locations : List (StateLocation A)} {b : BlockId}
  {inst : SIRInstruction (RegionedAbsoluteAddr A)}

variable (sel) in
/-- The location and the register of a load that is asked for. -/
def loadAt (b : BlockId) : SIRInstruction (RegionedAbsoluteAddr A) →
    Option (StateLocation A × RegisterId)
  | .load destination addr offset width =>
    if addr.region = sel.region && sel.uses b destination then
      match offset with
      | .static bitOffset | .packedElements bitOffset _ =>
        some (⟨addr, bitOffset, width, false⟩, destination)
      | .dynamic _ | .element .. => some (⟨addr, 0, width, true⟩, destination)
    else none
  | _ => none

variable (sel) in
/-- The location and the register of a store that has its value whole. -/
def storeAt : SIRInstruction (RegionedAbsoluteAddr A) → Option (StateLocation A × RegisterId)
  | .store addr offset width source _ _ =>
    if addr.region = sel.region then
      match offset with
      | .static bitOffset | .packedElements bitOffset _ =>
        some (⟨addr, bitOffset, width, false⟩, source)
      | .dynamic _ | .element .. => none
    else none
  | _ => none

theorem rawIndex_eq {location : StateLocation A} {i : Nat} (hnodup : locations.Nodup) :
    rawIndex locations location = some i ↔ locations[i]? = some location := by
  unfold rawIndex
  constructor
  · intro h
    split at h
    · rename_i hmem
      cases h
      exact List.getElem?_idxOf hmem
    · cases h
  · intro h
    obtain ⟨hlt, rfl⟩ := List.getElem?_eq_some_iff.mp h
    rw [if_pos (List.getElem_mem hlt), hnodup.idxOf_getElem]

/-- Some facts stay: the type, whether it is invalid, the loads and the stores. -/
structure Keeps (facts facts' : List RawSlot) : Prop where
  length : facts'.length = facts.length
  same : ∀ (i : Nat) raw', facts'[i]? = some raw' → ∃ raw, facts[i]? = some raw ∧
    raw'.ty = raw.ty ∧ raw'.invalid = raw.invalid ∧ raw'.hasLoad = raw.hasLoad ∧
      raw'.hasStore = raw.hasStore

variable {facts facts' : List RawSlot}

theorem Keeps.refl : Keeps facts facts := ⟨rfl, fun _ raw h => ⟨raw, h, rfl, rfl, rfl, rfl⟩⟩

theorem Keeps.trans {mid : List RawSlot} (h : Keeps facts mid) (h' : Keeps mid facts') :
    Keeps facts facts' := by
  refine ⟨h'.length.trans h.length, fun i raw' hraw' => ?_⟩
  obtain ⟨raw, hraw, h₁, h₂, h₃, h₄⟩ := h'.same i raw' hraw'
  obtain ⟨raw₀, hraw₀, h₁', h₂', h₃', h₄'⟩ := h.same i raw hraw
  exact ⟨raw₀, hraw₀, h₁.trans h₁', h₂.trans h₂', h₃.trans h₃', h₄.trans h₄'⟩

theorem Keeps.modify {slot : Nat} {f : RawSlot → RawSlot}
    (hf : ∀ raw, (f raw).ty = raw.ty ∧ (f raw).invalid = raw.invalid ∧
      (f raw).hasLoad = raw.hasLoad ∧ (f raw).hasStore = raw.hasStore) :
    Keeps facts (facts.modify slot f) := by
  refine ⟨List.length_modify .., fun i raw' h => ?_⟩
  rw [List.getElem?_modify] at h
  cases hraw : facts[i]? with
  | none => simp [hraw] at h
  | some raw =>
    rw [hraw, Option.map_eq_map, Option.map_some, Option.some.injEq] at h
    refine ⟨raw, rfl, ?_⟩
    subst h
    split
    · exact hf raw
    · exact ⟨rfl, rfl, rfl, rfl⟩

theorem Keeps.escapes {slots : List Nat} : Keeps facts (slots.foldl
    (fun facts slot => facts.modify slot fun raw => { raw with escapes := true }) facts) := by
  induction slots generalizing facts with
  | nil => exact .refl
  | cons slot slots ih =>
    refine Keeps.trans ?_ ih
    exact .modify fun _ => ⟨rfl, rfl, rfl, rfl⟩

theorem Keeps.kills (slots : List Nat) (state : List RawSlot × List Nat) :
    Keeps state.1 (slots.foldl (addFacts.kill b) state).1 := by
  induction slots generalizing state with
  | nil => exact .refl
  | cons slot slots ih =>
    refine Keeps.trans ?_ (ih _)
    exact .modify fun _ => ⟨rfl, rfl, rfl, rfl⟩

/-- Types stay, and slots with a location that is loaded or stored are known to be. -/
structure Adds (locations : List (StateLocation A)) (loaded stored : StateLocation A → Prop)
    (facts facts' : List RawSlot) : Prop where
  length : facts'.length = facts.length
  same : ∀ (i : Nat) raw' location, facts'[i]? = some raw' → locations[i]? = some location →
    ∃ raw, facts[i]? = some raw ∧ raw'.ty = raw.ty ∧ raw'.invalid = raw.invalid ∧
      (raw'.hasLoad = true ↔ raw.hasLoad = true ∨ loaded location) ∧
      (raw'.hasStore = true ↔ raw.hasStore = true ∨ stored location)

variable {loaded stored loaded' stored' : StateLocation A → Prop}

omit [LinearOrder A] in
theorem Keeps.adds (h : Keeps facts facts') :
    Adds locations (fun _ => False) (fun _ => False) facts facts' := by
  refine ⟨h.length, fun i raw' location hraw' _ => ?_⟩
  obtain ⟨raw, hraw, h₁, h₂, h₃, h₄⟩ := h.same i raw' hraw'
  exact ⟨raw, hraw, h₁, h₂, by rw [h₃, or_false], by rw [h₄, or_false]⟩

omit [LinearOrder A] in
theorem Adds.trans {mid : List RawSlot} (h : Adds locations loaded stored facts mid)
    (h' : Adds locations loaded' stored' mid facts') :
    Adds locations (fun l => loaded l ∨ loaded' l) (fun l => stored l ∨ stored' l) facts facts' := by
  refine ⟨h'.length.trans h.length, fun i raw' location hraw' hloc => ?_⟩
  obtain ⟨raw, hraw, h₁, h₂, h₃, h₄⟩ := h'.same i raw' location hraw' hloc
  obtain ⟨raw₀, hraw₀, h₁', h₂', h₃', h₄'⟩ := h.same i raw location hraw hloc
  exact ⟨raw₀, hraw₀, h₁.trans h₁', h₂.trans h₂', by rw [h₃, h₃', or_assoc],
    by rw [h₄, h₄', or_assoc]⟩

omit [LinearOrder A] in
theorem Adds.congr (h : Adds locations loaded stored facts facts')
    (hloaded : ∀ l ∈ locations, loaded l ↔ loaded' l)
    (hstored : ∀ l ∈ locations, stored l ↔ stored' l) :
    Adds locations loaded' stored' facts facts' := by
  refine ⟨h.length, fun i raw' location hraw' hloc => ?_⟩
  obtain ⟨raw, hraw, h₁, h₂, h₃, h₄⟩ := h.same i raw' location hraw' hloc
  have hmem := List.mem_of_getElem? hloc
  exact ⟨raw, hraw, h₁, h₂, by rw [h₃, hloaded location hmem], by rw [h₄, hstored location hmem]⟩

omit [LinearOrder A] in
/-- One slot is marked, with a type that stays. -/
theorem Adds.modify (hnodup : locations.Nodup) {slot : Nat} {location : StateLocation A}
    (hslot : locations[slot]? = some location) {f : RawSlot → RawSlot} {load store : Bool}
    (hf : ∀ raw, (f raw).ty = raw.ty ∧ (f raw).invalid = raw.invalid ∧
      (f raw).hasLoad = (raw.hasLoad || load) ∧ (f raw).hasStore = (raw.hasStore || store)) :
    Adds locations (fun l => load = true ∧ l = location) (fun l => store = true ∧ l = location)
      facts (facts.modify slot f) := by
  refine ⟨List.length_modify .., fun i raw' l h hl => ?_⟩
  rw [List.getElem?_modify] at h
  cases hraw : facts[i]? with
  | none => simp [hraw] at h
  | some raw =>
    rw [hraw, Option.map_eq_map, Option.map_some, Option.some.injEq] at h
    refine ⟨raw, rfl, ?_⟩
    subst h
    split
    · rename_i hi
      subst hi
      rw [hslot] at hl
      cases hl
      obtain ⟨h₁, h₂, h₃, h₄⟩ := hf raw
      exact ⟨h₁, h₂, by simp [h₃], by simp [h₄]⟩
    · rename_i hi
      have hne : l ≠ location := by
        rintro rfl
        obtain ⟨hlt, hslot'⟩ := List.getElem?_eq_some_iff.mp hslot
        obtain ⟨hlt', hl'⟩ := List.getElem?_eq_some_iff.mp hl
        exact hi ((List.Nodup.getElem_inj_iff hnodup).mp (hslot'.trans hl'.symm))
      simp [hne]

theorem exactSlot_load (hnodup : locations.Nodup) {addr : RegionedAbsoluteAddr A} {width i : Nat}
    {offset : SIROffset} {destination : RegisterId} (hregion : addr.region = sel.region)
    (huses : sel.uses b destination = true) :
    exactSlot locations addr width true offset = some i ↔ ∃ location,
      locations[i]? = some location ∧
        loadAt sel b (.load destination addr offset width) = some (location, destination) := by
  cases offset <;> simp [exactSlot, loadAt, hregion, huses, rawIndex_eq hnodup]

theorem exactSlot_store (hnodup : locations.Nodup) {addr : RegionedAbsoluteAddr A} {width i : Nat}
    {offset : SIROffset} {source : RegisterId} {triggers : List TriggerIdWithKind}
    {captureSites : List Nat} (hregion : addr.region = sel.region) :
    exactSlot locations addr width false offset = some i ↔ ∃ location,
      locations[i]? = some location ∧
        storeAt sel (.store addr offset width source triggers captureSites) =
          some (location, source) := by
  cases offset <;> simp [exactSlot, storeAt, hregion, rawIndex_eq hnodup]

theorem addFacts_spec (hnodup : locations.Nodup) (defined : List Nat) :
    Adds locations (fun l => ∃ reg, loadAt sel b inst = some (l, reg))
      (fun l => ∃ reg, storeAt sel inst = some (l, reg)) facts
      (addFacts sel locations b (facts, defined) inst).1 := by
  have hkeeps : ∀ {facts' : List RawSlot}, Keeps facts facts' →
      (∀ l ∈ locations, ∀ reg, loadAt sel b inst ≠ some (l, reg)) →
      (∀ l ∈ locations, ∀ reg, storeAt sel inst ≠ some (l, reg)) →
      Adds locations (fun l => ∃ reg, loadAt sel b inst = some (l, reg))
        (fun l => ∃ reg, storeAt sel inst = some (l, reg)) facts facts' :=
    fun h hload hstore => h.adds.congr (fun l hl => by simpa using hload l hl)
      (fun l hl => by simpa using hstore l hl)
  cases inst with
  | load destination addr offset width =>
    by_cases hregion : addr.region = sel.region
    · simp only [addFacts, if_pos hregion]
      by_cases huses : sel.uses b destination = true
      · cases hexact : exactSlot locations addr width true offset with
        | none =>
          refine hkeeps .escapes (fun l hl reg hat => ?_) (by simp [storeAt])
          obtain ⟨i, hi⟩ := List.mem_iff_getElem?.mp hl
          obtain rfl : destination = reg := by
            simp only [loadAt, hregion, huses] at hat
            cases offset <;> simp_all
          have hsome := (exactSlot_load hnodup hregion huses).mpr ⟨l, hi, hat⟩
          rw [hexact] at hsome
          cases hsome
        | some slot =>
          obtain ⟨location, hloc, hat⟩ := (exactSlot_load hnodup hregion huses).mp hexact
          simp only [if_pos huses]
          have hmark : Adds locations (fun l => true = true ∧ l = location)
              (fun l => false = true ∧ l = location) facts (facts.modify slot fun raw => { raw with
                hasLoad := true
                upwardUseBlocks := if slot ∈ defined then raw.upwardUseBlocks
                  else insertNew b raw.upwardUseBlocks }) :=
            .modify hnodup hloc fun raw => ⟨rfl, rfl, by simp, by simp⟩
          refine (hmark.trans (Keeps.adds .escapes)).congr (fun l _ => ?_) (fun l _ => ?_)
          · simp [hat, eq_comm]
          · simp [storeAt]
      · simp only [huses, Bool.false_eq_true, if_false]
        refine hkeeps ?_ (fun l _ reg hat => ?_) (by simp [storeAt])
        · cases exactSlot locations addr width true offset <;> exact .escapes
        · simp [loadAt, huses] at hat
    · simp only [addFacts, if_neg hregion]
      exact hkeeps .refl (by simp [loadAt, hregion]) (by simp [storeAt])
  | store addr offset width source triggers captureSites =>
    by_cases hregion : addr.region = sel.region
    · simp only [addFacts, if_pos hregion]
      cases hexact : exactSlot locations addr width false offset with
      | none =>
        refine hkeeps (.kills _ (facts, defined)) (by simp [loadAt]) (fun l hl reg hat => ?_)
        obtain ⟨i, hi⟩ := List.mem_iff_getElem?.mp hl
        obtain rfl : source = reg := by
          simp only [storeAt, hregion] at hat
          cases offset <;> simp_all
        have hsome := (exactSlot_store hnodup hregion).mpr ⟨l, hi, hat⟩
        rw [hexact] at hsome
        cases hsome
      | some slot =>
        obtain ⟨location, hloc, hat⟩ : ∃ location, locations[slot]? = some location ∧
            storeAt sel (.store addr offset width source triggers captureSites) =
              some (location, source) := (exactSlot_store hnodup hregion).mp hexact
        have hmark : Adds locations (fun l => false = true ∧ l = location)
            (fun l => true = true ∧ l = location) facts (facts.modify slot fun raw => { raw with
              hasStore := true
              hasEffectfulStore := raw.hasEffectfulStore ||
                (triggers ≠ [] || captureSites ≠ [])
              defBlocks := insertNew b raw.defBlocks }) :=
          .modify hnodup hloc fun raw => ⟨rfl, rfl, by simp, by simp⟩
        refine (hmark.trans (Keeps.adds (.kills _ (_, insertNew slot defined)))).congr (fun l _ => ?_) (fun l _ => ?_)
        · simp [loadAt]
        · simp [hat, eq_comm]
    · simp only [addFacts, if_neg hregion]
      exact hkeeps .refl (by simp [loadAt]) (by simp [storeAt, hregion])
  | commit source destination offset width triggers =>
    have hescapes : Keeps facts (if source.region = sel.region then
        (overlappingSlots locations source offset width).foldl
          (fun facts slot => facts.modify slot fun raw => { raw with escapes := true }) facts
        else facts) := by
      split
      · exact .escapes
      · exact .refl
    simp only [addFacts]
    refine hkeeps ?_ (by simp [loadAt]) (by simp [storeAt])
    split
    · exact hescapes.trans (.kills _ (_, defined))
    · exact hescapes
  | _ => exact hkeeps .refl (by simp [loadAt]) (by simp [storeAt])

theorem collectFacts_spec (hnodup : locations.Nodup) :
    Adds locations
      (fun l => ∃ b ∈ cfg.blockIds, ∃ inst ∈ instructionsOf eu b, ∃ reg,
        loadAt sel b inst = some (l, reg))
      (fun l => ∃ b ∈ cfg.blockIds, ∃ inst ∈ instructionsOf eu b, ∃ reg,
        storeAt sel inst = some (l, reg)) facts (collectFacts eu cfg sel locations facts) := by
  have hblock : ∀ (b : BlockId) (insts : List (SIRInstruction (RegionedAbsoluteAddr A)))
      (state : List RawSlot × List Nat),
      Adds locations (fun l => ∃ inst ∈ insts, ∃ reg, loadAt sel b inst = some (l, reg))
        (fun l => ∃ inst ∈ insts, ∃ reg, storeAt sel inst = some (l, reg)) state.1
        (insts.foldl (addFacts sel locations b) state).1 := by
    intro b insts
    induction insts with
    | nil => exact fun state => Keeps.refl.adds.congr (by simp) (by simp)
    | cons inst insts ih =>
      intro state
      refine ((addFacts_spec hnodup state.2).trans (ih _)).congr (fun l _ => ?_) (fun l _ => ?_)
      · simp only [List.mem_cons, exists_eq_or_imp]
      · simp only [List.mem_cons, exists_eq_or_imp]
  unfold collectFacts
  induction cfg.blockIds generalizing facts with
  | nil => exact Keeps.refl.adds.congr (by simp) (by simp)
  | cons b blockIds ih =>
    refine ((hblock b (instructionsOf eu b) (facts, [])).trans ih).congr (fun l _ => ?_)
      (fun l _ => ?_)
    · simp only [List.mem_cons, exists_eq_or_imp]
    · simp only [List.mem_cons, exists_eq_or_imp]

end Celox.Opt.StateVersions
