import Celox.Opt.StateSsa

/-! # The access graph of the slots

`build_access_graph` and `verify`: every use, definition, kill and phi of a slot is an access, and a
walk over the dominator tree gives each the version that reaches it. -/
namespace Celox.Opt.StateVersions
open Celox.Sir Celox.Layout Celox.Opt

inductive MemoryAccessKind where
  | liveOnEntry
  | use (destination : Option RegisterId) (reaching : Nat)
  | define (source : RegisterId) (observable : Bool)
  | kill (reaching : Nat)
  | phi (incoming : List (BlockId × Nat))
deriving DecidableEq, Repr

def MemoryAccessKind.definesVersion : MemoryAccessKind → Bool
  | .use .. => false
  | _ => true

structure MemoryAccess where
  id : Nat
  slot : Nat
  block : Option BlockId
  instruction : Option Nat
  kind : MemoryAccessKind
deriving DecidableEq, Repr

structure InstructionAccesses where
  uses : List Nat
  defs : List Nat
deriving DecidableEq, Repr

def VERSION_CHECKPOINT_INTERVAL : Nat := 64

inductive VersionSnapshot where
  | dense (versions : List Nat)
  | delta (parent : Nat) (updates : List (Nat × Nat))
deriving DecidableEq, Repr

structure StateSsa (A : Type) where
  slots : List (StateSsaSlot A)
  accesses : List MemoryAccess
  effects : Effects
  readVersions : List ((BlockId × Nat × RegisterId) × (Nat × Nat))
  versionSnapshots : List VersionSnapshot
  entryVersions : List (BlockId × Nat)
  exitVersions : List (BlockId × Nat)
deriving DecidableEq, Repr

/-! ## Numbering the accesses -/

def pushAccess (accesses : List MemoryAccess) (slot : Nat) (block : Option BlockId)
    (instruction : Option Nat) (kind : MemoryAccessKind) : List MemoryAccess :=
  accesses ++ [⟨accesses.length, slot, block, instruction, kind⟩]

section Build
variable {A : Type} [LinearOrder A]

/-- Slot `i` has access `i` for its version at the entry. -/
def liveAccesses (slots : List (StateSsaSlot A)) : List MemoryAccess :=
  (List.range slots.length).foldl (fun accesses slot =>
    pushAccess accesses slot none none .liveOnEntry) []

/-- The phis of every block, with their slots, in slot order. -/
abbrev PhiAccesses := List (List (Nat × Nat))

def pushPhi (cfg : SirCfg) (slot : Nat) (state : List MemoryAccess × PhiAccesses) (block : Nat) :
    List MemoryAccess × PhiAccesses :=
  (pushAccess state.1 slot cfg.blockIds[block]? none (.phi []),
    state.2.modify block (· ++ [(slot, state.1.length)]))

def pushPhis (cfg : SirCfg) (slots : List (StateSsaSlot A)) (accesses : List MemoryAccess) :
    List MemoryAccess × PhiAccesses :=
  let state := slots.zipIdx.foldl (fun state (slot, i) =>
    slot.phiBlocks.foldl (pushPhi cfg i) state) (accesses, cfg.blockIds.map fun _ => [])
  (state.1, state.2.map (·.insertionSort (·.1 ≤ ·.1)))

abbrev AccessTable := List ((BlockId × Nat) × InstructionAccesses)

/-- A use or a kill starts with the version at the entry. -/
def pushUse (place : BlockId × Nat) (state : List MemoryAccess × List Nat) (effect : UseEffect) :
    List MemoryAccess × List Nat :=
  (pushAccess state.1 effect.slot (some place.1) (some place.2)
    (.use effect.destination effect.slot), state.2 ++ [state.1.length])

def DefEffect.accessKind (effect : DefEffect) : MemoryAccessKind :=
  match effect.kind with
  | .exact source observable => .define source observable
  | .kill => .kill effect.slot

def pushDef (place : BlockId × Nat) (state : List MemoryAccess × List Nat) (effect : DefEffect) :
    List MemoryAccess × List Nat :=
  (pushAccess state.1 effect.slot (some place.1) (some place.2) effect.accessKind,
    state.2 ++ [state.1.length])

def pushEffects (effects : Effects) (state : List MemoryAccess × AccessTable)
    (place : BlockId × Nat) : List MemoryAccess × AccessTable :=
  match effects.lookup place with
  | none => state
  | some found =>
    let (accesses, uses) := found.uses.foldl (pushUse place) (state.1, [])
    let (accesses, defs) := found.defs.foldl (pushDef place) (accesses, [])
    (accesses, state.2 ++ [(place, ⟨uses, defs⟩)])

variable (eu : ExecutionUnit (RegionedAbsoluteAddr A)) (cfg : SirCfg)

def places : List (BlockId × Nat) :=
  cfg.blockIds.flatMap fun b => (List.range (instructionsOf eu b).length).map (b, ·)

/-! ## Renaming along the dominator tree -/

inductive Visit where
  | enter (block : Nat) (parentExit : Option Nat) (depth : Nat)
  | exit (pushed : List Nat)

/-- The stacks have the current version first. -/
structure Renaming where
  accesses : List MemoryAccess
  versions : List (List Nat)
  versionSnapshots : List VersionSnapshot
  entryVersions : List (BlockId × Nat)
  exitVersions : List (BlockId × Nat)

variable {eu} {cfg}

def Renaming.current (state : Renaming) (block : BlockId) (slot : Nat) : Except StateSsaError Nat :=
  match state.versions[slot]?.bind List.head? with
  | none => .error (.missingReachingVersion block slot)
  | some version => .ok version

def Renaming.push (state : Renaming) (slot version : Nat) : Renaming :=
  { state with versions := state.versions.modify slot (version :: ·) }

def Renaming.pop (state : Renaming) (slot : Nat) : Renaming :=
  { state with versions := state.versions.modify slot List.tail }

def Renaming.setKind (state : Renaming) (access : Nat) (kind : MemoryAccessKind) : Renaming :=
  { state with accesses := state.accesses.modify access fun a => { a with kind } }

def currentVersions (state : Renaming) (block : BlockId) : Except StateSsaError (List Nat) :=
  (List.range state.versions.length).mapM (state.current block)

def renameUse (block : BlockId) (state : Renaming) (access : Nat) :
    Except StateSsaError Renaming :=
  match state.accesses[access]? with
  | none => .error (.invalidAccess "use table names a definition")
  | some a => do
    let reaching ← state.current block a.slot
    match a.kind with
    | .use destination _ => return state.setKind access (.use destination reaching)
    | _ => .error (.invalidAccess "use table names a definition")

def renameKill (block : BlockId) (state : Renaming) (access : Nat) (a : MemoryAccess) :
    Except StateSsaError Renaming :=
  match a.kind with
  | .kill _ => do
    let reaching ← state.current block a.slot
    return state.setKind access (.kill reaching)
  | _ => .ok state

/-- The slots that the block has pushed a version for, with the new state. -/
def renameDef (block : BlockId) (state : Renaming × List Nat) (access : Nat) :
    Except StateSsaError (Renaming × List Nat) :=
  match state.1.accesses[access]? with
  | none => .error (.invalidAccess "use table names a definition")
  | some a => do
    let renamed ← renameKill block state.1 access a
    return (renamed.push a.slot access, state.2 ++ [a.slot])

def renameInstruction (table : AccessTable) (block : BlockId) (state : Renaming × List Nat)
    (instruction : Nat) : Except StateSsaError (Renaming × List Nat) :=
  match table.lookup (block, instruction) with
  | none => .ok state
  | some accesses => do
    let renamed ← accesses.uses.foldlM (renameUse block) state.1
    accesses.defs.foldlM (renameDef block) (renamed, state.2)

def pushIncoming (block : BlockId) (state : Renaming) (phi : Nat × Nat) :
    Except StateSsaError Renaming := do
  let version ← state.current block phi.1
  match state.accesses[phi.2]? with
  | some ⟨_, _, _, _, .phi incoming⟩ =>
    return state.setKind phi.2 (.phi (incoming ++ [(block, version)]))
  | _ => .error (.invalidAccess "phi table names a non-phi access")

def Renaming.snapshot (state : Renaming) (snapshot : VersionSnapshot) : Renaming :=
  { state with versionSnapshots := state.versionSnapshots ++ [snapshot] }

/-- Every so many levels of the tree all versions are kept, else what the phis change. -/
def entrySnapshot (block : BlockId) (blockPhis : List (Nat × Nat)) (parentExit : Option Nat)
    (depth : Nat) (state : Renaming) : Except StateSsaError VersionSnapshot :=
  if depth % VERSION_CHECKPOINT_INTERVAL = 0 then (currentVersions state block).map .dense
  else match parentExit with
    | none => .error (.invalidAccess "non-root block has no parent version snapshot")
    | some parent => .ok (.delta parent blockPhis)

variable (eu) (cfg)

/-- The state behind the block, its exit snapshot and the slots it has pushed. -/
def renameBlock (phis : PhiAccesses) (table : AccessTable) (block : Nat) (parentExit : Option Nat)
    (depth : Nat) (state : Renaming) : Except StateSsaError (Renaming × Nat × List Nat) := do
  let blockId := cfg.blockIds[block]?.getD 0
  let blockPhis := phis[block]?.getD []
  let state := blockPhis.foldl (fun state phi => state.push phi.1 phi.2) state
  let entry := state.versionSnapshots.length
  let snapshot ← entrySnapshot blockId blockPhis parentExit depth state
  let state := state.snapshot snapshot
  let state := { state with entryVersions := state.entryVersions ++ [(blockId, entry)] }
  let (state, changed) ← (List.range (instructionsOf eu blockId).length).foldlM
    (renameInstruction table blockId) (state, [])
  let changedSlots := (changed.insertionSort (· ≤ ·)).destutter (· ≠ ·)
  let updates ← changedSlots.mapM fun slot => do
    let version ← state.current blockId slot
    return (slot, version)
  let exit := if changedSlots = [] then entry else state.versionSnapshots.length
  let state := if changedSlots = [] then state else state.snapshot (.delta entry updates)
  let state := { state with exitVersions := state.exitVersions ++ [(blockId, exit)] }
  let state ← (rowOf cfg.successors block).foldlM (fun state successor =>
    (phis[successor]?.getD []).foldlM (pushIncoming blockId) state) state
  return (state, exit, blockPhis.map Prod.fst ++ changed)

/-- A tree has every block once, so every block is entered and left once. -/
def renameLoop (phis : PhiAccesses) (table : AccessTable) :
    Nat → List Visit → Renaming → Except StateSsaError Renaming
  | 0, _, state => .ok state
  | _ + 1, [], state => .ok state
  | fuel + 1, .exit pushed :: visits, state =>
    renameLoop phis table fuel visits (pushed.reverse.foldl Renaming.pop state)
  | fuel + 1, .enter block parentExit depth :: visits, state => do
    let (state, exit, pushed) ← renameBlock eu cfg phis table block parentExit depth state
    renameLoop phis table fuel ((rowOf cfg.dominators.children block).map
      (.enter · (some exit) (depth + 1)) ++ .exit pushed :: visits) state

/-! ## Finishing and checking -/

def readVersion (reads : List ((BlockId × Nat × RegisterId) × (Nat × Nat))) (access : MemoryAccess) :
    Except StateSsaError (List ((BlockId × Nat × RegisterId) × (Nat × Nat))) :=
  match access.kind with
  | .use (some destination) reaching =>
    match access.block, access.instruction with
    | some block, some instruction =>
      if (block, instruction, destination) ∈ reads.map Prod.fst then
        .error (.invalidAccess "state load has more than one exact version")
      else .ok (reads ++ [((block, instruction, destination), (access.slot, reaching))])
    | _, _ =>
      .error (.invalidAccess "register-producing state use has no instruction location")
  | _ => .ok reads

def finishAccess (access : MemoryAccess) : Except StateSsaError MemoryAccess :=
  match access.kind with
  | .phi incoming =>
    let incoming := (incoming.insertionSort (·.1 ≤ ·.1)).destutter (·.1 ≠ ·.1)
    match access.block with
    | none => .error (.invalidAccess "phi has no containing block")
    | some block =>
      if incoming.length ≠ (rowOf cfg.predecessors (blockNumber cfg block)).length then
        .error (.missingPhiIncoming block access.slot)
      else .ok { access with kind := .phi incoming }
  | _ => .ok access

/-- The texts for a use and for a kill. -/
structure ReachingTexts where
  absent : String
  slot : String
  order : String
  dominance : String

/-- A definition of the slot, before the instruction or in a dominating block. -/
def checkReaching (accesses : List MemoryAccess) (access : MemoryAccess) (reaching : Nat)
    (block : BlockId) (texts : ReachingTexts) : Except StateSsaError Unit :=
  match accesses[reaching]? with
  | none => .error (.invalidAccess texts.absent)
  | some definition =>
    match definition.block with
    | none => .ok ()
    | some defBlock =>
      if defBlock = block then
        match definition.instruction, access.instruction with
        | some defInstruction, some instruction =>
          if instruction ≤ defInstruction then .error (.invalidAccess texts.order) else .ok ()
        | _, _ => .ok ()
      else if cfg.dominates defBlock block then .ok ()
      else .error (.invalidAccess texts.dominance)

/-- The version is one of the same slot. -/
def checkVersion (accesses : List MemoryAccess) (access : MemoryAccess) (reaching : Nat)
    (absent other : String) : Except StateSsaError Unit :=
  match accesses[reaching]? with
  | none => .error (.invalidAccess absent)
  | some definition =>
    if definition.slot ≠ access.slot ∨ definition.kind.definesVersion = false then
      .error (.invalidAccess other)
    else .ok ()

def useTexts : ReachingTexts :=
  ⟨"use reaches an absent definition", "use reaches a different slot or another use",
    "same-block definition does not precede its use",
    "reaching definition does not dominate its use"⟩

def killTexts : ReachingTexts :=
  ⟨"kill reaches an absent definition", "kill reaches a different slot or a use",
    "same-block definition does not precede its kill",
    "reaching definition does not dominate its kill"⟩

def verifyAccess (slots : Nat) (accesses : List MemoryAccess) (entry : MemoryAccess × Nat) :
    Except StateSsaError Unit :=
  let (access, index) := entry
  if access.id ≠ index ∨ slots ≤ access.slot then
    .error (.invalidAccess "access identity or slot is out of range")
  else match access.kind with
    | .use _ reaching => do
      checkVersion accesses access reaching useTexts.absent useTexts.slot
      match access.block with
      | none => .error (.invalidAccess "use has no block")
      | some block => checkReaching cfg accesses access reaching block useTexts
    | .phi incoming =>
      match access.block with
      | none => .error (.invalidAccess "phi has no containing block")
      | some block => do
        let expected := (rowOf cfg.predecessors (blockNumber cfg block)).map fun p =>
          cfg.blockIds[p]?.getD 0
        if ¬ (expected ⊆ incoming.map Prod.fst ∧ incoming.map Prod.fst ⊆ expected) then
          .error (.missingPhiIncoming block access.slot)
        else
          incoming.forM fun version =>
            checkVersion accesses access version.2 "phi incoming version is invalid"
              "phi incoming version is invalid"
    | .kill reaching => do
      checkVersion accesses access reaching killTexts.absent killTexts.slot
      match access.block, access.instruction with
      | some block, some _ => checkReaching cfg accesses access reaching block killTexts
      | _, _ => .error (.invalidAccess "kill has no instruction location")
    | .liveOnEntry | .define .. => .ok ()

def verifyAccesses (slots : List (StateSsaSlot A)) (accesses : List MemoryAccess) :
    Except StateSsaError Unit :=
  accesses.zipIdx.forM (verifyAccess cfg slots.length accesses)

/-! ## The analysis -/

/-- All accesses before they are renamed, with those of the phis and of the instructions. -/
def numberAccesses (slots : List (StateSsaSlot A)) (effects : Effects) :
    List MemoryAccess × PhiAccesses × AccessTable :=
  let (accesses, phis) := pushPhis cfg slots (liveAccesses slots)
  let (accesses, table) := (places eu cfg).foldl (pushEffects effects) (accesses, [])
  (accesses, phis, table)

def buildAccessGraph (slots : List (StateSsaSlot A)) (effects : Effects) :
    Except StateSsaError (StateSsa A) := do
  let (accesses, phis, table) := numberAccesses eu cfg slots effects
  let renamed ← renameLoop eu cfg phis table (2 * cfg.blockIds.length) [.enter 0 none 0]
    ⟨accesses, (List.range slots.length).map ([·]), [], [], []⟩
  let reads ← renamed.accesses.foldlM readVersion []
  let accesses ← renamed.accesses.mapM (finishAccess cfg)
  return ⟨slots, accesses, effects, reads, renamed.versionSnapshots, renamed.entryVersions,
    renamed.exitVersions⟩

def analyzeSelected (sel : Selection) : Except StateSsaError (StateSsa A) := do
  let (slots, effects) ← analyzeSlots eu cfg sel
  let ssa ← buildAccessGraph eu cfg slots effects
  verifyAccesses cfg ssa.slots ssa.accesses
  return ssa

/-! ## The entry points -/

def analyze (region : Nat) (eligibleLoadBlocks : Option (List BlockId)) :
    Except StateSsaError (StateSsa A) :=
  analyzeSelected eu cfg ⟨region, eligibleLoadBlocks, none, false, false⟩

def analyzeAllLoads (region : Nat) : Except StateSsaError (StateSsa A) :=
  analyzeSelected eu cfg ⟨region, none, none, true, false⟩

def analyzeAllLoadsTwoState (region : Nat) : Except StateSsaError (StateSsa A) :=
  analyzeSelected eu cfg ⟨region, none, none, true, true⟩

def analyzeSelectedLoads (region : Nat) (eligibleLoads : List RegisterId) :
    Except StateSsaError (StateSsa A) :=
  analyzeSelected eu cfg ⟨region, none, some eligibleLoads, true, false⟩

def analyzeSelectedLoadsTwoState (region : Nat) (eligibleLoads : List RegisterId) :
    Except StateSsaError (StateSsa A) :=
  analyzeSelected eu cfg ⟨region, none, some eligibleLoads, true, true⟩

end Build

/-! ## The registers of the accesses

Renaming and finishing change which version reaches an access, never its slot or its register. -/

/-- The source of a definition, the destination of a use. -/
def MemoryAccessKind.register : MemoryAccessKind → Option RegisterId
  | .define source _ => some source
  | .use destination _ => destination
  | _ => none

def MemoryAccess.shape (access : MemoryAccess) : Nat × Option RegisterId :=
  (access.slot, access.kind.register)

def DefEffectKind.register : DefEffectKind → Option RegisterId
  | .exact source _ => some source
  | .kill => none

/-- The shapes of the accesses an instruction has. -/
def InstructionEffects.shapes (effects : InstructionEffects) : List (Nat × Option RegisterId) :=
  effects.uses.map (fun e => (e.slot, e.destination)) ++
    effects.defs.map fun e => (e.slot, e.kind.register)

/-! ## Before renaming -/

theorem pushAccess_shapes (accesses : List MemoryAccess) (slot : Nat) (block : Option BlockId)
    (instruction : Option Nat) (kind : MemoryAccessKind) :
    (pushAccess accesses slot block instruction kind).map MemoryAccess.shape =
      accesses.map MemoryAccess.shape ++ [(slot, kind.register)] := by
  simp [pushAccess, MemoryAccess.shape]

theorem pushUses_shapes (place : BlockId × Nat) (uses : List UseEffect)
    (state : List MemoryAccess × List Nat) :
    (uses.foldl (pushUse place) state).1.map MemoryAccess.shape =
      state.1.map MemoryAccess.shape ++ uses.map fun e => (e.slot, e.destination) := by
  induction uses generalizing state with
  | nil => simp
  | cons e uses ih => simp [ih, pushUse, pushAccess_shapes, MemoryAccessKind.register]

theorem pushDefs_shapes (place : BlockId × Nat) (defs : List DefEffect)
    (state : List MemoryAccess × List Nat) :
    (defs.foldl (pushDef place) state).1.map MemoryAccess.shape =
      state.1.map MemoryAccess.shape ++ defs.map fun e => (e.slot, e.kind.register) := by
  induction defs generalizing state with
  | nil => simp
  | cons e defs ih =>
    have hkind : e.accessKind.register = e.kind.register := by
      unfold DefEffect.accessKind
      cases e.kind <;> rfl
    simp [ih, pushDef, pushAccess_shapes, hkind]

/-- The shapes of the effects at a place. -/
def shapesAt (effects : Effects) (place : BlockId × Nat) : List (Nat × Option RegisterId) :=
  ((effects.lookup place).map InstructionEffects.shapes).getD []

theorem pushEffects_shapes (effects : Effects) (places : List (BlockId × Nat))
    (state : List MemoryAccess × AccessTable) :
    (places.foldl (pushEffects effects) state).1.map MemoryAccess.shape =
      state.1.map MemoryAccess.shape ++ places.flatMap (shapesAt effects) := by
  induction places generalizing state with
  | nil => simp
  | cons place places ih =>
    rw [List.foldl_cons, ih, List.flatMap_cons, ← List.append_assoc]
    congr 1
    unfold pushEffects shapesAt
    cases effects.lookup place with
    | none => simp
    | some found =>
      simp [pushDefs_shapes, pushUses_shapes, InstructionEffects.shapes]

section Build
variable {A : Type} {eu : ExecutionUnit (RegionedAbsoluteAddr A)} {cfg : SirCfg}
  {slots : List (StateSsaSlot A)} {effects : Effects}

theorem liveAccesses_shapes : ∀ shape ∈ (liveAccesses slots).map MemoryAccess.shape,
    shape.2 = none := by
  have hfold : ∀ (l : List Nat) (accesses : List MemoryAccess),
      (∀ shape ∈ accesses.map MemoryAccess.shape, shape.2 = none) →
      ∀ shape ∈ (l.foldl (fun accesses slot =>
        pushAccess accesses slot none none .liveOnEntry) accesses).map MemoryAccess.shape,
        shape.2 = none := by
    intro l
    induction l with
    | nil => exact fun _ h => h
    | cons slot l ih =>
      intro accesses h
      refine ih _ fun shape hshape => ?_
      rw [pushAccess_shapes, List.mem_append, List.mem_singleton] at hshape
      rcases hshape with hshape | rfl
      · exact h shape hshape
      · rfl
  exact hfold _ [] (by simp)

theorem pushPhis_shapes {accesses : List MemoryAccess}
    (h : ∀ shape ∈ accesses.map MemoryAccess.shape, shape.2 = none) :
    ∀ shape ∈ (pushPhis cfg slots accesses).1.map MemoryAccess.shape, shape.2 = none := by
  have hslot : ∀ (i : Nat) (blocks : List Nat) (state : List MemoryAccess × PhiAccesses),
      (∀ shape ∈ state.1.map MemoryAccess.shape, shape.2 = none) →
      ∀ shape ∈ (blocks.foldl (pushPhi cfg i) state).1.map MemoryAccess.shape,
        shape.2 = none := by
    intro i blocks
    induction blocks with
    | nil => exact fun _ h => h
    | cons block blocks ih =>
      intro state h
      refine ih _ fun shape hshape => ?_
      rw [pushPhi, pushAccess_shapes, List.mem_append, List.mem_singleton] at hshape
      rcases hshape with hshape | rfl
      · exact h shape hshape
      · rfl
  have hslots : ∀ (l : List (StateSsaSlot A × Nat)) (state : List MemoryAccess × PhiAccesses),
      (∀ shape ∈ state.1.map MemoryAccess.shape, shape.2 = none) →
      ∀ shape ∈ (l.foldl (fun state (slot, i) => slot.phiBlocks.foldl (pushPhi cfg i) state)
        state).1.map MemoryAccess.shape, shape.2 = none := by
    intro l
    induction l with
    | nil => exact fun _ h => h
    | cons e l ih => exact fun state h => ih _ (hslot e.2 e.1.phiBlocks state h)
  exact hslots _ _ h

theorem numberAccesses_shapes {slot : Nat} {reg : RegisterId} :
    (slot, some reg) ∈ (numberAccesses eu cfg slots effects).1.map MemoryAccess.shape ↔
      ∃ place ∈ places eu cfg, (slot, some reg) ∈ shapesAt effects place := by
  have hlive := @liveAccesses_shapes A slots
  have hold := @pushPhis_shapes A cfg slots _ hlive
  unfold numberAccesses
  dsimp only
  rw [pushEffects_shapes, List.mem_append, List.mem_flatMap]
  constructor
  · rintro (h | h)
    · cases hold _ h
    · exact h
  · exact .inr

/-! ## Renaming -/

theorem setKind_shapes {state : Renaming} {access : Nat} {a : MemoryAccess}
    {kind : MemoryAccessKind} (ha : state.accesses[access]? = some a)
    (hkind : kind.register = a.kind.register) :
    (state.setKind access kind).accesses.map MemoryAccess.shape =
      state.accesses.map MemoryAccess.shape := by
  refine List.ext_getElem? fun i => ?_
  simp only [Renaming.setKind, List.getElem?_map, List.getElem?_modify]
  by_cases hi : access = i
  · subst hi
    simp [ha, MemoryAccess.shape, hkind]
  · cases state.accesses[i]? <;> simp [hi]

theorem renameUse_shapes {block : BlockId} {state state' : Renaming} {access : Nat}
    (h : renameUse block state access = .ok state') :
    state'.accesses.map MemoryAccess.shape = state.accesses.map MemoryAccess.shape := by
  unfold renameUse at h
  split at h
  · cases h
  rename_i a ha
  obtain ⟨reaching, -, h⟩ := bind_eq_ok.mp h
  split at h
  · rename_i destination old hkind
    cases h
    exact setKind_shapes ha (by rw [hkind]; rfl)
  · cases h

theorem renameKill_shapes {block : BlockId} {state state' : Renaming} {access : Nat}
    {a : MemoryAccess} (ha : state.accesses[access]? = some a)
    (h : renameKill block state access a = .ok state') :
    state'.accesses.map MemoryAccess.shape = state.accesses.map MemoryAccess.shape := by
  unfold renameKill at h
  split at h
  · rename_i old hkind
    obtain ⟨reaching, -, h⟩ := bind_eq_ok.mp h
    cases h
    exact setKind_shapes ha (by rw [hkind]; rfl)
  · cases h
    rfl

theorem renameDef_shapes {block : BlockId} {state state' : Renaming × List Nat} {access : Nat}
    (h : renameDef block state access = .ok state') :
    state'.1.accesses.map MemoryAccess.shape = state.1.accesses.map MemoryAccess.shape := by
  unfold renameDef at h
  split at h
  · cases h
  rename_i a ha
  obtain ⟨renamed, hrenamed, h⟩ := bind_eq_ok.mp h
  cases h
  have hkill := renameKill_shapes ha hrenamed
  exact hkill

theorem renameInstruction_shapes {table : AccessTable} {block : BlockId}
    {state state' : Renaming × List Nat} {instruction : Nat}
    (h : renameInstruction table block state instruction = .ok state') :
    state'.1.accesses.map MemoryAccess.shape = state.1.accesses.map MemoryAccess.shape := by
  unfold renameInstruction at h
  split at h
  · cases h
    rfl
  · obtain ⟨renamed, huses, hdefs⟩ := bind_eq_ok.mp h
    have hafter : renamed.accesses.map MemoryAccess.shape =
        state.1.accesses.map MemoryAccess.shape :=
      foldlM_invariant (fun b x b' _ hb hx => (renameUse_shapes hx).trans hb) rfl huses
    exact foldlM_invariant (P := fun s : Renaming × List Nat => s.1.accesses.map MemoryAccess.shape =
      state.1.accesses.map MemoryAccess.shape)
      (fun b x b' _ hb hx => (renameDef_shapes hx).trans hb) hafter hdefs

theorem pushIncoming_shapes {block : BlockId} {state state' : Renaming} {phi : Nat × Nat}
    (h : pushIncoming block state phi = .ok state') :
    state'.accesses.map MemoryAccess.shape = state.accesses.map MemoryAccess.shape := by
  unfold pushIncoming at h
  obtain ⟨version, -, h⟩ := bind_eq_ok.mp h
  split at h
  · rename_i ha
    cases h
    exact setKind_shapes ha rfl
  · cases h

theorem pushPhiVersions_accesses (phis : List (Nat × Nat)) (state : Renaming) :
    (phis.foldl (fun state phi => state.push phi.1 phi.2) state).accesses = state.accesses := by
  induction phis generalizing state with
  | nil => rfl
  | cons phi phis ih => exact ih _

theorem pop_accesses (pushed : List Nat) (state : Renaming) :
    (pushed.foldl Renaming.pop state).accesses = state.accesses := by
  induction pushed generalizing state with
  | nil => rfl
  | cons slot pushed ih => exact ih _

theorem renameBlock_shapes {phis : PhiAccesses} {table : AccessTable} {block depth : Nat}
    {parentExit : Option Nat} {state : Renaming} {result : Renaming × Nat × List Nat}
    (h : renameBlock eu cfg phis table block parentExit depth state = .ok result) :
    result.1.accesses.map MemoryAccess.shape = state.accesses.map MemoryAccess.shape := by
  unfold renameBlock at h
  dsimp only at h
  obtain ⟨snapshot, -, h⟩ := bind_eq_ok.mp h
  obtain ⟨⟨renamed, changed⟩, hrenamed, h⟩ := bind_eq_ok.mp h
  obtain ⟨updates, -, h⟩ := bind_eq_ok.mp h
  obtain ⟨final, hfinal, h⟩ := bind_eq_ok.mp h
  cases h
  have hinstructions := foldlM_invariant (P := fun s : Renaming × List Nat =>
      s.1.accesses.map MemoryAccess.shape = state.accesses.map MemoryAccess.shape)
    (fun b x b' _ hb hx => (renameInstruction_shapes hx).trans hb)
    (congrArg (List.map MemoryAccess.shape) (pushPhiVersions_accesses _ state)) hrenamed
  refine foldlM_invariant (P := fun s : Renaming =>
    s.accesses.map MemoryAccess.shape = state.accesses.map MemoryAccess.shape)
    (fun b x b' _ hb hx => ?_) ?_ hfinal
  · exact foldlM_invariant (P := fun s : Renaming =>
      s.accesses.map MemoryAccess.shape = state.accesses.map MemoryAccess.shape)
      (fun b x b' _ hb hx => (pushIncoming_shapes hx).trans hb) hb hx
  · rw [← hinstructions]
    split <;> rfl

theorem renameLoop_shapes {phis : PhiAccesses} {table : AccessTable} {fuel : Nat}
    {visits : List Visit} {state state' : Renaming}
    (h : renameLoop eu cfg phis table fuel visits state = .ok state') :
    state'.accesses.map MemoryAccess.shape = state.accesses.map MemoryAccess.shape := by
  induction fuel generalizing visits state with
  | zero =>
    cases h
    rfl
  | succ fuel ih =>
    cases visits with
    | nil =>
      cases h
      rfl
    | cons visit visits =>
      cases visit with
      | exit pushed =>
        exact (ih h).trans (congrArg _ (pop_accesses _ state))
      | enter block parentExit depth =>
        obtain ⟨⟨mid, exit, pushed⟩, hblock, h⟩ := bind_eq_ok.mp h
        exact (ih h).trans (renameBlock_shapes hblock)

theorem finishAccess_shape {access access' : MemoryAccess}
    (h : finishAccess cfg access = .ok access') : access'.shape = access.shape := by
  unfold finishAccess at h
  split at h
  · rename_i incoming hkind
    dsimp only at h
    split at h
    · cases h
    · split at h
      · cases h
      · cases h
        simp [MemoryAccess.shape, hkind, MemoryAccessKind.register]
  · cases h
    rfl

/-- The finished graph has the slots it was built for and the accesses that were numbered. -/
theorem buildAccessGraph_shapes {ssa : StateSsa A}
    (h : buildAccessGraph eu cfg slots effects = .ok ssa) : ssa.slots = slots ∧
      ssa.accesses.map MemoryAccess.shape =
        (numberAccesses eu cfg slots effects).1.map MemoryAccess.shape := by
  unfold buildAccessGraph at h
  dsimp only at h
  obtain ⟨renamed, hrenamed, h⟩ := bind_eq_ok.mp h
  obtain ⟨reads, -, h⟩ := bind_eq_ok.mp h
  obtain ⟨accesses, haccesses, h⟩ := bind_eq_ok.mp h
  cases h
  have hmap : ∀ {l l' : List MemoryAccess},
      List.Forall₂ (fun a b => finishAccess cfg a = .ok b) l l' →
      l'.map MemoryAccess.shape = l.map MemoryAccess.shape := by
    intro l l' hall
    induction hall with
    | nil => rfl
    | cons hab _ ih => rw [List.map_cons, List.map_cons, finishAccess_shape hab, ih]
  exact ⟨rfl, (hmap (forall₂_of_mapM haccesses)).trans (renameLoop_shapes hrenamed)⟩

end Build
end Celox.Opt.StateVersions
