import Celox.Data.ExceptList
import Celox.Ssa.Sparse

/-! # The access-based memory graph

One SSA variable stands for the whole memory. Its entry version, its definitions and its phis
become the nodes `LiveOnEntry`, `MemoryDef` and `MemoryPhi`. -/
namespace Celox.Ssa

/-- An event with a definition creates one `MemoryDef`; one without only records a point. -/
structure MemoryAccessEvent (D P : Type) where
  point : P
  definition : Option D
  deriving DecidableEq, Repr

structure MemoryPointAccess where
  before : Nat
  after : Nat
  deriving DecidableEq, Repr

structure MemoryPointMap (P : Type) where
  events : List (P × MemoryPointAccess)
  blockEntries : List Nat
  blockExits : List Nat
  deriving DecidableEq, Repr

inductive MemoryAccessNode (D : Type) where
  | liveOnEntry
  | definition (definition : D) (previous : Nat)
  | phi (block : Nat) (inputs : List (Nat × Nat))
  deriving DecidableEq, Repr

structure MemoryAccessGraph (D : Type) where
  nodes : List (MemoryAccessNode D)
  definitionCount : Nat
  phiCount : Nat
  deriving DecidableEq, Repr

structure MemorySsaError where
  rule : String
  block : Option Nat
  message : String
  deriving DecidableEq, Repr

section Build
variable {D P : Type} [DecidableEq D] [DecidableEq P]

/-! ## Numbering the program points -/

structure PendingPoint (D P : Type) where
  point : P
  beforeUsage : Nat
  definition : Option D

structure PendingDefinition (D : Type) where
  definition : D
  predecessorUsage : Nat

structure Numbering (D P : Type) where
  events : List (List (Event Unit D Nat))
  pendingPoints : List (PendingPoint D P)
  pendingDefinitions : List (PendingDefinition D)
  blockEntryUsages : List Nat
  blockExitUsages : List Nat
  pointIds : List P
  nextUsage : Nat

/-- One memory event of a block: a use for its point, then its definition. -/
def numberEvent (block : Nat) (state : Numbering D P × List (Event Unit D Nat))
    (event : MemoryAccessEvent D P) :
    Except MemorySsaError (Numbering D P × List (Event Unit D Nat)) :=
  let (numbering, events) := state
  if event.point ∈ numbering.pointIds then
    .error ⟨"MEMORY_SSA.POINT_IDENTITY", some block,
      "one memory program-point identity occurs more than once"⟩
  else
    let beforeUsage := numbering.nextUsage
    let numbering := { numbering with
      pointIds := numbering.pointIds ++ [event.point]
      nextUsage := beforeUsage + 1
      pendingPoints := numbering.pendingPoints ++ [⟨event.point, beforeUsage, event.definition⟩] }
    let events := events ++ [.use () beforeUsage]
    match event.definition with
    | none => .ok (numbering, events)
    | some definition => .ok ({ numbering with
        pendingDefinitions := numbering.pendingDefinitions ++ [⟨definition, beforeUsage⟩] },
        events ++ [.definition () definition])

def numberBlock (numbering : Numbering D P) (block : List (MemoryAccessEvent D P) × Nat) :
    Except MemorySsaError (Numbering D P) := do
  let entryUsage := numbering.nextUsage
  let numbering := { numbering with
    nextUsage := entryUsage + 1
    blockEntryUsages := numbering.blockEntryUsages ++ [entryUsage] }
  let (numbering, events) ← block.1.foldlM (numberEvent block.2) (numbering, [.use () entryUsage])
  let exitUsage := numbering.nextUsage
  return { numbering with
    nextUsage := exitUsage + 1
    blockExitUsages := numbering.blockExitUsages ++ [exitUsage]
    events := numbering.events ++ [events ++ [.use () exitUsage]] }

def numberPoints (memoryEvents : List (List (MemoryAccessEvent D P))) :
    Except MemorySsaError (Numbering D P) :=
  memoryEvents.zipIdx.foldlM numberBlock ⟨[], [], [], [], [], [], 0⟩

/-! ## Nodes from versions -/

def accessForVersion (definitions : List D) (phis : List Nat) (version : Version Unit D) :
    Except MemorySsaError Nat :=
  match version with
  | .entry _ => .ok 0
  | .definition _ definition =>
    if definition ∈ definitions then .ok (definitions.idxOf definition + 1)
    else .error ⟨"MEMORY_SSA.DEFINITION_ACCESS", none, "SSA definition has no MemoryDef"⟩
  | .phi _ block =>
    if block ∈ phis then .ok (definitions.length + 1 + phis.idxOf block)
    else .error ⟨"MEMORY_SSA.PHI_ACCESS", some block, "SSA phi has no MemoryPhi"⟩

/-- The access of the state that reaches a use. -/
def usageAccess (definitions : List D) (phis : List Nat) (uses : List (Nat × Version Unit D))
    (error : MemorySsaError) (usage : Nat) : Except MemorySsaError Nat :=
  match uses.lookup usage with
  | none => .error error
  | some version => accessForVersion definitions phis version

def definitionPredecessorError : MemorySsaError :=
  ⟨"MEMORY_SSA.DEFINITION_PREDECESSOR", none, "MemoryDef has no reaching memory state"⟩

def pointVersionError : MemorySsaError :=
  ⟨"MEMORY_SSA.POINT_VERSION", none, "memory program point has no reaching memory state"⟩

def phiNode (definitions : List D) (phis : List Nat) (phi : Phi Unit D) :
    Except MemorySsaError (MemoryAccessNode D) := do
  let inputs ← phi.inputs.mapM fun (predecessor, version) => do
    let access ← accessForVersion definitions phis version
    return (predecessor, access)
  return .phi phi.block inputs

def definitionNode (definitions : List D) (phis : List Nat)
    (uses : List (Nat × Version Unit D)) (pending : PendingDefinition D) :
    Except MemorySsaError (MemoryAccessNode D) := do
  let previous ← usageAccess definitions phis uses definitionPredecessorError
    pending.predecessorUsage
  return .definition pending.definition previous

/-- The nodes by kind: the entry, the definitions in program order, the phis. -/
def graphNodes (numbering : Numbering D P) (ssa : SparseSsa Unit D Nat) :
    Except MemorySsaError (List (MemoryAccessNode D)) := do
  let definitions := numbering.pendingDefinitions.map (·.definition)
  let phis := ssa.phis.map (·.block)
  let definitionNodes ← numbering.pendingDefinitions.mapM
    (definitionNode definitions phis ssa.uses)
  let phiNodes ← ssa.phis.mapM (phiNode definitions phis)
  return .liveOnEntry :: definitionNodes ++ phiNodes

def pointAccess (definitions : List D) (phis : List Nat) (uses : List (Nat × Version Unit D))
    (point : PendingPoint D P) : Except MemorySsaError (P × MemoryPointAccess) := do
  let before ← usageAccess definitions phis uses pointVersionError point.beforeUsage
  let after := match point.definition with
    | none => before
    | some definition => definitions.idxOf definition + 1
  return (point.point, ⟨before, after⟩)

def memoryBuild (cfg : SsaCfg) (memoryEvents : List (List (MemoryAccessEvent D P))) :
    Except MemorySsaError (MemoryAccessGraph D × MemoryPointMap P) := do
  if memoryEvents.length ≠ cfg.successors.length then
    .error ⟨"MEMORY_SSA.MODEL_SHAPE", none,
      "memory-event and CFG block tables have different lengths"⟩
  else do
    let numbering ← numberPoints memoryEvents
    let ssa ← match build cfg numbering.events with
      | .error e => .error ⟨e.rule, e.block, e.message⟩
      | .ok ssa => .ok ssa
    let definitions := numbering.pendingDefinitions.map (·.definition)
    let phis := ssa.phis.map (·.block)
    if ¬ definitions.Nodup then
      .error ⟨"MEMORY_SSA.DEFINITION_IDENTITY", none,
        "one definition identity has multiple MemoryDefs"⟩
    else match phis.find? (fun block => phis.count block ≠ 1) with
    | some block => .error ⟨"MEMORY_SSA.PHI_IDENTITY", some block,
        "one block has multiple phis for the single memory state"⟩
    | none => do
      let nodes ← graphNodes numbering ssa
      let events ← numbering.pendingPoints.mapM (pointAccess definitions phis ssa.uses)
      let blockEntries ← numbering.blockEntryUsages.mapM
        (usageAccess definitions phis ssa.uses pointVersionError)
      let blockExits ← numbering.blockExitUsages.mapM
        (usageAccess definitions phis ssa.uses pointVersionError)
      return (⟨nodes, numbering.pendingDefinitions.length, ssa.phis.length⟩,
        ⟨events, blockEntries, blockExits⟩)

end Build

/-! ## The accesses are nodes of the graph -/

section Origins
variable {D P : Type} [DecidableEq D]

theorem forall₂_exists {α β : Type} {R : α → β → Prop} {as : List α} {bs : List β}
    (h : List.Forall₂ R as bs) {a : α} (ha : a ∈ as) : ∃ b ∈ bs, R a b := by
  induction h with
  | nil => cases ha
  | cons hab _ ih =>
    rcases List.mem_cons.mp ha with rfl | ha
    · exact ⟨_, List.mem_cons_self .., hab⟩
    · obtain ⟨b, hb, hR⟩ := ih ha
      exact ⟨b, List.mem_cons_of_mem _ hb, hR⟩

theorem accessForVersion_lt {definitions : List D} {phis : List Nat} {version : Version Unit D}
    {access : Nat} (h : accessForVersion definitions phis version = .ok access) :
    access < 1 + definitions.length + phis.length := by
  unfold accessForVersion at h
  split at h
  · cases h
    omega
  · split at h
    · rename_i hmem
      cases h
      have := List.idxOf_lt_length_of_mem hmem
      omega
    · cases h
  · split at h
    · rename_i hmem
      cases h
      have := List.idxOf_lt_length_of_mem hmem
      omega
    · cases h

theorem usageAccess_lt {definitions : List D} {phis : List Nat} {uses : List (Nat × Version Unit D)}
    {error : MemorySsaError} {usage access : Nat}
    (h : usageAccess definitions phis uses error usage = .ok access) :
    access < 1 + definitions.length + phis.length := by
  unfold usageAccess at h
  split at h
  · cases h
  · exact accessForVersion_lt h

/-- The states a node comes from. -/
def MemoryAccessNode.origins : MemoryAccessNode D → List Nat
  | .liveOnEntry => []
  | .definition _ previous => [previous]
  | .phi _ inputs => inputs.map Prod.snd

theorem definitionNode_origins {definitions : List D} {phis : List Nat}
    {uses : List (Nat × Version Unit D)} {pending : PendingDefinition D} {node : MemoryAccessNode D}
    (h : definitionNode definitions phis uses pending = .ok node) :
    ∀ a ∈ node.origins, a < 1 + definitions.length + phis.length := by
  unfold definitionNode at h
  cases hp : usageAccess definitions phis uses definitionPredecessorError
      pending.predecessorUsage with
  | error e => simp [hp, bind, Except.bind] at h
  | ok previous =>
    simp only [hp, bind, Except.bind, pure, Except.pure, Except.ok.injEq] at h
    subst h
    simpa [MemoryAccessNode.origins] using usageAccess_lt hp

theorem phiNode_origins {definitions : List D} {phis : List Nat} {phi : Phi Unit D}
    {node : MemoryAccessNode D} (h : phiNode definitions phis phi = .ok node) :
    ∀ a ∈ node.origins, a < 1 + definitions.length + phis.length := by
  unfold phiNode at h
  simp only [bind, Except.bind] at h
  split at h
  · cases h
  · rename_i inputs hinputs
    simp only [pure, Except.pure, Except.ok.injEq] at h
    subst h
    intro a ha
    obtain ⟨⟨predecessor, a'⟩, hmem, rfl⟩ := List.mem_map.mp ha
    have hall := (forall₂_of_mapM hinputs).flip
    obtain ⟨⟨p, version⟩, -, hof⟩ := forall₂_exists hall hmem
    split at hof
    · cases hof
    · rename_i access haccess
      cases hof
      exact accessForVersion_lt haccess

theorem graphNodes_origins {numbering : Numbering D P} {ssa : SparseSsa Unit D Nat}
    {nodes : List (MemoryAccessNode D)} (h : graphNodes numbering ssa = .ok nodes) :
    ∀ node ∈ nodes, ∀ a ∈ node.origins, a < nodes.length := by
  unfold graphNodes at h
  simp only [bind, Except.bind] at h
  split at h
  · cases h
  · rename_i definitionNodes hdefs
    split at h
    · cases h
    · rename_i phiNodes hphis
      simp only [pure, Except.pure, Except.ok.injEq] at h
      have hdefs := forall₂_of_mapM hdefs
      have hphis := forall₂_of_mapM hphis
      have hlen : nodes.length = 1 + (numbering.pendingDefinitions.map (·.definition)).length +
          (ssa.phis.map (·.block)).length := by
        have h1 := hdefs.length_eq
        have h2 := hphis.length_eq
        simp only [← h, List.length_cons, List.length_append, List.length_map]
        omega
      intro node hnode a ha
      rw [← h] at hnode
      rw [hlen]
      simp only [List.cons_append, List.mem_cons, List.mem_append] at hnode
      rcases hnode with rfl | hnode | hnode
      · simp [MemoryAccessNode.origins] at ha
      · obtain ⟨pending, -, hof⟩ := forall₂_exists hdefs.flip hnode
        exact definitionNode_origins hof a ha
      · obtain ⟨phi, -, hof⟩ := forall₂_exists hphis.flip hnode
        exact phiNode_origins hof a ha

/-- A graph that is built leads from its nodes only to its nodes. -/
theorem memoryBuild_origins [DecidableEq P] {cfg : SsaCfg}
    {memoryEvents : List (List (MemoryAccessEvent D P))}
    {graph : MemoryAccessGraph D} {points : MemoryPointMap P}
    (h : memoryBuild cfg memoryEvents = .ok (graph, points)) :
    ∀ node ∈ graph.nodes, ∀ a ∈ node.origins, a < graph.nodes.length := by
  unfold memoryBuild at h
  split at h
  · cases h
  · simp only [bind, Except.bind] at h
    split at h
    · cases h
    · split at h
      · cases h
      · split at h
        · cases h
        · split at h
          · cases h
          · split at h
            · cases h
            · rename_i nodes hnodes
              split at h
              · cases h
              · split at h
                · cases h
                · split at h
                  · cases h
                  · cases h
                    exact graphNodes_origins hnodes

end Origins
end Celox.Ssa
