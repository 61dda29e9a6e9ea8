import Celox.Ssa.Sparse
import Celox.Cfg.LengauerTarjan

/-! # Versions along a path

A path runs the phis of every block it enters: each takes the input of the edge that was taken.
The phis of the root take none when the path starts there. -/
namespace Celox.Ssa
open Celox.Graph Celox.Cfg

/-- The tables of an analysed graph that the construction reads. -/
def ssaCfg (cfg : ForwardControlFlowGraph) : SsaCfg where
  root := cfg.root
  predecessors := cfg.predecessors
  successors := cfg.successors
  dominatorChildren := cfg.dominators.children
  dominanceFrontier := cfg.dominanceFrontier

section Paths
variable {V D U : Type} [LinearOrder V] [DecidableEq D] [DecidableEq U]

/-- What the phis of a variable stand for, block by block; `none` before they are run. -/
abbrev PhiValues (V D : Type) := V → Nat → Option (Version V D)

def evalVersion (values : PhiValues V D) : Version V D → Option (Version V D)
  | .phi var block => values var block
  | version => some version

/-- The input of a phi for the edge from `source`. -/
def Phi.select (phi : Phi V D) (source : Nat) : Option (Version V D) :=
  (phi.inputs.find? (·.1 = source)).map Prod.snd

/-- All phis of a block read their inputs before any of them is written. -/
def runPhis (ssa : SparseSsa V D U) (source block : Nat) (values : PhiValues V D) :
    PhiValues V D := fun var place =>
  if place = block then
    match ssa.phis.find? fun phi => phi.block = block ∧ phi.var = var with
    | none => values var place
    | some phi => (phi.select source).bind (evalVersion values)
  else values var place

def enterBlock (ssa : SparseSsa V D U) (state : Option Nat × PhiValues V D) (block : Nat) :
    Option Nat × PhiValues V D :=
  (some block, match state.1 with
    | none => state.2
    | some source => runPhis ssa source block state.2)

/-- The phi values after a path has entered its last block. -/
def valuesAlong (ssa : SparseSsa V D U) (path : List Nat) : PhiValues V D :=
  (path.foldl (enterBlock ssa) (none, fun _ _ => none)).2

/-- A path from the root, as the blocks it has left and the one it is in. -/
inductive Path (successors : List (List Nat)) (root : Nat) : List Nat → Nat → Prop
  | start : Path successors root [] root
  | step {before : List Nat} {block next : Nat} (h : Path successors root before block)
      (hedge : Edge successors block next) : Path successors root (before ++ [block]) next

def blockEvents (events : List (List (Event V D U))) (block : Nat) : List (Event V D U) :=
  events[block]?.getD []

/-- The events of the blocks a path has left. -/
def history (events : List (List (Event V D U))) (before : List Nat) : List (Event V D U) :=
  before.flatMap (blockEvents events)

def lastStep (var : V) (version : Version V D) : Event V D U → Version V D
  | .use .. => version
  | .definition v definition => if v = var then .definition v definition else version

/-- The last definition of a variable, or its entry version. -/
def lastDefinition (events : List (Event V D U)) (var : V) : Version V D :=
  events.foldl (lastStep var) (.entry var)

/-- On every path each use has the version of the last definition. -/
def RecordsLastDefinitions (successors : List (List Nat)) (root : Nat)
    (events : List (List (Event V D U))) (ssa : SparseSsa V D U) : Prop :=
  ∀ before block, Path successors root before block →
    ∀ done var usage rest, blockEvents events block = done ++ .use var usage :: rest →
      ∃ version, ssa.uses.lookup usage = some version ∧
        evalVersion (valuesAlong ssa (before ++ [block])) version =
          some (lastDefinition (history events before ++ done) var)

/-! ## Properties of the events -/

def Defines (events : List (List (Event V D U))) (var : V) (block : Nat) : Prop :=
  ∃ definition, .definition var definition ∈ blockEvents events block

/-- A use before any definition. -/
def ExposedIn (events : List (Event V D U)) (var : V) : Prop :=
  ∃ done usage rest, events = done ++ .use var usage :: rest ∧
    ∀ definition, .definition var definition ∉ done

def Exposed (events : List (List (Event V D U))) (var : V) (block : Nat) : Prop :=
  ExposedIn (blockEvents events block) var

/-- A path from the block leads to an exposed use without a definition. -/
def LiveInto (successors : List (List Nat)) (events : List (List (Event V D U))) (var : V)
    (block : Nat) : Prop :=
  ∃ last, Relation.ReflTransGen
    (fun a b => Edge successors a b ∧ ¬ Defines events var a) block last ∧ Exposed events var last

def usageOf : Event V D U → Option U
  | .use _ usage => some usage
  | .definition .. => none

def definitionOf : Event V D U → Option (V × D)
  | .use .. => none
  | .definition var definition => some (var, definition)

/-- No use and no definition of a variable occurs twice. -/
structure DistinctIds (events : List (List (Event V D U))) : Prop where
  uses : (events.flatten.filterMap usageOf).Nodup
  definitions : (events.flatten.filterMap definitionOf).Nodup

end Paths
end Celox.Ssa

/-! ## Definitions and exposed uses

Events with distinct identities pass the scan, which finds the defining blocks and the exposed
uses of every variable. -/
namespace Celox.Ssa

theorem mem_insertNew {α : Type} [DecidableEq α] {a b : α} {s : List α} :
    b ∈ insertNew a s ↔ b ∈ s ∨ b = a := by
  unfold insertNew
  split <;> grind

theorem nodup_insertNew {α : Type} [DecidableEq α] {a : α} {s : List α} (h : s.Nodup) :
    (insertNew a s).Nodup := by
  unfold insertNew
  split <;> grind

/-! ## Events of one block -/

section Events
variable {V D U : Type}

theorem exposedIn_use {done : List (Event V D U)} {var v : V} {usage : U} :
    ExposedIn (done ++ [.use v usage]) var ↔
      ExposedIn done var ∨ var = v ∧ ∀ definition, .definition var definition ∉ done := by
  constructor
  · rintro ⟨pre, u, post, heq, hno⟩
    rcases List.eq_nil_or_concat post with rfl | ⟨post, last, rfl⟩
    · obtain ⟨rfl, hlast⟩ := List.append_inj' heq rfl
      cases hlast
      exact .inr ⟨rfl, hno⟩
    · have hsplit : done ++ [.use v usage] = (pre ++ .use var u :: post) ++ [last] := by
        simpa using heq
      exact .inl ⟨pre, u, post, (List.append_inj' hsplit rfl).1, hno⟩
  · rintro (⟨pre, u, post, rfl, hno⟩ | ⟨rfl, hno⟩)
    · exact ⟨pre, u, post ++ [.use v usage], by simp, hno⟩
    · exact ⟨done, usage, [], rfl, hno⟩

theorem exposedIn_definition {done : List (Event V D U)} {var v : V} {definition : D} :
    ExposedIn (done ++ [.definition v definition]) var ↔ ExposedIn done var := by
  constructor
  · rintro ⟨pre, u, post, heq, hno⟩
    rcases List.eq_nil_or_concat post with rfl | ⟨post, last, rfl⟩
    · obtain ⟨-, hlast⟩ := List.append_inj' heq rfl
      cases hlast
    · have hsplit : done ++ [.definition v definition] = (pre ++ .use var u :: post) ++ [last] := by
        simpa using heq
      exact ⟨pre, u, post, (List.append_inj' hsplit rfl).1, hno⟩
  · rintro ⟨pre, u, post, rfl, hno⟩
    exact ⟨pre, u, post ++ [.definition v definition], by simp, hno⟩

theorem blockEvents_concat (events : List (List (Event V D U))) (last : List (Event V D U))
    (block : Nat) : blockEvents (events ++ [last]) block =
      if block = events.length then last else blockEvents events block := by
  unfold blockEvents
  split
  · rename_i heq
    subst heq
    simp
  · rename_i hne
    rw [List.getElem?_append]
    split
    · rfl
    · rw [List.getElem?_eq_none (by simp; omega), List.getElem?_eq_none (by omega)]

theorem not_exposedIn_nil (var : V) : ¬ ExposedIn ([] : List (Event V D U)) var := by
  rintro ⟨done, usage, rest, heq, -⟩
  simp at heq

theorem blockEvents_of_le {events : List (List (Event V D U))} {block : Nat}
    (h : events.length ≤ block) : blockEvents events block = [] := by
  simp [blockEvents, List.getElem?_eq_none h]

theorem defines_lt {var : V} {block : Nat} {events : List (List (Event V D U))}
    (h : Defines events var block) :
    block < events.length := by
  by_contra hle
  obtain ⟨definition, hmem⟩ := h
  rw [blockEvents_of_le (by omega)] at hmem
  simp at hmem

theorem exposed_lt {var : V} {block : Nat} {events : List (List (Event V D U))}
    (h : Exposed events var block) :
    block < events.length := by
  by_contra hle
  rw [Exposed, blockEvents_of_le (by omega)] at h
  exact not_exposedIn_nil var h

end Events

section Scan
variable {V D U : Type} [LinearOrder V] [DecidableEq D] [DecidableEq U]

/-- The scan after the events `done` of a block. -/
structure ScannedEvents (block : Nat) (done : List (Event V D U)) (before : Scan V D U)
    (state : Scan V D U × List V) : Prop where
  definitions : ∀ p, p ∈ state.1.definitions ↔
    p ∈ before.definitions ∨ p.2 = block ∧ ∃ definition, .definition p.1 definition ∈ done
  upward : ∀ p, p ∈ state.1.upwardUses ↔
    p ∈ before.upwardUses ∨ p.2 = block ∧ ExposedIn done p.1
  defined : ∀ v, v ∈ state.2 ↔ ∃ definition, .definition v definition ∈ done
  usageIds : state.1.usageIds = before.usageIds ++ done.filterMap usageOf
  definitionIds : state.1.definitionIds = before.definitionIds ++ done.filterMap definitionOf
  definitions_nodup : state.1.definitions.Nodup
  upward_nodup : state.1.upwardUses.Nodup

theorem ScannedEvents.step {block : Nat} {done : List (Event V D U)} {before : Scan V D U}
    {state : Scan V D U × List V} (h : ScannedEvents block done before state)
    (event : Event V D U)
    (huse : ∀ usage, usageOf event = some usage → usage ∉ state.1.usageIds)
    (hdef : ∀ pair, definitionOf event = some pair → pair ∉ state.1.definitionIds) :
    ∃ state', scanEvent block state event = .ok state' ∧
      ScannedEvents block (done ++ [event]) before state' := by
  cases event with
  | use var usage =>
    have hdefs : ∀ v, (∃ definition, Event.definition v definition ∈
        done ++ [(.use var usage : Event V D U)]) ↔ ∃ definition, .definition v definition ∈ done := by
      simp
    have hids : (done ++ [(.use var usage : Event V D U)]).filterMap usageOf =
        done.filterMap usageOf ++ [usage] := by simp [usageOf]
    have hdids : (done ++ [(.use var usage : Event V D U)]).filterMap definitionOf =
        done.filterMap definitionOf := by simp [definitionOf]
    have hdefined := h.defined var
    unfold scanEvent
    dsimp only
    rw [if_neg (huse usage rfl)]
    refine ⟨_, rfl, ?_⟩
    by_cases hlocal : var ∈ state.2
    · rw [if_pos hlocal]
      obtain ⟨d, hd⟩ := hdefined.mp hlocal
      refine ⟨fun p => by rw [hdefs]; exact h.definitions p, fun p => ?_,
        fun v => by rw [hdefs]; exact h.defined v, by rw [hids, h.usageIds, List.append_assoc],
        by rw [hdids]; exact h.definitionIds, h.definitions_nodup, h.upward_nodup⟩
      rw [exposedIn_use, h.upward]
      have : ¬ (p.1 = var ∧ ∀ definition, Event.definition p.1 definition ∉ done) :=
        fun ⟨heq, hno⟩ => hno d (heq ▸ hd)
      tauto
    · rw [if_neg hlocal]
      have hno : ∀ d, Event.definition var d ∉ done := fun d hd => hlocal (hdefined.mpr ⟨d, hd⟩)
      refine ⟨fun p => by rw [hdefs]; exact h.definitions p, fun p => ?_,
        fun v => by rw [hdefs]; exact h.defined v, by rw [hids, h.usageIds, List.append_assoc],
        by rw [hdids]; exact h.definitionIds, h.definitions_nodup, nodup_insertNew h.upward_nodup⟩
      rw [mem_insertNew, exposedIn_use, h.upward, Prod.ext_iff]
      have : p.1 = var → ∀ definition, Event.definition p.1 definition ∉ done :=
        fun heq => heq ▸ hno
      tauto
  | definition var definition =>
    have hids : (done ++ [(.definition var definition : Event V D U)]).filterMap usageOf =
        done.filterMap usageOf := by simp [usageOf]
    have hdids : (done ++ [(.definition var definition : Event V D U)]).filterMap definitionOf =
        done.filterMap definitionOf ++ [(var, definition)] := by simp [definitionOf]
    unfold scanEvent
    dsimp only
    rw [if_neg (hdef _ rfl)]
    refine ⟨_, rfl, ?_, fun p => ?_, ?_, by rw [hids]; exact h.usageIds,
      by rw [hdids, h.definitionIds, List.append_assoc], nodup_insertNew h.definitions_nodup,
      h.upward_nodup⟩
    · rintro ⟨v, b⟩
      have := h.definitions (v, b)
      simp only [mem_insertNew, Prod.mk.injEq, List.mem_append, List.mem_singleton,
        Event.definition.injEq] at *
      grind
    · rw [exposedIn_definition]
      exact h.upward p
    · intro v
      rw [mem_insertNew, h.defined]
      grind

theorem ScannedEvents.foldlM {block : Nat} {done : List (Event V D U)}
    {before : Scan V D U} {state : Scan V D U × List V}
    (h : ScannedEvents block done before state) (rest : List (Event V D U))
    (huses : (state.1.usageIds ++ rest.filterMap usageOf).Nodup)
    (hdefs : (state.1.definitionIds ++ rest.filterMap definitionOf).Nodup) :
    ∃ state', rest.foldlM (scanEvent block) state = .ok state' ∧
      ScannedEvents block (done ++ rest) before state' := by
  induction rest generalizing done state with
  | nil => exact ⟨state, rfl, by simpa using h⟩
  | cons event rest ih =>
    obtain ⟨next, hnext, hscanned⟩ := h.step event
      (fun usage hu hmem => by
        rw [List.filterMap_cons_some hu] at huses
        grind)
      (fun pair hp hmem => by
        rw [List.filterMap_cons_some hp] at hdefs
        grind)
    obtain ⟨state', hstate, hall⟩ := ih hscanned
      (by
        rw [h.usageIds, List.append_assoc, ← List.filterMap_append] at huses
        rw [hscanned.usageIds, List.append_assoc, ← List.filterMap_append]
        simpa using huses)
      (by
        rw [h.definitionIds, List.append_assoc, ← List.filterMap_append] at hdefs
        rw [hscanned.definitionIds, List.append_assoc, ← List.filterMap_append]
        simpa using hdefs)
    refine ⟨state', ?_, by simpa using hall⟩
    rw [List.foldlM_cons, hnext]
    exact hstate

/-! ## All blocks -/

/-- The scan of a list of blocks. -/
structure Scanned (events : List (List (Event V D U))) (scan : Scan V D U) : Prop where
  definitions : ∀ var block, (var, block) ∈ scan.definitions ↔ Defines events var block
  upward : ∀ var block, (var, block) ∈ scan.upwardUses ↔ Exposed events var block
  usageIds : scan.usageIds = events.flatten.filterMap usageOf
  definitionIds : scan.definitionIds = events.flatten.filterMap definitionOf
  definitions_nodup : scan.definitions.Nodup
  upward_nodup : scan.upwardUses.Nodup

theorem Scanned.block {done : List (List (Event V D U))} {scan : Scan V D U}
    (h : Scanned done scan) (events : List (Event V D U))
    (huses : ((done ++ [events]).flatten.filterMap usageOf).Nodup)
    (hdefs : ((done ++ [events]).flatten.filterMap definitionOf).Nodup) :
    ∃ scan', scanBlock scan (events, done.length) = .ok scan' ∧
      Scanned (done ++ [events]) scan' := by
  have hstart : ScannedEvents done.length [] scan (scan, []) :=
    ⟨by simp, fun p => by simp [not_exposedIn_nil], by simp, by simp, by simp,
      h.definitions_nodup, h.upward_nodup⟩
  rw [List.flatten_append, List.filterMap_append, List.flatten_singleton] at huses hdefs
  obtain ⟨⟨scan', locals⟩, hscan, hall⟩ := hstart.foldlM events
    (by rw [h.usageIds]; exact huses) (by rw [h.definitionIds]; exact hdefs)
  rw [List.nil_append] at hall
  refine ⟨scan', ?_, fun var block => ?_, fun var block => ?_, ?_, ?_, hall.definitions_nodup,
    hall.upward_nodup⟩
  · unfold scanBlock
    rw [hscan]
    rfl
  · rw [hall.definitions, h.definitions]
    unfold Defines
    rw [blockEvents_concat]
    split
    · rename_i heq
      simp [heq, blockEvents_of_le (le_refl done.length)]
    · rename_i hne
      simp [hne]
  · rw [hall.upward, h.upward]
    unfold Exposed
    rw [blockEvents_concat]
    split
    · rename_i heq
      simp [heq, blockEvents_of_le (le_refl done.length), not_exposedIn_nil]
    · rename_i hne
      simp [hne]
  · rw [hall.usageIds, h.usageIds, List.flatten_append, List.filterMap_append,
      List.flatten_singleton]
  · rw [hall.definitionIds, h.definitionIds, List.flatten_append, List.filterMap_append,
      List.flatten_singleton]

theorem Scanned.foldlM {done : List (List (Event V D U))} {scan : Scan V D U}
    (h : Scanned done scan) (rest : List (List (Event V D U))) (hids : DistinctIds (done ++ rest)) :
    ∃ scan', (rest.zipIdx done.length).foldlM scanBlock scan = .ok scan' ∧
      Scanned (done ++ rest) scan' := by
  induction rest generalizing done scan with
  | nil => exact ⟨scan, rfl, by simpa using h⟩
  | cons events rest ih =>
    have hsplit : done ++ events :: rest = done ++ [events] ++ rest := by simp
    rw [hsplit] at hids
    have huses := hids.uses
    have hdefs := hids.definitions
    rw [List.flatten_append, List.filterMap_append] at huses hdefs
    obtain ⟨next, hnext, hscanned⟩ := h.block events huses.of_append_left
      hdefs.of_append_left
    obtain ⟨scan', hscan, hall⟩ := ih hscanned hids
    refine ⟨scan', ?_, by rw [hsplit]; exact hall⟩
    rw [List.length_append, List.length_singleton] at hscan
    rw [List.zipIdx_cons, List.foldlM_cons, hnext]
    exact hscan

theorem scanEvents_ok {events : List (List (Event V D U))} (hids : DistinctIds events) :
    ∃ scan, scanEvents events = .ok scan ∧ Scanned events scan := by
  have hempty : Scanned ([] : List (List (Event V D U))) ⟨[], [], [], []⟩ :=
    ⟨by simp [Defines, blockEvents], by simp [Exposed, blockEvents, not_exposedIn_nil], rfl, rfl,
      List.nodup_nil, List.nodup_nil⟩
  have hall := hempty.foldlM events (by simpa using hids)
  simpa [scanEvents] using hall

end Scan
end Celox.Ssa
