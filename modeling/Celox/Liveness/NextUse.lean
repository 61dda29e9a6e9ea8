import Celox.Data.Worklist
import Celox.Liveness.Facts
import Celox.Data.OrderedMap

/-! # Next uses

`analyze_next_uses` of `celox-backend-common/src/regalloc.rs`: how far each value's next use is from
the entry and the exit of every block, in instructions. Distances are `u32` and saturate. -/
namespace Celox.Liveness
open Celox.Data

/-! ## Distances -/

section Distances
variable {V : Type}

/-- Entries in ascending order, each value once. -/
structure NextUseDistances (V : Type) where
  entries : List (V × Nat)
deriving DecidableEq

variable [LinearOrder V]

/-- An entry joins the last one if that has its value; the last one is in front. -/
def mergeEntry (join : Nat → Nat → Nat) (merged : List (V × Nat)) (entry : V × Nat) :
    List (V × Nat) :=
  match merged with
  | [] => [entry]
  | last :: rest =>
    if last.1 = entry.1 then (last.1, join last.2 entry.2) :: rest else entry :: last :: rest

def NextUseDistances.fromMinEntries (entries : List (V × Nat)) : NextUseDistances V :=
  let sorted := entries.insertionSort fun left right => left.1 ≤ right.1
  ⟨(sorted.foldl (mergeEntry min) []).reverse⟩

def NextUseDistances.get (distances : NextUseDistances V) (value : V) : Option Nat :=
  (distances.entries.find? (·.1 = value)).map (·.2)

def saturatingAdd (a b : Nat) : Nat := min (a + b) (2 ^ 32 - 1)

end Distances

/-- The length of an edge along which a depth-first search goes back. -/
def loopExitLength : Nat := 100000

/-! ## Back edges -/

inductive Color where
  | white
  | gray
  | black
deriving DecidableEq

/-- `stack` has the gray nodes, innermost first, each with the successors still to look at. -/
structure BackedgeSearch where
  colors : Nat → Color
  backedges : Nat → List Nat
  stack : List (Nat × List Nat)

section Backedges
variable (successors : Nat → List Nat)

def BackedgeSearch.step (state : BackedgeSearch) : BackedgeSearch :=
  match state.stack with
  | [] => state
  | (node, []) :: stack => { state with
      colors := Function.update state.colors node .black
      stack }
  | (node, successor :: rest) :: stack =>
    match state.colors successor with
    | .white => { state with
        colors := Function.update state.colors successor .gray
        stack := (successor, successors successor) :: (node, rest) :: stack }
    | .gray => { state with
        backedges := Function.update state.backedges node (state.backedges node ++ [successor])
        stack := (node, rest) :: stack }
    | .black => { state with stack := (node, rest) :: stack }

def BackedgeSearch.run : (fuel : Nat) → BackedgeSearch → BackedgeSearch
  | 0, state => state
  | fuel + 1, state => run fuel (state.step successors)

/-- The search from one root, when no earlier one has met it. -/
def BackedgeSearch.visit (fuel : Nat) (state : BackedgeSearch) (root : Nat) : BackedgeSearch :=
  if state.colors root = .white then
    run successors fuel { state with
      colors := Function.update state.colors root .gray
      stack := [(root, successors root)] }
  else state

/-- Every node is closed once, and each of its edges is looked at once. -/
def computeBackedgeSuccessors (count : Nat) : Nat → List Nat :=
  let fuel := ((List.range count).map fun b => (successors b).length + 1).sum
  ((List.range count).foldl (BackedgeSearch.visit successors fuel)
    ⟨fun _ => .white, fun _ => [], []⟩).backedges

end Backedges

/-! ## Blocks -/

structure BlockTransfer (V : Type) where
  blockLen : Nat
  defs : Finset V
  localUses : List (V × Nat)

section Analysis
variable {V R : Type} [LinearOrder V] (facts : FunctionAllocationFacts V R)

/-- The definitions of an instruction come before its uses. -/
def transferInstruction (state : Finset V × List (V × Nat))
    (entry : InstructionAllocationFacts V R × Nat) : Finset V × List (V × Nat) :=
  let (instruction, index) := entry
  let defs := instruction.defs.foldl (fun defs definition => insert definition defs) state.1
  (defs, state.2 ++ (instruction.uses.filter (· ∉ defs)).map fun used => (used, index % 2 ^ 32))

def entryLe (left right : V × Nat) : Bool :=
  left.1 < right.1 || left.1 = right.1 && left.2 ≤ right.2

def computeBlockTransfer (b : Nat) : BlockTransfer V :=
  let block := facts.block b
  let (defs, localUses) := block.instructions.zipIdx.foldl transferInstruction
    ((block.phis.map (·.destination)).toFinset, [])
  let sorted := localUses.insertionSort (entryLe · ·)
  ⟨block.instructions.length % 2 ^ 32, defs,
    (sorted.foldl (mergeEntry fun first _ => first) []).reverse⟩

def phiEdgeUses (predecessor successor : Nat) : List V :=
  (facts.block successor).phis.flatMap fun phi =>
    (phi.sources.filter (·.predecessor = predecessor)).map (·.value)

def edgeLength (predecessor successor : Nat) : Nat :=
  if successor ∈ computeBackedgeSuccessors facts.successors facts.blocks.length predecessor then
    loopExitLength
  else 0

/-- What a block's exit sees through one edge. -/
def edgeEntries (entries : Nat → NextUseDistances V) (b successor : Nat) : List (V × Nat) :=
  let edgeLength := edgeLength facts b successor
  ((entries successor).entries.map fun entry => (entry.1, saturatingAdd entry.2 edgeLength)) ++
    (phiEdgeUses facts b successor).map fun value => (value, edgeLength)

def computeBlockDistances (distances : Nat → NextUseDistances V × NextUseDistances V) (b : Nat) :
    NextUseDistances V × NextUseDistances V :=
  let transfer := computeBlockTransfer facts b
  let newExit := NextUseDistances.fromMinEntries
    ((facts.successors b).flatMap (edgeEntries facts (fun b => (distances b).1) b))
  let newEntry := NextUseDistances.fromMinEntries
    (((newExit.entries.filter fun entry => entry.1 ∉ transfer.defs).map fun entry =>
      (entry.1, saturatingAdd transfer.blockLen entry.2)) ++ transfer.localUses)
  (newEntry, newExit)

structure NextUseAnalysis (V : Type) where
  entryDistances : List (NextUseDistances V)
  exitDistances : List (NextUseDistances V)
  predecessors : List (List Nat)
  backedgeSuccessors : List (List Nat)

/-- The values with a use. -/
def mentionedValues : List V :=
  (List.range facts.blocks.length).flatMap fun b =>
    ((facts.block b).instructions.flatMap (·.uses)) ++
      ((facts.block b).phis.flatMap fun phi => phi.sources.map (·.value))

/-- As many rounds are enough as distances can fall. -/
def solveDistances : Nat → NextUseDistances V × NextUseDistances V :=
  let count := facts.blocks.length
  let bound := 2 * ((mentionedValues facts).length * 2 ^ 32)
  worklist (computeBlockDistances facts) facts.predecessors (bound * count * (count + 1) + count)
    (List.range count).reverse fun _ => (⟨[]⟩, ⟨[]⟩)

def analyzeNextUses : Except (AllocationFactsError V) (NextUseAnalysis V) := do
  facts.verify
  let blocks := List.range facts.blocks.length
  return ⟨blocks.map fun b => (solveDistances facts b).1,
    blocks.map fun b => (solveDistances facts b).2, blocks.map facts.predecessors,
    blocks.map (computeBackedgeSuccessors facts.successors facts.blocks.length)⟩

end Analysis

/-! ## The search ends -/

section Search
variable {successors : Nat → List Nat} {state : BackedgeSearch} {count : Nat}

/-- Edges still to look at, and nodes still to open and to close. -/
def BackedgeSearch.work (successors : Nat → List Nat) (count : Nat) (state : BackedgeSearch) :
    Nat :=
  (state.stack.map fun frame => frame.2.length + 1).sum +
    ((List.range count).map fun b =>
      if state.colors b = .white then (successors b).length + 1 else 0).sum

theorem white_sum_update {colors : Nat → Color} (color : Color) {b : Nat} (hb : b < count)
    (hwhite : colors b = .white) (hcolor : color ≠ .white) (weight : Nat → Nat) :
    ((List.range count).map fun c =>
      if Function.update colors b color c = .white then weight c else 0).sum + weight b =
        ((List.range count).map fun c => if colors c = .white then weight c else 0).sum := by
  induction count with
  | zero => omega
  | succ count ih =>
    simp only [List.range_succ, List.map_append, List.sum_append, List.map_cons, List.map_nil,
      List.sum_cons, List.sum_nil, Nat.add_zero]
    rcases Nat.lt_succ_iff_lt_or_eq.mp hb with hlt | rfl
    · rw [Function.update_of_ne (Nat.ne_of_gt hlt), ← ih hlt]
      omega
    · have hsame : ((List.range b).map fun c =>
          if Function.update colors b color c = .white then weight c else 0) =
            (List.range b).map fun c => if colors c = .white then weight c else 0 := by
        refine List.map_congr_left fun c hc => ?_
        rw [Function.update_of_ne (List.mem_range.mp hc).ne]
      rw [hsame, Function.update_self, if_neg hcolor, hwhite, if_pos rfl, Nat.add_zero]

/-- Open nodes are not white, and only nodes of the graph are looked at. -/
structure BackedgeSearch.Bounded (successors : Nat → List Nat) (count : Nat)
    (state : BackedgeSearch) : Prop where
  opened : ∀ frame ∈ state.stack, state.colors frame.1 ≠ .white
  lt : ∀ frame ∈ state.stack, ∀ c ∈ frame.2, c < count

theorem BackedgeSearch.Bounded.step (hlt : ∀ b, ∀ c ∈ successors b, c < count)
    (h : state.Bounded successors count) : (state.step successors).Bounded successors count ∧
      (state.stack ≠ [] →
        (state.step successors).work successors count < state.work successors count) := by
  obtain ⟨colors, backedges, stack⟩ := state
  obtain ⟨hopened, hbound⟩ := h
  dsimp only at hopened hbound
  have hkeep : ∀ (c : Nat) (color : Color), color ≠ .white → ∀ b, colors b ≠ .white →
      Function.update colors c color b ≠ .white := by
    intro c color hcolor b hb
    by_cases hbc : b = c
    · rw [hbc, Function.update_self]
      exact hcolor
    · rwa [Function.update_of_ne hbc]
  match stack with
  | [] => exact ⟨⟨hopened, hbound⟩, fun hne => absurd rfl hne⟩
  | (node, []) :: stack =>
    refine ⟨⟨fun frame hframe => ?_, fun frame hframe => ?_⟩, fun _ => ?_⟩
    · exact hkeep node .black (by decide) _ (hopened frame (List.mem_cons_of_mem _ hframe))
    · exact hbound frame (List.mem_cons_of_mem _ hframe)
    · have hsame : ((List.range count).map fun b =>
          if Function.update colors node .black b = .white then (successors b).length + 1 else 0) =
          (List.range count).map fun b =>
            if colors b = .white then (successors b).length + 1 else 0 := by
        refine List.map_congr_left fun b _ => ?_
        by_cases hb : b = node
        · have hnode := hopened (node, []) List.mem_cons_self
          rw [hb, Function.update_self, if_neg (by decide), if_neg hnode]
        · rw [Function.update_of_ne hb]
      unfold BackedgeSearch.step BackedgeSearch.work
      dsimp only
      rw [hsame, List.map_cons, List.sum_cons]
      omega
  | (node, successor :: rest) :: stack =>
    have hframe : ∀ frame ∈ (node, rest) :: stack, colors frame.1 ≠ .white ∧
        ∀ c ∈ frame.2, c < count := by
      intro frame hframe
      rcases List.mem_cons.mp hframe with rfl | hframe
      · have hnode := hopened (node, successor :: rest) List.mem_cons_self
        exact ⟨hnode, fun c hc =>
          hbound (node, successor :: rest) List.mem_cons_self c (List.mem_cons_of_mem _ hc)⟩
      · exact ⟨hopened frame (List.mem_cons_of_mem _ hframe),
          hbound frame (List.mem_cons_of_mem _ hframe)⟩
    cases hcolor : colors successor with
    | white =>
      have hsuccessor := hbound (node, successor :: rest) List.mem_cons_self successor
        List.mem_cons_self
      have hstep : BackedgeSearch.step successors
          ⟨colors, backedges, (node, successor :: rest) :: stack⟩ =
          ⟨Function.update colors successor .gray, backedges,
            (successor, successors successor) :: (node, rest) :: stack⟩ := by
        simp only [BackedgeSearch.step, hcolor]
      rw [hstep]
      refine ⟨⟨fun frame hmem => ?_, fun frame hmem => ?_⟩, fun _ => ?_⟩
      · rcases List.mem_cons.mp hmem with rfl | hmem
        · dsimp only
          rw [Function.update_self]
          decide
        · exact hkeep successor .gray (by decide) _ (hframe frame hmem).1
      · rcases List.mem_cons.mp hmem with rfl | hmem
        · exact hlt successor
        · exact (hframe frame hmem).2
      · have hsum := white_sum_update .gray hsuccessor hcolor (by decide)
          fun b => (successors b).length + 1
        unfold BackedgeSearch.work
        simp only [List.map_cons, List.sum_cons, List.length_cons]
        omega
    | gray =>
      have hstep : BackedgeSearch.step successors
          ⟨colors, backedges, (node, successor :: rest) :: stack⟩ =
          ⟨colors, Function.update backedges node (backedges node ++ [successor]),
            (node, rest) :: stack⟩ := by
        simp only [BackedgeSearch.step, hcolor]
      rw [hstep]
      refine ⟨⟨fun frame hmem => (hframe frame hmem).1, fun frame hmem => (hframe frame hmem).2⟩,
        fun _ => ?_⟩
      unfold BackedgeSearch.work
      simp only [List.map_cons, List.sum_cons, List.length_cons]
      omega
    | black =>
      have hstep : BackedgeSearch.step successors
          ⟨colors, backedges, (node, successor :: rest) :: stack⟩ =
          ⟨colors, backedges, (node, rest) :: stack⟩ := by
        simp only [BackedgeSearch.step, hcolor]
      rw [hstep]
      refine ⟨⟨fun frame hmem => (hframe frame hmem).1, fun frame hmem => (hframe frame hmem).2⟩,
        fun _ => ?_⟩
      unfold BackedgeSearch.work
      simp only [List.map_cons, List.sum_cons, List.length_cons]
      omega

theorem BackedgeSearch.run_empty (fuel : Nat) (hstack : state.stack = []) :
    BackedgeSearch.run successors fuel state = state := by
  induction fuel with
  | zero => rfl
  | succ fuel ih =>
    have hsame : state.step successors = state := by
      unfold BackedgeSearch.step
      rw [hstack]
    rw [BackedgeSearch.run, hsame, ih]

/-- With the work as fuel a run leaves nothing open. -/
theorem BackedgeSearch.run_done (hlt : ∀ b, ∀ c ∈ successors b, c < count) (fuel : Nat)
    (h : state.Bounded successors count) (hfuel : state.work successors count ≤ fuel) :
    (BackedgeSearch.run successors fuel state).stack = [] := by
  induction fuel generalizing state with
  | zero =>
    cases hstack : state.stack with
    | nil => exact hstack
    | cons frame stack =>
      simp only [BackedgeSearch.work, hstack, List.map_cons, List.sum_cons] at hfuel
      omega
  | succ fuel ih =>
    obtain ⟨hnext, hless⟩ := h.step hlt
    by_cases hstack : state.stack = []
    · rw [BackedgeSearch.run_empty _ hstack]
      exact hstack
    · have := hless hstack
      exact ih hnext (by omega)

/-- Every visit ends with nothing open. -/
theorem BackedgeSearch.visit_done (hlt : ∀ b, ∀ c ∈ successors b, c < count) {root : Nat}
    (hroot : root < count) (hstack : state.stack = []) :
    (BackedgeSearch.visit successors
      ((List.range count).map fun b => (successors b).length + 1).sum state root).stack = [] := by
  unfold BackedgeSearch.visit
  split
  · rename_i hwhite
    refine BackedgeSearch.run_done hlt _ ⟨fun frame hframe => ?_, fun frame hframe => ?_⟩ ?_
    · rw [List.mem_singleton.mp hframe]
      dsimp only
      rw [Function.update_self]
      decide
    · rw [List.mem_singleton.mp hframe]
      exact hlt root
    · have hsum := white_sum_update .gray hroot hwhite (by decide)
        fun b => (successors b).length + 1
      have hall : ((List.range count).map fun b =>
          if state.colors b = .white then (successors b).length + 1 else 0).sum ≤
          ((List.range count).map fun b => (successors b).length + 1).sum := by
        refine List.sum_le_sum fun b _ => ?_
        split <;> omega
      simp only [BackedgeSearch.work, List.map_cons, List.map_nil, List.sum_cons, List.sum_nil]
      omega
  · exact hstack

end Search

/-! ## Distances as maps

Sorting and merging leaves each value once, with the least of its distances. -/

section Merge
variable {V : Type} [LinearOrder V] {entries entries' merged : List (V × Nat)}

/-- The merged entries, latest first, are those with the least distance of their value. -/
structure MinOf (entries merged : List (V × Nat)) : Prop where
  falling : merged.Pairwise fun a b => b.1 < a.1
  mem : ∀ e ∈ merged, e ∈ entries
  least : ∀ e ∈ entries, ∃ d ≤ e.2, (e.1, d) ∈ merged

theorem MinOf.nil : MinOf ([] : List (V × Nat)) [] := by
  constructor <;> simp

theorem MinOf.push (join : Nat → Nat → Nat) {entry : V × Nat} (h : MinOf entries merged)
    (hle : ∀ e ∈ entries, e.1 ≤ entry.1)
    (hjoin : ∀ e ∈ entries, e.1 = entry.1 → join e.2 entry.2 = min e.2 entry.2) :
    MinOf (entries ++ [entry]) (mergeEntry join merged entry) := by
  obtain ⟨value, distance⟩ := entry
  dsimp only at hle hjoin
  cases merged with
  | nil =>
    have hnone : entries = [] := List.eq_nil_iff_forall_not_mem.mpr fun e he => by
      obtain ⟨d, -, hmem⟩ := h.least e he
      cases hmem
    subst hnone
    refine ⟨List.pairwise_singleton _ _, fun e he => he, fun e he => ?_⟩
    rw [List.nil_append, List.mem_singleton] at he
    exact ⟨e.2, le_rfl, by rw [he]; exact List.mem_cons_self⟩
  | cons last rest =>
    obtain ⟨key, old⟩ := last
    have hfalling := List.pairwise_cons.mp h.falling
    have hlast := h.mem _ List.mem_cons_self
    have hkey : key ≤ value := hle _ hlast
    unfold mergeEntry
    dsimp only
    split
    · rename_i hsame
      subst hsame
      rw [hjoin _ hlast rfl]
      refine ⟨List.pairwise_cons.mpr ⟨hfalling.1, hfalling.2⟩, fun e he => ?_, fun e he => ?_⟩
      · rcases List.mem_cons.mp he with rfl | he
        · rcases le_total old distance with hd | hd
          · rw [min_eq_left hd]
            exact List.mem_append_left _ hlast
          · rw [min_eq_right hd]
            exact List.mem_append_right _ (List.mem_singleton.mpr rfl)
        · exact List.mem_append_left _ (h.mem e (List.mem_cons_of_mem _ he))
      · rcases List.mem_append.mp he with he | he
        · obtain ⟨d, hd, hmem⟩ := h.least e he
          rcases List.mem_cons.mp hmem with heq | hmem
          · cases heq
            exact ⟨_, (min_le_left _ _).trans hd, List.mem_cons_self⟩
          · exact ⟨d, hd, List.mem_cons_of_mem _ hmem⟩
        · rw [List.mem_singleton.mp he]
          exact ⟨_, min_le_right _ _, List.mem_cons_self⟩
    · rename_i hne
      have hlt : key < value := lt_of_le_of_ne hkey hne
      refine ⟨List.pairwise_cons.mpr ⟨fun e he => ?_, h.falling⟩, fun e he => ?_, fun e he => ?_⟩
      · rcases List.mem_cons.mp he with rfl | he
        · exact hlt
        · exact (hfalling.1 e he).trans hlt
      · rcases List.mem_cons.mp he with rfl | he
        · exact List.mem_append_right _ (List.mem_singleton.mpr rfl)
        · exact List.mem_append_left _ (h.mem e he)
      · rcases List.mem_append.mp he with he | he
        · obtain ⟨d, hd, hmem⟩ := h.least e he
          exact ⟨d, hd, List.mem_cons_of_mem _ hmem⟩
        · rw [List.mem_singleton.mp he]
          exact ⟨distance, le_rfl, List.mem_cons_self⟩

theorem MinOf.foldl (join : Nat → Nat → Nat) (more : List (V × Nat)) (h : MinOf entries merged)
    (hle : (entries ++ more).Pairwise fun a b => a.1 ≤ b.1)
    (hjoin : (entries ++ more).Pairwise fun a b => a.1 = b.1 → join a.2 b.2 = min a.2 b.2) :
    MinOf (entries ++ more) (more.foldl (mergeEntry join) merged) := by
  induction more generalizing entries merged with
  | nil => simpa using h
  | cons entry more ih =>
    rw [List.append_cons] at hle hjoin ⊢
    have hpush := h.push join
      (fun e he => (List.pairwise_append.mp (List.pairwise_append.mp hle).1).2.2 e he entry
        List.mem_cons_self)
      (fun e he => (List.pairwise_append.mp (List.pairwise_append.mp hjoin).1).2.2 e he entry
        List.mem_cons_self)
    exact ih hpush hle hjoin

/-- Reading a value off the merged entries. -/
structure LeastOf (entries : List (V × Nat)) (distances : NextUseDistances V) : Prop where
  ascending : distances.entries.Pairwise fun a b => a.1 < b.1
  mem : ∀ e ∈ distances.entries, e ∈ entries
  least : ∀ e ∈ entries, ∃ d ≤ e.2, (e.1, d) ∈ distances.entries

theorem MinOf.reverse (h : MinOf entries merged) (hmem : ∀ e, e ∈ entries ↔ e ∈ entries') :
    LeastOf entries' ⟨merged.reverse⟩ where
  ascending := List.pairwise_reverse.mpr h.falling
  mem e he := (hmem e).mp (h.mem e (List.mem_reverse.mp he))
  least e he := by
    obtain ⟨d, hd, hmerged⟩ := h.least e ((hmem e).mpr he)
    exact ⟨d, hd, List.mem_reverse.mpr hmerged⟩

theorem leastOf_fromMinEntries (entries : List (V × Nat)) :
    LeastOf entries (NextUseDistances.fromMinEntries entries) := by
  unfold NextUseDistances.fromMinEntries
  have htotal : ∀ a b : V × Nat, a.1 ≤ b.1 ∨ b.1 ≤ a.1 := fun a b => le_total a.1 b.1
  have hsorted : (entries.insertionSort fun left right => left.1 ≤ right.1).Pairwise
      fun left right => left.1 ≤ right.1 := by
    have : Std.Total fun left right : V × Nat => left.1 ≤ right.1 := ⟨htotal⟩
    have : IsTrans (V × Nat) fun left right => left.1 ≤ right.1 := ⟨fun _ _ _ => le_trans⟩
    exact List.pairwise_insertionSort _ entries
  have hmin := MinOf.nil.foldl min _ (by simpa using hsorted)
    (List.pairwise_of_forall fun _ _ _ => rfl)
  exact hmin.reverse fun e => by simp [List.mem_insertionSort]

end Merge

/-! ## Reading -/

section Reading
variable {V : Type} [LinearOrder V] {distances distances' : NextUseDistances V}

def NextUseDistances.Ascending (distances : NextUseDistances V) : Prop :=
  distances.entries.Pairwise fun a b => a.1 < b.1

theorem NextUseDistances.Ascending.get_eq_some (h : distances.Ascending) {v : V} {d : Nat} :
    distances.get v = some d ↔ (v, d) ∈ distances.entries :=
  OrderedMap.get?_eq_some (m := ⟨distances.entries, h⟩)

theorem NextUseDistances.Ascending.ext (h : distances.Ascending) (h' : distances'.Ascending)
    (hget : ∀ v, distances.get v = distances'.get v) : distances = distances' := by
  have := OrderedMap.entries_eq (m := ⟨distances.entries, h⟩) (n := ⟨distances'.entries, h'⟩) hget
  cases distances
  cases distances'
  exact congrArg _ this

end Reading
end Celox.Liveness
