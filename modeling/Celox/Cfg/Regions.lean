import Celox.Cfg.Intervals
import Celox.Graph.Search

/-! # Strongly connected regions

One search lists the blocks as it leaves them. From the last one on, each block that is in no region
yet makes one with all that lead to it. -/
namespace Celox.Cfg
open Celox.Graph Relation

structure StronglyConnectedRegion where
  blocks : List Nat
  entries : List Nat
  cyclic : Bool
  reducibleHeader : Option Nat
deriving DecidableEq

/-! ## The model -/

def visitSeed (successors : List (List Nat)) (state : Postorder) (seed : Nat) : Postorder :=
  if seed ∈ state.visited then state
  else Postorder.run successors (successors.map fun outgoing => outgoing.length + 1).sum
    { state with
      visited := state.visited ++ [seed]
      stack := [(seed, succ successors seed)] }

/-- The blocks as the search leaves them, from the root first and then from what it misses. -/
def finishingOrder (successors : List (List Nat)) (root : Nat) : List Nat :=
  let seeds := root :: (List.range successors.length).filter (· ≠ root)
  (seeds.foldl (visitSeed successors) ⟨[], [], []⟩).postorder

/-- A block without a region goes on the stack. -/
def markPredecessor (id : Nat) (state : (Nat → Option Nat) × List Nat) (predecessor : Nat) :
    (Nat → Option Nat) × List Nat :=
  let (component, stack) := state
  if component predecessor = none then
    (Function.update component predecessor (some id), predecessor :: stack)
  else state

/-- A block goes on the stack at most once, so as much fuel as there are blocks covers them. -/
def collectMembers (predecessors : List (List Nat)) (id : Nat) :
    (fuel : Nat) → (component : Nat → Option Nat) → (stack members : List Nat) →
      (Nat → Option Nat) × List Nat
  | 0, component, _, members => (component, members)
  | _ + 1, component, [], members => (component, members)
  | fuel + 1, component, block :: stack, members =>
    let (component, stack) := (succ predecessors block).reverse.foldl (markPredecessor id) (component, stack)
    collectMembers predecessors id fuel component stack (members ++ [block])

def visitRegion (predecessors : List (List Nat)) (size : Nat)
    (state : (Nat → Option Nat) × List (List Nat)) (seed : Nat) :
    (Nat → Option Nat) × List (List Nat) :=
  let (component, rawComponents) := state
  if component seed ≠ none then state
  else
    let id := rawComponents.length
    let (component, members) := collectMembers predecessors id size
      (Function.update component seed (some id)) [seed] []
    (component, rawComponents ++ [members.insertionSort (· ≤ ·)])

def regionOf (predecessors successors : List (List Nat)) (dominators : DominatorTree) (root : Nat)
    (component : Nat → Option Nat) (members : List Nat) (id : Nat) : StronglyConnectedRegion :=
  let entries := (members.filter fun block => block = root ||
    (succ predecessors block).any fun predecessor => component predecessor ≠ some id)
  let entries := entries.dedup.insertionSort (· ≤ ·)
  { blocks := members
    entries
    cyclic := 1 < members.length || members.head?.any fun block => block ∈ succ successors block
    reducibleHeader := match entries with
      | [header] => if members.all (dominators.dominates header) then some header else none
      | _ => none }

def stronglyConnectedRegions (predecessors successors : List (List Nat))
    (dominators : DominatorTree) (root : Nat) : List StronglyConnectedRegion × List Nat :=
  let (component, rawComponents) := (finishingOrder successors root).reverse.foldl
    (visitRegion predecessors successors.length) (fun _ => none, [])
  (rawComponents.zipIdx.map fun (members, id) =>
      regionOf predecessors successors dominators root component members id,
    (List.range successors.length).map fun block => (component block).getD usizeMax)

/-! ## The first search -/

section Order
variable {successors : List (List Nat)} {root : Nat}

def Postorder.dfs (state : Postorder) : Dfs Nat :=
  ⟨state.visited.reverse, state.postorder, state.stack⟩

theorem Postorder.dfs_step (state : Postorder) :
    (state.step successors).dfs = state.dfs.step (succ successors) := by
  unfold Postorder.step Dfs.step Postorder.dfs
  dsimp only
  split
  · rename_i hstack
    simp [hstack]
  · rename_i hstack
    simp [hstack]
  · rename_i block successor rest stack hstack
    simp only [hstack, List.mem_reverse]
    split
    · rfl
    · simp

theorem Postorder.dfs_run (fuel : Nat) (state : Postorder) :
    (state.run successors fuel).dfs = Dfs.run (succ successors) fuel state.dfs := by
  induction fuel generalizing state with
  | zero => rfl
  | succ fuel ih => rw [Postorder.run, Dfs.run, ih, Postorder.dfs_step]

/-- The search from the root ends with all that the root reaches. -/
theorem search_spec (hroot : root < successors.length) (hrange : InRange successors) :
    ∃ state, Postorder.run successors (successors.map fun outgoing => outgoing.length + 1).sum
        ⟨[root], [], [(root, succ successors root)]⟩ = state ∧
      state.dfs.Inv (succ successors) root ∧ state.dfs.stack = [] ∧
      state.dfs.Brackets (succ successors) := by
  have hlt : ∀ b, ReflTransGen (fun u v => v ∈ succ successors u) root b →
      b ∈ List.range successors.length := fun b hb =>
    List.mem_range.mpr (Reach.closed (fun u _ v hv => hrange u v hv) hb hroot)
  have hfuel : (Dfs.start (succ successors) root).work (List.range successors.length)
      (succ successors) ≤ (successors.map fun outgoing => outgoing.length + 1).sum := by
    refine (Dfs.work_start hlt).trans_eq ?_
    conv_rhs => rw [← map_succ_range successors, List.map_map]
    rfl
  obtain ⟨hinv, hstack⟩ := (Dfs.Inv.start (succ successors) root).run hlt _ hfuel
  have hbrackets := (Dfs.Brackets.start (succ successors) root).run
    (successors.map fun outgoing => outgoing.length + 1).sum (Dfs.Inv.start _ _)
  refine ⟨_, rfl, ?_⟩
  rw [Postorder.dfs_run]
  exact ⟨hinv, hstack, hbrackets⟩

theorem reversePostorder_mem {order : List Nat} (h : reversePostorder successors root = .ok order) :
    order.Nodup ∧ ∀ b, b ∈ order ↔ Reach successors root b := by
  unfold reversePostorder at h
  simp only [bind, Except.bind] at h
  split at h
  · cases h
  rename_i hvalid
  obtain ⟨hroot, hrange⟩ := validateEdges_eq_ok.mp hvalid
  obtain ⟨state, hrun, hinv, hstack, -⟩ := search_spec hroot hrange
  rw [hrun] at h
  cases h
  refine ⟨List.nodup_reverse.mpr (List.nodup_append.mp hinv.nodup).1, fun b => ?_⟩
  rw [List.mem_reverse]
  exact hinv.mem_postorder hstack b

/-- Where the root reaches all blocks, its search visits them. -/
theorem finishingOrder_spec (hroot : root < successors.length) (hrange : InRange successors)
    (hreach : ∀ b < successors.length, Reach successors root b) :
    (finishingOrder successors root).Nodup ∧
      (∀ b, b ∈ finishingOrder successors root ↔ b < successors.length) ∧
      Bracketed (succ successors) (finishingOrder successors root) := by
  obtain ⟨state, hrun, hinv, hstack, hbrackets⟩ := search_spec hroot hrange
  have hfirst : visitSeed successors ⟨[], [], []⟩ root = state := by
    rw [visitSeed, if_neg List.not_mem_nil]
    exact hrun
  unfold finishingOrder
  dsimp only
  rw [List.foldl_cons, hfirst]
  have hmem : ∀ b, b ∈ state.postorder ↔ b < successors.length := fun b =>
    (hinv.mem_postorder hstack b).trans
      ⟨fun hb => Reach.closed (fun u _ v hv => hrange u v hv) hb hroot, hreach b⟩
  have hskip : ∀ seeds : List Nat, (∀ seed ∈ seeds, seed < successors.length) →
      seeds.foldl (visitSeed successors) state = state := by
    intro seeds hseeds
    induction seeds with
    | nil => rfl
    | cons seed seeds ih =>
      have hseed : seed ∈ state.visited := List.mem_reverse.mp ((hinv.visited seed).mpr
        (List.mem_append_left _ ((hmem seed).mpr (hseeds seed List.mem_cons_self))))
      rw [List.foldl_cons, visitSeed, if_pos hseed]
      exact ih fun seed hseed => hseeds seed (List.mem_cons_of_mem _ hseed)
  rw [hskip _ fun seed hseed => List.mem_range.mp (List.mem_filter.mp hseed).1]
  exact ⟨(List.nodup_append.mp hinv.nodup).1, hmem, hbrackets.finished⟩

end Order

/-! ## Members -/

section Members
variable {successors predecessors : List (List Nat)} {base component : Nat → Option Nat}
  {id seed : Nat} {stack members : List Nat}

/-- Blocks that had no region and lead to the seed have the new one. -/
structure Marked (successors : List (List Nat)) (base : Nat → Option Nat) (id seed : Nat)
    (component : Nat → Option Nat) (known : List Nat) : Prop where
  nodup : known.Nodup
  seed_mem : seed ∈ known
  sound : ∀ b ∈ known, base b = none ∧ b < successors.length ∧ Reach successors b seed
  eq : ∀ b, component b = if b ∈ known then some id else base b

theorem Marked.mark {block predecessor : Nat}
    (h : Marked successors base id seed component (members ++ stack))
    (hblock : block ∈ members) (hedge : Edge successors predecessor block) :
    Marked successors base id seed (markPredecessor id (component, stack) predecessor).1
        (members ++ (markPredecessor id (component, stack) predecessor).2) ∧
      (markPredecessor id (component, stack) predecessor).1 predecessor ≠ none ∧
      ∀ b, component b ≠ none → (markPredecessor id (component, stack) predecessor).1 b ≠ none := by
  unfold markPredecessor
  dsimp only
  split
  · rename_i hnone
    have hnew := h.eq predecessor
    rw [hnone] at hnew
    split at hnew
    · cases hnew
    rename_i hno
    have hmem : ∀ b, b ∈ members ++ predecessor :: stack ↔
        b = predecessor ∨ b ∈ members ++ stack := by
      intro b
      rw [List.mem_append, List.mem_cons, List.mem_append]
      tauto
    dsimp only
    refine ⟨⟨?_, (hmem seed).mpr (.inr h.seed_mem), fun b hb => ?_, fun b => ?_⟩, ?_, fun b hb => ?_⟩
    · exact (List.nodup_middle.mpr (List.nodup_cons.mpr ⟨hno, h.nodup⟩))
    · rcases (hmem b).mp hb with rfl | hb
      · exact ⟨hnew.symm, Edge.lt_length hedge,
          .trans (.of_edge hedge) (h.sound block (List.mem_append_left _ hblock)).2.2⟩
      · exact h.sound b hb
    · simp only [hmem]
      by_cases heq : b = predecessor
      · rw [heq, Function.update_self, if_pos (.inl rfl)]
      · rw [Function.update_of_ne heq, h.eq b]
        simp only [heq, false_or]
    · rw [Function.update_self]
      exact Option.some_ne_none id
    · by_cases heq : b = predecessor
      · rw [heq, Function.update_self]
        exact Option.some_ne_none id
      · rwa [Function.update_of_ne heq]
  · rename_i hsome
    exact ⟨h, hsome, fun _ hb => hb⟩

theorem Marked.foldl {block : Nat} {rest : List Nat}
    (h : Marked successors base id seed component (members ++ stack)) (hblock : block ∈ members)
    (hedges : ∀ p ∈ rest, Edge successors p block) :
    Marked successors base id seed (rest.foldl (markPredecessor id) (component, stack)).1
        (members ++ (rest.foldl (markPredecessor id) (component, stack)).2) ∧
      (∀ p ∈ rest, (rest.foldl (markPredecessor id) (component, stack)).1 p ≠ none) ∧
      ∀ b, component b ≠ none → (rest.foldl (markPredecessor id) (component, stack)).1 b ≠ none := by
  induction rest generalizing component stack with
  | nil => exact ⟨h, by simp, fun _ hb => hb⟩
  | cons p rest ih =>
    obtain ⟨hmarked, hp, hkeep⟩ := h.mark hblock (hedges p List.mem_cons_self)
    obtain ⟨hall, hrest, hkeep'⟩ := ih hmarked fun q hq => hedges q (List.mem_cons_of_mem _ hq)
    refine ⟨hall, fun q hq => ?_, fun b hb => hkeep' b (hkeep b hb)⟩
    rcases List.mem_cons.mp hq with rfl | hq
    · exact hkeep' q hp
    · exact hrest q hq

/-- Nothing without a region leads to a block with one. -/
def Upward (successors : List (List Nat)) (component : Nat → Option Nat) : Prop :=
  ∀ u v, Edge successors u v → component v ≠ none → component u ≠ none

/-- All of the unmarked blocks that lead to the seed are collected. -/
theorem collectMembers_spec (hpred : ∀ b p, p ∈ succ predecessors b ↔ Edge successors p b)
    (hupward : Upward successors base) (fuel : Nat)
    (h : Marked successors base id seed component (members ++ stack))
    (hclosed : ∀ b ∈ members, ∀ p, Edge successors p b → component p ≠ none)
    (hfuel : successors.length ≤ fuel + members.length) :
    ∃ component' members', collectMembers predecessors id fuel component stack members =
        (component', members') ∧ members'.Nodup ∧
      (∀ b, b ∈ members' ↔ base b = none ∧ b < successors.length ∧ Reach successors b seed) ∧
      ∀ b, component' b = if b ∈ members' then some id else base b := by
  have hdone : ∀ {component : Nat → Option Nat} {members : List Nat},
      Marked successors base id seed component (members ++ []) →
      (∀ b ∈ members, ∀ p, Edge successors p b → component p ≠ none) →
      ∀ b, b ∈ members ↔ base b = none ∧ b < successors.length ∧ Reach successors b seed := by
    intro component members h hclosed b
    rw [List.append_nil] at h
    refine ⟨h.sound b, ?_⟩
    rintro ⟨hnone, -, hreach⟩
    induction hreach using ReflTransGen.head_induction_on with
    | refl => exact h.seed_mem
    | @head u v huv _ ih =>
      have hv : base v = none := by
        by_contra hsome
        exact hupward u v huv hsome hnone
      have hmarked := hclosed v (ih hv) u huv
      rw [h.eq u] at hmarked
      by_contra hno
      rw [if_neg hno] at hmarked
      exact hmarked hnone
  induction fuel generalizing component stack members with
  | zero =>
    obtain rfl : stack = [] := by
      have hsub : members ++ stack ⊆ List.range successors.length := fun b hb =>
        List.mem_range.mpr (h.sound b hb).2.1
      have hle := (h.nodup.subperm hsub).length_le
      rw [List.length_append, List.length_range] at hle
      exact List.eq_nil_of_length_eq_zero (by omega)
    have hmem := hdone h hclosed
    rw [List.append_nil] at h
    exact ⟨component, members, rfl, h.nodup, hmem, h.eq⟩
  | succ fuel ih =>
    cases stack with
    | nil =>
      have hmem := hdone h hclosed
      rw [List.append_nil] at h
      exact ⟨component, members, rfl, h.nodup, hmem, h.eq⟩
    | cons block stack =>
      have h' : Marked successors base id seed component ((members ++ [block]) ++ stack) := by
        simpa using h
      have hedges : ∀ p ∈ (succ predecessors block).reverse, Edge successors p block :=
        fun p hp => (hpred block p).mp (List.mem_reverse.mp hp)
      obtain ⟨hmarked, hpreds, hkeep⟩ :=
        h'.foldl (List.mem_append_right members (List.mem_singleton_self block)) hedges
      refine ih hmarked (fun b hb p hp => ?_) ?_
      · rcases List.mem_append.mp hb with hb | hb
        · exact hkeep p (hclosed b hb p hp)
        · obtain rfl := List.mem_singleton.mp hb
          exact hpreds p (List.mem_reverse.mpr ((hpred b p).mpr hp))
      · rw [List.length_append, List.length_singleton]
        omega

end Members

/-! ## Classes -/

section Classes
variable {successors predecessors : List (List Nat)} {component : Nat → Option Nat}
  {raw : List (List Nat)} {done : List Nat}

/-- Whole classes of mutually reachable blocks, in an order that no edge goes against. -/
structure Grouped (successors : List (List Nat)) (component : Nat → Option Nat)
    (raw : List (List Nat)) : Prop where
  mem : ∀ k members, raw[k]? = some members → ∀ b, b ∈ members ↔ component b = some k
  row : ∀ b k, component b = some k → k < raw.length
  range : ∀ b, component b ≠ none → b < successors.length
  sorted : ∀ members ∈ raw, members.Pairwise (· < ·)
  nonempty : ∀ members ∈ raw, members ≠ []
  reach : ∀ u v k, component u = some k → component v = some k → Reach successors u v
  whole : ∀ u v, Mutual successors u v → component u = component v
  ordered : ∀ u v k, Edge successors u v → component v = some k → ∃ j ≤ k, component u = some j

theorem Grouped.upward (h : Grouped successors component raw) : Upward successors component := by
  intro u v hedge hv hnone
  obtain ⟨k, hk⟩ := Option.ne_none_iff_exists'.mp hv
  obtain ⟨j, -, hj⟩ := h.ordered u v k hedge hk
  rw [hnone] at hj
  cases hj

theorem Upward.none_of_reach {u v : Nat} (h : Upward successors component)
    (hreach : Reach successors u v) (hu : component u = none) : component v = none := by
  induction hreach with
  | refl => exact hu
  | tail _ hedge ih =>
    by_contra hsome
    exact h _ _ hedge hsome ih

/-- A class goes in as a whole: the seed comes last of all blocks without a region, so that what
leads to it is reached from it. -/
theorem Grouped.add {seed : Nat} {members : List Nat} {component' : Nat → Option Nat}
    (hrange : InRange successors) (h : Grouped successors component raw)
    (hseed : component seed = none) (hlt : seed < successors.length)
    (hback : ∀ b, component b = none → b < successors.length → Reach successors b seed →
      Reach successors seed b)
    (hnodup : members.Nodup) (hmembers : ∀ b, b ∈ members ↔
      component b = none ∧ b < successors.length ∧ Reach successors b seed)
    (heq : ∀ b, component' b = if b ∈ members then some raw.length else component b) :
    Grouped successors component' (raw ++ [members.insertionSort (· ≤ ·)]) := by
  have hin : ∀ {b}, b ∈ members → component' b = some raw.length := fun hb => by
    rw [heq, if_pos hb]
  have hout : ∀ {b}, b ∉ members → component' b = component b := fun hb => by rw [heq, if_neg hb]
  have hnew : ∀ {b}, component' b = some raw.length ↔ b ∈ members := by
    intro b
    by_cases hb : b ∈ members
    · exact iff_of_true (hin hb) hb
    · rw [hout hb]
      exact iff_of_false (fun hk => absurd (h.row b _ hk) (lt_irrefl _)) hb
  have hold : ∀ {b k}, k ≠ raw.length → (component' b = some k ↔ component b = some k) := by
    intro b k hk
    by_cases hb : b ∈ members
    · rw [hin hb, ((hmembers b).mp hb).1]
      exact iff_of_false (fun heq => hk (Option.some.inj heq).symm) (by simp)
    · rw [hout hb]
  constructor
  · intro k row hrow b
    rcases Nat.lt_trichotomy k raw.length with hk | rfl | hk
    · rw [List.getElem?_append_left hk] at hrow
      rw [hold hk.ne, h.mem k row hrow b]
    · rw [List.getElem?_append_right le_rfl, Nat.sub_self, List.getElem?_cons_zero] at hrow
      cases hrow
      rw [List.mem_insertionSort, hnew]
    · rw [List.getElem?_eq_none (by simp; omega)] at hrow
      cases hrow
  · intro b k hk
    rw [List.length_append, List.length_singleton]
    by_cases hb : b ∈ members
    · rw [hin hb] at hk
      cases hk
      omega
    · rw [hout hb] at hk
      have := h.row b k hk
      omega
  · intro b hb
    by_cases hmem : b ∈ members
    · exact ((hmembers b).mp hmem).2.1
    · exact h.range b (hout hmem ▸ hb)
  · intro row hrow
    rcases List.mem_append.mp hrow with hrow | hrow
    · exact h.sorted row hrow
    · obtain rfl := List.mem_singleton.mp hrow
      exact (List.pairwise_insertionSort (· ≤ ·) members).imp₂
        (fun a b hle hne => lt_of_le_of_ne hle hne)
        ((List.perm_insertionSort (· ≤ ·) members).nodup_iff.mpr hnodup)
  · intro row hrow
    rcases List.mem_append.mp hrow with hrow | hrow
    · exact h.nonempty row hrow
    · obtain rfl := List.mem_singleton.mp hrow
      exact List.ne_nil_of_mem (List.mem_insertionSort _ |>.mpr
        ((hmembers seed).mpr ⟨hseed, hlt, .refl seed⟩))
  · intro u v k hu hv
    by_cases hk : k = raw.length
    · subst hk
      obtain ⟨-, -, hus⟩ := (hmembers u).mp (hnew.mp hu)
      obtain ⟨hv, hvlt, hvs⟩ := (hmembers v).mp (hnew.mp hv)
      exact hus.trans (hback v hv hvlt hvs)
    · exact h.reach u v k ((hold hk).mp hu) ((hold hk).mp hv)
  · intro u v hmutual
    -- what is mutually reachable with a member is a member
    have hjoin : ∀ {u v}, Mutual successors u v → u ∈ members → v ∈ members := by
      intro u v hmutual hu
      obtain ⟨hnone, hult, hus⟩ := (hmembers u).mp hu
      exact (hmembers v).mpr ⟨h.upward.none_of_reach hmutual.1 hnone,
        Reach.closed (fun u _ v hv => hrange u v hv) hmutual.1 hult, hmutual.2.trans hus⟩
    by_cases hu : u ∈ members
    · rw [hin hu, hin (hjoin hmutual hu)]
    · rw [hout hu, hout fun hv => hu (hjoin ⟨hmutual.2, hmutual.1⟩ hv)]
      exact h.whole u v hmutual
  · intro u v k hedge hv
    by_cases hk : k = raw.length
    · subst hk
      obtain ⟨hnone, hvlt, hvs⟩ := (hmembers v).mp (hnew.mp hv)
      cases hu : component u with
      | none =>
        exact ⟨raw.length, le_rfl, hin ((hmembers u).mpr
          ⟨hu, Edge.lt_length hedge, .trans (.of_edge hedge) hvs⟩)⟩
      | some j =>
        have hj := h.row u j hu
        exact ⟨j, hj.le, (hold hj.ne).mpr hu⟩
    · obtain ⟨j, hjk, hj⟩ := h.ordered u v k hedge ((hold hk).mp hv)
      exact ⟨j, hjk, (hold (h.row u j hj).ne).mpr hj⟩

theorem Grouped.visit {order rest : List Nat} {seed : Nat} (hrange : InRange successors)
    (hpred : ∀ b p, p ∈ succ predecessors b ↔ Edge successors p b)
    (hall : ∀ b, b ∈ order ↔ b < successors.length)
    (hbrackets : Bracketed (succ successors) order.reverse) (horder : order = done ++ seed :: rest)
    (h : Grouped successors component raw) (hdone : ∀ b ∈ done, component b ≠ none) :
    ∃ component' raw', visitRegion predecessors successors.length (component, raw) seed =
        (component', raw') ∧ Grouped successors component' raw' ∧
      ∀ b ∈ done ++ [seed], component' b ≠ none := by
  by_cases hseed : component seed = none
  · have hlt : seed < successors.length := (hall seed).mp (horder ▸ by simp)
    have hstart : Marked successors component raw.length seed
        (Function.update component seed (some raw.length)) ([] ++ [seed]) := by
      refine ⟨List.nodup_singleton seed, List.mem_singleton_self seed, fun b hb => ?_, fun b => ?_⟩
      · obtain rfl := List.mem_singleton.mp hb
        exact ⟨hseed, hlt, .refl b⟩
      · by_cases heq : b = seed
        · rw [heq, Function.update_self]
          simp
        · rw [Function.update_of_ne heq]
          simp [heq]
    obtain ⟨component', members, hcollect, hnodup, hmembers, heq⟩ :=
      collectMembers_spec hpred h.upward successors.length hstart (by simp) (by simp)
    have hback : ∀ b, component b = none → b < successors.length → Reach successors b seed →
        Reach successors seed b := by
      intro b hnone hb hreach
      have hreverse : order.reverse = rest.reverse ++ seed :: done.reverse := by
        rw [horder]
        simp
      rw [hreverse] at hbrackets
      refine hbrackets.reach_back ?_
      induction hreach using ReflTransGen.head_induction_on with
      | refl => exact .refl
      | @head u v huv _ ih =>
        have hv : component v = none := h.upward.none_of_reach (.of_edge huv) hnone
        refine (ih hv (hrange u v huv)).head ⟨huv, ?_⟩
        have hu := (hall u).mpr hb
        rw [horder, List.mem_append, List.mem_cons] at hu
        rcases hu with hu | rfl | hu
        · exact absurd hnone (hdone u hu)
        · exact .inr rfl
        · exact .inl (List.mem_reverse.mpr hu)
    refine ⟨component', raw ++ [members.insertionSort (· ≤ ·)], ?_,
      h.add hrange hseed hlt hback hnodup hmembers heq, fun b hb => ?_⟩
    · unfold visitRegion
      dsimp only
      rw [if_neg (not_not.mpr hseed), hcollect]
    · rw [heq]
      split
      · exact Option.some_ne_none _
      · rename_i hno
        rcases List.mem_append.mp hb with hb | hb
        · exact hdone b hb
        · obtain rfl := List.mem_singleton.mp hb
          exact absurd ((hmembers b).mpr ⟨hseed, hlt, .refl b⟩) hno
  · refine ⟨component, raw, ?_, h, fun b hb => ?_⟩
    · unfold visitRegion
      dsimp only
      rw [if_pos hseed]
    · rcases List.mem_append.mp hb with hb | hb
      · exact hdone b hb
      · exact List.mem_singleton.mp hb ▸ hseed

theorem Grouped.foldl {order rest : List Nat} (hrange : InRange successors)
    (hpred : ∀ b p, p ∈ succ predecessors b ↔ Edge successors p b)
    (hall : ∀ b, b ∈ order ↔ b < successors.length)
    (hbrackets : Bracketed (succ successors) order.reverse) (horder : order = done ++ rest)
    (h : Grouped successors component raw) (hdone : ∀ b ∈ done, component b ≠ none) :
    ∃ component' raw', rest.foldl (visitRegion predecessors successors.length) (component, raw) =
        (component', raw') ∧ Grouped successors component' raw' ∧
      ∀ b < successors.length, component' b ≠ none := by
  induction rest generalizing done component raw with
  | nil =>
    refine ⟨component, raw, rfl, h, fun b hb => hdone b ?_⟩
    have := (hall b).mpr hb
    rwa [horder, List.append_nil] at this
  | cons seed rest ih =>
    obtain ⟨component', raw', hvisit, hgrouped, hdone'⟩ :=
      h.visit hrange hpred hall hbrackets horder hdone
    rw [List.foldl_cons, hvisit]
    exact ih (by rw [horder]; simp) hgrouped hdone'

end Classes

/-! ## Regions -/

/-- The strong components of a graph with their entries, in an order that no edge goes against. -/
structure RegionsOf (successors : List (List Nat)) (root : Nat)
    (sccs : List StronglyConnectedRegion) (sccForBlock : List Nat) : Prop where
  listed : ∀ b < successors.length, ∃ i r, sccForBlock[b]? = some i ∧ sccs[i]? = some r
  mem : ∀ i (r : StronglyConnectedRegion), sccs[i]? = some r → ∀ b, b ∈ r.blocks ↔ sccForBlock[b]? = some i
  sorted : ∀ r ∈ sccs, r.blocks.Pairwise (· < ·)
  same : ∀ u < successors.length, ∀ v < successors.length,
    sccForBlock[u]? = sccForBlock[v]? ↔ Mutual successors u v
  ordered : ∀ u v i j, Edge successors u v → sccForBlock[u]? = some i → sccForBlock[v]? = some j →
    i ≤ j
  entries : ∀ r ∈ sccs, ∀ b, b ∈ r.entries ↔
    b ∈ r.blocks ∧ (b = root ∨ ∃ p, Edge successors p b ∧ p ∉ r.blocks)
  cyclic : ∀ r ∈ sccs, r.cyclic = true ↔ ∃ b ∈ r.blocks, Cyclic successors b
  header : ∀ r ∈ sccs, ∀ h, r.reducibleHeader = some h ↔
    r.entries = [h] ∧ ∀ b ∈ r.blocks, Dom (Edge successors) root h b

section Regions
variable {successors predecessors : List (List Nat)} {component : Nat → Option Nat}
  {raw : List (List Nat)} {root : Nat} {tree : DominatorTree}

theorem regionOf_cyclic (h : Grouped successors component raw) {id : Nat} {members : List Nat}
    (hraw : raw[id]? = some members) :
    (regionOf predecessors successors tree root component members id).cyclic = true ↔
      ∃ b ∈ members, Cyclic successors b := by
  have hmem := h.mem id members hraw
  have hreach : ∀ b ∈ members, ∀ c ∈ members, Reach successors b c := fun b hb c hc =>
    h.reach b c id ((hmem b).mp hb) ((hmem c).mp hc)
  have hne := h.nonempty members (List.mem_of_getElem? hraw)
  have hnodup : members.Nodup := (h.sorted members (List.mem_of_getElem? hraw)).imp Nat.ne_of_lt
  simp only [regionOf, Bool.or_eq_true, decide_eq_true_eq]
  match members, hne with
  | [b], _ =>
    simp only [List.length_singleton, lt_irrefl, false_or, List.head?_cons, Option.any_some,
      decide_eq_true_eq, List.mem_singleton, exists_eq_left]
    refine ⟨fun hself => .single hself, fun hcycle => ?_⟩
    -- the first step of a cycle stays in the class
    obtain ⟨c, hbc, hcb⟩ := TransGen.head'_iff.mp hcycle
    have hb : component b = some id := (hmem b).mp (List.mem_singleton_self b)
    have hc : component c = some id := (h.whole b c ⟨.of_edge hbc, hcb⟩) ▸ hb
    obtain rfl := List.mem_singleton.mp ((hmem c).mpr hc)
    exact hbc
  | b :: c :: rest, _ =>
    refine iff_of_true (.inl (by simp)) ⟨b, List.mem_cons_self, ?_⟩
    have hbc : b ≠ c := by
      rintro rfl
      simp at hnodup
    have hc : c ∈ b :: c :: rest := by simp
    rcases reflTransGen_iff_eq_or_transGen.mp (hreach b List.mem_cons_self c hc) with heq | hstep
    · exact absurd heq.symm hbc
    · exact hstep.trans_left (hreach c hc b List.mem_cons_self)

theorem regionOf_entries (hpred : ∀ b p, p ∈ succ predecessors b ↔ Edge successors p b)
    {id : Nat} {members : List Nat} (hmem : ∀ b, b ∈ members ↔ component b = some id) (b : Nat) :
    b ∈ (regionOf predecessors successors tree root component members id).entries ↔
      b ∈ members ∧ (b = root ∨ ∃ p, Edge successors p b ∧ p ∉ members) := by
  simp only [regionOf, List.mem_insertionSort, List.mem_dedup, List.mem_filter, Bool.or_eq_true,
    decide_eq_true_eq, List.any_eq_true, hpred, hmem, ne_eq]

theorem regionOf_header {id : Nat} {members : List Nat} (h : DominatorsOf successors root tree)
    (hreach : ∀ b ∈ members, Reach successors root b) (header : Nat) :
    (regionOf predecessors successors tree root component members id).reducibleHeader =
        some header ↔
      (regionOf predecessors successors tree root component members id).entries = [header] ∧
        ∀ b ∈ members, Dom (Edge successors) root header b := by
  have hdominates : ∀ header, (∃ b, b ∈ members) →
      (members.all (tree.dominates header) = true ↔
        ∀ b ∈ members, Dom (Edge successors) root header b) := by
    intro header ⟨b, hb⟩
    rw [List.all_eq_true]
    refine forall₂_congr fun c hc => ?_
    rw [h.dominates]
    exact ⟨fun hd => hd.2.2, fun hd => ⟨hd.reach (hreach c hc), hreach c hc, hd⟩⟩
  unfold regionOf
  dsimp only
  generalize hentries : (members.filter _).dedup.insertionSort (· ≤ ·) = entries
  have hsub : ∀ b ∈ entries, b ∈ members := by
    rw [← hentries]
    intro b hb
    rw [List.mem_insertionSort, List.mem_dedup] at hb
    exact List.mem_of_mem_filter hb
  match entries, hsub with
  | [entry], hsub =>
    have hall := hdominates entry ⟨entry, hsub entry (List.mem_singleton_self entry)⟩
    dsimp only
    split
    · rename_i hdom
      constructor
      · rintro ⟨⟩
        exact ⟨rfl, hall.mp hdom⟩
      · rintro ⟨⟨⟩, -⟩
        rfl
    · rename_i hno
      refine iff_of_false (by simp) ?_
      rintro ⟨⟨⟩, hdom⟩
      exact hno (hall.mpr hdom)
  | [], _ => simp
  | _ :: _ :: _, _ => simp

theorem stronglyConnectedRegions_exact (h : DominatorsOf successors root tree)
    (hreach : ∀ b < successors.length, Reach successors root b)
    (hpred : ∀ b p, p ∈ succ predecessors b ↔ Edge successors p b) :
    RegionsOf successors root (stronglyConnectedRegions predecessors successors tree root).1
      (stronglyConnectedRegions predecessors successors tree root).2 := by
  have hrange := h.treeAt.range
  obtain ⟨-, hall, hbrackets⟩ := finishingOrder_spec h.treeAt.root_lt hrange hreach
  have hstart : Grouped successors (fun _ => none) [] :=
    ⟨by simp, by simp, by simp, by simp, by simp, by simp, by simp, by simp⟩
  obtain ⟨component, raw, hfold, hgrouped, hsome⟩ := hstart.foldl hrange hpred
    (fun b => List.mem_reverse.trans (hall b)) (by rwa [List.reverse_reverse])
    (List.nil_append _).symm (by simp)
  unfold stronglyConnectedRegions
  rw [hfold]
  dsimp only
  have hat : ∀ b, ((List.range successors.length).map fun block =>
      (component block).getD usizeMax)[b]? = component b := by
    intro b
    by_cases hb : b < successors.length
    · obtain ⟨k, hk⟩ := Option.ne_none_iff_exists'.mp (hsome b hb)
      simp [hb, hk]
    · have hnone : component b = none := by
        by_contra hno
        exact hb (hgrouped.range b hno)
      simp [hb, hnone]
  have hregion : ∀ i r, (raw.zipIdx.map fun (members, id) =>
      regionOf predecessors successors tree root component members id)[i]? = some r →
      ∃ members, raw[i]? = some members ∧
        r = regionOf predecessors successors tree root component members i := by
    intro i r hr
    simp only [List.getElem?_map, List.getElem?_zipIdx, Option.map_map, Option.map_eq_some_iff,
      Nat.zero_add] at hr
    obtain ⟨members, hmembers, rfl⟩ := hr
    exact ⟨members, hmembers, rfl⟩
  have hblocks : ∀ {members id}, (regionOf predecessors successors tree root component members
      id).blocks = members := rfl
  have hall' : ∀ r ∈ raw.zipIdx.map fun (members, id) =>
      regionOf predecessors successors tree root component members id, ∃ i members,
      raw[i]? = some members ∧
        r = regionOf predecessors successors tree root component members i := by
    intro r hr
    obtain ⟨i, hi⟩ := List.getElem?_of_mem hr
    exact ⟨i, hregion i r hi⟩
  refine ⟨fun b hb => ?_, fun i r hr b => ?_, fun r hr => ?_, fun u _ v hv => ?_,
    fun u v i j hedge hu hv => ?_, fun r hr b => ?_, fun r hr => ?_, fun r hr header => ?_⟩
  · obtain ⟨k, hk⟩ := Option.ne_none_iff_exists'.mp (hsome b hb)
    refine ⟨k, _, (hat b).trans hk, List.getElem?_eq_getElem ?_⟩
    simpa using hgrouped.row b k hk
  · obtain ⟨members, hmembers, rfl⟩ := hregion i r hr
    rw [hblocks, hat, hgrouped.mem i members hmembers]
  · obtain ⟨i, members, hmembers, rfl⟩ := hall' r hr
    exact hgrouped.sorted members (List.mem_of_getElem? hmembers)
  · rw [hat, hat]
    refine ⟨fun heq => ?_, hgrouped.whole u v⟩
    obtain ⟨k, hk⟩ := Option.ne_none_iff_exists'.mp (hsome v hv)
    exact ⟨hgrouped.reach u v k (heq.trans hk) hk, hgrouped.reach v u k hk (heq.trans hk)⟩
  · rw [hat] at hu hv
    obtain ⟨k, hk, hku⟩ := hgrouped.ordered u v j hedge hv
    rw [hu] at hku
    exact (Option.some.inj hku) ▸ hk
  · obtain ⟨i, members, hmembers, rfl⟩ := hall' r hr
    exact regionOf_entries hpred (hgrouped.mem i members hmembers) b
  · obtain ⟨i, members, hmembers, rfl⟩ := hall' r hr
    exact regionOf_cyclic hgrouped hmembers
  · obtain ⟨i, members, hmembers, rfl⟩ := hall' r hr
    refine regionOf_header h (fun b hb => hreach b (hgrouped.range b ?_)) header
    rw [(hgrouped.mem i members hmembers b).mp hb]
    exact Option.some_ne_none i

end Regions
end Celox.Cfg
