import Mathlib

/-! # Searching a graph from one node

Two searches over a successor function: with a queue, which collects what the start reaches, and
depth first with an explicit stack, which lists nodes in the order in which it leaves them. Both
are bounded by the rows of a list that has all nodes. -/
namespace Celox.Graph
open Relation

section Weight
variable {α : Type} [DecidableEq α]

/-- Total weight of the nodes that are not seen yet. -/
def unseen (nodes : List α) (weight : α → Nat) (seen : List α) : Nat :=
  (nodes.map fun b => if b ∈ seen then 0 else weight b).sum

theorem unseen_nil (nodes : List α) (weight : α → Nat) :
    unseen nodes weight [] = (nodes.map weight).sum := by
  simp [unseen]

theorem unseen_cons_le (nodes : List α) (weight : α → Nat) (seen : List α) (a : α) :
    unseen nodes weight (a :: seen) ≤ unseen nodes weight seen := by
  refine List.sum_le_sum fun b _ => ?_
  by_cases hb : b ∈ seen
  · simp [hb]
  · rw [if_neg hb]
    split <;> omega

theorem unseen_cons (weight : α → Nat) (seen : List α) {nodes : List α} {a : α}
    (ha : a ∈ nodes) (hnew : a ∉ seen) :
    weight a + unseen nodes weight (a :: seen) ≤ unseen nodes weight seen := by
  induction nodes with
  | nil => simp at ha
  | cons b nodes ih =>
    have hle := unseen_cons_le nodes weight seen a
    simp only [unseen, List.map_cons, List.sum_cons] at ih hle ⊢
    by_cases hba : b = a
    · subst hba
      rw [if_pos (by simp), if_neg hnew]
      omega
    · have := ih (by simpa [Ne.symm hba] using ha)
      have hsame : (b ∈ a :: seen) = (b ∈ seen) := by simp [hba]
      simp only [hsame]
      omega

end Weight

/-! ## With a queue -/

section Queue
variable {α : Type} [DecidableEq α]

def reachLoop (next : α → List α) : (fuel : Nat) → (queue seen : List α) → List α
  | 0, _, seen => seen
  | _ + 1, [], seen => seen
  | fuel + 1, node :: queue, seen =>
    if node ∈ seen then reachLoop next fuel queue seen
    else reachLoop next fuel (queue ++ next node) (node :: seen)

/-- What is seen or queued while the start is searched. -/
structure Reaching (next : α → List α) (start : α) (queue seen : List α) : Prop where
  nodup : seen.Nodup
  start_mem : start ∈ seen ++ queue
  reach : ∀ b ∈ seen ++ queue, ReflTransGen (fun u v => v ∈ next u) start b
  closed : ∀ b ∈ seen, ∀ c ∈ next b, c ∈ seen ++ queue

variable {next : α → List α} {start : α}

omit [DecidableEq α] in
theorem Reaching.done {seen : List α} (h : Reaching next start [] seen) (b : α) :
    b ∈ seen ↔ ReflTransGen (fun u v => v ∈ next u) start b := by
  refine ⟨fun hb => h.reach b (by simpa using hb), fun hb => ?_⟩
  induction hb with
  | refl => simpa using h.start_mem
  | @tail u v _ huv ih => simpa using h.closed u ih v huv

theorem reachLoop_spec {nodes : List α}
    (hnodes : ∀ b, ReflTransGen (fun u v => v ∈ next u) start b → b ∈ nodes) (fuel : Nat)
    (queue seen : List α) (h : Reaching next start queue seen)
    (hfuel : queue.length + unseen nodes (fun b => (next b).length) seen ≤ fuel) :
    (reachLoop next fuel queue seen).Nodup ∧ ∀ b, b ∈ reachLoop next fuel queue seen ↔
      ReflTransGen (fun u v => v ∈ next u) start b := by
  induction fuel generalizing queue seen with
  | zero =>
    obtain rfl : queue = [] := List.eq_nil_of_length_eq_zero (by omega)
    exact ⟨h.nodup, h.done⟩
  | succ fuel ih =>
    cases queue with
    | nil => exact ⟨h.nodup, h.done⟩
    | cons node queue =>
      rw [List.length_cons] at hfuel
      unfold reachLoop
      split
      · -- seen before: the node only leaves the queue
        rename_i hseen
        refine ih queue seen ⟨h.nodup, ?_, fun b hb => ?_, fun b hb c hc => ?_⟩ (by omega)
        · rcases List.mem_append.mp h.start_mem with hs | hs
          · exact List.mem_append_left _ hs
          · rcases List.mem_cons.mp hs with hs | hs
            · exact List.mem_append_left _ (hs ▸ hseen)
            · exact List.mem_append_right _ hs
        · refine h.reach b ?_
          rcases List.mem_append.mp hb with hb | hb <;> simp [hb]
        · rcases List.mem_append.mp (h.closed b hb c hc) with hc | hc
          · exact List.mem_append_left _ hc
          · rcases List.mem_cons.mp hc with hc | hc
            · exact List.mem_append_left _ (hc ▸ hseen)
            · exact List.mem_append_right _ hc
      · rename_i hnew
        have hreach := h.reach node (by simp)
        have hweight := unseen_cons (fun b => (next b).length) seen (hnodes node hreach) hnew
        refine ih (queue ++ next node) (node :: seen)
          ⟨List.nodup_cons.mpr ⟨hnew, h.nodup⟩, ?_, fun b hb => ?_, fun b hb c hc => ?_⟩
          (by rw [List.length_append]; omega)
        · have := h.start_mem
          simp only [List.mem_append, List.mem_cons] at this ⊢
          tauto
        · simp only [List.mem_append, List.mem_cons] at hb
          rcases hb with (rfl | hb) | hb | hb
          · exact hreach
          · exact h.reach b (by simp [hb])
          · exact h.reach b (by simp [hb])
          · exact hreach.tail hb
        · rcases List.mem_cons.mp hb with rfl | hb
          · simp [hc]
          · have := h.closed b hb c hc
            simp only [List.mem_append, List.mem_cons] at this ⊢
            tauto

/-- The search finds what the start reaches. -/
theorem mem_reachLoop {nodes : List α} {fuel : Nat}
    (hnodes : ∀ b, ReflTransGen (fun u v => v ∈ next u) start b → b ∈ nodes)
    (hfuel : (nodes.map fun b => (next b).length).sum + 1 ≤ fuel) :
    (reachLoop next fuel [start] []).Nodup ∧ ∀ b, b ∈ reachLoop next fuel [start] [] ↔
      ReflTransGen (fun u v => v ∈ next u) start b := by
  refine reachLoop_spec hnodes fuel [start] [] ⟨by simp, by simp, ?_, by simp⟩ ?_
  · intro b hb
    obtain rfl : b = start := by simpa using hb
    exact .refl
  · rw [unseen_nil, List.length_singleton]
    omega

end Queue

/-! ## Depth first -/

section Depth
variable {α : Type}

/-- `stack` has the open nodes, innermost first, each with the successors still to look at. -/
structure Dfs (α : Type) where
  visited : List α
  postorder : List α
  stack : List (α × List α)

def Dfs.start (next : α → List α) (root : α) : Dfs α := ⟨[root], [], [(root, next root)]⟩

def Dfs.step [DecidableEq α] (next : α → List α) (state : Dfs α) : Dfs α :=
  match state.stack with
  | [] => state
  | (node, []) :: stack => { state with postorder := state.postorder ++ [node], stack }
  | (node, successor :: rest) :: stack =>
    if successor ∈ state.visited then { state with stack := (node, rest) :: stack }
    else { state with
      visited := successor :: state.visited
      stack := (successor, next successor) :: (node, rest) :: stack }

def Dfs.run [DecidableEq α] (next : α → List α) : (fuel : Nat) → Dfs α → Dfs α
  | 0, state => state
  | fuel + 1, state => run next fuel (state.step next)

def Dfs.open (state : Dfs α) : List α := state.stack.map Prod.fst

/-- Open nodes form a walk from the root, and a finished node has a predecessor that is open or
finished later. -/
structure Dfs.Inv (next : α → List α) (root : α) (state : Dfs α) : Prop where
  nodup : (state.postorder ++ state.open).Nodup
  visited : ∀ b, b ∈ state.visited ↔ b ∈ state.postorder ++ state.open
  walk : state.open.IsChain fun c b => c ∈ next b
  last : ∀ b, state.open.getLast? = some b → b = root
  root_last : state.stack = [] → state.postorder.getLast? = some root
  reach : ∀ b ∈ state.visited, ReflTransGen (fun u v => v ∈ next u) root b
  finished : ∀ b ∈ state.postorder, ∀ c ∈ next b, c ∈ state.visited
  pending : ∀ b rest, (b, rest) ∈ state.stack → ∀ c ∈ rest, c ∈ next b
  opened : ∀ b rest, (b, rest) ∈ state.stack → ∀ c ∈ next b, c ∈ state.visited ∨ c ∈ rest
  later : ∀ before b after, state.postorder = before ++ b :: after → b ≠ root →
    ∃ p ∈ after ++ state.open, b ∈ next p

variable {next : α → List α} {root : α}

theorem Dfs.Inv.start (next : α → List α) (root : α) : (Dfs.start next root).Inv next root where
  nodup := by simp [Dfs.start, Dfs.open]
  visited := by simp [Dfs.start, Dfs.open]
  walk := by simp [Dfs.start, Dfs.open]
  last := by simp [Dfs.start, Dfs.open]
  root_last := by simp [Dfs.start]
  reach := by
    intro b hb
    obtain rfl : b = root := by simpa [Dfs.start] using hb
    exact .refl
  finished := by simp [Dfs.start]
  pending := by
    intro b rest hb c hc
    obtain ⟨rfl, rfl⟩ : b = root ∧ rest = next root := by simpa [Dfs.start] using hb
    exact hc
  opened := by
    intro b rest hb c hc
    obtain ⟨rfl, rfl⟩ : b = root ∧ rest = next root := by simpa [Dfs.start] using hb
    exact .inr hc
  later := by simp [Dfs.start]

variable {state : Dfs α}

/-- Leaving the innermost node. -/
theorem Dfs.Inv.leave {node : α} {stack : List (α × List α)} (h : state.Inv next root)
    (hstack : state.stack = (node, []) :: stack) :
    Dfs.Inv next root { state with postorder := state.postorder ++ [node], stack } := by
  have hopen : state.open = node :: stack.map Prod.fst := by simp [Dfs.open, hstack]
  have hmem : ∀ b, b ∈ state.postorder ++ [node] ++ stack.map Prod.fst ↔ b ∈ state.visited := by
    intro b
    rw [h.visited b, hopen]
    simp
  refine ⟨?_, fun b => (hmem b).symm, ?_, fun b hb => ?_, fun hnil => ?_, h.reach, ?_, ?_, ?_, ?_⟩
  · have := h.nodup
    rw [hopen] at this
    simpa [Dfs.open] using this
  · have := h.walk
    rw [hopen] at this
    exact this.tail
  · refine h.last b ?_
    rw [hopen]
    have hb' : (stack.map Prod.fst).getLast? = some b := hb
    rw [List.getLast?_cons, hb']
    rfl
  · have hroot : node = root := by
      refine h.last node ?_
      have hnil' : stack = [] := hnil
      rw [hopen, hnil']
      rfl
    simp [hroot]
  · intro b hb c hc
    rcases List.mem_append.mp hb with hb | hb
    · exact h.finished b hb c hc
    · rcases h.opened node [] (by simp [hstack]) c (List.mem_singleton.mp hb ▸ hc) with hc | hc
      · exact hc
      · simp at hc
  · intro b rest hb c hc
    exact h.pending b rest (by simpa [hstack] using .inr hb) c hc
  · intro b rest hb c hc
    exact h.opened b rest (by simpa [hstack] using .inr hb) c hc
  · intro before b after hsplit hb
    have hsplit' : state.postorder ++ [node] = before ++ b :: after := hsplit
    rcases List.eq_nil_or_concat after with rfl | ⟨after, x, rfl⟩
    · -- the node itself: its parent is the next open node
      obtain ⟨-, hlast⟩ := List.append_inj' hsplit' rfl
      obtain rfl : node = b := by simpa using hlast
      cases stack with
      | nil => exact absurd (h.last node (by rw [hopen]; rfl)) hb
      | cons top stack =>
        have hwalk := h.walk
        rw [hopen, List.map_cons, List.isChain_cons_cons] at hwalk
        exact ⟨top.1, by simp [Dfs.open], hwalk.1⟩
    · have hlen : state.postorder ++ [node] = (before ++ b :: after) ++ [x] := by
        rw [hsplit']
        simp
      obtain ⟨hpost, hlast⟩ := List.append_inj' hlen rfl
      obtain rfl : node = x := by simpa using hlast
      obtain ⟨p, hp, hbp⟩ := h.later before b after hpost hb
      refine ⟨p, ?_, hbp⟩
      rw [hopen] at hp
      simpa [Dfs.open] using hp

/-- Passing a successor that is known. -/
theorem Dfs.Inv.skip {node successor : α} {rest : List α} {stack : List (α × List α)}
    (h : state.Inv next root) (hstack : state.stack = (node, successor :: rest) :: stack)
    (hseen : successor ∈ state.visited) :
    Dfs.Inv next root { state with stack := (node, rest) :: stack } := by
  have hopen : state.open = node :: stack.map Prod.fst := by simp [Dfs.open, hstack]
  have hsame : Dfs.open { state with stack := (node, rest) :: stack } = state.open := by
    rw [hopen]
    rfl
  refine ⟨hsame ▸ h.nodup, fun b => hsame ▸ h.visited b, hsame ▸ h.walk, hsame ▸ h.last, ?_,
    h.reach, h.finished, ?_, ?_, hsame ▸ h.later⟩
  · simp
  · intro b rest' hb c hc
    rcases List.mem_cons.mp hb with heq | hb
    · obtain ⟨rfl, rfl⟩ : b = node ∧ rest' = rest := by simpa using heq
      exact h.pending b (successor :: rest') (by simp [hstack]) c (by simp [hc])
    · exact h.pending b rest' (by simp [hstack, hb]) c hc
  · intro b rest' hb c hc
    rcases List.mem_cons.mp hb with heq | hb
    · obtain ⟨rfl, rfl⟩ : b = node ∧ rest' = rest := by simpa using heq
      rcases h.opened b (successor :: rest') (by simp [hstack]) c hc with hc | hc
      · exact .inl hc
      · rcases List.mem_cons.mp hc with rfl | hc
        · exact .inl hseen
        · exact .inr hc
    · exact h.opened b rest' (by simp [hstack, hb]) c hc

/-- Entering a new successor. -/
theorem Dfs.Inv.enter {node successor : α} {rest : List α} {stack : List (α × List α)}
    (h : state.Inv next root) (hstack : state.stack = (node, successor :: rest) :: stack)
    (hnew : successor ∉ state.visited) :
    Dfs.Inv next root { state with
      visited := successor :: state.visited
      stack := (successor, next successor) :: (node, rest) :: stack } := by
  have hopen : state.open = node :: stack.map Prod.fst := by simp [Dfs.open, hstack]
  have hopen' : Dfs.open { state with
      visited := successor :: state.visited
      stack := (successor, next successor) :: (node, rest) :: stack } =
        successor :: state.open := by
    rw [hopen]
    rfl
  have hedge : successor ∈ next node :=
    h.pending node (successor :: rest) (by simp [hstack]) successor (by simp)
  refine ⟨?_, fun b => ?_, ?_, fun b hb => ?_, by simp, fun b hb => ?_, fun b hb c hc => ?_,
    fun b rest' hb c hc => ?_, fun b rest' hb c hc => ?_, fun before b after hsplit hb => ?_⟩
  · rw [hopen', List.nodup_append_comm, List.cons_append, List.nodup_cons,
      List.nodup_append_comm]
    refine ⟨fun hmem => hnew ((h.visited _).mpr ?_), h.nodup⟩
    simpa [or_comm] using hmem
  · rw [hopen']
    have := h.visited b
    simp only [List.mem_append, List.mem_cons] at this ⊢
    tauto
  · rw [hopen', hopen, List.isChain_cons_cons]
    exact ⟨hedge, hopen ▸ h.walk⟩
  · refine h.last b ?_
    rw [hopen'] at hb
    rw [hopen] at hb ⊢
    simpa [List.getLast?_cons_cons] using hb
  · rcases List.mem_cons.mp hb with rfl | hb
    · have hnode : node ∈ state.visited := (h.visited node).mpr (by simp [hopen])
      exact (h.reach node hnode).tail hedge
    · exact h.reach b hb
  · exact List.mem_cons_of_mem _ (h.finished b hb c hc)
  · rcases List.mem_cons.mp hb with heq | hb
    · obtain ⟨rfl, rfl⟩ : b = successor ∧ rest' = next successor := by simpa using heq
      exact hc
    · rcases List.mem_cons.mp hb with heq | hb
      · obtain ⟨rfl, rfl⟩ : b = node ∧ rest' = rest := by simpa using heq
        exact h.pending b (successor :: rest') (by simp [hstack]) c (by simp [hc])
      · exact h.pending b rest' (by simp [hstack, hb]) c hc
  · rcases List.mem_cons.mp hb with heq | hb
    · obtain ⟨rfl, rfl⟩ : b = successor ∧ rest' = next successor := by simpa using heq
      exact .inr hc
    · rcases List.mem_cons.mp hb with heq | hb
      · obtain ⟨rfl, rfl⟩ : b = node ∧ rest' = rest := by simpa using heq
        rcases h.opened b (successor :: rest') (by simp [hstack]) c hc with hc | hc
        · exact .inl (List.mem_cons_of_mem _ hc)
        · rcases List.mem_cons.mp hc with rfl | hc
          · exact .inl (by simp)
          · exact .inr hc
      · rcases h.opened b rest' (by simp [hstack, hb]) c hc with hc | hc
        · exact .inl (List.mem_cons_of_mem _ hc)
        · exact .inr hc
  · obtain ⟨p, hp, hbp⟩ := h.later before b after hsplit hb
    refine ⟨p, ?_, hbp⟩
    rw [hopen']
    rcases List.mem_append.mp hp with hp | hp <;> simp [hp]

variable [DecidableEq α]

theorem Dfs.Inv.step (h : state.Inv next root) : (state.step next).Inv next root := by
  unfold Dfs.step
  split
  · exact h
  · rename_i node stack hstack
    exact h.leave hstack
  · rename_i node successor rest stack hstack
    split
    · rename_i hseen
      exact h.skip hstack hseen
    · rename_i hnew
      exact h.enter hstack hnew

/-- Steps still to do: one for each successor to look at and one for each node to leave. -/
def Dfs.work (nodes : List α) (next : α → List α) (state : Dfs α) : Nat :=
  (state.stack.map fun frame => frame.2.length + 1).sum +
    unseen nodes (fun b => (next b).length + 1) state.visited

theorem Dfs.work_step {nodes : List α} (h : state.Inv next root)
    (hnodes : ∀ b, ReflTransGen (fun u v => v ∈ next u) root b → b ∈ nodes)
    (hopen : state.stack ≠ []) : (state.step next).work nodes next < state.work nodes next := by
  unfold Dfs.step
  split
  · rename_i hnil
    exact absurd hnil hopen
  · rename_i node stack hstack
    simp [Dfs.work, hstack]
  · rename_i node successor rest stack hstack
    split
    · simp [Dfs.work, hstack]
    · rename_i hnew
      have hreach := (h.enter hstack hnew).reach successor (by simp)
      have := unseen_cons (fun b => (next b).length + 1) state.visited (hnodes _ hreach) hnew
      simp only [Dfs.work, hstack, List.map_cons, List.sum_cons, List.length_cons]
      omega

theorem Dfs.run_done (fuel : Nat) (hstack : state.stack = []) :
    Dfs.run next fuel state = state := by
  induction fuel with
  | zero => rfl
  | succ fuel ih =>
    have hstep : state.step next = state := by simp [Dfs.step, hstack]
    rw [Dfs.run, hstep, ih]

theorem Dfs.Inv.run {nodes : List α}
    (hnodes : ∀ b, ReflTransGen (fun u v => v ∈ next u) root b → b ∈ nodes) (fuel : Nat)
    (h : state.Inv next root) (hfuel : state.work nodes next ≤ fuel) :
    (Dfs.run next fuel state).Inv next root ∧ (Dfs.run next fuel state).stack = [] := by
  induction fuel generalizing state with
  | zero =>
    refine ⟨h, ?_⟩
    cases hstack : state.stack with
    | nil => exact hstack
    | cons frame stack =>
      simp only [Dfs.work, hstack, List.map_cons, List.sum_cons] at hfuel
      omega
  | succ fuel ih =>
    by_cases hstack : state.stack = []
    · rw [Dfs.run_done _ hstack]
      exact ⟨h, hstack⟩
    · have := Dfs.work_step h hnodes hstack
      exact ih h.step (by omega)

theorem Dfs.work_start {nodes : List α}
    (hnodes : ∀ b, ReflTransGen (fun u v => v ∈ next u) root b → b ∈ nodes) :
    (Dfs.start next root).work nodes next ≤ (nodes.map fun b => (next b).length + 1).sum := by
  have := unseen_cons (fun b => (next b).length + 1) [] (hnodes root .refl) (by simp)
  rw [unseen_nil] at this
  simp only [Dfs.work, Dfs.start, List.map_cons, List.map_nil, List.sum_cons, List.sum_nil]
  omega

omit [DecidableEq α] in
/-- At the end all nodes that the root reaches are left. -/
theorem Dfs.Inv.mem_postorder (h : state.Inv next root) (hstack : state.stack = []) (b : α) :
    b ∈ state.postorder ↔ ReflTransGen (fun u v => v ∈ next u) root b := by
  have hopen : state.open = [] := by simp [Dfs.open, hstack]
  have hvisited : ∀ b, b ∈ state.visited ↔ b ∈ state.postorder := by
    intro b
    rw [h.visited b, hopen, List.append_nil]
  rw [← hvisited]
  refine ⟨h.reach b, fun hb => ?_⟩
  induction hb with
  | refl => exact (hvisited root).mpr (List.mem_of_getLast? (h.root_last hstack))
  | @tail u v _ huv ih => exact h.finished u ((hvisited u).mp ih) v huv

/-- An order of what the root reaches in which every other node comes after one that leads to
it. -/
structure ReversePostorder (next : α → List α) (root : α) (order : List α) : Prop where
  nodup : order.Nodup
  mem : ∀ b, b ∈ order ↔ ReflTransGen (fun u v => v ∈ next u) root b
  head : order[0]? = some root
  earlier : ∀ i b, order[i]? = some b → 0 < i → ∃ j p, j < i ∧ order[j]? = some p ∧ b ∈ next p

/-- The nodes in the order opposite to that in which the search leaves them. -/
def reversePostorder (next : α → List α) (fuel : Nat) (root : α) : List α :=
  (Dfs.run next fuel (Dfs.start next root)).postorder.reverse

theorem reversePostorder_spec {nodes : List α} {fuel : Nat}
    (hnodes : ∀ b, ReflTransGen (fun u v => v ∈ next u) root b → b ∈ nodes)
    (hfuel : (nodes.map fun b => (next b).length + 1).sum ≤ fuel) :
    ReversePostorder next root (reversePostorder next fuel root) := by
  have hwork : (Dfs.start next root).work nodes next ≤ fuel := (Dfs.work_start hnodes).trans hfuel
  obtain ⟨hinv, hstack⟩ := (Dfs.Inv.start next root).run hnodes fuel hwork
  unfold reversePostorder
  generalize Dfs.run next fuel (Dfs.start next root) = final at hinv hstack
  have hopen : final.open = [] := by simp [Dfs.open, hstack]
  have hnodup : final.postorder.Nodup := by
    have := hinv.nodup
    rwa [hopen, List.append_nil] at this
  have hhead : final.postorder.reverse[0]? = some root := by
    rw [← List.head?_eq_getElem?, List.head?_reverse]
    exact hinv.root_last hstack
  refine ⟨List.nodup_reverse.mpr hnodup, fun b => ?_, hhead, fun i b hi hpos => ?_⟩
  · rw [List.mem_reverse]
    exact hinv.mem_postorder hstack b
  · have hlt : i < final.postorder.reverse.length := (List.getElem?_eq_some_iff.mp hi).1
    have hsplit : final.postorder = (final.postorder.reverse.drop (i + 1)).reverse ++
        b :: (final.postorder.reverse.take i).reverse := by
      have hget : final.postorder.reverse[i] = b := (List.getElem?_eq_some_iff.mp hi).2
      have hcut := List.take_append_drop i final.postorder.reverse
      rw [List.drop_eq_getElem_cons hlt, hget] at hcut
      have := congrArg List.reverse hcut
      rw [List.reverse_reverse, List.reverse_append, List.reverse_cons, List.append_assoc] at this
      exact this.symm
    have hb : b ≠ root := by
      rintro rfl
      have := (List.nodup_reverse.mpr hnodup).getElem_inj_iff.mp
        ((List.getElem?_eq_some_iff.mp hi).2.trans (List.getElem?_eq_some_iff.mp hhead).2.symm)
      omega
    obtain ⟨p, hp, hbp⟩ := hinv.later _ _ _ hsplit hb
    rw [hopen, List.append_nil, List.mem_reverse] at hp
    obtain ⟨j, hj⟩ := List.getElem?_of_mem hp
    rw [List.getElem?_take] at hj
    split at hj
    · rename_i hji
      exact ⟨j, p, hji, hj, hbp⟩
    · simp at hj

end Depth

/-! ## The order in which a search leaves nodes

Between the entry of a node and its leaving only nodes are left that it reaches, and what is left
before its entry has no edge to any of them. The last node left thus reaches all that lead to it. -/

section Finishing
variable {α : Type} (next : α → List α)

/-- The nodes left so far, with those that were left since an open node was entered. -/
def Since (postorder below : List α) (node : α) : Prop :=
  ∃ old inside, postorder = old ++ inside ∧
    (∀ x ∈ inside, ReflTransGen (fun u v => v ∈ next u) node x) ∧
    ∀ x ∈ old, ∀ v ∈ next x, v ∈ old ∨ v ∈ below

def OpenSince (postorder : List α) : (stack : List α) → Prop
  | [] => True
  | node :: below => Since next postorder below node ∧ OpenSince postorder below

/-- No edge leads from what is left before the entry of a node to what is left since then. -/
def Bracketed (postorder : List α) : Prop :=
  ∀ before node after, postorder = before ++ node :: after → ∃ old inside, before = old ++ inside ∧
    (∀ x ∈ inside, ReflTransGen (fun u v => v ∈ next u) node x) ∧
    ∀ x ∈ old, ∀ v ∈ next x, v ∉ inside ∧ v ≠ node

structure Dfs.Brackets (state : Dfs α) : Prop where
  opened : OpenSince next state.postorder state.open
  finished : Bracketed next state.postorder

variable {next} {root : α} {state : Dfs α} {postorder below : List α} {node : α}

theorem OpenSince.leave (h : OpenSince next postorder below)
    (hreach : ∀ c ∈ below, ReflTransGen (fun u v => v ∈ next u) c node) :
    OpenSince next (postorder ++ [node]) below := by
  induction below with
  | nil => trivial
  | cons c below ih =>
    obtain ⟨⟨old, inside, rfl, hinside, hold⟩, hbelow⟩ := h
    refine ⟨⟨old, inside ++ [node], by simp, fun x hx => ?_, hold⟩,
      ih hbelow fun c hc => hreach c (List.mem_cons_of_mem _ hc)⟩
    rcases List.mem_append.mp hx with hx | hx
    · exact hinside x hx
    · exact List.mem_singleton.mp hx ▸ hreach c List.mem_cons_self

/-- Every open node reaches the innermost one. -/
theorem reach_innermost (h : (node :: below).IsChain fun c b => c ∈ next b) :
    ∀ c ∈ below, ReflTransGen (fun u v => v ∈ next u) c node := by
  induction below generalizing node with
  | nil => simp
  | cons b below ih =>
    rw [List.isChain_cons_cons] at h
    intro c hc
    have hb : ReflTransGen (fun u v => v ∈ next u) b node := .single h.1
    rcases List.mem_cons.mp hc with rfl | hc
    · exact hb
    · exact (ih h.2 c hc).trans hb

theorem Dfs.Brackets.start (next : α → List α) (root : α) :
    (Dfs.start next root).Brackets next :=
  ⟨⟨⟨[], [], rfl, by simp, by simp⟩, trivial⟩, fun before _ _ heq => by simp [Dfs.start] at heq⟩

theorem Dfs.Brackets.leave {stack : List (α × List α)} (hinv : state.Inv next root)
    (h : state.Brackets next) (hstack : state.stack = (node, []) :: stack) :
    Dfs.Brackets next { state with postorder := state.postorder ++ [node], stack } := by
  have hopen : state.open = node :: stack.map Prod.fst := by simp [Dfs.open, hstack]
  have hnodup := hinv.nodup
  have hwalk := hinv.walk
  obtain ⟨hopened, hfinished⟩ := h
  rw [hopen] at hopened hnodup hwalk
  obtain ⟨⟨old, inside, hsplit, hinside, hold⟩, hbelow⟩ := hopened
  refine ⟨hbelow.leave (reach_innermost hwalk), fun before b after heq => ?_⟩
  rcases List.eq_nil_or_concat after with rfl | ⟨after, last, rfl⟩
  · obtain ⟨rfl, hlast⟩ := List.append_inj' heq rfl
    cases hlast
    refine ⟨old, inside, hsplit, hinside, fun x hx v hv => ?_⟩
    rw [hsplit] at hnodup
    have := hold x hx v hv
    grind
  · have heq' : state.postorder ++ [node] = (before ++ b :: after) ++ [last] := by simpa using heq
    exact hfinished before b after (List.append_inj' heq' rfl).1

theorem Dfs.Brackets.enter {successor : α} {rest : List α} {stack : List (α × List α)}
    (hinv : state.Inv next root) (h : state.Brackets next)
    (hstack : state.stack = (node, successor :: rest) :: stack) :
    Dfs.Brackets next { state with
      visited := successor :: state.visited
      stack := (successor, next successor) :: (node, rest) :: stack } := by
  have hopen : state.open = node :: stack.map Prod.fst := by simp [Dfs.open, hstack]
  refine ⟨⟨⟨state.postorder, [], by simp, by simp, fun x hx v hv => ?_⟩, ?_⟩, h.finished⟩
  · have := (hinv.visited v).mp (hinv.finished x hx v hv)
    rw [hopen] at this
    exact List.mem_append.mp this
  · have := h.opened
    rw [hopen] at this
    exact this

variable [DecidableEq α]

theorem Dfs.Brackets.step (hinv : state.Inv next root) (h : state.Brackets next) :
    (state.step next).Brackets next := by
  unfold Dfs.step
  split
  · exact h
  · rename_i node stack hstack
    exact h.leave hinv hstack
  · rename_i node successor rest stack hstack
    split
    · refine ⟨?_, h.finished⟩
      have hopen : state.open = node :: stack.map Prod.fst := by simp [Dfs.open, hstack]
      have := h.opened
      rw [hopen] at this
      exact this
    · exact h.enter hinv hstack

theorem Dfs.Brackets.run (fuel : Nat) (hinv : state.Inv next root) (h : state.Brackets next) :
    (Dfs.run next fuel state).Brackets next := by
  induction fuel generalizing state with
  | zero => exact h
  | succ fuel ih => exact ih hinv.step (h.step hinv)

omit [DecidableEq α] in
/-- What leads to a node by nodes that are left before it is reached from it. -/
theorem Bracketed.reach_back {before after : List α} {x : α}
    (h : Bracketed next (before ++ node :: after))
    (hwalk : ReflTransGen (fun u v => v ∈ next u ∧ (u ∈ before ∨ u = node)) x node) :
    ReflTransGen (fun u v => v ∈ next u) node x := by
  obtain ⟨old, inside, rfl, hinside, hold⟩ := h before node after rfl
  have hin : x ∈ inside ∨ x = node := by
    induction hwalk using ReflTransGen.head_induction_on with
    | refl => exact .inr rfl
    | @head u v huv _ ih =>
      obtain ⟨hedge, hu⟩ := huv
      rcases hu with hu | rfl
      · rcases List.mem_append.mp hu with hu | hu
        · obtain ⟨hno, hne⟩ := hold u hu v hedge
          exact absurd ih (by tauto)
        · exact .inl hu
      · exact .inr rfl
  rcases hin with hin | rfl
  · exact hinside x hin
  · exact .refl

end Finishing
end Celox.Graph
