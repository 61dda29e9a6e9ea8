import Celox.Cfg.Dominators

/-! # The numbering is a depth-first numbering

Everything between a block on the stack and the last number is a descendant of it; a block that
has left the stack has no successor without a number. -/
namespace Celox.Cfg
open Celox.Graph Relation

section Ancestors
variable {size size' : Nat} {parent parent' : Nat → Nat} {a b : Nat}

theorem anc_grow (hsize : size ≤ size') (hparent : ∀ v, v ≤ size → parent' v = parent v)
    (h : Anc size parent a b) : Anc size' parent' a b :=
  walk_imp h fun _ v huv => ⟨huv.1, huv.2.1.trans hsize, by rw [hparent v huv.2.1, huv.2.2]⟩

/-- Newer numbers are no ancestors of older ones. -/
theorem anc_shrink (hparent : ∀ v, v ≤ size → parent' v = parent v)
    (hlt : ∀ v, 1 < v → v ≤ size → parent v < v) (h : Anc size' parent' a b) (hb : b ≤ size) :
    Anc size parent a b := by
  induction h with
  | refl => exact .refl a
  | @tail b c _ hbc ih =>
    obtain ⟨h1, -, rfl⟩ := hbc
    rw [hparent c hb] at ih
    have hless := hlt c h1 hb
    exact (ih (by omega)).trans (.of_parent h1 hb)

end Ancestors

section Search
variable {successors : List (List Nat)} {root : Nat} {state : Numbering}

def Numbering.size (state : Numbering) : Nat := state.vertex.length - 1

/-- Ancestors in the tree found so far. -/
abbrev Numbering.Anc (state : Numbering) (a b : Nat) : Prop :=
  Graph.Anc state.size state.parent a b

/-- What holds of the search at every step. -/
structure Searching (successors : List (List Nat)) (root : Nat) (state : Numbering) : Prop where
  root_number : state.number root = 1
  length_pos : 1 < state.vertex.length
  number_lt : ∀ v, state.number v < state.vertex.length
  vertex_number : ∀ v, state.number v ≠ 0 → state.vertex[state.number v]? = some v
  number_vertex : ∀ i v, i ≠ 0 → state.vertex[i]? = some v → state.number v = i
  block_lt : ∀ v, state.number v ≠ 0 → v < successors.length
  parent_pos : ∀ i, 1 < i → i ≤ state.size → 1 ≤ state.parent i
  parent_lt : ∀ i, 1 < i → i ≤ state.size → state.parent i < i
  parent_edge : ∀ i, 1 < i → i ≤ state.size → ∃ u v, Edge successors u v ∧
    state.number u = state.parent i ∧ state.number v = i
  forward : ∀ u v, Edge successors u v → state.number u ≠ 0 →
    state.number u < state.number v → state.Anc (state.number u) (state.number v)
  interval : ∀ a b c, state.Anc a b → a ≤ c → c ≤ b → state.Anc a c
  reached : ∀ v, state.number v ≠ 0 → Reach successors root v
  stack_number : ∀ f ∈ state.stack, state.number f.1 ≠ 0
  stack_anc : state.stack.Pairwise fun f g => state.Anc (state.number g.1) (state.number f.1)
  stack_below : ∀ f ∈ state.stack, ∀ i ≤ state.size, state.number f.1 ≤ i →
    state.Anc (state.number f.1) i
  stack_edge : ∀ f ∈ state.stack, ∀ v ∈ f.2, Edge successors f.1 v
  stack_rest : ∀ f ∈ state.stack, ∀ v, Edge successors f.1 v → v ∈ f.2 ∨ state.number v ≠ 0
  finished : ∀ u, state.number u ≠ 0 → (∀ f ∈ state.stack, f.1 ≠ u) →
    ∀ v, Edge successors u v → state.number v ≠ 0

theorem Searching.start (hroot : root < successors.length) :
    Searching successors root (.start successors root) where
  root_number := by simp [Numbering.start]
  length_pos := by simp [Numbering.start]
  number_lt v := by
    simp only [Numbering.start, Function.update_apply]
    split <;> simp
  vertex_number v hv := by
    by_cases h : v = root
    · simp [Numbering.start, h]
    · simp [Numbering.start, Function.update_of_ne h] at hv
  number_vertex i v hi hv := by
    match i, hi with
    | 1, _ =>
      simp only [Numbering.start, List.getElem?_cons_succ, List.getElem?_cons_zero,
        Option.some.injEq] at hv
      simp [Numbering.start, hv]
    | i + 2, _ => simp [Numbering.start] at hv
  block_lt v hv := by
    by_cases h : v = root
    · exact h ▸ hroot
    · simp [Numbering.start, Function.update_of_ne h] at hv
  parent_pos i h1 hi := by simp [Numbering.start, Numbering.size] at hi; omega
  parent_lt i h1 hi := by simp [Numbering.start, Numbering.size] at hi; omega
  parent_edge i h1 hi := by simp [Numbering.start, Numbering.size] at hi; omega
  forward u v _ hu hlt := by
    simp only [Numbering.start, Function.update_apply] at hu hlt
    split at hu
    · split at hlt <;> split at hlt <;> omega
    · exact absurd rfl hu
  interval a b c h hac hcb := by
    have hab : a = b := by
      rcases ReflTransGen.cases_tail h with heq | ⟨x, -, h1, hb, -⟩
      · exact heq.symm
      · simp [Numbering.start, Numbering.size] at hb
        omega
    have : c = a := by omega
    exact this ▸ .refl c
  reached v hv := by
    by_cases h : v = root
    · exact h ▸ .refl v
    · simp [Numbering.start, Function.update_of_ne h] at hv
  stack_number f hf := by
    simp only [Numbering.start, List.mem_singleton] at hf
    simp [hf, Numbering.start]
  stack_anc := by simp [Numbering.start]
  stack_below f hf i hi hle := by
    simp only [Numbering.start, List.mem_singleton] at hf
    subst hf
    simp only [Numbering.start, Function.update_self, Numbering.size] at hi hle ⊢
    obtain rfl : i = 1 := by
      simp at hi
      omega
    exact .refl 1
  stack_edge f hf v hv := by
    simp only [Numbering.start, List.mem_singleton] at hf
    subst hf
    exact hv
  stack_rest f hf v hv := by
    simp only [Numbering.start, List.mem_singleton] at hf
    subst hf
    exact .inl hv
  finished u hu hstack v _ := by
    by_cases h : u = root
    · exact absurd h.symm (hstack (root, succ successors root) (by simp [Numbering.start]))
    · simp [Numbering.start, Function.update_of_ne h] at hu

/-- A block whose successors are all looked at leaves the stack. -/
theorem Searching.pop (h : Searching successors root state) {block : Nat}
    {stack : List (Nat × List Nat)} (hstack : state.stack = (block, []) :: stack) :
    Searching successors root { state with stack } :=
  have hmem : ∀ f ∈ stack, f ∈ state.stack := fun f hf => hstack ▸ List.mem_cons_of_mem _ hf
  { h with
    stack_number := fun f hf => h.stack_number f (hmem f hf)
    stack_anc := (List.pairwise_cons.mp (hstack ▸ h.stack_anc)).2
    stack_below := fun f hf => h.stack_below f (hmem f hf)
    stack_edge := fun f hf => h.stack_edge f (hmem f hf)
    stack_rest := fun f hf => h.stack_rest f (hmem f hf)
    finished := by
      intro u hu hnot v hv
      by_cases hblock : block = u
      · subst hblock
        have hrest := h.stack_rest (block, []) (hstack ▸ List.mem_cons_self ..) v hv
        simpa using hrest
      · refine h.finished u hu (fun f hf => ?_) v hv
        rcases List.mem_cons.mp (hstack ▸ hf) with rfl | hf
        · exact hblock
        · exact hnot f hf }

/-- A successor that has a number is passed over. -/
theorem Searching.skip (h : Searching successors root state) {block successor : Nat}
    {rest : List Nat} {stack : List (Nat × List Nat)}
    (hstack : state.stack = (block, successor :: rest) :: stack)
    (hnumber : state.number successor ≠ 0) :
    Searching successors root { state with stack := (block, rest) :: stack } := by
  have htop : (block, successor :: rest) ∈ state.stack := hstack ▸ List.mem_cons_self ..
  have hmem : ∀ f ∈ stack, f ∈ state.stack := fun f hf => hstack ▸ List.mem_cons_of_mem _ hf
  have hpairwise := hstack ▸ h.stack_anc
  exact { h with
    stack_number := by
      intro f hf
      rcases List.mem_cons.mp hf with rfl | hf
      · exact h.stack_number (block, successor :: rest) htop
      · exact h.stack_number f (hmem f hf)
    stack_anc := List.pairwise_cons.mpr (List.pairwise_cons.mp hpairwise)
    stack_below := by
      intro f hf
      rcases List.mem_cons.mp hf with rfl | hf
      · exact h.stack_below (block, successor :: rest) htop
      · exact h.stack_below f (hmem f hf)
    stack_edge := by
      intro f hf v hv
      rcases List.mem_cons.mp hf with rfl | hf
      · exact h.stack_edge _ htop v (List.mem_cons_of_mem _ hv)
      · exact h.stack_edge f (hmem f hf) v hv
    stack_rest := by
      intro f hf v hv
      rcases List.mem_cons.mp hf with rfl | hf
      · rcases h.stack_rest _ htop v hv with hv | hv
        · rcases List.mem_cons.mp hv with rfl | hv
          · exact .inr hnumber
          · exact .inl hv
        · exact .inr hv
      · exact h.stack_rest f (hmem f hf) v hv
    finished := by
      intro u hu hnot
      refine h.finished u hu fun f hf => ?_
      rcases List.mem_cons.mp (hstack ▸ hf) with rfl | hf
      · exact hnot (block, rest) (List.mem_cons_self ..)
      · exact hnot f (List.mem_cons_of_mem _ hf) }

/-- The state after a successor without a number. -/
def Numbering.discover (successors : List (List Nat)) (state : Numbering) (block successor : Nat)
    (rest : List Nat) (stack : List (Nat × List Nat)) : Numbering where
  number := Function.update state.number successor state.vertex.length
  vertex := state.vertex ++ [successor]
  parent := Function.update state.parent state.vertex.length (state.number block)
  stack := (successor, succ successors successor) :: (block, rest) :: stack

section Discover
variable {block successor : Nat} {rest : List Nat} {stack : List (Nat × List Nat)}

theorem Searching.discover_size (h : Searching successors root state) :
    (state.discover successors block successor rest stack).size = state.size + 1 := by
  have := h.length_pos
  simp [Numbering.size, Numbering.discover]
  omega

theorem Searching.discover_parent (h : Searching successors root state) (i : Nat)
    (hi : i ≤ state.size) :
    (state.discover successors block successor rest stack).parent i = state.parent i := by
  have := h.length_pos
  unfold Numbering.size at hi
  exact Function.update_of_ne (by omega) _ _

theorem Searching.discover_anc (h : Searching successors root state) {a b : Nat}
    (hanc : state.Anc a b) :
    (state.discover successors block successor rest stack).Anc a b :=
  anc_grow (by rw [h.discover_size]; omega) (h.discover_parent) hanc

theorem Searching.discover_anc_old (h : Searching successors root state) {a b : Nat}
    (hb : b ≤ state.size)
    (hanc : (state.discover successors block successor rest stack).Anc a b) : state.Anc a b :=
  anc_shrink h.discover_parent h.parent_lt hanc hb

theorem discover_parent_new :
    (state.discover successors block successor rest stack).parent state.vertex.length =
      state.number block := by
  simp [Numbering.discover]

/-- The new number is a child of the block on top. -/
theorem Searching.discover_child (h : Searching successors root state) :
    (state.discover successors block successor rest stack).Anc (state.number block)
      state.vertex.length := by
  have hlen := h.length_pos
  have hsize : state.vertex.length ≤
      (state.discover successors block successor rest stack).size := by
    rw [h.discover_size, Numbering.size]
    omega
  have hanc : (state.discover successors block successor rest stack).Anc
      ((state.discover successors block successor rest stack).parent state.vertex.length)
      state.vertex.length := .of_parent hlen hsize
  rwa [discover_parent_new] at hanc

/-- The ancestors of the new number are itself and those of the block on top. -/
theorem Searching.discover_anc_new (h : Searching successors root state) {a : Nat}
    (hanc : (state.discover successors block successor rest stack).Anc a state.vertex.length) :
    a = state.vertex.length ∨ state.Anc a (state.number block) := by
  by_cases hne : a = state.vertex.length
  · exact .inl hne
  · obtain ⟨-, -, hup⟩ := hanc.of_ne hne
    rw [discover_parent_new] at hup
    have hlt := h.number_lt block
    exact .inr (h.discover_anc_old (by unfold Numbering.size; omega) hup)

/-- Every block on the stack is an ancestor of the new number. -/
theorem Searching.stack_discover (h : Searching successors root state)
    (hstack : state.stack = (block, successor :: rest) :: stack) {f : Nat × List Nat}
    (hf : f ∈ state.stack) :
    (state.discover successors block successor rest stack).Anc (state.number f.1)
      state.vertex.length := by
  refine Graph.Anc.trans (h.discover_anc ?_) h.discover_child
  have hpairwise := hstack ▸ h.stack_anc
  rcases List.mem_cons.mp (hstack ▸ hf) with rfl | hf
  · exact .refl _
  · exact (List.pairwise_cons.mp hpairwise).1 f hf

theorem discover_number_new :
    (state.discover successors block successor rest stack).number successor =
      state.vertex.length := by
  simp [Numbering.discover]

theorem discover_number_old {v : Nat} (hv : v ≠ successor) :
    (state.discover successors block successor rest stack).number v = state.number v :=
  Function.update_of_ne hv _ _

/-- The numbers of the blocks that had one are kept. -/
theorem discover_number_kept (hnumber : state.number successor = 0) {v : Nat}
    (hv : state.number v ≠ 0) :
    (state.discover successors block successor rest stack).number v = state.number v :=
  discover_number_old (by rintro rfl; exact hv hnumber)

/-- A block with a number had it before or is the new one. -/
theorem discover_numbered {v : Nat}
    (hv : (state.discover successors block successor rest stack).number v ≠ 0) :
    v = successor ∨ state.number v ≠ 0 := by
  by_cases hvs : v = successor
  · exact .inl hvs
  · rw [discover_number_old hvs] at hv
    exact .inr hv

theorem discover_numbered_iff (h : Searching successors root state) {v : Nat} :
    (state.discover successors block successor rest stack).number v ≠ 0 ↔
      v = successor ∨ state.number v ≠ 0 := by
  refine ⟨discover_numbered, ?_⟩
  have hlen := h.length_pos
  rintro (rfl | hv)
  · rw [discover_number_new]
    omega
  · by_cases hvs : v = successor
    · rw [hvs, discover_number_new]
      omega
    · rwa [discover_number_old hvs]

/-- The intervals of the grown tree. -/
theorem Searching.discover_interval (h : Searching successors root state)
    (hstack : state.stack = (block, successor :: rest) :: stack) {a b c : Nat}
    (hab : (state.discover successors block successor rest stack).Anc a b) (hac : a ≤ c)
    (hcb : c ≤ b) : (state.discover successors block successor rest stack).Anc a c := by
  have hlen := h.length_pos
  have hlast : state.size + 1 = state.vertex.length := by
    unfold Numbering.size
    omega
  by_cases hb : b ≤ state.size
  · exact h.discover_anc (h.interval a b c (h.discover_anc_old hb hab) hac hcb)
  · -- the only newer number is the new one
    have hb' : b = state.vertex.length ∨ a = b := by
      by_cases hne : a = b
      · exact .inr hne
      · have hsize := (hab.of_ne hne).2.1
        rw [h.discover_size] at hsize
        omega
    rcases hb' with rfl | rfl
    · rcases h.discover_anc_new hab with rfl | htop
      · obtain rfl : c = state.vertex.length := by omega
        exact .refl _
      · by_cases hc : c = state.vertex.length
        · exact hc ▸ hab
        · refine h.discover_anc ?_
          by_cases hle : c ≤ state.number block
          · exact h.interval a _ c htop hac hle
          · exact htop.trans (h.stack_below (block, successor :: rest)
              (hstack ▸ List.mem_cons_self ..) c (by omega) (by dsimp only; omega))
    · obtain rfl : c = a := by omega
      exact .refl _

/-- A block that has a number and a successor without one is on the stack. -/
theorem Searching.on_stack (h : Searching successors root state) {u v : Nat}
    (hu : state.number u ≠ 0) (hv : state.number v = 0) (huv : Edge successors u v) :
    ∃ f ∈ state.stack, f.1 = u := by
  by_contra hno
  simp only [not_exists, not_and] at hno
  exact h.finished u hu hno v huv hv

theorem Searching.discover (h : Searching successors root state)
    (hrange : InRange successors)
    (hstack : state.stack = (block, successor :: rest) :: stack)
    (hnumber : state.number successor = 0) :
    Searching successors root (state.discover successors block successor rest stack) := by
  have hlen := h.length_pos
  have hlast : state.size + 1 = state.vertex.length := by
    unfold Numbering.size
    omega
  have htop : (block, successor :: rest) ∈ state.stack := hstack ▸ List.mem_cons_self ..
  have hmem : ∀ f ∈ stack, f ∈ state.stack := fun f hf => hstack ▸ List.mem_cons_of_mem _ hf
  have hblock : state.number block ≠ 0 := h.stack_number _ htop
  have hedge : Edge successors block successor :=
    h.stack_edge _ htop successor (List.mem_cons_self ..)
  have hkept : ∀ f ∈ state.stack,
      (state.discover successors block successor rest stack).number f.1 = state.number f.1 :=
    fun f hf => discover_number_kept hnumber (h.stack_number f hf)
  -- the frames of the new stack, by the frames of the old one
  have hframes : ∀ f ∈ (state.discover successors block successor rest stack).stack,
      f = (successor, succ successors successor) ∨ ∃ g ∈ state.stack, g.1 = f.1 ∧
        (g = f ∨ g = (block, successor :: rest) ∧ f.2 = rest) := by
    intro f hf
    rcases List.mem_cons.mp hf with rfl | hf
    · exact .inl rfl
    · rcases List.mem_cons.mp hf with rfl | hf
      · exact .inr ⟨_, htop, rfl, .inr ⟨rfl, rfl⟩⟩
      · exact .inr ⟨f, hmem f hf, rfl, .inl rfl⟩
  refine ⟨?_, ?_, ?_, ?_, ?_, ?_, ?_, ?_, ?_, ?_, ?_, ?_, ?_, ?_, ?_, ?_, ?_, ?_⟩
  · rw [discover_number_kept hnumber (by simp [h.root_number]), h.root_number]
  · simp only [Numbering.discover, List.length_append, List.length_singleton]
    omega
  · intro v
    have := h.number_lt v
    simp only [Numbering.discover, Function.update_apply, List.length_append,
      List.length_singleton]
    split <;> omega
  · intro v hv
    rcases discover_numbered hv with rfl | hv
    · rw [discover_number_new]
      simp [Numbering.discover]
    · rw [discover_number_kept hnumber hv]
      exact List.getElem?_append_left (h.number_lt v) ▸ h.vertex_number v hv
  · intro i v hi hv
    simp only [Numbering.discover] at hv
    by_cases hnew : i < state.vertex.length
    · rw [List.getElem?_append_left hnew] at hv
      have hold := h.number_vertex i v hi hv
      rw [discover_number_kept hnumber (by omega), hold]
    · have hi' : i = state.vertex.length := by
        have := (List.getElem?_eq_some_iff.mp hv).1
        simp only [List.length_append, List.length_singleton] at this
        omega
      subst hi'
      simp only [List.getElem?_concat_length, Option.some.injEq] at hv
      rw [← hv, discover_number_new]
  · intro v hv
    rcases discover_numbered hv with rfl | hv
    · exact hrange block v hedge
    · exact h.block_lt v hv
  · intro i h1 hi
    rw [h.discover_size] at hi
    by_cases hnew : i ≤ state.size
    · rw [h.discover_parent i hnew]
      exact h.parent_pos i h1 hnew
    · obtain rfl : i = state.vertex.length := by omega
      rw [discover_parent_new]
      omega
  · intro i h1 hi
    rw [h.discover_size] at hi
    by_cases hnew : i ≤ state.size
    · rw [h.discover_parent i hnew]
      exact h.parent_lt i h1 hnew
    · obtain rfl : i = state.vertex.length := by omega
      rw [discover_parent_new]
      exact h.number_lt block
  · intro i h1 hi
    rw [h.discover_size] at hi
    by_cases hnew : i ≤ state.size
    · obtain ⟨u, v, huv, hu, hv⟩ := h.parent_edge i h1 hnew
      have := h.parent_pos i h1 hnew
      refine ⟨u, v, huv, ?_, ?_⟩
      · rw [discover_number_kept hnumber (by omega), h.discover_parent i hnew, hu]
      · rw [discover_number_kept hnumber (by omega), hv]
    · obtain rfl : i = state.vertex.length := by omega
      refine ⟨block, successor, hedge, ?_, discover_number_new⟩
      rw [discover_number_kept hnumber hblock, discover_parent_new]
  · intro u v huv hu hlt
    rcases discover_numbered hu with rfl | hold
    · -- nothing is greater than the new number
      rw [discover_number_new] at hlt
      by_cases hvs : v = u
      · rw [hvs, discover_number_new] at hlt
        omega
      · rw [discover_number_old hvs] at hlt
        have := h.number_lt v
        omega
    · rw [discover_number_kept hnumber hold] at hlt ⊢
      by_cases hvs : v = successor
      · subst hvs
        rw [discover_number_new]
        obtain ⟨f, hf, rfl⟩ := h.on_stack hold hnumber huv
        exact h.stack_discover hstack hf
      · rw [discover_number_old hvs] at hlt ⊢
        exact h.discover_anc (h.forward u v huv hold hlt)
  · exact fun a b c => h.discover_interval hstack
  · intro v hv
    rcases discover_numbered hv with rfl | hv
    · exact (h.reached block hblock).trans (.of_edge hedge)
    · exact h.reached v hv
  · intro f hf
    rcases hframes f hf with rfl | ⟨g, hg, hgf, -⟩
    · exact (discover_numbered_iff h).mpr (.inl rfl)
    · exact (discover_numbered_iff h).mpr (.inr (hgf ▸ h.stack_number g hg))
  · have hpairwise := List.pairwise_cons.mp (hstack ▸ h.stack_anc)
    have hbelow : ∀ f ∈ stack, (state.discover successors block successor rest stack).Anc
        (state.number f.1) (state.number block) := fun f hf => h.discover_anc (hpairwise.1 f hf)
    refine List.pairwise_cons.mpr ⟨fun f hf => ?_, List.pairwise_cons.mpr ⟨fun f hf => ?_, ?_⟩⟩
    · rw [discover_number_new]
      rcases List.mem_cons.mp hf with rfl | hf
      · rw [discover_number_kept hnumber hblock]
        exact h.discover_child
      · rw [hkept f (hmem f hf)]
        exact h.stack_discover hstack (hmem f hf)
    · rw [hkept f (hmem f hf), discover_number_kept hnumber hblock]
      exact hbelow f hf
    · refine hpairwise.2.imp_of_mem fun {f g} hf hg hfg => ?_
      rw [hkept f (hmem f hf), hkept g (hmem g hg)]
      exact h.discover_anc hfg
  · intro f hf i hi hle
    rw [h.discover_size] at hi
    rcases hframes f hf with rfl | ⟨g, hg, hgf, -⟩
    · rw [discover_number_new] at hle ⊢
      obtain rfl : i = state.vertex.length := by omega
      exact .refl _
    · rw [← hgf, hkept g hg] at hle ⊢
      by_cases hnew : i ≤ state.size
      · exact h.discover_anc (h.stack_below g hg i hnew hle)
      · obtain rfl : i = state.vertex.length := by omega
        exact h.stack_discover hstack hg
  · intro f hf v hv
    rcases hframes f hf with rfl | ⟨g, hg, hgf, rfl | ⟨rfl, hrest⟩⟩
    · exact hv
    · exact h.stack_edge g hg v hv
    · rw [hrest] at hv
      rw [← hgf]
      exact h.stack_edge _ hg v (List.mem_cons_of_mem _ hv)
  · intro f hf v hv
    rw [discover_numbered_iff h]
    rcases hframes f hf with rfl | ⟨g, hg, hgf, rfl | ⟨rfl, hrest⟩⟩
    · exact .inl hv
    · rcases h.stack_rest g hg v hv with hv | hv
      · exact .inl hv
      · exact .inr (.inr hv)
    · rw [← hgf] at hv
      rcases h.stack_rest _ hg v hv with hv | hv
      · rcases List.mem_cons.mp hv with rfl | hv
        · exact .inr (.inl rfl)
        · exact .inl (hrest ▸ hv)
      · exact .inr (.inr hv)
  · intro u hu hnot v huv
    rw [discover_numbered_iff h]
    rcases discover_numbered hu with rfl | hu
    · exact absurd rfl (hnot (u, succ successors u) (List.mem_cons_self ..))
    · refine .inr (h.finished u hu (fun f hf => ?_) v huv)
      rcases List.mem_cons.mp (hstack ▸ hf) with rfl | hf
      · exact hnot (block, rest) (List.mem_cons_of_mem _ (List.mem_cons_self ..))
      · exact hnot f (List.mem_cons_of_mem _ (List.mem_cons_of_mem _ hf))

end Discover

/-! ## The whole search -/

theorem Searching.step (h : Searching successors root state) (hrange : InRange successors) :
    Searching successors root (state.step successors) := by
  unfold Numbering.step
  split
  · exact h
  · rename_i hstack
    exact h.pop hstack
  · rename_i hstack
    split
    · rename_i hnumber
      exact h.discover hrange hstack hnumber
    · rename_i hnumber
      exact h.skip hstack hnumber

theorem Searching.run (h : Searching successors root state) (hrange : InRange successors)
    (fuel : Nat) : Searching successors root (state.run successors fuel) := by
  induction fuel generalizing state with
  | zero => exact h
  | succ fuel ih => exact ih (h.step hrange)

/-- The steps of the blocks without a number. -/
def unseenWork (successors : List (List Nat)) (number : Nat → Nat) : Nat :=
  ∑ v ∈ (Finset.range successors.length).filter fun v => number v = 0,
    ((succ successors v).length + 1)

/-- The steps that are left. -/
def Numbering.work (successors : List (List Nat)) (state : Numbering) : Nat :=
  (state.stack.map fun f => f.2.length + 1).sum + unseenWork successors state.number

theorem unseenWork_update (number : Nat → Nat) {v i : Nat} (hv : v < successors.length)
    (hnumber : number v = 0) (hi : i ≠ 0) :
    unseenWork successors (Function.update number v i) + ((succ successors v).length + 1) =
      unseenWork successors number := by
  unfold unseenWork
  have hmem : v ∈ (Finset.range successors.length).filter fun v => number v = 0 := by
    simp [hv, hnumber]
  rw [← Finset.sum_erase_add _ _ hmem]
  congr 1
  refine Finset.sum_congr ?_ fun _ _ => rfl
  ext u
  simp only [Finset.mem_filter, Finset.mem_range, Function.update_apply, Finset.mem_erase]
  by_cases huv : u = v
  · simp [huv, hi]
  · simp [huv]

theorem Searching.step_work (h : Searching successors root state) (hrange : InRange successors)
    (hstack : state.stack ≠ []) :
    (state.step successors).work successors + 1 = state.work successors := by
  unfold Numbering.step
  split
  · contradiction
  · rename_i hstack
    simp only [Numbering.work, hstack, List.map_cons, List.sum_cons, List.length_nil]
    omega
  · rename_i block successor rest stack hstack
    have hedge := h.stack_edge (block, successor :: rest) (hstack ▸ List.mem_cons_self ..)
      successor (List.mem_cons_self ..)
    split
    · rename_i hnumber
      have hpos := h.length_pos
      have hupdate := unseenWork_update state.number (hrange _ _ hedge) hnumber
        (show state.vertex.length ≠ 0 by omega)
      simp only [Numbering.work, hstack, List.map_cons, List.sum_cons, List.length_cons]
      omega
    · simp only [Numbering.work, hstack, List.map_cons, List.sum_cons, List.length_cons]
      omega

theorem run_of_nil (hstack : state.stack = []) (fuel : Nat) :
    state.run successors fuel = state := by
  induction fuel with
  | zero => rfl
  | succ fuel ih =>
    have hstep : state.step successors = state := by
      unfold Numbering.step
      rw [hstack]
    rw [Numbering.run, hstep, ih]

theorem Searching.run_done (h : Searching successors root state) (hrange : InRange successors)
    {fuel : Nat} (hfuel : state.work successors ≤ fuel) :
    (state.run successors fuel).stack = [] := by
  induction fuel generalizing state with
  | zero =>
    by_contra hne
    obtain ⟨f, stack, hstack⟩ := List.exists_cons_of_ne_nil hne
    simp only [Numbering.run] at hstack
    simp only [Numbering.work, hstack, List.map_cons, List.sum_cons] at hfuel
    omega
  | succ fuel ih =>
    by_cases hstack : state.stack = []
    · rw [run_of_nil hstack, hstack]
    · have := h.step_work hrange hstack
      exact ih (h.step hrange) (by omega)

theorem map_succ_range (successors : List (List Nat)) :
    (List.range successors.length).map (succ successors) = successors := by
  refine List.ext_getElem (by simp) fun i hi hi' => ?_
  simp [succ, hi']

theorem start_work (hroot : root < successors.length) :
    (Numbering.start successors root).work successors =
      (successors.map fun outgoing => outgoing.length + 1).sum := by
  have hall : unseenWork successors (fun _ => 0) =
      (successors.map fun outgoing => outgoing.length + 1).sum := by
    rw [unseenWork, Finset.filter_true_of_mem (by simp)]
    conv_rhs => rw [← map_succ_range successors, List.map_map]
    rfl
  have hupdate := unseenWork_update (fun _ => 0) hroot rfl Nat.one_ne_zero
  simp only [Numbering.work, Numbering.start, List.map_cons, List.map_nil, List.sum_cons,
    List.sum_nil]
  omega

/-- The search ends, with a number for every block it can reach. -/
theorem numberBlocks_searching (hrange : InRange successors) (hroot : root < successors.length) :
    Searching successors root (numberBlocks successors root) ∧
      (numberBlocks successors root).stack = [] := by
  have hstart : Searching successors root (.start successors root) := .start hroot
  exact ⟨hstart.run hrange _, hstart.run_done hrange (start_work hroot).le⟩

theorem Searching.number_of_reach (h : Searching successors root state) (hstack : state.stack = [])
    {v : Nat} (hv : Reach successors root v) : state.number v ≠ 0 := by
  refine Reach.closed (fun u hu v huv => h.finished u hu ?_ v huv) hv (by simp [h.root_number])
  simp [hstack]

/-- Edges between the numbers of blocks. -/
def NumberEdge (successors : List (List Nat)) (number : Nat → Nat) (i j : Nat) : Prop :=
  ∃ u v, Edge successors u v ∧ number u = i ∧ number v = j ∧ i ≠ 0 ∧ j ≠ 0

theorem Searching.dfsTree (h : Searching successors root state) :
    DfsTree state.size (NumberEdge successors state.number) state.parent where
  range := by
    rintro i j ⟨u, v, -, rfl, rfl, hi, hj⟩
    have := h.number_lt u
    have := h.number_lt v
    unfold Numbering.size
    omega
  parent_pos := h.parent_pos
  parent_lt := h.parent_lt
  parent_edge := by
    intro i h1 hi
    obtain ⟨u, v, huv, hu, hv⟩ := h.parent_edge i h1 hi
    have := h.parent_pos i h1 hi
    exact ⟨u, v, huv, hu, hv, by omega, by omega⟩
  forward := by
    rintro i j ⟨u, v, huv, rfl, rfl, hi, -⟩ hlt
    exact h.forward u v huv hi hlt
  interval := h.interval

end Search

/-! ## The computed immediate dominators

On every graph whose edges stay in range the computation succeeds; the blocks the root reaches
have their immediate dominators, all others none. -/

section Immediate
variable {successors : List (List Nat)} {root : Nat} {state : Numbering}

/-! ## Validation -/

theorem outOfRangeEdge_eq_none : outOfRangeEdge successors = none ↔ InRange successors := by
  unfold outOfRangeEdge InRange
  rw [List.findSome?_eq_none_iff]
  constructor
  · intro h u v hv
    unfold succ at hv
    cases hu : successors[u]? with
    | none => simp [hu] at hv
    | some outgoing =>
      have hfind := h (outgoing, u) (List.mk_mem_zipIdx_iff_getElem?.mpr hu)
      have hv' : v ∈ outgoing := by simpa [hu] using hv
      simp only [Option.map_eq_none_iff, List.find?_eq_none, decide_eq_true_eq, not_le] at hfind
      exact hfind v hv'
  · rintro h ⟨outgoing, u⟩ hmem
    have hu := List.mk_mem_zipIdx_iff_getElem?.mp hmem
    simp only [Option.map_eq_none_iff, List.find?_eq_none, decide_eq_true_eq, not_le]
    intro v hv
    exact h u v (by simpa [succ, hu] using hv)

theorem validateEdges_eq_ok :
    validateEdges successors root = .ok () ↔ root < successors.length ∧ InRange successors := by
  unfold validateEdges
  split
  · rename_i hnil
    simp [hnil]
  · split
    · rename_i hroot
      simp only [reduceCtorEq, false_iff, not_and]
      omega
    · rename_i hroot
      rw [← outOfRangeEdge_eq_none]
      split
      · rename_i hsome
        simp [hsome]
      · rename_i hnone
        simp only [hnone, and_true, true_iff]
        omega

/-! ## From numbers to blocks -/

theorem Searching.number_root (h : Searching successors root state) {v : Nat}
    (hv : state.number v = 1) : v = root := by
  have hv' := h.vertex_number v (by omega)
  have hroot := h.vertex_number root (by rw [h.root_number]; decide)
  rw [hv] at hv'
  rw [h.root_number, hv'] at hroot
  exact Option.some.inj hroot

theorem Searching.number_inj (h : Searching successors root state) {u v : Nat}
    (hu : state.number u ≠ 0) (huv : state.number u = state.number v) : u = v := by
  have hu' := h.vertex_number u hu
  have hv' := h.vertex_number v (huv ▸ hu)
  rw [huv, hv'] at hu'
  exact (Option.some.inj hu').symm

/-- Walks of blocks from the root are walks of their numbers. -/
theorem Searching.avoids_iff (h : Searching successors root state) (hstack : state.stack = [])
    (d b : Nat) :
    Avoids (NumberEdge successors state.number) (state.number d) 1 (state.number b) ↔
      Avoids (Edge successors) d root b := by
  have hroot : 1 ≠ state.number d ↔ root ≠ d := by
    rw [← h.root_number]
    refine not_congr ⟨fun heq => ?_, fun heq => heq ▸ rfl⟩
    exact h.number_inj (by rw [h.root_number]; decide) heq
  refine and_congr hroot ⟨fun hwalk => ?_, fun hwalk => ?_⟩
  · have hback : ∀ i, ReflTransGen
        (fun u v => NumberEdge successors state.number u v ∧ v ≠ state.number d) 1 i →
        ∀ v, state.number v = i →
          ReflTransGen (fun u v => Edge successors u v ∧ v ≠ d) root v := by
      intro i hi
      induction hi with
      | refl =>
        intro v hv
        rw [h.number_root hv]
      | @tail i j _ hij ih =>
        obtain ⟨⟨u, w, huw, hu, hw, -, hj⟩, hne⟩ := hij
        intro v hv
        obtain rfl := h.number_inj (by rw [hw]; exact hj) (hw.trans hv.symm)
        exact (ih u hu).tail ⟨huw, fun heq => hne (heq ▸ hw.symm)⟩
    exact hback _ hwalk b rfl
  · have hforth : ∀ v, ReflTransGen (fun u v => Edge successors u v ∧ v ≠ d) root v →
        state.number v ≠ 0 ∧ ReflTransGen
          (fun u v => NumberEdge successors state.number u v ∧ v ≠ state.number d) 1
          (state.number v) := by
      intro v hv
      induction hv with
      | refl => exact ⟨by rw [h.root_number]; decide, by rw [h.root_number]⟩
      | @tail u v hu huv ih =>
        have hreach : Reach successors root v :=
          ReflTransGen.tail (walk_imp hu fun _ _ huv => huv.1) huv.1
        have hv := h.number_of_reach hstack hreach
        refine ⟨hv, ih.2.tail ⟨⟨u, v, huv.1, rfl, rfl, ih.1, hv⟩, fun heq => huv.2 ?_⟩⟩
        exact h.number_inj hv heq
    exact (hforth b hwalk).2

theorem Searching.isIdom (h : Searching successors root state) (hstack : state.stack = [])
    {d b : Nat} (hb : state.number b ≠ 0)
    (hidom : IsIdom (NumberEdge successors state.number) 1 (state.number d) (state.number b)) :
    IsIdom (Edge successors) root d b := by
  refine ⟨fun heq => hidom.ne (heq ▸ rfl), ?_, fun e hne hdom => ?_⟩
  · rw [Dom, ← h.avoids_iff hstack]
    exact hidom.dom
  · -- a dominator of a numbered block has a number
    have he : state.number e ≠ 0 := h.number_of_reach hstack (hdom.reach (h.reached b hb))
    rw [Dom, ← h.avoids_iff hstack]
    refine hidom.least _ (fun heq => hne (h.number_inj he heq)) ?_
    rw [Dom, h.avoids_iff hstack]
    exact hdom

theorem Searching.mem_numberedPredecessors (h : Searching successors root state) {w p : Nat}
    (hw : 1 ≤ w) : p ∈ numberedPredecessors successors state.number w ↔
      NumberEdge successors state.number p w := by
  unfold numberedPredecessors NumberEdge
  rw [List.mem_flatMap]
  constructor
  · rintro ⟨u, -, hp⟩
    split at hp
    · simp at hp
    · rename_i hu
      obtain ⟨v, hv, rfl⟩ := List.mem_map.mp hp
      rw [List.mem_filter, decide_eq_true_eq] at hv
      exact ⟨u, v, hv.1, rfl, hv.2, hu, by omega⟩
  · rintro ⟨u, v, huv, rfl, hv, hu, -⟩
    refine ⟨u, List.mem_range.mpr (h.block_lt u hu), ?_⟩
    rw [if_neg hu]
    refine List.mem_map.mpr ⟨v, List.mem_filter.mpr ⟨huv, ?_⟩, rfl⟩
    rwa [decide_eq_true_eq]

/-! ## Recording -/

/-- The table once the blocks with numbers below `first` are recorded. -/
structure Recorded (successors : List (List Nat)) (root : Nat) (state : Numbering) (first : Nat)
    (result : List (Option Nat)) : Prop where
  length : result.length = successors.length
  idom : ∀ b, 1 < state.number b → state.number b < first →
    ∃ d, result[b]? = some (some d) ∧ IsIdom (Edge successors) root d b
  none : ∀ b < successors.length, ¬ (1 < state.number b ∧ state.number b < first) →
    result[b]? = some none

theorem idom_range {size : Nat} {E : Nat → Nat → Prop} {parent : Nat → Nat} {d v : Nat}
    (t : DfsTree size E parent) (h : IsIdom E 1 d v) (h1 : 1 < v) (hv : v ≤ size) :
    1 ≤ d ∧ d < v := by
  have hanc := t.dom_anc h.dom (by omega) hv
  refine ⟨?_, lt_of_le_of_ne (t.anc_le hanc) h.ne⟩
  by_contra hzero
  refine h.dom ⟨by omega, walk_imp (t.anc_walk (t.root_anc (by omega) hv)).1 ?_⟩
  exact fun _ _ huv => ⟨huv.1, by omega⟩

theorem Recorded.step (h : Searching successors root state) (hstack : state.stack = [])
    {idom : Nat → Nat} {w : Nat} (h1 : 1 < w) (hw : w ≤ state.size)
    (hidom : IsIdom (NumberEdge successors state.number) 1 (idom w) w)
    {result : List (Option Nat)} (hresult : Recorded successors root state w result) :
    ∃ result', recordIdom state.vertex idom result w = .ok result' ∧
      Recorded successors root state (w + 1) result' := by
  obtain ⟨hpos, hlt⟩ := idom_range h.dfsTree hidom h1 hw
  have hsize : state.size = state.vertex.length - 1 := rfl
  have hwlt : w < state.vertex.length := by omega
  have hdlt : idom w < state.vertex.length := by omega
  -- the two blocks with these numbers
  obtain ⟨b, hb⟩ : ∃ b, state.vertex[w]? = some b := ⟨_, List.getElem?_eq_getElem hwlt⟩
  obtain ⟨d, hd⟩ : ∃ d, state.vertex[idom w]? = some d := ⟨_, List.getElem?_eq_getElem hdlt⟩
  have hbw := h.number_vertex w b (by omega) hb
  have hdw := h.number_vertex (idom w) d (by omega) hd
  have hblt := h.block_lt b (by omega)
  have hblock := h.isIdom hstack (d := d) (b := b) (by omega) (by rwa [hbw, hdw])
  unfold recordIdom
  dsimp only
  rw [if_neg (by omega), hb, hd, Option.getD_some]
  refine ⟨_, rfl, ?_, fun c hc1 hc => ?_, fun c hc hno => ?_⟩
  · rw [List.length_set, hresult.length]
  · rcases eq_or_ne b c with rfl | hne
    · refine ⟨d, ?_, hblock⟩
      rw [List.getElem?_set_self (by rw [hresult.length]; exact hblt)]
    · rw [List.getElem?_set_ne hne]
      have hcw : state.number c ≠ w := fun heq => hne (h.number_inj (by omega) (hbw.trans heq.symm))
      exact hresult.idom c hc1 (by omega)
  · have hne : b ≠ c := by
      rintro rfl
      exact hno (by omega)
    rw [List.getElem?_set_ne hne]
    exact hresult.none c hc (by omega)

theorem Recorded.foldlM (h : Searching successors root state) (hstack : state.stack = [])
    {idom : Nat → Nat} (hidom : ∀ w, 1 < w → w < state.size + 1 →
      IsIdom (NumberEdge successors state.number) 1 (idom w) w)
    (count : Nat) {first : Nat} (hfirst : 1 < first) (hsize : first + count ≤ state.size + 1)
    {result : List (Option Nat)} (hresult : Recorded successors root state first result) :
    ∃ result', (List.range' first count).foldlM (recordIdom state.vertex idom) result =
        .ok result' ∧ Recorded successors root state (first + count) result' := by
  induction count generalizing first result with
  | zero => exact ⟨result, rfl, hresult⟩
  | succ count ih =>
    obtain ⟨next, hnext, hrecorded⟩ :=
      hresult.step h hstack hfirst (by omega) (hidom first hfirst (by omega))
    obtain ⟨result', hresult', hall⟩ := ih (by omega) (by omega) hrecorded
    refine ⟨result', ?_, by rwa [show first + (count + 1) = first + 1 + count by omega]⟩
    rw [List.range'_succ, List.foldlM_cons, hnext]
    exact hresult'

/-! ## The computation as a whole -/

/-- The table of immediate dominators of a graph. -/
structure Idoms (successors : List (List Nat)) (root : Nat) (result : List (Option Nat)) :
    Prop where
  length : result.length = successors.length
  idom : ∀ b, Reach successors root b → b ≠ root →
    ∃ d, result[b]? = some (some d) ∧ IsIdom (Edge successors) root d b
  root_none : result[root]? = some none
  unreached : ∀ b < successors.length, ¬ Reach successors root b → result[b]? = some none

theorem lengauerTarjan_idoms (hroot : root < successors.length) (hrange : InRange successors) :
    ∃ result, lengauerTarjan successors root = .ok result ∧ Idoms successors root result := by
  obtain ⟨h, hstack⟩ := numberBlocks_searching hrange hroot
  unfold lengauerTarjan
  rw [validateEdges_eq_ok.mpr ⟨hroot, hrange⟩]
  generalize numberBlocks successors root = state at h hstack
  have hlength := h.length_pos
  have hsize : state.size = state.vertex.length - 1 := rfl
  have hblocks : 2 + (state.vertex.length - 1 - 1) = state.size + 1 := by omega
  have hstart : Processed state.size (NumberEdge successors state.number) state.parent
      (2 + (state.vertex.length - 1 - 1)) .start := by
    rw [hblocks]
    exact .start
  obtain ⟨semis, hsemis, hprocessed⟩ := hstart.foldlM h.dfsTree
    (fun w p hw => h.mem_numberedPredecessors hw) (by omega) _ (by omega)
  obtain ⟨idom, hidom, hall⟩ := correct_foldlM h.dfsTree hprocessed.known.done
    (fun v h1 hv => hprocessed.all_settled h.dfsTree h1 hv) _ (by omega) hblocks.le
    (fun v h1 hv => by omega) (fun _ _ => rfl)
  rw [hblocks] at hall
  have hempty : Recorded successors root state 2
      (List.replicate successors.length none) :=
    ⟨List.length_replicate, fun b h1 hb => by omega, fun b hb _ => by simp [hb]⟩
  obtain ⟨result, hresult, hrecorded⟩ := hempty.foldlM h hstack hall _ (by omega) hblocks.le
  rw [hblocks] at hrecorded
  refine ⟨result, ?_, hrecorded.length, fun b hreach hne => ?_, ?_, fun b hb hreach => ?_⟩
  · simp only [bind, Except.bind, hsemis, hidom]
    exact hresult
  · have hb := h.number_of_reach hstack hreach
    have hb1 : state.number b ≠ 1 := fun heq => hne (h.number_root heq)
    have hlt := h.number_lt b
    exact hrecorded.idom b (by omega) (by omega)
  · refine hrecorded.none root hroot ?_
    rw [h.root_number]
    omega
  · have hzero : state.number b = 0 := by
      by_contra hne
      exact hreach (h.reached b hne)
    exact hrecorded.none b hb (by omega)

example : lengauerTarjan [[1, 2], [3], [3], [1, 4], []] 0 =
    .ok [none, some 0, some 0, some 0, some 3] := by decide +kernel

end Immediate
end Celox.Cfg
