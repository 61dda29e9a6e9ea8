import Celox.Cfg.Frontier

/-! # The reverse postorder

Blocks are listed once each. Where all of them are listed, the walk has ended, and it leaves the
root last. -/
namespace Celox.Cfg
open Celox.Graph

variable {successors : List (List Nat)} {root : Nat} {state : Postorder}

/-- The blocks the walk has left or stands on. -/
def Postorder.entered (state : Postorder) : List Nat :=
  state.postorder ++ (state.stack.map Prod.fst).reverse

/-- The walk stands on the root until it leaves it as the last block. -/
structure Finishing (successors : List (List Nat)) (root : Nat) (state : Postorder) : Prop where
  nodup : state.entered.Nodup
  visited : ∀ b ∈ state.entered, b ∈ state.visited
  range : ∀ b ∈ state.entered, b < successors.length
  rows : ∀ entry ∈ state.stack, ∀ v ∈ entry.2, v < successors.length
  bottom : (state.stack.map Prod.fst).getLast? = some root ∨
    state.stack = [] ∧ state.postorder.getLast? = some root

theorem Finishing.start (hrange : InRange successors) (hroot : root < successors.length) :
    Finishing successors root ⟨[root], [], [(root, succ successors root)]⟩ where
  nodup := List.nodup_singleton root
  visited := fun b hb => hb
  range := fun b hb => by
    obtain rfl := List.mem_singleton.mp hb
    exact hroot
  rows := fun entry hentry v hv => by
    obtain rfl := List.mem_singleton.mp hentry
    exact hrange root v hv
  bottom := .inl rfl

theorem Finishing.step (h : Finishing successors root state) (hrange : InRange successors) :
    Finishing successors root (state.step successors) := by
  unfold Postorder.step
  split
  · exact h
  · rename_i block stack heq
    have hperm : (state.postorder ++ [block] ++ (stack.map Prod.fst).reverse).Perm state.entered := by
      simp only [Postorder.entered, heq, List.map_cons, List.reverse_cons, List.append_assoc]
      exact List.Perm.append_left _ List.perm_append_comm
    refine ⟨hperm.nodup_iff.mpr h.nodup, fun b hb => h.visited b (hperm.mem_iff.mp hb),
      fun b hb => h.range b (hperm.mem_iff.mp hb), fun entry hentry => h.rows entry ?_, ?_⟩
    · rw [heq]
      exact List.mem_cons_of_mem _ hentry
    · rcases h.bottom with hbottom | ⟨hnil, -⟩
      · rw [heq, List.map_cons] at hbottom
        cases stack with
        | nil =>
          right
          refine ⟨rfl, ?_⟩
          rw [List.getLast?_append, List.getLast?_singleton, Option.some_or]
          simpa using hbottom
        | cons next stack =>
          left
          simpa using hbottom
      · rw [heq] at hnil
        cases hnil
  · rename_i block successor rest stack heq
    have hrow : ∀ v ∈ successor :: rest, v < successors.length :=
      h.rows (block, successor :: rest) (heq ▸ List.mem_cons_self)
    have hrows : ∀ entry ∈ stack, ∀ v ∈ entry.2, v < successors.length := fun entry hentry =>
      h.rows entry (heq ▸ List.mem_cons_of_mem _ hentry)
    have hsame : Postorder.entered { state with stack := (block, rest) :: stack } =
        state.entered := by
      simp [Postorder.entered, heq]
    have hbottom : (((block, rest) :: stack).map Prod.fst).getLast? = some root := by
      rcases h.bottom with hbottom | ⟨hnil, -⟩
      · rw [heq] at hbottom
        exact hbottom
      · rw [heq] at hnil
        cases hnil
    split
    · refine ⟨hsame ▸ h.nodup, fun b hb => h.visited b (hsame ▸ hb),
        fun b hb => h.range b (hsame ▸ hb), fun entry hentry => ?_, .inl hbottom⟩
      rcases List.mem_cons.mp hentry with rfl | hentry
      · exact fun v hv => hrow v (List.mem_cons_of_mem _ hv)
      · exact hrows entry hentry
    · rename_i hnew
      have hgrown : Postorder.entered { state with
          visited := state.visited ++ [successor]
          stack := (successor, succ successors successor) :: (block, rest) :: stack } =
            state.entered ++ [successor] := by
        simp [Postorder.entered, heq]
      refine ⟨?_, fun b hb => ?_, fun b hb => ?_, fun entry hentry => ?_, .inl ?_⟩
      · rw [hgrown]
        refine List.nodup_append.mpr ⟨h.nodup, List.nodup_singleton _, fun a ha b hb heq' => hnew ?_⟩
        rw [← List.mem_singleton.mp hb, ← heq']
        exact h.visited a ha
      · rw [hgrown] at hb
        exact List.mem_append.mpr ((List.mem_append.mp hb).imp_left (h.visited b))
      · rw [hgrown] at hb
        rcases List.mem_append.mp hb with hb | hb
        · exact h.range b hb
        · exact List.mem_singleton.mp hb ▸ hrow successor List.mem_cons_self
      · rcases List.mem_cons.mp hentry with rfl | hentry
        · exact fun v hv => hrange successor v hv
        rcases List.mem_cons.mp hentry with rfl | hentry
        · exact fun v hv => hrow v (List.mem_cons_of_mem _ hv)
        · exact hrows entry hentry
      · simpa using hbottom

theorem Finishing.run (h : Finishing successors root state) (hrange : InRange successors)
    (fuel : Nat) : Finishing successors root (state.run successors fuel) := by
  induction fuel generalizing state with
  | zero => exact h
  | succ fuel ih => exact ih (h.step hrange)

/-- With every block in the list, the root is the first one. -/
theorem reversePostorder_ok {order : List Nat} (h : reversePostorder successors root = .ok order) :
    order.Nodup ∧ (∀ b ∈ order, b < successors.length) ∧
      (order.length = successors.length → order.head? = some root) := by
  unfold reversePostorder at h
  simp only [bind, Except.bind] at h
  split at h
  · cases h
  rename_i hvalid
  obtain ⟨hroot, hrange⟩ := validateEdges_eq_ok.mp hvalid
  cases h
  have hdone := (Finishing.start hrange hroot).run hrange
    (successors.map fun outgoing => outgoing.length + 1).sum
  generalize Postorder.run successors _ _ = state at hdone
  have hnodup : state.postorder.Nodup := (List.nodup_append.mp hdone.nodup).1
  have hlt : ∀ b ∈ state.postorder, b < successors.length := fun b hb =>
    hdone.range b (List.mem_append_left _ hb)
  refine ⟨List.nodup_reverse.mpr hnodup, fun b hb => hlt b (List.mem_reverse.mp hb),
    fun hlength => ?_⟩
  rw [List.head?_reverse]
  rcases hdone.bottom with hbottom | ⟨-, hlast⟩
  · -- the walk still stands on the root, which is not listed then
    exfalso
    have hmem : root ∈ (state.stack.map Prod.fst).reverse :=
      List.mem_reverse.mpr (List.mem_of_getLast? hbottom)
    have hnot : root ∉ state.postorder := fun hroot =>
      (List.nodup_append.mp hdone.nodup).2.2 root hroot root hmem rfl
    have hsub : root :: state.postorder ⊆ List.range successors.length := by
      intro b hb
      rcases List.mem_cons.mp hb with rfl | hb
      · exact List.mem_range.mpr hroot
      · exact List.mem_range.mpr (hlt b hb)
    have hle := ((List.nodup_cons.mpr ⟨hnot, hnodup⟩).subperm hsub).length_le
    rw [List.length_reverse] at hlength
    rw [List.length_cons, List.length_range] at hle
    omega
  · exact hlast

end Celox.Cfg
