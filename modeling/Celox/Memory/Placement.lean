import Mathlib

/-! # Placing items one after the other

A cursor moves over a memory. Each item is placed at the cursor after an alignment and moves the
cursor behind itself; the place of a key is that of its last item. -/
namespace Celox.Memory

section Placement
variable {K I : Type} [DecidableEq K] (key : I → K) (align : I → Nat → Nat) (extent : I → Nat)

def placeOne (state : (K → Option Nat) × Nat) (item : I) : (K → Option Nat) × Nat :=
  let offset := align item state.2
  (Function.update state.1 (key item) (some offset), offset + extent item)

def placeAll (start : Nat) (items : List I) : (K → Option Nat) × Nat :=
  items.foldl (placeOne key align extent) (fun _ => none, start)

/-- Keys lie between the start and the cursor, and apart from each other. -/
structure Placed (size : K → Nat) (start : Nat) (state : (K → Option Nat) × Nat) : Prop where
  start_le : start ≤ state.2
  bounds : ∀ k offset, state.1 k = some offset → start ≤ offset ∧ offset + size k ≤ state.2
  apart : ∀ k k' offset offset', k ≠ k' → state.1 k = some offset → state.1 k' = some offset' →
    offset + size k ≤ offset' ∨ offset' + size k' ≤ offset

variable {key align extent} {size : K → Nat} {start : Nat} {state : (K → Option Nat) × Nat}

theorem Placed.placeOne {item : I} (h : Placed size start state)
    (halign : state.2 ≤ align item state.2) (hsize : extent item = size (key item)) :
    Placed size start (placeOne key align extent state item) := by
  have hstart := h.start_le
  simp only [Memory.placeOne, hsize]
  refine ⟨by dsimp only; omega, fun k offset hk => ?_, fun k k' offset offset' hne hk hk' => ?_⟩
  · dsimp only at hk ⊢
    rw [Function.update_apply] at hk
    split at hk
    · rename_i hkey
      cases hk
      subst hkey
      omega
    · have := h.bounds k offset hk
      omega
  · dsimp only at hk hk'
    rw [Function.update_apply] at hk hk'
    split at hk <;> split at hk'
    · rename_i hkey hkey'
      exact absurd (hkey.trans hkey'.symm) hne
    · cases hk
      have := h.bounds k' offset' hk'
      omega
    · cases hk'
      have := h.bounds k offset hk
      omega
    · exact h.apart k k' offset offset' hne hk hk'

theorem Placed.foldl (items : List I) (h : Placed size start state)
    (halign : ∀ item ∈ items, ∀ cursor, cursor ≤ align item cursor)
    (hsize : ∀ item ∈ items, extent item = size (key item)) :
    Placed size start (items.foldl (Memory.placeOne key align extent) state) := by
  induction items generalizing state with
  | nil => exact h
  | cons item items ih =>
    have hone := h.placeOne (halign item (List.mem_cons_self ..) _)
      (hsize item (List.mem_cons_self ..))
    exact ih hone (fun i hi => halign i (List.mem_cons_of_mem _ hi))
      fun i hi => hsize i (List.mem_cons_of_mem _ hi)

/-- Items that are never aligned downwards are placed apart. -/
theorem placeAll_placed {items : List I}
    (halign : ∀ item ∈ items, ∀ cursor, cursor ≤ align item cursor)
    (hsize : ∀ item ∈ items, extent item = size (key item)) :
    Placed size start (placeAll key align extent start items) :=
  Placed.foldl items ⟨Nat.le_refl start, by simp, by simp⟩ halign hsize

theorem foldl_placeOne_isSome (items : List I) (k : K) :
    ((items.foldl (placeOne key align extent) state).1 k).isSome ↔
      (state.1 k).isSome ∨ k ∈ items.map key := by
  induction items generalizing state with
  | nil => simp
  | cons item items ih =>
    rw [List.foldl_cons, ih]
    simp only [placeOne, Function.update_apply, List.map_cons, List.mem_cons]
    split
    · simp_all
    · simp_all

/-- Exactly the keys of the items have a place. -/
theorem placeAll_isSome (items : List I) (k : K) :
    ((placeAll key align extent start items).1 k).isSome ↔ k ∈ items.map key := by
  simp [placeAll, foldl_placeOne_isSome]

end Placement
end Celox.Memory
