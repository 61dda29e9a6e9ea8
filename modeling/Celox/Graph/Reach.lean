import Mathlib

/-! # Finite directed graphs by adjacency rows

Nodes are the indices of the rows; `succ adj u` is the row of `u`. -/
namespace Celox.Graph
open Relation

/-- The row of a node; a node without a row has no successor. -/
def succ (adj : List (List Nat)) (u : Nat) : List Nat := adj[u]?.getD []

/-- Every row lists nodes of the graph only. -/
def InRange (adj : List (List Nat)) : Prop := ∀ u, ∀ v ∈ succ adj u, v < adj.length

instance (adj : List (List Nat)) : Decidable (InRange adj) :=
  decidable_of_iff (∀ row ∈ adj, ∀ v ∈ row, v < adj.length) <| by
    constructor
    · intro h u v hv
      unfold succ at hv
      cases hu : adj[u]? with
      | none => simp [hu] at hv
      | some row => exact h row (List.mem_of_getElem? hu) v (by simpa [hu] using hv)
    · intro h row hrow v hv
      obtain ⟨u, hu⟩ := List.getElem?_of_mem hrow
      exact h u v (by simpa [succ, hu] using hv)

def Edge (adj : List (List Nat)) (u v : Nat) : Prop := v ∈ succ adj u

def Reach (adj : List (List Nat)) : Nat → Nat → Prop := ReflTransGen (Edge adj)

/-- Mutual reachability, the relation whose classes are the strong components. -/
def Mutual (adj : List (List Nat)) (u v : Nat) : Prop := Reach adj u v ∧ Reach adj v u

def Cyclic (adj : List (List Nat)) (u : Nat) : Prop := TransGen (Edge adj) u u

def Acyclic (adj : List (List Nat)) : Prop := ∀ u, ¬ Cyclic adj u

variable {adj : List (List Nat)}

theorem Reach.refl (u : Nat) : Reach adj u u := ReflTransGen.refl

theorem Reach.trans {u v w : Nat} (h : Reach adj u v) (h' : Reach adj v w) : Reach adj u w :=
  ReflTransGen.trans h h'

theorem Reach.of_edge {u v : Nat} (h : Edge adj u v) : Reach adj u v := ReflTransGen.single h

/-- A set closed under edges is closed under reachability. -/
theorem Reach.closed {P : Nat → Prop} (h : ∀ u, P u → ∀ v ∈ succ adj u, P v) {u v : Nat}
    (hr : Reach adj u v) (hu : P u) : P v := by
  induction hr with
  | refl => exact hu
  | tail _ he ih => exact h _ ih _ he

theorem Edge.lt_length {u v : Nat} (h : Edge adj u v) : u < adj.length := by
  by_contra hu
  have hnone : adj[u]? = none := List.getElem?_eq_none (by omega)
  simp [Edge, succ, hnone] at h

end Celox.Graph
