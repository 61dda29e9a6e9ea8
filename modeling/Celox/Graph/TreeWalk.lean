import Mathlib

/-! # Walking a tree with a stack

A walk enters the nodes it has pending, most recent first, and puts the children of each in their
place. However it handles what it leaves, it enters every node of the tree once. -/
namespace Celox.Graph
open Relation

/-- Children rows of a tree on the nodes below `size`. -/
structure IsTree (children : Nat → List Nat) (root size : Nat) : Prop where
  root_lt : root < size
  lt : ∀ d, ∀ c ∈ children d, c < size
  nodup : ∀ d, (children d).Nodup
  unique : ∀ d e c, c ∈ children d → c ∈ children e → d = e
  root_free : ∀ d, root ∉ children d

/-- Nodes entered so far and nodes still to enter. -/
structure Entering (children : Nat → List Nat) (root : Nat) (entered pending : List Nat) :
    Prop where
  nodup : (entered ++ pending).Nodup
  closed : ∀ d ∈ entered, ∀ c ∈ children d, c ∈ entered ++ pending
  origin : ∀ b ∈ entered ++ pending, b = root ∨ ∃ d ∈ entered, b ∈ children d
  root_mem : root ∈ entered ++ pending

section Walk
variable {children : Nat → List Nat} {root size b : Nat} {entered pending : List Nat}

theorem Entering.start : Entering children root [] [root] where
  nodup := by simp
  closed := by simp
  origin := by simp
  root_mem := by simp

theorem Entering.enter (t : IsTree children root size)
    (h : Entering children root entered (b :: pending)) :
    Entering children root (entered ++ [b]) (children b ++ pending) := by
  have hb : b ∉ entered := by
    have := h.nodup
    grind
  -- a child met before would make `b` an entered node
  have hnew : ∀ c ∈ children b, c ∉ entered ++ b :: pending := by
    intro c hc hmem
    rcases h.origin c hmem with rfl | ⟨d, hd, hcd⟩
    · exact t.root_free b hc
    · exact hb (t.unique d b c hcd hc ▸ hd)
  have hperm : (entered ++ [b] ++ (children b ++ pending)).Perm
      (children b ++ (entered ++ b :: pending)) := by
    have hsplit : entered ++ [b] ++ (children b ++ pending) =
        (entered ++ [b]) ++ children b ++ pending := by simp
    have hjoin : children b ++ (entered ++ b :: pending) =
        children b ++ (entered ++ [b]) ++ pending := by simp
    rw [hsplit, hjoin]
    exact (List.perm_append_comm).append_right pending
  have hmem : ∀ c, c ∈ entered ++ [b] ++ (children b ++ pending) ↔
      c ∈ children b ∨ c ∈ entered ++ b :: pending := by
    intro c
    rw [hperm.mem_iff, List.mem_append]
  refine ⟨?_, fun d hd c hc => ?_, fun c hc => ?_, ?_⟩
  · rw [hperm.nodup_iff]
    exact (t.nodup b).append h.nodup fun c hc hc' => hnew c hc hc'
  · rw [hmem]
    rcases List.mem_append.mp hd with hd | hd
    · exact .inr (h.closed d hd c hc)
    · rw [List.mem_singleton.mp hd] at hc
      exact .inl hc
  · rcases (hmem c).mp hc with hc | hc
    · exact .inr ⟨b, by simp, hc⟩
    · rcases h.origin c hc with hroot | ⟨d, hd, hcd⟩
      · exact .inl hroot
      · exact .inr ⟨d, List.mem_append_left _ hd, hcd⟩
  · exact (hmem root).mpr (.inr h.root_mem)

theorem Entering.lt (t : IsTree children root size)
    (h : Entering children root entered pending) (hb : b ∈ entered ++ pending) : b < size := by
  rcases h.origin b hb with rfl | ⟨d, -, hbd⟩
  · exact t.root_lt
  · exact t.lt d b hbd

/-- There are never more nodes than the tree has. -/
theorem Entering.length_le (t : IsTree children root size)
    (h : Entering children root entered pending) : entered.length + pending.length ≤ size := by
  have hsub : entered ++ pending ⊆ List.range size := fun c hc => List.mem_range.mpr (h.lt t hc)
  have := (h.nodup.subperm hsub).length_le
  simpa using this

/-- When nothing is pending, all descendants of the root are entered. -/
theorem Entering.all (h : Entering children root entered [])
    (hb : ReflTransGen (fun d c => c ∈ children d) root b) : b ∈ entered := by
  induction hb with
  | refl => simpa using h.root_mem
  | @tail d c _ hdc ih => simpa using h.closed d ih c hdc

/-- Each node behind the one it is a child of. -/
def ParentFirst (children : Nat → List Nat) (root : Nat) (entered : List Nat) : Prop :=
  ∀ before b after, entered = before ++ b :: after → b = root ∨ ∃ d ∈ before, b ∈ children d

theorem Entering.parentFirst (h : Entering children root entered (b :: pending))
    (hfirst : ParentFirst children root entered) :
    ParentFirst children root (entered ++ [b]) := by
  intro before c after hsplit
  rcases List.eq_nil_or_concat after with rfl | ⟨after, last, rfl⟩
  · obtain ⟨rfl, hc⟩ := List.append_inj' hsplit rfl
    obtain rfl : b = c := by simpa using hc
    exact h.origin b (by simp)
  · rw [List.concat_eq_append, ← List.cons_append, ← List.append_assoc] at hsplit
    exact hfirst before c after (List.append_inj' hsplit rfl).1

end Walk
end Celox.Graph
