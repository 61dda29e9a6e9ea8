import Mathlib

/-! # A worklist of equations

Every node has a value, and an equation that gives it from the values of other nodes. A node is
taken from the front of the list; where its value changes, the nodes that depend on it are queued.
Values that only grow, up to a bound, end in a solution of all equations. -/
namespace Celox.Data

variable {K L : Type} [DecidableEq K] [DecidableEq L]

/-- Queued at the end, unless they are queued already. -/
def enqueue (work nodes : List K) : List K :=
  nodes.foldl (fun work node => if node ∈ work then work else work ++ [node]) work

def worklist (step : (K → L) → K → L) (dependents : K → List K) :
    Nat → List K → (K → L) → K → L
  | 0, _, values => values
  | _ + 1, [], values => values
  | fuel + 1, node :: work, values =>
    let next := step values node
    if next = values node then worklist step dependents fuel work values
    else worklist step dependents fuel (enqueue work (dependents node))
      (Function.update values node next)

theorem mem_enqueue {work nodes : List K} {node : K} :
    node ∈ enqueue work nodes ↔ node ∈ work ∨ node ∈ nodes := by
  induction nodes generalizing work with
  | nil => simp [enqueue]
  | cons first nodes ih =>
    change node ∈ enqueue (if first ∈ work then work else work ++ [first]) nodes ↔ _
    rw [ih, List.mem_cons]
    split
    · rename_i h
      constructor
      · rintro (h | h)
        · exact .inl h
        · exact .inr (.inr h)
      · rintro (h' | rfl | h')
        · exact .inl h'
        · exact .inl h
        · exact .inr h'
    · rw [List.mem_append, List.mem_singleton, or_assoc]

theorem nodup_enqueue {work : List K} (h : work.Nodup) (nodes : List K) :
    (enqueue work nodes).Nodup := by
  induction nodes generalizing work with
  | nil => exact h
  | cons first nodes ih =>
    change (enqueue (if first ∈ work then work else work ++ [first]) nodes).Nodup
    refine ih ?_
    split
    · exact h
    · rename_i hnew
      exact List.nodup_append.mpr ⟨h, List.nodup_singleton first, fun a ha b hb heq =>
        hnew (by rwa [← List.mem_singleton.mp hb, ← heq])⟩

section Solve
variable {step : (K → L) → K → L} {dependents : K → List K}

/-- What every change of a value keeps holds at the end. -/
theorem worklist_invariant {P : (K → L) → Prop}
    (hP : ∀ values node, P values → P (Function.update values node (step values node)))
    {values : K → L} (h : P values) (fuel : Nat) (work : List K) :
    P (worklist step dependents fuel work values) := by
  induction fuel generalizing work values with
  | zero => exact h
  | succ fuel ih =>
    cases work with
    | nil => exact h
    | cons node work =>
      rw [worklist]
      split
      · exact ih h work
      · exact ih (hP values node h) _

/-- How far the values are from their bound. -/
def distance (rank : L → Nat) (bound : Nat) (nodes : List K) (values : K → L) : Nat :=
  (nodes.map fun node => bound - rank (values node)).sum

omit [DecidableEq L] in
theorem distance_update {rank : L → Nat} {bound : Nat} {nodes : List K} {values : K → L}
    {node : K} {next : L} (hnode : node ∈ nodes) (hgrow : rank (values node) < rank next)
    (hbound : rank next ≤ bound) :
    distance rank bound nodes (Function.update values node next) <
      distance rank bound nodes values := by
  refine List.sum_lt_sum _ _ (fun other _ => ?_) ⟨node, hnode, ?_⟩
  · by_cases hother : other = node
    · subst hother
      rw [Function.update_self]
      omega
    · rw [Function.update_of_ne hother]
  · rw [Function.update_self]
    omega

/-- With as many rounds as the values can still grow, all equations hold at the end. -/
theorem worklist_solves (nodes : List K) (rank : L → Nat) (bound : Nat) {P : (K → L) → Prop}
    (hP : ∀ values node, P values → P (Function.update values node (step values node)))
    (hgrow : ∀ values node, P values → node ∈ nodes → step values node ≠ values node →
      rank (values node) < rank (step values node))
    (hbound : ∀ values node, P values → node ∈ nodes → rank (step values node) ≤ bound)
    (hlocal : ∀ values node next other, other ∈ nodes → other ∉ dependents node →
      step (Function.update values node next) other = step values other)
    (hdependents : ∀ node ∈ nodes, ∀ other ∈ dependents node, other ∈ nodes)
    {fuel : Nat} {work : List K} {values : K → L} (h : P values) (hnodup : work.Nodup)
    (hwork : ∀ node ∈ work, node ∈ nodes)
    (hsolved : ∀ node ∈ nodes, node ∉ work → step values node = values node)
    (hfuel : distance rank bound nodes values * (nodes.length + 1) + work.length ≤ fuel) :
    ∀ node ∈ nodes, step (worklist step dependents fuel work values) node =
      worklist step dependents fuel work values node := by
  induction fuel generalizing work values with
  | zero =>
    have hempty : work = [] := List.length_eq_zero_iff.mp (by omega)
    subst hempty
    exact fun node hnode => hsolved node hnode (by simp)
  | succ fuel ih =>
    cases work with
    | nil => exact fun node hnode => hsolved node hnode (by simp)
    | cons node work =>
      have hnode := hwork node List.mem_cons_self
      rw [List.nodup_cons] at hnodup
      rw [List.length_cons] at hfuel
      rw [worklist]
      split
      · rename_i heq
        refine ih h hnodup.2 (fun n hn => hwork n (List.mem_cons_of_mem _ hn)) ?_ (by omega)
        intro other hother hout
        by_cases hsame : other = node
        · rwa [hsame]
        · exact hsolved other hother (by simp [hsame, hout])
      · rename_i hne
        have hlt := distance_update hnode (hgrow values node h hnode hne)
          (hbound values node h hnode)
        have hnodup' := nodup_enqueue hnodup.2 (dependents node)
        have hsub : ∀ n ∈ enqueue work (dependents node), n ∈ nodes := by
          intro n hn
          rcases mem_enqueue.mp hn with hn | hn
          · exact hwork n (List.mem_cons_of_mem _ hn)
          · exact hdependents node hnode n hn
        have hlen := (hnodup'.subperm hsub).length_le
        refine ih (hP values node h) hnodup' hsub ?_ ?_
        · intro other hother hout
          rw [mem_enqueue, not_or] at hout
          by_cases hsame : other = node
          · rw [hlocal values node _ other hother hout.2, hsame, Function.update_self]
          · rw [hlocal values node _ other hother hout.2, Function.update_of_ne hsame]
            exact hsolved other hother (by simp [hsame, hout.1])
        · have hmul : (distance rank bound nodes (Function.update values node (step values node)) +
              1) * (nodes.length + 1) ≤ distance rank bound nodes values * (nodes.length + 1) :=
            Nat.mul_le_mul_right _ hlt
          rw [Nat.add_mul, Nat.one_mul] at hmul
          omega

end Solve

/-! ## Steps that are monotone -/

section Climb
variable {step : (K → L) → K → L} {dependents : K → List K} {le : L → L → Prop} {Q : L → Prop}
  {values : K → L}

/-- Every value is below what its equation gives, and all values are admitted. -/
structure Climbing (step : (K → L) → K → L) (le : L → L → Prop) (Q : L → Prop)
    (values : K → L) : Prop where
  grows : ∀ node, le (values node) (step values node)
  within : ∀ node, Q (values node)

omit [DecidableEq L] in
theorem Climbing.update (hrefl : ∀ a, le a a) (htrans : ∀ a b c, le a b → le b c → le a c)
    (hmono : ∀ values values' : K → L, (∀ node, le (values node) (values' node)) →
      ∀ node, le (step values node) (step values' node))
    (hQ : ∀ values : K → L, (∀ node, Q (values node)) → ∀ node, Q (step values node))
    (h : Climbing step le Q values) (node : K) :
    Climbing step le Q (Function.update values node (step values node)) := by
  have hle : ∀ other, le (values other) (Function.update values node (step values node) other) := by
    intro other
    by_cases hother : other = node
    · subst hother
      rw [Function.update_self]
      exact h.grows other
    · rw [Function.update_of_ne hother]
      exact hrefl _
  constructor
  · intro other
    by_cases hother : other = node
    · subst hother
      rw [Function.update_self]
      exact hmono _ _ hle other
    · rw [Function.update_of_ne hother]
      exact htrans _ _ _ (h.grows other) (hmono _ _ hle other)
  · intro other
    by_cases hother : other = node
    · subst hother
      rw [Function.update_self]
      exact hQ _ h.within other
    · rw [Function.update_of_ne hother]
      exact h.within other

/-- A monotone step on values of bounded rank: from below, all equations are solved. -/
theorem worklist_climbs (le : L → L → Prop) (nodes : List K) (rank : L → Nat) (bound : Nat)
    (hrefl : ∀ a, le a a)
    (htrans : ∀ a b c, le a b → le b c → le a c)
    (hmono : ∀ values values' : K → L, (∀ node, le (values node) (values' node)) →
      ∀ node, le (step values node) (step values' node))
    (hQ : ∀ values : K → L, (∀ node, Q (values node)) → ∀ node, Q (step values node))
    (hrank : ∀ a b, Q a → Q b → le a b → a ≠ b → rank a < rank b)
    (hbound : ∀ a, Q a → rank a ≤ bound)
    (hlocal : ∀ values node next other, other ∈ nodes → other ∉ dependents node →
      step (Function.update values node next) other = step values other)
    (hdependents : ∀ node ∈ nodes, ∀ other ∈ dependents node, other ∈ nodes)
    (h : Climbing step le Q values) (hnodup : nodes.Nodup) {fuel : Nat}
    (hfuel : bound * nodes.length * (nodes.length + 1) + nodes.length ≤ fuel) :
    ∀ node ∈ nodes, step (worklist step dependents fuel nodes.reverse values) node =
      worklist step dependents fuel nodes.reverse values node := by
  refine worklist_solves nodes rank bound
    (fun _ node hclimb => hclimb.update hrefl htrans hmono hQ node)
    (fun values node hclimb _ hne => hrank _ _ (hclimb.within node) (hQ values hclimb.within node)
      (hclimb.grows node) hne.symm)
    (fun values node hclimb _ => hbound _ (hQ values hclimb.within node)) hlocal hdependents h
    (List.nodup_reverse.mpr hnodup) (fun node hnode => List.mem_reverse.mp hnode)
    (fun node hnode hout => absurd (List.mem_reverse.mpr hnode) hout) ?_
  have hdistance : distance rank bound nodes values ≤ bound * nodes.length := by
    have hall : ∀ n ∈ nodes.map fun node => bound - rank (values node), n ≤ bound := by
      intro n hn
      obtain ⟨node, -, rfl⟩ := List.mem_map.mp hn
      omega
    simpa [distance, Nat.mul_comm] using List.sum_le_card_nsmul _ bound hall
  have hmul := Nat.mul_le_mul_right (nodes.length + 1) hdistance
  rw [List.length_reverse]
  omega

end Climb
end Celox.Data
