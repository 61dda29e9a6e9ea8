import Mathlib

/-! # Accesses that depend on one another

Each access leaves records at the places of its region, and a write replaces the records that its region
covers. An access depends on the records that it meets. What a later access no longer meets it still
reaches, for the write that replaced it depends on it. -/
namespace Celox.Data
open Relation

/-- Regions of accesses over places at which records are kept. -/
structure Space (R P : Type) where
  places : R → P → Prop
  meets : R → P → Prop
  covers : R → P → Prop
  meets_of_covers : ∀ r p, covers r p → meets r p
  /-- What meets a replaced record meets the record that replaces it. -/
  replaced : ∀ r p g, covers r p → meets g p → ∃ q, places r q ∧ meets g q

structure Access (I R : Type) where
  id : I
  write : Bool
  region : R

/-- Who wrote or read at which place. -/
abbrev Records (I P : Type) := I → Bool → P → Prop

section Records
variable {I R P : Type} (space : Space R P)

def Space.record (records : Records I P) (a : Access I R) : Records I P := fun k w p =>
  records k w p ∧ ¬ (a.write = true ∧ space.covers a.region p) ∨
    k = a.id ∧ w = a.write ∧ space.places a.region p

/-- Two reads do not depend on one another. -/
def Space.Depends (records : Records I P) (a : Access I R) (k : I) : Prop :=
  ∃ w p, records k w p ∧ space.meets a.region p ∧ (a.write = true ∨ w = true)

def Space.recordAll (accesses : List (Access I R)) : Records I P :=
  accesses.foldl space.record fun _ _ _ => False

/-- Some access of the one identity depends on a record of the other. -/
def Space.DependsOn (accesses : List (Access I R)) (j k : I) : Prop :=
  ∃ before a after, accesses = before ++ a :: after ∧ a.id = j ∧ k ≠ j ∧
    space.Depends (space.recordAll before) a k

/-- At least one of the two writes and their regions share a place. -/
def Space.Conflict (a b : Access I R) : Prop :=
  (a.write = true ∨ b.write = true) ∧ ∃ p, space.places a.region p ∧ space.meets b.region p

variable {space} {accesses : List (Access I R)} {a b : Access I R} {j k : I}

theorem recordAll_concat (accesses : List (Access I R)) (a : Access I R) :
    space.recordAll (accesses ++ [a]) = space.record (space.recordAll accesses) a := by
  rw [Space.recordAll, List.foldl_append]
  rfl

theorem Space.DependsOn.append (h : space.DependsOn accesses j k) (rest : List (Access I R)) :
    space.DependsOn (accesses ++ rest) j k := by
  obtain ⟨before, a, after, rfl, ha, hne, hdepends⟩ := h
  exact ⟨before, a, after ++ rest, by simp, ha, hne, hdepends⟩

/-- Every record is of some access there. -/
theorem recordAll_sound (accesses : List (Access I R)) {w : Bool} {p : P}
    (h : space.recordAll accesses k w p) :
    ∃ a ∈ accesses, a.id = k ∧ a.write = w ∧ space.places a.region p := by
  induction accesses using List.reverseRecOn with
  | nil => exact absurd h id
  | append_singleton accesses a ih =>
    rw [recordAll_concat] at h
    rcases h with ⟨h, -⟩ | ⟨rfl, rfl, hplaces⟩
    · obtain ⟨b, hb, hall⟩ := ih h
      exact ⟨b, List.mem_append_left _ hb, hall⟩
    · exact ⟨a, by simp, rfl, rfl, hplaces⟩

/-- Only accesses that conflict depend on one another. -/
theorem Space.DependsOn.conflict (h : space.DependsOn accesses j k) :
    ∃ before b after, accesses = before ++ b :: after ∧ b.id = j ∧
      ∃ a ∈ before, a.id = k ∧ space.Conflict a b := by
  obtain ⟨before, b, after, heq, hb, -, w, p, hrecord, hmeets, hwrite⟩ := h
  obtain ⟨a, ha, hid, rfl, hplaces⟩ := recordAll_sound before hrecord
  exact ⟨before, b, after, heq, hb, a, ha, hid, hwrite.symm, p, hplaces, hmeets⟩

/-- Whatever meets an access done meets a record from which it is reached, a writer's if it writes. -/
theorem recordAll_complete (accesses : List (Access I R)) (ha : a ∈ accesses) {g : R} {p : P}
    (hplaces : space.places a.region p) (hmeets : space.meets g p) :
    ∃ k w q, space.recordAll accesses k w q ∧ space.meets g q ∧ (a.write = true → w = true) ∧
      ReflTransGen (space.DependsOn accesses) k a.id := by
  induction accesses using List.reverseRecOn with
  | nil => simp at ha
  | append_singleton accesses c ih =>
    rw [recordAll_concat]
    rcases List.mem_append.mp ha with ha | ha
    · obtain ⟨k, w, q, hrecord, hmeets, hwrite, hreach⟩ := ih ha
      have hreach' : ReflTransGen (space.DependsOn (accesses ++ [c])) k a.id :=
        hreach.lift id fun _ _ h => h.append [c]
      by_cases hcovered : c.write = true ∧ space.covers c.region q
      · -- the new write depends on the record it replaces
        obtain ⟨q', hq', hmeets'⟩ := space.replaced c.region q g hcovered.2 hmeets
        refine ⟨c.id, c.write, q', .inr ⟨rfl, rfl, hq'⟩, hmeets', fun _ => hcovered.1, ?_⟩
        by_cases heq : k = c.id
        · exact heq ▸ hreach'
        · exact hreach'.head ⟨accesses, c, [], rfl, rfl, heq, w, q, hrecord,
            space.meets_of_covers _ _ hcovered.2, .inl hcovered.1⟩
      · exact ⟨k, w, q, .inl ⟨hrecord, hcovered⟩, hmeets, hwrite, hreach'⟩
    · obtain rfl := List.mem_singleton.mp ha
      exact ⟨a.id, a.write, p, .inr ⟨rfl, rfl, hplaces⟩, hmeets, id, .refl⟩

/-- A later access reaches each one that it conflicts with. -/
theorem Space.Conflict.reach {before after : List (Access I R)} (ha : a ∈ before)
    (h : space.Conflict a b) :
    ReflTransGen (space.DependsOn (before ++ b :: after)) b.id a.id := by
  obtain ⟨hwrite, p, hplaces, hmeets⟩ := h
  obtain ⟨k, w, q, hrecord, hmeets', hw, hreach⟩ := recordAll_complete before ha hplaces hmeets
  have hreach' : ReflTransGen (space.DependsOn (before ++ b :: after)) k a.id :=
    hreach.lift id fun _ _ h => h.append (b :: after)
  by_cases heq : k = b.id
  · exact heq ▸ hreach'
  · exact hreach'.head ⟨before, b, after, rfl, rfl, heq, w, q, hrecord, hmeets',
      hwrite.symm.imp_right hw⟩

end Records
end Celox.Data
