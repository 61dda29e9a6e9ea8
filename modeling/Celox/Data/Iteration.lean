import Mathlib

/-! # What an iterator yields

An iterator is a state and a function that returns the next item and the state behind it. -/
namespace Celox

variable {σ β : Type}

/-- The items an iterator returns before its first `none`. -/
inductive Yields (next : σ → Option (β × σ)) : σ → List β → Prop
  | done {s : σ} : next s = none → Yields next s []
  | more {s s' : σ} {b : β} {l : List β} :
    next s = some (b, s') → Yields next s' l → Yields next s (b :: l)

/-- An iterator that takes its items from the front of a list. -/
theorem yields_of_items {next : σ → Option (β × σ)} (items : σ → List β)
    (hnone : ∀ s, items s = [] → next s = none)
    (hsome : ∀ s b l, items s = b :: l → ∃ s', next s = some (b, s') ∧ items s' = l) (s : σ) :
    Yields next s (items s) := by
  generalize hl : items s = l
  induction l generalizing s with
  | nil => exact .done (hnone s hl)
  | cons b l ih =>
    obtain ⟨s', hnext, hitems⟩ := hsome s b l hl
    exact .more hnext (ih s' hitems)

/-- The first item that passes a test, and what comes after it (`while let` with a return). -/
def advance (p : β → Bool) : List β → Option (β × List β)
  | [] => none
  | b :: l => if p b then some (b, l) else advance p l

theorem advance_none {p : β → Bool} {l : List β} (h : l.filter p = []) : advance p l = none := by
  induction l with
  | nil => rfl
  | cons b l ih =>
    have hb : ¬ p b = true := fun hb => by simp [hb] at h
    rw [advance, if_neg hb]
    exact ih (by simpa [hb] using h)

theorem advance_some {p : β → Bool} {l rest : List β} {b : β} (h : l.filter p = b :: rest) :
    ∃ l', advance p l = some (b, l') ∧ l'.filter p = rest := by
  induction l with
  | nil => cases h
  | cons c l ih =>
    by_cases hc : p c = true
    · rw [List.filter_cons_of_pos hc] at h
      cases h
      exact ⟨l, by rw [advance, if_pos hc], rfl⟩
    · rw [List.filter_cons_of_neg hc] at h
      rw [advance, if_neg hc]
      exact ih h

end Celox
