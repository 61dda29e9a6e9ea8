import Mathlib

/-! # Loops that can fail

What a `mapM` in `Except` returns, element by element. -/
namespace Celox

theorem bind_eq_ok {α β ε : Type} {x : Except ε α} {f : α → Except ε β} {b : β} :
    (x >>= f) = .ok b ↔ ∃ a, x = .ok a ∧ f a = .ok b := by
  cases x with
  | error e => simp [bind, Except.bind]
  | ok a => simp [bind, Except.bind]

/-- A check that succeeds on all elements. -/
theorem forM_eq_ok {α ε : Type} {f : α → Except ε Unit} {l : List α} :
    l.forM f = .ok () ↔ ∀ x ∈ l, f x = .ok () := by
  induction l with
  | nil => simp [List.forM, pure, Except.pure]
  | cons x l ih =>
    have hcons : (x :: l).forM f = (f x >>= fun _ => l.forM f) := rfl
    rw [hcons, bind_eq_ok, List.forall_mem_cons, ← ih]
    exact ⟨fun ⟨_, hx, hl⟩ => ⟨hx, hl⟩, fun ⟨hx, hl⟩ => ⟨(), hx, hl⟩⟩

/-- What every round keeps, the loop keeps. -/
theorem foldlM_invariant {α β ε : Type} {f : β → α → Except ε β} {P : β → Prop} {l : List α}
    (hstep : ∀ b x b', x ∈ l → P b → f b x = .ok b' → P b') {b b' : β} (hb : P b)
    (h : l.foldlM f b = .ok b') : P b' := by
  induction l generalizing b with
  | nil =>
    cases h
    exact hb
  | cons x l ih =>
    rw [List.foldlM_cons] at h
    obtain ⟨mid, hmid, hrest⟩ := bind_eq_ok.mp h
    exact ih (fun b y b' hy => hstep b y b' (List.mem_cons_of_mem _ hy))
      (hstep b x mid (List.mem_cons_self ..) hb hmid) hrest

/-- A loop none of whose rounds fails. -/
theorem mapM_ok {α β ε : Type} {f : α → Except ε β} {g : α → β} {l : List α}
    (h : ∀ x ∈ l, f x = .ok (g x)) : l.mapM f = .ok (l.map g) := by
  induction l with
  | nil => rfl
  | cons x l ih =>
    rw [List.mapM_cons, h x (by simp), ih fun y hy => h y (by simp [hy])]
    rfl

/-- The results of a loop that succeeded. -/
theorem forall₂_of_mapM {α β ε : Type} {f : α → Except ε β} {as : List α} {bs : List β}
    (h : as.mapM f = .ok bs) : List.Forall₂ (fun a b => f a = .ok b) as bs := by
  induction as generalizing bs with
  | nil =>
    cases h
    exact .nil
  | cons a as ih =>
    rw [List.mapM_cons] at h
    cases hb : f a with
    | error e => simp [hb, bind, Except.bind] at h
    | ok b =>
      cases hrest : as.mapM f with
      | error e => simp [hb, hrest, bind, Except.bind] at h
      | ok rest =>
        simp only [hb, hrest, bind, Except.bind, pure, Except.pure, Except.ok.injEq] at h
        exact h ▸ .cons hb (ih hrest)

end Celox
