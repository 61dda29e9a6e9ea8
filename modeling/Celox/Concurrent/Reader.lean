import Mathlib

/-! # Reading a memory that another party writes

A `Reader` is a computation cut at its reads: between two of them the other party takes any
number of steps. `Holds` is what such a computation guarantees whatever steps these are. -/
namespace Celox.Concurrent
open Relation

inductive Reader (Word α : Type) where
  | ret (a : α)
  | read (offset : Nat) (k : Word → Reader Word α)

namespace Reader
variable {Word α β : Type}

def bind : Reader Word α → (α → Reader Word β) → Reader Word β
  | .ret a, f => f a
  | .read offset k, f => .read offset fun w => bind (k w) f

instance : Monad (Reader Word) where
  pure := .ret
  bind := bind

/-- Read one word. -/
def word (offset : Nat) : Reader Word Word := .read offset .ret

/-- One computation after the other, the results in a list. -/
def forEach (f : α → Reader Word β) : List α → Reader Word (List β)
  | [] => pure []
  | a :: rest => do
    let b ← f a
    let bs ← forEach f rest
    pure (b :: bs)

end Reader

section Interference
variable {σ Word α β : Type} (view : σ → Nat → Word) (Allowed : Nat → Prop)
  (Rely : σ → σ → Prop)

/-- Every read is allowed, and whatever the other party does in between, the result meets
`post` from the moment it is returned on. -/
def Holds (post : α → σ → Prop) : Reader Word α → σ → Prop
  | .ret a, s => ∀ s', ReflTransGen Rely s s' → post a s'
  | .read offset k, s => Allowed offset ∧
      ∀ s', ReflTransGen Rely s s' → Holds post (k (view s' offset)) s'

/-- A condition that no step of the other party ends. -/
def Stable (P : σ → Prop) : Prop := ∀ s s', Rely s s' → P s → P s'

variable {view Allowed Rely} {post post' : α → σ → Prop}

theorem Stable.trans {P : σ → Prop} (hP : Stable Rely P) {s s' : σ} (h : ReflTransGen Rely s s')
    (hs : P s) : P s' := by
  induction h with
  | refl => exact hs
  | tail _ hstep ih => exact hP _ _ hstep ih

/-- A condition that no step brings about, under a stable invariant: it held all along. -/
theorem Stable.back {I good : σ → Prop} (hI : Stable Rely I)
    (hgood : ∀ s s', I s → Rely s s' → good s' → good s) {s s' : σ} (hs : I s)
    (h : ReflTransGen Rely s s') : good s' → good s := by
  induction h with
  | refl => exact id
  | tail hrun hstep ih => exact fun hg => ih (hgood _ _ (hI.trans hrun hs) hstep hg)

theorem Holds.stable {p : Reader Word α} {s s' : σ} (h : Holds view Allowed Rely post p s)
    (hs : ReflTransGen Rely s s') : Holds view Allowed Rely post p s' := by
  cases p with
  | ret a => exact fun s'' hs' => h s'' (hs.trans hs')
  | read offset k => exact ⟨h.1, fun s'' hs' => h.2 s'' (hs.trans hs')⟩

theorem Holds.mono {p : Reader Word α} {s : σ} (h : Holds view Allowed Rely post p s)
    (hpost : ∀ a s', ReflTransGen Rely s s' → post a s' → post' a s') :
    Holds view Allowed Rely post' p s := by
  induction p generalizing s with
  | ret a => exact fun s' hs => hpost a s' hs (h s' hs)
  | read offset k ih =>
    refine ⟨h.1, fun s' hs => ih _ (h.2 s' hs) fun a s'' hs' => ?_⟩
    exact hpost a s'' (hs.trans hs')

theorem Holds.bind {p : Reader Word α} {f : α → Reader Word β} {post : β → σ → Prop} {s : σ}
    (h : Holds view Allowed Rely (fun a => Holds view Allowed Rely post (f a)) p s) :
    Holds view Allowed Rely post (p >>= f) s := by
  induction p generalizing s with
  | ret a => exact h s .refl
  | read offset k ih => exact ⟨h.1, fun s' hs => ih _ (h.2 s' hs)⟩

theorem Holds.pure {a : α} {s : σ} (h : ∀ s', ReflTransGen Rely s s' → post a s') :
    Holds view Allowed Rely post (pure a) s := h

/-- One read, then the rest: the word is the one of some later state. -/
theorem Holds.word {offset : Nat} {f : Word → Reader Word β} {post : β → σ → Prop} {s : σ}
    (hallowed : Allowed offset)
    (h : ∀ s', ReflTransGen Rely s s' →
      Holds view Allowed Rely post (f (view s' offset)) s') :
    Holds view Allowed Rely post (Reader.word offset >>= f) s := ⟨hallowed, h⟩

/-- A list of reads under a stable invariant: what each item yields as long as `good` lasts, the
whole list yields as long as `good` lasts. -/
theorem Holds.forEach {I good : σ → Prop} (hgood : ∀ s s', I s → Rely s s' → good s' → good s)
    (hI : Stable Rely I) {f : α → Reader Word β} {g : α → β} {l : List α}
    (h : ∀ a ∈ l, ∀ s, I s →
      Holds view Allowed Rely (fun b s' => good s' → b = g a) (f a) s) {s : σ} (hs : I s) :
    Holds view Allowed Rely (fun bs s' => good s' → bs = l.map g) (Reader.forEach f l) s := by
  induction l generalizing s with
  | nil => exact fun _ _ _ => rfl
  | cons a rest ih =>
    refine Holds.bind ?_
    refine (h a (by simp) s hs).mono fun b s₁ h₁ hb => ?_
    have hs₁ := hI.trans h₁ hs
    refine Holds.bind ?_
    refine (ih (fun a ha => h a (by simp [ha])) hs₁).mono fun bs s₂ h₂ hbs => ?_
    have hs₂ := hI.trans h₂ hs₁
    intro s₃ h₃ hg
    have hg₂ := hI.back hgood hs₂ h₃ hg
    rw [hb (hI.back hgood hs₁ h₂ hg₂), hbs hg₂, List.map_cons]

end Interference
end Celox.Concurrent
