import Mathlib

/-! # Chains of parent links

Nodes are numbers, node `0` is the root, and every other node with a link has it to a smaller node.
The chain of a node is what the links lead to from it. -/
namespace Celox.Graph
open Relation

/-- One link. -/
def Up (parent : Nat → Option Nat) (u v : Nat) : Prop := u ≠ 0 ∧ parent u = some v

/-- `a` is on the chain of `x`. -/
def Above (parent : Nat → Option Nat) (x a : Nat) : Prop := ReflTransGen (Up parent) x a

def Falling (parent : Nat → Option Nat) : Prop := ∀ u v, Up parent u v → v < u

section Chains
variable {parent parent' : Nat → Option Nat} {x y a b : Nat}

theorem Above.refl (x : Nat) : Above parent x x := ReflTransGen.refl

theorem Above.trans (h : Above parent x y) (h' : Above parent y a) : Above parent x a :=
  ReflTransGen.trans h h'

theorem Above.up (hx : x ≠ 0) (hy : parent x = some y) (h : Above parent y a) :
    Above parent x a :=
  ReflTransGen.head ⟨hx, hy⟩ h

theorem Above.cases (h : Above parent x a) :
    x = a ∨ ∃ y, x ≠ 0 ∧ parent x = some y ∧ Above parent y a := by
  rcases ReflTransGen.cases_head h with rfl | ⟨y, hup, hy⟩
  · exact .inl rfl
  · exact .inr ⟨y, hup.1, hup.2, hy⟩

/-- The rest of a chain after its first link. -/
theorem Above.rest (h : Above parent x a) (hy : parent x = some y) (hne : a ≠ x) :
    Above parent y a := by
  rcases h.cases with rfl | ⟨z, -, hz, hza⟩
  · exact absurd rfl hne
  · rwa [Option.some.inj (hy.symm.trans hz)]

theorem above_zero_iff : Above parent 0 a ↔ a = 0 := by
  constructor
  · intro h
    rcases h.cases with rfl | ⟨y, hne, -⟩
    · rfl
    · exact absurd rfl hne
  · rintro rfl
    exact .refl 0

theorem Above.le (hfall : Falling parent) (h : Above parent x a) : a ≤ x := by
  induction h with
  | refl => exact Nat.le_refl _
  | tail _ hup ih => exact Nat.le_trans (Nat.le_of_lt (hfall _ _ hup)) ih

theorem Above.total (h : Above parent x a) (h' : Above parent x b) :
    Above parent a b ∨ Above parent b a := by
  refine ReflTransGen.total_of_right_unique (fun u v w huv huw => ?_) h h'
  exact Option.some.inj (huv.2.symm.trans huw.2)

/-- Of two nodes on a chain the smaller one is on the chain of the other. -/
theorem Above.of_le (hfall : Falling parent) (h : Above parent x a) (h' : Above parent x b)
    (hle : b ≤ a) : Above parent a b := by
  rcases h.total h' with hab | hba
  · exact hab
  · rw [Nat.le_antisymm (hba.le hfall) hle]
    exact .refl b

/-- A chain that ends at the root has a link out of each of its other nodes. -/
theorem Above.isSome (h : Above parent x 0) (hx : x ≠ 0) : (parent x).isSome := by
  rcases h.cases with rfl | ⟨y, -, hy, -⟩
  · exact absurd rfl hx
  · rw [hy]
    rfl

/-- The part of a chain down to `a` depends on the links of greater nodes only. -/
theorem Above.congr_ge (hfall : Falling parent) (h : Above parent x a)
    (hsame : ∀ u, a < u → parent' u = parent u) : Above parent' x a := by
  unfold Above at h
  induction h using ReflTransGen.head_induction_on with
  | refl => exact .refl a
  | @head u v huv hva ih =>
    have hlt : a < u := Nat.lt_of_le_of_lt (Above.le hfall hva) (hfall _ _ huv)
    exact .up huv.1 ((hsame u hlt).trans huv.2) ih

/-- A chain depends on the links of nodes up to its start only. -/
theorem Above.congr_le (hfall : Falling parent) (h : Above parent x a)
    (hsame : ∀ u ≤ x, parent' u = parent u) : Above parent' x a := by
  unfold Above at h
  induction h using ReflTransGen.head_induction_on with
  | refl => exact .refl a
  | @head u v huv hva ih =>
    have hlt := hfall _ _ huv
    exact .up huv.1 ((hsame u (Nat.le_refl u)).trans huv.2) (ih fun w hw => hsame w (by omega))

/-! ## Moving one link -/

variable {i next : Nat}

theorem falling_update (hfall : Falling parent) (hnext : next < i) :
    Falling (Function.update parent i (some next)) := by
  rintro u v ⟨hu, hv⟩
  by_cases hui : u = i
  · subst hui
    rw [Function.update_self] at hv
    cases hv
    exact hnext
  · rw [Function.update_of_ne hui] at hv
    exact hfall u v ⟨hu, hv⟩

/-- Down to the node whose link moves nothing changes. -/
theorem above_update_ge (hfall : Falling parent) (hnext : next < i) (ha : i ≤ a) :
    Above (Function.update parent i (some next)) x a ↔ Above parent x a := by
  constructor
  · intro h
    refine h.congr_ge (falling_update hfall hnext) fun u hu => ?_
    rw [Function.update_of_ne (by omega)]
  · intro h
    refine h.congr_ge hfall fun u hu => ?_
    rw [Function.update_of_ne (by omega)]

theorem above_update_lt (hfall : Falling parent) (hnext : next < i) (hx : x < i) :
    Above (Function.update parent i (some next)) x a ↔ Above parent x a := by
  constructor
  · intro h
    refine h.congr_le (falling_update hfall hnext) fun u hu => ?_
    rw [Function.update_of_ne (by omega)]
  · intro h
    refine h.congr_le hfall fun u hu => ?_
    rw [Function.update_of_ne (by omega)]

/-- Chains that miss the node keep. -/
theorem above_update_miss (hmiss : ¬ Above parent x i) :
    Above (Function.update parent i (some next)) x a ↔ Above parent x a := by
  have hkey : ∀ (p q : Nat → Option Nat), (∀ u, u ≠ i → q u = p u) →
      ∀ y, ¬ Above parent y i → (∀ u v, u ≠ i → Up p u v → ¬ Above parent u i →
        ¬ Above parent v i) → Above p y a → Above q y a := by
    intro p q hpq y hy hstep h
    unfold Above at h
    induction h using ReflTransGen.head_induction_on with
    | refl => exact .refl a
    | @head u v huv hva ih =>
      have hui : u ≠ i := by
        rintro rfl
        exact hy (.refl _)
      exact .up huv.1 ((hpq u hui).trans huv.2) (ih (hstep u v hui huv hy))
  have hup : ∀ u v, Up parent u v → ¬ Above parent u i → ¬ Above parent v i :=
    fun u v huv hu hv => hu (.up huv.1 huv.2 hv)
  constructor
  · refine hkey _ _ (fun u hu => (Function.update_of_ne hu _ _).symm) x hmiss ?_
    intro u v hu huv
    refine hup u v ⟨huv.1, ?_⟩
    have hlink : Function.update parent i (some next) u = some v := huv.2
    rwa [Function.update_of_ne hu] at hlink
  · exact hkey _ _ (fun u hu => Function.update_of_ne hu _ _) x hmiss fun u v _ => hup u v

/-- Chains that pass the node go on where its link leads. -/
theorem above_update_pass (hfall : Falling parent) (hi : i ≠ 0) (hnext : next < i) (ha : a < i)
    (hpass : Above parent x i) :
    Above (Function.update parent i (some next)) x a ↔ Above parent next a := by
  have hfall' := falling_update hfall hnext
  have hpass' := (above_update_ge hfall hnext (Nat.le_refl i)).mpr hpass
  have hlink : Function.update parent i (some next) i = some next := Function.update_self ..
  constructor
  · intro h
    have hia := hpass'.of_le hfall' h (Nat.le_of_lt ha)
    exact (above_update_lt hfall hnext hnext).mp (hia.rest hlink (by omega))
  · intro h
    exact hpass'.trans (.up hi hlink ((above_update_lt hfall hnext hnext).mpr h))

end Chains

/-! ## The last common node of two chains -/

/-- The greater of the two nodes moves up until both agree; the fuel is the sum of both. -/
def intersect (parent : Nat → Option Nat) : (fuel : Nat) → (left right : Nat) → Option Nat
  | 0, left, _ => some left
  | fuel + 1, left, right =>
    if left = right then some left
    else if right < left then do intersect parent fuel (← parent left) right
    else do intersect parent fuel left (← parent right)

theorem intersect_spec {parent : Nat → Option Nat} (hfall : Falling parent) (fuel : Nat)
    {left right : Nat} (hleft : Above parent left 0) (hright : Above parent right 0)
    (hfuel : left + right ≤ fuel) : ∃ w, intersect parent fuel left right = some w ∧
      ∀ a, Above parent w a ↔ Above parent left a ∧ Above parent right a := by
  induction fuel generalizing left right with
  | zero =>
    obtain ⟨rfl, rfl⟩ : left = 0 ∧ right = 0 := by omega
    exact ⟨0, rfl, by simp⟩
  | succ fuel ih =>
    unfold intersect
    by_cases heq : left = right
    · subst heq
      exact ⟨left, by simp, by simp⟩
    · rw [if_neg heq]
      by_cases hlt : right < left
      · rw [if_pos hlt]
        obtain ⟨up, hup⟩ := Option.isSome_iff_exists.mp (hleft.isSome (by omega))
        have hless := hfall left up ⟨by omega, hup⟩
        obtain ⟨w, hw, hall⟩ := ih (hleft.rest hup (by omega)) hright (by omega)
        refine ⟨w, by rw [hup]; exact hw, fun a => ?_⟩
        rw [hall a]
        refine and_congr_left fun ha => ⟨.up (by omega) hup, fun h => h.rest hup ?_⟩
        have := ha.le hfall
        omega
      · rw [if_neg hlt]
        obtain ⟨up, hup⟩ := Option.isSome_iff_exists.mp (hright.isSome (by omega))
        have hless := hfall right up ⟨by omega, hup⟩
        obtain ⟨w, hw, hall⟩ := ih hleft (hright.rest hup (by omega)) (by omega)
        refine ⟨w, by rw [hup]; exact hw, fun a => ?_⟩
        rw [hall a]
        refine and_congr_right fun ha => ⟨.up (by omega) hup, fun h => h.rest hup ?_⟩
        have := ha.le hfall
        omega

/-- Common nodes of a whole list of chains. -/
theorem foldlM_intersect {parent : Nat → Option Nat} (hfall : Falling parent) {first : Nat}
    {rest : List Nat} (hfirst : Above parent first 0) (hrest : ∀ p ∈ rest, Above parent p 0) :
    ∃ w, rest.foldlM (fun current p => intersect parent (current + p) current p) first = some w ∧
      ∀ a, Above parent w a ↔ ∀ p ∈ first :: rest, Above parent p a := by
  induction rest generalizing first with
  | nil => exact ⟨first, rfl, by simp⟩
  | cons p rest ih =>
    obtain ⟨m, hm, hmall⟩ := intersect_spec hfall (first + p) hfirst (hrest p (by simp))
      (Nat.le_refl _)
    have hroot : Above parent m 0 := (hmall 0).mpr ⟨hfirst, hrest p (by simp)⟩
    obtain ⟨w, hw, hall⟩ := ih hroot fun q hq => hrest q (by simp [hq])
    refine ⟨w, by rw [List.foldlM_cons, hm]; exact hw, fun a => ?_⟩
    rw [hall a]
    simp only [List.mem_cons, forall_eq_or_imp, hmall a, and_assoc]

end Celox.Graph
