import Celox.Graph.Chains
import Celox.Graph.Dominance

/-! # Dominators by refinement of parent links

Nodes are numbered so that each one but the root has a predecessor with a smaller number. In each
round every node is linked to the last node common to the chains of its predecessors; rounds
are repeated until no link moves. In a graph that is not reducible a chain may hold nodes that
do not dominate, but every link only moves to smaller nodes, and links that stay are exact. -/
namespace Celox.Graph
open Relation

section Refine
variable (preds : Nat → List Nat)

/-- Predecessors without a link are left out; `none` stands for a link that is missing. -/
def refine (state : (Nat → Option Nat) × Bool) (b : Nat) :
    Option ((Nat → Option Nat) × Bool) :=
  let (idom, _) := state
  match (preds b).filter fun p => (idom p).isSome with
  | [] => some state
  | first :: rest => do
    let next ← rest.foldlM (fun current p => intersect idom (current + p) current p) first
    if idom b = some next then return state
    else return (Function.update idom b (some next), true)

/-- One round over all nodes but the root. -/
def refineRound (n : Nat) (idom : Nat → Option Nat) : Option ((Nat → Option Nat) × Bool) :=
  (List.range' 1 (n - 1)).foldlM (refine preds) (idom, false)

def refineLoop (n : Nat) : (fuel : Nat) → (Nat → Option Nat) → Option (Nat → Option Nat)
  | 0, _ => none
  | fuel + 1, idom => do
    let (idom, changed) ← refineRound preds n idom
    if changed then refineLoop n fuel idom else return idom

/-- The root is linked to itself, and `n * n` bounds the sum of all links. -/
def iterativeDominators (n : Nat) : Option (Nat → Option Nat) :=
  refineLoop preds n (n * n + 1) (Function.update (fun _ => none) 0 (some 0))

end Refine

/-- Each node but the root has a predecessor before it. -/
structure Forward (preds : Nat → List Nat) (n : Nat) : Prop where
  pos : 0 < n
  lt : ∀ b < n, ∀ p ∈ preds b, p < n
  earlier : ∀ b < n, 0 < b → ∃ p ∈ preds b, p < b

def PredEdge (preds : Nat → List Nat) (n : Nat) (u v : Nat) : Prop := v < n ∧ u ∈ preds v

/-- What holds when the nodes before `i` have had their turn in a round. -/
structure Refining (preds : Nat → List Nat) (n : Nat) (idom : Nat → Option Nat) (i : Nat) :
    Prop where
  root : idom 0 = some 0
  falling : Falling idom
  linked : ∀ b v, idom b = some v → Above idom b 0
  lt : ∀ b, (idom b).isSome → b < n
  initial : ∀ b c, c ≤ b → (idom b).isSome → (idom c).isSome
  done : ∀ b < i, b < n → (idom b).isSome
  dom : ∀ b v, Up idom b v → ∀ d, d ≠ b → Dom (PredEdge preds n) 0 d b →
    Dom (PredEdge preds n) 0 d v
  shrink : ∀ b v, Up idom b v → ∀ a, (∀ p ∈ preds b, (idom p).isSome → Above idom p a) →
    Above idom v a
  held : ∀ b v, Up idom b v → ∀ p ∈ preds b, p < b → b < i ∨ i ≤ v → Above idom p v

section Step
variable {preds : Nat → List Nat} {n i next : Nat} {idom : Nat → Option Nat}

theorem Refining.above_root (h : Refining preds n idom i) {b : Nat} (hb : (idom b).isSome) :
    Above idom b 0 := by
  obtain ⟨v, hv⟩ := Option.isSome_iff_exists.mp hb
  exact h.linked b v hv

/-- What a chain goes through is linked. -/
theorem Refining.isSome_of_above (h : Refining preds n idom i) {b c : Nat} (hb : (idom b).isSome)
    (hbc : Above idom b c) : (idom c).isSome :=
  h.initial b c (hbc.le h.falling) hb

/-- A dominator of a node is on its chain, and dominates the chain down to itself. -/
theorem Refining.above_of_dom (h : Refining preds n idom i) {b d : Nat} (hb : (idom b).isSome)
    (hd : Dom (PredEdge preds n) 0 d b) :
    Above idom b d ∧ ∀ x, Above idom b x → d ≤ x → Dom (PredEdge preds n) 0 d x := by
  induction b using Nat.strong_induction_on with
  | _ b ih =>
    by_cases hdb : d = b
    · subst hdb
      refine ⟨.refl d, fun x hx hle => ?_⟩
      rw [Nat.le_antisymm (hx.le h.falling) hle]
      exact .refl d
    · have hb0 : b ≠ 0 := by
        rintro rfl
        exact hdb (dom_root_eq hd)
      obtain ⟨v, hv⟩ := Option.isSome_iff_exists.mp hb
      have hlt := h.falling b v ⟨hb0, hv⟩
      obtain ⟨habove, hall⟩ := ih v hlt (h.initial b v hlt.le hb) (h.dom b v ⟨hb0, hv⟩ d hdb hd)
      refine ⟨.up hb0 hv habove, fun x hx hle => ?_⟩
      rcases hx.cases with rfl | ⟨w, -, hw, hwx⟩
      · exact hd
      · rw [Option.some.inj (hw.symm.trans hv)] at hwx
        exact hall x hwx hle

/-- The node a turn links to. -/
structure Common (preds : Nat → List Nat) (idom : Nat → Option Nat) (i next : Nat) : Prop where
  lt : next < i
  iff : ∀ a, Above idom next a ↔ ∀ p ∈ preds i, (idom p).isSome → Above idom p a

theorem Common.above (h : Common preds idom i next) {p : Nat} (hp : p ∈ preds i)
    (hsome : (idom p).isSome) : Above idom p next :=
  (h.iff next).mp (.refl next) p hp hsome

/-- Chains only lose nodes. -/
theorem Refining.above_of_update (h : Refining preds n idom i) (hc : Common preds idom i next)
    (hi : i ≠ 0) {x a : Nat} (hx : (idom x).isSome)
    (hxa : Above (Function.update idom i (some next)) x a) : Above idom x a := by
  by_cases ha : i ≤ a
  · exact (above_update_ge h.falling hc.lt ha).mp hxa
  · by_cases hpass : Above idom x i
    · have hnext := (above_update_pass h.falling hi hc.lt (by omega) hpass).mp hxa
      obtain ⟨old, hold⟩ := Option.isSome_iff_exists.mp (h.isSome_of_above hx hpass)
      exact hpass.trans (.up hi hold (h.shrink i old ⟨hi, hold⟩ a ((hc.iff a).mp hnext)))
    · exact (above_update_miss hpass).mp hxa

theorem Refining.shrink_update (h : Refining preds n idom i) (hf : Forward preds n)
    (hc : Common preds idom i next) (hi : i ≠ 0) {b v a : Nat}
    (hup : Up (Function.update idom i (some next)) b v)
    (hall : ∀ p ∈ preds b, (Function.update idom i (some next) p).isSome →
      Above (Function.update idom i (some next)) p a) :
    Above (Function.update idom i (some next)) v a := by
  have hkeep : ∀ p, (idom p).isSome → (Function.update idom i (some next) p).isSome := by
    intro p hp
    by_cases hpi : p = i
    · simp [hpi]
    · rwa [Function.update_of_ne hpi]
  have hold : ∀ p ∈ preds b, (idom p).isSome → Above idom p a := fun p hp hsome =>
    h.above_of_update hc hi hsome (hall p hp (hkeep p hsome))
  obtain ⟨hb, hv⟩ := hup
  by_cases hbi : b = i
  · subst hbi
    rw [Function.update_self] at hv
    cases hv
    exact (above_update_lt h.falling hc.lt hc.lt).mpr ((hc.iff a).mpr hold)
  · rw [Function.update_of_ne hbi] at hv
    have hva := h.shrink b v ⟨hb, hv⟩ a hold
    by_cases ha : i ≤ a
    · exact (above_update_ge h.falling hc.lt ha).mpr hva
    · by_cases hpass : Above idom v i
      · -- the predecessor before `b` has `v` and so `i` on its chain
        have hbn : b < n := h.lt b (by rw [hv]; rfl)
        obtain ⟨p, hp, hpb⟩ := hf.earlier b hbn (by omega)
        have hpsome := h.initial b p hpb.le (by rw [hv]; rfl)
        have hpi := (h.held b v ⟨hb, hv⟩ p hp hpb (.inr (hpass.le h.falling))).trans hpass
        have hpa := hall p hp (hkeep p hpsome)
        have hnext := (above_update_pass h.falling hi hc.lt (by omega) hpi).mp hpa
        exact (above_update_pass h.falling hi hc.lt (by omega) hpass).mpr hnext
      · exact (above_update_miss hpass).mpr hva

theorem Refining.held_update (h : Refining preds n idom i) (hc : Common preds idom i next)
    (hin : i < n) {b v p : Nat} (hup : Up (Function.update idom i (some next)) b v) (hp : p ∈ preds b)
    (hpb : p < b) (hcond : b < i + 1 ∨ i + 1 ≤ v) :
    Above (Function.update idom i (some next)) p v := by
  obtain ⟨hb, hv⟩ := hup
  by_cases hbi : b = i
  · subst hbi
    rw [Function.update_self] at hv
    cases hv
    have hsome : (idom p).isSome := h.done p hpb (by omega)
    exact (above_update_lt h.falling hc.lt hpb).mpr (hc.above hp hsome)
  · rw [Function.update_of_ne hbi] at hv
    by_cases hlt : b < i
    · have := h.held b v ⟨hb, hv⟩ p hp hpb (.inl hlt)
      exact (above_update_lt h.falling hc.lt (by omega)).mpr this
    · have := h.held b v ⟨hb, hv⟩ p hp hpb (.inr (by omega))
      exact (above_update_ge h.falling hc.lt (by omega)).mpr this

/-- A strict dominator of a node dominates what its predecessors have in common. -/
theorem Refining.dom_next (h : Refining preds n idom i) (hf : Forward preds n)
    (hc : Common preds idom i next) (hi : 0 < i) (hin : i < n) {d : Nat} (hne : d ≠ i)
    (hd : Dom (PredEdge preds n) 0 d i) : Dom (PredEdge preds n) 0 d next := by
  have hpred : ∀ p ∈ preds i, (idom p).isSome → Above idom p d ∧
      ∀ x, Above idom p x → d ≤ x → Dom (PredEdge preds n) 0 d x := fun p hp hsome =>
    h.above_of_dom hsome (hd.of_edge hne ⟨hin, hp⟩)
  have hnext : Above idom next d := (hc.iff d).mpr fun p hp hsome => (hpred p hp hsome).1
  obtain ⟨p, hp, hpi⟩ := hf.earlier i hin hi
  have hsome := h.done p hpi (by omega)
  exact (hpred p hp hsome).2 next (hc.above hp hsome) (hnext.le h.falling)

/-- A turn keeps the invariant. -/
theorem Refining.update (h : Refining preds n idom i) (hf : Forward preds n)
    (hc : Common preds idom i next) (hi : 0 < i) (hin : i < n) :
    Refining preds n (Function.update idom i (some next)) (i + 1) := by
  have hi0 : i ≠ 0 := by omega
  have hnext : (idom next).isSome := h.done next hc.lt (by have := hc.lt; omega)
  have hsome : ∀ b, (Function.update idom i (some next) b).isSome ↔ b = i ∨ (idom b).isSome := by
    intro b
    by_cases hb : b = i
    · simp [hb]
    · simp [hb]
  refine ⟨?_, falling_update h.falling hc.lt, fun b v hb => ?_, fun b hb => ?_,
    fun b c hcb hb => ?_, fun b hb hbn => ?_, fun b v hup d hne hd => ?_,
    fun b v hup a hall => h.shrink_update hf hc hi0 hup hall,
    fun b v hup p hp hpb hcond => h.held_update hc hin hup hp hpb hcond⟩
  · rw [Function.update_of_ne hi0.symm]
    exact h.root
  · have hroot : Above (Function.update idom i (some next)) i 0 :=
      (above_update_pass h.falling hi0 hc.lt hi (.refl i)).mpr (h.above_root hnext)
    by_cases hbi : b = i
    · exact hbi ▸ hroot
    · rw [Function.update_of_ne hbi] at hb
      by_cases hpass : Above idom b i
      · exact (above_update_pass h.falling hi0 hc.lt hi hpass).mpr (h.above_root hnext)
      · exact (above_update_miss hpass).mpr (h.linked b v hb)
  · rcases (hsome b).mp hb with rfl | hb
    · exact hin
    · exact h.lt b hb
  · rw [hsome]
    by_cases hci : c < i
    · exact .inr (h.done c hci (by omega))
    · rcases (hsome b).mp hb with rfl | hb
      · exact .inl (by omega)
      · exact .inr (h.initial b c hcb hb)
  · rw [hsome]
    by_cases hbi : b = i
    · exact .inl hbi
    · exact .inr (h.done b (by omega) hbn)
  · obtain ⟨hb, hv⟩ := hup
    by_cases hbi : b = i
    · subst hbi
      rw [Function.update_self] at hv
      cases hv
      exact h.dom_next hf hc hi hin hne hd
    · rw [Function.update_of_ne hbi] at hv
      exact h.dom b v ⟨hb, hv⟩ d hne hd

theorem Refining.start (hf : Forward preds n) :
    Refining preds n (Function.update (fun _ => none) 0 (some 0)) 1 := by
  have hup : ∀ b v, ¬ Up (Function.update (fun _ => none) 0 (some 0)) b v := by
    rintro b v ⟨hb, hv⟩
    rw [Function.update_of_ne hb] at hv
    cases hv
  have hzero : ∀ b, (Function.update (fun _ => none) 0 (some 0) b : Option Nat).isSome → b = 0 := by
    intro b hb
    by_contra hne
    rw [Function.update_of_ne hne] at hb
    simp at hb
  refine ⟨by simp, fun b v h => absurd h (hup b v), fun b v hb => ?_, fun b hb => ?_,
    fun b c hcb hb => ?_, fun b hb _ => ?_, fun b v h => absurd h (hup b v),
    fun b v h => absurd h (hup b v), fun b v h => absurd h (hup b v)⟩
  · rw [hzero b (by rw [hb]; rfl)]
    exact .refl 0
  · rw [hzero b hb]
    exact hf.pos
  · obtain rfl : c = 0 := by
      have := hzero b hb
      omega
    simp
  · obtain rfl : b = 0 := by omega
    simp

/-- Between rounds every link is on the chains of the predecessors before its node. -/
theorem Refining.again (h : Refining preds n idom n) : Refining preds n idom 1 where
  root := h.root
  falling := h.falling
  linked := h.linked
  lt := h.lt
  initial := h.initial
  done b _ hbn := h.done b hbn hbn
  dom := h.dom
  shrink := h.shrink
  held b v hup p hp hpb _ := by
    have hbn : b < n := h.lt b (by rw [hup.2]; rfl)
    exact h.held b v hup p hp hpb (.inl hbn)

/-- What a turn does. -/
theorem Refining.refine_eq (h : Refining preds n idom i) (hf : Forward preds n) (hi : 0 < i)
    (hin : i < n) (changed : Bool) : ∃ next, Common preds idom i next ∧
      refine preds (idom, changed) i = some (if idom i = some next then (idom, changed)
        else (Function.update idom i (some next), true)) := by
  obtain ⟨p, hp, hpi⟩ := hf.earlier i hin hi
  have hpsome := h.done p hpi (by omega)
  have hmem : ∀ q, q ∈ (preds i).filter (fun q => (idom q).isSome) ↔
      q ∈ preds i ∧ (idom q).isSome := fun q => List.mem_filter
  cases hfilter : (preds i).filter fun q => (idom q).isSome with
  | nil =>
    have := (hmem p).mpr ⟨hp, hpsome⟩
    rw [hfilter] at this
    simp at this
  | cons first rest =>
    rw [hfilter] at hmem
    have hroot : ∀ q ∈ first :: rest, Above idom q 0 := fun q hq =>
      h.above_root ((hmem q).mp hq).2
    have hrest : ∀ q ∈ rest, Above idom q 0 := fun q hq => hroot q (by simp [hq])
    obtain ⟨next, hnext, hall⟩ := foldlM_intersect h.falling (hroot first (by simp)) hrest
    have hiff : ∀ a, Above idom next a ↔ ∀ q ∈ preds i, (idom q).isSome → Above idom q a := by
      intro a
      rw [hall a]
      exact ⟨fun hq q hq' hsome => hq q ((hmem q).mpr ⟨hq', hsome⟩),
        fun hq q hq' => hq q ((hmem q).mp hq').1 ((hmem q).mp hq').2⟩
    have hle := ((hiff next).mp (.refl next) p hp hpsome).le h.falling
    refine ⟨next, ⟨by omega, hiff⟩, ?_⟩
    simp only [refine, hfilter, hnext, Option.bind_eq_bind, Option.bind_some]
    split <;> rfl

/-! ## Links only fall -/

/-- Weight of the links; a missing link weighs `n`. -/
def linkWeight (n : Nat) (idom : Nat → Option Nat) : Nat :=
  ((List.range n).map fun b => (idom b).getD n).sum

theorem linkWeight_update (hin : i < n) (hless : next < (idom i).getD n) :
    linkWeight n (Function.update idom i (some next)) < linkWeight n idom := by
  refine List.sum_lt_sum _ _ (fun b _ => ?_) ⟨i, List.mem_range.mpr hin, ?_⟩
  · by_cases hb : b = i
    · subst hb
      rw [Function.update_self]
      exact hless.le
    · rw [Function.update_of_ne hb]
  · rw [Function.update_self]
    exact hless

theorem Refining.next_lt (h : Refining preds n idom i) (hc : Common preds idom i next)
    (hi : 0 < i) (hin : i < n) (hmoved : idom i ≠ some next) : next < (idom i).getD n := by
  cases hold : idom i with
  | none =>
    have := hc.lt
    simp only [Option.getD_none]
    omega
  | some old =>
    have habove := h.shrink i old ⟨by omega, hold⟩ next ((hc.iff next).mp (.refl next))
    have hle := habove.le h.falling
    have hne : next ≠ old := fun heq => hmoved (heq ▸ hold)
    simp only [Option.getD_some]
    omega

end Step

/-! ## Rounds -/

/-- The links of the nodes before `i` are where a turn would put them. -/
def Settled (preds : Nat → List Nat) (idom : Nat → Option Nat) (i : Nat) : Prop :=
  ∀ b, 0 < b → b < i → ∃ v, idom b = some v ∧ Common preds idom b v

/-- A round that started from `first`, before the turn of `i`. -/
structure InRound (preds : Nat → List Nat) (n : Nat) (first : Nat → Option Nat)
    (state : (Nat → Option Nat) × Bool) (i : Nat) : Prop where
  refining : Refining preds n state.1 i
  unchanged : state.2 = false → state.1 = first ∧ Settled preds state.1 i
  changed : state.2 = true → linkWeight n state.1 < linkWeight n first

section Rounds
variable {preds : Nat → List Nat} {n i : Nat} {idom first : Nat → Option Nat}
  {state : (Nat → Option Nat) × Bool}

theorem InRound.step (h : InRound preds n first state i) (hf : Forward preds n) (hi : 0 < i)
    (hin : i < n) : ∃ state', refine preds state i = some state' ∧
      InRound preds n first state' (i + 1) := by
  obtain ⟨idom, changed⟩ := state
  obtain ⟨next, hc, heq⟩ := h.refining.refine_eq hf hi hin changed
  have hupdate := h.refining.update hf hc hi hin
  by_cases hsame : idom i = some next
  · rw [if_pos hsame] at heq
    have hid : Function.update idom i (some next) = idom := by
      rw [← hsame, Function.update_eq_self]
    rw [hid] at hupdate
    refine ⟨_, heq, hupdate, fun hch => ⟨(h.unchanged hch).1, fun b hb hbi => ?_⟩, h.changed⟩
    by_cases hbi' : b = i
    · subst hbi'
      exact ⟨next, hsame, hc⟩
    · exact (h.unchanged hch).2 b hb (by omega)
  · rw [if_neg hsame] at heq
    refine ⟨_, heq, hupdate, by simp, fun _ => ?_⟩
    have hless := linkWeight_update hin (h.refining.next_lt hc hi hin hsame)
    cases hch : changed with
    | false => exact (h.unchanged hch).1 ▸ hless
    | true => exact hless.trans (h.changed hch)

theorem InRound.run (hf : Forward preds n) (k : Nat) (hk : i + k = n) (hi : 0 < i)
    (h : InRound preds n first state i) :
    ∃ state', (List.range' i k).foldlM (refine preds) state = some state' ∧
      InRound preds n first state' n := by
  induction k generalizing i state with
  | zero =>
    obtain rfl : i = n := by omega
    exact ⟨state, rfl, h⟩
  | succ k ih =>
    obtain ⟨state', hstep, h'⟩ := h.step hf hi (by omega)
    rw [List.range'_succ, List.foldlM_cons, hstep]
    exact ih (by omega) (by omega) h'

theorem refineRound_spec (hf : Forward preds n) (h : Refining preds n idom 1) :
    ∃ state', refineRound preds n idom = some state' ∧ InRound preds n idom state' n := by
  have hpos := hf.pos
  have hstart : InRound preds n idom (idom, false) 1 :=
    ⟨h, fun _ => ⟨rfl, fun b hb hb' => by omega⟩, by simp⟩
  exact InRound.run hf (n - 1) (by omega) (by omega) hstart

theorem refineLoop_spec (hf : Forward preds n) (fuel : Nat) (h : Refining preds n idom 1)
    (hfuel : linkWeight n idom < fuel) : ∃ idom', refineLoop preds n fuel idom = some idom' ∧
      Refining preds n idom' n ∧ Settled preds idom' n := by
  induction fuel generalizing idom with
  | zero => omega
  | succ fuel ih =>
    obtain ⟨⟨idom', changed⟩, hround, hin⟩ := refineRound_spec hf h
    unfold refineLoop
    rw [hround]
    cases hch : changed with
    | false =>
      rw [hch] at hin
      exact ⟨idom', rfl, hin.refining, (hin.unchanged rfl).2⟩
    | true =>
      rw [hch] at hin
      have := hin.changed rfl
      exact ih hin.refining.again (by dsimp only at this; omega)

/-! ## Exactness -/

/-- Settled links have only dominators on their chains. -/
theorem Refining.dom_of_above (h : Refining preds n idom n) (hf : Forward preds n)
    (hs : Settled preds idom n) {b d : Nat} (hbd : Above idom b d) :
    Dom (PredEdge preds n) 0 d b := by
  rintro ⟨hd, hwalk⟩
  -- a walk that misses `d` meets only nodes without `d` on their chain
  have hkey : ∀ c, ReflTransGen (fun u v => PredEdge preds n u v ∧ v ≠ d) 0 c →
      ¬ Above idom c d := by
    intro c hc
    induction hc with
    | refl => exact fun hcd => hd (above_zero_iff.mp hcd).symm
    | @tail u v _ huv ih =>
      obtain ⟨⟨hvn, hu⟩, hvd⟩ := huv
      intro habove
      by_cases hv : v = 0
      · subst hv
        exact hd (above_zero_iff.mp habove).symm
      · obtain ⟨w, hw, hcommon⟩ := hs v (by omega) hvn
        have hrest := habove.rest hw hvd.symm
        exact ih ((hcommon.iff d).mp hrest u hu (h.done u (hf.lt v hvn u hu) (hf.lt v hvn u hu)))
  exact hkey b hwalk hbd

theorem linkWeight_le (hle : ∀ b, (idom b).getD n ≤ n) : linkWeight n idom ≤ n * n := by
  have hall : ∀ w ∈ (List.range n).map (fun b => (idom b).getD n), w ≤ n := by
    intro w hw
    obtain ⟨b, -, rfl⟩ := List.mem_map.mp hw
    exact hle b
  simpa [linkWeight] using List.sum_le_card_nsmul _ n hall

/-- The rounds end with links whose chains are the sets of dominators. -/
theorem iterativeDominators_exact (hf : Forward preds n) :
    ∃ idom, iterativeDominators preds n = some idom ∧ Falling idom ∧ idom 0 = some 0 ∧
      (∀ b, (idom b).isSome ↔ b < n) ∧ (∀ b < n, Above idom b 0) ∧
      ∀ b < n, ∀ d, Above idom b d ↔ Dom (PredEdge preds n) 0 d b := by
  have hstart := Refining.start hf
  have hweight : linkWeight n (Function.update (fun _ => none) 0 (some 0)) ≤ n * n := by
    refine linkWeight_le fun b => ?_
    by_cases hb : b = 0
    · simp [hb]
    · simp [hb]
  obtain ⟨idom, hloop, href, hs⟩ := refineLoop_spec hf (n * n + 1) hstart (by omega)
  have hsome : ∀ b, (idom b).isSome ↔ b < n := fun b =>
    ⟨href.lt b, fun hb => href.done b hb hb⟩
  refine ⟨idom, hloop, href.falling, href.root, hsome, fun b hb => href.above_root ((hsome b).mpr hb),
    fun b hb d => ⟨href.dom_of_above hf hs, fun hd => ?_⟩⟩
  exact (href.above_of_dom ((hsome b).mpr hb) hd).1

end Rounds
end Celox.Graph
