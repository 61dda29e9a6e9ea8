import Celox.Graph.Chains

/-! # Entry and exit times of a tree

A clock ticks when a walk enters or leaves a node. One node lies below another exactly when its
interval lies inside. -/
namespace Celox.Graph

structure Times where
  enter : Nat → Nat
  exit : Nat → Nat
  time : Nat

def Times.enterAt (times : Times) (b : Nat) : Times :=
  { times with enter := Function.update times.enter b times.time, time := times.time + 1 }

def Times.exitAt (times : Times) (b : Nat) : Times :=
  { times with exit := Function.update times.exit b times.time, time := times.time + 1 }

/-- Events still to handle, the next one first; `true` marks the end of a node. -/
def timeLoop (children : Nat → List Nat) : (fuel : Nat) → List (Nat × Bool) → Times → Times
  | 0, _, times => times
  | _ + 1, [], times => times
  | fuel + 1, (b, true) :: events, times => timeLoop children fuel events (times.exitAt b)
  | fuel + 1, (b, false) :: events, times =>
    timeLoop children fuel ((children b).map (·, false) ++ (b, true) :: events) (times.enterAt b)

/-- The walk over whole subtrees, one after the other. -/
inductive Timing (children : Nat → List Nat) : Times → List Nat → Times → Prop where
  | nil (t : Times) : Timing children t [] t
  | cons {t u v : Times} {b : Nat} {bs : List Nat} :
      Timing children (t.enterAt b) (children b) u → Timing children (u.exitAt b) bs v →
      Timing children t (b :: bs) v

section Walk
variable {children : Nat → List Nat} {t v : Times} {bs : List Nat}

theorem Timing.le (h : Timing children t bs v) : t.time ≤ v.time := by
  induction h with
  | nil => exact Nat.le_refl _
  | cons _ _ ih ih' =>
    simp only [Times.enterAt, Times.exitAt] at ih ih'
    omega

/-- The loop makes the walk, one step for each tick. -/
theorem Timing.loop (h : Timing children t bs v) (fuel : Nat) (rest : List (Nat × Bool)) :
    timeLoop children (fuel + (v.time - t.time)) (bs.map (·, false) ++ rest) t =
      timeLoop children fuel rest v := by
  induction h generalizing fuel rest with
  | nil t => simp
  | @cons t u v b bs hsub hrest ih ih' =>
    have hle := hsub.le
    have hle' := hrest.le
    simp only [Times.enterAt, Times.exitAt] at hle hle'
    have hfuel : fuel + (v.time - t.time) =
        fuel + (v.time - (u.exitAt b).time) + 1 + (u.time - (t.enterAt b).time) + 1 := by
      simp only [Times.enterAt, Times.exitAt]
      omega
    rw [hfuel, List.map_cons, List.cons_append, timeLoop, ih, timeLoop, ih']

end Walk

/-- The rows of a tree: each node is in one row at most, and ranks grow from a node to its
children. -/
structure RankedRows (children : Nat → List Nat) (rank : Nat → Nat) (n : Nat) : Prop where
  lt : ∀ b, ∀ c ∈ children b, c < n
  rank_lt : ∀ b, ∀ c ∈ children b, rank b < rank c
  bound : ∀ b < n, rank b ≤ n
  unique : ∀ b d c, c ∈ children b → c ∈ children d → b = d
  nodup : ∀ b, (children b).Nodup

/-- `x` is in the subtree of `b`. -/
def Below (children : Nat → List Nat) (b x : Nat) : Prop :=
  Relation.ReflTransGen (fun d c => c ∈ children d) b x

section Tree
variable {children : Nat → List Nat} {rank : Nat → Nat} {n : Nat} {b c d x : Nat}

theorem RankedRows.le (h : RankedRows children rank n) (hbx : Below children b x) :
    rank b ≤ rank x := by
  induction hbx with
  | refl => exact le_rfl
  | tail _ hcd ih => exact ih.trans (h.rank_lt _ _ hcd).le

theorem RankedRows.total (h : RankedRows children rank n) (hb : Below children b x)
    (hd : Below children d x) : Below children b d ∨ Below children d b := by
  have hflip : ∀ {u v : Nat}, Relation.ReflTransGen (fun c d => c ∈ children d) u v →
      Below children v u := fun huv => Relation.reflTransGen_swap.mp huv
  rcases Relation.ReflTransGen.total_of_right_unique (r := fun c d => c ∈ children d)
    (fun u v w huv huw => h.unique v w u huv huw) (Relation.reflTransGen_swap.mpr hb)
    (Relation.reflTransGen_swap.mpr hd) with hbd | hdb
  · exact .inr (hflip hbd)
  · exact .inl (hflip hdb)

/-- The subtrees of greater rank can be walked. -/
theorem RankedRows.timing (h : RankedRows children rank n) (m : Nat) (bs : List Nat)
    (hbs : ∀ b ∈ bs, b < n ∧ n < m + rank b) (t : Times) : ∃ v, Timing children t bs v := by
  induction m generalizing bs t with
  | zero =>
    cases bs with
    | nil => exact ⟨t, .nil t⟩
    | cons b bs =>
      obtain ⟨hb, hrank⟩ := hbs b List.mem_cons_self
      have := h.bound b hb
      omega
  | succ m ihm =>
    induction bs generalizing t with
    | nil => exact ⟨t, .nil t⟩
    | cons b bs ih =>
      have hbelow : ∀ c ∈ children b, c < n ∧ n < m + rank c := by
        intro c hc
        have := h.rank_lt b c hc
        have := (hbs b List.mem_cons_self).2
        exact ⟨h.lt b c hc, by omega⟩
      obtain ⟨u, hu⟩ := ihm _ hbelow (t.enterAt b)
      obtain ⟨v, hv⟩ := ih (fun c hc => hbs c (List.mem_cons_of_mem _ hc)) (u.exitAt b)
      exact ⟨v, .cons hu hv⟩

/-- `x` is in one of the subtrees. -/
def Under (children : Nat → List Nat) (bs : List Nat) (x : Nat) : Prop :=
  ∃ b ∈ bs, Below children b x

/-- Subtrees that share no node. -/
def Apart (children : Nat → List Nat) (bs : List Nat) : Prop :=
  bs.Pairwise fun a b => ∀ x, Below children a x → ¬ Below children b x

/-- Nodes below the node are those below its children. -/
theorem below_iff : Below children b x ↔ x = b ∨ Under children (children b) x := by
  constructor
  · intro hbx
    rcases Relation.ReflTransGen.cases_head hbx with rfl | ⟨c, hc, hcx⟩
    · exact .inl rfl
    · exact .inr ⟨c, hc, hcx⟩
  · rintro (rfl | ⟨c, hc, hcx⟩)
    · exact .refl
    · exact .head hc hcx

theorem RankedRows.rank_of_under (h : RankedRows children rank n)
    (hx : Under children (children b) x) : rank b < rank x := by
  obtain ⟨c, hc, hcx⟩ := hx
  exact (h.rank_lt b c hc).trans_le (h.le hcx)

theorem RankedRows.lt_of_under (h : RankedRows children rank n) {bs : List Nat}
    (hbs : ∀ b ∈ bs, b < n) (hx : Under children bs x) : x < n := by
  obtain ⟨b, hb, hbx⟩ := hx
  rcases Relation.ReflTransGen.cases_tail hbx with rfl | ⟨c, -, hcx⟩
  · exact hbs x hb
  · exact h.lt c x hcx

theorem RankedRows.apart (h : RankedRows children rank n) (b : Nat) :
    Apart children (children b) := by
  refine (h.nodup b).imp_of_mem fun {c d} hc hd hne x hcx hdx => ?_
  -- of two siblings on a chain one would be above their parent
  have hself : ∀ {c d : Nat}, c ∈ children b → d ∈ children b → c ≠ d →
      ¬ Below children c d := fun {c d} hc hd hne hcd => by
    rcases Relation.ReflTransGen.cases_tail hcd with heq | ⟨e, hce, hed⟩
    · exact hne heq.symm
    · obtain rfl := h.unique e b d hed hd
      have := h.le hce
      have := h.rank_lt e c hc
      omega
  rcases h.total hcx hdx with hcd | hdc
  · exact hself hc hd hne hcd
  · exact hself hd hc hne.symm hdc

/-- What the walk records. -/
structure Placed (children : Nat → List Nat) (t : Times) (bs : List Nat) (v : Times) : Prop where
  frame : ∀ x, ¬ Under children bs x → v.enter x = t.enter x ∧ v.exit x = t.exit x
  bounds : ∀ x, Under children bs x →
    t.time ≤ v.enter x ∧ v.enter x < v.exit x ∧ v.exit x < v.time
  nested : ∀ x y, Under children bs x → Under children bs y →
    (v.enter x ≤ v.enter y ∧ v.exit y ≤ v.exit x ↔ Below children x y)
  count : ∃ l : List Nat, l.Nodup ∧ (∀ x ∈ l, Under children bs x) ∧
    v.time = t.time + 2 * l.length

theorem under_cons {bs : List Nat} :
    Under children (b :: bs) x ↔ Below children b x ∨ Under children bs x := by
  simp [Under]

theorem Timing.placed (h : RankedRows children rank n) {t v : Times} {bs : List Nat}
    (htiming : Timing children t bs v) (hapart : Apart children bs) : Placed children t bs v := by
  induction htiming with
  | nil t => exact ⟨by simp, by simp [Under], by simp [Under], [], by simp, by simp, by simp⟩
  | @cons t u v b bs hsub hrest ih ih' =>
    obtain ⟨hb, hbs⟩ := List.pairwise_cons.mp hapart
    have hc := ih (h.apart b)
    have hr := ih' hbs
    have hself : ¬ Under children (children b) b := fun hu => by
      have := h.rank_of_under hu
      omega
    have hout : ∀ x, Below children b x → ¬ Under children bs x := by
      rintro x hbx ⟨c, hc, hcx⟩
      exact hb c hc x hbx hcx
    have henter : v.enter b = t.time := by
      rw [(hr.frame b (hout b .refl)).1]
      have := (hc.frame b hself).1
      simpa [Times.exitAt, Times.enterAt] using this
    have hexit : v.exit b = u.time := by
      rw [(hr.frame b (hout b .refl)).2]
      simp [Times.exitAt]
    -- the times of the children stay what the walk below made them
    have hchild : ∀ x, Under children (children b) x →
        v.enter x = u.enter x ∧ v.exit x = u.exit x := by
      intro x hu
      have hxb : x ≠ b := by
        rintro rfl
        exact hself hu
      obtain ⟨hfe, hfx⟩ := hr.frame x (hout x (below_iff.mpr (.inr hu)))
      refine ⟨hfe, hfx.trans ?_⟩
      simp [Times.exitAt, hxb]
    have hcb : ∀ x, Under children (children b) x →
        t.time < v.enter x ∧ v.enter x < v.exit x ∧ v.exit x < u.time := by
      intro x hu
      obtain ⟨he, hx'⟩ := hchild x hu
      have := hc.bounds x hu
      simp only [Times.enterAt] at this
      omega
    have hrb : ∀ x, Under children bs x →
        u.time < v.enter x ∧ v.enter x < v.exit x ∧ v.exit x < v.time := by
      intro x hu
      have := hr.bounds x hu
      simp only [Times.exitAt] at this
      omega
    have hule := hsub.le
    have hvle := hrest.le
    simp only [Times.enterAt, Times.exitAt] at hule hvle
    refine ⟨fun x hnot => ?_, fun x hu => ?_, fun x y hux huy => ?_, ?_⟩
    · rw [under_cons, not_or, below_iff, not_or] at hnot
      obtain ⟨⟨hxb, hxc⟩, hxbs⟩ := hnot
      obtain ⟨he, hx'⟩ := hr.frame x hxbs
      obtain ⟨he', hx''⟩ := hc.frame x hxc
      refine ⟨he.trans (Eq.trans ?_ (he'.trans ?_)), hx'.trans (Eq.trans ?_ (hx''.trans ?_))⟩ <;>
        simp [Times.enterAt, Times.exitAt, hxb]
    · rw [under_cons, below_iff] at hu
      rcases hu with (rfl | hu) | hu
      · omega
      · have := hcb x hu
        omega
      · have := hrb x hu
        omega
    · rw [under_cons, below_iff] at hux huy
      rcases hux with (rfl | hux) | hux
      · rcases huy with (rfl | huy) | huy
        · exact iff_of_true ⟨le_rfl, le_rfl⟩ .refl
        · have := hcb y huy
          exact iff_of_true (by omega) (below_iff.mpr (.inr huy))
        · have := hrb y huy
          exact iff_of_false (by omega) fun hyx => hout y hyx huy
      · have hbx := h.rank_of_under hux
        have hx' := hcb x hux
        rcases huy with (rfl | huy) | huy
        · refine iff_of_false (by omega) fun hyx => ?_
          have := h.le hyx
          omega
        · rw [(hchild x hux).1, (hchild x hux).2, (hchild y huy).1, (hchild y huy).2]
          exact hc.nested x y hux huy
        · have := hrb y huy
          refine iff_of_false (by omega) fun hyx => hout y ?_ huy
          exact (below_iff.mpr (.inr hux)).trans hyx
      · have hx' := hrb x hux
        -- what lies below the other subtrees is under them too
        have hdown : ∀ y, Below children x y → Under children bs y := by
          obtain ⟨c, hc, hxc⟩ := hux
          exact fun y hyx => ⟨c, hc, hxc.trans hyx⟩
        rcases huy with (rfl | huy) | huy
        · exact iff_of_false (by omega) fun hyx => hout y .refl (hdown y hyx)
        · have := hcb y huy
          refine iff_of_false (by omega) fun hyx => hout y ?_ (hdown y hyx)
          exact below_iff.mpr (.inr huy)
        · exact hr.nested x y hux huy
    · obtain ⟨l, hl, hlmem, hltime⟩ := hc.count
      obtain ⟨l', hl', hlmem', hltime'⟩ := hr.count
      simp only [Times.enterAt, Times.exitAt] at hltime hltime'
      have hunder : ∀ x ∈ l, Below children b x := fun x hx => below_iff.mpr (.inr (hlmem x hx))
      refine ⟨b :: (l ++ l'), List.nodup_cons.mpr ⟨fun hmem => ?_, ?_⟩, fun x hx => ?_, ?_⟩
      · rcases List.mem_append.mp hmem with hm | hm
        · exact hself (hlmem b hm)
        · exact hout b .refl (hlmem' b hm)
      · exact hl.append hl' fun x hx hx' => hout x (hunder x hx) (hlmem' x hx')
      · rw [under_cons]
        rcases List.mem_cons.mp hx with rfl | hx
        · exact .inl .refl
        · exact (List.mem_append.mp hx).imp (hunder x) (hlmem' x)
      · simp only [List.length_cons, List.length_append]
        omega

/-- A walk over a whole tree takes two ticks for each of its nodes. -/
theorem Placed.time_le (h : RankedRows children rank n) {t v : Times} {bs : List Nat}
    (hbs : ∀ b ∈ bs, b < n) (hplaced : Placed children t bs v) : v.time ≤ t.time + 2 * n := by
  obtain ⟨l, hl, hlmem, hltime⟩ := hplaced.count
  have hsub : l ⊆ List.range n := fun b hb => List.mem_range.mpr (h.lt_of_under hbs (hlmem b hb))
  have := (hl.subperm hsub).length_le
  rw [List.length_range] at this
  omega

end Tree

/-! ## Links to smaller nodes -/

/-- The rows of a tree given by parent links. -/
structure ChildRows (parent : Nat → Option Nat) (children : Nat → List Nat) (n : Nat) : Prop where
  falling : Falling parent
  mem : ∀ b c, c ∈ children b ↔ c < n ∧ Up parent c b
  nodup : ∀ b, (children b).Nodup

section Links
variable {parent : Nat → Option Nat} {children : Nat → List Nat} {n : Nat}

theorem ChildRows.ranked (h : ChildRows parent children n) : RankedRows children id n where
  lt b c hc := ((h.mem b c).mp hc).1
  rank_lt b c hc := h.falling c b ((h.mem b c).mp hc).2
  bound _ hb := hb.le
  unique b d c hb hd :=
    Option.some.inj (((h.mem b c).mp hb).2.2.symm.trans ((h.mem d c).mp hd).2.2)
  nodup := h.nodup

theorem ChildRows.below_iff (h : ChildRows parent children n) {b x : Nat} (hx : x < n) :
    Below children b x ↔ Above parent x b := by
  constructor
  · intro hbx
    induction hbx with
    | refl => exact .refl b
    | @tail c d _ hcd ih =>
      have hup := ((h.mem c d).mp hcd).2
      exact .head hup (ih ((h.falling d c hup).trans hx))
  · intro hxb
    induction hxb using Relation.ReflTransGen.head_induction_on with
    | refl => exact .refl
    | @head u v huv hvb ih =>
      have hlt := h.falling u v huv
      exact (ih (by omega)).tail ((h.mem v u).mpr ⟨hx, huv⟩)

/-- Intervals nest as the tree does. -/
theorem timeLoop_nested (h : ChildRows parent children n) (hpos : 0 < n)
    (hroot : ∀ b < n, Above parent b 0) (t : Times) {x y : Nat} (hx : x < n) (hy : y < n) :
    (timeLoop children (2 * n) [(0, false)] t).enter x ≤
        (timeLoop children (2 * n) [(0, false)] t).enter y ∧
      (timeLoop children (2 * n) [(0, false)] t).exit y ≤
        (timeLoop children (2 * n) [(0, false)] t).exit x ↔ Above parent y x := by
  obtain ⟨v, hv⟩ := h.ranked.timing (n + 1) [0] (fun b hb => by
    obtain rfl := List.mem_singleton.mp hb
    exact ⟨hpos, Nat.lt_succ_self n⟩) t
  have hplaced := hv.placed h.ranked (List.pairwise_singleton _ _)
  have htime := hplaced.time_le h.ranked (by simpa using hpos)
  have hloop := hv.loop (2 * n - (v.time - t.time)) []
  have hfuel : 2 * n - (v.time - t.time) + (v.time - t.time) = 2 * n := by omega
  rw [hfuel] at hloop
  have hdone : timeLoop children (2 * n - (v.time - t.time)) [] v = v := by
    cases 2 * n - (v.time - t.time) <;> rfl
  have hunder : ∀ x < n, Under children [0] x := fun x hx =>
    ⟨0, List.mem_singleton_self 0, (h.below_iff hx).mpr (hroot x hx)⟩
  rw [show [(0, false)] = [0].map (·, false) ++ [] from rfl, hloop, hdone, ← h.below_iff hy]
  exact hplaced.nested x y (hunder x hx) (hunder y hy)

end Links
end Celox.Graph
