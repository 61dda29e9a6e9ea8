import Celox.Cfg.LengauerTarjan
import Celox.Graph.Semidominator

/-! # Evaluation in the compressed forest

The nodes from some number on are linked to an ancestor; the label of a linked node has the least
semidominator between that ancestor and the node. -/
namespace Celox.Cfg
open Celox.Graph

section Forest
variable {size : Nat} {E : Nat → Nat → Prop} {parent : Nat → Nat} {semi semi' : Nat → Nat}
  {first : Nat} {forest : Forest}

structure Linked (size : Nat) (parent : Nat → Nat) (semi : Nat → Nat) (first : Nat)
    (forest : Forest) : Prop where
  root : ∀ v < first, forest.ancestor v = 0 ∧ forest.label v = v
  pos : ∀ v, first ≤ v → v ≤ size → 1 ≤ forest.ancestor v
  lt : ∀ v, first ≤ v → v ≤ size → forest.ancestor v < v
  anc : ∀ v, first ≤ v → v ≤ size → Anc size parent (forest.ancestor v) v
  between : ∀ v, first ≤ v → v ≤ size → ∀ x, forest.ancestor v < x → Anc size parent x v →
    first ≤ x
  label_lt : ∀ v, first ≤ v → v ≤ size → forest.ancestor v < forest.label v
  label_anc : ∀ v, first ≤ v → v ≤ size → Anc size parent (forest.label v) v
  label_least : ∀ v, first ≤ v → v ≤ size → ∀ x, forest.ancestor v < x → Anc size parent x v →
    semi (forest.label v) ≤ semi x

theorem Linked.start (h : size < first) : Linked size parent semi first ⟨fun _ => 0, id⟩ where
  root _ _ := ⟨rfl, rfl⟩
  pos v hv hs := by omega
  lt v hv hs := by omega
  anc v hv hs := by omega
  between v hv hs := by omega
  label_lt v hv hs := by omega
  label_anc v hv hs := by omega
  label_least v hv hs := by omega

/-- Labels and what they are compared with are linked themselves. -/
theorem Linked.congr (h : Linked size parent semi first forest)
    (hsemi : ∀ v, first ≤ v → semi' v = semi v) : Linked size parent semi' first forest :=
  { h with
    label_least := by
      intro v hv hs x hx hanc
      have hlabel := h.between v hv hs _ (h.label_lt v hv hs) (h.label_anc v hv hs)
      rw [hsemi _ hlabel, hsemi x (h.between v hv hs x hx hanc)]
      exact h.label_least v hv hs x hx hanc }

theorem Linked.ancestor_of_ne (h : Linked size parent semi first forest) {v : Nat}
    (hv : forest.ancestor v ≠ 0) : first ≤ v := by
  by_contra hlt
  exact hv (h.root v (by omega)).1

/-! ## Linking -/

/-- The next number is linked to its parent. -/
theorem Linked.link (t : DfsTree size E parent) {w : Nat}
    (h : Linked size parent semi (w + 1) forest) (h1 : 1 < w) (hw : w ≤ size) :
    Linked size parent semi w
      { forest with ancestor := Function.update forest.ancestor w (parent w) } := by
  have hlabel : forest.label w = w := (h.root w (by omega)).2
  have hself : ∀ x, parent w < x → Anc size parent x w → x = w := by
    intro x hx hanc
    by_contra hne
    have := t.anc_le_parent hanc hne
    omega
  have hcase : ∀ v, w ≤ v → v = w ∨ w + 1 ≤ v := by omega
  have hother : ∀ v, v ≠ w → Function.update forest.ancestor w (parent w) v = forest.ancestor v :=
    fun v hv => Function.update_of_ne hv ..
  refine ⟨fun v hv => ?_, fun v hv hs => ?_, fun v hv hs => ?_, fun v hv hs => ?_,
    fun v hv hs x hx hanc => ?_, fun v hv hs => ?_, fun v hv hs => ?_,
    fun v hv hs x hx hanc => ?_⟩ <;> dsimp only at *
  · rw [hother v (by omega)]
    exact h.root v (by omega)
  · rcases hcase v hv with rfl | hv
    · rw [Function.update_self]
      exact t.parent_pos v h1 hw
    · rw [hother v (by omega)]
      exact h.pos v hv hs
  · rcases hcase v hv with rfl | hv
    · rw [Function.update_self]
      exact t.parent_lt v h1 hw
    · rw [hother v (by omega)]
      exact h.lt v hv hs
  · rcases hcase v hv with rfl | hv
    · rw [Function.update_self]
      exact .of_parent h1 hw
    · rw [hother v (by omega)]
      exact h.anc v hv hs
  · rcases hcase v hv with rfl | hv
    · rw [Function.update_self] at hx
      rw [hself x hx hanc]
    · rw [hother v (by omega)] at hx
      have := h.between v hv hs x hx hanc
      omega
  · rcases hcase v hv with rfl | hv
    · rw [Function.update_self, hlabel]
      exact t.parent_lt v h1 hw
    · rw [hother v (by omega)]
      exact h.label_lt v hv hs
  · rcases hcase v hv with rfl | hv
    · rw [hlabel]
      exact .refl v
    · exact h.label_anc v hv hs
  · rcases hcase v hv with rfl | hv
    · rw [Function.update_self] at hx
      rw [hself x hx hanc, hlabel]
    · rw [hother v (by omega)] at hx
      exact h.label_least v hv hs x hx hanc

/-! ## Compression -/

/-- Passing a linked ancestor takes over what lies above it. -/
theorem Linked.compress (t : DfsTree size E parent) (h : Linked size parent semi first forest)
    {node : Nat} (hnode : first ≤ node) (hsize : node ≤ size)
    (hup : first ≤ forest.ancestor node) :
    Linked size parent semi first (forest.compress semi node) := by
  have hup_lt := h.lt node hnode hsize
  have hup_size : forest.ancestor node ≤ size := by omega
  have hup_anc := h.anc node hnode hsize
  have htop_lt := h.lt _ hup hup_size
  have hlabel_up := h.label_lt _ hup hup_size
  have hlabel_node := h.label_lt node hnode hsize
  have hancestor : (forest.compress semi node).ancestor =
      Function.update forest.ancestor node (forest.ancestor (forest.ancestor node)) := rfl
  -- the label of the node is one of the two and the least of both
  obtain ⟨hlabel_new, hlabel_old⟩ : ((forest.compress semi node).label node =
        forest.label (forest.ancestor node) ∧
        semi (forest.label (forest.ancestor node)) ≤ semi (forest.label node) ∨
      (forest.compress semi node).label node = forest.label node ∧
        semi (forest.label node) ≤ semi (forest.label (forest.ancestor node))) ∧
      ∀ v, v ≠ node → (forest.compress semi node).label v = forest.label v := by
    unfold Forest.compress
    dsimp only
    split
    · rename_i hlt
      exact ⟨.inl ⟨Function.update_self .., hlt.le⟩, fun v hv => Function.update_of_ne hv ..⟩
    · rename_i hge
      exact ⟨.inr ⟨rfl, not_lt.mp hge⟩, fun _ _ => rfl⟩
  refine ⟨fun v hv => ?_, fun v hv hs => ?_, fun v hv hs => ?_, fun v hv hs => ?_,
    fun v hv hs x hx hanc => ?_, fun v hv hs => ?_, fun v hv hs => ?_,
    fun v hv hs x hx hanc => ?_⟩
  · rw [hancestor, Function.update_of_ne (by omega), hlabel_old v (by omega)]
    exact h.root v hv
  · rw [hancestor, Function.update_apply]
    split
    · exact h.pos _ hup hup_size
    · exact h.pos v hv hs
  · rw [hancestor, Function.update_apply]
    split
    · omega
    · exact h.lt v hv hs
  · rw [hancestor, Function.update_apply]
    split
    · rename_i heq
      exact heq ▸ (h.anc _ hup hup_size).trans hup_anc
    · exact h.anc v hv hs
  · rw [hancestor, Function.update_apply] at hx
    split at hx
    · rename_i heq
      subst heq
      by_cases hle : x ≤ forest.ancestor v
      · exact h.between _ hup hup_size x hx (t.interval x v _ hanc hle (by omega))
      · exact h.between v hv hs x (by omega) hanc
    · exact h.between v hv hs x hx hanc
  · rw [hancestor, Function.update_apply]
    split
    · rename_i heq
      subst heq
      rcases hlabel_new with ⟨hlabel, -⟩ | ⟨hlabel, -⟩ <;> rw [hlabel] <;> omega
    · rename_i hne
      rw [hlabel_old v hne]
      exact h.label_lt v hv hs
  · by_cases heq : v = node
    · subst heq
      rcases hlabel_new with ⟨hlabel, -⟩ | ⟨hlabel, -⟩ <;> rw [hlabel]
      · exact (h.label_anc _ hup hup_size).trans hup_anc
      · exact h.label_anc v hv hs
    · rw [hlabel_old v heq]
      exact h.label_anc v hv hs
  · rw [hancestor, Function.update_apply] at hx
    split at hx
    · rename_i heq
      subst heq
      have hleast : semi ((forest.compress semi v).label v) ≤ semi (forest.label v) ∧
          semi ((forest.compress semi v).label v) ≤
            semi (forest.label (forest.ancestor v)) := by
        rcases hlabel_new with ⟨hlabel, hle⟩ | ⟨hlabel, hle⟩ <;> rw [hlabel]
        · exact ⟨hle, le_refl _⟩
        · exact ⟨le_refl _, hle⟩
      by_cases hle : x ≤ forest.ancestor v
      · exact hleast.2.trans (h.label_least _ hup hup_size x hx
          (t.interval x v _ hanc hle (by omega)))
      · exact hleast.1.trans (h.label_least v hv hs x (by omega) hanc)
    · rename_i hne
      rw [hlabel_old v hne]
      exact h.label_least v hv hs x hx hanc

theorem compress_of_ne (semi : Nat → Nat) (forest : Forest) {node v : Nat} (h : v ≠ node) :
    (forest.compress semi node).ancestor v = forest.ancestor v :=
  Function.update_of_ne h ..

/-- After the compression of its path a node is linked to a root. -/
theorem Linked.compress_path (t : DfsTree size E parent) (hfirst : 1 < first)
    (h : Linked size parent semi first forest) (fuel : Nat) {current : Nat}
    (hcurrent : first ≤ current) (hsize : current ≤ size) (hfuel : current ≤ fuel) :
    Linked size parent semi first
        ((forest.path fuel current).reverse.foldl (Forest.compress semi) forest) ∧
      ((forest.path fuel current).reverse.foldl (Forest.compress semi) forest).ancestor current <
        first ∧
      ∀ v, current < v →
        ((forest.path fuel current).reverse.foldl (Forest.compress semi) forest).ancestor v =
          forest.ancestor v := by
  induction fuel generalizing current with
  | zero => omega
  | succ fuel ih =>
    unfold Forest.path
    split
    · rename_i hpath
      have hup := h.ancestor_of_ne hpath.2
      have hlt := h.lt current hcurrent hsize
      obtain ⟨hlinked, hroot, hsame⟩ := ih hup (by omega) (by omega)
      have hcurrent' := hsame current hlt
      rw [List.reverse_cons, List.foldl_append, List.foldl_cons, List.foldl_nil]
      -- the path of the ancestor is compressed already
      generalize (forest.path fuel (forest.ancestor current)).reverse.foldl
        (Forest.compress semi) forest = above at hlinked hroot hsame hcurrent' ⊢
      refine ⟨hlinked.compress t hcurrent hsize (by omega), ?_, fun v hv => ?_⟩
      · simp only [Forest.compress, Function.update_self, hcurrent']
        exact hroot
      · rw [compress_of_ne _ _ (by omega), hsame v (by omega)]
    · rename_i hpath
      refine ⟨h, ?_, fun _ _ => rfl⟩
      have hpos := h.pos current hcurrent hsize
      by_contra hup
      have hlt := h.lt current hcurrent hsize
      have := h.pos (forest.ancestor current) (by simpa using hup) (by omega)
      exact hpath ⟨by omega, by omega⟩

/-! ## Evaluation -/

theorem Linked.eval (t : DfsTree size E parent) (hfirst : 1 < first)
    (h : Linked size parent semi first forest) {value : Nat} (hsize : value ≤ size) :
    Linked size parent semi first (forest.eval semi value).2 ∧
      (value < first → (forest.eval semi value).1 = value) ∧
      (first ≤ value → first ≤ (forest.eval semi value).1 ∧
        Anc size parent (forest.eval semi value).1 value ∧
        ∀ x, first ≤ x → Anc size parent x value → semi (forest.eval semi value).1 ≤ semi x) := by
  by_cases hvalue : first ≤ value
  · obtain ⟨hlinked, hroot, -⟩ := h.compress_path t hfirst value hvalue hsize le_rfl
    have hpos := h.pos value hvalue hsize
    rw [Forest.eval, if_neg (by omega)]
    dsimp only
    generalize (forest.path value value).reverse.foldl (Forest.compress semi) forest = forest'
      at hlinked hroot
    have hanc := hlinked.label_anc value hvalue hsize
    have hlt := hlinked.label_lt value hvalue hsize
    refine ⟨hlinked, by omega, fun _ => ⟨hlinked.between value hvalue hsize _ hlt hanc, hanc, ?_⟩⟩
    intro x hx hxanc
    exact hlinked.label_least value hvalue hsize x (by omega) hxanc
  · obtain ⟨hancestor, hlabel⟩ := h.root value (by omega)
    rw [Forest.eval, if_pos hancestor]
    exact ⟨h, fun _ => hlabel, fun hle => absurd hle hvalue⟩

end Forest
end Celox.Cfg

/-! ## Semidominators and the nodes they settle

Numbers are processed downwards: each gets its semidominator and waits in that one's bucket until
the child of the semidominator above it is processed. -/
namespace Celox.Cfg
open Celox.Graph Relation

section Loop
variable {size : Nat} {E : Nat → Nat → Prop} {parent : Nat → Nat}

theorem isSemi_unique {w s s' : Nat} (h : IsSemi E w s) (h' : IsSemi E w s') : s = s' :=
  Nat.le_antisymm (h.least _ h'.walk) (h'.least _ h.walk)

/-! ## Lowering -/

/-- The semidominator of `w` after some of its predecessors; those of greater numbers are known. -/
structure Lowered (size : Nat) (E : Nat → Nat → Prop) (parent : Nat → Nat) (w : Nat)
    (done : List Nat) (before state : Semidominators) : Prop where
  linked : Linked size parent state.semi (w + 1) state.forest
  other : ∀ v, v ≠ w → state.semi v = before.semi v
  le_self : state.semi w ≤ w
  le_done : ∀ p ∈ done, p ≤ w → state.semi w ≤ p
  le_above : ∀ p ∈ done, ∀ x, w < x → Anc size parent x p → state.semi w ≤ state.semi x
  attained : state.semi w = w ∨ SemiWalk E (state.semi w) w
  idom : state.idom = before.idom
  bucket : state.bucket = before.bucket

/-- The semidominators above `w` are known, those up to `w` stand for themselves. -/
structure Known (size : Nat) (E : Nat → Nat → Prop) (first : Nat) (semi : Nat → Nat) : Prop where
  init : ∀ v < first, semi v = v
  done : ∀ v, first ≤ v → v ≤ size → IsSemi E v (semi v)

theorem Lowered.start {w : Nat} {state : Semidominators}
    (hknown : Known size E (w + 1) state.semi)
    (hlinked : Linked size parent state.semi (w + 1) state.forest) :
    Lowered size E parent w [] state state where
  linked := hlinked
  other _ _ := rfl
  le_self := (hknown.init w (by omega)).le
  le_done := by simp
  le_above := by simp
  attained := .inl (hknown.init w (by omega))
  idom := rfl
  bucket := rfl

theorem Lowered.lower (t : DfsTree size E parent) {w p : Nat} {done : List Nat}
    {before state : Semidominators} (hw : 1 ≤ w) (hknown : Known size E (w + 1) before.semi)
    (h : Lowered size E parent w done before state) (hp : E p w) :
    Lowered size E parent w (done ++ [p]) before (state.lower w p) := by
  have hpsize := (t.range p w hp).2.1
  obtain ⟨hlinked, hbelow, habove⟩ := h.linked.eval t (by omega) hpsize
  set representative := (state.forest.eval state.semi p).1 with hrep
  set value := min (state.semi w) (state.semi representative) with hvalue
  have hsemi : (state.lower w p).semi = Function.update state.semi w value := rfl
  have hself : (state.lower w p).semi w = value := by rw [hsemi, Function.update_self]
  have hother : ∀ v, v ≠ w → (state.lower w p).semi v = state.semi v := by
    intro v hv
    rw [hsemi, Function.update_of_ne hv]
  have hle : value ≤ state.semi w := min_le_left ..
  refine
    { linked := hlinked.congr fun v hv => hother v (by omega)
      other := fun v hv => (hother v hv).trans (h.other v hv)
      le_self := by rw [hself]; exact hle.trans h.le_self
      le_done := ?_
      le_above := ?_
      attained := ?_
      idom := h.idom
      bucket := h.bucket }
  · intro q hq hqw
    rw [hself]
    rcases List.mem_append.mp hq with hq | hq
    · exact hle.trans (h.le_done q hq hqw)
    · obtain rfl := List.mem_singleton.mp hq
      rcases eq_or_ne q w with rfl | hne
      · exact hle.trans h.le_self
      · -- an unlinked predecessor stands for itself
        have hvalueq : state.semi representative = q := by
          rw [hbelow (by omega), h.other q hne, hknown.init q (by omega)]
        exact (min_le_right ..).trans hvalueq.le
  · intro q hq x hx hanc
    rw [hself, hother x (by omega)]
    rcases List.mem_append.mp hq with hq | hq
    · exact hle.trans (h.le_above q hq x hx hanc)
    · obtain rfl := List.mem_singleton.mp hq
      have hxq := t.anc_le hanc
      exact (min_le_right ..).trans ((habove (by omega)).2.2 x (by omega) hanc)
  · rw [hself]
    rcases min_choice (state.semi w) (state.semi representative) with heq | heq
    · rw [hvalue, heq]
      exact h.attained
    · rw [hvalue, heq]
      by_cases hpw : p < w + 1
      · rw [hbelow hpw]
        rcases eq_or_ne p w with rfl | hne
        · exact h.attained
        · rw [h.other p hne, hknown.init p hpw]
          exact .inr (.of_edge hp)
      · obtain ⟨hrw, hanc, -⟩ := habove (by omega)
        have hrsize := (t.anc_le hanc).trans hpsize
        rw [h.other _ (by omega)]
        exact .inr (t.semiWalk_of_anc (hknown.done _ hrw hrsize).walk (by omega) hanc hp)

theorem Lowered.foldl (t : DfsTree size E parent) {w : Nat} {before : Semidominators}
    (hw : 1 ≤ w) (hknown : Known size E (w + 1) before.semi) {rest : List Nat}
    (hrest : ∀ p ∈ rest, E p w) {done : List Nat} {state : Semidominators}
    (h : Lowered size E parent w done before state) :
    Lowered size E parent w (done ++ rest) before
      (rest.foldl (Semidominators.lower w) state) := by
  induction rest generalizing done state with
  | nil => simpa using h
  | cons p rest ih =>
    have hp := hrest p List.mem_cons_self
    have := ih (fun q hq => hrest q (List.mem_cons_of_mem _ hq)) (h.lower t hw hknown hp)
    simpa using this

/-- After all its predecessors a number has its semidominator. -/
theorem Lowered.isSemi (t : DfsTree size E parent) {w : Nat} {done : List Nat}
    {before state : Semidominators} (h1 : 1 < w) (hw : w ≤ size)
    (hknown : Known size E (w + 1) before.semi)
    (h : Lowered size E parent w done before state) (hdone : ∀ p, E p w → p ∈ done) :
    IsSemi E w (state.semi w) := by
  have hparent := hdone _ (t.parent_edge w h1 hw)
  have hlt := t.parent_lt w h1 hw
  have hle := h.le_done _ hparent hlt.le
  refine ⟨h.attained.resolve_left (by omega), fun v hv => ?_⟩
  rcases t.semiWalk_cases hv with hvw | ⟨y, u, hy, hvy, hanc, huw⟩
  · by_cases hvle : v ≤ w
    · exact h.le_done v (hdone v hvw) hvle
    · omega
  · have husize := (t.range u w huw).2.1
    have hyu := t.anc_le hanc
    have hsemi := hknown.done y (by omega) (by omega)
    have := h.le_above u (hdone u huw) y hy hanc
    rw [h.other y (by omega)] at this
    exact this.trans (hsemi.least v hvy)

/-! ## Settled nodes -/

/-- `i` is the immediate dominator of `v`, or a node between with the same one. -/
def Settled (size : Nat) (E : Nat → Nat → Prop) (parent : Nat → Nat) (v i : Nat) : Prop :=
  ∃ s, IsSemi E v s ∧
    ((i = s ∧ ∀ u su, s < u → Anc size parent u v → IsSemi E u su → s ≤ su) ∨
      (s < i ∧ i < v ∧ Anc size parent i v ∧ ∃ si, IsSemi E i si ∧
        ∀ u su, s < u → Anc size parent u v → IsSemi E u su → si ≤ su))

/-- What holds when all numbers from `first` on are processed. -/
structure Processed (size : Nat) (E : Nat → Nat → Prop) (parent : Nat → Nat) (first : Nat)
    (state : Semidominators) : Prop where
  known : Known size E first state.semi
  linked : Linked size parent state.semi first state.forest
  bucket_mem : ∀ s, ∀ v ∈ state.bucket s, first ≤ v ∧ v ≤ size ∧ state.semi v = s
  bucket_open : ∀ s, ∀ v ∈ state.bucket s, ∀ c, first ≤ c → Anc size parent c v → parent c ≠ s
  settled : ∀ v, first ≤ v → v ≤ size →
    v ∈ state.bucket (state.semi v) ∨ Settled size E parent v (state.idom v)

theorem Processed.start : Processed size E parent (size + 1) Semidominators.start where
  known := ⟨fun _ _ => rfl, fun v hv hs => by omega⟩
  linked := Linked.start (by omega)
  bucket_mem := by simp [Semidominators.start]
  bucket_open := by simp [Semidominators.start]
  settled v hv hs := by omega

/-- Nodes strictly between a parent and a descendant of its child are below the child. -/
theorem le_of_between (t : DfsTree size E parent) {w v x : Nat} (hwv : Anc size parent w v)
    (hx : parent w < x) (hxv : Anc size parent x v) : w ≤ x := by
  by_contra hlt
  have hxw := t.interval x v w hxv (by omega) (t.anc_le hwv)
  have := t.anc_le_parent hxw (by omega)
  omega

/-- The settling of a bucket, with its nodes below `w` and their semidominator above. -/
structure Settling (size : Nat) (E : Nat → Nat → Prop) (parent : Nat → Nat) (w : Nat)
    (done : List Nat) (before state : Semidominators) : Prop where
  linked : Linked size parent state.semi w state.forest
  semi : state.semi = before.semi
  bucket : state.bucket = before.bucket
  settled : ∀ v ∈ done, Settled size E parent v (state.idom v)
  other : ∀ v, v ∉ done → state.idom v = before.idom v

theorem Settling.settle (t : DfsTree size E parent) {w v : Nat} {done : List Nat}
    {before state : Semidominators} (h1 : 1 < w) (hw : w ≤ size)
    (hknown : Known size E w before.semi) (h : Settling size E parent w done before state)
    (hv : v ≤ size) (hanc : Anc size parent w v) (hsemi : before.semi v = parent w) :
    Settling size E parent w (done ++ [v]) before (state.settle (parent w) v) := by
  have hwv := t.anc_le hanc
  obtain ⟨hlinked, -, habove⟩ := h.linked.eval t h1 hv
  obtain ⟨hrw, hrv, hleast⟩ := habove hwv
  set representative := (state.forest.eval state.semi v).1 with hrep
  have hlt := t.parent_lt w h1 hw
  have hrsize := (t.anc_le hrv).trans hv
  have hv_semi := hknown.done v hwv hv
  have hr_semi := hknown.done _ hrw hrsize
  have hbetween : ∀ u su, parent w < u → Anc size parent u v → IsSemi E u su →
      state.semi representative ≤ su := by
    intro u su hu huv hsu
    have hwu := le_of_between t hanc hu huv
    have hu_semi := hknown.done u hwu ((t.anc_le huv).trans hv)
    rw [← isSemi_unique hu_semi hsu, ← h.semi]
    exact hleast u hwu huv
  rw [hsemi] at hv_semi
  have hnew : Settled size E parent v ((state.settle (parent w) v).idom v) := by
    have hidom : (state.settle (parent w) v).idom v =
        if state.semi representative < state.semi v then representative else parent w :=
      Function.update_self ..
    refine ⟨parent w, hv_semi, ?_⟩
    rw [hidom]
    split
    · rename_i hless
      have hne : representative ≠ v := by
        intro heq
        rw [heq] at hless
        omega
      have hle := t.anc_le hrv
      refine .inr ⟨by omega, by omega, hrv, state.semi representative, ?_, hbetween⟩
      rw [h.semi]
      exact hr_semi
    · rename_i hge
      rw [h.semi, hsemi, ← h.semi] at hge
      refine .inl ⟨rfl, fun u su hu huv hsu => ?_⟩
      have := hbetween u su hu huv hsu
      omega
  refine ⟨hlinked, h.semi, h.bucket, fun u hu => ?_, fun u hu => ?_⟩
  · rcases eq_or_ne u v with rfl | hne
    · exact hnew
    · have hu : u ∈ done := by simpa [hne] using hu
      have hidom : (state.settle (parent w) v).idom u = state.idom u := Function.update_of_ne hne ..
      rw [hidom]
      exact h.settled u hu
  · have hu : u ∉ done ∧ u ≠ v := by simpa using hu
    have hidom : (state.settle (parent w) v).idom u = state.idom u := Function.update_of_ne hu.2 ..
    rw [hidom]
    exact h.other u hu.1

theorem Settling.foldl (t : DfsTree size E parent) {w : Nat} {before : Semidominators}
    (h1 : 1 < w) (hw : w ≤ size) (hknown : Known size E w before.semi) {rest : List Nat}
    (hrest : ∀ v ∈ rest, v ≤ size ∧ Anc size parent w v ∧ before.semi v = parent w)
    {done : List Nat} {state : Semidominators}
    (h : Settling size E parent w done before state) :
    Settling size E parent w (done ++ rest) before
      (rest.foldl (Semidominators.settle (parent w)) state) := by
  induction rest generalizing done state with
  | nil => simpa using h
  | cons v rest ih =>
    obtain ⟨hv, hanc, hsemi⟩ := hrest v List.mem_cons_self
    have := ih (fun u hu => hrest u (List.mem_cons_of_mem _ hu))
      (h.settle t h1 hw hknown hv hanc hsemi)
    simpa using this

/-! ## Processing a number -/

/-- The child of a semidominator on the way to the node. -/
theorem exists_child (t : DfsTree size E parent) {v s : Nat} (hs : IsSemi E v s) (h1 : 1 < v)
    (hv : v ≤ size) : ∃ c, 1 < c ∧ parent c = s ∧ Anc size parent c v := by
  have hlt := t.semi_lt hs h1 hv
  rcases (t.semi_anc hs h1 hv).cases_head with heq | ⟨c, ⟨hc, -, hparent⟩, hanc⟩
  · omega
  · exact ⟨c, hc, hparent.symm, hanc⟩

/-- A node that waits for `parent w` when `w` comes up is below `w`. -/
theorem anc_of_waiting (t : DfsTree size E parent) {w v : Nat} (h1 : 1 < w) (hwv : w ≤ v)
    (hv : v ≤ size) (hs : IsSemi E v (parent w))
    (hopen : ∀ c, w + 1 ≤ c → Anc size parent c v → parent c ≠ parent w) :
    Anc size parent w v := by
  obtain ⟨c, hc, hparent, hanc⟩ := exists_child t hs (by omega) hv
  have hcw : c ≤ w := by
    by_contra hlt
    exact hopen c (by omega) hanc hparent
  have hcw' := t.interval c v w hanc hcw hwv
  by_contra hno
  have hne : c ≠ w := fun heq => hno (heq ▸ hanc)
  have hle := t.anc_le_parent hcw' hne
  have hlt := t.parent_lt c hc (by omega)
  omega

theorem Processed.process (t : DfsTree size E parent) {predecessors : Nat → List Nat}
    (hpred : ∀ w p, 1 ≤ w → (p ∈ predecessors w ↔ E p w)) {w : Nat} {state : Semidominators}
    (h1 : 1 < w) (hw : w ≤ size) (h : Processed size E parent (w + 1) state) :
    ∃ after, state.process parent predecessors w = .ok after ∧
      Processed size E parent w after := by
  have hparent_pos := t.parent_pos w h1 hw
  have hparent_lt := t.parent_lt w h1 hw
  -- the semidominator of `w`
  have hlow := Lowered.foldl t (by omega) h.known (fun p hp => (hpred w p (by omega)).mp hp)
    (Lowered.start h.known h.linked)
  have hsemi := hlow.isSemi t h1 hw h.known fun p hp => by
    simpa using (hpred w p (by omega)).mpr hp
  unfold Semidominators.process
  set low := (predecessors w).foldl (Semidominators.lower w) state
  dsimp only
  rw [if_neg (by omega)]
  set home := low.semi w
  set forest : Forest := { low.forest with
    ancestor := Function.update low.forest.ancestor w (parent w) }
  set bucket := Function.update low.bucket home (low.bucket home ++ [w])
  set before : Semidominators := { low with
    forest, bucket := Function.update bucket (parent w) [] } with hbefore
  have hhome := t.semi_le_parent hsemi h1 hw
  have hknown : Known size E w before.semi := by
    refine ⟨fun v hv => ?_, fun v hv hs => ?_⟩
    · exact (hlow.other v (by omega)).trans (h.known.init v (by omega))
    · rcases eq_or_ne v w with rfl | hne
      · exact hsemi
      · have hother : before.semi v = state.semi v := hlow.other v hne
        rw [hother]
        exact h.known.done v (by omega) hs
  have hlinked : Linked size parent before.semi w before.forest := hlow.linked.link t h1 hw
  -- what waits once `w` is added
  have hwaiting : ∀ s, ∀ v ∈ bucket s, w ≤ v ∧ v ≤ size ∧ low.semi v = s ∧
      ∀ c, w + 1 ≤ c → Anc size parent c v → parent c ≠ s := by
    intro s v hv
    have hcase : v ∈ low.bucket s ∨ v = w ∧ s = home := by
      simp only [bucket, Function.update_apply] at hv
      split at hv
      · rename_i heq
        rcases List.mem_append.mp hv with hv | hv
        · exact .inl (heq ▸ hv)
        · exact .inr ⟨List.mem_singleton.mp hv, heq⟩
      · exact .inl hv
    rcases hcase with hv | ⟨rfl, rfl⟩
    · rw [hlow.bucket] at hv
      obtain ⟨hfirst, hsize, hs⟩ := h.bucket_mem s v hv
      refine ⟨by omega, hsize, ?_, h.bucket_open s v hv⟩
      rw [hlow.other v (by omega), hs]
    · refine ⟨le_rfl, hw, rfl, fun c hc hanc => ?_⟩
      have := t.anc_le hanc
      omega
  have hpending : ∀ v ∈ bucket (parent w),
      v ≤ size ∧ Anc size parent w v ∧ before.semi v = parent w := by
    intro v hv
    obtain ⟨hwv, hsize, hs, hopen⟩ := hwaiting _ v hv
    have hvsemi := hknown.done v hwv hsize
    rw [show before.semi v = parent w from hs] at hvsemi
    exact ⟨hsize, anc_of_waiting t h1 hwv hsize hvsemi hopen, hs⟩
  have hsettle := Settling.foldl t h1 hw hknown hpending
    (⟨hlinked, rfl, rfl, by simp, fun _ _ => rfl⟩ : Settling size E parent w [] before before)
  set after := (bucket (parent w)).foldl (Semidominators.settle (parent w)) before
  have hbucket : after.bucket = Function.update bucket (parent w) [] := hsettle.bucket
  have hkept : ∀ s, ∀ v ∈ after.bucket s, v ∈ bucket s ∧ s ≠ parent w := by
    intro s v hv
    rw [hbucket, Function.update_apply] at hv
    split at hv
    · simp at hv
    · exact ⟨hv, ‹_›⟩
  refine ⟨after, rfl, ?_, hsettle.linked, fun s v hv => ?_, fun s v hv c hc hanc => ?_,
    fun v hv hs => ?_⟩
  · rw [hsettle.semi]
    exact hknown
  · obtain ⟨hwv, hsize, hs, -⟩ := hwaiting s v (hkept s v hv).1
    rw [hsettle.semi]
    exact ⟨hwv, hsize, hs⟩
  · obtain ⟨hmem, hne⟩ := hkept s v hv
    rcases eq_or_ne c w with rfl | hcw
    · exact hne.symm
    · exact (hwaiting s v hmem).2.2.2 c (by omega) hanc
  · by_cases hmem : v ∈ bucket (parent w)
    · exact .inr (hsettle.settled v (by simpa using hmem))
    · rw [hsettle.semi, hsettle.other v (by simpa using hmem), hbucket]
      rcases eq_or_ne v w with rfl | hne
      · have hmem_home : v ∈ bucket home := by simp [bucket]
        have hne_home : home ≠ parent v := fun heq => hmem (heq ▸ hmem_home)
        refine .inl ?_
        show v ∈ Function.update bucket (parent v) [] home
        rw [Function.update_of_ne hne_home]
        exact hmem_home
      · have hsame : before.semi v = state.semi v := hlow.other v hne
        rcases h.settled v (by omega) hs with hold | hold
        · have hmem_old : v ∈ bucket (state.semi v) := by
            rw [← hlow.bucket] at hold
            simp only [bucket, Function.update_apply]
            split
            · rename_i heq
              exact List.mem_append_left _ (heq ▸ hold)
            · exact hold
          have hne_old : state.semi v ≠ parent w := fun heq => hmem (heq ▸ hmem_old)
          refine .inl ?_
          rw [hsame, Function.update_of_ne hne_old]
          exact hmem_old
        · refine .inr ?_
          have hidom : before.idom v = state.idom v := congrFun hlow.idom v
          rw [hidom]
          exact hold

theorem Processed.foldlM (t : DfsTree size E parent) {predecessors : Nat → List Nat}
    (hpred : ∀ w p, 1 ≤ w → (p ∈ predecessors w ↔ E p w)) {first : Nat} (hfirst : 1 < first)
    (count : Nat) {state : Semidominators} (hsize : first + count ≤ size + 1)
    (h : Processed size E parent (first + count) state) :
    ∃ after, (List.range' first count).reverse.foldlM
        (Semidominators.process parent predecessors) state = .ok after ∧
      Processed size E parent first after := by
  induction count generalizing state with
  | zero => exact ⟨state, rfl, h⟩
  | succ count ih =>
    obtain ⟨next, hnext, hprocessed⟩ :=
      Processed.process t hpred (w := first + count) (by omega) (by omega) h
    obtain ⟨after, hafter, hdone⟩ := ih (by omega) hprocessed
    refine ⟨after, ?_, hdone⟩
    rw [List.range'_1_concat, List.reverse_append, List.reverse_singleton, List.singleton_append,
      List.foldlM_cons, hnext]
    exact hafter

/-- In the end no node waits. -/
theorem Processed.all_settled (t : DfsTree size E parent) {state : Semidominators}
    (h : Processed size E parent 2 state) {v : Nat} (h1 : 1 < v) (hv : v ≤ size) :
    Settled size E parent v (state.idom v) := by
  refine (h.settled v h1 hv).resolve_left fun hmem => ?_
  obtain ⟨c, hc, hparent, hanc⟩ := exists_child t (h.known.done v h1 hv) h1 hv
  exact h.bucket_open _ v hmem c hc hanc hparent

/-! ## Correction -/

/-- Upwards every number gets its immediate dominator from the ones before. -/
theorem correct_step (t : DfsTree size E parent) {semi idom₀ idom : Nat → Nat} {w : Nat}
    (h1 : 1 < w) (hw : w ≤ size) (hsemi : IsSemi E w (semi w))
    (hsettled : Settled size E parent w (idom₀ w))
    (hbefore : ∀ v, 1 < v → v < w → IsIdom E 1 (idom v) v)
    (hafter : ∀ v, w ≤ v → idom v = idom₀ v) :
    ∃ idom', correct semi idom w = .ok idom' ∧
      (∀ v, 1 < v → v < w + 1 → IsIdom E 1 (idom' v) v) ∧
      ∀ v, w + 1 ≤ v → idom' v = idom₀ v := by
  obtain ⟨s, hs, hcase⟩ := hsettled
  obtain rfl := isSemi_unique hsemi hs
  rw [← hafter w le_rfl] at hcase
  have hless : ∀ v, v < w + 1 → v = w ∨ v < w := by omega
  unfold correct
  rcases hcase with ⟨hidom, hleast⟩ | ⟨hlt, hiw, hanc, si, hsi, hleast⟩
  · refine ⟨idom, by simp [hidom], fun v hv1 hv => ?_, fun v hv => hafter v (by omega)⟩
    rcases hless v hv with rfl | hv
    · rw [hidom]
      exact t.isIdom_of_semi hs h1 hw hleast
    · exact hbefore v hv1 hv
  · have hspos := t.semi_pos hs
    rw [if_pos (by omega), if_neg (by omega)]
    refine ⟨_, rfl, fun v hv1 hv => ?_, fun v hv => ?_⟩
    · rcases hless v hv with rfl | hv
      · rw [Function.update_self]
        exact t.isIdom_of_relative hs h1 hw hlt hanc hsi hleast
          (hbefore _ (by omega) hiw)
      · rw [Function.update_of_ne (by omega)]
        exact hbefore v hv1 hv
    · rw [Function.update_of_ne (by omega)]
      exact hafter v (by omega)

theorem correct_foldlM (t : DfsTree size E parent) {semi idom₀ : Nat → Nat}
    (hsemi : ∀ v, 1 < v → v ≤ size → IsSemi E v (semi v))
    (hsettled : ∀ v, 1 < v → v ≤ size → Settled size E parent v (idom₀ v))
    (count : Nat) {first : Nat} {idom : Nat → Nat} (hfirst : 1 < first)
    (hsize : first + count ≤ size + 1)
    (hbefore : ∀ v, 1 < v → v < first → IsIdom E 1 (idom v) v)
    (hafter : ∀ v, first ≤ v → idom v = idom₀ v) :
    ∃ idom', (List.range' first count).foldlM (correct semi) idom = .ok idom' ∧
      ∀ v, 1 < v → v < first + count → IsIdom E 1 (idom' v) v := by
  induction count generalizing first idom with
  | zero => exact ⟨idom, rfl, hbefore⟩
  | succ count ih =>
    obtain ⟨next, hnext, hbefore', hafter'⟩ :=
      correct_step t hfirst (by omega) (hsemi first hfirst (by omega))
        (hsettled first hfirst (by omega)) hbefore hafter
    obtain ⟨idom', hidom', hall⟩ := ih (by omega) (by omega) hbefore' hafter'
    refine ⟨idom', ?_, fun v h1 hv => hall v h1 (by omega)⟩
    rw [List.range'_succ, List.foldlM_cons, hnext]
    exact hidom'

end Loop
end Celox.Cfg
