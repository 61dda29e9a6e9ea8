import Celox.Ssa.Clobber

/-! # One walk of a clobber query

A node is fresh, active (some frame still works on it) or done with an answer. One walk turns fresh
nodes into done ones and leaves the active ones as they are, so what it finds does not depend on
the walks before it as long as no phi is finished under another active phi. -/
namespace Celox.Ssa
open Relation

/-! ## Marks of one epoch -/

inductive Mark where
  | fresh
  | active
  | done (access : Nat)
  deriving DecidableEq, Repr

def Cell.mark (epoch : Nat) (cell : Cell) : Mark :=
  if cell.epoch = epoch then
    match cell.state, cell.result with
    | 1, _ => .active
    | 2, some (.access access) => .done access
    | _, _ => .fresh
  else .fresh

def markOf (epoch : Nat) (cells : List Cell) (a : Nat) : Mark :=
  match cells[a]? with
  | some cell => cell.mark epoch
  | none => .fresh

/-- A finished entry holds an access. -/
def Cell.Tidy (epoch : Nat) (cell : Cell) : Prop :=
  cell.epoch = epoch →
    cell.state = 0 ∨ cell.state = 1 ∨ cell.state = 2 ∧ ∃ c, cell.result = some (.access c)

theorem markOf_set {epoch x a : Nat} {cells : List Cell} {cell : Cell} (hx : x < cells.length) :
    markOf epoch (cells.set x cell) a = if a = x then cell.mark epoch else markOf epoch cells a := by
  unfold markOf
  rw [List.getElem?_set]
  by_cases h : x = a
  · subst h
    simp [hx]
  · simp [h, Ne.symm h]

@[simp] theorem mark_active (epoch : Nat) : (⟨epoch, 1, none⟩ : Cell).mark epoch = .active := by
  simp [Cell.mark]

@[simp] theorem mark_reset (epoch : Nat) : (⟨epoch, 0, none⟩ : Cell).mark epoch = .fresh := by
  simp [Cell.mark]

@[simp] theorem mark_done (epoch c : Nat) :
    (⟨epoch, 2, some (.access c)⟩ : Cell).mark epoch = .done c := by
  simp [Cell.mark]

/-! ## Runs of frames -/

section Frames
variable {D : Type} (nodes : List (MemoryAccessNode D)) (mayAlias : D → Bool) (epoch : Nat)

def Steps : Walk → Walk → Prop :=
  ReflTransGen fun walk next => walk.frames ≠ [] ∧ stepFrame nodes mayAlias epoch walk = some next

variable {nodes mayAlias epoch}

theorem Steps.single {walk next : Walk} (hf : walk.frames ≠ [])
    (h : stepFrame nodes mayAlias epoch walk = some next) : Steps nodes mayAlias epoch walk next :=
  ReflTransGen.single ⟨hf, h⟩

theorem Steps.trans {walk mid last : Walk} (h : Steps nodes mayAlias epoch walk mid)
    (h' : Steps nodes mayAlias epoch mid last) : Steps nodes mayAlias epoch walk last :=
  ReflTransGen.trans h h'

theorem Steps.append {walk mid next : Walk} (h : Steps nodes mayAlias epoch walk mid)
    (hf : mid.frames ≠ []) (h' : stepFrame nodes mayAlias epoch mid = some next) :
    Steps nodes mayAlias epoch walk next :=
  ReflTransGen.tail h ⟨hf, h'⟩

theorem Steps.run {walk last : Walk} (h : Steps nodes mayAlias epoch walk last)
    (hl : last.frames = []) : ∃ fuel, runFrames nodes mayAlias epoch fuel walk = some last := by
  induction h using ReflTransGen.head_induction_on with
  | refl => exact ⟨0, by simp [runFrames, hl]⟩
  | head hstep _ ih =>
    obtain ⟨fuel, hfuel⟩ := ih
    exact ⟨fuel + 1, by simp [runFrames, hstep.1, hstep.2, hfuel]⟩

theorem runFrames_unique {fuel fuel' : Nat} {walk last last' : Walk}
    (h : runFrames nodes mayAlias epoch fuel walk = some last)
    (h' : runFrames nodes mayAlias epoch fuel' walk = some last') : last = last' := by
  induction fuel generalizing fuel' walk with
  | zero =>
    by_cases hf : walk.frames = []
    · cases fuel' <;> simp_all [runFrames]
    · simp [runFrames, hf] at h
  | succ fuel ih =>
    by_cases hf : walk.frames = []
    · cases fuel' <;> simp_all [runFrames]
    · cases fuel' with
      | zero => simp [runFrames, hf] at h'
      | succ fuel' =>
        simp only [runFrames, hf, if_false, Option.bind_eq_some_iff] at h h'
        obtain ⟨next, hnext, h⟩ := h
        obtain ⟨next', hnext', h'⟩ := h'
        rw [hnext] at hnext'
        cases hnext'
        exact ih h h'

end Frames

/-! ## What holds between two frames -/

section Graph
variable {D : Type} (nodes : List (MemoryAccessNode D)) (mayAlias : D → Bool)

/-- Every node leads to nodes of the graph. -/
def WellFormed : Prop := ∀ a b, Back nodes a b → b < nodes.length

/-- The step of a walk that passes by definitions that cannot alias. -/
def Next (a b : Nat) : Prop :=
  Skips nodes mayAlias a b ∨ ∃ block inputs, nodes[a]? = some (.phi block inputs) ∧
    b ∈ inputs.map Prod.snd

def IsPhi (a : Nat) : Prop := ∃ block inputs, nodes[a]? = some (.phi block inputs)

/-- No two phis lie on a common cycle of the walk. -/
def SeparatePhis : Prop :=
  ∀ p q, IsPhi nodes p → IsPhi nodes q → ReflTransGen (Next nodes mayAlias) p q →
    ReflTransGen (Next nodes mayAlias) q p → p = q

/-- The marks are those of a session: what is done is the answer, with the nodes it was handed
on from; what is active waits for another node. -/
structure Coherent (epoch : Nat) (cells : List Cell) : Prop where
  length : cells.length = nodes.length
  tidy : ∀ cell ∈ cells, cell.Tidy epoch
  resolves : ∀ a c, markOf epoch cells a = .done c → Resolves nodes mayAlias a c
  handed : ∀ a c p, markOf epoch cells a = .done c → Skips nodes mayAlias a p →
    markOf epoch cells p = .done c
  waits : ∀ a, markOf epoch cells a = .active → IsPhi nodes a ∨ ∃ p, Skips nodes mayAlias a p

/-- The marks alone: every node has one, a finished definition that cannot alias has what its
predecessor has, and what is active waits for another node. -/
structure Marked (epoch : Nat) (cells : List Cell) : Prop where
  length : cells.length = nodes.length
  tidy : ∀ cell ∈ cells, cell.Tidy epoch
  handed : ∀ a c p, markOf epoch cells a = .done c → Skips nodes mayAlias a p →
    markOf epoch cells p = .done c
  waits : ∀ a, markOf epoch cells a = .active → IsPhi nodes a ∨ ∃ p, Skips nodes mayAlias a p

/-- The active nodes are those the walk came through to reach `x`. -/
structure Came (epoch : Nat) (cells : List Cell) (x : Nat) : Prop where
  reach : ∀ a, markOf epoch cells a = .active → ReflTransGen (Next nodes mayAlias) a x
  chain : ∀ a p, markOf epoch cells a = .active → Skips nodes mayAlias a p →
    markOf epoch cells p = .active ∨ p = x

/-- A walk keeps all marks there are and leaves no node active that was not. -/
structure Extends (epoch : Nat) (cells cells' : List Cell) : Prop where
  kept : ∀ a, markOf epoch cells a ≠ .fresh → markOf epoch cells' a = markOf epoch cells a
  closed : ∀ a, markOf epoch cells' a = .active → markOf epoch cells a = .active

/-- What the walk into `x` hands back: a cycle when it only finds active nodes, else the access
it recorded for `x`. -/
inductive Answers (epoch : Nat) (cells cells' : List Cell) (x : Nat) : ClobberResolution → Prop where
  | cycle (h : ∀ e, ChainEnd nodes mayAlias x e → markOf epoch cells e = .active) :
      Answers epoch cells cells' x .cycle
  | access {c e : Nat} (hdone : markOf epoch cells' x = .done c)
      (hend : ChainEnd nodes mayAlias x e) (he : markOf epoch cells e ≠ .active) :
      Answers epoch cells cells' x (.access c)

def freshCount (epoch : Nat) (cells : List Cell) : Nat :=
  ((Finset.range nodes.length).filter fun a => markOf epoch cells a = .fresh).card

variable {nodes mayAlias} {epoch : Nat} {cells cells' cells'' : List Cell}

theorem Extends.refl : Extends epoch cells cells := ⟨fun _ _ => rfl, fun _ h => h⟩

theorem Extends.trans (h : Extends epoch cells cells') (h' : Extends epoch cells' cells'') :
    Extends epoch cells cells'' := by
  refine ⟨fun a ha => ?_, fun a ha => h.closed a (h'.closed a ha)⟩
  have hkept := h.kept a ha
  rw [h'.kept a (by rwa [hkept]), hkept]

theorem Extends.active_iff (h : Extends epoch cells cells') (a : Nat) :
    markOf epoch cells' a = .active ↔ markOf epoch cells a = .active := by
  refine ⟨h.closed a, fun ha => ?_⟩
  rw [h.kept a (by simp [ha]), ha]

theorem Extends.done (h : Extends epoch cells cells') {a c : Nat}
    (ha : markOf epoch cells a = .done c) : markOf epoch cells' a = .done c := by
  rw [h.kept a (by simp [ha]), ha]

theorem Extends.freshCount_le (h : Extends epoch cells cells') :
    freshCount nodes epoch cells' ≤ freshCount nodes epoch cells := by
  refine Finset.card_le_card fun a ha => ?_
  rw [Finset.mem_filter] at ha ⊢
  refine ⟨ha.1, ?_⟩
  by_contra hne
  exact hne ((h.kept a hne).symm.trans ha.2)

theorem freshCount_set_lt {x : Nat} {cell : Cell} (hx : x < nodes.length)
    (hlen : cells.length = nodes.length) (hf : markOf epoch cells x = .fresh)
    (hcell : cell.mark epoch ≠ .fresh) :
    freshCount nodes epoch (cells.set x cell) < freshCount nodes epoch cells := by
  refine Finset.card_lt_card ⟨fun a ha => ?_, fun hsub => ?_⟩
  · rw [Finset.mem_filter, markOf_set (by omega)] at ha
    rw [Finset.mem_filter]
    refine ⟨ha.1, ?_⟩
    by_cases hax : a = x
    · rwa [hax]
    · simpa [hax] using ha.2
  · have hmem := hsub (Finset.mem_filter.mpr ⟨Finset.mem_range.mpr hx, hf⟩)
    rw [Finset.mem_filter, markOf_set (by omega), if_pos rfl] at hmem
    exact hcell hmem.2

/-! ## Single frames -/

theorem Coherent.marked (h : Coherent nodes mayAlias epoch cells) :
    Marked nodes mayAlias epoch cells := ⟨h.length, h.tidy, h.handed, h.waits⟩

theorem Marked.cell (h : Marked nodes mayAlias epoch cells) {x : Nat} (hx : x < nodes.length) :
    ∃ cell, cells[x]? = some cell ∧ cell.Tidy epoch ∧ markOf epoch cells x = cell.mark epoch := by
  have hlt : x < cells.length := h.length ▸ hx
  refine ⟨cells[x], List.getElem?_eq_getElem hlt, h.tidy _ (List.getElem_mem hlt), ?_⟩
  simp [markOf, List.getElem?_eq_getElem hlt]

theorem step_active (h : Marked nodes mayAlias epoch cells) {x : Nat} (hx : x < nodes.length)
    (hm : markOf epoch cells x = .active) (frames : List ResolveFrame)
    (values : List ClobberResolution) :
    stepFrame nodes mayAlias epoch ⟨cells, .enter x :: frames, values⟩ =
      some ⟨cells, frames, .cycle :: values⟩ := by
  obtain ⟨⟨e, state, result⟩, hcell, htidy, hmark⟩ := h.cell hx
  rw [hm, Cell.mark] at hmark
  split at hmark
  · rename_i he
    rcases htidy he with hs | hs | ⟨hs, c, hr⟩
    · simp only at hs; subst hs; simp at hmark
    · simp only at he hs; subst he hs; simp [stepFrame, stepEnter, hcell]
    · simp only at hs hr; subst hs hr; simp at hmark
  · cases hmark

theorem step_done (h : Marked nodes mayAlias epoch cells) {x c : Nat} (hx : x < nodes.length)
    (hm : markOf epoch cells x = .done c) (frames : List ResolveFrame)
    (values : List ClobberResolution) :
    stepFrame nodes mayAlias epoch ⟨cells, .enter x :: frames, values⟩ =
      some ⟨cells, frames, .access c :: values⟩ := by
  obtain ⟨⟨e, state, result⟩, hcell, htidy, hmark⟩ := h.cell hx
  rw [hm, Cell.mark] at hmark
  split at hmark
  · rename_i he
    rcases htidy he with hs | hs | ⟨hs, c', hr⟩
    · simp only at hs; subst hs; simp at hmark
    · simp only at hs; subst hs; simp at hmark
    · simp only at he hs hr; subst he hs hr
      simp only [Mark.done.injEq] at hmark
      simp [stepFrame, stepEnter, hcell, hmark]
  · cases hmark

theorem Marked.fresh_cell (h : Marked nodes mayAlias epoch cells) {x : Nat}
    (hx : x < nodes.length) (hm : markOf epoch cells x = .fresh) :
    ∃ cell, cells[x]? = some cell ∧ ¬ (cell.epoch = epoch ∧ cell.state ≠ 0) := by
  obtain ⟨⟨e, state, result⟩, hcell, htidy, hmark⟩ := h.cell hx
  refine ⟨_, hcell, ?_⟩
  rintro ⟨rfl, hs⟩
  rw [hm, Cell.mark, if_pos rfl] at hmark
  rcases htidy rfl with hs' | hs' | ⟨hs', c', hr⟩
  · exact hs hs'
  · simp only at hs'; subst hs'; simp at hmark
  · simp only at hs' hr; subst hs' hr; simp at hmark

theorem step_end (h : Marked nodes mayAlias epoch cells) {x : Nat} (hx : x < nodes.length)
    (hm : markOf epoch cells x = .fresh) (hend : IsEntry nodes x ∨ Clobbers nodes mayAlias x)
    (frames : List ResolveFrame) (values : List ClobberResolution) :
    stepFrame nodes mayAlias epoch ⟨cells, .enter x :: frames, values⟩ =
      some ⟨cells.set x ⟨epoch, 2, some (.access x)⟩, frames, .access x :: values⟩ := by
  obtain ⟨cell, hcell, hguard⟩ := h.fresh_cell hx hm
  rcases hend with he | ⟨d, p, hd, halias⟩
  · rw [IsEntry] at he
    simp [stepFrame, stepEnter, hcell, if_neg hguard, he, Walk.resolve]
  · simp [stepFrame, stepEnter, hcell, if_neg hguard, hd, halias, Walk.resolve]

theorem step_skip (h : Marked nodes mayAlias epoch cells) {x p : Nat} (hx : x < nodes.length)
    (hm : markOf epoch cells x = .fresh) (hs : Skips nodes mayAlias x p)
    (frames : List ResolveFrame) (values : List ClobberResolution) :
    stepFrame nodes mayAlias epoch ⟨cells, .enter x :: frames, values⟩ =
      some ⟨cells.set x ⟨epoch, 1, none⟩, .enter p :: .finishDefinition x :: frames, values⟩ := by
  obtain ⟨cell, hcell, hguard⟩ := h.fresh_cell hx hm
  obtain ⟨d, hd, halias⟩ := hs
  simp [stepFrame, stepEnter, hcell, if_neg hguard, hd, halias]

theorem step_phi (h : Marked nodes mayAlias epoch cells) {x block : Nat}
    {inputs : List (Nat × Nat)} (hx : x < nodes.length) (hm : markOf epoch cells x = .fresh)
    (hp : nodes[x]? = some (.phi block inputs)) (frames : List ResolveFrame)
    (values : List ClobberResolution) :
    stepFrame nodes mayAlias epoch ⟨cells, .enter x :: frames, values⟩ =
      some ⟨cells.set x ⟨epoch, 1, none⟩,
        (inputs.map Prod.snd).map .enter ++ .finishPhi x inputs.length :: frames, values⟩ := by
  obtain ⟨cell, hcell, hguard⟩ := h.fresh_cell hx hm
  simp [stepFrame, stepEnter, hcell, if_neg hguard, hp]

/-! ## Marking a node -/

theorem Marked.tidy_set (h : Marked nodes mayAlias epoch cells) (x : Nat) {cell : Cell}
    (hc : cell.Tidy epoch) : ∀ c ∈ cells.set x cell, c.Tidy epoch := by
  intro c hmem
  rcases List.mem_or_eq_of_mem_set hmem with hmem | rfl
  · exact h.tidy c hmem
  · exact hc

theorem Marked.set (h : Marked nodes mayAlias epoch cells) {x : Nat} {cell : Cell}
    (hx : x < nodes.length) (hm : ∀ c, markOf epoch cells x ≠ .done c) (hc : cell.Tidy epoch)
    (hdone : ∀ c, cell.mark epoch = .done c →
      ∀ p, Skips nodes mayAlias x p → markOf epoch cells p = .done c)
    (hactive : cell.mark epoch = .active → IsPhi nodes x ∨ ∃ p, Skips nodes mayAlias x p) :
    Marked nodes mayAlias epoch (cells.set x cell) := by
  have hlt : x < cells.length := h.length ▸ hx
  refine ⟨by simp [h.length], h.tidy_set x hc, ?_, ?_⟩
  · intro a c p ha hs
    have hp : markOf epoch cells p = .done c := by
      rw [markOf_set hlt] at ha
      split at ha
      · rename_i hax
        exact hdone c ha p (hax ▸ hs)
      · exact h.handed a c p ha hs
    rwa [markOf_set hlt, if_neg (by rintro rfl; exact hm c hp)]
  · intro a ha
    rw [markOf_set hlt] at ha
    split at ha
    · rename_i hax
      exact hax ▸ hactive ha
    · exact h.waits a ha

theorem Marked.activate (h : Marked nodes mayAlias epoch cells) {x : Nat}
    (hx : x < nodes.length) (hm : markOf epoch cells x = .fresh)
    (hw : IsPhi nodes x ∨ ∃ p, Skips nodes mayAlias x p) :
    Marked nodes mayAlias epoch (cells.set x ⟨epoch, 1, none⟩) :=
  h.set hx (by simp [hm]) (fun _ => .inr (.inl rfl)) (by simp) fun _ => hw

theorem Marked.finish (h : Marked nodes mayAlias epoch cells) {x c : Nat}
    (hx : x < nodes.length) (hm : ∀ c', markOf epoch cells x ≠ .done c')
    (hhand : ∀ p, Skips nodes mayAlias x p → markOf epoch cells p = .done c) :
    Marked nodes mayAlias epoch (cells.set x ⟨epoch, 2, some (.access c)⟩) := by
  refine h.set hx hm (fun _ => .inr (.inr ⟨rfl, c, rfl⟩)) (fun c' hc' => ?_) (by simp)
  simp only [mark_done, Mark.done.injEq] at hc'
  exact hc' ▸ hhand

theorem Marked.reset (h : Marked nodes mayAlias epoch cells) {x : Nat}
    (hx : x < nodes.length) (hm : markOf epoch cells x = .active) :
    Marked nodes mayAlias epoch (cells.set x ⟨epoch, 0, none⟩) :=
  h.set hx (by simp [hm]) (fun _ => .inl rfl) (by simp) (by simp)

/-- Change the mark of a node that is not done: an answer comes with its reasons. -/
theorem Coherent.set (h : Coherent nodes mayAlias epoch cells) {x : Nat} {cell : Cell}
    (hx : x < nodes.length) (hm : Marked nodes mayAlias epoch (cells.set x cell))
    (hdone : ∀ c, cell.mark epoch = .done c → Resolves nodes mayAlias x c) :
    Coherent nodes mayAlias epoch (cells.set x cell) := by
  refine ⟨hm.length, hm.tidy, fun a c ha => ?_, hm.handed, hm.waits⟩
  rw [markOf_set (h.length ▸ hx)] at ha
  split at ha
  · rename_i hax
    exact hax ▸ hdone c ha
  · exact h.resolves a c ha

theorem Coherent.activate (h : Coherent nodes mayAlias epoch cells) {x : Nat}
    (hx : x < nodes.length) (hm : markOf epoch cells x = .fresh)
    (hw : IsPhi nodes x ∨ ∃ p, Skips nodes mayAlias x p) :
    Coherent nodes mayAlias epoch (cells.set x ⟨epoch, 1, none⟩) :=
  h.set hx (h.marked.activate hx hm hw) (by simp)

theorem Coherent.finish (h : Coherent nodes mayAlias epoch cells) {x c : Nat}
    (hx : x < nodes.length) (hm : ∀ c', markOf epoch cells x ≠ .done c')
    (hres : Resolves nodes mayAlias x c)
    (hhand : ∀ p, Skips nodes mayAlias x p → markOf epoch cells p = .done c) :
    Coherent nodes mayAlias epoch (cells.set x ⟨epoch, 2, some (.access c)⟩) := by
  refine h.set hx (h.marked.finish hx hm hhand) fun c' hc' => ?_
  simp only [mark_done, Mark.done.injEq] at hc'
  exact hc' ▸ hres

theorem Coherent.reset (h : Coherent nodes mayAlias epoch cells) {x : Nat}
    (hx : x < nodes.length) (hm : markOf epoch cells x = .active) :
    Coherent nodes mayAlias epoch (cells.set x ⟨epoch, 0, none⟩) :=
  h.set hx (h.marked.reset hx hm) (by simp)

/-- Between entering a fresh node and leaving it, only its own mark changes. -/
theorem Extends.of_entered {x : Nat} {cell : Cell} (hlt : x < cells.length)
    (hlt' : x < cells'.length) (hm : markOf epoch cells x = .fresh)
    (h : Extends epoch (cells.set x ⟨epoch, 1, none⟩) cells')
    (hcell : cell.mark epoch ≠ .active) : Extends epoch cells (cells'.set x cell) := by
  constructor
  · intro a ha
    have hax : a ≠ x := by rintro rfl; exact ha hm
    have hkept := h.kept a (by rwa [markOf_set hlt, if_neg hax])
    rw [markOf_set hlt, if_neg hax] at hkept
    rw [markOf_set hlt', if_neg hax, hkept]
  · intro a ha
    rw [markOf_set hlt'] at ha
    split at ha
    · exact absurd ha hcell
    · rename_i hax
      have hact := h.closed a ha
      rwa [markOf_set hlt, if_neg hax] at hact

/-! ## Chains of definitions -/

theorem Resolves.chainEnd {a c : Nat} (h : Resolves nodes mayAlias a c) :
    ∃ e, ChainEnd nodes mayAlias a e := by
  induction h with
  | @entry a he => exact ⟨a, .stop fun _ hs => hs.not_end (.inl he)⟩
  | @clobbers a hc => exact ⟨a, .stop fun _ hs => hs.not_end (.inr hc)⟩
  | skip hs _ ih =>
    obtain ⟨e, he⟩ := ih
    exact ⟨e, .skip hs he⟩
  | agree hp => exact ⟨_, chainEnd_phi hp⟩
  | diverge hp => exact ⟨_, chainEnd_phi hp⟩
  | closed hp => exact ⟨_, chainEnd_phi hp⟩

theorem Marked.chain_done (h : Marked nodes mayAlias epoch cells) {a c e : Nat}
    (ha : markOf epoch cells a = .done c) (he : ChainEnd nodes mayAlias a e) :
    markOf epoch cells e = .done c := by
  induction he with
  | stop => exact ha
  | skip hs _ ih => exact ih (h.handed _ c _ ha hs)

theorem Came.chain_active {x a e : Nat} (h : Came nodes mayAlias epoch cells x)
    (hx : markOf epoch cells x = .active) (ha : markOf epoch cells a = .active)
    (he : ChainEnd nodes mayAlias a e) : markOf epoch cells e = .active := by
  induction he with
  | stop => exact ha
  | skip hs _ ih =>
    rcases h.chain _ _ ha hs with hp | rfl
    · exact ih hp
    · exact ih hx

theorem ChainEnd.stops {a e : Nat} (h : ChainEnd nodes mayAlias a e) :
    ∀ p, ¬ Skips nodes mayAlias e p := by
  induction h with
  | stop hs => exact hs
  | skip _ _ ih => exact ih

theorem ChainEnd.reach {a e : Nat} (h : ChainEnd nodes mayAlias a e) :
    ReflTransGen (Next nodes mayAlias) a e := by
  induction h with
  | stop => exact .refl
  | skip hs _ ih => exact .head (.inl hs) ih

theorem Came.extends {x : Nat} (h : Came nodes mayAlias epoch cells x)
    (hext : Extends epoch cells cells') : Came nodes mayAlias epoch cells' x := by
  refine ⟨fun a ha => h.reach a (hext.closed a ha), fun a p ha hs => ?_⟩
  rw [hext.active_iff]
  exact h.chain a p (hext.closed a ha) hs

/-- From a node just made active the walk goes on to one of its inputs. -/
theorem Came.enter {x y : Nat} (h : Came nodes mayAlias epoch cells x) (hlt : x < cells.length)
    (hnext : Next nodes mayAlias x y) :
    Came nodes mayAlias epoch (cells.set x ⟨epoch, 1, none⟩) y := by
  constructor
  · intro a ha
    rw [markOf_set hlt] at ha
    split at ha
    · rename_i hax
      exact hax ▸ .single hnext
    · exact (h.reach a ha).tail hnext
  · intro a p ha hs
    rw [markOf_set hlt] at ha ⊢
    split at ha
    · rename_i hax
      subst hax
      rcases hnext with hs' | ⟨block, inputs, hp, -⟩
      · exact .inr (hs.unique hs')
      · exact absurd hp hs.not_phi
    · split
      · exact .inl (mark_active epoch)
      · rename_i hpx
        exact .inl ((h.chain a p ha hs).resolve_right hpx)

theorem Answers.trans {x : Nat} {result : ClobberResolution}
    (h : Answers nodes mayAlias epoch cells cells' x result) (hext : Extends epoch cells' cells'') :
    Answers nodes mayAlias epoch cells cells'' x result := by
  cases h with
  | cycle h => exact .cycle h
  | access hdone hend he => exact .access (hext.done hdone) hend he

theorem Answers.before {x : Nat} {result : ClobberResolution}
    (h : Answers nodes mayAlias epoch cells' cells'' x result) (hext : Extends epoch cells cells') :
    Answers nodes mayAlias epoch cells cells'' x result := by
  cases h with
  | cycle h => exact .cycle fun e he => (hext.active_iff e).mp (h e he)
  | access hdone hend he => exact .access hdone hend fun ha => he ((hext.active_iff _).mpr ha)

/-! ## Joining the inputs of a phi -/

/-- The join of a list: the common result of those that are no cycle. -/
inductive Joins (results : List ClobberResolution) : Option ClobberResolution × Bool → Prop where
  | none (h : ∀ r ∈ results, r = .cycle) : Joins results (none, false)
  | common {r : ClobberResolution} (hr : r ∈ results) (hc : r ≠ .cycle)
      (h : ∀ r' ∈ results, r' ≠ .cycle → r' = r) : Joins results (some r, false)
  | diverged {r r' : ClobberResolution} (hr : r ∈ results) (hc : r ≠ .cycle) (hr' : r' ∈ results)
      (hc' : r' ≠ .cycle) (hne : r ≠ r') : Joins results (some r, true)

theorem Joins.step {results : List ClobberResolution} {state : Option ClobberResolution × Bool}
    (h : Joins results state) (result : ClobberResolution) :
    Joins (results ++ [result]) (joinStep state result) := by
  by_cases hcycle : result = .cycle
  · simp only [joinStep, if_pos hcycle]
    cases h with
    | none h => exact .none (by simpa [hcycle, or_imp, forall_and] using h)
    | common hr hc h =>
      refine .common (by simp [hr]) hc ?_
      intro r' hr' hc'
      rcases List.mem_append.mp hr' with hr' | hr'
      · exact h r' hr' hc'
      · rw [List.mem_singleton.mp hr'] at hc'
        exact absurd hcycle hc'
    | diverged hr hc hr' hc' hne => exact .diverged (by simp [hr]) hc (by simp [hr']) hc' hne
  · simp only [joinStep, if_neg hcycle]
    cases h with
    | none h =>
      refine .common (by simp) hcycle ?_
      intro r' hr' hc'
      rcases List.mem_append.mp hr' with hr' | hr'
      · exact absurd (h r' hr') hc'
      · simpa using hr'
    | @common r hr hc h =>
      by_cases hne : r = result
      · simp only [hne, ne_eq, not_true_eq_false, if_false]
        refine .common (by simp) hcycle ?_
        intro r' hr' hc'
        rcases List.mem_append.mp hr' with hr' | hr'
        · exact (h r' hr' hc').trans hne
        · simpa using hr'
      · simp only [ne_eq, hne, not_false_eq_true, if_true]
        exact .diverged (by simp [hr]) hc (by simp) hcycle hne
    | diverged hr hc hr' hc' hne =>
      simp only [ite_self]
      exact .diverged (by simp [hr]) hc (by simp [hr']) hc' hne

theorem joins_foldl (results : List ClobberResolution) :
    Joins results (results.foldl joinStep (none, false)) := by
  suffices h : ∀ rest before state, Joins before state →
      Joins (before ++ rest) (rest.foldl joinStep state) from
    h results [] _ (.none (by simp))
  intro rest
  induction rest with
  | nil => intro before state h; simpa using h
  | cons r rest ih =>
    intro before state h
    simpa using ih (before ++ [r]) _ (h.step r)

/-- The phi's answer from what its inputs handed back. -/
theorem joinInputs_resolves {x block : Nat} {inputs : List (Nat × Nat)}
    {results : List ClobberResolution} (hp : nodes[x]? = some (.phi block inputs))
    (hres : List.Forall₂ (fun i r => (r = .cycle ∧ Loops nodes mayAlias x i) ∨
      ∃ c, r = .access c ∧ ¬ Loops nodes mayAlias x i ∧ Resolves nodes mayAlias i c)
      (inputs.map Prod.snd) results) :
    ∃ c, joinInputs x results = .access c ∧ Resolves nodes mayAlias x c := by
  have hof : ∀ r ∈ results, r ≠ .cycle → ∃ i ∈ inputs.map Prod.snd, ∃ c, r = .access c ∧
      ¬ Loops nodes mayAlias x i ∧ Resolves nodes mayAlias i c := by
    intro r hr hc
    obtain ⟨i, hi, h⟩ := forall₂_exists hres.flip hr
    rcases h with ⟨hcycle, -⟩ | h
    · exact absurd hcycle hc
    · exact ⟨i, hi, h⟩
  have hto : ∀ i ∈ inputs.map Prod.snd, ¬ Loops nodes mayAlias x i →
      ∃ r ∈ results, ∃ c, r = .access c ∧ Resolves nodes mayAlias i c := by
    intro i hi hl
    obtain ⟨r, hr, h⟩ := forall₂_exists hres hi
    rcases h with ⟨-, hloop⟩ | ⟨c, hrc, -, hc⟩
    · exact absurd hloop hl
    · exact ⟨r, hr, c, hrc, hc⟩
  have hj := joins_foldl results
  unfold joinInputs
  generalize results.foldl joinStep (none, false) = state at hj
  cases hj with
  | none h =>
    refine ⟨x, rfl, .closed hp fun j hj => ?_⟩
    by_contra hl
    obtain ⟨r, hr, c, rfl, -⟩ := hto j hj hl
    cases h _ hr
  | common hr hc h =>
    obtain ⟨i, hi, c, rfl, hl, hres⟩ := hof _ hr hc
    refine ⟨c, rfl, .agree hp hi hl fun j hj hlj => ?_⟩
    obtain ⟨r', hr', c', rfl, hc'⟩ := hto j hj hlj
    cases h _ hr' (by simp)
    exact hc'
  | diverged hr hc hr' hc' hne =>
    obtain ⟨i, hi, c, rfl, hli, hci⟩ := hof _ hr hc
    obtain ⟨j, hj, c', rfl, hlj, hcj⟩ := hof _ hr' hc'
    exact ⟨x, rfl, .diverge hp hi hj hli hlj hci hcj fun h => hne (h ▸ rfl)⟩

/-! ## One walk -/

/-- Entering `x` comes back with its result and coherent marks. -/
def Enters (nodes : List (MemoryAccessNode D)) (mayAlias : D → Bool) (epoch : Nat)
    (cells : List Cell) (x : Nat) : Prop :=
  ∀ frames values, ∃ result cells',
    Steps nodes mayAlias epoch ⟨cells, .enter x :: frames, values⟩
      ⟨cells', frames, result :: values⟩ ∧
    Coherent nodes mayAlias epoch cells' ∧ Extends epoch cells cells' ∧
    Answers nodes mayAlias epoch cells cells' x result

theorem enters_active (h : Coherent nodes mayAlias epoch cells) {x : Nat} (hx : x < nodes.length)
    (hcame : Came nodes mayAlias epoch cells x) (hm : markOf epoch cells x = .active) :
    Enters nodes mayAlias epoch cells x := fun frames values =>
  ⟨.cycle, cells, .single (by simp) (step_active h.marked hx hm frames values), h, .refl,
    .cycle fun _ he => hcame.chain_active hm hm he⟩

theorem enters_done (h : Coherent nodes mayAlias epoch cells) {x c : Nat} (hx : x < nodes.length)
    (hm : markOf epoch cells x = .done c) : Enters nodes mayAlias epoch cells x := by
  intro frames values
  obtain ⟨e, he⟩ := (h.resolves x c hm).chainEnd
  refine ⟨.access c, cells, .single (by simp) (step_done h.marked hx hm frames values), h, .refl,
    .access hm he ?_⟩
  simp [h.marked.chain_done hm he]

theorem enters_end (h : Coherent nodes mayAlias epoch cells) {x : Nat} (hx : x < nodes.length)
    (hm : markOf epoch cells x = .fresh) (hend : IsEntry nodes x ∨ Clobbers nodes mayAlias x) :
    Enters nodes mayAlias epoch cells x := by
  intro frames values
  have hlt : x < cells.length := h.length ▸ hx
  have hstop : ∀ p, ¬ Skips nodes mayAlias x p := fun p hs => hs.not_end hend
  have hres : Resolves nodes mayAlias x x := hend.elim .entry .clobbers
  refine ⟨.access x, _, .single (by simp) (step_end h.marked hx hm hend frames values),
    h.finish hx (by simp [hm]) hres (fun p hs => absurd hs (hstop p)), ?_,
    .access (by simp [markOf_set hlt]) (.stop hstop) (by simp [hm])⟩
  constructor
  · intro a ha
    rw [markOf_set hlt, if_neg (by rintro rfl; exact ha hm)]
  · intro a ha
    rw [markOf_set hlt] at ha
    split at ha
    · simp at ha
    · exact ha

/-- A definition that cannot alias hands on what its predecessor gives; under a cycle it keeps
no mark. -/
theorem enters_skip (h : Coherent nodes mayAlias epoch cells) {x p : Nat} (hx : x < nodes.length)
    (hm : markOf epoch cells x = .fresh) (hs : Skips nodes mayAlias x p)
    (hp : Enters nodes mayAlias epoch (cells.set x ⟨epoch, 1, none⟩) p) :
    Enters nodes mayAlias epoch cells x := by
  intro frames values
  have hlt : x < cells.length := h.length ▸ hx
  obtain ⟨result, cells', hsteps, hcoh, hext, hans⟩ := hp (.finishDefinition x :: frames) values
  have hlt' : x < cells'.length := hcoh.length ▸ hx
  have hactive : markOf epoch cells' x = .active :=
    (hext.active_iff x).mpr (by simp [markOf_set hlt])
  have hmark : ∀ e, ChainEnd nodes mayAlias x e →
      markOf epoch (cells.set x ⟨epoch, 1, none⟩) e = markOf epoch cells e := by
    intro e he
    rw [markOf_set hlt, if_neg (by rintro rfl; exact he.stops p hs)]
  have hrun : Steps nodes mayAlias epoch ⟨cells, .enter x :: frames, values⟩
      ⟨cells', .finishDefinition x :: frames, result :: values⟩ :=
    (Steps.single (by simp) (step_skip h.marked hx hm hs frames values)).trans hsteps
  cases hans with
  | cycle hcycle =>
    refine ⟨.cycle, cells'.set x ⟨epoch, 0, none⟩,
      hrun.append (by simp) (by simp [stepFrame, stepDefinition]),
      hcoh.reset hx hactive, .of_entered hlt hlt' hm hext (by simp), .cycle fun e he => ?_⟩
    rw [← hmark e he]
    cases he with
    | stop hstop => exact absurd hs (hstop p)
    | skip hs' rest =>
      obtain rfl := hs.unique hs'
      exact hcycle e rest
  | @access c e hdone hend he =>
    refine ⟨.access c, cells'.set x ⟨epoch, 2, some (.access c)⟩,
      hrun.append (by simp) (by simp [stepFrame, stepDefinition, Walk.resolve]),
      hcoh.finish hx (by simp [hactive]) (.skip hs (hcoh.resolves p c hdone)) ?_,
      .of_entered hlt hlt' hm hext (by simp), .access (by simp [markOf_set hlt']) (.skip hs hend) ?_⟩
    · intro p' hs'
      obtain rfl := hs.unique hs'
      exact hdone
    · rwa [← hmark e (.skip hs hend)]

/-- The inputs of a phi one after the other; the last result is on top. -/
theorem enters_inputs {bound : Nat}
    (ih : ∀ cells x, freshCount nodes epoch cells < bound → Coherent nodes mayAlias epoch cells →
      x < nodes.length → Came nodes mayAlias epoch cells x → Enters nodes mayAlias epoch cells x)
    (inputs : List Nat) (cells : List Cell) (hfresh : freshCount nodes epoch cells < bound)
    (h : Coherent nodes mayAlias epoch cells)
    (hin : ∀ i ∈ inputs, i < nodes.length ∧ Came nodes mayAlias epoch cells i)
    (frames : List ResolveFrame) (values : List ClobberResolution) :
    ∃ results cells',
      Steps nodes mayAlias epoch ⟨cells, inputs.map .enter ++ frames, values⟩
        ⟨cells', frames, results.reverse ++ values⟩ ∧
      Coherent nodes mayAlias epoch cells' ∧ Extends epoch cells cells' ∧
      List.Forall₂ (Answers nodes mayAlias epoch cells cells') inputs results := by
  induction inputs generalizing cells values with
  | nil => exact ⟨[], cells, .refl, h, .refl, .nil⟩
  | cons i inputs ihl =>
    obtain ⟨hlt, hcame⟩ := hin i (List.mem_cons_self ..)
    obtain ⟨result, mid, hsteps, hmid, hext, hans⟩ :=
      ih cells i hfresh h hlt hcame (inputs.map .enter ++ frames) values
    have hrest : ∀ j ∈ inputs, j < nodes.length ∧ Came nodes mayAlias epoch mid j := by
      intro j hj
      obtain ⟨hj, hcj⟩ := hin j (List.mem_cons_of_mem _ hj)
      exact ⟨hj, hcj.extends hext⟩
    obtain ⟨results, cells', hsteps', hcoh, hext', hall⟩ :=
      ihl mid (hext.freshCount_le.trans_lt hfresh) hmid hrest (result :: values)
    refine ⟨result :: results, cells', ?_, hcoh, hext.trans hext', ?_⟩
    · simpa using hsteps.trans hsteps'
    · exact .cons (hans.trans hext') (hall.imp fun j r hr => hr.before hext)

/-- Under the condition on the phis an input gives a cycle exactly when it only leads back. -/
theorem Answers.loops (hsep : SeparatePhis nodes mayAlias) {x block i : Nat}
    {inputs : List (Nat × Nat)} {result : ClobberResolution}
    (hp : nodes[x]? = some (.phi block inputs)) (hi : i ∈ inputs.map Prod.snd)
    (h : Coherent nodes mayAlias epoch cells) (h' : Coherent nodes mayAlias epoch cells')
    (hx : markOf epoch cells x = .active)
    (hback : ∀ a, markOf epoch cells a = .active → ReflTransGen (Next nodes mayAlias) a x)
    (hans : Answers nodes mayAlias epoch cells cells' i result) :
    (result = .cycle ∧ Loops nodes mayAlias x i) ∨
      ∃ c, result = .access c ∧ ¬ Loops nodes mayAlias x i ∧ Resolves nodes mayAlias i c := by
  cases hans with
  | cycle hcycle =>
    refine .inl ⟨rfl, fun e he => ?_⟩
    have hactive := hcycle e he
    have hphi : IsPhi nodes e := (h.waits e hactive).resolve_right fun ⟨p, hs⟩ => he.stops p hs
    exact (hsep x e ⟨block, inputs, hp⟩ hphi (.head (.inr ⟨block, inputs, hp, hi⟩) he.reach)
      (hback e hactive)).symm
  | @access c e hdone hend he =>
    refine .inr ⟨c, rfl, fun hl => he ?_, h'.resolves i c hdone⟩
    rwa [hl e hend]

theorem enters_phi (hwf : WellFormed nodes) (hsep : SeparatePhis nodes mayAlias)
    (h : Coherent nodes mayAlias epoch cells) {x block : Nat} {inputs : List (Nat × Nat)}
    (hx : x < nodes.length) (hm : markOf epoch cells x = .fresh)
    (hp : nodes[x]? = some (.phi block inputs)) (hcame : Came nodes mayAlias epoch cells x)
    (ih : ∀ cells' y, freshCount nodes epoch cells' < freshCount nodes epoch cells →
      Coherent nodes mayAlias epoch cells' → y < nodes.length →
      Came nodes mayAlias epoch cells' y → Enters nodes mayAlias epoch cells' y) :
    Enters nodes mayAlias epoch cells x := by
  intro frames values
  have hlt : x < cells.length := h.length ▸ hx
  have hentered := h.activate hx hm (.inl ⟨block, inputs, hp⟩)
  have hnext : ∀ i ∈ inputs.map Prod.snd, Next nodes mayAlias x i :=
    fun i hi => .inr ⟨block, inputs, hp, hi⟩
  have hin : ∀ i ∈ inputs.map Prod.snd, i < nodes.length ∧
      Came nodes mayAlias epoch (cells.set x ⟨epoch, 1, none⟩) i := by
    intro i hi
    exact ⟨hwf x i (by simpa [Back, hp] using hi), hcame.enter hlt (hnext i hi)⟩
  have hback : ∀ a, markOf epoch (cells.set x ⟨epoch, 1, none⟩) a = .active →
      ReflTransGen (Next nodes mayAlias) a x := by
    intro a ha
    rw [markOf_set hlt] at ha
    split at ha
    · rename_i hax
      exact hax ▸ .refl
    · exact hcame.reach a ha
  obtain ⟨results, cells', hsteps, hcoh, hext, hall⟩ := enters_inputs ih (inputs.map Prod.snd)
    (cells.set x ⟨epoch, 1, none⟩) (freshCount_set_lt hx h.length hm (by simp)) hentered hin
    (.finishPhi x inputs.length :: frames) values
  have hlt' : x < cells'.length := hcoh.length ▸ hx
  have hactive : markOf epoch cells' x = .active :=
    (hext.active_iff x).mpr (by simp [markOf_set hlt])
  have hlen : results.length = inputs.length := by simpa using hall.length_eq.symm
  obtain ⟨c, hjoin, hres⟩ := joinInputs_resolves hp ((List.forall₂_iff_zip.mpr
    ⟨hall.length_eq, fun {i r} hir => (List.forall₂_zip hall hir).loops hsep hp
      (List.of_mem_zip hir).1 hentered hcoh (by simp [markOf_set hlt]) hback⟩))
  refine ⟨.access c, cells'.set x ⟨epoch, 2, some (.access c)⟩, ?_,
    hcoh.finish hx (by simp [hactive]) hres (fun p hs => absurd hp hs.not_phi),
    .of_entered hlt hlt' hm hext (by simp),
    .access (by simp [markOf_set hlt']) (chainEnd_phi hp) (by simp [hm])⟩
  have hstart : Steps nodes mayAlias epoch ⟨cells, .enter x :: frames, values⟩
      ⟨cells', .finishPhi x inputs.length :: frames, results.reverse ++ values⟩ :=
    (Steps.single (by simp) (step_phi h.marked hx hm hp frames values)).trans hsteps
  refine hstart.append (by simp) ?_
  have htake : (results.reverse ++ values).take inputs.length = results.reverse :=
    List.take_left' (by simp [hlen])
  have hdrop : (results.reverse ++ values).drop inputs.length = values :=
    List.drop_left' (by simp [hlen])
  simp [stepFrame, stepPhi, hlen, htake, hdrop, hjoin, Walk.resolve]

/-- Every walk comes back with the answer of the graph. -/
theorem enters (hwf : WellFormed nodes) (hsep : SeparatePhis nodes mayAlias)
    (h : Coherent nodes mayAlias epoch cells) {x : Nat} (hx : x < nodes.length)
    (hcame : Came nodes mayAlias epoch cells x) : Enters nodes mayAlias epoch cells x := by
  induction hn : freshCount nodes epoch cells using Nat.strong_induction_on
    generalizing cells x with
  | _ n ih =>
    cases hm : markOf epoch cells x with
    | active => exact enters_active h hx hcame hm
    | done c => exact enters_done h hx hm
    | fresh =>
      match hnode : nodes[x]? with
      | none =>
        simp only [List.getElem?_eq_none_iff] at hnode
        omega
      | some .liveOnEntry => exact enters_end h hx hm (.inl hnode)
      | some (.definition d p) =>
        by_cases halias : mayAlias d = true
        · exact enters_end h hx hm (.inr ⟨d, p, hnode, halias⟩)
        · have hs : Skips nodes mayAlias x p := ⟨d, hnode, by simpa using halias⟩
          refine enters_skip h hx hm hs (ih _ ?_ (h.activate hx hm (.inr ⟨p, hs⟩))
            (hwf x p (by simp [Back, hnode])) (hcame.enter (h.length ▸ hx) (.inl hs)) rfl)
          exact hn ▸ freshCount_set_lt hx h.length hm (by simp)
      | some (.phi block inputs) =>
        refine enters_phi hwf hsep h hx hm hnode hcame fun cells' y hlt hcoh hy hcame' => ?_
        exact ih _ (hn ▸ hlt) hcoh hy hcame' rfl

end Graph
end Celox.Ssa
