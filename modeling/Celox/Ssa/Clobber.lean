import Celox.Ssa.MemoryGraph

/-! # Walking the memory graph back to a clobber

A session fixes one alias query and answers any number of start points. Marks of a node belong to
an epoch, so a new session starts without any. -/
namespace Celox.Ssa
open Relation

/-! ## The walker -/

inductive MemoryClobber where
  | access (access : Nat)
  | indeterminate
  deriving DecidableEq, Repr

inductive ClobberResolution where
  | access (access : Nat)
  | cycle
  deriving DecidableEq, Repr

inductive ResolveFrame where
  | enter (access : Nat)
  | finishDefinition (access : Nat)
  | finishPhi (access inputs : Nat)
  deriving DecidableEq, Repr

/-- The entry of one access in the walker's three tables. -/
structure Cell where
  epoch : Nat
  state : Nat
  result : Option ClobberResolution
  deriving DecidableEq, Repr

structure ClobberWalker where
  cells : List Cell
  epoch : Nat
  deriving DecidableEq, Repr

def ClobberWalker.new : ClobberWalker := ⟨[], 0⟩

/-- `Vec::resize` with an empty entry. -/
def resize (cells : List Cell) (size : Nat) : List Cell :=
  cells.take size ++ List.replicate (size - cells.length) ⟨0, 0, none⟩

/-- Start a session: a new epoch, and all epochs cleared when the counter wraps around. -/
def ClobberWalker.query {D : Type} (walker : ClobberWalker) (graph : MemoryAccessGraph D) :
    ClobberWalker :=
  let cells := resize walker.cells graph.nodes.length
  let epoch := (walker.epoch + 1) % 2 ^ 32
  if epoch = 0 then ⟨cells.map fun cell => { cell with epoch := 0 }, 1⟩ else ⟨cells, epoch⟩

/-- The stacks of one walk; the last pushed item is the first of its list. -/
structure Walk where
  cells : List Cell
  frames : List ResolveFrame
  values : List ClobberResolution
  deriving DecidableEq, Repr

section Walk
variable {D : Type} (nodes : List (MemoryAccessNode D)) (mayAlias : D → Bool) (epoch : Nat)

/-- Record a node's result and hand it to the frame below. -/
def Walk.resolve (walk : Walk) (access : Nat) (result : ClobberResolution) : Walk :=
  { walk with
    cells := walk.cells.set access ⟨epoch, 2, some result⟩
    values := result :: walk.values }

def stepEnter (walk : Walk) (access : Nat) : Option Walk := do
  let cell ← walk.cells[access]?
  if cell.epoch = epoch ∧ cell.state ≠ 0 then
    match cell.state, cell.result with
    | 1, _ => some { walk with values := .cycle :: walk.values }
    | 2, some result => some { walk with values := result :: walk.values }
    | _, _ => none
  else
    let walk := { walk with cells := walk.cells.set access ⟨epoch, 1, none⟩ }
    match ← nodes[access]? with
    | .liveOnEntry => some (walk.resolve epoch access (.access access))
    | .definition definition previous =>
      if mayAlias definition then some (walk.resolve epoch access (.access access))
      else some { walk with
        frames := .enter previous :: .finishDefinition access :: walk.frames }
    | .phi _ inputs => some { walk with
        frames := inputs.map (fun (_, input) => .enter input) ++
          .finishPhi access inputs.length :: walk.frames }

def stepDefinition (walk : Walk) (access : Nat) : Option Walk :=
  match walk.values with
  | [] => none
  | .cycle :: values =>
    some { walk with cells := walk.cells.set access ⟨epoch, 0, none⟩, values := .cycle :: values }
  | result :: values => some ({ walk with values }.resolve epoch access result)

/-- Join one input: the first result that is no cycle, and whether a later one differs. -/
def joinStep (state : Option ClobberResolution × Bool) (result : ClobberResolution) :
    Option ClobberResolution × Bool :=
  if result = .cycle then state
  else match state.1 with
    | some previous => if previous ≠ result then (some previous, true) else state
    | none => (some result, state.2)

def joinInputs (access : Nat) (results : List ClobberResolution) : ClobberResolution :=
  let (common, diverged) := results.foldl joinStep (none, false)
  if diverged then .access access else common.getD (.access access)

def stepPhi (walk : Walk) (access inputs : Nat) : Option Walk :=
  if walk.values.length < inputs then none
  else
    let result := joinInputs access (walk.values.take inputs).reverse
    some ({ walk with values := walk.values.drop inputs }.resolve epoch access result)

def stepFrame (walk : Walk) : Option Walk :=
  match walk.frames with
  | [] => none
  | .enter access :: frames => stepEnter nodes mayAlias epoch { walk with frames } access
  | .finishDefinition access :: frames => stepDefinition epoch { walk with frames } access
  | .finishPhi access inputs :: frames => stepPhi epoch { walk with frames } access inputs

def runFrames : (fuel : Nat) → Walk → Option Walk
  | 0, walk => if walk.frames = [] then some walk else none
  | fuel + 1, walk =>
    if walk.frames = [] then some walk
    else (stepFrame nodes mayAlias epoch walk).bind (runFrames fuel)

end Walk

/-- `ClobberQuery::clobber` in the session that `walker` is in; `none` for a start outside the
graph, a failed expectation or too little fuel. -/
def clobber {D : Type} (fuel : Nat) (graph : MemoryAccessGraph D) (mayAlias : D → Bool)
    (walker : ClobberWalker) (start : Nat) : Option (MemoryClobber × ClobberWalker) :=
  if start < graph.nodes.length then
    match runFrames graph.nodes mayAlias walker.epoch fuel ⟨walker.cells, [.enter start], []⟩ with
    | some ⟨cells, _, [.access access]⟩ => some (.access access, ⟨cells, walker.epoch⟩)
    | some ⟨cells, _, [.cycle]⟩ => some (.indeterminate, ⟨cells, walker.epoch⟩)
    | _ => none
  else none

/-- The calls of one session, from the state the first finds to the state the last leaves. -/
inductive Session {D : Type} (graph : MemoryAccessGraph D) (mayAlias : D → Bool) :
    ClobberWalker → List Nat → List MemoryClobber → ClobberWalker → Prop where
  | nil (walker : ClobberWalker) : Session graph mayAlias walker [] [] walker
  | cons {walker next last : ClobberWalker} {start : Nat} {answer : MemoryClobber}
      {starts : List Nat} {answers : List MemoryClobber} (fuel : Nat)
      (h : clobber fuel graph mayAlias walker start = some (answer, next))
      (rest : Session graph mayAlias next starts answers last) :
      Session graph mayAlias walker (start :: starts) (answer :: answers) last

/-! ## What a clobber answer means, and when sessions give it

`Resolves` is the answer by the graph alone. It is sound, there is at most one, and in a graph
without two phis on a common cycle it is the walker's answer whatever was asked before. -/

section Graph
variable {D : Type} (nodes : List (MemoryAccessNode D)) (mayAlias : D → Bool)

/-! ## Backward walks -/

/-- The step from a memory state to one it comes from. -/
def Back (a b : Nat) : Prop :=
  match nodes[a]? with
  | some (.definition _ previous) => b = previous
  | some (.phi _ inputs) => b ∈ inputs.map Prod.snd
  | _ => False

/-- The walk from `a` to `b` by its nodes. -/
inductive Trail : Nat → List Nat → Nat → Prop where
  | here (a : Nat) : Trail a [a] a
  | step {a b c : Nat} {path : List Nat} (h : Back nodes a b) (rest : Trail b path c) :
      Trail a (a :: path) c

/-- A definition that may alias the query. -/
def Clobbers (a : Nat) : Prop :=
  ∃ definition previous, nodes[a]? = some (.definition definition previous) ∧
    mayAlias definition = true

def IsEntry (a : Nat) : Prop := nodes[a]? = some .liveOnEntry

/-- Every walk to the entry or to a definition that may alias meets `c` on its way. -/
def Sound (start c : Nat) : Prop :=
  ∀ path v, Trail nodes start path v → IsEntry nodes v ∨ Clobbers nodes mayAlias v → c ∈ path

/-! ## The answer by the graph alone -/

/-- A definition that cannot alias: the walk goes on to `previous`. -/
def Skips (a previous : Nat) : Prop :=
  ∃ definition, nodes[a]? = some (.definition definition previous) ∧ mayAlias definition = false

/-- Where the run of definitions that cannot alias ends. -/
inductive ChainEnd : Nat → Nat → Prop where
  | stop {a : Nat} (h : ∀ previous, ¬ Skips nodes mayAlias a previous) : ChainEnd a a
  | skip {a previous e : Nat} (h : Skips nodes mayAlias a previous) (rest : ChainEnd previous e) :
      ChainEnd a e

/-- An input of a phi that only leads back to it. -/
def Loops (phi input : Nat) : Prop :=
  ∀ e, ChainEnd nodes mayAlias input e → e = phi

inductive Resolves : Nat → Nat → Prop where
  | entry {a : Nat} (h : IsEntry nodes a) : Resolves a a
  | clobbers {a : Nat} (h : Clobbers nodes mayAlias a) : Resolves a a
  | skip {a previous c : Nat} (h : Skips nodes mayAlias a previous) (rest : Resolves previous c) :
      Resolves a c
  | agree {a block c i : Nat} {inputs : List (Nat × Nat)}
      (h : nodes[a]? = some (.phi block inputs)) (hi : i ∈ inputs.map Prod.snd)
      (hloop : ¬ Loops nodes mayAlias a i)
      (hall : ∀ j ∈ inputs.map Prod.snd, ¬ Loops nodes mayAlias a j → Resolves j c) :
      Resolves a c
  | diverge {a block c c' i j : Nat} {inputs : List (Nat × Nat)}
      (h : nodes[a]? = some (.phi block inputs)) (hi : i ∈ inputs.map Prod.snd)
      (hj : j ∈ inputs.map Prod.snd) (hli : ¬ Loops nodes mayAlias a i)
      (hlj : ¬ Loops nodes mayAlias a j) (hc : Resolves i c) (hc' : Resolves j c') (hne : c ≠ c') :
      Resolves a a
  | closed {a block : Nat} {inputs : List (Nat × Nat)}
      (h : nodes[a]? = some (.phi block inputs))
      (hall : ∀ j ∈ inputs.map Prod.snd, Loops nodes mayAlias a j) : Resolves a a

variable {nodes mayAlias}

theorem Skips.unique {a p q : Nat} (h : Skips nodes mayAlias a p) (h' : Skips nodes mayAlias a q) :
    p = q := by
  obtain ⟨d, hd, -⟩ := h
  obtain ⟨d', hd', -⟩ := h'
  rw [hd] at hd'
  cases hd'
  rfl

theorem Skips.not_end {a p : Nat} (h : Skips nodes mayAlias a p) :
    ¬ (IsEntry nodes a ∨ Clobbers nodes mayAlias a) := by
  obtain ⟨d, hd, halias⟩ := h
  rintro (he | ⟨d', p', hd', halias'⟩)
  · rw [IsEntry, hd] at he
    cases he
  · rw [hd] at hd'
    cases hd'
    simp [halias] at halias'

theorem Skips.not_phi {a p block : Nat} {inputs : List (Nat × Nat)}
    (h : Skips nodes mayAlias a p) : nodes[a]? ≠ some (.phi block inputs) := by
  obtain ⟨d, hd, -⟩ := h
  rw [hd]
  simp

theorem ChainEnd.unique {a e e' : Nat} (h : ChainEnd nodes mayAlias a e)
    (h' : ChainEnd nodes mayAlias a e') : e = e' := by
  induction h with
  | stop hs =>
    cases h' with
    | stop => rfl
    | skip hskip _ => exact absurd hskip (hs _)
  | skip hskip _ ih =>
    cases h' with
    | stop hs => exact absurd hskip (hs _)
    | skip hskip' rest =>
      obtain rfl := hskip.unique hskip'
      exact ih rest

theorem chainEnd_phi {a block : Nat} {inputs : List (Nat × Nat)}
    (h : nodes[a]? = some (.phi block inputs)) : ChainEnd nodes mayAlias a a :=
  .stop fun _ hs => hs.not_phi h

/-- A node is answered in at most one way. -/
theorem Resolves.unique {a c c' : Nat} (h : Resolves nodes mayAlias a c)
    (h' : Resolves nodes mayAlias a c') : c = c' := by
  induction h generalizing c' with
  | entry he =>
    cases h' with
    | entry => rfl
    | clobbers => rfl
    | skip hs _ => exact absurd (.inl he) hs.not_end
    | agree hp => rw [IsEntry, hp] at he; cases he
    | diverge hp => rfl
    | closed hp => rfl
  | clobbers hc =>
    cases h' with
    | entry => rfl
    | clobbers => rfl
    | skip hs _ => exact absurd (.inr hc) hs.not_end
    | agree hp => obtain ⟨d, p, hd, -⟩ := hc; rw [hp] at hd; cases hd
    | diverge hp => rfl
    | closed hp => rfl
  | skip hs _ ih =>
    cases h' with
    | entry he => exact absurd (.inl he) hs.not_end
    | clobbers hc => exact absurd (.inr hc) hs.not_end
    | skip hs' rest =>
      obtain rfl := hs.unique hs'
      exact ih rest
    | agree hp => exact absurd hp hs.not_phi
    | diverge hp => exact absurd hp hs.not_phi
    | closed hp => exact absurd hp hs.not_phi
  | agree hp hi hloop hall ih =>
    cases h' with
    | entry he => rw [IsEntry, hp] at he; cases he
    | clobbers hc => obtain ⟨d, p, hd, -⟩ := hc; rw [hp] at hd; cases hd
    | skip hs => exact absurd hp hs.not_phi
    | agree hp' hi' hloop' hall' =>
      rw [hp] at hp'
      cases hp'
      exact ih _ hi hloop (hall' _ hi hloop)
    | diverge hp' hi' hj' hli hlj hc hc' hne =>
      rw [hp] at hp'
      cases hp'
      exact absurd ((ih _ hi' hli hc).symm.trans (ih _ hj' hlj hc')) hne
    | closed hp' hall' =>
      rw [hp] at hp'
      cases hp'
      exact absurd (hall' _ hi) hloop
  | diverge hp hi hj hli hlj _ _ hne ihc ihc' =>
    cases h' with
    | entry => rfl
    | clobbers => rfl
    | skip hs => exact absurd hp hs.not_phi
    | agree hp' hi' hloop' hall' =>
      rw [hp] at hp'
      cases hp'
      exact absurd ((ihc (hall' _ hi hli)).trans (ihc' (hall' _ hj hlj)).symm) hne
    | diverge => rfl
    | closed => rfl
  | closed hp hall =>
    cases h' with
    | entry => rfl
    | clobbers => rfl
    | skip hs => exact absurd hp hs.not_phi
    | agree hp' hi' hloop' _ =>
      rw [hp] at hp'
      cases hp'
      exact absurd (hall _ hi') hloop'
    | diverge => rfl
    | closed => rfl

/-! ## Soundness -/

theorem Skips.back {a p b : Nat} (h : Skips nodes mayAlias a p) (hb : Back nodes a b) : b = p := by
  obtain ⟨d, hd, -⟩ := h
  simpa [Back, hd] using hb

/-- A walk to an end leaves the run of definitions that cannot alias at the end of the run. -/
theorem Trail.chainEnd {a v : Nat} {path : List Nat} (h : Trail nodes a path v)
    (hv : IsEntry nodes v ∨ Clobbers nodes mayAlias v) :
    ∃ e rest, ChainEnd nodes mayAlias a e ∧ Trail nodes e rest v ∧ rest <:+ path := by
  induction h with
  | here a =>
    refine ⟨a, [a], .stop fun _ hs => hs.not_end hv, .here a, List.suffix_rfl⟩
  | @step a b _ path hback hrest ih =>
    by_cases hskip : ∃ p, Skips nodes mayAlias a p
    · obtain ⟨p, hs⟩ := hskip
      obtain rfl := hs.back hback
      obtain ⟨e, rest, hend, htrail, hsuffix⟩ := ih hv
      exact ⟨e, rest, .skip hs hend, htrail, hsuffix.trans (List.suffix_cons a path)⟩
    · exact ⟨a, a :: path, .stop fun p hs => hskip ⟨p, hs⟩, .step hback hrest, List.suffix_rfl⟩

theorem Resolves.sound {a c : Nat} (h : Resolves nodes mayAlias a c) :
    Sound nodes mayAlias a c := by
  have hself : ∀ a, Sound nodes mayAlias a a := by
    intro a path v htrail _
    cases htrail <;> simp
  induction h with
  | entry => exact hself _
  | clobbers => exact hself _
  | skip hs _ ih =>
    intro path v htrail hv
    cases htrail with
    | here => exact absurd hv hs.not_end
    | step hback hrest =>
      obtain rfl := hs.back hback
      exact List.mem_cons_of_mem _ (ih _ v hrest hv)
  | @agree a block c i inputs hp hi hloop hall ih =>
    intro path v htrail hv
    -- walks that come back to the phi are shorter from there on
    induction hn : path.length using Nat.strong_induction_on generalizing path with
    | _ n ihn =>
      cases htrail with
      | here =>
        rcases hv with he | ⟨d, p, hd, -⟩
        · rw [IsEntry, hp] at he; cases he
        · rw [hp] at hd; cases hd
      | @step _ j _ rest hback hrest =>
        have hj : j ∈ inputs.map Prod.snd := by
          simpa only [Back, hp] using hback
        by_cases hl : Loops nodes mayAlias a j
        · obtain ⟨e, rest', hend, htrail', hsuffix⟩ := hrest.chainEnd hv
          obtain rfl := hl e hend
          have hlen : rest'.length < n := by
            have := hsuffix.length_le
            simp only [List.length_cons] at hn
            omega
          exact List.mem_cons_of_mem _ (hsuffix.subset (ihn _ hlen rest' htrail' rfl))
        · exact List.mem_cons_of_mem _ (ih j hj hl rest v hrest hv)
  | diverge => exact hself _
  | closed => exact hself _

/-- An answer that is the entry: no definition on any walk may alias. -/
theorem Sound.not_clobbers {start c v : Nat} {path : List Nat} (h : Sound nodes mayAlias start c)
    (hc : IsEntry nodes c) (htrail : Trail nodes start path v) : ¬ Clobbers nodes mayAlias v := by
  intro hv
  have hmem := h path v htrail (.inr hv)
  have hlast : ∀ {a path v}, Trail nodes a path v → c ∈ path → c = v := by
    intro a path v htrail
    induction htrail with
    | here a => simp
    | step hback hrest ih =>
      intro hmem
      rcases List.mem_cons.mp hmem with rfl | hmem
      · rw [IsEntry] at hc
        simp [Back, hc] at hback
      · exact ih hmem
  obtain rfl := hlast htrail hmem
  obtain ⟨d, p, hd, -⟩ := hv
  rw [IsEntry, hd] at hc
  cases hc

end Graph
end Celox.Ssa
