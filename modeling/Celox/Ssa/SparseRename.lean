import Celox.Ssa.SparsePlace

/-! # Renaming along the dominator tree

The bindings a block is entered with are those its immediate dominator was left with. -/
namespace Celox.Ssa
open Celox.Graph Celox.Cfg

section Usages
variable {V D U : Type}

theorem usages_use (var : V) (usage : U) (events : List (Event V D U)) :
    (.use var usage :: events).filterMap usageOf = usage :: events.filterMap usageOf := rfl

theorem usages_definition (var : V) (definition : D) (events : List (Event V D U)) :
    (.definition var definition :: events).filterMap usageOf = events.filterMap usageOf := rfl

end Usages

section Bindings
variable {V D U : Type} [LinearOrder V]

local instance lawfulPlacement : LawfulBEq (Nat × V) := inferInstance

abbrev Bindings (V D : Type) := V → Option (Version V D)

/-- The bindings after the phis of a block. -/
def phiBindings (pairs : List (Nat × V)) (block : Nat) (current : Bindings V D) : Bindings V D :=
  fun x => if (block, x) ∈ pairs then some (.phi x block) else current x

def eventBinding (current : Bindings V D) : Event V D U → Bindings V D
  | .use .. => current
  | .definition var definition =>
    Function.update current var (some (.definition var definition))

def eventBindings (events : List (Event V D U)) (current : Bindings V D) : Bindings V D :=
  events.foldl eventBinding current

/-- The version a binding stands for. -/
def bound (current : Bindings V D) (var : V) : Version V D := (current var).getD (.entry var)

theorem bound_eventBindings (events : List (Event V D U)) (current : Bindings V D) (var : V) :
    bound (eventBindings events current) var = events.foldl (lastStep var) (bound current var) := by
  induction events generalizing current with
  | nil => rfl
  | cons event events ih =>
    rw [eventBindings, List.foldl_cons, List.foldl_cons]
    refine (ih _).trans ?_
    congr 1
    cases event with
    | use => rfl
    | definition v definition =>
      unfold bound lastStep eventBinding
      dsimp only
      rw [Function.update_apply]
      by_cases heq : var = v
      · simp [heq]
      · simp [heq, Ne.symm heq]

/-- The versions recorded for the uses of a block. -/
def recordedUses : (current : Bindings V D) → List (Event V D U) → List (U × Version V D)
  | _, [] => []
  | current, .use var usage :: events =>
    (usage, bound current var) :: recordedUses current events
  | current, .definition var definition :: events =>
    recordedUses (Function.update current var (some (.definition var definition))) events

theorem recordedUses_fst (current : Bindings V D) (events : List (Event V D U)) :
    (recordedUses current events).map Prod.fst = events.filterMap usageOf := by
  induction events generalizing current with
  | nil => rfl
  | cons event events ih =>
    cases event with
    | use var usage => rw [recordedUses, List.map_cons, ih, usages_use]
    | definition var definition => rw [recordedUses, ih, usages_definition]

theorem mem_recordedUses (current : Bindings V D) (done rest : List (Event V D U)) (var : V)
    (usage : U) :
    (usage, done.foldl (lastStep var) (bound current var)) ∈
      recordedUses current (done ++ .use var usage :: rest) := by
  rw [← bound_eventBindings]
  induction done generalizing current with
  | nil => exact List.mem_cons_self
  | cons event done ih =>
    cases event with
    | use v u => exact List.mem_cons_of_mem _ (ih current)
    | definition v d => exact ih _

/-! ## Changes -/

theorem restore_insert (state : Rename V D U × Changes V D) (var : V) (version : Version V D) :
    restore (Rename.insert state var version).1.current (Rename.insert state var version).2 =
      restore state.1.current state.2 := by
  unfold restore Rename.insert
  simp only [List.reverse_append, List.reverse_singleton, List.singleton_append, List.foldl_cons]
  rw [Function.update_idem, Function.update_eq_self]

/-! ## Events -/

variable [DecidableEq U]

theorem renameEvent_foldlM (block : Nat) (events : List (Event V D U))
    (state : Rename V D U × Changes V D)
    (hfresh : (state.1.uses.map Prod.fst ++ events.filterMap usageOf).Nodup) :
    ∃ changes, events.foldlM (renameEvent block) state =
        .ok (⟨eventBindings events state.1.current,
          state.1.uses ++ recordedUses state.1.current events, state.1.phis⟩, changes) ∧
      restore (eventBindings events state.1.current) changes =
        restore state.1.current state.2 := by
  induction events generalizing state with
  | nil => exact ⟨state.2, by simp [recordedUses, eventBindings, pure, Except.pure], rfl⟩
  | cons event events ih =>
    rw [List.foldlM_cons]
    cases event with
    | use var usage =>
      have hnew : usage ∉ state.1.uses.map Prod.fst := by
        rw [usages_use] at hfresh
        grind
      obtain ⟨changes, heq, hrestore⟩ := ih ({ state.1 with
        uses := state.1.uses ++ [(usage, bound state.1.current var)] }, state.2) (by
          rw [usages_use] at hfresh
          simpa using hfresh)
      refine ⟨changes, ?_, hrestore⟩
      rw [renameEvent, if_neg hnew]
      refine Eq.trans heq ?_
      simp [recordedUses, eventBindings, eventBinding]
    | definition var definition =>
      have hnext := ih (Rename.insert state var (.definition var definition)) hfresh
      rw [restore_insert] at hnext
      exact hnext

end Bindings

/-! ## Phis -/

section Shape
variable {V D : Type}

/-- A phi with the given inputs. -/
def phiWith (b : Nat) (x : V) (inputs : List (Nat × Version V D)) : Phi V D :=
  ⟨x, b, .phi x b, inputs⟩

/-- The phis of the placed pairs, with their inputs so far. -/
structure Shaped (pairs : List (Nat × V)) (inputs : Nat → V → List (Nat × Version V D))
    (phis : List (Phi V D)) : Prop where
  length : phis.length = pairs.length
  phi : ∀ (i b : Nat) (x : V), pairs[i]? = some (b, x) → phis[i]? = some (phiWith b x (inputs b x))

theorem mem_row_indexPhis {blocks block i : Nat} {pairs : List (Nat × V)}
    (hblock : block < blocks) :
    i ∈ row (indexPhis blocks pairs) block ↔ ∃ x, pairs[i]? = some (block, x) := by
  unfold row indexPhis
  rw [List.getElem?_map, List.getElem?_range hblock]
  simp only [Option.map_some, Option.getD_some, List.mem_map, List.mem_filter, Prod.exists,
    decide_eq_true_eq, List.mk_mem_zipIdx_iff_getElem?]
  constructor
  · rintro ⟨b, x, j, ⟨hmem, rfl⟩, rfl⟩
    exact ⟨x, hmem⟩
  · rintro ⟨x, hmem⟩
    exact ⟨block, x, i, ⟨hmem, rfl⟩, rfl⟩

theorem nodup_row_indexPhis (blocks block : Nat) (pairs : List (Nat × V)) :
    (row (indexPhis blocks pairs) block).Nodup := by
  unfold row indexPhis
  rw [List.getElem?_map]
  cases (List.range blocks)[block]? with
  | none => exact List.nodup_nil
  | some b =>
    have hsub : ((pairs.zipIdx.filter (·.1.1 = b)).map (·.2)).Sublist
        (pairs.zipIdx.map Prod.snd) := List.filter_sublist.map _
    refine hsub.nodup ?_
    rw [List.zipIdx_map_snd]
    exact List.nodup_range'

theorem Shaped.congr {pairs : List (Nat × V)} {inputs inputs' : Nat → V → List (Nat × Version V D)}
    {phis : List (Phi V D)} (h : Shaped pairs inputs phis)
    (heq : ∀ b x, (b, x) ∈ pairs → inputs' b x = inputs b x) : Shaped pairs inputs' phis := by
  refine ⟨h.length, fun i b x hi => ?_⟩
  rw [h.phi i b x hi, heq b x (List.mem_of_getElem? hi)]

end Shape

section Phis
variable {V D U : Type} [LinearOrder V]

theorem renamePhi_foldl {pairs : List (Nat × V)} {inputs : Nat → V → List (Nat × Version V D)}
    (block : Nat) (indices : List Nat)
    (hindices : ∀ i ∈ indices, ∃ x, pairs[i]? = some (block, x))
    (state : Rename V D U × Changes V D) (hshaped : Shaped pairs inputs state.1.phis) :
    ∃ changes, indices.foldl renamePhi state =
        (⟨fun x => if ∃ i ∈ indices, pairs[i]? = some (block, x) then some (.phi x block)
          else state.1.current x, state.1.uses, state.1.phis⟩, changes) ∧
      restore (indices.foldl renamePhi state).1.current changes =
        restore state.1.current state.2 := by
  induction indices generalizing state with
  | nil => exact ⟨state.2, by simp, rfl⟩
  | cons i indices ih =>
    obtain ⟨x, hx⟩ := hindices i List.mem_cons_self
    have hstep : renamePhi state i = Rename.insert state x (.phi x block) := by
      rw [renamePhi, hshaped.phi i block x hx]
      rfl
    obtain ⟨changes, heq, hrestore⟩ := ih (fun j hj => hindices j (List.mem_cons_of_mem _ hj))
      (Rename.insert state x (.phi x block)) hshaped
    rw [List.foldl_cons, hstep]
    refine ⟨changes, ?_, hrestore.trans (restore_insert ..)⟩
    rw [heq]
    congr 2
    funext y
    have hexists : (∃ j ∈ i :: indices, pairs[j]? = some (block, y)) ↔
        y = x ∨ ∃ j ∈ indices, pairs[j]? = some (block, y) := by
      simp only [List.mem_cons, exists_eq_or_imp, hx, Option.some.injEq, Prod.mk.injEq, true_and]
      tauto
    simp only [hexists, Rename.insert, Function.update_apply]
    by_cases hy : y = x
    · subst hy
      simp
    · simp [hy]

theorem renamePhi_row {pairs : List (Nat × V)} {inputs : Nat → V → List (Nat × Version V D)}
    (blocks : Nat) {block : Nat} (hblock : block < blocks) (state : Rename V D U)
    (hshaped : Shaped pairs inputs state.phis) :
    ∃ changes, (row (indexPhis blocks pairs) block).foldl renamePhi (state, []) =
        (⟨phiBindings pairs block state.current, state.uses, state.phis⟩, changes) ∧
      restore (phiBindings pairs block state.current) changes = state.current := by
  obtain ⟨changes, heq, hrestore⟩ := renamePhi_foldl block
    (row (indexPhis blocks pairs) block) (fun i hi => (mem_row_indexPhis hblock).mp hi)
    (state, []) hshaped
  have hbind : (fun x => if ∃ i ∈ row (indexPhis blocks pairs) block,
      pairs[i]? = some (block, x) then some (.phi x block) else state.current x) =
      phiBindings pairs block state.current := by
    funext x
    unfold phiBindings
    congr 1
    rw [List.mem_iff_getElem?]
    simp only [eq_iff_iff]
    constructor
    · rintro ⟨i, -, hi⟩
      exact ⟨i, hi⟩
    · rintro ⟨i, hi⟩
      exact ⟨i, (mem_row_indexPhis hblock).mpr ⟨x, hi⟩, hi⟩
  rw [heq] at hrestore
  dsimp only at heq hrestore
  rw [hbind] at heq hrestore
  exact ⟨changes, heq, hrestore⟩

/-- One input is added to the phi of a pair. -/
theorem Shaped.push {pairs : List (Nat × V)} {inputs : Nat → V → List (Nat × Version V D)}
    (hnodup : pairs.Nodup) (block : Nat) {successor i : Nat} {x : V} {state : Rename V D U}
    (h : Shaped pairs inputs state.phis) (hi : pairs[i]? = some (successor, x)) :
    (pushInput block state i).current = state.current ∧
      (pushInput block state i).uses = state.uses ∧
      Shaped pairs (fun b y => if b = successor ∧ y = x then
        inputs b y ++ [(block, bound state.current y)] else inputs b y)
        (pushInput block state i).phis := by
  have hphi := h.phi i successor x hi
  have hlt := (List.getElem?_eq_some_iff.mp hphi).1
  have hpush : pushInput block state i = ⟨state.current, state.uses, state.phis.set i
      (phiWith successor x (inputs successor x ++ [(block, bound state.current x)]))⟩ := by
    rw [pushInput, hphi]
    rfl
  rw [hpush]
  refine ⟨rfl, rfl, by simp [h.length], fun j b y hj => ?_⟩
  dsimp only
  by_cases hij : i = j
  · subst hij
    rw [hi] at hj
    cases hj
    rw [List.getElem?_set_self hlt]
    simp
  · rw [List.getElem?_set_ne hij, h.phi j b y hj, if_neg]
    rintro ⟨rfl, rfl⟩
    obtain ⟨hj', hjeq⟩ := List.getElem?_eq_some_iff.mp hj
    obtain ⟨hi', hieq⟩ := List.getElem?_eq_some_iff.mp hi
    exact hij ((hnodup.getElem_inj_iff).mp (hieq.trans hjeq.symm))

theorem Shaped.push_foldl {pairs : List (Nat × V)} (hnodup : pairs.Nodup)
    (block : Nat) {successor : Nat} (indices : List Nat) (hdistinct : indices.Nodup)
    (hindices : ∀ i ∈ indices, ∃ x, pairs[i]? = some (successor, x))
    {inputs : Nat → V → List (Nat × Version V D)} {state : Rename V D U}
    (h : Shaped pairs inputs state.phis) :
    (indices.foldl (pushInput block) state).current = state.current ∧
      (indices.foldl (pushInput block) state).uses = state.uses ∧
      Shaped pairs (fun b y => if b = successor ∧ ∃ i ∈ indices, pairs[i]? = some (successor, y) then
        inputs b y ++ [(block, bound state.current y)] else inputs b y)
        (indices.foldl (pushInput block) state).phis := by
  induction indices generalizing inputs state with
  | nil => exact ⟨rfl, rfl, h.congr (by simp)⟩
  | cons i indices ih =>
    obtain ⟨x, hx⟩ := hindices i List.mem_cons_self
    obtain ⟨hcurrent, huses, hshaped⟩ := h.push hnodup block hx
    obtain ⟨hcurrent', huses', hshaped'⟩ := ih hdistinct.of_cons
      (fun j hj => hindices j (List.mem_cons_of_mem _ hj)) hshaped
    rw [List.foldl_cons]
    refine ⟨hcurrent'.trans hcurrent, huses'.trans huses, hshaped'.congr fun b y _ => ?_⟩
    -- the index just handled does not come again
    have hother : y = x → ¬ ∃ j ∈ indices, pairs[j]? = some (successor, y) := by
      rintro rfl ⟨j, hj, hjx⟩
      obtain ⟨hj', hjeq⟩ := List.getElem?_eq_some_iff.mp hjx
      obtain ⟨hi', hieq⟩ := List.getElem?_eq_some_iff.mp hx
      have hij : j = i := (hnodup.getElem_inj_iff).mp (hjeq.trans hieq.symm)
      exact (List.nodup_cons.mp hdistinct).1 (hij ▸ hj)
    have hexists : (∃ j ∈ i :: indices, pairs[j]? = some (successor, y)) ↔
        y = x ∨ ∃ j ∈ indices, pairs[j]? = some (successor, y) := by
      simp only [List.mem_cons, exists_eq_or_imp, hx, Option.some.injEq, Prod.mk.injEq, true_and]
      tauto
    rw [hcurrent]
    simp only [hexists]
    by_cases hb : b = successor
    · by_cases hy : y = x
      · have hnone := hother hy
        rw [hy] at hnone
        simp [hb, hy, hnone]
      · simp [hb, hy]
    · simp [hb]

/-- A block hands its bindings to the phis of all its successors. -/
theorem Shaped.push_row {pairs : List (Nat × V)} (hnodup : pairs.Nodup) {blocks : Nat}
    (block : Nat) (successors : List Nat) (hdistinct : successors.Nodup)
    (hlt : ∀ s ∈ successors, s < blocks)
    {inputs : Nat → V → List (Nat × Version V D)} (state : Rename V D U)
    (h : Shaped pairs inputs state.phis) :
    ∃ phis, successors.foldl (pushInputs (indexPhis blocks pairs) block) state =
        { state with phis } ∧
      Shaped pairs (fun b y => if b ∈ successors then
        inputs b y ++ [(block, bound state.current y)] else inputs b y) phis := by
  induction successors generalizing inputs state with
  | nil => exact ⟨state.phis, rfl, h.congr (by simp)⟩
  | cons s successors ih =>
    have hs := hlt s List.mem_cons_self
    obtain ⟨hcurrent, huses, hshaped⟩ := h.push_foldl hnodup block
      (row (indexPhis blocks pairs) s) (nodup_row_indexPhis ..)
      (fun i hi => (mem_row_indexPhis hs).mp hi)
    obtain ⟨phis, heq, hshaped'⟩ := ih hdistinct.of_cons
      (fun s' hs' => hlt s' (List.mem_cons_of_mem _ hs')) _ hshaped
    rw [List.foldl_cons]
    refine ⟨phis, ?_, hshaped'.congr fun b y hby => ?_⟩
    · rw [pushInputs, heq, hcurrent, huses]
    · have hplaced : b = s → ∃ i ∈ row (indexPhis blocks pairs) s, pairs[i]? = some (s, y) := by
        rintro rfl
        obtain ⟨i, hi⟩ := List.mem_iff_getElem?.mp hby
        exact ⟨i, (mem_row_indexPhis hs).mpr ⟨y, hi⟩, hi⟩
      have hnew : b = s → b ∉ successors := by
        rintro rfl
        exact (List.nodup_cons.mp hdistinct).1
      rw [hcurrent]
      by_cases hb : b = s
      · have hnone := hnew hb
        rw [hb] at hnone
        simp [hb, hnone, hplaced hb]
      · simp [hb]

end Phis

/-! ## The walk -/

section Stack
variable {V D U : Type}

/-- The blocks that are still to be entered, and the number of those to be left. -/
def pendingBlocks : List (Action V D) → List Nat
  | [] => []
  | .enter block :: actions => block :: pendingBlocks actions
  | .exit _ :: actions => pendingBlocks actions

def pendingExits : List (Action V D) → Nat
  | [] => 0
  | .enter _ :: actions => pendingExits actions
  | .exit _ :: actions => pendingExits actions + 1

theorem pendingBlocks_children (children : List Nat) (changes : Changes V D)
    (actions : List (Action V D)) :
    pendingBlocks (children.map .enter ++ .exit changes :: actions) =
      children ++ pendingBlocks actions := by
  induction children with
  | nil => rfl
  | cons child children ih => rw [List.map_cons, List.cons_append, pendingBlocks, ih]; rfl

theorem pendingExits_children (children : List Nat) (changes : Changes V D)
    (actions : List (Action V D)) :
    pendingExits (children.map .enter ++ .exit changes :: actions) = pendingExits actions + 1 := by
  induction children with
  | nil => rfl
  | cons child children ih => rw [List.map_cons, List.cons_append, pendingExits, ih]

/-- What a block starts from: nothing at the root, else what its parent ends with. -/
def StartsFrom (children : Nat → List Nat) (root : Nat) (entered : List Nat)
    (out : Nat → Bindings V D) (block : Nat) (current : Bindings V D) : Prop :=
  (block = root ∧ current = fun _ => none) ∨
    ∃ d ∈ entered, block ∈ children d ∧ current = out d

theorem StartsFrom.mono {children : Nat → List Nat} {root : Nat} {entered entered' : List Nat}
    {out out' : Nat → Bindings V D} (hsub : ∀ d ∈ entered, d ∈ entered')
    (hout : ∀ d ∈ entered, out' d = out d) {block : Nat} {current : Bindings V D}
    (h : StartsFrom children root entered out block current) :
    StartsFrom children root entered' out' block current := by
  rcases h with h | ⟨d, hd, hmem, rfl⟩
  · exact .inl h
  · exact .inr ⟨d, hsub d hd, hmem, (hout d hd).symm⟩

/-- The identities of the uses in some blocks are distinct. -/
theorem distinct_usages {events : List (List (Event V D U))}
    (hids : DistinctIds events) {blocks : List Nat} (hnodup : blocks.Nodup) :
    (blocks.flatMap fun b => (blockEvents events b).filterMap usageOf).Nodup := by
  have hflat : ((events.map (List.filterMap usageOf)).flatten).Nodup := by
    rw [← List.filterMap_flatten]
    exact hids.uses
  obtain ⟨hrows, hdisjoint⟩ := List.nodup_flatten.mp hflat
  rw [List.pairwise_iff_getElem] at hdisjoint
  have hget : ∀ b u, u ∈ (blockEvents events b).filterMap usageOf →
      ∃ hb : b < (events.map (List.filterMap usageOf)).length,
        u ∈ (events.map (List.filterMap usageOf))[b] := by
    intro b u hu
    by_cases hb : b < events.length
    · refine ⟨by simpa using hb, ?_⟩
      simpa [blockEvents, hb] using hu
    · rw [blockEvents_of_le (by omega)] at hu
      simp at hu
  rw [List.nodup_flatMap]
  refine ⟨fun b _ => ?_, hnodup.imp fun {a b} hne u ha hb => ?_⟩
  · by_cases hb : b < events.length
    · refine hrows _ (List.mem_map.mpr ⟨events[b], List.getElem_mem hb, ?_⟩)
      simp [blockEvents, hb]
    · rw [blockEvents_of_le (by omega)]
      exact List.nodup_nil
  · obtain ⟨ha', hua⟩ := hget a u ha
    obtain ⟨hb', hub⟩ := hget b u hb
    rcases Nat.lt_or_gt_of_ne hne with hlt | hlt
    · exact hdisjoint a b ha' hb' hlt hua hub
    · exact hdisjoint b a hb' ha' hlt hub hua

end Stack

section Walk
variable {V D U : Type} [LinearOrder V]

/-- Each block to be entered will find the bindings it starts from. -/
def Stacked (children : Nat → List Nat) (root : Nat) (entered : List Nat)
    (out : Nat → Bindings V D) : List (Action V D) → Bindings V D → Prop
  | [], _ => True
  | .enter block :: actions, current =>
    StartsFrom children root entered out block current ∧
      Stacked children root entered out actions current
  | .exit changes :: actions, current =>
    Stacked children root entered out actions (restore current changes)

theorem Stacked.mono {children : Nat → List Nat} {root : Nat} {entered entered' : List Nat}
    {out out' : Nat → Bindings V D} (hsub : ∀ d ∈ entered, d ∈ entered')
    (hout : ∀ d ∈ entered, out' d = out d) {actions : List (Action V D)}
    {current : Bindings V D} (h : Stacked children root entered out actions current) :
    Stacked children root entered' out' actions current := by
  induction actions generalizing current with
  | nil => trivial
  | cons action actions ih =>
    cases action with
    | enter block => exact ⟨h.1.mono hsub hout, ih h.2⟩
    | exit changes => exact ih h

theorem stacked_children {children : Nat → List Nat} {root : Nat} {entered blocks : List Nat}
    {out : Nat → Bindings V D} {actions : List (Action V D)} {current : Bindings V D}
    (hblocks : ∀ c ∈ blocks, StartsFrom children root entered out c current)
    (h : Stacked children root entered out actions current) :
    Stacked children root entered out (blocks.map .enter ++ actions) current := by
  induction blocks with
  | nil => exact h
  | cons c blocks ih =>
    exact ⟨hblocks c List.mem_cons_self, ih fun c' hc' => hblocks c' (List.mem_cons_of_mem _ hc')⟩

variable {successors : List (List Nat)} {root : Nat} {cfg : SsaCfg} {pairs : List (Nat × V)}
  {events : List (List (Event V D U))}

/-- The inputs of a phi from the blocks entered so far. -/
def inputsFrom (successors : List (List Nat)) (entered : List Nat) (out : Nat → Bindings V D)
    (b : Nat) (x : V) : List (Nat × Version V D) :=
  (entered.filter fun p => b ∈ succ successors p).map fun p => (p, bound (out p) x)

structure Renaming (cfg : SsaCfg) (pairs : List (Nat × V)) (events : List (List (Event V D U)))
    (entered : List Nat) (inn out : Nat → Bindings V D) (actions : List (Action V D))
    (state : Rename V D U) : Prop where
  entering : Entering (succ cfg.dominatorChildren) cfg.root entered (pendingBlocks actions)
  stacked : Stacked (succ cfg.dominatorChildren) cfg.root entered out actions state.current
  starts : ∀ b ∈ entered, ∃ current, inn b = phiBindings pairs b current ∧
    StartsFrom (succ cfg.dominatorChildren) cfg.root entered out b current
  ends : ∀ b ∈ entered, out b = eventBindings (blockEvents events b) (inn b)
  uses : state.uses = entered.flatMap fun b => recordedUses (inn b) (blockEvents events b)
  phis : Shaped pairs (inputsFrom cfg.successors entered out) state.phis

theorem Renaming.exit {entered : List Nat} {inn out : Nat → Bindings V D} {changes : Changes V D}
    {actions : List (Action V D)} {state : Rename V D U}
    (h : Renaming cfg pairs events entered inn out (.exit changes :: actions) state) :
    Renaming cfg pairs events entered inn out actions
      { state with current := restore state.current changes } :=
  { h with }

variable [DecidableEq U]

theorem renameBlock_spec (hnodup : pairs.Nodup) {blocks b : Nat} (hb : b < blocks)
    (hdistinct : (row cfg.successors b).Nodup) (hlt : ∀ s ∈ row cfg.successors b, s < blocks)
    {inputs : Nat → V → List (Nat × Version V D)} {state : Rename V D U}
    (hshaped : Shaped pairs inputs state.phis)
    (hfresh : (state.uses.map Prod.fst ++ (blockEvents events b).filterMap usageOf).Nodup)
    {inn out : Bindings V D} (hinn : inn = phiBindings pairs b state.current)
    (hout : out = eventBindings (blockEvents events b) inn) :
    ∃ phis changes, renameBlock cfg events (indexPhis blocks pairs) b state =
        .ok (⟨out, state.uses ++ recordedUses inn (blockEvents events b), phis⟩, changes) ∧
      restore out changes = state.current ∧
      Shaped pairs (fun c y => if c ∈ row cfg.successors b then
        inputs c y ++ [(b, bound out y)] else inputs c y) phis := by
  obtain ⟨entry, hentry, hrestore⟩ := renamePhi_row blocks hb state hshaped
  rw [← hinn] at hentry hrestore
  obtain ⟨changes, hevents, hrestore'⟩ := renameEvent_foldlM b (blockEvents events b)
    (⟨inn, state.uses, state.phis⟩, entry) hfresh
  rw [← hout] at hevents hrestore'
  obtain ⟨phis, hpush, hshaped'⟩ := Shaped.push_row hnodup b (row cfg.successors b)
    hdistinct hlt ⟨out, state.uses ++ recordedUses inn (blockEvents events b), state.phis⟩ hshaped
  refine ⟨phis, changes, ?_, hrestore'.trans hrestore, hshaped'⟩
  unfold renameBlock
  rw [hentry]
  simp only [bind, Except.bind]
  rw [show events[b]?.getD [] = blockEvents events b from rfl, hevents]
  dsimp only
  rw [hpush]
  rfl

theorem Renaming.enter {size : Nat} (t : IsTree (succ cfg.dominatorChildren) cfg.root size)
    (hnodup : pairs.Nodup) (hids : DistinctIds events)
    (hdistinct : ∀ b, (succ cfg.successors b).Nodup)
    (hlt : ∀ b, ∀ s ∈ succ cfg.successors b, s < size)
    {entered : List Nat} {inn out : Nat → Bindings V D} {b : Nat} {actions : List (Action V D)}
    {state : Rename V D U}
    (h : Renaming cfg pairs events entered inn out (.enter b :: actions) state) :
    ∃ inn' out' state' changes,
      renameBlock cfg events (indexPhis size pairs) b state = .ok (state', changes) ∧
      Renaming cfg pairs events (entered ++ [b]) inn' out'
        ((row cfg.dominatorChildren b).map .enter ++ .exit changes :: actions) state' := by
  have hpending : Entering (succ cfg.dominatorChildren) cfg.root entered
      (b :: pendingBlocks actions) := h.entering
  have hb : b < size := hpending.lt t (by simp)
  have hnew : b ∉ entered := by
    have := hpending.nodup
    grind
  have hne : ∀ d ∈ entered, d ≠ b := fun d hd heq => hnew (heq ▸ hd)
  have hfresh : (state.uses.map Prod.fst ++ (blockEvents events b).filterMap usageOf).Nodup := by
    have hall : (entered ++ [b]).Nodup := by
      have := hpending.nodup
      grind
    have hkeys : state.uses.map Prod.fst =
        entered.flatMap fun c => (blockEvents events c).filterMap usageOf := by
      rw [h.uses, List.map_flatMap]
      simp only [recordedUses_fst]
    rw [hkeys]
    simpa using distinct_usages hids hall
  set inn' := Function.update inn b (phiBindings pairs b state.current) with hinn'
  set out' := Function.update out b (eventBindings (blockEvents events b) (inn' b)) with hout'
  have hinn_b : inn' b = phiBindings pairs b state.current := by rw [hinn', Function.update_self]
  have hout_b : out' b = eventBindings (blockEvents events b) (inn' b) := by
    rw [hout', Function.update_self]
  have hinn_old : ∀ d ∈ entered, inn' d = inn d := fun d hd => by
    rw [hinn', Function.update_of_ne (hne d hd)]
  have hout_old : ∀ d ∈ entered, out' d = out d := fun d hd => by
    rw [hout', Function.update_of_ne (hne d hd)]
  obtain ⟨phis, changes, heq, hrestore, hshaped⟩ := renameBlock_spec hnodup hb (hdistinct b) (hlt b)
    h.phis hfresh hinn_b hout_b
  have hsub : ∀ d ∈ entered, d ∈ entered ++ [b] := fun d hd => List.mem_append_left _ hd
  refine ⟨inn', out', _, changes, heq, ?_, ?_, fun c hc => ?_, fun c hc => ?_, ?_, ?_⟩
  · rw [pendingBlocks_children]
    exact hpending.enter t
  · refine stacked_children (fun c hc => .inr ⟨b, by simp, hc, rfl⟩) ?_
    show Stacked _ _ _ _ actions (restore (out' b) changes)
    rw [hrestore]
    exact h.stacked.2.mono hsub hout_old
  · rcases List.mem_append.mp hc with hc | hc
    · obtain ⟨current, hcurrent, hstart⟩ := h.starts c hc
      exact ⟨current, (hinn_old c hc).trans hcurrent, hstart.mono hsub hout_old⟩
    · obtain rfl := List.mem_singleton.mp hc
      exact ⟨state.current, hinn_b, h.stacked.1.mono hsub hout_old⟩
  · rcases List.mem_append.mp hc with hc | hc
    · rw [hinn_old c hc, hout_old c hc]
      exact h.ends c hc
    · obtain rfl := List.mem_singleton.mp hc
      exact hout_b
  · have hold : entered.flatMap (fun c => recordedUses (inn' c) (blockEvents events c)) =
        state.uses := by
      rw [h.uses]
      exact List.flatMap_congr fun c hc => by rw [hinn_old c hc]
    simp [hold]
  · refine hshaped.congr fun c y _ => ?_
    have hold : inputsFrom cfg.successors entered out' c y =
        inputsFrom cfg.successors entered out c y := by
      unfold inputsFrom
      refine List.map_congr_left fun p hp => ?_
      rw [hout_old p (List.mem_of_mem_filter hp)]
    unfold inputsFrom at hold ⊢
    rw [List.filter_append, List.map_append, hold, row, ← succ]
    by_cases hc : c ∈ succ cfg.successors b
    · rw [if_pos hc]
      simp [hc]
    · rw [if_neg hc]
      simp [hc]

theorem Renaming.loop {size : Nat} (t : IsTree (succ cfg.dominatorChildren) cfg.root size)
    (hnodup : pairs.Nodup) (hids : DistinctIds events)
    (hdistinct : ∀ b, (succ cfg.successors b).Nodup)
    (hlt : ∀ b, ∀ s ∈ succ cfg.successors b, s < size) (fuel : Nat)
    {entered : List Nat} {inn out : Nat → Bindings V D} {actions : List (Action V D)}
    {state : Rename V D U} (h : Renaming cfg pairs events entered inn out actions state)
    (hfuel : 2 * size + pendingExits actions ≤ fuel + 2 * entered.length) :
    ∃ entered' inn' out' state',
      renameLoop cfg events (indexPhis size pairs) fuel actions state = .ok state' ∧
      Renaming cfg pairs events entered' inn' out' [] state' := by
  induction fuel generalizing entered inn out actions state with
  | zero =>
    have hlength := h.entering.length_le t
    match actions with
    | [] => exact ⟨entered, inn, out, state, rfl, h⟩
    | .exit changes :: actions => rw [pendingExits] at hfuel; omega
    | .enter b :: actions => rw [pendingBlocks, List.length_cons] at hlength; omega
  | succ fuel ih =>
    match actions with
    | [] => exact ⟨entered, inn, out, state, rfl, h⟩
    | .exit changes :: actions =>
      rw [pendingExits] at hfuel
      exact ih h.exit (by omega)
    | .enter b :: actions =>
      obtain ⟨inn', out', state', changes, heq, hnext⟩ := h.enter t hnodup hids hdistinct hlt
      rw [pendingExits] at hfuel
      rw [renameLoop, heq]
      refine ih hnext ?_
      rw [pendingExits_children, List.length_append, List.length_singleton]
      omega

end Walk
end Celox.Ssa
