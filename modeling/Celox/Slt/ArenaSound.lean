import Celox.Slt.NodeArena

/-! # What holds of every arena

Every arena that the program can have comes from an empty or a stored one by appends and by edits
of events. -/
namespace Celox.Slt
open Celox.Analysis (checkedAdd)

/-! ## The cache -/

section Cache
variable {A : Type}

/-- The cache has the least id of each stored node and nothing else. -/
def CacheExact (nodes : List (SLTNode A)) (cache : SLTNode A → Option NodeId) : Prop :=
  ∀ (node : SLTNode A) (id : Nat),
    cache node = some id ↔ nodes[id]? = some node ∧ ∀ j < id, nodes[j]? ≠ some node

theorem CacheExact.unique {nodes : List (SLTNode A)} {cache cache' : SLTNode A → Option NodeId}
    (h : CacheExact nodes cache) (h' : CacheExact nodes cache') : cache = cache' := by
  funext node
  exact Option.ext fun id => (h node id).trans (h' node id).symm

theorem CacheExact.none_iff {nodes : List (SLTNode A)} {cache : SLTNode A → Option NodeId}
    (h : CacheExact nodes cache) {node : SLTNode A} : cache node = none ↔ node ∉ nodes := by
  constructor
  · intro hnone hmem
    have hex : ∃ id, nodes[id]? = some node := List.mem_iff_getElem?.mp hmem
    classical
    have hsome := (h node (Nat.find hex)).mpr ⟨Nat.find_spec hex, fun j hj => Nat.find_min hex hj⟩
    rw [hnone] at hsome
    cases hsome
  · intro hmem
    cases hc : cache node with
    | none => rfl
    | some id => exact absurd (List.mem_of_getElem? ((h node id).mp hc).1) hmem

theorem cacheExact_nil : CacheExact ([] : List (SLTNode A)) fun _ => none := by
  intro node id
  simp

/-- An old node once more at the end. -/
theorem CacheExact.append_old {nodes : List (SLTNode A)} {cache : SLTNode A → Option NodeId}
    (h : CacheExact nodes cache) {node : SLTNode A} (hold : node ∈ nodes) :
    CacheExact (nodes ++ [node]) cache := by
  intro other id
  rw [h other id]
  obtain ⟨first, hfirst⟩ := List.mem_iff_getElem?.mp hold
  have hlt := (List.getElem?_eq_some_iff.mp hfirst).1
  constructor
  · rintro ⟨hat, hleast⟩
    have hid := (List.getElem?_eq_some_iff.mp hat).1
    refine ⟨by rw [List.getElem?_append_left hid, hat], fun j hj => ?_⟩
    rw [List.getElem?_append_left (by omega)]
    exact hleast j hj
  · rintro ⟨hat, hleast⟩
    have hid : id < nodes.length := by
      by_contra hge
      have hother : other = node := by
        rw [List.getElem?_append_right (by omega), List.getElem?_singleton] at hat
        split at hat
        · exact (Option.some.inj hat).symm
        · cases hat
      refine hleast first (by omega) ?_
      rw [List.getElem?_append_left hlt, hother, hfirst]
    rw [List.getElem?_append_left hid] at hat
    refine ⟨hat, fun j hj => ?_⟩
    have hj' := hleast j hj
    rwa [List.getElem?_append_left (by omega)] at hj'

variable [DecidableEq A]

/-- A new node at the end. -/
theorem CacheExact.append {nodes : List (SLTNode A)} {cache : SLTNode A → Option NodeId}
    (h : CacheExact nodes cache) {node : SLTNode A} (hnew : node ∉ nodes) :
    CacheExact (nodes ++ [node]) (Function.update cache node (some nodes.length)) := by
  intro other id
  by_cases hother : other = node
  · subst hother
    rw [Function.update_self, Option.some.injEq]
    have hbefore : ∀ j < nodes.length, (nodes ++ [other])[j]? ≠ some other := by
      intro j hj hat
      rw [List.getElem?_append_left hj] at hat
      exact hnew (List.mem_of_getElem? hat)
    constructor
    · rintro rfl
      exact ⟨by simp, hbefore⟩
    · rintro ⟨hat, -⟩
      rcases Nat.lt_trichotomy id nodes.length with hlt | heq | hgt
      · exact absurd hat (hbefore id hlt)
      · exact heq.symm
      · rw [List.getElem?_eq_none (by simp; omega)] at hat
        cases hat
  · rw [Function.update_of_ne hother, h other id]
    have hsame : ∀ j : Nat, (nodes ++ [node])[j]? = some other ↔ nodes[j]? = some other := by
      intro j
      rw [List.getElem?_append]
      split
      · rfl
      · rename_i hj
        rw [List.getElem?_eq_none (Nat.not_lt.mp hj), List.getElem?_singleton]
        split
        · simp [Ne.symm hother]
        · rfl
    simp only [hsame, ne_eq]

theorem rebuildCache_append (nodes : List (SLTNode A)) (node : SLTNode A) :
    rebuildCache (nodes ++ [node]) = orInsert (rebuildCache nodes) (node, nodes.length) := by
  simp [rebuildCache, List.zipIdx_append]

theorem rebuildCache_exact (nodes : List (SLTNode A)) : CacheExact nodes (rebuildCache nodes) := by
  induction nodes using List.reverseRecOn with
  | nil => exact cacheExact_nil
  | append_singleton nodes node ih =>
    rw [rebuildCache_append, orInsert]
    cases hc : rebuildCache nodes node with
    | some id => exact ih.append_old (List.mem_of_getElem? ((ih node id).mp hc).1)
    | none => exact ih.append (ih.none_iff.mp hc)

end Cache

/-! ## Edits -/

section Edits
variable {A : Type}

def SLTForEffect.eraseSite : SLTForEffect → SLTForEffect
  | .event _ guard emitOnTrue args _ => .event 0 guard emitOnTrue args none
  | .runner node => .runner node

/-- The node without the identities of its events. -/
def SLTNode.eraseSites (node : SLTNode A) : SLTNode A :=
  node.withEffects (node.effects.map SLTForEffect.eraseSite)

theorem SLTForEffect.children_eraseSite (effect : SLTForEffect) :
    effect.eraseSite.children = effect.children := by
  cases effect <;> rfl

namespace SLTNode

theorem children_eraseSites (node : SLTNode A) : node.eraseSites.children = node.children := by
  cases node <;>
    simp [eraseSites, withEffects, effects, children, List.flatMap_map,
      SLTForEffect.children_eraseSite]

theorem effects_eraseSites (node : SLTNode A) :
    node.eraseSites.effects = node.effects.map SLTForEffect.eraseSite := by
  cases node <;> rfl

theorem verifyAppend_eraseSites (node : SLTNode A) (widths : List Nat) :
    verifyAppend node.eraseSites widths = verifyAppend node widths := by
  cases node with
  | forFold loopVar loopWidth loopSigned start stop inclusive step stepOp reverse result initials
      updates effects continueCond =>
    have hchildren := children_eraseSites (.forFold loopVar loopWidth loopSigned start stop inclusive
      step stepOp reverse result initials updates effects continueCond)
    simp only [eraseSites, withEffects, SLTNode.effects] at hchildren ⊢
    simp only [verifyAppend, hchildren]
  | _ => rfl

/-- The identity of one event is all that changes. -/
theorem eraseSites_set {node : SLTNode A} {index : Nat} {old new : SLTForEffect}
    (hold : node.effects[index]? = some old) (herase : new.eraseSite = old.eraseSite) :
    (node.withEffects (node.effects.set index new)).eraseSites = node.eraseSites := by
  have hset : (node.effects.set index new).map SLTForEffect.eraseSite =
      node.effects.map SLTForEffect.eraseSite := by
    obtain ⟨hlt, rfl⟩ := List.getElem?_eq_some_iff.mp hold
    rw [List.map_set, herase, ← List.getElem_map SLTForEffect.eraseSite (h := by simpa using hlt),
      List.set_getElem_self]
  cases node with
  | forFold =>
    simp only [eraseSites, withEffects, effects] at hset ⊢
    rw [hset]
  | _ => rfl

end SLTNode

theorem effectAt_eraseSites (nodes : List (SLTNode A)) (edit : EffectEdit) :
    effectAt (nodes.map SLTNode.eraseSites) edit =
      (effectAt nodes edit).map SLTForEffect.eraseSite := by
  unfold effectAt
  rw [List.getElem?_map]
  cases nodes[edit.nodeIndex]? with
  | none => rfl
  | some node => simp [SLTNode.effects_eraseSites]

def PointsAtEvent (nodes : List (SLTNode A)) (edit : EffectEdit) : Prop :=
  ∃ siteId guard emitOnTrue args fatalErrorCode,
    effectAt nodes edit = some (.event siteId guard emitOnTrue args fatalErrorCode)

theorem PointsAtEvent.congr {nodes nodes' : List (SLTNode A)} {edit : EffectEdit}
    (herase : nodes'.map SLTNode.eraseSites = nodes.map SLTNode.eraseSites)
    (h : PointsAtEvent nodes edit) : PointsAtEvent nodes' edit := by
  obtain ⟨siteId, guard, emitOnTrue, args, fatalErrorCode, hat⟩ := h
  have hmap := effectAt_eraseSites nodes' edit
  rw [herase, effectAt_eraseSites, hat] at hmap
  cases hat' : effectAt nodes' edit with
  | none => simp [hat'] at hmap
  | some effect =>
    cases effect with
    | event => exact ⟨_, _, _, _, _, hat'⟩
    | runner => simp [hat', SLTForEffect.eraseSite] at hmap

theorem map_modify_eq {X Y : Type} (g : X → Y) (f : X → X) (l : List X) (index : Nat)
    (h : ∀ x, l[index]? = some x → g (f x) = g x) : (l.modify index f).map g = l.map g := by
  refine List.ext_getElem? fun j => ?_
  rw [List.getElem?_map, List.getElem?_map, List.getElem?_modify]
  by_cases hj : index = j
  · subst hj
    cases hat : l[index]? with
    | none => rfl
    | some x => simp [h x hat]
  · simp [hj]

/-- Edits of events succeed and change nothing but their identities. -/
theorem applyEdits_ok {edits : List EffectEdit} {nodes : List (SLTNode A)}
    (h : ∀ edit ∈ edits, PointsAtEvent nodes edit) :
    ∃ edited, applyEdits edits nodes = (edited, .ok ()) ∧
      edited.map SLTNode.eraseSites = nodes.map SLTNode.eraseSites := by
  induction edits generalizing nodes with
  | nil => exact ⟨nodes, rfl, rfl⟩
  | cons edit edits ih =>
    obtain ⟨⟨siteId, guard, emitOnTrue, args, fatalErrorCode, hat⟩, hrest⟩ :=
      List.forall_mem_cons.mp h
    rw [applyEdits, hat]
    have herase := map_modify_eq SLTNode.eraseSites
      (fun node => node.withEffects (node.effects.set edit.effectIndex
        (.event edit.siteId guard emitOnTrue args edit.fatalErrorCode))) nodes edit.nodeIndex
      (fun node hnode => by
        rw [effectAt, hnode] at hat
        exact SLTNode.eraseSites_set hat rfl)
    obtain ⟨edited, happly, hedited⟩ := ih fun other hother => (hrest other hother).congr herase
    exact ⟨edited, happly, hedited.trans herase⟩

end Edits

section Collect
variable {A : Type} {σ : Type} {remap : σ → Nat → Option Int →
  Except SLTNodeArenaEditError (Option (Nat × Option Int) × σ)}

theorem mem_changedEdit {nodeIndex effectIndex siteId : Nat} {fatalErrorCode : Option Int}
    {mapped : Option (Nat × Option Int)} {edit : EffectEdit}
    (h : edit ∈ changedEdit nodeIndex effectIndex siteId fatalErrorCode mapped) :
    edit.nodeIndex = nodeIndex ∧ edit.effectIndex = effectIndex := by
  cases mapped with
  | none => simp [changedEdit] at h
  | some target =>
    obtain ⟨mappedSiteId, mappedFatalErrorCode⟩ := target
    rw [changedEdit] at h
    split at h
    · rw [List.mem_singleton] at h
      subst h
      exact ⟨rfl, rfl⟩
    · cases h

/-- Every collected edit is one of an event. -/
theorem collectEdits_ok {nodes : List (SLTNode A)} {state state' : σ} {edits : List EffectEdit}
    (h : collectEdits remap nodes state = .ok (state', edits)) :
    ∀ edit ∈ edits, PointsAtEvent nodes edit := by
  refine foldlM_invariant (P := fun sofar : σ × List EffectEdit =>
    ∀ edit ∈ sofar.2, PointsAtEvent nodes edit) ?_ (by simp) h
  rintro sofar ⟨node, nodeIndex⟩ sofar' hnode hsofar hcollect
  refine foldlM_invariant (P := fun sofar : σ × List EffectEdit =>
    ∀ edit ∈ sofar.2, PointsAtEvent nodes edit) ?_ hsofar hcollect
  rintro sofar ⟨effect, effectIndex⟩ sofar' heffect hsofar hstep
  cases effect with
  | runner =>
    cases hstep
    exact hsofar
  | event siteId guard emitOnTrue args fatalErrorCode =>
    obtain ⟨⟨mapped, state⟩, _, hstep⟩ := bind_eq_ok.mp hstep
    cases hstep
    intro edit hedit
    rcases List.mem_append.mp hedit with hold | hnew
    · exact hsofar edit hold
    · obtain ⟨hn, he⟩ := mem_changedEdit hnew
      refine ⟨siteId, guard, emitOnTrue, args, fatalErrorCode, ?_⟩
      rw [effectAt, hn, he, List.mk_mem_zipIdx_iff_getElem?.mp hnode]
      exact List.mk_mem_zipIdx_iff_getElem?.mp heffect

end Collect

/-! ## The invariant -/

section Sound
variable {A : Type}

namespace NodeArena

/-- Each cached width is the one that an append derives from the nodes before. -/
structure Sound (arena : NodeArena A) : Prop where
  widths_length : arena.widths.length = arena.nodes.length
  width : ∀ (id : Nat) (node : SLTNode A), arena.nodes[id]? = some node →
    verifyAppend node (arena.widths.take id) = .ok (arena.widths.getD id 0)
  cache : CacheExact arena.nodes arena.cache

variable {arena : NodeArena A}

theorem Sound.child_lt (h : arena.Sound) {id : Nat} {node : SLTNode A}
    (hat : arena.nodes[id]? = some node) {child : NodeId} (hchild : child ∈ node.children) :
    child < id := by
  have hlt := (verifyAppend_ok (h.width id node hat)).1 child hchild
  rw [List.length_take] at hlt
  exact Nat.lt_of_lt_of_le hlt (Nat.min_le_left ..)

theorem new_sound : (new : NodeArena A).Sound where
  widths_length := rfl
  width id node hat := by simp [new] at hat
  cache := cacheExact_nil

variable [DecidableEq A]

theorem alloc_error {node : SLTNode A} {error : SLTNodeFactsError}
    (h : (arena.alloc node).2 = .error error) : (arena.alloc node).1 = arena := by
  unfold alloc at h ⊢
  cases hc : arena.cache node with
  | some id => rfl
  | none =>
    rw [hc] at h
    cases hv : verifyAppend node arena.widths with
    | error e => rfl
    | ok width =>
      rw [hv] at h
      cases h

theorem Sound.alloc (h : arena.Sound) (node : SLTNode A) : (arena.alloc node).1.Sound := by
  unfold NodeArena.alloc
  cases hc : arena.cache node with
  | some id => exact h
  | none =>
    cases hv : verifyAppend node arena.widths with
    | error e => exact h
    | ok width =>
      refine ⟨by simp [h.widths_length], fun id other hat => ?_,
        h.cache.append (h.cache.none_iff.mp hc)⟩
      rcases Nat.lt_or_ge id arena.nodes.length with hlt | hge
      · have hlt' : id < arena.widths.length := h.widths_length ▸ hlt
        rw [List.getElem?_append_left hlt] at hat
        rw [List.take_append_of_le_length hlt'.le, List.getD_eq_getElem?_getD,
          List.getElem?_append_left hlt', ← List.getD_eq_getElem?_getD]
        exact h.width id other hat
      · rw [List.getElem?_append_right hge, List.getElem?_singleton] at hat
        split at hat
        · cases hat
          obtain rfl : id = arena.nodes.length := by omega
          simp [← h.widths_length, hv]
        · cases hat

theorem Sound.of_eraseSites (h : arena.Sound) {nodes : List (SLTNode A)}
    (herase : nodes.map SLTNode.eraseSites = arena.nodes.map SLTNode.eraseSites) :
    Sound ⟨nodes, rebuildCache nodes, arena.widths⟩ := by
  have hlength : nodes.length = arena.nodes.length := by
    simpa using congrArg List.length herase
  refine ⟨h.widths_length.trans hlength.symm, fun id node hat => ?_, rebuildCache_exact nodes⟩
  have hmap := congrArg (fun l => l[id]?) herase
  simp only [List.getElem?_map, hat, Option.map_some] at hmap
  obtain ⟨old, hold, herased⟩ := Option.map_eq_some_iff.mp hmap.symm
  rw [← SLTNode.verifyAppend_eraseSites, ← herased, SLTNode.verifyAppend_eraseSites]
  exact h.width id old hold

variable {σ : Type} {remap : σ → Nat → Option Int →
  Except SLTNodeArenaEditError (Option (Nat × Option Int) × σ)} {start stop : Nat}
  {storage : Nat → Bool} {state : σ}

/-- A remapping fails before its first edit, or it changes identities of events alone. -/
theorem remap_cases (arena : NodeArena A) (start stop : Nat) (storage : Nat → Bool) (state : σ)
    (remap : σ → Nat → Option Int →
      Except SLTNodeArenaEditError (Option (Nat × Option Int) × σ)) :
    (arena.remapForFoldEffectSites remap start stop storage state).1 = arena ∨
      ∃ nodes, nodes.map SLTNode.eraseSites = arena.nodes.map SLTNode.eraseSites ∧
        arena.remapForFoldEffectSites remap start stop storage state =
          (⟨nodes, rebuildCache nodes, arena.widths⟩, .ok ()) := by
  unfold remapForFoldEffectSites
  by_cases hrange : start ≤ stop ∧ stop ≤ arena.nodes.length
  · rw [if_pos hrange]
    dsimp only
    cases effectCount ((arena.nodes.take stop).drop start) with
    | none => exact .inl rfl
    | some count =>
      dsimp only
      by_cases hstorage : storage count = true
      · rw [if_pos hstorage]
        cases hcollect : collectEdits remap ((arena.nodes.take stop).drop start) state with
        | error e => exact .inl rfl
        | ok collected =>
          obtain ⟨state', edits⟩ := collected
          dsimp only
          have hevents := collectEdits_ok hcollect
          by_cases hempty : edits = []
          · rw [if_pos hempty]
            exact .inl rfl
          · obtain ⟨edited, happly, hedited⟩ := applyEdits_ok hevents
            have hpresent : ¬ (edits.any fun edit =>
                (effectAt ((arena.nodes.take stop).drop start) edit).isNone) = true := by
              rw [List.any_eq_true]
              rintro ⟨edit, hedit, hnone⟩
              obtain ⟨_, _, _, _, _, hat⟩ := hevents edit hedit
              simp [hat] at hnone
            rw [if_neg hempty, if_neg hpresent, happly]
            refine .inr ⟨_, ?_, rfl⟩
            have hsplit : arena.nodes =
                arena.nodes.take start ++ (arena.nodes.take stop).drop start ++
                  arena.nodes.drop stop := by
              have htake : (arena.nodes.take stop).take start = arena.nodes.take start := by
                rw [List.take_take, Nat.min_eq_left hrange.1]
              rw [← htake, List.take_append_drop, List.take_append_drop]
            conv_rhs => rw [hsplit]
            rw [List.map_append, List.map_append, List.map_append, List.map_append, hedited]
      · rw [if_neg hstorage]
        exact .inl rfl
  · rw [if_neg hrange]
    exact .inl rfl

theorem Sound.remapForFoldEffectSites (h : arena.Sound) :
    (arena.remapForFoldEffectSites remap start stop storage state).1.Sound := by
  rcases remap_cases arena start stop storage state remap with heq | ⟨nodes, herase, heq⟩
  · rw [heq]
    exact h
  · rw [heq]
    exact h.of_eraseSites herase

theorem remap_error {error : SLTNodeArenaEditError}
    (h : (arena.remapForFoldEffectSites remap start stop storage state).2 = .error error) :
    (arena.remapForFoldEffectSites remap start stop storage state).1 = arena := by
  rcases remap_cases arena start stop storage state remap with heq | ⟨nodes, _, heq⟩
  · exact heq
  · rw [heq] at h
    cases h

end NodeArena
end Sound
end Celox.Slt

/-! ## Stored arenas

What full verification accepts an append accepts as well, with the same width. So an arena that is
read back is one that appends could have built, and it is the arena that was stored. -/
namespace Celox.Slt

/-! ## From verification to appends -/

section Append
variable {A : Type} {node : SLTNode A} {widths : List Nat} {width : Nat}

theorem appendChildWidth_eq {child : NodeId} (h : child < widths.length) :
    appendChildWidth widths child = .ok (widths.getD child 0) := by
  simp [appendChildWidth, List.getElem?_eq_getElem h]

theorem checkChildren_eq {children : List NodeId} (h : ∀ child ∈ children, child < widths.length) :
    checkChildren widths children = .ok () := by
  refine forM_eq_ok.mpr fun child hchild => ?_
  rw [appendChildWidth_eq (h child hchild)]
  rfl

theorem concatParts_ok {nodeId : NodeId} {parts : List (NodeId × Nat)} {total : Nat}
    (hchildren : ∀ part ∈ parts, part.1 < widths.length)
    (h : (parts.map Prod.snd).foldlM concatWidthAdd total = .ok width) :
    parts.foldlM (fun total (child, partWidth) => do
      let _ ← appendChildWidth widths child
      ruleError nodeId (concatWidthAdd total partWidth)) total = .ok width := by
  induction parts generalizing total with
  | nil =>
    cases h
    rfl
  | cons part parts ih =>
    obtain ⟨hpart, hparts⟩ := List.forall_mem_cons.mp hchildren
    rw [List.map_cons, List.foldlM_cons] at h
    obtain ⟨mid, hmid, hrest⟩ := bind_eq_ok.mp h
    rw [List.foldlM_cons]
    refine bind_eq_ok.mpr ⟨mid, ?_, ih hparts hrest⟩
    exact bind_eq_ok.mpr ⟨_, appendChildWidth_eq hpart, ruleError_ok.mpr hmid⟩

variable [DecidableEq A]

theorem packedGroupWidth_of_states {nodeId : NodeId} {loopVar : A}
    {states : List (SLTForFoldGroupState A)}
    (h : groupStatesWidth nodeId widths loopVar states = .ok width) :
    packedGroupWidth nodeId (states.map fun state => state.target.access) = .ok width := by
  unfold groupStatesWidth at h
  unfold packedGroupWidth
  rw [List.zipIdx_map, List.foldlM_map]
  generalize states.zipIdx = entries at h
  generalize (0 : Nat) = total at h ⊢
  induction entries generalizing total with
  | nil => exact h
  | cons entry entries ih =>
    rw [List.foldlM_cons] at h ⊢
    obtain ⟨mid, hmid, hrest⟩ := bind_eq_ok.mp h
    obtain ⟨_, _, hmid⟩ := bind_eq_ok.mp hmid
    obtain ⟨_, _, hmid⟩ := bind_eq_ok.mp hmid
    obtain ⟨targetWidth, htarget, hmid⟩ := bind_eq_ok.mp hmid
    obtain ⟨sum, hsum, hmid⟩ := bind_eq_ok.mp hmid
    obtain ⟨_, _, hmid⟩ := bind_eq_ok.mp hmid
    obtain ⟨_, _, hmid⟩ := bind_eq_ok.mp hmid
    obtain ⟨_, _, hmid⟩ := bind_eq_ok.mp hmid
    cases hmid
    exact bind_eq_ok.mpr ⟨mid, bind_eq_ok.mpr ⟨targetWidth, htarget, hsum⟩, ih mid hrest⟩

theorem verifyAppend_of_computeWidth (hchildren : ∀ child ∈ node.children, child < widths.length)
    (h : computeWidth widths.length node widths = .ok width) :
    verifyAppend node widths = .ok width := by
  have hwidth := computeWidth_ok h
  cases node with
  | input variable_ signed index access =>
    exact bind_eq_ok.mpr ⟨(), checkChildren_eq hchildren, h⟩
  | constant value mask constantWidth signed => exact congrArg Except.ok hwidth.symm
  | binary lhs op rhs =>
    refine bind_eq_ok.mpr ⟨_, appendChildWidth_eq (hchildren lhs (by simp [SLTNode.children])), ?_⟩
    refine bind_eq_ok.mpr ⟨_, appendChildWidth_eq (hchildren rhs (by simp [SLTNode.children])), ?_⟩
    exact congrArg Except.ok hwidth.symm
  | unary op inner =>
    refine bind_eq_ok.mpr ⟨_, appendChildWidth_eq (hchildren inner (by simp [SLTNode.children])), ?_⟩
    exact congrArg Except.ok hwidth.symm
  | capture expr key =>
    rw [hwidth]
    exact appendChildWidth_eq (hchildren expr (by simp [SLTNode.children]))
  | mux cond thenExpr elseExpr =>
    refine bind_eq_ok.mpr ⟨_, appendChildWidth_eq (hchildren cond (by simp [SLTNode.children])), ?_⟩
    refine bind_eq_ok.mpr
      ⟨_, appendChildWidth_eq (hchildren thenExpr (by simp [SLTNode.children])), ?_⟩
    refine bind_eq_ok.mpr
      ⟨_, appendChildWidth_eq (hchildren elseExpr (by simp [SLTNode.children])), ?_⟩
    exact congrArg Except.ok hwidth.symm
  | forFold loopVar loopWidth loopSigned start stop inclusive step stepOp reverse result initials
      updates effects continueCond =>
    refine bind_eq_ok.mpr ⟨(), checkChildren_eq hchildren, ?_⟩
    obtain ⟨_, _, h⟩ := bind_eq_ok.mp h
    obtain ⟨_, _, h⟩ := bind_eq_ok.mp h
    obtain ⟨_, _, h⟩ := bind_eq_ok.mp h
    obtain ⟨_, _, h⟩ := bind_eq_ok.mp h
    obtain ⟨_, _, h⟩ := bind_eq_ok.mp h
    obtain ⟨_, _, h⟩ := bind_eq_ok.mp h
    obtain ⟨_, _, h⟩ := bind_eq_ok.mp h
    obtain ⟨resultWidth, hresult, h⟩ := bind_eq_ok.mp h
    obtain ⟨_, _, h⟩ := bind_eq_ok.mp h
    obtain ⟨_, _, h⟩ := bind_eq_ok.mp h
    cases h
    cases result with
    | state target =>
      obtain ⟨_, haccess, hresult⟩ := bind_eq_ok.mp hresult
      obtain ⟨_, _, hresult⟩ := bind_eq_ok.mp hresult
      cases hresult
      exact haccess
    | transient initial update =>
      obtain ⟨initialWidth, hinitial, hresult⟩ := bind_eq_ok.mp hresult
      obtain ⟨updateWidth, hupdate, hresult⟩ := bind_eq_ok.mp hresult
      obtain ⟨_, hsame, hresult⟩ := bind_eq_ok.mp hresult
      cases hresult
      have hi : appendChildWidth widths initial = .ok width := by
        rw [requireNonzeroChild_ok hinitial]
        exact appendChildWidth_eq (hchildren initial
          (by simp [SLTNode.children, SLTForFoldResult.children]))
      have hu : appendChildWidth widths update = .ok updateWidth := by
        rw [requireNonzeroChild_ok hupdate]
        exact appendChildWidth_eq (hchildren update
          (by simp [SLTNode.children, SLTForFoldResult.children]))
      exact bind_eq_ok.mpr ⟨_, hi, bind_eq_ok.mpr ⟨_, hu, bind_eq_ok.mpr ⟨(), hsame, rfl⟩⟩⟩
  | forFoldGroup loopVar loopWidth loopSigned start step tripCount entryGuard states =>
    refine bind_eq_ok.mpr ⟨(), checkChildren_eq hchildren, ?_⟩
    obtain ⟨_, _, h⟩ := bind_eq_ok.mp h
    obtain ⟨_, _, h⟩ := bind_eq_ok.mp h
    obtain ⟨_, _, h⟩ := bind_eq_ok.mp h
    obtain ⟨_, _, h⟩ := bind_eq_ok.mp h
    obtain ⟨_, _, h⟩ := bind_eq_ok.mp h
    obtain ⟨_, _, h⟩ := bind_eq_ok.mp h
    obtain ⟨packedWidth, hstates, h⟩ := bind_eq_ok.mp h
    obtain ⟨_, _, h⟩ := bind_eq_ok.mp h
    cases h
    exact packedGroupWidth_of_states hstates
  | concat parts =>
    refine concatParts_ok (fun part hpart => ?_) (ruleError_ok.mp h)
    exact hchildren part.1 (List.mem_map_of_mem hpart)
  | slice expr access =>
    obtain ⟨_, _, h⟩ := bind_eq_ok.mp h
    obtain ⟨_, haccess, h⟩ := bind_eq_ok.mp (ruleError_ok.mp h)
    obtain ⟨_, _, h⟩ := bind_eq_ok.mp h
    cases h
    refine bind_eq_ok.mpr ⟨_, appendChildWidth_eq (hchildren expr (by simp [SLTNode.children])), ?_⟩
    exact ruleError_ok.mpr haccess

end Append

/-! ## Verified nodes -/

section Verified
variable {A : Type} [DecidableEq A] {nodes : List (SLTNode A)} {facts facts' : VerifiedNodeFacts}

theorem verifyNode_ok {node : SLTNode A} (h : verifyNode facts node = .ok facts') :
    ∃ width, computeWidth facts.widths.length node facts.widths = .ok width ∧
      facts'.widths = facts.widths ++ [width] := by
  obtain ⟨width, hwidth, h⟩ := bind_eq_ok.mp h
  obtain ⟨⟨lowerable, isUnsafe⟩, _, h⟩ := bind_eq_ok.mp h
  obtain ⟨_, _, h⟩ := bind_eq_ok.mp h
  cases h
  exact ⟨width, hwidth, rfl⟩

/-- Each width is computed from those before it. -/
theorem foldlM_verifyNode_ok (h : nodes.foldlM verifyNode facts = .ok facts') :
    ∃ added, facts'.widths = facts.widths ++ added ∧ added.length = nodes.length ∧
      ∀ (i : Nat) (node : SLTNode A), nodes[i]? = some node →
        computeWidth (facts.widths.length + i) node
          (facts'.widths.take (facts.widths.length + i)) =
            .ok (facts'.widths.getD (facts.widths.length + i) 0) := by
  induction nodes generalizing facts with
  | nil =>
    cases h
    exact ⟨[], by simp, rfl, by simp⟩
  | cons node nodes ih =>
    rw [List.foldlM_cons] at h
    obtain ⟨mid, hmid, hrest⟩ := bind_eq_ok.mp h
    obtain ⟨width, hwidth, hwidths⟩ := verifyNode_ok hmid
    obtain ⟨added, hadded, hlength, hall⟩ := ih hrest
    rw [hwidths, List.append_assoc, List.singleton_append] at hadded
    refine ⟨width :: added, hadded, by simp [hlength], fun i other hat => ?_⟩
    cases i with
    | zero =>
      cases hat
      simp [hadded, hwidth]
    | succ i =>
      have hnext := hall i other hat
      rw [hwidths, List.length_append, List.length_singleton,
        Nat.add_right_comm, Nat.add_assoc] at hnext
      exact hnext

omit [DecidableEq A] in
theorem verifyChildIds_ok {owner : NodeId} {node : SLTNode A} {nodeCount : Nat}
    (h : verifyChildIds owner node nodeCount = .ok ()) : ∀ child ∈ node.children, child < owner := by
  intro child hchild
  obtain ⟨_, _, hlt⟩ := bind_eq_ok.mp (forM_eq_ok.mp h child hchild)
  exact ensure_ok.mp hlt

/-- What verification accepts, appends could have built. -/
theorem verifyNodes_sound (h : verifyNodes nodes = .ok facts) :
    NodeArena.Sound ⟨nodes, rebuildCache nodes, facts.widths⟩ := by
  obtain ⟨_, hids, hfold⟩ := bind_eq_ok.mp h
  obtain ⟨added, hadded, hlength, hall⟩ := foldlM_verifyNode_ok hfold
  simp only [List.nil_append, List.length_nil, Nat.zero_add] at hadded hall
  refine ⟨hadded ▸ hlength, fun id node hat => ?_, rebuildCache_exact nodes⟩
  have hid : id < nodes.length := (List.getElem?_eq_some_iff.mp hat).1
  have htake : (facts.widths.take id).length = id := by
    rw [List.length_take, hadded, hlength, Nat.min_eq_left hid.le]
  refine verifyAppend_of_computeWidth (fun child hchild => ?_) ?_
  · have hnode := forM_eq_ok.mp hids (node, id) (List.mk_mem_zipIdx_iff_getElem?.mpr hat)
    exact htake.symm ▸ verifyChildIds_ok hnode child hchild
  · rw [htake]
    exact hall id node hat

omit [DecidableEq A] in
/-- The nodes determine the widths. -/
theorem NodeArena.Sound.widths_unique {cache cache' : SLTNode A → Option NodeId}
    {widths widths' : List Nat} (h : Sound ⟨nodes, cache, widths⟩)
    (h' : Sound ⟨nodes, cache', widths'⟩) : widths = widths' := by
  have hlength : widths.length = nodes.length := h.widths_length
  have hlength' : widths'.length = nodes.length := h'.widths_length
  have htake : ∀ k ≤ nodes.length, widths.take k = widths'.take k := by
    intro k
    induction k with
    | zero => simp
    | succ k ih =>
      intro hk
      have hat : nodes[k]? = some nodes[k] := List.getElem?_eq_getElem hk
      have hw := h.width k _ hat
      rw [ih (by omega), h'.width k _ hat] at hw
      have hk₁ : k < widths.length := by omega
      have hk₂ : k < widths'.length := by omega
      have hget : widths[k]? = widths'[k]? := by simpa [hk₁, hk₂] using hw.symm
      rw [List.take_add_one, List.take_add_one, ih (by omega), hget]
  have hall := htake nodes.length le_rfl
  rwa [List.take_of_length_le hlength.le, List.take_of_length_le hlength'.le] at hall

/-- Verification finds no cached width wrong. -/
theorem NodeArena.Sound.verify_eq {arena : NodeArena A} (h : arena.Sound) :
    arena.verify = verifyNodes arena.nodes := by
  unfold NodeArena.verify
  cases hv : verifyNodes arena.nodes with
  | error e => rfl
  | ok facts =>
    have hwidths : arena.widths = facts.widths := h.widths_unique (verifyNodes_sound hv)
    exact bind_eq_ok.mpr ⟨facts, rfl, bind_eq_ok.mpr ⟨(), ensure_ok.mpr hwidths, rfl⟩⟩

end Verified

/-! ## Arenas of the program -/

section Reached
variable {A D E : Type} [DecidableEq A] (numbers : BigIntegers)
  (format : SerdeFormat (List (SLTNodeSerde A)) D E)

/-- The arenas that the program can have. -/
inductive Reached : NodeArena A → Prop
  | new : Reached NodeArena.new
  | deserialize {data : D} {arena : NodeArena A}
      (h : NodeArena.deserialize numbers format data = .ok arena) : Reached arena
  | alloc {arena : NodeArena A} (h : Reached arena) (node : SLTNode A) :
      Reached (arena.alloc node).1
  | remap {arena : NodeArena A} (h : Reached arena) {σ : Type}
      (remap : σ → Nat → Option Int →
        Except SLTNodeArenaEditError (Option (Nat × Option Int) × σ))
      (start stop : Nat) (storage : Nat → Bool) (state : σ) :
      Reached (arena.remapForFoldEffectSites remap start stop storage state).1

variable {numbers format} {arena : NodeArena A}

theorem fromRawNodes_eq {nodes : List (SLTNode A)} :
    NodeArena.fromRawNodes nodes = (verifyNodes nodes).map fun facts =>
      ⟨nodes, rebuildCache nodes, facts.widths⟩ := by
  unfold NodeArena.fromRawNodes
  cases verifyNodes nodes <;> rfl

theorem deserialize_sound {data : D} (h : NodeArena.deserialize numbers format data = .ok arena) :
    arena.Sound := by
  obtain ⟨wire, _, h⟩ := bind_eq_ok.mp h
  rw [fromRawNodes_eq] at h
  cases hv : verifyNodes (wire.map (SLTNodeSerde.toNode numbers)) with
  | error e =>
    rw [hv] at h
    cases h
  | ok facts =>
    rw [hv] at h
    cases h
    exact verifyNodes_sound hv

theorem Reached.sound (h : Reached numbers format arena) : arena.Sound := by
  induction h with
  | new => exact NodeArena.new_sound
  | deserialize h => exact deserialize_sound h
  | alloc _ node ih => exact ih.alloc node
  | remap _ remap start stop storage state ih => exact ih.remapForFoldEffectSites

/-- A verified arena is read back with its nodes, its widths and its cache. -/
theorem NodeArena.Sound.deserialize_serialize (h : arena.Sound) {facts : VerifiedNodeFacts} {data : D}
    (hverify : arena.verify = .ok facts) (hdata : arena.serialize numbers format = .ok data) :
    NodeArena.deserialize numbers format data = .ok arena := by
  rw [h.verify_eq] at hverify
  have hnodes : (arena.nodes.map (SLTNode.toSerde numbers)).map (SLTNodeSerde.toNode numbers) =
      arena.nodes := by
    rw [List.map_map]
    exact List.map_id'' (SLTNode.toNode_toSerde numbers) _
  have hwidths : arena.widths = facts.widths := h.widths_unique (verifyNodes_sound hverify)
  have hcache : arena.cache = rebuildCache arena.nodes := h.cache.unique (rebuildCache_exact _)
  refine bind_eq_ok.mpr ⟨_, format.deserialize_serialize hdata, ?_⟩
  rw [hnodes, fromRawNodes_eq, hverify, ← hcache]
  simp only [Except.map, Except.mapError, ← hwidths]

/-- In every arena that the program can have, children come before their owners, the cache has the
least id of each node, and the widths are those that appends and verification compute; what fails
changes nothing, and what verifies is read back as it was stored. -/
theorem arena_invariant (h : Reached numbers format arena) :
    (∀ (id : Nat) (node : SLTNode A), arena.nodes[id]? = some node →
      ∀ child ∈ node.children, child < id) ∧
    (∀ (node : SLTNode A) (id : Nat), arena.cache node = some id ↔
      arena.nodes[id]? = some node ∧ ∀ j < id, arena.nodes[j]? ≠ some node) ∧
    (arena.widths.length = arena.nodes.length ∧
      (∀ (id : Nat) (node : SLTNode A), arena.nodes[id]? = some node →
        verifyAppend node (arena.widths.take id) = .ok (arena.widths.getD id 0)) ∧
      arena.verify = verifyNodes arena.nodes) ∧
    (∀ node error, (arena.alloc node).2 = .error error → (arena.alloc node).1 = arena) ∧
    (∀ (σ : Type) (remap : σ → Nat → Option Int →
        Except SLTNodeArenaEditError (Option (Nat × Option Int) × σ))
      (start stop : Nat) (storage : Nat → Bool) (state : σ) (error : SLTNodeArenaEditError),
      (arena.remapForFoldEffectSites remap start stop storage state).2 = .error error →
        (arena.remapForFoldEffectSites remap start stop storage state).1 = arena) ∧
    ∀ facts data, arena.verify = .ok facts → arena.serialize numbers format = .ok data →
      NodeArena.deserialize numbers format data = .ok arena := by
  have hsound := h.sound
  refine ⟨fun id node hat child hchild => hsound.child_lt hat hchild, hsound.cache,
    ⟨hsound.widths_length, hsound.width, hsound.verify_eq⟩, fun node error => NodeArena.alloc_error,
    fun σ remap start stop storage state error => NodeArena.remap_error,
    fun facts data => hsound.deserialize_serialize⟩

end Reached

/-! ## One arena -/

section Example

def bigIntegers : BigIntegers := ⟨Bytes.biguintBytes, Bytes.bigintBytes⟩

/-- A format that stores what it is given. -/
def plainFormat : SerdeFormat (List (SLTNodeSerde Nat)) (List (SLTNodeSerde Nat)) String where
  serialize := .ok
  deserialize := .ok
  custom := id
  deserialize_serialize h := congrArg _ (Except.ok.inj h).symm

/-- A loop with one event over one bit of a variable. -/
def eventLoop (siteId : Nat) : SLTNode Nat :=
  .forFold 7 2 false (.expr 0) (.expr 0) false 1 .add false (.transient 0 0) [] []
    [.event siteId none true [0] none] 0

/-- Two loops that differ in the site of their event, until both have one site. -/
def mergedArena : NodeArena Nat :=
  let arena := (NodeArena.new.alloc (.input 3 false [] ⟨0, 1⟩)).1
  let arena := ((arena.alloc (eventLoop 4)).1.alloc (eventLoop 5)).1
  (arena.remapForFoldEffectSites (fun (_ : Unit) _ code => .ok (some (4, code), ())) 0 3
    (fun _ => true) ()).1

theorem mergedArena_reached : Reached bigIntegers plainFormat mergedArena :=
  .remap (.alloc (.alloc (.alloc .new _) _) _) ..

theorem mergedArena_stored :
    mergedArena.cache (eventLoop 4) = some 1 ∧
      NodeArena.deserialize bigIntegers plainFormat
        (mergedArena.nodes.map (SLTNode.toSerde bigIntegers)) = .ok mergedArena := by
  obtain ⟨-, hcache, -, -, -, hstored⟩ := arena_invariant mergedArena_reached
  exact ⟨(hcache _ _).mpr ⟨rfl, by decide⟩,
    hstored ⟨[2, 2, 2], [true, true, true], [false, true, true]⟩ _ rfl rfl⟩

end Example
end Celox.Slt
