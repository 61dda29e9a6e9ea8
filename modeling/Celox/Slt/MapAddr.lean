import Celox.Slt.ArenaSound

/-! # Mapping addresses

`SLTNode::map_addr`: the nodes below a root are appended to another arena with their addresses mapped,
the children of a node before it. A cache, kept from root to root, has what is mapped already. -/
namespace Celox.Slt

/-! ## One node -/

section Node
variable {A B : Type} (f : A → B) (mapped : NodeId → NodeId)

def VarAtomBase.mapAddr (atom : VarAtomBase A) : VarAtomBase B := ⟨f atom.id, atom.access⟩

def SLTLoopBound.mapNodes : SLTLoopBound → SLTLoopBound
  | .const value => .const value
  | .expr node => .expr (mapped node)

def SLTForUpdate.mapAddr (update : SLTForUpdate A) : SLTForUpdate B :=
  ⟨update.target.mapAddr f, mapped update.expr⟩

def SLTForFoldResult.mapAddr : SLTForFoldResult A → SLTForFoldResult B
  | .state target => .state (target.mapAddr f)
  | .transient initial update => .transient (mapped initial) (mapped update)

def SLTForFoldGroupState.mapAddr (state : SLTForFoldGroupState A) : SLTForFoldGroupState B :=
  ⟨state.target.mapAddr f, mapped state.initial, mapped state.update⟩

def SLTForEffect.mapNodes : SLTForEffect → SLTForEffect
  | .event siteId guard emitOnTrue args fatalErrorCode =>
    .event siteId (guard.map mapped) emitOnTrue (args.map mapped) fatalErrorCode
  | .runner node => .runner (mapped node)

/-- The node with its addresses and its children mapped. -/
def SLTNode.mapAddr : SLTNode A → SLTNode B
  | .input variable_ signed index access =>
    .input (f variable_) signed (index.map fun entry => { entry with node := mapped entry.node }) access
  | .constant value mask width signed => .constant value mask width signed
  | .binary lhs op rhs => .binary (mapped lhs) op (mapped rhs)
  | .unary op inner => .unary op (mapped inner)
  | .mux cond thenExpr elseExpr => .mux (mapped cond) (mapped thenExpr) (mapped elseExpr)
  | .forFold loopVar loopWidth loopSigned start stop inclusive step stepOp reverse result initials
      updates effects continueCond =>
    .forFold (f loopVar) loopWidth loopSigned (start.mapNodes mapped) (stop.mapNodes mapped) inclusive
      step stepOp reverse (result.mapAddr f mapped) (initials.map (SLTForUpdate.mapAddr f mapped))
      (updates.map (SLTForUpdate.mapAddr f mapped)) (effects.map (SLTForEffect.mapNodes mapped))
      (mapped continueCond)
  | .forFoldGroup loopVar loopWidth loopSigned start step tripCount entryGuard states =>
    .forFoldGroup (f loopVar) loopWidth loopSigned start step tripCount (mapped entryGuard)
      (states.map (SLTForFoldGroupState.mapAddr f mapped))
  | .concat parts => .concat (parts.map fun part => (mapped part.1, part.2))
  | .slice expr access => .slice (mapped expr) access
  | .capture expr key => .capture (mapped expr) key

/-- The children in the order in which they are mapped. -/
def SLTNode.mappedChildren : SLTNode A → List NodeId
  | .forFold _ _ _ start stop _ _ _ _ result initials updates effects continueCond =>
    initials.map SLTForUpdate.expr ++ updates.map SLTForUpdate.expr ++
      effects.flatMap SLTForEffect.children ++ result.children ++ start.children ++ stop.children ++
      [continueCond]
  | .forFoldGroup _ _ _ _ _ _ entryGuard states =>
    states.flatMap (fun state => [state.initial, state.update]) ++ [entryGuard]
  | node => node.children

variable {f mapped}

theorem SLTNode.mem_mappedChildren {node : SLTNode A} {child : NodeId} :
    child ∈ node.mappedChildren ↔ child ∈ node.children := by
  cases node with
  | forFold =>
    simp only [mappedChildren, children, List.mem_append]
    tauto
  | forFoldGroup =>
    simp only [mappedChildren, children, List.mem_append, List.mem_cons]
    tauto
  | _ => rfl

theorem SLTNode.children_mapAddr (node : SLTNode A) :
    (node.mapAddr f mapped).children = node.children.map mapped := by
  have hbound : ∀ bound : SLTLoopBound,
      (bound.mapNodes mapped).children = bound.children.map mapped := by
    intro bound
    cases bound <;> rfl
  have hresult : ∀ result : SLTForFoldResult A,
      (result.mapAddr f mapped).children = result.children.map mapped := by
    intro result
    cases result <;> rfl
  have heffect : ∀ effect : SLTForEffect,
      (effect.mapNodes mapped).children = effect.children.map mapped := by
    intro effect
    cases effect with
    | runner => rfl
    | event siteId guard => cases guard <;> simp [SLTForEffect.mapNodes, SLTForEffect.children]
  cases node <;>
    simp [mapAddr, children, hbound, hresult, heffect, SLTForUpdate.mapAddr,
      SLTForFoldGroupState.mapAddr, List.map_flatMap, List.flatMap_map, Function.comp_def]

/-- Only the places of the children matter. -/
theorem SLTNode.mapAddr_congr {mapped' : NodeId → NodeId} {node : SLTNode A}
    (h : ∀ child ∈ node.children, mapped child = mapped' child) :
    node.mapAddr f mapped = node.mapAddr f mapped' := by
  have hbound : ∀ bound : SLTLoopBound, (∀ child ∈ bound.children, mapped child = mapped' child) →
      bound.mapNodes mapped = bound.mapNodes mapped' := by
    intro bound hbound
    cases bound with
    | const => rfl
    | expr node => exact congrArg _ (hbound node (List.mem_singleton_self node))
  cases node with
  | input variable_ signed index access =>
    have hindex : ∀ entry ∈ index, mapped entry.node = mapped' entry.node := fun entry hentry =>
      h entry.node (List.mem_map.mpr ⟨entry, hentry, rfl⟩)
    simp only [mapAddr, List.map_congr_left fun entry hentry =>
      congrArg (fun node => ({ entry with node } : SLTIndex)) (hindex entry hentry)]
  | constant => rfl
  | binary lhs op rhs => simp [mapAddr, h lhs (by simp [children]), h rhs (by simp [children])]
  | unary op inner => simp [mapAddr, h inner (by simp [children])]
  | mux cond thenExpr elseExpr =>
    simp [mapAddr, h cond (by simp [children]), h thenExpr (by simp [children]),
      h elseExpr (by simp [children])]
  | forFold loopVar loopWidth loopSigned start stop inclusive step stepOp reverse result initials
      updates effects continueCond =>
    simp only [children, List.mem_append, List.mem_map, List.mem_flatMap, List.mem_singleton] at h
    have hupdates : ∀ l : List (SLTForUpdate A), (∀ update ∈ l, mapped update.expr =
        mapped' update.expr) → l.map (SLTForUpdate.mapAddr f mapped) =
          l.map (SLTForUpdate.mapAddr f mapped') := by
      intro l hl
      exact List.map_congr_left fun update hupdate => by
        rw [SLTForUpdate.mapAddr, SLTForUpdate.mapAddr, hl update hupdate]
    have hresult : result.mapAddr f mapped = result.mapAddr f mapped' := by
      cases result with
      | state => rfl
      | transient initial update =>
        simp [SLTForFoldResult.mapAddr, h initial (by simp [SLTForFoldResult.children]),
          h update (by simp [SLTForFoldResult.children])]
    have heffects : effects.map (SLTForEffect.mapNodes mapped) =
        effects.map (SLTForEffect.mapNodes mapped') := by
      refine List.map_congr_left fun effect heffect => ?_
      have heach : ∀ child ∈ effect.children, mapped child = mapped' child := fun child hchild =>
        h child (.inl (.inr ⟨effect, heffect, hchild⟩))
      cases effect with
      | runner node => exact congrArg _ (heach node (List.mem_singleton_self node))
      | event siteId guard emitOnTrue args fatalErrorCode =>
        have hguard : guard.map mapped = guard.map mapped' := by
          cases guard with
          | none => rfl
          | some node => exact congrArg _ (heach node (by simp [SLTForEffect.children]))
        have hargs : args.map mapped = args.map mapped' := List.map_congr_left fun arg harg =>
          heach arg (by simp [SLTForEffect.children, harg])
        rw [SLTForEffect.mapNodes, SLTForEffect.mapNodes, hguard, hargs]
    rw [mapAddr, mapAddr, hbound start fun child hchild => h child (by simp [hchild]),
      hbound stop fun child hchild => h child (by simp [hchild]), hresult, heffects,
      hupdates initials fun update hupdate => h _ (.inl (.inl (.inl (.inr ⟨update, hupdate, rfl⟩)))),
      hupdates updates fun update hupdate => h _ (.inl (.inl (.inr ⟨update, hupdate, rfl⟩))),
      h continueCond (.inr rfl)]
  | forFoldGroup loopVar loopWidth loopSigned start step tripCount entryGuard states =>
    have hstates : states.map (SLTForFoldGroupState.mapAddr f mapped) =
        states.map (SLTForFoldGroupState.mapAddr f mapped') := by
      refine List.map_congr_left fun state hstate => ?_
      have heach : ∀ child ∈ [state.initial, state.update], mapped child = mapped' child :=
        fun child hchild => h child (List.mem_cons_of_mem _ (List.mem_flatMap.mpr
          ⟨state, hstate, hchild⟩))
      simp [SLTForFoldGroupState.mapAddr, heach state.initial (by simp),
        heach state.update (by simp)]
    rw [mapAddr, mapAddr, hstates, h entryGuard (by simp [children])]
  | concat parts =>
    have hparts : ∀ part ∈ parts, mapped part.1 = mapped' part.1 := fun part hpart =>
      h part.1 (List.mem_map.mpr ⟨part, hpart, rfl⟩)
    simp only [mapAddr, List.map_congr_left fun part hpart =>
      congrArg (fun node => (node, part.2)) (hparts part hpart)]
  | slice expr access => simp [mapAddr, h expr (by simp [children])]
  | capture expr key => simp [mapAddr, h expr (by simp [children])]

end Node

/-! ## The traversal -/

section Traversal
variable {A B : Type} [DecidableEq B] (source : NodeArena A) (f : A → B)

structure Mapping (B : Type) where
  target : NodeArena B
  cache : NodeId → Option NodeId

/-- Where a node that is mapped is; an error if it is not. -/
def Mapping.mapped (m : Mapping B) (node : NodeId) : NodeId := (m.cache node).getD 0

def Mapping.finish (m : Mapping B) (current : NodeId) (node : SLTNode A) :
    Mapping B × Except SLTNodeFactsError Unit :=
  match m.target.alloc (node.mapAddr f m.mapped) with
  | (target, .error error) => (⟨target, m.cache⟩, .error error)
  | (target, .ok id) => (⟨target, Function.update m.cache current (some id)⟩, .ok ())

/-- A node is expanded into its children and itself; it is appended when it comes up again. -/
def mapLoop : Nat → List (NodeId × Bool) → Mapping B → Mapping B × Except SLTNodeFactsError Unit
  | 0, _, m => (m, .ok ())
  | _ + 1, [], m => (m, .ok ())
  | fuel + 1, (current, expanded) :: work, m =>
    if (m.cache current).isSome then mapLoop fuel work m
    else
      match source.nodes[current]? with
      | none => (m, .ok ())
      | some node =>
        if expanded then
          match m.finish f current node with
          | (m, .error error) => (m, .error error)
          | (m, .ok ()) => mapLoop fuel work m
        else
          mapLoop fuel (node.mappedChildren.map (·, false) ++ (current, true) :: work) m

/-- The turns of the loop that a node can take, with what is below it. -/
def mapTurns : NodeId → Nat :=
  recurse source.nodes 1 fun _ node turns => (node.mappedChildren.map turns).sum + 2

def mapAddr (m : Mapping B) (root : NodeId) : Mapping B × Except SLTNodeFactsError NodeId :=
  match m.cache root with
  | some id => (m, .ok id)
  | none =>
    let (m, result) := mapLoop source f (mapTurns source root) [(root, false)] m
    (m, result.map fun _ => m.mapped root)

end Traversal

/-! ## The meaning of trees over addresses

The operators are given by an algebra that knows no addresses. What is fixed here is what addresses do:
a variable is read from the assignment, and a loop binds its counter and its states for its body. -/

/-- Values, with their widths and signs, and the contents of variables. -/
structure Algebra (V R : Type) where
  constant : (value mask width : Nat) → (signed : Bool) → V
  unary : UnaryOp → V → V
  binary : BinaryOp → V → V → V
  mux : V → V → V → V
  concat : List (V × Nat) → V
  slice : V → BitAccess → V
  cast : V → Nat → V
  truthy : V → Bool
  read : R → (signed : Bool) → List (V × Nat × SLTIndexKind) → BitAccess → V
  write : R → BitAccess → V → R
  /-- The values of a counter, with none at the end where it stalls. -/
  counters : (loopWidth : Nat) → (loopSigned : Bool) → (start stop : Nat ⊕ V) →
    (inclusive : Bool) → (step : Nat) → SLTStepOp → (reverse : Bool) → List (Option V)
  counter : (loopWidth : Nat) → (loopSigned : Bool) → Int → V
  /-- The value of a loop that is given up. -/
  stalled : V

section Meaning
variable {A V R : Type} [DecidableEq A] (alg : Algebra V R)

/-- The bits of a variable hold a value. -/
def bindAtom (σ : A → R) (atom : VarAtomBase A) (v : V) : A → R :=
  Function.update σ atom.id (alg.write (σ atom.id) atom.access v)

/-- The states of a loop, then its counter. -/
def loopScope (σ : A → R) (targets : List (VarAtomBase A)) (states : List V) (loopVar : A)
    (loopWidth : Nat) (counter : V) : A → R :=
  bindAtom alg ((targets.zip states).foldl (fun σ binding => bindAtom alg σ binding.1 binding.2) σ)
    ⟨loopVar, ⟨0, loopWidth - 1⟩⟩ counter

/-- One turn for each counter value, until a turn says to leave. -/
def runTurns (turn : V → List V → List V × Bool) : List (Option V) → List V → Option (List V)
  | [], states => some states
  | none :: _, _ => none
  | some counter :: counters, states =>
    let (next, goOn) := turn counter states
    if goOn then runTurns turn counters next else some next

def SLTLoopBound.meaning (value : NodeId → V) : SLTLoopBound → Nat ⊕ V
  | .const value => .inl value
  | .expr node => .inr (value node)

/-- The transient value comes behind the states. -/
def SLTForFoldResult.transientInitial (value : NodeId → V) : SLTForFoldResult A → List V
  | .state _ => []
  | .transient initial _ => [value initial]

def SLTForFoldResult.transientUpdate (value : NodeId → V) : SLTForFoldResult A → List V
  | .state _ => []
  | .transient _ update => [value update]

def SLTForFoldResult.position (updates : List (SLTForUpdate A)) : SLTForFoldResult A → Nat
  | .state target => updates.findIdx (·.target = target)
  | .transient .. => updates.length

/-- The value of a node from the meanings of its children, each in any assignment. -/
def nodeMeaning (node : SLTNode A) (meaning : NodeId → (A → R) → V) (σ : A → R) : V :=
  match node with
  | .input variable_ signed index access =>
    alg.read (σ variable_) signed
      (index.map fun entry => (meaning entry.node σ, entry.stride, entry.kind)) access
  | .constant value mask width signed => alg.constant value mask width signed
  | .binary lhs op rhs => alg.binary op (meaning lhs σ) (meaning rhs σ)
  | .unary op inner => alg.unary op (meaning inner σ)
  | .mux cond thenExpr elseExpr => alg.mux (meaning cond σ) (meaning thenExpr σ) (meaning elseExpr σ)
  | .forFold loopVar loopWidth loopSigned start stop inclusive step stepOp reverse result initials
      updates _ continueCond =>
    let targets := updates.map SLTForUpdate.target
    let turn := fun counter states =>
      let scope := loopScope alg σ targets states loopVar loopWidth counter
      (updates.map (fun update => alg.cast (meaning update.expr scope) update.target.access.width) ++
        result.transientUpdate (meaning · scope), alg.truthy (meaning continueCond scope))
    let initial := (initials.zip targets).map (fun (update, target) =>
        alg.cast (meaning update.expr σ) target.access.width) ++ result.transientInitial (meaning · σ)
    let counters := alg.counters loopWidth loopSigned (start.meaning (meaning · σ))
      (stop.meaning (meaning · σ)) inclusive step stepOp reverse
    match runTurns turn counters initial with
    | none => alg.stalled
    | some states => (states[result.position updates]?).getD alg.stalled
  | .forFoldGroup loopVar loopWidth loopSigned start step tripCount entryGuard states =>
    let targets := states.map SLTForFoldGroupState.target
    let turn := fun counter values =>
      let scope := loopScope alg σ targets values loopVar loopWidth counter
      (states.map (fun state => alg.cast (meaning state.update scope) state.target.access.width), true)
    let initial := states.map fun state =>
      alg.cast (meaning state.initial σ) state.target.access.width
    let counters := (List.range tripCount).map fun i =>
      some (alg.counter loopWidth loopSigned (start + step * i))
    let final := if alg.truthy (meaning entryGuard σ) then (runTurns turn counters initial).getD initial
      else initial
    let pack := fun values => alg.concat (values.zip (targets.map fun target => target.access.width))
    alg.mux (meaning entryGuard σ) (pack final) (pack initial)
  | .concat parts => alg.concat (parts.map fun part => (meaning part.1 σ, part.2))
  | .slice expr access => alg.slice (meaning expr σ) access
  | .capture expr _ => meaning expr σ

/-- The value of a tree under an assignment of the variables. -/
def NodeArena.valueOf (arena : NodeArena A) : NodeId → (A → R) → V :=
  recurse arena.nodes (fun _ => alg.stalled) fun _ => nodeMeaning alg

variable {alg}

/-! ## Mapped addresses -/

section Mapped
variable {B : Type} [DecidableEq B] {f : A → B} {mapped : NodeId → NodeId}

omit [DecidableEq A] [DecidableEq B] in
theorem VarAtomBase.mapAddr_inj (hf : Function.Injective f) {atom other : VarAtomBase A} :
    atom.mapAddr f = other.mapAddr f ↔ atom = other := by
  obtain ⟨id, access⟩ := atom
  obtain ⟨id', access'⟩ := other
  simp [mapAddr, hf.eq_iff]

/-- Binding a mapped variable binds the variable and no other. -/
theorem bindAtom_comp (hf : Function.Injective f) (σ : B → R) (atom : VarAtomBase A) (v : V) :
    bindAtom alg σ (atom.mapAddr f) v ∘ f = bindAtom alg (σ ∘ f) atom v :=
  Function.update_comp_eq_of_injective σ hf atom.id _

theorem loopScope_comp (hf : Function.Injective f) (σ : B → R) (targets : List (VarAtomBase A))
    (states : List V) (loopVar : A) (loopWidth : Nat) (counter : V) :
    loopScope alg σ (targets.map (VarAtomBase.mapAddr f)) states (f loopVar) loopWidth counter ∘ f =
      loopScope alg (σ ∘ f) targets states loopVar loopWidth counter := by
  have hbind : ∀ (l : List (VarAtomBase A × V)) (σ : B → R),
      (l.map (Prod.map (VarAtomBase.mapAddr f) id)).foldl
          (fun σ binding => bindAtom alg σ binding.1 binding.2) σ ∘ f =
        l.foldl (fun σ binding => bindAtom alg σ binding.1 binding.2) (σ ∘ f) := by
    intro l
    induction l with
    | nil => exact fun _ => rfl
    | cons binding l ih =>
      intro σ
      rw [List.map_cons, List.foldl_cons, List.foldl_cons, ih]
      exact congrArg (l.foldl _) (bindAtom_comp hf σ binding.1 binding.2)
  unfold loopScope
  rw [List.zip_map_left, ← hbind]
  exact bindAtom_comp hf _ ⟨loopVar, ⟨0, loopWidth - 1⟩⟩ counter

theorem position_mapAddr (hf : Function.Injective f) (result : SLTForFoldResult A)
    (updates : List (SLTForUpdate A)) :
    (result.mapAddr f mapped).position (updates.map (SLTForUpdate.mapAddr f mapped)) =
      result.position updates := by
  cases result with
  | state target =>
    simp only [SLTForFoldResult.mapAddr, SLTForFoldResult.position, List.findIdx_map]
    congr 1
    funext update
    simp only [Function.comp_apply, SLTForUpdate.mapAddr, VarAtomBase.mapAddr_inj hf]
  | transient => simp [SLTForFoldResult.mapAddr, SLTForFoldResult.position]

variable {source : NodeId → (A → R) → V} {target : NodeId → (B → R) → V}

omit [DecidableEq A] [DecidableEq B] in
theorem transient_mapAddr {result : SLTForFoldResult A} {σ : B → R}
    (h : ∀ child ∈ result.children, target (mapped child) σ = source child (σ ∘ f)) :
    (result.mapAddr f mapped).transientInitial (target · σ) =
        result.transientInitial (source · (σ ∘ f)) ∧
      (result.mapAddr f mapped).transientUpdate (target · σ) =
        result.transientUpdate (source · (σ ∘ f)) := by
  cases result with
  | state => exact ⟨rfl, rfl⟩
  | transient initial update =>
    simp [SLTForFoldResult.mapAddr, SLTForFoldResult.transientInitial,
      SLTForFoldResult.transientUpdate, h initial (by simp [SLTForFoldResult.children]),
      h update (by simp [SLTForFoldResult.children])]

omit [DecidableEq A] [DecidableEq B] in
theorem bound_mapNodes {bound : SLTLoopBound} {σ : B → R}
    (h : ∀ child ∈ bound.children, target (mapped child) σ = source child (σ ∘ f)) :
    (bound.mapNodes mapped).meaning (target · σ) = bound.meaning (source · (σ ∘ f)) := by
  cases bound with
  | const => rfl
  | expr node => exact congrArg Sum.inr (h node (List.mem_singleton_self node))

/-- A mapped node means what the node does, when its children do. -/
theorem nodeMeaning_mapAddr (hf : Function.Injective f) {node : SLTNode A}
    (h : ∀ child ∈ node.children, ∀ σ, target (mapped child) σ = source child (σ ∘ f)) (σ : B → R) :
    nodeMeaning alg (node.mapAddr f mapped) target σ = nodeMeaning alg node source (σ ∘ f) := by
  cases node with
  | input variable_ signed index access =>
    have hindex : ∀ entry ∈ index, target (mapped entry.node) σ = source entry.node (σ ∘ f) :=
      fun entry hentry => h entry.node (List.mem_map.mpr ⟨entry, hentry, rfl⟩) σ
    simp only [SLTNode.mapAddr, nodeMeaning, List.map_map, Function.comp_def]
    congr 1
    refine List.map_congr_left fun entry hentry => ?_
    rw [hindex entry hentry]
    rfl
  | constant => rfl
  | binary lhs op rhs =>
    simp only [SLTNode.mapAddr, nodeMeaning, h lhs (by simp [SLTNode.children]),
      h rhs (by simp [SLTNode.children])]
  | unary op inner =>
    simp only [SLTNode.mapAddr, nodeMeaning, h inner (by simp [SLTNode.children])]
  | mux cond thenExpr elseExpr =>
    simp only [SLTNode.mapAddr, nodeMeaning, h cond (by simp [SLTNode.children]),
      h thenExpr (by simp [SLTNode.children]), h elseExpr (by simp [SLTNode.children])]
  | forFold loopVar loopWidth loopSigned start stop inclusive step stepOp reverse result initials
      updates effects continueCond =>
    simp only [SLTNode.children, List.mem_append, List.mem_map, List.mem_flatMap,
      List.mem_singleton] at h
    have hupdates : ∀ update ∈ updates, ∀ σ, target (mapped update.expr) σ =
        source update.expr (σ ∘ f) := fun update hupdate =>
      h _ (.inl (.inl (.inr ⟨update, hupdate, rfl⟩)))
    have hinitials : ∀ update ∈ initials, ∀ σ, target (mapped update.expr) σ =
        source update.expr (σ ∘ f) := fun update hupdate =>
      h _ (.inl (.inl (.inl (.inr ⟨update, hupdate, rfl⟩))))
    have hresult := fun σ => @transient_mapAddr A V R B f mapped source target result σ
      fun child hchild => h child (by simp [hchild]) σ
    have htargets : (updates.map (SLTForUpdate.mapAddr f mapped)).map SLTForUpdate.target =
        (updates.map SLTForUpdate.target).map (VarAtomBase.mapAddr f) := by
      simp [Function.comp_def, SLTForUpdate.mapAddr]
    have hturn : ∀ σ : B → R,
        (updates.map (SLTForUpdate.mapAddr f mapped)).map
            (fun update => alg.cast (target update.expr σ) update.target.access.width) =
          updates.map fun update =>
            alg.cast (source update.expr (σ ∘ f)) update.target.access.width := by
      intro σ
      rw [List.map_map]
      refine List.map_congr_left fun update hupdate => ?_
      rw [← hupdates update hupdate σ]
      rfl
    have hinitial : ((initials.map (SLTForUpdate.mapAddr f mapped)).zip
          ((updates.map SLTForUpdate.target).map (VarAtomBase.mapAddr f))).map
            (fun (update, atom) => alg.cast (target update.expr σ) atom.access.width) =
        (initials.zip (updates.map SLTForUpdate.target)).map fun (update, atom) =>
          alg.cast (source update.expr (σ ∘ f)) atom.access.width := by
      rw [List.zip_map, List.map_map]
      refine List.map_congr_left fun entry hentry => ?_
      change alg.cast (target (mapped entry.1.expr) σ) entry.2.access.width = _
      rw [hinitials entry.1 (List.of_mem_zip hentry).1 σ]
    have hstart : (start.mapNodes mapped).meaning (target · σ) = start.meaning (source · (σ ∘ f)) :=
      bound_mapNodes fun child hchild => h child (by simp [hchild]) σ
    have hstop : (stop.mapNodes mapped).meaning (target · σ) = stop.meaning (source · (σ ∘ f)) :=
      bound_mapNodes fun child hchild => h child (by simp [hchild]) σ
    simp only [SLTNode.mapAddr, nodeMeaning, htargets, hturn, hinitial, (hresult σ).1,
      (hresult _).2, position_mapAddr hf, loopScope_comp hf, hstart, hstop,
      h continueCond (.inr rfl)]
  | forFoldGroup loopVar loopWidth loopSigned start step tripCount entryGuard states =>
    have hstates : ∀ state ∈ states, ∀ σ,
        target (mapped state.initial) σ = source state.initial (σ ∘ f) ∧
          target (mapped state.update) σ = source state.update (σ ∘ f) := by
      intro state hstate σ
      have hmem : ∀ child ∈ [state.initial, state.update],
          child ∈ (SLTNode.forFoldGroup loopVar loopWidth loopSigned start step tripCount entryGuard
            states).children :=
        fun child hchild => List.mem_cons_of_mem _ (List.mem_flatMap.mpr ⟨state, hstate, hchild⟩)
      exact ⟨h _ (hmem _ (by simp)) σ, h _ (hmem _ (by simp)) σ⟩
    have htargets : (states.map (SLTForFoldGroupState.mapAddr f mapped)).map
        SLTForFoldGroupState.target =
          (states.map SLTForFoldGroupState.target).map (VarAtomBase.mapAddr f) := by
      simp [Function.comp_def, SLTForFoldGroupState.mapAddr]
    have hturn : ∀ σ : B → R,
        (states.map (SLTForFoldGroupState.mapAddr f mapped)).map
            (fun state => alg.cast (target state.update σ) state.target.access.width) =
          states.map fun state =>
            alg.cast (source state.update (σ ∘ f)) state.target.access.width := by
      intro σ
      rw [List.map_map]
      refine List.map_congr_left fun state hstate => ?_
      rw [← (hstates state hstate σ).2]
      rfl
    have hinitial : (states.map (SLTForFoldGroupState.mapAddr f mapped)).map
          (fun state => alg.cast (target state.initial σ) state.target.access.width) =
        states.map fun state =>
          alg.cast (source state.initial (σ ∘ f)) state.target.access.width := by
      rw [List.map_map]
      refine List.map_congr_left fun state hstate => ?_
      rw [← (hstates state hstate σ).1]
      rfl
    have hwidths : ((states.map SLTForFoldGroupState.target).map (VarAtomBase.mapAddr f)).map
        (fun atom => atom.access.width) =
          (states.map SLTForFoldGroupState.target).map fun atom => atom.access.width := by
      rw [List.map_map]
      rfl
    simp only [SLTNode.mapAddr, nodeMeaning, htargets, hturn, hinitial, hwidths, loopScope_comp hf,
      h entryGuard (by simp [SLTNode.children])]
  | concat parts =>
    simp only [SLTNode.mapAddr, nodeMeaning, List.map_map, Function.comp_def]
    congr 1
    refine List.map_congr_left fun part hpart => ?_
    rw [h part.1 (List.mem_map.mpr ⟨part, hpart, rfl⟩)]
    rfl
  | slice expr access =>
    simp only [SLTNode.mapAddr, nodeMeaning, h expr (by simp [SLTNode.children])]
  | capture expr key =>
    simp only [SLTNode.mapAddr, nodeMeaning, h expr (by simp [SLTNode.children])]

end Mapped

omit [DecidableEq A] in
theorem SLTNode.mapAddr_id (node : SLTNode A) : node.mapAddr id id = node := by
  have hbound : ∀ bound : SLTLoopBound, bound.mapNodes id = bound := by
    intro bound
    cases bound <;> rfl
  have hresult : ∀ result : SLTForFoldResult A, result.mapAddr id id = result := by
    intro result
    cases result <;> rfl
  have heffect : SLTForEffect.mapNodes id = id := by
    funext effect
    cases effect <;> simp [SLTForEffect.mapNodes]
  have hupdate : SLTForUpdate.mapAddr (id : A → A) id = id := rfl
  have hstate : SLTForFoldGroupState.mapAddr (id : A → A) id = id := rfl
  cases node <;> simp [mapAddr, hbound, hresult, heffect, hupdate, hstate]

theorem nodeMeaning_congr {node : SLTNode A} {meaning meaning' : NodeId → (A → R) → V}
    (h : ∀ child ∈ node.children, meaning child = meaning' child) :
    nodeMeaning alg node meaning = nodeMeaning alg node meaning' := by
  funext σ
  have hmap := @nodeMeaning_mapAddr A V R _ alg A _ id id meaning' meaning Function.injective_id node
    (fun child hchild σ => congrFun (h child hchild) σ) σ
  rwa [node.mapAddr_id] at hmap

theorem NodeArena.Sound.valueOf_eq {arena : NodeArena A} (h : arena.Sound) {id : NodeId}
    {node : SLTNode A} (hat : arena.nodes[id]? = some node) :
    arena.valueOf alg id = nodeMeaning alg node (arena.valueOf alg) := by
  unfold NodeArena.valueOf
  refine recurse_eq (fun id node hat child => h.child_lt hat) (fun _ _ _ _ hsame => ?_) hat
  exact nodeMeaning_congr hsame

end Meaning

/-! ## Mapped trees mean what the trees do

What the cache has is mapped as a whole: the node is in the target with its children where the cache says.
So the values agree by induction on the tree, whatever else is appended to the target. -/

/-! ## Appending a mapped node -/

section Append
variable {A B : Type} {f : A → B} {mapped : NodeId → NodeId} {widths widths' : List Nat}

theorem foldlM_ok_congr {α β ε : Type} {step step' : β → α → Except ε β} {l : List α}
    (h : ∀ x ∈ l, ∀ b b', step b x = .ok b' → step' b x = .ok b') {b b' : β}
    (hok : l.foldlM step b = .ok b') : l.foldlM step' b = .ok b' := by
  induction l generalizing b with
  | nil => exact hok
  | cons x l ih =>
    rw [List.foldlM_cons] at hok ⊢
    obtain ⟨mid, hmid, hrest⟩ := bind_eq_ok.mp hok
    exact bind_eq_ok.mpr ⟨mid, h x (List.mem_cons_self ..) b mid hmid,
      ih (fun y hy => h y (List.mem_cons_of_mem _ hy)) hrest⟩

theorem checkedAccessWidth_node {nodeId nodeId' : NodeId} {access : BitAccess} {role : String}
    {width : Nat} (h : checkedAccessWidth nodeId access role = .ok width) :
    checkedAccessWidth nodeId' access role = .ok width :=
  ruleError_ok.mpr (ruleError_ok.mp h)

theorem packedGroupWidth_node {nodeId nodeId' : NodeId} {accesses : List BitAccess} {width : Nat}
    (h : packedGroupWidth nodeId accesses = .ok width) :
    packedGroupWidth nodeId' accesses = .ok width := by
  refine foldlM_ok_congr (fun entry _ total total' hstep => ?_) h
  obtain ⟨width, hwidth, hadd⟩ := bind_eq_ok.mp hstep
  refine bind_eq_ok.mpr ⟨width, checkedAccessWidth_node hwidth, ?_⟩
  unfold addPackedWidth at hadd ⊢
  split at hadd
  · exact hadd
  · cases hadd

/-- An append accepts the mapped node as well, with the same width. -/
theorem verifyAppend_mapAddr {node : SLTNode A} {width : Nat}
    (h : verifyAppend node widths = .ok width)
    (hchildren : ∀ child ∈ node.children, widths'[mapped child]? = widths[child]?) :
    verifyAppend (node.mapAddr f mapped) widths' = .ok width := by
  have hexists : ∀ child ∈ (node.mapAddr f mapped).children, child < widths'.length := by
    intro child hchild
    rw [SLTNode.children_mapAddr] at hchild
    obtain ⟨old, hold, rfl⟩ := List.mem_map.mp hchild
    have hlt := (verifyAppend_ok h).1 old hold
    have hsame := hchildren old hold
    rw [List.getElem?_eq_getElem hlt] at hsame
    exact (List.getElem?_eq_some_iff.mp hsame).1
  have hwidth : ∀ child ∈ node.children, ∀ w, appendChildWidth widths child = .ok w →
      appendChildWidth widths' (mapped child) = .ok w := by
    intro child hchild w hw
    unfold appendChildWidth at hw ⊢
    rw [hchildren child hchild]
    split at hw
    · exact hw
    · cases hw
  cases node with
  | input variable_ signed index access =>
    obtain ⟨_, -, haccess⟩ := bind_eq_ok.mp h
    exact bind_eq_ok.mpr ⟨(), checkChildren_eq hexists, checkedAccessWidth_node haccess⟩
  | constant => exact h
  | binary lhs op rhs =>
    obtain ⟨lhsWidth, hlhs, h⟩ := bind_eq_ok.mp h
    obtain ⟨rhsWidth, hrhs, h⟩ := bind_eq_ok.mp h
    exact bind_eq_ok.mpr ⟨lhsWidth, hwidth lhs (by simp [SLTNode.children]) _ hlhs,
      bind_eq_ok.mpr ⟨rhsWidth, hwidth rhs (by simp [SLTNode.children]) _ hrhs, h⟩⟩
  | unary op inner =>
    obtain ⟨innerWidth, hinner, h⟩ := bind_eq_ok.mp h
    exact bind_eq_ok.mpr ⟨innerWidth, hwidth inner (by simp [SLTNode.children]) _ hinner, h⟩
  | mux cond thenExpr elseExpr =>
    obtain ⟨condWidth, hcond, h⟩ := bind_eq_ok.mp h
    obtain ⟨thenWidth, hthen, h⟩ := bind_eq_ok.mp h
    obtain ⟨elseWidth, helse, h⟩ := bind_eq_ok.mp h
    exact bind_eq_ok.mpr ⟨condWidth, hwidth cond (by simp [SLTNode.children]) _ hcond,
      bind_eq_ok.mpr ⟨thenWidth, hwidth thenExpr (by simp [SLTNode.children]) _ hthen,
        bind_eq_ok.mpr ⟨elseWidth, hwidth elseExpr (by simp [SLTNode.children]) _ helse, h⟩⟩⟩
  | forFold loopVar loopWidth loopSigned start stop inclusive step stepOp reverse result initials
      updates effects continueCond =>
    obtain ⟨_, -, h⟩ := bind_eq_ok.mp h
    refine bind_eq_ok.mpr ⟨(), checkChildren_eq hexists, ?_⟩
    cases result with
    | state target => exact checkedAccessWidth_node h
    | transient initial update =>
      obtain ⟨initialWidth, hinitial, h⟩ := bind_eq_ok.mp h
      obtain ⟨updateWidth, hupdate, h⟩ := bind_eq_ok.mp h
      obtain ⟨_, hsame, h⟩ := bind_eq_ok.mp h
      exact bind_eq_ok.mpr ⟨initialWidth,
        hwidth initial (by simp [SLTNode.children, SLTForFoldResult.children]) _ hinitial,
        bind_eq_ok.mpr ⟨updateWidth,
          hwidth update (by simp [SLTNode.children, SLTForFoldResult.children]) _ hupdate,
          bind_eq_ok.mpr ⟨(), ensure_ok.mpr (ensure_ok.mp hsame), h⟩⟩⟩
  | forFoldGroup loopVar loopWidth loopSigned start step tripCount entryGuard states =>
    obtain ⟨_, -, h⟩ := bind_eq_ok.mp h
    refine bind_eq_ok.mpr ⟨(), checkChildren_eq hexists, ?_⟩
    rw [List.map_map]
    exact packedGroupWidth_node h
  | concat parts =>
    change (parts.map fun part => (mapped part.1, part.2)).foldlM _ 0 = _
    rw [List.foldlM_map]
    refine foldlM_ok_congr (fun part hpart total total' hstep => ?_) h
    obtain ⟨w, hw, hadd⟩ := bind_eq_ok.mp hstep
    exact bind_eq_ok.mpr ⟨w, hwidth part.1 (List.mem_map.mpr ⟨part, hpart, rfl⟩) w hw,
      ruleError_ok.mpr (ruleError_ok.mp hadd)⟩
  | slice expr access =>
    obtain ⟨exprWidth, hexpr, h⟩ := bind_eq_ok.mp h
    exact bind_eq_ok.mpr ⟨exprWidth, hwidth expr (by simp [SLTNode.children]) _ hexpr,
      checkedAccessWidth_node h⟩
  | capture expr key => exact hwidth expr (by simp [SLTNode.children]) _ h

/-- An append that is accepted has the node in the arena, after an old one or at the end. -/
theorem NodeArena.Sound.alloc_spec [DecidableEq B] {arena : NodeArena B} (h : arena.Sound)
    {node : SLTNode B} {width : Nat} (hok : verifyAppend node arena.widths = .ok width) :
    ∃ id, (arena.alloc node).2 = .ok id ∧ (arena.alloc node).1.nodes[id]? = some node ∧
      (arena.alloc node).1.width id = width := by
  unfold NodeArena.alloc
  cases hcache : arena.cache node with
  | some old =>
    have hat := ((h.cache node old).mp hcache).1
    refine ⟨old, rfl, hat, ?_⟩
    have hold := @verifyAppend_mapAddr B B id id _ arena.widths node _ (h.width old node hat)
      fun child hchild => (List.getElem?_take_of_lt (h.child_lt hat hchild)).symm
    rw [SLTNode.mapAddr_id, hok] at hold
    exact (Except.ok.inj hold).symm
  | none =>
    rw [hok]
    refine ⟨arena.nodes.length, rfl, by simp, ?_⟩
    simp [NodeArena.width, ← h.widths_length]

/-- An append leaves what is there. -/
theorem NodeArena.alloc_prefix [DecidableEq B] (arena : NodeArena B) (node : SLTNode B) :
    arena.nodes <+: (arena.alloc node).1.nodes ∧ arena.widths <+: (arena.alloc node).1.widths := by
  unfold NodeArena.alloc
  cases arena.cache node with
  | some old => exact ⟨List.prefix_rfl, List.prefix_rfl⟩
  | none =>
    cases verifyAppend node arena.widths with
    | error error => exact ⟨List.prefix_rfl, List.prefix_rfl⟩
    | ok width => exact ⟨List.prefix_append .., List.prefix_append ..⟩

theorem NodeArena.Sound.widths_getElem? {arena : NodeArena B} (h : arena.Sound) {id : NodeId}
    {node : SLTNode B} (hat : arena.nodes[id]? = some node) :
    arena.widths[id]? = some (arena.width id) := by
  have hlt := (List.getElem?_eq_some_iff.mp hat).1
  rw [← h.widths_length] at hlt
  simp [NodeArena.width, List.getElem?_eq_getElem hlt]

end Append

/-! ## The cache -/

section Cache
variable {A B : Type} {source : NodeArena A} {f : A → B} {m m' m'' : Mapping B}

/-- What the cache has is mapped as a whole, with its width. -/
structure Consistent (source : NodeArena A) (f : A → B) (m : Mapping B) : Prop where
  sound : m.target.Sound
  mapped : ∀ node id, m.cache node = some id → ∃ tree, source.nodes[node]? = some tree ∧
    (∀ child ∈ tree.children, (m.cache child).isSome) ∧
    m.target.nodes[id]? = some (tree.mapAddr f m.mapped) ∧ m.target.width id = source.width node

/-- Nothing that is mapped moves. -/
structure Grown (m m' : Mapping B) : Prop where
  nodes : m.target.nodes <+: m'.target.nodes
  widths : m.target.widths <+: m'.target.widths
  cache : ∀ node id, m.cache node = some id → m'.cache node = some id

theorem Grown.refl (m : Mapping B) : Grown m m :=
  ⟨List.prefix_rfl, List.prefix_rfl, fun _ _ h => h⟩

theorem Grown.trans (h : Grown m m') (h' : Grown m' m'') : Grown m m'' :=
  ⟨h.nodes.trans h'.nodes, h.widths.trans h'.widths,
    fun node id hat => h'.cache node id (h.cache node id hat)⟩

theorem Grown.isSome (h : Grown m m') {node : NodeId} (hat : (m.cache node).isSome) :
    (m'.cache node).isSome := by
  obtain ⟨id, hid⟩ := Option.isSome_iff_exists.mp hat
  exact Option.isSome_iff_exists.mpr ⟨id, h.cache node id hid⟩

theorem Grown.mapped_eq (h : Grown m m') {node : NodeId} (hat : (m.cache node).isSome) :
    m'.mapped node = m.mapped node := by
  obtain ⟨id, hid⟩ := Option.isSome_iff_exists.mp hat
  rw [Mapping.mapped, Mapping.mapped, hid, h.cache node id hid]

theorem getElem?_of_prefix {X : Type} {l l' : List X} (h : l <+: l') {i : Nat} {x : X}
    (hat : l[i]? = some x) : l'[i]? = some x := by
  obtain ⟨hlt, rfl⟩ := List.getElem?_eq_some_iff.mp hat
  exact List.prefix_iff_getElem?.mp h i hlt

/-- What was mapped stays so. -/
theorem Consistent.grown (h : Consistent source f m) (hgrown : Grown m m') {node id : NodeId}
    (hat : m.cache node = some id) : ∃ tree, source.nodes[node]? = some tree ∧
      (∀ child ∈ tree.children, (m'.cache child).isSome) ∧
      m'.target.nodes[id]? = some (tree.mapAddr f m'.mapped) ∧
      m'.target.width id = source.width node := by
  obtain ⟨tree, htree, hchildren, hmapped, hwidth⟩ := h.mapped node id hat
  refine ⟨tree, htree, fun child hchild => hgrown.isSome (hchildren child hchild), ?_, ?_⟩
  · rw [SLTNode.mapAddr_congr fun child hchild => hgrown.mapped_eq (hchildren child hchild)]
    exact getElem?_of_prefix hgrown.nodes hmapped
  · rw [← hwidth]
    have hsame := getElem?_of_prefix hgrown.widths (h.sound.widths_getElem? hmapped)
    rw [NodeArena.width, List.getD_eq_getElem?_getD, hsame, Option.getD_some]

variable [DecidableEq B]

/-- A node goes behind its children. -/
theorem Consistent.finish (hsource : source.Sound) (h : Consistent source f m) {current : NodeId}
    {node : SLTNode A} (hat : source.nodes[current]? = some node)
    (hchildren : ∀ child ∈ node.children, (m.cache child).isSome) (hnew : m.cache current = none) :
    ∃ m', m.finish f current node = (m', .ok ()) ∧ Consistent source f m' ∧ Grown m m' ∧
      (m'.cache current).isSome := by
  have hwidths : ∀ child ∈ node.children,
      m.target.widths[m.mapped child]? = (source.widths.take current)[child]? := by
    intro child hchild
    obtain ⟨id, hid⟩ := Option.isSome_iff_exists.mp (hchildren child hchild)
    obtain ⟨tree, htree, -, hmapped, hwidth⟩ := h.mapped child id hid
    rw [List.getElem?_take_of_lt (hsource.child_lt hat hchild), hsource.widths_getElem? htree,
      Mapping.mapped, hid, Option.getD_some, h.sound.widths_getElem? hmapped, hwidth]
  obtain ⟨id, hid, hnode, hwidth⟩ := h.sound.alloc_spec
    (@verifyAppend_mapAddr A B f m.mapped _ _ node _ (hsource.width current node hat) hwidths)
  have hstarts := m.target.alloc_prefix (node.mapAddr f m.mapped)
  have hsound := h.sound.alloc (node.mapAddr f m.mapped)
  unfold Mapping.finish
  generalize m.target.alloc (node.mapAddr f m.mapped) = result at *
  obtain ⟨target, answer⟩ := result
  obtain rfl : answer = .ok id := hid
  have hgrown : Grown m ⟨target, Function.update m.cache current (some id)⟩ := by
    refine ⟨hstarts.1, hstarts.2, fun other old hold => ?_⟩
    have hne : other ≠ current := fun heq => by simp [heq, hnew] at hold
    exact (Function.update_of_ne hne ..).trans hold
  refine ⟨_, rfl, ⟨hsound, fun other place hplace => ?_⟩, hgrown, by simp⟩
  rcases eq_or_ne other current with rfl | hne
  · obtain rfl : id = place := by simpa using hplace
    refine ⟨node, hat, fun child hchild => hgrown.isSome (hchildren child hchild), ?_, hwidth⟩
    rw [SLTNode.mapAddr_congr fun child hchild => hgrown.mapped_eq (hchildren child hchild)]
    exact hnode
  · exact h.grown hgrown ((Function.update_of_ne hne ..).symm.trans hplace)

end Cache

/-! ## The loop -/

section Loop
variable {A B : Type} [DecidableEq B] {source : NodeArena A} {f : A → B} {m m' m'' : Mapping B}

/-- The loop works off the items and has mapped the nodes then. -/
structure Works (source : NodeArena A) (f : A → B) (items : List (NodeId × Bool)) (turns : Nat)
    (nodes : List NodeId) (m m' : Mapping B) : Prop where
  consistent : Consistent source f m'
  grown : Grown m m'
  mapped : ∀ node ∈ nodes, (m'.cache node).isSome
  runs : ∃ k ≤ turns, ∀ fuel work,
    mapLoop source f (fuel + k) (items ++ work) m = mapLoop source f fuel work m'

theorem Works.append {items items' : List (NodeId × Bool)} {turns turns' : Nat}
    {nodes nodes' : List NodeId} (h : Works source f items turns nodes m m')
    (h' : Works source f items' turns' nodes' m' m'') :
    Works source f (items ++ items') (turns + turns') (nodes ++ nodes') m m'' := by
  obtain ⟨k, hk, hruns⟩ := h.runs
  obtain ⟨k', hk', hruns'⟩ := h'.runs
  refine ⟨h'.consistent, h.grown.trans h'.grown, fun node hnode => ?_, k + k', by omega,
    fun fuel work => ?_⟩
  · rcases List.mem_append.mp hnode with hnode | hnode
    · exact h'.grown.isSome (h.mapped node hnode)
    · exact h'.mapped node hnode
  · rw [List.append_assoc, show fuel + (k + k') = fuel + k' + k by omega, hruns, hruns']

/-- One node after another. -/
theorem works_all {turns : NodeId → Nat} {nodes : List NodeId}
    (hnode : ∀ node ∈ nodes, ∀ m, Consistent source f m →
      ∃ m', Works source f [(node, false)] (turns node) [node] m m')
    (h : Consistent source f m) :
    ∃ m', Works source f (nodes.map (·, false)) (nodes.map turns).sum nodes m m' := by
  induction nodes generalizing m with
  | nil =>
    exact ⟨m, h, Grown.refl m, by simp, 0, le_rfl, fun _ _ => rfl⟩
  | cons node nodes ih =>
    obtain ⟨m', hfirst⟩ := hnode node (List.mem_cons_self ..) m h
    obtain ⟨m'', hrest⟩ := ih (fun other hmem => hnode other (List.mem_cons_of_mem _ hmem))
      hfirst.consistent
    exact ⟨m'', hfirst.append hrest⟩

omit [DecidableEq B] in
theorem NodeArena.Sound.mapTurns_eq (hsource : source.Sound) {id : NodeId} {node : SLTNode A}
    (hat : source.nodes[id]? = some node) :
    mapTurns source id = (node.mappedChildren.map (mapTurns source)).sum + 2 := by
  refine recurse_eq (fun id node hat child => hsource.child_lt hat) (fun _ _ _ _ hsame => ?_) hat
  congr 2
  exact List.map_congr_left fun child hchild => hsame child (SLTNode.mem_mappedChildren.mp hchild)

theorem works_cached (h : Consistent source f m) {node : NodeId} (hat : (m.cache node).isSome)
    {turns : Nat} (hturns : 1 ≤ turns) : Works source f [(node, false)] turns [node] m m := by
  refine ⟨h, Grown.refl m, by simpa using hat, 1, hturns, fun fuel work => ?_⟩
  rw [List.singleton_append, mapLoop, if_pos hat]

/-- A node is expanded, its children are worked off, and it comes up again. -/
theorem works_node (hsource : source.Sound) {node : NodeId} (hnode : node < source.nodes.length)
    (h : Consistent source f m) :
    ∃ m', Works source f [(node, false)] (mapTurns source node) [node] m m' := by
  induction node using Nat.strong_induction_on generalizing m with
  | _ node ih =>
    have hat := List.getElem?_eq_getElem hnode
    generalize source.nodes[node] = tree at hat
    have hturns := hsource.mapTurns_eq hat
    by_cases hcached : (m.cache node).isSome
    · exact ⟨m, works_cached h hcached (by omega)⟩
    have hnone : m.cache node = none := by simpa using hcached
    obtain ⟨m', hbelow⟩ := @works_all A B _ source f m (mapTurns source) tree.mappedChildren
      (fun child hchild m hm => by
        have hlt := hsource.child_lt hat (SLTNode.mem_mappedChildren.mp hchild)
        exact ih child hlt (Nat.lt_trans hlt hnode) hm) h
    obtain ⟨k, hk, hruns⟩ := hbelow.runs
    have hexpand : ∀ fuel work, mapLoop source f (fuel + 1 + k + 1) ((node, false) :: work) m =
        mapLoop source f (fuel + 1) ((node, true) :: work) m' := by
      intro fuel work
      rw [mapLoop, if_neg hcached, hat]
      exact hruns (fuel + 1) ((node, true) :: work)
    by_cases hagain : (m'.cache node).isSome
    · refine ⟨m', hbelow.consistent, hbelow.grown, by simpa using hagain, k + 2, by omega,
        fun fuel work => ?_⟩
      rw [List.singleton_append, show fuel + (k + 2) = fuel + 1 + k + 1 by omega, hexpand, mapLoop,
        if_pos hagain]
    · obtain ⟨m'', hfinish, hconsistent, hgrown, hmapped⟩ := hbelow.consistent.finish hsource hat
        (fun child hchild => hbelow.mapped child (SLTNode.mem_mappedChildren.mpr hchild))
        (by simpa using hagain)
      refine ⟨m'', hconsistent, hbelow.grown.trans hgrown, by simpa using hmapped, k + 2, by omega,
        fun fuel work => ?_⟩
      rw [List.singleton_append, show fuel + (k + 2) = fuel + 1 + k + 1 by omega, hexpand, mapLoop,
        if_neg hagain, hat]
      simp only [if_true, hfinish]

theorem mapAddr_spec (hsource : source.Sound) (h : Consistent source f m) {root : NodeId}
    (hroot : root < source.nodes.length) :
    ∃ id, (mapAddr source f m root).2 = .ok id ∧
      Consistent source f (mapAddr source f m root).1 ∧ Grown m (mapAddr source f m root).1 ∧
      (mapAddr source f m root).1.cache root = some id := by
  unfold mapAddr
  cases hcached : m.cache root with
  | some id => exact ⟨id, rfl, h, Grown.refl m, hcached⟩
  | none =>
    obtain ⟨m', hworks⟩ := works_node hsource hroot h
    obtain ⟨k, hk, hruns⟩ := hworks.runs
    have hloop : mapLoop source f (mapTurns source root) [(root, false)] m = (m', .ok ()) := by
      have hrun := hruns (mapTurns source root - k) []
      rw [Nat.sub_add_cancel hk] at hrun
      rw [← List.append_nil [(root, false)], hrun]
      cases mapTurns source root - k <;> rfl
    obtain ⟨id, hid⟩ := Option.isSome_iff_exists.mp (hworks.mapped root (List.mem_singleton_self _))
    simp only [hloop]
    refine ⟨id, ?_, hworks.consistent, hworks.grown, hid⟩
    simp [Except.map, Mapping.mapped, hid]

end Loop

/-! ## One cache for many roots -/

section Shared
variable {A B : Type} [DecidableEq B] (source : NodeArena A) (f : A → B)

/-- Roots are mapped with one cache, and other nodes are appended between; the answers so far. -/
inductive Shared : Mapping B → List (NodeId × NodeId) → Prop
  | start {target : NodeArena B} (htarget : target.Sound) : Shared ⟨target, fun _ => none⟩ []
  | map {m : Mapping B} {answers : List (NodeId × NodeId)} (h : Shared m answers) {root id : NodeId}
      (hroot : root < source.nodes.length) (hid : (mapAddr source f m root).2 = .ok id) :
      Shared (mapAddr source f m root).1 ((root, id) :: answers)
  | alloc {m : Mapping B} {answers : List (NodeId × NodeId)} (h : Shared m answers)
      (node : SLTNode B) : Shared ⟨(m.target.alloc node).1, m.cache⟩ answers

variable {source f} {m : Mapping B} {answers : List (NodeId × NodeId)}

theorem Shared.consistent (hsource : source.Sound) (h : Shared source f m answers) :
    Consistent source f m ∧ ∀ answer ∈ answers, m.cache answer.1 = some answer.2 := by
  induction h with
  | start htarget => exact ⟨⟨htarget, fun _ _ hat => nomatch hat⟩, fun _ hmem => nomatch hmem⟩
  | map _ hroot hid ih =>
    obtain ⟨id, hok, hconsistent, hgrown, hat⟩ := mapAddr_spec hsource ih.1 hroot
    obtain rfl := Except.ok.inj (hok.symm.trans hid)
    refine ⟨hconsistent, List.forall_mem_cons.mpr ⟨hat, fun answer hanswer => ?_⟩⟩
    exact hgrown.cache _ _ (ih.2 answer hanswer)
  | @alloc m _ _ node ih =>
    have hstarts := m.target.alloc_prefix node
    have hgrown : Grown m ⟨(m.target.alloc node).1, m.cache⟩ :=
      ⟨hstarts.1, hstarts.2, fun _ _ hat => hat⟩
    exact ⟨⟨ih.1.sound.alloc node, fun other id hat => ih.1.grown hgrown hat⟩, ih.2⟩

variable [DecidableEq A]

/-- By induction on the tree. -/
theorem Consistent.valueOf_eq (hf : Function.Injective f) (hsource : source.Sound)
    (h : Consistent source f m) {V R : Type} (alg : Algebra V R) {node id : NodeId}
    (hat : m.cache node = some id) (σ : B → R) :
    m.target.valueOf alg id σ = source.valueOf alg node (σ ∘ f) := by
  induction node using Nat.strong_induction_on generalizing id σ with
  | _ node ih =>
    obtain ⟨tree, htree, hchildren, hmapped, -⟩ := h.mapped node id hat
    rw [h.sound.valueOf_eq hmapped, hsource.valueOf_eq htree]
    refine nodeMeaning_mapAddr hf (fun child hchild σ => ?_) σ
    obtain ⟨place, hplace⟩ := Option.isSome_iff_exists.mp (hchildren child hchild)
    rw [Mapping.mapped, hplace]
    exact ih child (hsource.child_lt htree hchild) hplace σ

/-- Every root of the source is mapped, whatever has been mapped with the same cache, and what a root
was mapped to has the value of the root under the assignment of the variables it was mapped from. -/
theorem mapAddr_commutes (hf : Function.Injective f) (hsource : source.Sound)
    (h : Shared source f m answers) :
    (∀ root < source.nodes.length, ∃ id, (mapAddr source f m root).2 = .ok id ∧
      ∀ (V R : Type) (alg : Algebra V R) (s : B → R),
        (mapAddr source f m root).1.target.valueOf alg id s = source.valueOf alg root (s ∘ f)) ∧
      ∀ answer ∈ answers, ∀ (V R : Type) (alg : Algebra V R) (s : B → R),
        m.target.valueOf alg answer.2 s = source.valueOf alg answer.1 (s ∘ f) := by
  obtain ⟨hconsistent, hanswers⟩ := h.consistent hsource
  refine ⟨fun root hroot => ?_, fun answer hanswer V R alg s => ?_⟩
  · obtain ⟨id, hok, hmapped, -, hat⟩ := mapAddr_spec hsource hconsistent hroot
    exact ⟨id, hok, fun V R alg s => hmapped.valueOf_eq hf hsource alg hat s⟩
  · exact hconsistent.valueOf_eq hf hsource alg (hanswers answer hanswer) s

/-- Variable `5` is summed up with counter `6`. -/
def sumLoop : NodeArena Nat :=
  [.input 5 false [] ⟨0, 7⟩, .input 6 false [] ⟨0, 7⟩, .binary 0 .add 1, .constant 1 0 1 false,
    .forFold 6 8 false (.const 0) (.const 4) false 1 .add false (.state ⟨5, ⟨0, 7⟩⟩)
      [⟨⟨5, ⟨0, 7⟩⟩, 0⟩] [⟨⟨5, ⟨0, 7⟩⟩, 2⟩] [] 3].foldl (fun arena node => (arena.alloc node).1) .new

theorem mapAddr_commutes_sumLoop :
    (mapAddr sumLoop (· + 10) ⟨.new, fun _ => none⟩ 4).2 = .ok 4 ∧
      ∀ (V R : Type) (alg : Algebra V R) (s : Nat → R),
        (mapAddr sumLoop (· + 10) ⟨.new, fun _ => none⟩ 4).1.target.valueOf alg 4 s =
          sumLoop.valueOf alg 4 (s ∘ (· + 10)) := by
  have hsource : sumLoop.Sound :=
    ((((NodeArena.new_sound.alloc _).alloc _).alloc _).alloc _).alloc _
  have hanswer : (mapAddr sumLoop (· + 10) ⟨.new, fun _ => none⟩ 4).2 = .ok 4 := by rfl
  refine ⟨hanswer, (mapAddr_commutes (add_left_injective 10) hsource
    (.map (.start NodeArena.new_sound) (by decide) hanswer)).2 (4, 4) (List.mem_singleton_self _)⟩

end Shared
end Celox.Slt
