import Celox.Opt.StateSsaGraph

/-! # The registers of the effects

Sorting, dropping repeated slots and renumbering leave a register at the slot of the location that
its load or store is at. -/
namespace Celox.Opt.StateVersions
open Celox.Sir Celox.Layout Celox.Opt

/-! ## One effect for a key -/

theorem exists_mem_destutter' {α κ : Type} [DecidableEq κ] (key : α → κ) (l : List α) (a : α) :
    ∀ x ∈ a :: l, ∃ y ∈ l.destutter' (key · ≠ key ·) a, key y = key x := by
  induction l generalizing a with
  | nil => simp
  | cons b l ih =>
    intro x hx
    by_cases hab : key a ≠ key b
    · rw [List.destutter'_cons, if_pos hab]
      rcases List.mem_cons.mp hx with rfl | hx
      · exact ⟨x, List.mem_cons_self .., rfl⟩
      · obtain ⟨y, hy, heq⟩ := ih b x hx
        exact ⟨y, List.mem_cons_of_mem _ hy, heq⟩
    · rw [List.destutter'_cons, if_neg hab]
      rcases List.mem_cons.mp hx with rfl | hx
      · exact ih x x (List.mem_cons_self ..)
      · rcases List.mem_cons.mp hx with rfl | hx
        · obtain ⟨y, hy, heq⟩ := ih a a (List.mem_cons_self ..)
          exact ⟨y, hy, heq.trans (not_not.mp hab)⟩
        · exact ih a x (List.mem_cons_of_mem _ hx)

/-- An element that is alone with its key is kept. -/
theorem mem_destutter {α κ : Type} [DecidableEq κ] {key : α → κ} {l : List α} {x : α} (hx : x ∈ l)
    (halone : ∀ y ∈ l, key y = key x → y = x) : x ∈ l.destutter (key · ≠ key ·) := by
  cases l with
  | nil => cases hx
  | cons a l =>
    obtain ⟨y, hy, heq⟩ := exists_mem_destutter' key l a x hx
    rw [List.destutter_cons']
    have hmem := (List.destutter'_sublist _ _ a).subset hy
    exact halone y hmem heq ▸ hy

theorem lookup_iff_mem {κ β : Type} [BEq κ] [LawfulBEq κ] {l : List (κ × β)} {k : κ}
    (halone : ∀ e e', (k, e) ∈ l → (k, e') ∈ l → e' = e) {e : β} :
    l.lookup k = some e ↔ (k, e) ∈ l := by
  have hmem : ∀ e', l.lookup k = some e' → (k, e') ∈ l := by
    intro e' h
    obtain ⟨before, after, rfl, -⟩ := List.lookup_eq_some_iff.mp h
    simp
  refine ⟨hmem e, fun h => ?_⟩
  cases hfound : l.lookup k with
  | none => simpa using List.lookup_eq_none_iff.mp hfound (k, e) h
  | some e' => rw [halone e e' h (hmem e' hfound)]

/-! ## The effects of an instruction -/

section Effects
variable {A : Type} [LinearOrder A] {eu : ExecutionUnit (RegionedAbsoluteAddr A)} {cfg : SirCfg}
  {sel : Selection} {locations : List (StateLocation A)} {b : BlockId} {slot : Nat}
  {inst : SIRInstruction (RegionedAbsoluteAddr A)} {reg : RegisterId} {selected : List Nat}

variable (sel locations b inst reg) in
/-- The instruction is a load that is asked for or a store, exact at the location of a slot. -/
def ExactAt (slot : Nat) : Prop :=
  ∃ location, locations[slot]? = some location ∧
    (loadAt sel b inst = some (location, reg) ∨ storeAt sel inst = some (location, reg))

omit [LinearOrder A] in
theorem loadAt_register {addr : RegionedAbsoluteAddr A} {offset : SIROffset} {width : Nat}
    {destination : RegisterId} {location : StateLocation A}
    (h : loadAt sel b (.load destination addr offset width) = some (location, reg)) :
    destination = reg ∧ addr.region = sel.region ∧ sel.uses b destination = true := by
  simp only [loadAt] at h
  split at h
  · rename_i hcond
    rw [Bool.and_eq_true, decide_eq_true_eq] at hcond
    refine ⟨?_, hcond⟩
    cases offset <;> simp_all
  · cases h

omit [LinearOrder A] in
theorem storeAt_register {addr : RegionedAbsoluteAddr A} {offset : SIROffset} {width : Nat}
    {source : RegisterId} {triggers : List TriggerIdWithKind} {captureSites : List Nat}
    {location : StateLocation A}
    (h : storeAt sel (.store addr offset width source triggers captureSites) =
      some (location, reg)) : source = reg ∧ addr.region = sel.region := by
  simp only [storeAt] at h
  split at h
  · rename_i hcond
    refine ⟨?_, hcond⟩
    cases offset <;> simp_all
  · cases h

theorem rawEffects_shapes (hnodup : locations.Nodup) :
    (slot, some reg) ∈ (rawEffects sel locations b inst).shapes ↔
      ExactAt sel locations b inst reg slot := by
  cases inst with
  | load destination addr offset width =>
    have hstore : ∀ location, storeAt sel (.load destination addr offset width) ≠
        some (location, reg) := by simp [storeAt]
    simp only [ExactAt, hstore, or_false]
    constructor
    · intro h
      simp only [rawEffects] at h
      split at h
      · rename_i hregion
        split at h
        · rename_i slot' hexact
          by_cases huses : sel.uses b destination = true
          · simp only [InstructionEffects.shapes, if_pos huses, List.map_cons, List.map_nil,
              List.append_nil, List.mem_singleton, Prod.mk.injEq, Option.some.injEq] at h
            obtain ⟨rfl, rfl⟩ := h
            exact (exactSlot_load hnodup hregion huses).mp hexact
          · simp [InstructionEffects.shapes, huses] at h
        · simp [InstructionEffects.shapes] at h
      · simp [InstructionEffects.shapes] at h
    · rintro ⟨location, hloc, hat⟩
      obtain ⟨rfl, hregion, huses⟩ := loadAt_register hat
      have hexact := (exactSlot_load hnodup hregion huses).mpr ⟨location, hloc, hat⟩
      simp [rawEffects, hregion, hexact, huses, InstructionEffects.shapes]
  | store addr offset width source triggers captureSites =>
    have hload : ∀ location, loadAt sel b (.store addr offset width source triggers captureSites) ≠
        some (location, reg) := by simp [loadAt]
    simp only [ExactAt, hload, false_or]
    constructor
    · intro h
      simp only [rawEffects] at h
      split at h
      · rename_i hregion
        simp only [InstructionEffects.shapes, List.map_nil, List.nil_append, List.map_append,
          List.map_map, List.mem_append, List.mem_map, Option.mem_toList, Function.comp_apply,
          DefEffectKind.register, Prod.mk.injEq, Option.some.injEq, reduceCtorEq, and_false,
          exists_false, or_false] at h
        obtain ⟨slot', hexact, rfl, rfl⟩ := h
        exact (exactSlot_store hnodup hregion).mp hexact
      · simp [InstructionEffects.shapes] at h
    · rintro ⟨location, hloc, hat⟩
      obtain ⟨rfl, hregion⟩ := storeAt_register hat
      have hexact := (exactSlot_store hnodup hregion).mpr ⟨location, hloc, hat⟩
      simp [rawEffects, hregion, hexact, InstructionEffects.shapes, DefEffectKind.register]
  | commit source destination offset width triggers =>
    refine iff_of_false ?_ (by simp [ExactAt, loadAt, storeAt])
    simp only [rawEffects, InstructionEffects.shapes, List.mem_append, List.mem_map, Prod.mk.injEq,
      not_or, not_exists, not_and]
    constructor
    · intro e he
      split at he
      · obtain ⟨_, -, rfl⟩ := List.mem_map.mp he
        simp
      · cases he
    · intro e he
      split at he
      · obtain ⟨_, -, rfl⟩ := List.mem_map.mp he
        simp [DefEffectKind.register]
      · cases he
  | _ =>
    refine iff_of_false ?_ (by simp [ExactAt, loadAt, storeAt])
    simp [rawEffects, InstructionEffects.shapes]

/-- At most one effect of an instruction has a register, and no other is on its slot. -/
theorem rawEffects_alone {uses : UseEffect} {defs : DefEffect} :
    (uses ∈ (rawEffects sel locations b inst).uses →
      ∀ e ∈ (rawEffects sel locations b inst).uses, e = uses) ∧
    (defs ∈ (rawEffects sel locations b inst).defs → defs.kind.register = some reg →
      ∀ e ∈ (rawEffects sel locations b inst).defs, e.slot = defs.slot → e = defs) := by
  cases inst with
  | load destination addr offset width =>
    simp only [rawEffects]
    split
    · split
      · split <;> simp_all
      · simp
    · simp
  | store addr offset width source triggers captureSites =>
    simp only [rawEffects]
    split
    · refine ⟨by simp, fun hdef hreg e he hslot => ?_⟩
      simp only [List.mem_append, List.mem_map, Option.mem_toList, List.mem_filter,
        decide_eq_true_eq] at hdef he
      rcases hdef with ⟨slot, hexact, rfl⟩ | ⟨slot, -, rfl⟩
      · rcases he with ⟨slot', hexact', rfl⟩ | ⟨slot', ⟨-, hne⟩, rfl⟩
        · rw [hexact] at hexact'
          cases hexact'
          rfl
        · exact absurd (hexact.trans (congrArg some hslot.symm)).symm hne
      · cases hreg
    · simp
  | commit source destination offset width triggers =>
    simp only [rawEffects]
    refine ⟨fun huse e he => ?_, fun hdef hreg => ?_⟩
    · split at huse
      · rename_i hregion
        rw [if_pos hregion] at he
        simp only [List.mem_map, Option.mem_toList] at huse he
        obtain ⟨slot, hexact, rfl⟩ := huse
        obtain ⟨slot', hexact', rfl⟩ := he
        rw [hexact] at hexact'
        cases hexact'
        rfl
      · cases huse
    · split at hdef
      · obtain ⟨slot, -, rfl⟩ := List.mem_map.mp hdef
        cases hreg
      · cases hdef
  | _ => simp [rawEffects]

theorem sorted_shapes : (slot, some reg) ∈ (rawEffects sel locations b inst).sorted.shapes ↔
    (slot, some reg) ∈ (rawEffects sel locations b inst).shapes := by
  simp only [InstructionEffects.shapes, InstructionEffects.sorted, List.mem_append, List.mem_map,
    Prod.mk.injEq]
  constructor
  · rintro (⟨e, he, hshape⟩ | ⟨e, he, hshape⟩)
    · exact .inl ⟨e, List.mem_insertionSort _ |>.mp ((List.destutter_sublist _ _).subset he), hshape⟩
    · exact .inr ⟨e, List.mem_insertionSort _ |>.mp ((List.destutter_sublist _ _).subset he), hshape⟩
  · rintro (⟨e, he, hshape⟩ | ⟨e, he, hshape⟩)
    · refine .inl ⟨e, mem_destutter (List.mem_insertionSort _ |>.mpr he) fun e' he' _ => ?_, hshape⟩
      exact (@rawEffects_alone A _ sel locations b inst reg e ⟨0, .kill⟩).1 he e'
        (List.mem_insertionSort _ |>.mp he')
    · refine .inr ⟨e, mem_destutter (List.mem_insertionSort _ |>.mpr he) fun e' he' hkey => ?_, hshape⟩
      exact (@rawEffects_alone A _ sel locations b inst reg ⟨0, none⟩ e).2 he hshape.2 e'
        (List.mem_insertionSort _ |>.mp he') hkey

theorem remap_shapes {effects : InstructionEffects} :
    (slot, some reg) ∈ (effects.remap selected).shapes ↔ ∃ old ∈ selected,
      slot = selected.idxOf old ∧ (old, some reg) ∈ effects.shapes := by
  simp only [InstructionEffects.shapes, InstructionEffects.remap, List.mem_append, List.mem_map,
    List.mem_filter, decide_eq_true_eq, Prod.mk.injEq]
  constructor
  · rintro (⟨_, ⟨e, ⟨he, hin⟩, rfl⟩, hslot, hreg⟩ | ⟨_, ⟨e, ⟨he, hin⟩, rfl⟩, hslot, hreg⟩)
    · exact ⟨e.slot, hin, hslot.symm, .inl ⟨e, he, rfl, hreg⟩⟩
    · exact ⟨e.slot, hin, hslot.symm, .inr ⟨e, he, rfl, hreg⟩⟩
  · rintro ⟨old, hold, hslot, ⟨e, he, rfl, hreg⟩ | ⟨e, he, rfl, hreg⟩⟩
    · exact .inl ⟨_, ⟨e, ⟨he, hold⟩, rfl⟩, hslot.symm, hreg⟩
    · exact .inr ⟨_, ⟨e, ⟨he, hold⟩, rfl⟩, hslot.symm, hreg⟩

theorem shapes_ne_nil {effects : InstructionEffects} {shape : Nat × Option RegisterId}
    (h : shape ∈ effects.shapes) : effects.isEmpty = false := by
  obtain ⟨uses, defs⟩ := effects
  cases uses <;> cases defs <;> simp_all [InstructionEffects.shapes, InstructionEffects.isEmpty]

variable (eu cfg sel locations selected) in
/-- The effects on selected slots, by their new numbers. -/
def selectedEffects : Effects :=
  (collectEffects eu cfg sel locations).filterMap fun e =>
    let effects := e.2.remap selected
    if effects.isEmpty then none else some (e.1, effects)

theorem mem_selectedEffects {i : Nat} {effects : InstructionEffects} :
    ((b, i), effects) ∈ selectedEffects eu cfg sel locations selected ↔
      b ∈ cfg.blockIds ∧ ∃ inst, (instructionsOf eu b)[i]? = some inst ∧
        effects = (rawEffects sel locations b inst).sorted.remap selected ∧
          effects.isEmpty = false := by
  simp only [selectedEffects, collectEffects, List.mem_filterMap, List.mem_flatMap, Prod.exists,
    List.mem_zipIdx_iff_getElem?]
  constructor
  · rintro ⟨b', i', found, ⟨b'', hb, inst, i'', hinst, hfound⟩, heq⟩
    split at hfound
    · cases hfound
    · simp only [Option.some.injEq, Prod.mk.injEq] at hfound
      obtain ⟨⟨rfl, rfl⟩, rfl⟩ := hfound
      split at heq
      · cases heq
      · rename_i hnonempty
        simp only [Option.some.injEq, Prod.mk.injEq] at heq
        obtain ⟨⟨rfl, rfl⟩, rfl⟩ := heq
        exact ⟨hb, inst, hinst, rfl, by simpa using hnonempty⟩
  · rintro ⟨hb, inst, hinst, rfl, hnonempty⟩
    refine ⟨b, i, (rawEffects sel locations b inst).sorted, ⟨b, hb, inst, i, hinst, ?_⟩, ?_⟩
    · rw [if_neg]
      intro hempty
      revert hnonempty
      generalize (rawEffects sel locations b inst).sorted = sorted at hempty
      obtain ⟨uses, defs⟩ := sorted
      simp only [InstructionEffects.isEmpty, Bool.and_eq_true, List.isEmpty_iff] at hempty
      obtain ⟨rfl, rfl⟩ := hempty
      simp [InstructionEffects.remap, InstructionEffects.isEmpty]
    · rw [if_neg (by simp [hnonempty])]

/-- The registers at the places of the instructions. -/
theorem shapesAt_selected (hnodup : locations.Nodup) {i : Nat} (hb : b ∈ cfg.blockIds) :
    (slot, some reg) ∈ shapesAt (selectedEffects eu cfg sel locations selected) (b, i) ↔
      ∃ inst, (instructionsOf eu b)[i]? = some inst ∧ ∃ old ∈ selected,
        slot = selected.idxOf old ∧ ExactAt sel locations b inst reg old := by
  have hlookup : ∀ {effects : InstructionEffects},
      (selectedEffects eu cfg sel locations selected).lookup (b, i) = some effects ↔
        ((b, i), effects) ∈ selectedEffects eu cfg sel locations selected := by
    refine lookup_iff_mem fun e e' he he' => ?_
    obtain ⟨-, inst, hinst, rfl, -⟩ := mem_selectedEffects.mp he
    obtain ⟨-, inst', hinst', rfl, -⟩ := mem_selectedEffects.mp he'
    rw [hinst] at hinst'
    cases hinst'
    rfl
  constructor
  · intro h
    unfold shapesAt at h
    cases hfound : (selectedEffects eu cfg sel locations selected).lookup (b, i) with
    | none => simp [hfound] at h
    | some found =>
      rw [hfound, Option.map_some, Option.getD_some] at h
      obtain ⟨-, inst, hinst, rfl, -⟩ := mem_selectedEffects.mp (hlookup.mp hfound)
      obtain ⟨old, hold, hslot, hshape⟩ := remap_shapes.mp h
      exact ⟨inst, hinst, old, hold, hslot, (rawEffects_shapes hnodup).mp (sorted_shapes.mp hshape)⟩
  · rintro ⟨inst, hinst, old, hold, hslot, hexact⟩
    have hshape := remap_shapes.mpr ⟨old, hold, hslot,
      sorted_shapes.mpr ((rawEffects_shapes hnodup).mpr hexact)⟩
    have hfound := hlookup.mpr (mem_selectedEffects.mpr
      ⟨hb, inst, hinst, rfl, shapes_ne_nil hshape⟩)
    rw [shapesAt, hfound]
    exact hshape

end Effects
end Celox.Opt.StateVersions

/-! ## The types of the registers of a slot

A packed access is exact like a static one, but its register is not looked at when the types of a
location are recorded. So the registers of the slots have one type when the packed ones do. -/
namespace Celox.Opt.StateVersions
open Celox.Sir Celox.Layout Celox.Opt Celox.Data

section Types
variable {A : Type} [LinearOrder A] (eu : ExecutionUnit (RegionedAbsoluteAddr A)) (cfg : SirCfg)
  (sel : Selection)

/-- The register has the width, and the type when `bit` and `logic` are one in a two-state run. -/
def HasType (reg : RegisterId) (width : Nat) (ty : RegisterType) : Prop :=
  ∃ type, eu.registerMap.lookup reg = some type ∧ type.width = width ∧
    normalized sel.twoState width type = ty

/-- Sources of definitions and destinations of uses have the type of their slot. -/
def TypeConsistent (ssa : StateSsa A) : Prop :=
  ∀ access ∈ ssa.accesses, ∀ reg, access.kind.register = some reg →
    ∀ slot, ssa.slots[access.slot]? = some slot →
      HasType eu sel reg slot.fragment.width slot.ty

/-- A location whose recorded types are one, with a load that is asked for. -/
structure Promoted (location : StateLocation A) : Prop where
  recorded : typesAt eu (recorded eu cfg sel) location ≠ []
  width : location.width ≠ 0
  types : ∀ type ∈ typesAt eu (StateVersions.recorded eu cfg sel) location,
    type.width = location.width
  same : ∀ type ∈ typesAt eu (StateVersions.recorded eu cfg sel) location,
    ∀ type' ∈ typesAt eu (StateVersions.recorded eu cfg sel) location,
      normalized sel.twoState location.width type = normalized sel.twoState location.width type'
  loaded : ∃ b ∈ cfg.blockIds, ∃ inst ∈ instructionsOf eu b, ∃ reg,
    loadAt sel b inst = some (location, reg)
  stored : sel.includeReadOnly = true ∨ ∃ b ∈ cfg.blockIds, ∃ inst ∈ instructionsOf eu b, ∃ reg,
    storeAt sel inst = some (location, reg)

end Types

def SIROffset.isPacked : SIROffset → Bool
  | .packedElements .. => true
  | _ => false

def isPacked {A : Type} : SIRInstruction A → Bool
  | .load _ _ offset _ | .store _ offset _ _ _ _ => SIROffset.isPacked offset
  | _ => false

/-- The registers of packed accesses have the types recorded at their locations. -/
def PackedAgree {A : Type} [LinearOrder A] (eu : ExecutionUnit (RegionedAbsoluteAddr A))
    (cfg : SirCfg) (sel : Selection) : Prop :=
  ∀ b ∈ cfg.blockIds, ∀ inst ∈ instructionsOf eu b, isPacked inst = true → ∀ location reg,
    (loadAt sel b inst = some (location, reg) ∨ storeAt sel inst = some (location, reg)) →
    Promoted eu cfg sel location → ∀ type ∈ typesAt eu (recorded eu cfg sel) location,
      HasType eu sel reg location.width (normalized sel.twoState location.width type)

variable {A : Type} [LinearOrder A] {eu : ExecutionUnit (RegionedAbsoluteAddr A)} {cfg : SirCfg}
  {sel : Selection} {location : StateLocation A} {b : BlockId} {reg : RegisterId}
  {inst : SIRInstruction (RegionedAbsoluteAddr A)}

/-! ## Accesses that are recorded -/

omit [LinearOrder A] in
theorem mem_allInstructions (hb : b ∈ cfg.blockIds) (hinst : inst ∈ instructionsOf eu b) :
    inst ∈ allInstructions eu cfg :=
  List.mem_flatMap.mpr ⟨b, hb, hinst⟩

theorem mem_typesAt {accesses : List (StateLocation A × RegisterId)} {type : RegisterType} :
    type ∈ typesAt eu accesses location ↔ ∃ reg, (location, reg) ∈ accesses ∧
      eu.registerMap.lookup reg = some type := by
  simp only [typesAt, List.mem_filterMap, Prod.exists]
  constructor
  · rintro ⟨l, reg, hmem, htype⟩
    split at htype
    · rename_i heq
      exact ⟨reg, heq ▸ hmem, htype⟩
    · cases htype
  · rintro ⟨reg, hmem, htype⟩
    exact ⟨location, reg, hmem, by rw [if_pos rfl, htype]⟩

omit [LinearOrder A] in
/-- Dynamic locations are recorded for all loads together. -/
theorem discovered_dynamic (h : discovered sel inst = some (location, reg))
    (hdynamic : location.dynamic = true) :
    sel.includeReadOnly = true ∧ sel.eligibleLoads = none := by
  unfold discovered at h
  split at h
  · split at h <;> cases h
    cases hdynamic
  · split at h
    · rename_i hcond
      simp only [Bool.and_eq_true, Option.isNone_iff_eq_none] at hcond
      exact ⟨hcond.1.2, hcond.2⟩
    · cases h
  · split at h <;> cases h
    cases hdynamic
  · cases h

/-- A recorded location has an access that the first sweep records. -/
theorem exists_discovered (h : typesAt eu (recorded eu cfg sel) location ≠ []) :
    ∃ inst ∈ allInstructions eu cfg, ∃ reg, discovered sel inst = some (location, reg) := by
  obtain ⟨type, htype⟩ := List.exists_mem_of_ne_nil _ h
  obtain ⟨reg, hmem, -⟩ := mem_typesAt.mp htype
  have hfound : ∀ reg, (location, reg) ∈ (allInstructions eu cfg).filterMap (discovered sel) →
      ∃ inst ∈ allInstructions eu cfg, ∃ reg, discovered sel inst = some (location, reg) := by
    intro reg hmem
    obtain ⟨inst, hinst, heq⟩ := List.mem_filterMap.mp hmem
    exact ⟨inst, hinst, reg, heq⟩
  unfold recorded at hmem
  rcases List.mem_append.mp hmem with hmem | hmem
  · exact hfound reg hmem
  · split at hmem
    · have hwriter := (List.mem_filter.mp hmem).2
      rw [decide_eq_true_eq] at hwriter
      obtain ⟨⟨l, reg'⟩, hmem', rfl⟩ := hwriter
      exact hfound reg' hmem'
    · cases hmem

/-- All exact accesses at a recorded location but the packed ones are recorded. -/
theorem mem_recorded (hb : b ∈ cfg.blockIds) (hinst : inst ∈ instructionsOf eu b)
    (hpacked : isPacked inst = false) (h : typesAt eu (recorded eu cfg sel) location ≠ [])
    (hat : loadAt sel b inst = some (location, reg) ∨ storeAt sel inst = some (location, reg)) :
    (location, reg) ∈ recorded eu cfg sel := by
  have hall := mem_allInstructions hb hinst
  have hfound : discovered sel inst = some (location, reg) →
      (location, reg) ∈ recorded eu cfg sel := fun heq =>
    List.mem_append_left _ (List.mem_filterMap.mpr ⟨inst, hall, heq⟩)
  obtain ⟨inst', hinst', reg', hdiscovered⟩ := exists_discovered h
  rcases hat with hat | hat
  · cases inst with
    | load destination addr offset width =>
      obtain ⟨rfl, hregion, huses⟩ := loadAt_register hat
      have heligible : sel.eligible destination = true := (Bool.and_eq_true _ _ ▸ huses).2
      simp only [loadAt, hregion, huses, decide_true, Bool.and_self, if_true] at hat
      cases offset with
      | static bitOffset =>
        cases hat
        exact hfound (by simp [discovered, hregion, heligible])
      | packedElements bitOffset elementWidth => cases hpacked
      | dynamic offset =>
        cases hat
        obtain ⟨hreadOnly, hnone⟩ := discovered_dynamic hdiscovered rfl
        exact hfound (by simp [discovered, hregion, hreadOnly, hnone])
      | element elementIndex elementWidth bitOffset dynamicBitOffset =>
        cases hat
        obtain ⟨hreadOnly, hnone⟩ := discovered_dynamic hdiscovered rfl
        exact hfound (by simp [discovered, hregion, hreadOnly, hnone])
    | _ => cases hat
  · cases inst with
    | store addr offset width source triggers captureSites =>
      obtain ⟨rfl, hregion⟩ := storeAt_register hat
      simp only [storeAt, hregion, if_true] at hat
      cases offset with
      | static bitOffset =>
        cases hat
        cases hloads : sel.eligibleLoads with
        | none => exact hfound (by simp [discovered, hregion, hloads])
        | some loads =>
          -- the second sweep finds the location of `inst'`
          refine List.mem_append_right _ ?_
          rw [if_pos (by simp [hloads])]
          refine List.mem_filter.mpr ⟨List.mem_filterMap.mpr ⟨_, hall, by simp [writer, hregion]⟩, ?_⟩
          rw [decide_eq_true_eq]
          exact ⟨_, List.mem_filterMap.mpr ⟨inst', hinst', hdiscovered⟩, rfl⟩
      | packedElements bitOffset elementWidth => cases hpacked
      | _ => cases hat
    | _ => cases hat

/-! ## Slots and their locations -/

/-- What the choice of the slots gives: the number of a slot stands for a location. -/
structure Chosen (eu : ExecutionUnit (RegionedAbsoluteAddr A)) (cfg : SirCfg) (sel : Selection)
    (locations : List (StateLocation A)) (selected : List Nat) (slots : List (StateSsaSlot A)) :
    Prop where
  locations_nodup : locations.Nodup
  mem_locations : ∀ location, typesAt eu (recorded eu cfg sel) location ≠ [] →
    location ∈ locations
  mem_selected : ∀ old location, locations[old]? = some location →
    (old ∈ selected ↔ Promoted eu cfg sel location)
  slots : ∀ old ∈ selected, ∃ location slot, locations[old]? = some location ∧
    slots[selected.idxOf old]? = some slot ∧ slot.fragment.width = location.width ∧
      ∀ type ∈ typesAt eu (recorded eu cfg sel) location,
        slot.ty = normalized sel.twoState location.width type

theorem Records.selected_iff {types : List RegisterType} {raw : RawSlot} {width : Nat}
    (h : Records sel.twoState width types raw) : raw.invalid = false ↔ width ≠ 0 ∧
      (∀ type ∈ types, type.width = width) ∧ ∀ type ∈ types, ∀ type' ∈ types,
        normalized sel.twoState width type = normalized sel.twoState width type' := by
  obtain ⟨first, hfirst, hty⟩ := h.ty
  rw [h.invalid]
  constructor
  · intro hall
    refine ⟨(hall first hfirst).1, fun type htype => (hall type htype).2.1,
      fun type htype type' htype' => ?_⟩
    exact Option.some.inj ((hall type htype).2.2.symm.trans (hall type' htype').2.2)
  · rintro ⟨hzero, hwidth, hsame⟩ type htype
    exact ⟨hzero, hwidth type htype, hty.trans (congrArg some (hsame first hfirst type htype))⟩

omit [LinearOrder A] in
theorem makeSlot_ok {raw : RawSlot} {slot : StateSsaSlot A}
    (h : makeSlot cfg sel location raw = .ok slot) :
    raw.ty = some slot.ty ∧ slot.fragment.width = location.width := by
  unfold makeSlot at h
  split at h
  · cases h
  · rename_i ty hty
    cases h
    exact ⟨hty, rfl⟩

/-- The facts of a slot are the types of its location and what is loaded and stored there. -/
theorem collected_fact {raw : RawSlots A} {locations : List (StateLocation A)}
    (hraw : Discovered eu sel (recorded eu cfg sel) raw) (hnodup : locations.Nodup) {old : Nat}
    (hloc : locations[old]? = some location) (hmem : location ∈ raw) :
    ∃ fact, (collectFacts eu cfg sel locations
        (locations.map fun location => (raw.lookup location).getD {}))[old]? = some fact ∧
      (fact.selected sel = true ↔ Promoted eu cfg sel location) ∧
      ∃ type ∈ typesAt eu (recorded eu cfg sel) location,
        fact.ty = some (normalized sel.twoState location.width type) := by
  obtain ⟨slot, hslot⟩ := Option.isSome_iff_exists.mp (AList.lookup_isSome.mpr hmem)
  have hrecords := hraw.slots location
  rw [hslot] at hrecords
  have hadds : Adds locations _ _ (locations.map fun location => (raw.lookup location).getD {})
      (collectFacts eu cfg sel locations _) := collectFacts_spec hnodup
  have hlt : old < (collectFacts eu cfg sel locations
      (locations.map fun location => (raw.lookup location).getD {})).length := by
    rw [hadds.length, List.length_map]
    exact (List.getElem?_eq_some_iff.mp hloc).1
  obtain ⟨fact, hfact⟩ : ∃ fact, (collectFacts eu cfg sel locations
      (locations.map fun location => (raw.lookup location).getD {}))[old]? = some fact :=
    ⟨_, List.getElem?_eq_getElem hlt⟩
  refine ⟨fact, hfact, ?_⟩
  obtain ⟨raw₀, hraw₀, hty, hinvalid, hload, hstore⟩ := hadds.same old fact location hfact hloc
  rw [List.getElem?_map, hloc, Option.map_some, hslot, Option.getD_some] at hraw₀
  cases hraw₀
  obtain ⟨type, htype, hslotTy⟩ := hrecords.ty
  refine ⟨?_, type, htype, hty.trans hslotTy⟩
  have hunused := hrecords.unused
  rw [hunused.1] at hload
  rw [hunused.2] at hstore
  simp only [Bool.false_eq_true, false_or] at hload hstore
  have hvalid : fact.invalid = false ↔ _ := hinvalid ▸ hrecords.selected_iff
  simp only [RawSlot.selected, Bool.and_eq_true, Bool.not_eq_true', Bool.or_eq_true, hvalid, hload,
    hstore]
  constructor
  · rintro ⟨⟨⟨hzero, hwidth, hsame⟩, hloaded⟩, hstored⟩
    exact ⟨List.ne_nil_of_mem htype, hzero, hwidth, hsame, hloaded, hstored⟩
  · rintro ⟨-, hzero, hwidth, hsame, hloaded, hstored⟩
    exact ⟨⟨⟨hzero, hwidth, hsame⟩, hloaded⟩, hstored⟩

theorem analyzeSlots_spec {slots : List (StateSsaSlot A)} {effects : Effects}
    (h : analyzeSlots eu cfg sel = .ok (slots, effects)) :
    ∃ locations selected, Chosen eu cfg sel locations selected slots ∧
      effects = selectedEffects eu cfg sel locations selected := by
  unfold analyzeSlots at h
  obtain ⟨raw, hraw, h⟩ := bind_eq_ok.mp h
  dsimp only at h
  obtain ⟨chosen, hslots, h⟩ := bind_eq_ok.mp h
  cases h
  have hdiscovered := discover_spec hraw
  refine ⟨_, _, ?_, rfl⟩
  generalize hlocations : raw.keys.insertionSort (·.key ≤ ·.key) = locations at hslots ⊢
  generalize hfacts : collectFacts eu cfg sel locations
    (locations.map fun location => (raw.lookup location).getD {}) = facts at hslots ⊢
  have hnodup : locations.Nodup := by
    rw [← hlocations]
    exact ((List.perm_insertionSort _ _).nodup_iff).mpr raw.nodupKeys
  have hmem : ∀ location, location ∈ locations ↔ location ∈ raw := by
    intro location
    rw [← hlocations, List.mem_insertionSort]
    exact AList.mem_keys.symm
  have hfact := fun old location (hloc : locations[old]? = some location) =>
    collected_fact hdiscovered hnodup hloc ((hmem location).mp (List.mem_of_getElem? hloc))
  rw [hfacts] at hfact
  have hlength : facts.length = locations.length := by
    rw [← hfacts, (collectFacts_spec hnodup).length, List.length_map]
  refine ⟨hnodup, fun location hne => ?_, fun old location hloc => ?_, fun old hold => ?_⟩
  · obtain ⟨inst, hinst, reg, hfound⟩ := exists_discovered hne
    refine (hmem location).mpr (hdiscovered.mem_iff.mpr ⟨(location, reg), ?_, rfl⟩)
    exact List.mem_append_left _ (List.mem_filterMap.mpr ⟨inst, hinst, hfound⟩)
  · obtain ⟨fact, hget, hselected, -⟩ := hfact old location hloc
    obtain ⟨hlt, -⟩ := List.getElem?_eq_some_iff.mp hget
    rw [List.mem_filter, hget, Option.getD_some, hselected, List.mem_range]
    exact and_iff_right hlt
  · generalize hsel : (List.range facts.length).filter
      (fun i => (facts[i]?.getD {}).selected sel) = selected at hslots hold ⊢
    have hrange := (List.mem_filter.mp (hsel ▸ hold)).1
    rw [List.mem_range, hlength] at hrange
    have hloc : locations[old]? = some locations[old] := List.getElem?_eq_getElem hrange
    obtain ⟨fact, hget, hpromoted, type, htype, hty⟩ := hfact old _ hloc
    have hall := forall₂_of_mapM hslots
    have hidx : selected.idxOf old < selected.length := List.idxOf_lt_length_of_mem hold
    have hslot : selected.idxOf old < slots.length := hall.length_eq ▸ hidx
    have hmake := List.Forall₂.get hall hidx hslot
    simp only [List.get_eq_getElem, List.getElem_idxOf, hloc, hget] at hmake
    obtain ⟨hslotTy, hwidth⟩ := makeSlot_ok hmake
    refine ⟨_, _, hloc, List.getElem?_eq_getElem hslot, hwidth, fun type' htype' => ?_⟩
    have hchosen : old ∈ (List.range facts.length).filter
      (fun i => (facts[i]?.getD {}).selected sel) := hsel ▸ hold
    rw [List.mem_filter, hget, Option.getD_some, hpromoted] at hchosen
    rw [hty] at hslotTy
    rw [← Option.some.inj hslotTy]
    exact hchosen.2.same type htype type' htype'

/-! ## Consistency -/

theorem mem_accesses {slots : List (StateSsaSlot A)} {effects : Effects} {ssa : StateSsa A}
    {locations : List (StateLocation A)} {selected : List Nat} (hnodup : locations.Nodup)
    (heffects : effects = selectedEffects eu cfg sel locations selected)
    (hbuild : buildAccessGraph eu cfg slots effects = .ok ssa) {slot : Nat} :
    (∃ access ∈ ssa.accesses, access.slot = slot ∧ access.kind.register = some reg) ↔
      ∃ b ∈ cfg.blockIds, ∃ inst ∈ instructionsOf eu b, ∃ old ∈ selected,
        slot = selected.idxOf old ∧ ExactAt sel locations b inst reg old := by
  have hshape : (∃ access ∈ ssa.accesses, access.slot = slot ∧ access.kind.register = some reg) ↔
      (slot, some reg) ∈ ssa.accesses.map MemoryAccess.shape := by
    simp only [List.mem_map, MemoryAccess.shape, Prod.mk.injEq]
  rw [hshape, (buildAccessGraph_shapes hbuild).2, numberAccesses_shapes, heffects]
  simp only [places, List.mem_flatMap, List.mem_map, List.mem_range]
  constructor
  · rintro ⟨_, ⟨b, hb, i, -, rfl⟩, h⟩
    obtain ⟨inst, hinst, hexact⟩ := (shapesAt_selected hnodup hb).mp h
    exact ⟨b, hb, inst, List.mem_of_getElem? hinst, hexact⟩
  · rintro ⟨b, hb, inst, hinst, hexact⟩
    obtain ⟨i, hi⟩ := List.mem_iff_getElem?.mp hinst
    exact ⟨(b, i), ⟨b, hb, i, (List.getElem?_eq_some_iff.mp hi).1, rfl⟩,
      (shapesAt_selected hnodup hb).mpr ⟨inst, hi, hexact⟩⟩

theorem analyzeSelected_ok {ssa : StateSsa A} (h : analyzeSelected eu cfg sel = .ok ssa) :
    ∃ effects, analyzeSlots eu cfg sel = .ok (ssa.slots, effects) ∧
      buildAccessGraph eu cfg ssa.slots effects = .ok ssa := by
  unfold analyzeSelected at h
  obtain ⟨⟨slots, effects⟩, hslots, h⟩ := bind_eq_ok.mp h
  obtain ⟨built, hbuild, h⟩ := bind_eq_ok.mp h
  obtain ⟨_, -, h⟩ := bind_eq_ok.mp h
  cases h
  rw [(buildAccessGraph_shapes hbuild).1]
  exact ⟨effects, hslots, hbuild⟩

/-- The slots are consistent when the packed accesses, whose types are not recorded, agree. -/
theorem typeConsistent_iff {ssa : StateSsa A} (h : analyzeSelected eu cfg sel = .ok ssa) :
    TypeConsistent eu sel ssa ↔ PackedAgree eu cfg sel := by
  obtain ⟨effects, hslots, hbuild⟩ := analyzeSelected_ok h
  obtain ⟨locations, selected, hchosen, heffects⟩ := analyzeSlots_spec hslots
  have haccesses : ∀ slot reg, _ := fun slot reg =>
    @mem_accesses _ _ _ _ _ reg _ _ _ _ _ hchosen.locations_nodup heffects hbuild slot
  constructor
  · intro hconsistent b hb inst hinst _ location reg hat hpromoted type htype
    obtain ⟨old, hold⟩ := List.mem_iff_getElem?.mp
      (hchosen.mem_locations location hpromoted.recorded)
    have hselected := (hchosen.mem_selected old location hold).mpr hpromoted
    obtain ⟨access, haccess, hslot, hreg⟩ := (haccesses _ _).mpr
      ⟨b, hb, inst, hinst, old, hselected, rfl, location, hold, hat⟩
    obtain ⟨location', slot, hold', hget, hwidth, hty⟩ := hchosen.slots old hselected
    obtain rfl : location' = location := Option.some.inj (hold'.symm.trans hold)
    have htypes := hconsistent access haccess reg hreg slot (hslot ▸ hget)
    rwa [hwidth, hty type htype] at htypes
  · intro hagree access haccess reg hreg slot hslot
    obtain ⟨b, hb, inst, hinst, old, hselected, hnumber, location, hold, hat⟩ :=
      (haccesses _ _).mp ⟨access, haccess, rfl, hreg⟩
    obtain ⟨location', slot', hold', hget, hwidth, hty⟩ := hchosen.slots old hselected
    obtain rfl : location' = location := Option.some.inj (hold'.symm.trans hold)
    obtain rfl : slot' = slot := Option.some.inj (hget.symm.trans (hnumber ▸ hslot))
    have hpromoted := (hchosen.mem_selected old location' hold).mp hselected
    rw [hwidth]
    by_cases hpacked : isPacked inst = true
    · obtain ⟨type, htype⟩ := List.exists_mem_of_ne_nil _ hpromoted.recorded
      rw [hty type htype]
      exact hagree b hb inst hinst hpacked location' reg hat hpromoted type htype
    · have hrecorded := mem_recorded hb hinst (by simpa using hpacked) hpromoted.recorded hat
      obtain ⟨raw, hraw, -⟩ := bind_eq_ok.mp (show (discover eu cfg sel >>= _) = .ok _ from hslots)
      obtain ⟨type, htype⟩ := (discover_spec hraw).typed _ hrecorded
      have hmem := mem_typesAt.mpr ⟨reg, hrecorded, htype⟩
      exact ⟨type, htype, hpromoted.types type hmem, (hty type hmem).symm⟩

/-! ## Two kinds of one slot -/

/-- Eight bits are stored as `logic`, on one path again through elements of four with `source` for the
type, and loaded. -/
def packedStore (source : RegisterType) : ExecutionUnit (RegionedAbsoluteAddr Nat) where
  entryBlockId := 0
  blocks := [
    ⟨0, { id := 0, params := [], terminator := .branch 3 (1, []) (2, []),
          instructions := [.imm 0 ⟨1, 0⟩, .imm 3 ⟨1, 0⟩, .store ⟨0, 0⟩ (.static 0) 8 0 [] []] }⟩,
    ⟨1, { id := 1, params := [], terminator := .jump 2 [],
          instructions := [.imm 1 ⟨2, 0⟩, .store ⟨0, 0⟩ (.packedElements 0 4) 8 1 [] []] }⟩,
    ⟨2, { id := 2, params := [], terminator := .ret,
          instructions := [.load 2 ⟨0, 0⟩ (.static 0) 8] }⟩].toAList
  registerMap := [⟨0, .logic 8⟩, ⟨1, source⟩, ⟨2, .logic 8⟩, ⟨3, .bit 1 false⟩].toAList

/-- The slots, and the accesses that have a register. -/
def packedSummary (source : RegisterType) :
    Option (List (Nat × RegisterType) × List (Nat × Option RegisterId)) :=
  (SirCfg.analyzeForward (packedStore source)).toOption.bind fun cfg =>
    (analyze (packedStore source) cfg 0 none).toOption.map fun ssa =>
      (ssa.slots.map fun slot => (slot.fragment.width, slot.ty),
        (ssa.accesses.map MemoryAccess.shape).filter (·.2.isSome))

theorem exists_of_packedSummary {source : RegisterType} {summary}
    (h : packedSummary source = some summary) : ∃ cfg ssa,
      SirCfg.analyzeForward (packedStore source) = .ok cfg ∧
        analyze (packedStore source) cfg 0 none = .ok ssa ∧
        ssa.slots.map (fun slot => (slot.fragment.width, slot.ty)) = summary.1 ∧
        (ssa.accesses.map MemoryAccess.shape).filter (·.2.isSome) = summary.2 := by
  unfold packedSummary at h
  cases hcfg : SirCfg.analyzeForward (packedStore source) with
  | error error => simp [hcfg, Except.toOption] at h
  | ok cfg =>
    rw [hcfg] at h
    change Option.map _ (analyze (packedStore source) cfg 0 none).toOption = _ at h
    cases hssa : analyze (packedStore source) cfg 0 none with
    | error error => simp [hssa, Except.toOption] at h
    | ok ssa =>
      rw [hssa] at h
      obtain rfl := Option.some.inj h
      exact ⟨cfg, ssa, rfl, hssa, rfl, rfl⟩

theorem typeConsistent_iff_packedStore : ∃ cfg ssa,
    SirCfg.analyzeForward (packedStore (.logic 8)) = .ok cfg ∧
      analyze (packedStore (.logic 8)) cfg 0 none = .ok ssa ∧ ssa.slots ≠ [] ∧
        (TypeConsistent (packedStore (.logic 8)) ⟨0, none, none, false, false⟩ ssa ↔
          PackedAgree (packedStore (.logic 8)) cfg ⟨0, none, none, false, false⟩) := by
  have hsummary : packedSummary (.logic 8) =
      some ([(8, .logic 8)], [(0, some 0), (0, some 1), (0, some 2)]) := by decide +kernel
  obtain ⟨cfg, ssa, hcfg, hssa, hslots, -⟩ := exists_of_packedSummary hsummary
  refine ⟨cfg, ssa, hcfg, hssa, ?_, typeConsistent_iff hssa⟩
  rintro hnil
  rw [hnil] at hslots
  cases hslots

/-- The slot is `logic`, and a definition that reaches the load has a `bit` register. -/
theorem packedStore_mixed : (packedStore (.bit 8 false)).verifyResult = .ok () ∧ ∃ cfg ssa,
    SirCfg.analyzeForward (packedStore (.bit 8 false)) = .ok cfg ∧
      analyze (packedStore (.bit 8 false)) cfg 0 none = .ok ssa ∧
        ¬ TypeConsistent (packedStore (.bit 8 false)) ⟨0, none, none, false, false⟩ ssa := by
  refine ⟨by decide +kernel, ?_⟩
  have hsummary : packedSummary (.bit 8 false) =
      some ([(8, .logic 8)], [(0, some 0), (0, some 1), (0, some 2)]) := by decide +kernel
  obtain ⟨cfg, ssa, hcfg, hssa, hslots, haccesses⟩ := exists_of_packedSummary hsummary
  refine ⟨cfg, ssa, hcfg, hssa, fun hconsistent => ?_⟩
  have hmem : ((0 : Nat), some (1 : RegisterId)) ∈
      (ssa.accesses.map MemoryAccess.shape).filter (·.2.isSome) := by
    rw [haccesses]
    simp
  obtain ⟨access, haccess, hshape⟩ := List.mem_map.mp (List.mem_filter.mp hmem).1
  obtain ⟨hslot, hreg⟩ := Prod.mk.inj hshape
  cases hget : ssa.slots[0]? with
  | none =>
    have hnone := congrArg (·[0]?) hslots
    simp [hget] at hnone
  | some slot =>
    have hsome := congrArg (·[0]?) hslots
    simp only [List.getElem?_map, hget, Option.map_some, List.getElem?_cons_zero,
      Option.some.injEq, Prod.mk.injEq] at hsome
    obtain ⟨type, htype, -, hnormal⟩ := hconsistent access haccess 1 hreg slot (hslot ▸ hget)
    rw [hsome.2] at hnormal
    have hone : (packedStore (.bit 8 false)).registerMap.lookup 1 = some (.bit 8 false) := by
      decide
    rw [hone] at htype
    cases htype
    cases hnormal

end Celox.Opt.StateVersions
