import Celox.Sir.Dominance

/-! # Verified units

The contract a unit meets when the verifier accepts it, free of the order in which the maps are
visited. -/
namespace Celox.Sir
open Celox.Graph Relation

/-! ## Definition sites -/

section Sites
variable {A : Type}

def DefSite.block : DefSite → BlockId
  | .param block => block
  | .inst block _ => block

/-- What a block defines, in order, with the places. -/
def BasicBlock.definitions (block : BasicBlock A) : List (RegisterId × DefSite) :=
  block.params.map (·, .param block.id) ++ block.instructions.zipIdx.filterMap fun (inst, index) =>
    inst.definedRegister.map (·, .inst block.id index)

def ExecutionUnit.definitions (eu : ExecutionUnit A) : List (RegisterId × DefSite) :=
  eu.blocks.entries.flatMap fun entry => entry.2.definitions

def insertAll (defs : Table RegisterId DefSite) (sites : List (RegisterId × DefSite)) :
    Table RegisterId DefSite :=
  sites.foldl (fun defs site => defs.insert site.1 site.2) defs

/-- Registers that are pairwise different and not in the table. -/
def Fresh (defs : Table RegisterId DefSite) (sites : List (RegisterId × DefSite)) : Prop :=
  (sites.map Prod.fst).Nodup ∧ ∀ site ∈ sites, site.1 ∉ defs

variable {defs defs' : Table RegisterId DefSite} {sites sites' : List (RegisterId × DefSite)}

theorem insertAll_append :
    insertAll defs (sites ++ sites') = insertAll (insertAll defs sites) sites' :=
  List.foldl_append

theorem fresh_cons {site : RegisterId × DefSite} :
    Fresh defs (site :: sites) ↔ site.1 ∉ defs ∧ Fresh (defs.insert site.1 site.2) sites := by
  simp only [Fresh, List.map_cons, List.nodup_cons, List.mem_map, List.mem_cons, forall_eq_or_imp,
    AList.mem_insert, not_or]
  constructor
  · rintro ⟨⟨hne, hnodup⟩, hnot, hall⟩
    exact ⟨hnot, hnodup, fun s hs => ⟨fun heq => hne ⟨s, hs, heq⟩, hall s hs⟩⟩
  · rintro ⟨hnot, hnodup, hall⟩
    exact ⟨⟨fun ⟨s, hs, heq⟩ => (hall s hs).1 heq, hnodup⟩, hnot, fun s hs => (hall s hs).2⟩

theorem fresh_append : Fresh defs (sites ++ sites') ↔
    Fresh defs sites ∧ Fresh (insertAll defs sites) sites' := by
  induction sites generalizing defs with
  | nil => simp [Fresh, insertAll]
  | cons site sites ih =>
    rw [List.cons_append, fresh_cons, ih, fresh_cons, and_assoc]
    rfl

theorem lookup_insertAll (h : Fresh defs sites) {reg : RegisterId} {site : DefSite} :
    (insertAll defs sites).lookup reg = some site ↔
      (reg, site) ∈ sites ∨ defs.lookup reg = some site := by
  induction sites generalizing defs with
  | nil => simp [insertAll]
  | cons first sites ih =>
    obtain ⟨hnot, hfresh⟩ := fresh_cons.mp h
    have hstep : insertAll defs (first :: sites) =
        insertAll (defs.insert first.1 first.2) sites := rfl
    rw [hstep, ih hfresh, List.mem_cons]
    obtain ⟨reg', site'⟩ := first
    by_cases heq : reg = reg'
    · subst heq
      have hnone : defs.lookup reg = none := AList.lookup_eq_none.mpr hnot
      simp [AList.lookup_insert, hnone, or_comm, eq_comm]
    · simp [AList.lookup_insert_ne heq, heq]

theorem insertDef_ok {reg : RegisterId} {site : DefSite} {block : BlockId}
    {instruction : Option Nat} : insertDef defs reg site block instruction = .ok defs' ↔
      reg ∉ defs ∧ defs.insert reg site = defs' := by
  unfold insertDef
  by_cases h : reg ∈ defs <;> simp [h]

end Sites

section Collect
variable {A : Type} {eu : ExecutionUnit A} {defs defs' : Table RegisterId DefSite}

theorem collectParams_ok {block : BasicBlock A} : collectParams eu block defs = .ok defs' ↔
    (∀ param ∈ block.params, Declared eu.types param) ∧
      Fresh defs (block.params.map (·, .param block.id)) ∧
      insertAll defs (block.params.map (·, .param block.id)) = defs' := by
  -- parameters seen are in the table, so the second check finds what the first does
  have hfrom : ∀ (params seen : List RegisterId) (defs : Table RegisterId DefSite),
      (∀ p ∈ seen, p ∈ defs) → ((∃ seen', params.foldlM (fun found param => do
        requireRegister eu block.id none param
        if param ∈ found.1 then
          .error (blockError "SSA.UNIQUE_BLOCK_PARAMS" block.id
            s!"r{param} occurs more than once in block parameters")
        else
          let defs ← insertDef found.2 param (.param block.id) block.id none
          return (param :: found.1, defs)) (seen, defs) = Except.ok (seen', defs')) ↔
      (∀ param ∈ params, Declared eu.types param) ∧
        Fresh defs (params.map (·, .param block.id)) ∧
        insertAll defs (params.map (·, .param block.id)) = defs') := by
    intro params
    induction params with
    | nil => simp [Fresh, insertAll, pure, Except.pure]
    | cons param params ih =>
      intro seen defs hseen
      have hrest := ih (param :: seen) (defs.insert param (.param block.id)) (by
        intro p hp
        rw [AList.mem_insert]
        rcases List.mem_cons.mp hp with rfl | hp
        · exact .inl rfl
        · exact .inr (hseen p hp))
      rw [List.map_cons, fresh_cons, List.forall_mem_cons]
      have hcons : insertAll defs ((param, .param block.id) :: params.map (·, .param block.id)) =
        insertAll (defs.insert param (.param block.id)) (params.map (·, .param block.id)) := rfl
      rw [hcons]
      simp only [List.foldlM_cons, bind_eq_ok]
      constructor
      · rintro ⟨seen', ⟨mid, defs₁⟩, ⟨⟨⟩, hdecl, hstep⟩, htail⟩
        rw [requireRegister_ok] at hdecl
        by_cases hp : param ∈ seen
        · simp [hp] at hstep
        · rw [if_neg hp, bind_eq_ok] at hstep
          obtain ⟨defs₂, hinsert, hpure⟩ := hstep
          obtain ⟨hnot, rfl⟩ := insertDef_ok.mp hinsert
          simp only [pure, Except.pure, Except.ok.injEq, Prod.mk.injEq] at hpure
          obtain ⟨rfl, rfl⟩ := hpure
          obtain ⟨hall, hfresh, heq⟩ := hrest.mp ⟨seen', htail⟩
          exact ⟨⟨hdecl, hall⟩, ⟨hnot, hfresh⟩, heq⟩
      · rintro ⟨⟨hdecl, hall⟩, ⟨hnot, hfresh⟩, heq⟩
        obtain ⟨seen', htail⟩ := hrest.mpr ⟨hall, hfresh, heq⟩
        refine ⟨seen', _, ⟨(), requireRegister_ok.mpr hdecl, ?_⟩, htail⟩
        rw [if_neg fun hp => hnot (hseen param hp), bind_eq_ok]
        exact ⟨_, insertDef_ok.mpr ⟨hnot, rfl⟩, rfl⟩
  rw [← hfrom block.params [] defs (by simp)]
  unfold collectParams
  rw [bind_eq_ok]
  constructor
  · rintro ⟨⟨seen', defs₁⟩, hfold, hpure⟩
    simp only [pure, Except.pure, Except.ok.injEq] at hpure
    exact ⟨seen', hpure ▸ hfold⟩
  · rintro ⟨seen', hfold⟩
    exact ⟨(seen', defs'), hfold, rfl⟩

/-- Declared registers and types in one block. -/
structure BlockTyped (eu : ExecutionUnit A) (block : BasicBlock A) : Prop where
  params : ∀ param ∈ block.params, Declared eu.types param
  typed : ∀ inst ∈ block.instructions, InstructionTyped eu.types inst
  defined : ∀ inst ∈ block.instructions, ∀ dst, inst.definedRegister = some dst →
    Declared eu.types dst

def instructionSite (block : BlockId) (entry : SIRInstruction A × Nat) :
    Option (RegisterId × DefSite) :=
  entry.1.definedRegister.map (·, .inst block entry.2)

theorem collectInstruction_ok {block : BlockId} {entry : SIRInstruction A × Nat} :
    collectInstruction eu block defs entry = .ok defs' ↔
      InstructionTyped eu.types entry.1 ∧
      (∀ dst, entry.1.definedRegister = some dst → Declared eu.types dst) ∧
      Fresh defs (instructionSite block entry).toList ∧
      insertAll defs (instructionSite block entry).toList = defs' := by
  obtain ⟨inst, index⟩ := entry
  simp only [collectInstruction, instructionSite, seq_ok, verifyInstructionTypes_ok]
  refine and_congr_right fun _ => ?_
  cases inst.definedRegister with
  | none => simp [Fresh, insertAll, pure, Except.pure]
  | some dst => simp [seq_ok, requireRegister_ok, insertDef_ok, Fresh, insertAll]

theorem collectInstructions_ok {block : BlockId} {entries : List (SIRInstruction A × Nat)} :
    entries.foldlM (collectInstruction eu block) defs = .ok defs' ↔
      (∀ entry ∈ entries, InstructionTyped eu.types entry.1) ∧
      (∀ entry ∈ entries, ∀ dst, entry.1.definedRegister = some dst → Declared eu.types dst) ∧
      Fresh defs (entries.filterMap (instructionSite block)) ∧
      insertAll defs (entries.filterMap (instructionSite block)) = defs' := by
  induction entries generalizing defs with
  | nil => simp [Fresh, insertAll, pure, Except.pure]
  | cons entry entries ih =>
    have hsites : (entry :: entries).filterMap (instructionSite block) =
        (instructionSite block entry).toList ++ entries.filterMap (instructionSite block) := by
      rw [List.filterMap_cons]
      cases instructionSite block entry <;> rfl
    rw [List.foldlM_cons, bind_eq_ok, hsites, fresh_append, insertAll_append]
    simp only [collectInstruction_ok, ih, List.forall_mem_cons]
    constructor
    · rintro ⟨mid, ⟨ht, hd, hf, rfl⟩, hts, hds, hfs, heq⟩
      exact ⟨⟨ht, hts⟩, ⟨hd, hds⟩, ⟨hf, hfs⟩, heq⟩
    · rintro ⟨⟨ht, hts⟩, ⟨hd, hds⟩, ⟨hf, hfs⟩, heq⟩
      exact ⟨_, ⟨ht, hd, hf, rfl⟩, hts, hds, hfs, heq⟩

theorem collectBlock_ok {block : BasicBlock A} : collectBlock eu defs block = .ok defs' ↔
    BlockTyped eu block ∧ Fresh defs block.definitions ∧
      insertAll defs block.definitions = defs' := by
  have hmem : ∀ P : SIRInstruction A → Prop, (∀ entry ∈ block.instructions.zipIdx, P entry.1) ↔
      ∀ inst ∈ block.instructions, P inst := by
    intro P
    constructor
    · intro h inst hinst
      obtain ⟨i, hi⟩ := List.getElem?_of_mem hinst
      exact h (inst, i) (List.mem_zipIdx_iff_getElem?.mpr hi)
    · intro h entry hentry
      exact h entry.1 (List.mem_of_getElem? (List.mem_zipIdx_iff_getElem?.mp hentry))
  have hdefs : block.definitions = block.params.map (·, .param block.id) ++
    block.instructions.zipIdx.filterMap (instructionSite block.id) := rfl
  rw [collectBlock, bind_eq_ok, hdefs, fresh_append, insertAll_append]
  simp only [collectParams_ok, collectInstructions_ok]
  rw [hmem (InstructionTyped eu.types ·),
    hmem fun inst => ∀ dst, inst.definedRegister = some dst → Declared eu.types dst]
  constructor
  · rintro ⟨mid, ⟨hp, hf, rfl⟩, ht, hd, hfs, heq⟩
    exact ⟨⟨hp, ht, hd⟩, ⟨hf, hfs⟩, heq⟩
  · rintro ⟨⟨hp, ht, hd⟩, ⟨hf, hfs⟩, heq⟩
    exact ⟨_, ⟨hp, hf, rfl⟩, ht, hd, hfs, heq⟩

theorem collectBlocks_ok {entries : List ((_ : BlockId) × BasicBlock A)} :
    entries.foldlM (fun defs entry => collectBlock eu defs entry.2) defs = .ok defs' ↔
      (∀ entry ∈ entries, BlockTyped eu entry.2) ∧
      Fresh defs (entries.flatMap fun entry => entry.2.definitions) ∧
      insertAll defs (entries.flatMap fun entry => entry.2.definitions) = defs' := by
  induction entries generalizing defs with
  | nil => simp [Fresh, insertAll, pure, Except.pure]
  | cons entry entries ih =>
    rw [List.foldlM_cons, bind_eq_ok, List.flatMap_cons, fresh_append, insertAll_append]
    simp only [collectBlock_ok, ih, List.forall_mem_cons]
    constructor
    · rintro ⟨mid, ⟨ht, hf, rfl⟩, hts, hfs, heq⟩
      exact ⟨⟨ht, hts⟩, ⟨hf, hfs⟩, heq⟩
    · rintro ⟨⟨ht, hts⟩, ⟨hf, hfs⟩, heq⟩
      exact ⟨_, ⟨ht, hf, rfl⟩, hts, hfs, heq⟩

end Collect

/-! ## Single definitions -/

section Single
variable {A : Type} {eu : ExecutionUnit A} {block : BasicBlock A} {reg : RegisterId}

theorem mem_definitions_param {d : BlockId} :
    (reg, .param d) ∈ block.definitions ↔ d = block.id ∧ reg ∈ block.params := by
  simp only [BasicBlock.definitions, List.mem_append, List.mem_map, List.mem_filterMap,
    Prod.mk.injEq, Prod.exists, Option.map_eq_some_iff]
  constructor
  · rintro (⟨r, hr, rfl, h⟩ | ⟨inst, i, -, r, -, -, h⟩)
    · cases h
      exact ⟨rfl, hr⟩
    · cases h
  · rintro ⟨rfl, hr⟩
    exact .inl ⟨reg, hr, rfl, rfl⟩

theorem mem_definitions_inst {d : BlockId} {i : Nat} :
    (reg, .inst d i) ∈ block.definitions ↔ d = block.id ∧ ∃ inst,
      block.instructions[i]? = some inst ∧ inst.definedRegister = some reg := by
  simp only [BasicBlock.definitions, List.mem_append, List.mem_map, List.mem_filterMap,
    Prod.mk.injEq, Prod.exists, Option.map_eq_some_iff, List.mem_zipIdx_iff_getElem?]
  constructor
  · rintro (⟨r, hr, rfl, h⟩ | ⟨inst, j, hj, r, hr, rfl, h⟩)
    · cases h
    · cases h
      exact ⟨rfl, inst, hj, hr⟩
  · rintro ⟨rfl, inst, hi, hr⟩
    exact .inr ⟨inst, i, hi, reg, hr, rfl, rfl⟩

theorem block_of_mem_definitions {site : DefSite} (h : (reg, site) ∈ block.definitions) :
    site.block = block.id := by
  cases site with
  | param d => exact (mem_definitions_param.mp h).1
  | inst d i => exact (mem_definitions_inst.mp h).1

theorem definitions_nodup : block.definitions.Nodup ↔ block.params.Nodup := by
  have hinst : (block.instructions.zipIdx.filterMap (instructionSite block.id)).Nodup := by
    have hindex : (block.instructions.zipIdx.map Prod.snd).Nodup := by
      rw [List.zipIdx_map_snd]
      exact List.nodup_range' ..
    refine List.Pairwise.filterMap _ (fun a b hab x hx y hy hxy => hab ?_)
      (List.pairwise_map.mp hindex)
    · obtain ⟨r, -, rfl⟩ := Option.map_eq_some_iff.mp hx
      obtain ⟨r', -, rfl⟩ := Option.map_eq_some_iff.mp hy
      simp only [Prod.mk.injEq, DefSite.inst.injEq] at hxy
      exact hxy.2.2
  have hparam : (block.params.map fun p => (p, DefSite.param block.id)).Nodup ↔
      block.params.Nodup := List.nodup_map_iff fun a b hab => (Prod.mk.inj hab).1
  have hsplit : block.definitions = block.params.map (·, .param block.id) ++
    block.instructions.zipIdx.filterMap (instructionSite block.id) := rfl
  rw [hsplit, List.nodup_append', hparam]
  refine ⟨fun h => h.1, fun h => ⟨h, hinst, ?_⟩⟩
  intro x hx hx'
  obtain ⟨r, -, rfl⟩ := List.mem_map.mp hx
  obtain ⟨entry, -, hentry⟩ := List.mem_filterMap.mp hx'
  obtain ⟨r', -, heq⟩ := Option.map_eq_some_iff.mp hentry
  cases heq

theorem mem_unit_definitions {site : DefSite} : (reg, site) ∈ eu.definitions ↔
    ∃ b block, eu.blocks.lookup b = some block ∧ (reg, site) ∈ block.definitions := by
  simp only [ExecutionUnit.definitions, List.mem_flatMap, Sigma.exists, mem_entries]

/-- Every register has one definition site. -/
structure SingleDefs (eu : ExecutionUnit A) : Prop where
  params : ∀ b block, eu.blocks.lookup b = some block → block.params.Nodup
  site : ∀ reg site site', (reg, site) ∈ eu.definitions → (reg, site') ∈ eu.definitions →
    site = site'

theorem fresh_definitions (hids : eu.Keyed) : Fresh ∅ eu.definitions ↔ SingleDefs eu := by
  have hpairs : eu.definitions.Nodup ↔
      ∀ b block, eu.blocks.lookup b = some block → block.params.Nodup := by
    unfold ExecutionUnit.definitions
    rw [List.nodup_flatMap]
    constructor
    · rintro ⟨h, -⟩ b block hb
      exact definitions_nodup.mp (h ⟨b, block⟩ (mem_entries.mpr hb))
    · intro h
      refine ⟨fun entry hentry => definitions_nodup.mpr (h _ _ (mem_entries.mp hentry)), ?_⟩
      have hkeys : eu.blocks.entries.Pairwise fun a b => a.1 ≠ b.1 :=
        List.pairwise_map.mp (AList.keys_nodup eu.blocks)
      refine hkeys.imp_of_mem fun {a b} ha hb hne site hsa hsb => hne ?_
      -- the block of a site tells the entries apart
      rw [← hids _ _ (mem_entries.mp ha), ← hids _ _ (mem_entries.mp hb),
        ← block_of_mem_definitions hsa, ← block_of_mem_definitions hsb]
  have hnone : ∀ site ∈ eu.definitions, site.1 ∉ (∅ : Table RegisterId DefSite) := by
    intro site _
    exact AList.notMem_empty _
  constructor
  · rintro ⟨hnodup, -⟩
    refine ⟨hpairs.mp (List.Nodup.of_map _ hnodup), fun reg site site' h h' => ?_⟩
    exact (Prod.mk.inj (List.inj_on_of_nodup_map hnodup h h' rfl)).2
  · rintro ⟨hparams, hsite⟩
    refine ⟨List.Nodup.map_on (fun x hx y hy hxy => ?_) (hpairs.mpr hparams), hnone⟩
    obtain ⟨r, s⟩ := x
    obtain ⟨r', s'⟩ := y
    cases (show r = r' from hxy)
    rw [hsite r s s' hx hy]

end Single

/-! ## The contract -/

section Contract
variable {A : Type}

/-- The register is read in the block at a position; the terminator comes after all
instructions. -/
def BasicBlock.UsesAt (block : BasicBlock A) (index : Nat) (reg : RegisterId) : Prop :=
  (∃ inst, block.instructions[index]? = some inst ∧ reg ∈ inst.uses) ∨
    (index = block.instructions.length ∧ reg ∈ block.terminator.uses)

/-- What a site defines can be read at a position of a block. -/
def ExecutionUnit.Available (eu : ExecutionUnit A) (b : BlockId) (index : Nat) : DefSite → Prop
  | .param d => Dom eu.Flow eu.entryBlockId d b
  | .inst d i => (d = b ∧ i < index) ∨ (d ≠ b ∧ Dom eu.Flow eu.entryBlockId d b)

structure BlockVerified (eu : ExecutionUnit A) (block : BasicBlock A) : Prop where
  targets : ∀ target ∈ block.terminator.successorIds, target ∈ eu.blocks
  terminator : TerminatorTyped eu.types block.terminator
  edges : ∀ edge ∈ block.terminator.edges, EdgeTyped eu edge
  typed : BlockTyped eu block
  uses : ∀ index reg, block.UsesAt index reg → Declared eu.types reg ∧
    ∃ site, (reg, site) ∈ eu.definitions ∧ eu.Available block.id index site

structure Verified (eu : ExecutionUnit A) : Prop where
  entry : eu.entryBlockId ∈ eu.blocks
  widths : ∀ reg ty, eu.types reg = some ty → ty.width ≠ 0
  ids : eu.Keyed
  reach : ∀ b ∈ eu.blocks, ReflTransGen eu.Flow eu.entryBlockId b
  single : SingleDefs eu
  blocks : ∀ b block, eu.blocks.lookup b = some block → BlockVerified eu block

variable {eu : ExecutionUnit A} {defs : Table RegisterId DefSite} {dominators : Dominators}

/-- What the use check relies on: the table of definitions and the dominators. -/
structure Analysed (eu : ExecutionUnit A) (defs : Table RegisterId DefSite)
    (dominators : Dominators) : Prop where
  ids : eu.Keyed
  lookup : ∀ reg site, defs.lookup reg = some site ↔ (reg, site) ∈ eu.definitions
  dominates : ∀ d ∈ eu.blocks, ∀ b ∈ eu.blocks, dominators.dominates d b = true ↔
    Dom eu.Flow eu.entryBlockId d b

theorem site_block_mem (hids : eu.Keyed) {reg : RegisterId} {site : DefSite}
    (h : (reg, site) ∈ eu.definitions) : site.block ∈ eu.blocks := by
  obtain ⟨b, block, hb, hmem⟩ := mem_unit_definitions.mp h
  rw [block_of_mem_definitions hmem, hids b block hb]
  exact mem_table.mpr ⟨block, hb⟩

theorem verifyUse_ok (h : Analysed eu defs dominators) {b : BlockId} (hb : b ∈ eu.blocks)
    {index : Nat} {reg : RegisterId} : verifyUse eu defs dominators b index reg = .ok () ↔
      Declared eu.types reg ∧ ∃ site, (reg, site) ∈ eu.definitions ∧
        eu.Available b index site := by
  simp only [verifyUse, seq_ok, requireRegister_ok]
  refine and_congr_right fun _ => ?_
  cases hsite : defs.lookup reg with
  | none =>
    refine iff_of_false (by simp) fun ⟨site, hmem, _⟩ => ?_
    rw [(h.lookup reg site).mpr hmem] at hsite
    cases hsite
  | some site =>
    have hmem := (h.lookup reg site).mp hsite
    have hunique : (∃ site', (reg, site') ∈ eu.definitions ∧ eu.Available b index site') ↔
        eu.Available b index site := by
      refine ⟨fun ⟨site', hmem', hav⟩ => ?_, fun hav => ⟨site, hmem, hav⟩⟩
      have heq := hsite.symm.trans ((h.lookup reg site').mpr hmem')
      exact Option.some.inj heq ▸ hav
    have hdom := h.dominates site.block (site_block_mem h.ids hmem) b hb
    rw [hunique]
    cases site with
    | param d =>
      have hdom' : dominators.dominates d b = true ↔ Dom eu.Flow eu.entryBlockId d b := hdom
      simp only [ExecutionUnit.Available, ← hdom']
      by_cases hd : dominators.dominates d b = true <;> simp [hd]
    | inst d i =>
      have hdom' : dominators.dominates d b = true ↔ Dom eu.Flow eu.entryBlockId d b := hdom
      simp only [ExecutionUnit.Available, ← hdom']
      by_cases hd : d = b <;> by_cases hi : i < index <;>
        by_cases hdd : dominators.dominates d b = true <;> simp [hd, hi, hdd]

theorem verifyUses_ok (h : Analysed eu defs dominators) {block : BasicBlock A}
    (hb : block.id ∈ eu.blocks) : verifyUses eu defs dominators block = .ok () ↔
      ∀ index reg, block.UsesAt index reg → Declared eu.types reg ∧
        ∃ site, (reg, site) ∈ eu.definitions ∧ eu.Available block.id index site := by
  simp only [verifyUses, seq_ok, forM_eq_ok, verifyUse_ok h hb, Prod.forall,
    List.mem_zipIdx_iff_getElem?]
  constructor
  · rintro ⟨hinst, hterm⟩ index reg (⟨inst, hi, hreg⟩ | ⟨rfl, hreg⟩)
    · exact hinst inst index hi reg hreg
    · exact hterm reg hreg
  · intro hall
    exact ⟨fun inst index hi reg hreg => hall index reg (.inl ⟨inst, hi, hreg⟩),
      fun reg hreg => hall _ reg (.inr ⟨rfl, hreg⟩)⟩

theorem verifyRegisters_ok : eu.registerMap.entries.forM verifyRegister = .ok () ↔
    ∀ reg ty, eu.types reg = some ty → ty.width ≠ 0 := by
  simp only [verifyRegister, forM_eq_ok, ite_error_ok, and_true, Sigma.forall, mem_entries]
  rfl

/-- With sound graph structure, definitions and uses are all that is left to check. -/
theorem verifySsa_ok (hentry : eu.entryBlockId ∈ eu.blocks) (hids : eu.Keyed)
    (hall : ∀ b ∈ eu.blocks, ReflTransGen eu.Flow eu.entryBlockId b) :
    verifySsa eu (reachableBlocks eu) = .ok () ↔
      (∀ b block, eu.blocks.lookup b = some block → BlockTyped eu block) ∧ SingleDefs eu ∧
      ∀ b block, eu.blocks.lookup b = some block → ∀ index reg, block.UsesAt index reg →
        Declared eu.types reg ∧ ∃ site, (reg, site) ∈ eu.definitions ∧
          eu.Available block.id index site := by
  have hreach : ∀ b ∈ eu.blocks, b ∈ reachableBlocks eu := fun b hb =>
    ((reachableBlocks_spec hentry).2 b).mpr (hall b hb)
  obtain ⟨dominators, hcompute, hdom⟩ := computeDominators_exact hentry hids hall hreach
  have hlookup : Fresh ∅ eu.definitions → ∀ reg site,
      (insertAll ∅ eu.definitions).lookup reg = some site ↔ (reg, site) ∈ eu.definitions := by
    intro hfresh reg site
    rw [lookup_insertAll hfresh]
    simp
  have huses : Fresh ∅ eu.definitions → ((eu.blocks.entries.forM fun entry =>
      verifyUses eu (insertAll ∅ eu.definitions) dominators entry.2) = .ok () ↔
      ∀ b block, eu.blocks.lookup b = some block → ∀ index reg, block.UsesAt index reg →
        Declared eu.types reg ∧ ∃ site, (reg, site) ∈ eu.definitions ∧
          eu.Available block.id index site) := by
    intro hfresh
    have hanalysed : Analysed eu (insertAll ∅ eu.definitions) dominators :=
      ⟨hids, hlookup hfresh, hdom⟩
    rw [forM_eq_ok]
    simp only [Sigma.forall, mem_entries]
    refine forall_congr' fun b => forall_congr' fun block => imp_congr_right fun hb => ?_
    exact verifyUses_ok hanalysed (hids b block hb ▸ mem_table.mpr ⟨block, hb⟩)
  have htyped : (∀ entry ∈ eu.blocks.entries, BlockTyped eu entry.2) ↔
      ∀ b block, eu.blocks.lookup b = some block → BlockTyped eu block := by
    simp only [Sigma.forall, mem_entries]
  unfold verifySsa
  rw [bind_eq_ok, hcompute, ← htyped, ← fresh_definitions hids]
  simp only [collectBlocks_ok]
  constructor
  · rintro ⟨defs, ⟨ht, hfresh, rfl⟩, hforM⟩
    exact ⟨ht, hfresh, (huses hfresh).mp hforM⟩
  · rintro ⟨ht, hfresh, hall'⟩
    exact ⟨_, ⟨ht, hfresh, rfl⟩, (huses hfresh).mpr hall'⟩

/-- The verifier accepts exactly the units that meet the contract. -/
theorem verifyResult_ok_iff (eu : ExecutionUnit A) : eu.verifyResult = .ok () ↔ Verified eu := by
  have hblocks : (∀ entry ∈ eu.blocks.entries, verifyBlock eu entry = .ok ()) ↔ eu.Keyed ∧
      ∀ b block, eu.blocks.lookup b = some block →
        (∀ target ∈ block.terminator.successorIds, target ∈ eu.blocks) ∧
        TerminatorTyped eu.types block.terminator ∧
        ∀ edge ∈ block.terminator.edges, EdgeTyped eu edge := by
    simp only [verifyBlock_ok, Sigma.forall, mem_entries]
    exact ⟨fun h => ⟨fun b block hb => (h b block hb).1, fun b block hb => (h b block hb).2⟩,
      fun h b block hb => ⟨h.1 b block hb, h.2 b block hb⟩⟩
  simp only [ExecutionUnit.verifyResult, verifyExecutionUnit, ite_error_ok, seq_ok,
    verifyRegisters_ok, not_not, ne_eq]
  rw [forM_eq_ok, hblocks]
  constructor
  · rintro ⟨-, hentry, hwidths, ⟨hids, hblock⟩, hlen, hssa⟩
    have hall := (reachableBlocks_length hentry).mp hlen
    obtain ⟨htyped, hsingle, huses⟩ := (verifySsa_ok hentry hids hall).mp hssa
    refine ⟨hentry, hwidths, hids, hall, hsingle, fun b block hb => ?_⟩
    obtain ⟨htargets, hterm, hedges⟩ := hblock b block hb
    exact ⟨htargets, hterm, hedges, htyped b block hb, huses b block hb⟩
  · intro h
    refine ⟨?_, h.entry, h.widths, ⟨h.ids, fun b block hb => ?_⟩,
      (reachableBlocks_length h.entry).mpr h.reach,
      (verifySsa_ok h.entry h.ids h.reach).mpr ⟨fun b block hb => (h.blocks b block hb).typed,
        h.single, fun b block hb => (h.blocks b block hb).uses⟩⟩
    · obtain ⟨block, hblock⟩ := mem_table.mp h.entry
      have hmem := mem_entries.mpr hblock
      cases hnil : eu.blocks.entries with
      | nil => simp [hnil] at hmem
      | cons => simp
    · exact ⟨(h.blocks b block hb).targets, (h.blocks b block hb).terminator,
        (h.blocks b block hb).edges⟩

end Contract
end Celox.Sir
