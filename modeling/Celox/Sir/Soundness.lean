import Celox.Sir.Verified

/-! # What acceptance and rejection mean

Along every path through an accepted unit registers are defined before they are read. A unit is
rejected for dominance only on account of a use that its definition does not dominate. -/
namespace Celox.Sir
open Celox.Graph Relation

section Paths
variable {A : Type}

/-- Blocks a path from the entry passes before its last one. -/
inductive ExecutionUnit.PathTo (eu : ExecutionUnit A) : List BlockId → BlockId → Prop where
  | entry : eu.PathTo [] eu.entryBlockId
  | step {before : List BlockId} {a b : BlockId} {block : BasicBlock A} :
      eu.PathTo before a → eu.blocks.lookup a = some block →
      b ∈ block.terminator.successorIds → eu.PathTo (before ++ [a]) b

/-- A site passed on a path before a position of the last block. Parameters are defined as their
block is entered along an edge, and blocks before the last one are passed as a whole. -/
def PassedBefore (before : List BlockId) (b : BlockId) (index : Nat) : DefSite → Prop
  | .param d => d ∈ (before ++ [b]).tail
  | .inst d i => d ∈ before ∨ (d = b ∧ i < index)

/-- Every register read on a path has its only definition before. -/
def ExecutionUnit.DefinedOnPaths (eu : ExecutionUnit A) : Prop :=
  ∀ before b block, eu.PathTo before b → eu.blocks.lookup b = some block →
    ∀ index reg, block.UsesAt index reg → ∃ site, (reg, site) ∈ eu.definitions ∧
      (∀ site', (reg, site') ∈ eu.definitions → site' = site) ∧
      PassedBefore before b index site

/-- Targets exist and get as many arguments as they have parameters. -/
def ExecutionUnit.EdgesComplete (eu : ExecutionUnit A) : Prop :=
  ∀ b block, eu.blocks.lookup b = some block → ∀ edge ∈ block.terminator.edges,
    ∃ target, eu.blocks.lookup edge.1 = some target ∧ edge.2.length = target.params.length

variable {eu : ExecutionUnit A} {before : List BlockId} {b d : BlockId}

/-- Dominators of the last block are on the path. -/
theorem mem_path_of_dom (htargets : ∀ b block, eu.blocks.lookup b = some block →
    ∀ target ∈ block.terminator.successorIds, target ∈ eu.blocks)
    (hpath : eu.PathTo before b) (hdom : Dom eu.Flow eu.entryBlockId d b) :
    d ∈ before ++ [b] := by
  by_contra hmiss
  refine hdom ?_
  clear hdom
  induction hpath with
  | entry => exact ⟨fun heq => hmiss (by simp [heq]), .refl⟩
  | @step before a b block _ hblock hb ih =>
    rw [List.mem_append, not_or] at hmiss
    have hflow : eu.Flow a b :=
      ExecutionUnit.flow_iff.mpr ⟨htargets a block hblock b hb, block, hblock, hb⟩
    exact (ih hmiss.1).step hflow fun heq => hmiss.2 (by simp [heq])

theorem path_head (hpath : eu.PathTo before b) :
    ∃ rest, before ++ [b] = eu.entryBlockId :: rest := by
  induction hpath with
  | entry => exact ⟨[], rfl⟩
  | step _ _ _ ih =>
    obtain ⟨rest, hrest⟩ := ih
    exact ⟨rest ++ [_], by rw [hrest, List.cons_append]⟩

theorem Verified.definedOnPaths (h : Verified eu)
    (hentry : ∀ block, eu.blocks.lookup eu.entryBlockId = some block → block.params = []) :
    eu.DefinedOnPaths := by
  intro before b block hpath hblock index reg huse
  have hv := h.blocks b block hblock
  obtain ⟨-, site, hsite, havail⟩ := hv.uses index reg huse
  rw [h.ids b block hblock] at havail
  refine ⟨site, hsite, fun site' h' => h.single.site reg site' site h' hsite, ?_⟩
  have hmem : ∀ d, Dom eu.Flow eu.entryBlockId d b → d ∈ before ++ [b] := fun d =>
    mem_path_of_dom (fun b block hb => (h.blocks b block hb).targets) hpath
  cases site with
  | param d =>
    obtain ⟨rest, hrest⟩ := path_head hpath
    have hd := hmem d havail
    rw [hrest] at hd
    rcases List.mem_cons.mp hd with rfl | hd
    · -- the entry has no parameters
      obtain ⟨c, entry, hc, hparam⟩ := mem_unit_definitions.mp hsite
      obtain ⟨hid, hreg⟩ := mem_definitions_param.mp hparam
      rw [h.ids c entry hc] at hid
      rw [hentry entry (hid ▸ hc)] at hreg
      simp at hreg
    · show d ∈ (before ++ [b]).tail
      rw [hrest]
      exact hd
  | inst d i =>
    rcases havail with ⟨rfl, hi⟩ | ⟨hne, hdom⟩
    · exact .inr ⟨rfl, hi⟩
    · rcases List.mem_append.mp (hmem d hdom) with hd | hd
      · exact .inl hd
      · exact absurd (List.mem_singleton.mp hd) hne

theorem Verified.edgesComplete (h : Verified eu) : eu.EdgesComplete := by
  intro b block hblock edge hedge
  have hv := h.blocks b block hblock
  have htarget : edge.1 ∈ eu.blocks := hv.targets edge.1 <| by
    rw [← SIRTerminator.edges_fst]
    exact List.mem_map_of_mem hedge
  obtain ⟨target, hlookup⟩ := mem_table.mp htarget
  exact ⟨target, hlookup, (hv.edges edge hedge target hlookup).1⟩

end Paths

/-! ## Rejection for dominance -/

/-- Not the error of a use that is not dominated. -/
def Spares {α : Type} (x : Except SirVerifyError α) : Prop :=
  ∀ e, x = .error e → e.invariant ≠ "SSA.DEFINITION_DOMINATES_USE"

section Spares
variable {α β : Type}

theorem Spares.ok (a : α) : Spares (.ok a) := fun _ h => by cases h

theorem Spares.instruction {invariant message : String} {block : BlockId} {index : Nat}
    (h : invariant ≠ "SSA.DEFINITION_DOMINATES_USE") :
    Spares (.error (instructionError invariant block index message) : Except SirVerifyError α) := by
  rintro e ⟨⟩
  exact h

theorem Spares.block {invariant message : String} {block : BlockId}
    (h : invariant ≠ "SSA.DEFINITION_DOMINATES_USE") :
    Spares (.error (blockError invariant block message) : Except SirVerifyError α) := by
  rintro e ⟨⟩
  exact h

theorem Spares.bind {x : Except SirVerifyError α} {f : α → Except SirVerifyError β}
    (hx : Spares x) (hf : ∀ a, Spares (f a)) : Spares (x >>= f) := by
  intro e he
  cases x with
  | error e' =>
    cases he
    exact hx _ rfl
  | ok a => exact hf a e he

theorem Spares.ite {p : Prop} [Decidable p] {x y : Except SirVerifyError α} (hx : Spares x)
    (hy : Spares y) : Spares (if p then x else y) := by
  split
  · exact hx
  · exact hy

theorem Spares.forM {f : α → Except SirVerifyError Unit} {l : List α} (h : ∀ x, Spares (f x)) :
    Spares (l.forM f) := by
  induction l with
  | nil => exact .ok ()
  | cons x l ih => exact (h x).bind fun _ => ih

theorem Spares.foldlM {f : β → α → Except SirVerifyError β} {l : List α} {b : β}
    (h : ∀ b x, Spares (f b x)) : Spares (l.foldlM f b) := by
  induction l generalizing b with
  | nil => exact .ok b
  | cons x l ih => exact (h b x).bind fun _ => ih

end Spares

section Checks
variable {A : Type} (eu : ExecutionUnit A) (block : BlockId) (index : Nat)

theorem spares_registerType (instruction : Option Nat) (reg : RegisterId) :
    Spares (registerType eu block instruction reg) := by
  unfold registerType
  split
  · exact .ok _
  · cases instruction with
    | none => exact .block (by decide)
    | some => exact .instruction (by decide)

theorem spares_requireRegister (instruction : Option Nat) (reg : RegisterId) :
    Spares (requireRegister eu block instruction reg) :=
  (spares_registerType eu block instruction reg).bind fun _ => .ok ()

theorem spares_sameWidth (lhs rhs : RegisterId) {invariant : String}
    (h : invariant ≠ "SSA.DEFINITION_DOMINATES_USE") :
    Spares (sameWidth eu block index lhs rhs invariant) :=
  (spares_registerType eu block _ lhs).bind fun _ =>
    (spares_registerType eu block _ rhs).bind fun _ => .ite (.instruction h) (.ok ())

theorem spares_exactWidth (reg : RegisterId) (expected : Nat) {invariant : String}
    (h : invariant ≠ "SSA.DEFINITION_DOMINATES_USE") :
    Spares (exactWidth eu block index reg expected invariant) :=
  (spares_registerType eu block _ reg).bind fun _ => .ite (.instruction h) (.ok ())

theorem spares_unsignedIfBit (reg : RegisterId) {invariant : String}
    (h : invariant ≠ "SSA.DEFINITION_DOMINATES_USE") :
    Spares (unsignedIfBit eu block index reg invariant) :=
  (spares_registerType eu block _ reg).bind fun _ => .ite (.instruction h) (.ok ())

theorem spares_nonZeroWidth (width : Nat) {invariant : String}
    (h : invariant ≠ "SSA.DEFINITION_DOMINATES_USE") :
    Spares (nonZeroWidth block index width invariant) := .ite (.instruction h) (.ok ())

theorem spares_verifyOffset (offset : SIROffset) (accessWidth : Nat) :
    Spares (verifyOffset eu block index offset accessWidth) := by
  cases offset with
  | static => exact .ok ()
  | dynamic reg => exact spares_requireRegister eu block _ reg
  | packedElements bitOffset elementWidth =>
    refine .ite (.instruction (by decide)) ?_
    split
    · exact .instruction (by decide)
    · exact .ite (.instruction (by decide)) (.ok ())
  | element elementIndex elementWidth bitOffset dynamicBitOffset =>
    refine (spares_requireRegister eu block _ elementIndex).bind fun _ =>
      (Spares.forM (spares_requireRegister eu block _)).bind fun _ =>
        .ite (.instruction (by decide)) ?_
    split
    · exact .instruction (by decide)
    · exact .ite (.instruction (by decide)) (.ok ())

theorem spares_verifyBinaryTypes (dst lhs : RegisterId) (op : BinaryOp) (rhs : RegisterId) :
    Spares (verifyBinaryTypes eu block index dst lhs op rhs) := by
  have hreg := spares_requireRegister eu block (some index)
  cases op with
  | add | sub | mul | and | or | xor | shl | shr | sar =>
    exact (hreg dst).bind fun _ => (hreg lhs).bind fun _ => hreg rhs
  | divU | divS | remU | remS =>
    exact (spares_sameWidth eu block index dst lhs (by decide)).bind fun _ =>
      spares_sameWidth eu block index dst rhs (by decide)
  | logicAnd | logicOr =>
    exact (spares_exactWidth eu block index dst 1 (by decide)).bind fun _ =>
      (spares_unsignedIfBit eu block index dst (by decide)).bind fun _ =>
        (hreg lhs).bind fun _ => hreg rhs
  | eq | ne | eqCase | neCase | ltU | ltS | leU | leS | gtU | gtS | geU | geS | eqWildcard
  | neWildcard =>
    exact (spares_exactWidth eu block index dst 1 (by decide)).bind fun _ =>
      (spares_unsignedIfBit eu block index dst (by decide)).bind fun _ =>
        spares_sameWidth eu block index lhs rhs (by decide)

theorem spares_verifyUnaryTypes (dst : RegisterId) (op : UnaryOp) (src : RegisterId) :
    Spares (verifyUnaryTypes eu block index dst op src) := by
  have hreg := spares_requireRegister eu block (some index)
  have htype := spares_registerType eu block (some index)
  cases op with
  | logicNot | and | or | xor =>
    exact (spares_exactWidth eu block index dst 1 (by decide)).bind fun _ =>
      (spares_unsignedIfBit eu block index dst (by decide)).bind fun _ => hreg src
  | toTwoState =>
    refine (spares_sameWidth eu block index dst src (by decide)).bind fun _ =>
      (htype dst).bind fun ty => ?_
    cases ty with
    | bit => exact .ok ()
    | logic => exact .instruction (by decide)
  | minus | bitNot => exact spares_sameWidth eu block index dst src (by decide)
  | ident => exact (hreg dst).bind fun _ => hreg src
  | popCount | countLeadingZeros | countTrailingZeros =>
    exact (htype dst).bind fun _ => (htype src).bind fun _ =>
      .ite (.instruction (by decide)) (.ok ())

theorem spares_concatWidth (args : List RegisterId) :
    Spares (concatWidth eu block index args) := by
  refine .foldlM fun width arg => (spares_registerType eu block _ arg).bind fun ty => ?_
  split
  · exact .ok _
  · exact .instruction (by decide)

theorem spares_verifyInstructionTypes (inst : SIRInstruction A) :
    Spares (verifyInstructionTypes eu block index inst) := by
  have hreg := spares_requireRegister eu block (some index)
  have htype := spares_registerType eu block (some index)
  have hoffset := spares_verifyOffset eu block index
  cases inst with
  | imm dst value =>
    refine (htype dst).bind fun ty => .ite (.instruction (by decide)) ?_
    cases ty with
    | bit => exact .ite (.instruction (by decide)) (.ok ())
    | logic => exact .ok ()
  | binary dst lhs op rhs => exact spares_verifyBinaryTypes eu block index dst lhs op rhs
  | unary dst op src => exact spares_verifyUnaryTypes eu block index dst op src
  | load dst addr offset bits =>
    exact (spares_nonZeroWidth block index bits (by decide)).bind fun _ =>
      (htype dst).bind fun _ => .ite (.instruction (by decide)) (hoffset offset bits)
  | store addr offset bits src triggers sites =>
    refine .ite ?_ ((htype src).bind fun _ => .ite (.instruction (by decide)) (hoffset offset bits))
    split
    · exact .ok ()
    · exact .instruction (by decide)
  | commit src dst offset bits triggers =>
    exact (spares_nonZeroWidth block index bits (by decide)).bind fun _ => hoffset offset bits
  | concat dst args =>
    exact .ite (.instruction (by decide)) ((spares_concatWidth eu block index args).bind fun _ =>
      (htype dst).bind fun _ => .ite (.instruction (by decide)) (.ok ()))
  | slice dst src offset width =>
    refine (spares_nonZeroWidth block index width (by decide)).bind fun _ => ?_
    split
    · exact .instruction (by decide)
    · exact (htype src).bind fun _ => .ite (.instruction (by decide)) ((htype dst).bind fun _ =>
        .ite (.instruction (by decide)) (.ok ()))
  | mux dst cond thenVal elseVal =>
    exact (hreg cond).bind fun _ => (spares_sameWidth eu block index _ _ (by decide)).bind fun _ =>
      spares_sameWidth eu block index _ _ (by decide)
  | runtimeEvent site args => exact .forM hreg
  | combCaptureEvent site args code consume => exact .forM hreg
  | combCaptureEnableIfChanged old new sites =>
    exact spares_sameWidth eu block index old new (by decide)

theorem spares_verifyBlock (entry : (_ : BlockId) × BasicBlock A) :
    Spares (verifyBlock eu entry) := by
  obtain ⟨key, blk⟩ := entry
  have htype := spares_registerType eu blk.id none
  have hcases : ∀ width cases, Spares (verifyCases blk.id width cases) := fun width cases =>
    Spares.bind (.foldlM fun _ _ => .ite (.block (by decide)) (.ite (.block (by decide)) (.ok _)))
      fun _ => .ok ()
  have hterm : Spares (verifyTerminator eu blk.id blk.terminator) := by
    cases blk.terminator with
    | branch cond => exact (htype cond).bind fun _ => .ite (.block (by decide)) (.ok ())
    | switch selector cases default =>
      exact (htype selector).bind fun ty => .ite (.block (by decide)) (hcases ty.width cases)
    | jump => exact .ok ()
    | ret => exact .ok ()
    | error => exact .ok ()
  have hedge : ∀ edge, Spares (verifyEdge eu blk.id edge) := by
    rintro ⟨target, args⟩
    unfold verifyEdge
    dsimp only
    split
    · exact .ok ()
    · refine .ite (.block (by decide)) (.forM ?_)
      rintro ⟨⟨arg, param⟩, position⟩
      exact (htype arg).bind fun _ => (spares_registerType eu target none param).bind fun _ =>
        .ite (.block (by decide)) (.ok ())
  exact .ite (.block (by decide))
    ((Spares.forM fun _ => .ite (.ok ()) (.block (by decide))).bind fun _ =>
      hterm.bind fun _ => .forM hedge)

theorem spares_insertDef (defs : Table RegisterId DefSite) (reg : RegisterId) (site : DefSite)
    (instruction : Option Nat) : Spares (insertDef defs reg site block instruction) := by
  refine .ite ?_ (.ok _)
  cases instruction with
  | none => exact .block (by decide)
  | some => exact .instruction (by decide)

theorem spares_collectBlock (defs : Table RegisterId DefSite) (blk : BasicBlock A) :
    Spares (collectBlock eu defs blk) := by
  have hparams : Spares (collectParams eu blk defs) :=
    Spares.bind (.foldlM fun _ param => (spares_requireRegister eu blk.id none param).bind fun _ =>
      .ite (.block (by decide)) ((spares_insertDef blk.id _ _ _ _).bind fun _ => .ok _))
      fun _ => .ok _
  refine hparams.bind fun _ => .foldlM ?_
  rintro defs ⟨inst, i⟩
  refine (spares_verifyInstructionTypes eu blk.id i inst).bind fun _ => ?_
  split
  · exact (spares_requireRegister eu blk.id _ _).bind fun _ => spares_insertDef blk.id _ _ _ _
  · exact .ok _

end Checks

section Rejection
variable {A : Type} {eu : ExecutionUnit A} {e : SirVerifyError}

theorem bind_eq_error {α β ε : Type} {x : Except ε α} {f : α → Except ε β} {e : ε} :
    (x >>= f) = .error e ↔ x = .error e ∨ ∃ a, x = .ok a ∧ f a = .error e := by
  cases x with
  | error e' => simp [bind, Except.bind]
  | ok a => simp [bind, Except.bind]

theorem exists_of_forM_error {α ε : Type} {f : α → Except ε Unit} {l : List α} {e : ε}
    (h : l.forM f = .error e) : ∃ x ∈ l, f x = .error e := by
  induction l with
  | nil => cases h
  | cons x l ih =>
    have hcons : (x :: l).forM f = (f x >>= fun _ => l.forM f) := rfl
    rw [hcons, bind_eq_error] at h
    rcases h with h | ⟨-, -, h⟩
    · exact ⟨x, by simp, h⟩
    · obtain ⟨y, hy, hfy⟩ := ih h
      exact ⟨y, by simp [hy], hfy⟩

/-- A read whose definition does not dominate it. -/
def ExecutionUnit.Undominated (eu : ExecutionUnit A) : Prop :=
  ∃ b block, eu.blocks.lookup b = some block ∧ ReflTransGen eu.Flow eu.entryBlockId b ∧
    ∃ index reg, block.UsesAt index reg ∧ ∃ site, (reg, site) ∈ eu.definitions ∧
      ¬ eu.Available b index site

theorem verifyUse_error {defs : Table RegisterId DefSite} {dominators : Dominators}
    (h : Analysed eu defs dominators) {b : BlockId} (hb : b ∈ eu.blocks) {index : Nat}
    {reg : RegisterId} (he : verifyUse eu defs dominators b index reg = .error e)
    (hinv : e.invariant = "SSA.DEFINITION_DOMINATES_USE") :
    ∃ site, (reg, site) ∈ eu.definitions ∧ ¬ eu.Available b index site := by
  have hnot : verifyUse eu defs dominators b index reg ≠ .ok () := by
    rw [he]
    simp
  rw [ne_eq, verifyUse_ok h hb] at hnot
  rw [verifyUse, bind_eq_error] at he
  rcases he with hreg | ⟨_, hreg, hsite⟩
  · exact absurd hinv (spares_requireRegister eu b _ reg e hreg)
  · cases hlookup : defs.lookup reg with
    | none =>
      rw [hlookup] at hsite
      cases hsite
      exact absurd hinv (by simp [instructionError])
    | some site =>
      have hmem := (h.lookup reg site).mp hlookup
      exact ⟨site, hmem, fun hav => hnot ⟨requireRegister_ok.mp hreg, site, hmem, hav⟩⟩

theorem verifyUses_error {defs : Table RegisterId DefSite} {dominators : Dominators}
    (h : Analysed eu defs dominators) {block : BasicBlock A} (hb : block.id ∈ eu.blocks)
    (he : verifyUses eu defs dominators block = .error e)
    (hinv : e.invariant = "SSA.DEFINITION_DOMINATES_USE") :
    ∃ index reg, block.UsesAt index reg ∧ ∃ site, (reg, site) ∈ eu.definitions ∧
      ¬ eu.Available block.id index site := by
  rw [verifyUses, bind_eq_error] at he
  rcases he with he | ⟨-, -, he⟩
  · obtain ⟨⟨inst, index⟩, hinst, he⟩ := exists_of_forM_error he
    obtain ⟨reg, hreg, he⟩ := exists_of_forM_error he
    have hi := List.mem_zipIdx_iff_getElem?.mp hinst
    exact ⟨index, reg, .inl ⟨inst, hi, hreg⟩, verifyUse_error h hb he hinv⟩
  · obtain ⟨reg, hreg, he⟩ := exists_of_forM_error he
    exact ⟨_, reg, .inr ⟨rfl, hreg⟩, verifyUse_error h hb he hinv⟩

theorem verifySsa_error (hentry : eu.entryBlockId ∈ eu.blocks) (hids : eu.Keyed)
    (hall : ∀ b ∈ eu.blocks, ReflTransGen eu.Flow eu.entryBlockId b)
    (he : verifySsa eu (reachableBlocks eu) = .error e)
    (hinv : e.invariant = "SSA.DEFINITION_DOMINATES_USE") : eu.Undominated := by
  have hreach : ∀ b ∈ eu.blocks, b ∈ reachableBlocks eu := fun b hb =>
    ((reachableBlocks_spec hentry).2 b).mpr (hall b hb)
  obtain ⟨dominators, hcompute, hdom⟩ := computeDominators_exact hentry hids hall hreach
  rw [verifySsa, bind_eq_error] at he
  rcases he with he | ⟨defs, hdefs, he⟩
  · exact absurd hinv (Spares.foldlM (fun defs _ => spares_collectBlock eu defs _) e he)
  · rw [hcompute] at he
    obtain ⟨-, hfresh, rfl⟩ := collectBlocks_ok.mp hdefs
    have hanalysed : Analysed eu (insertAll ∅ eu.definitions) dominators := by
      refine ⟨hids, fun reg site => ?_, hdom⟩
      exact (lookup_insertAll hfresh).trans (by simp [ExecutionUnit.definitions])
    obtain ⟨⟨b, block⟩, hentry', he⟩ := exists_of_forM_error he
    have hblock := mem_entries.mp hentry'
    have hb : b ∈ eu.blocks := mem_table.mpr ⟨block, hblock⟩
    have hid := hids b block hblock
    obtain ⟨index, reg, huse, site, hsite, hnot⟩ :=
      verifyUses_error hanalysed (hid ▸ hb) he hinv
    exact ⟨b, block, hblock, hall b hb, index, reg, huse, site, hsite, hid ▸ hnot⟩

theorem undominated_of_rejected (he : eu.verifyResult = .error e)
    (hinv : e.invariant = "SSA.DEFINITION_DOMINATES_USE") : eu.Undominated := by
  rw [ExecutionUnit.verifyResult, verifyExecutionUnit] at he
  split at he
  · cases he
    exact absurd hinv (by decide)
  · split at he
    · cases he
      exact absurd hinv (by simp [functionError])
    · rename_i hentry
      rw [bind_eq_error] at he
      rcases he with he | ⟨-, -, he⟩
      · have hspares : Spares (eu.registerMap.entries.forM verifyRegister) :=
          .forM fun entry e' he' => by
            unfold verifyRegister at he'
            split at he'
            · cases he'
              simp [functionError]
            · cases he'
        exact absurd hinv (hspares e he)
      · rw [bind_eq_error] at he
        rcases he with he | ⟨_, hblocks, he⟩
        · exact absurd hinv (Spares.forM (spares_verifyBlock eu) e he)
        · dsimp only at he
          split at he
          · cases he
            exact absurd hinv (by simp [functionError])
          · rename_i hlen
            have hin : eu.entryBlockId ∈ eu.blocks := not_not.mp hentry
            have hids : eu.Keyed := fun b block hb =>
              (verifyBlock_ok.mp (forM_eq_ok.mp hblocks ⟨b, block⟩ (mem_entries.mpr hb))).1
            exact verifySsa_error hin hids
              ((reachableBlocks_length hin).mp (not_not.mp hlen)) he hinv

end Rejection

/-! ## Soundness -/

/-- An accepted unit reads only what its paths define and passes the arguments its blocks expect;
a rejection for dominance names a real violation. -/
theorem verifyResult_sound {A : Type} (eu : ExecutionUnit A) :
    (eu.verifyResult = .ok () →
      (∀ block, eu.blocks.lookup eu.entryBlockId = some block → block.params = []) →
      eu.DefinedOnPaths ∧ eu.EdgesComplete) ∧
    ∀ e, eu.verifyResult = .error e → e.invariant = "SSA.DEFINITION_DOMINATES_USE" →
      eu.Undominated := by
  refine ⟨fun hok hentry => ?_, fun e => undominated_of_rejected⟩
  have hv := (verifyResult_ok_iff eu).mp hok
  exact ⟨hv.definedOnPaths hentry, hv.edgesComplete⟩

/-- A loop whose header takes a counter. -/
def loopUnit : ExecutionUnit Nat where
  entryBlockId := 0
  blocks := [⟨0, ⟨0, [], [.imm 0 ⟨1, 0⟩], .jump 1 [0]⟩⟩,
    ⟨1, ⟨1, [1], [.unary 2 .bitNot 1], .branch 2 (1, [2]) (2, [])⟩⟩,
    ⟨2, ⟨2, [], [.store 7 (.static 0) 1 1 [] []], .ret⟩⟩].toAList
  registerMap := [⟨0, .bit 1 false⟩, ⟨1, .bit 1 false⟩, ⟨2, .bit 1 false⟩].toAList

/-- A read behind a branch one side of which has the definition. -/
def joinUnit : ExecutionUnit Nat where
  entryBlockId := 0
  blocks := [⟨0, ⟨0, [], [.imm 0 ⟨1, 0⟩], .branch 0 (1, []) (2, [])⟩⟩,
    ⟨1, ⟨1, [], [.imm 1 ⟨3, 0⟩], .jump 2 []⟩⟩,
    ⟨2, ⟨2, [], [.unary 2 .ident 1], .ret⟩⟩].toAList
  registerMap := [⟨0, .bit 1 false⟩, ⟨1, .bit 8 false⟩, ⟨2, .bit 8 false⟩].toAList

theorem verifyResult_sound_loop_and_join :
    loopUnit.DefinedOnPaths ∧ loopUnit.EdgesComplete ∧ joinUnit.Undominated := by
  have hloop := (verifyResult_sound loopUnit).1 (by decide) (by
    intro block hblock
    cases hblock
    rfl)
  exact ⟨hloop.1, hloop.2, (verifyResult_sound joinUnit).2
    ⟨"SSA.DEFINITION_DOMINATES_USE", some 2, some 0,
      "definition of r1 does not dominate this use"⟩ (by decide) rfl⟩

end Celox.Sir
