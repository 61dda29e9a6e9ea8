import Celox.Opt.CommitSinking
import Celox.Opt.InlineForwardingSound

/-! # Sunk commits publish the same

In front of a block whose commits were sunk, what they publish is in the stable copies already.
Where nothing in front of a commit touches its bits, that is the same as publishing them in its
place. -/
namespace Celox.Opt
open Celox.Sir Celox.Layout Celox.Data Relation

variable {A : Type} [DecidableEq A]

/-! ## Published bits -/

section Publish
variable {model : BitModel (RegionedAbsoluteAddr A)}
  {memory memory' : BitMemory (RegionedAbsoluteAddr A)} {a : RegionedAbsoluteAddr A} {bit : Nat}

/-- What a commit at a constant offset does. -/
def publish (model : BitModel (RegionedAbsoluteAddr A))
    (memory : BitMemory (RegionedAbsoluteAddr A)) :
    Instruction A → BitMemory (RegionedAbsoluteAddr A)
  | .commit src dst (.static off) bits _ => copyBits model memory src dst off off bits
  | _ => memory

def publishAll (model : BitModel (RegionedAbsoluteAddr A)) (commits : List (Instruction A))
    (memory : BitMemory (RegionedAbsoluteAddr A)) : BitMemory (RegionedAbsoluteAddr A) :=
  commits.foldl (publish model) memory

/-- A commit of a working copy to a stable one. -/
structure PublishesStable (inst : Instruction A) (src dst : RegionedAbsoluteAddr A)
    (off bits : Nat) : Prop where
  commit : ∃ triggers, inst = .commit src dst (.static off) bits triggers
  working : src.region = WORKING_REGION
  stable : dst.region = STABLE_REGION

theorem publish_frame {inst : Instruction A} (h : ¬ inst.mayWrite a bit) :
    publish model memory inst a bit = memory a bit := by
  unfold publish
  split
  · exact if_neg fun hin => h ⟨hin.1.symm, hin.2⟩
  · rfl

theorem publishAll_frame {commits : List (Instruction A)}
    (h : ∀ inst ∈ commits, ¬ inst.mayWrite a bit) :
    publishAll model commits memory a bit = memory a bit := by
  induction commits generalizing memory with
  | nil => rfl
  | cons inst commits ih =>
    rw [publishAll, List.foldl_cons]
    exact (ih fun other hother => h other (List.mem_cons_of_mem _ hother)).trans
      (publish_frame (h inst List.mem_cons_self))

/-- What is published depends on the working bits only. -/
theorem publishAll_agree {commits : List (Instruction A)}
    (h : ∀ inst ∈ commits, ∃ src dst off bits, PublishesStable inst src dst off bits)
    (hread : ∀ inst ∈ commits, ∀ a bit, inst.mayRead a bit → memory a bit = memory' a bit)
    (hor : memory a bit = memory' a bit ∨ ∃ inst ∈ commits, inst.mayWrite a bit) :
    publishAll model commits memory a bit = publishAll model commits memory' a bit := by
  induction commits generalizing memory memory' with
  | nil =>
    rcases hor with heq | ⟨_, hmem, -⟩
    · exact heq
    · cases hmem
  | cons inst commits ih =>
    obtain ⟨⟨src, dst, off, bits, hpub⟩, hrest⟩ := List.forall_mem_cons.mp h
    obtain ⟨triggers, rfl⟩ := hpub.commit
    rw [publishAll, publishAll, List.foldl_cons, List.foldl_cons]
    refine ih hrest (fun other hother x k hx => ?_) ?_
    · obtain ⟨src', dst', off', bits', hpub'⟩ := hrest other hother
      obtain ⟨triggers', rfl⟩ := hpub'.commit
      have hne : ¬ (SIRInstruction.commit src dst (.static off) bits triggers).mayWrite x k := by
        rintro ⟨rfl, -⟩
        have hregion := hpub'.working
        rw [show src' = dst from hx.1, hpub.stable] at hregion
        cases hregion
      rw [publish_frame hne, publish_frame hne]
      exact hread _ (List.mem_cons_of_mem _ hother) x k hx
    · by_cases hin : a = dst ∧ off ≤ bit ∧ bit < off + bits
      · have hsame := hread _ List.mem_cons_self src bit ⟨rfl, hin.2⟩
        left
        simp only [publish, copyBits, if_pos hin, show off + (bit - off) = bit by omega, hsame]
      · have hne : ¬ (SIRInstruction.commit src dst (.static off) bits triggers).mayWrite a bit :=
          fun hwrite => hin ⟨hwrite.1.symm, hwrite.2⟩
        rw [publish_frame hne, publish_frame hne]
        refine hor.imp_right ?_
        rintro ⟨other, hother, hwrite⟩
        rcases List.mem_cons.mp hother with rfl | hother
        · exact absurd hwrite hne
        · exact ⟨other, hother, hwrite⟩

/-- Ranges behind each other are published like the range they make up. -/
theorem copyBits_contiguous {src dst : RegionedAbsoluteAddr A} {ranges : List (Nat × Nat)}
    {off : Nat} (h : contiguousRanges off ranges = true) :
    ranges.foldl (fun memory range =>
        copyBits model memory src dst range.1 range.1 range.2) memory =
      copyBits model memory src dst off off (ranges.map (·.2)).sum := by
  induction ranges generalizing memory off with
  | nil =>
    funext a bit
    refine (if_neg fun hin => ?_).symm
    simp only [List.map_nil, List.sum_nil] at hin
    omega
  | cons range ranges ih =>
    rw [contiguousRanges, Bool.and_eq_true, decide_eq_true_eq] at h
    obtain ⟨rfl, hrest⟩ := h
    rw [List.foldl_cons, ih hrest, List.map_cons, List.sum_cons]
    funext a bit
    simp only [copyBits]
    generalize (ranges.map (·.2)).sum = rest
    by_cases ha : a = dst
    · subst ha
      simp only [true_and]
      by_cases hlow : range.1 ≤ bit ∧ bit < range.1 + range.2
      · rw [if_neg (by omega), if_pos (by omega), if_pos (by omega)]
      · by_cases hhigh : range.1 + range.2 ≤ bit ∧ bit < range.1 + range.2 + rest
        · rw [if_pos (by omega), if_neg (by omega), if_pos (by omega)]
          congr 2
          omega
        · rw [if_neg (by omega), if_neg (by omega), if_neg (by omega)]
    · simp only [ha, false_and, if_false]

end Publish

/-! ## Publishing in front -/

section Front
variable {eu : RegionedUnit A} {model : BitModel (RegionedAbsoluteAddr A)}
  {s s' t : State (RegionedAbsoluteAddr A) (BitMemory (RegionedAbsoluteAddr A))}
  {inst : Instruction A} {commits list : List (Instruction A)}

/-- Of two states the second one is behind some commits. -/
structure BehindCommits (model : BitModel (RegionedAbsoluteAddr A)) (commits : List (Instruction A))
    (s s' : State (RegionedAbsoluteAddr A) (BitMemory (RegionedAbsoluteAddr A))) : Prop where
  regs : s'.regs = s.regs
  memory : s'.memory = publishAll model commits s.memory

/-- An instruction does the same in front of a commit and behind it. -/
structure Untouched (inst commit : Instruction A) : Prop where
  reads : ∀ a bit, commit.mayRead a bit → ¬ inst.mayWrite a bit
  writes : ∀ a bit, commit.mayWrite a bit → ¬ inst.mayRead a bit ∧ ¬ inst.mayWrite a bit

theorem BehindCommits.pass
    (hpub : ∀ c ∈ commits, ∃ src dst off bits, PublishesStable c src dst off bits)
    (hclear : ∀ c ∈ commits, Untouched inst c) (h : BehindCommits model commits s s')
    (hexec : eu.execInstruction model.machine s inst = some t) :
    ∃ t', eu.execInstruction model.machine s' inst = some t' ∧
      BehindCommits model commits t t' := by
  have hread : ∀ a bit, inst.mayRead a bit ∨ (∀ c ∈ commits, ¬ c.mayWrite a bit) ∧
      ¬ inst.mustWrite a bit → s.memory a bit = s'.memory a bit := by
    intro a bit hor
    rw [h.memory]
    refine (publishAll_frame fun c hc hwrite => ?_).symm
    rcases hor with hread | ⟨hquiet, -⟩
    · exact ((hclear c hc).writes a bit hwrite).1 hread
    · exact hquiet c hc hwrite
  obtain ⟨t', hexec', hregs, hmemory⟩ := exec_alike h.regs hread hexec
  refine ⟨t', hexec', hregs, funext fun a => funext fun bit => ?_⟩
  by_cases hquiet : ∀ c ∈ commits, ¬ c.mayWrite a bit
  · rw [publishAll_frame hquiet, hmemory a bit hquiet]
  · -- the instruction leaves alone what is published, and what it is published from
    simp only [not_forall, not_not] at hquiet
    obtain ⟨c, hc, hwrite⟩ := hquiet
    rw [exec_memory hexec' ((hclear c hc).writes a bit hwrite).2, h.memory]
    exact publishAll_agree hpub (fun c hc x k hx =>
      (exec_memory hexec ((hclear c hc).reads x k hx)).symm) (.inr ⟨c, hc, hwrite⟩)

theorem BehindCommits.same (h : BehindCommits model [] s s')
    (hexec : eu.execInstruction model.machine s inst = some t) :
    ∃ t', eu.execInstruction model.machine s' inst = some t' ∧ BehindCommits model [] t t' :=
  h.pass (fun c hc => by cases hc) (fun c hc => by cases hc) hexec

theorem BehindCommits.sameList (h : BehindCommits model [] s s')
    (hexec : eu.execList model.machine s list = some t) :
    ∃ t', eu.execList model.machine s' list = some t' ∧ BehindCommits model [] t t' := by
  induction list generalizing s s' with
  | nil =>
    cases hexec
    exact ⟨s', rfl, h⟩
  | cons inst list ih =>
    obtain ⟨u, hu, hrest⟩ := Option.bind_eq_some_iff.mp hexec
    obtain ⟨u', hu', hahead⟩ := h.same hu
    obtain ⟨t', ht', hend⟩ := ih hahead hrest
    exact ⟨t', by rw [ExecutionUnit.execList, hu']; exact ht', hend⟩

/-- Without the commits, behind them, a list does the same. -/
theorem BehindCommits.body {p : Instruction A → Bool}
    (hpub : ∀ inst ∈ list, p inst = true →
      ∃ src dst off bits, PublishesStable inst src dst off bits)
    (hclear : list.Pairwise fun inst c => p inst = false → p c = true → Untouched inst c)
    (h : BehindCommits model (list.filter p) s s')
    (hexec : eu.execList model.machine s list = some t) :
    ∃ t', eu.execList model.machine s' (list.filter fun inst => !p inst) = some t' ∧
      BehindCommits model [] t t' := by
  induction list generalizing s s' with
  | nil =>
    cases hexec
    exact ⟨s', rfl, h⟩
  | cons inst list ih =>
    obtain ⟨u, hu, hrest⟩ := Option.bind_eq_some_iff.mp hexec
    obtain ⟨hinst, hpubs⟩ := List.forall_mem_cons.mp hpub
    obtain ⟨hfront, hclears⟩ := List.pairwise_cons.mp hclear
    cases hp : p inst with
    | true =>
      rw [List.filter_cons_of_neg (by rw [hp]; exact Bool.false_ne_true)]
      rw [List.filter_cons_of_pos hp] at h
      obtain ⟨src, dst, off, bits, hcommit⟩ := hinst hp
      obtain ⟨triggers, rfl⟩ := hcommit.commit
      obtain ⟨hregs, hmemory⟩ := exec_commit hu
      refine ih hpubs hclears ⟨h.regs.trans hregs.symm, ?_⟩ hrest
      rw [h.memory, hmemory]
      rfl
    | false =>
      rw [List.filter_cons_of_pos (by rw [hp]; rfl), ExecutionUnit.execList]
      rw [List.filter_cons_of_neg (by rw [hp]; exact Bool.false_ne_true)] at h
      obtain ⟨u', hu', hahead⟩ := h.pass (fun c hc => hpubs c (List.mem_filter.mp hc).1
        (List.mem_filter.mp hc).2) (fun c hc => hfront c (List.mem_filter.mp hc).1 hp
          (List.mem_filter.mp hc).2) hu
      rw [hu']
      exact ih hpubs hclears hahead hrest

/-- A register that holds what a commit copies, as it is kept there. -/
def HoldsFor (model : BitModel (RegionedAbsoluteAddr A)) (inst : Instruction A) (reg : RegisterId)
    (s : State (RegionedAbsoluteAddr A) (BitMemory (RegionedAbsoluteAddr A))) : Prop :=
  ∃ value, s.regs reg = some value ∧ ∀ src dst off bits, PublishesStable inst src dst off bits →
    ∀ k < bits, s.memory src (off + k) = model.hold src (value.bit k)

/-- Stores of such registers publish what the commits would. -/
theorem exec_stores {sinkableOf : Instruction A → Option (SinkableCommit A)} {b : BlockId}
    (hhold : ∀ inst ∈ list, ∀ src dst off bits, PublishesStable inst src dst off bits →
      ∀ value, model.hold dst (model.hold src value) = model.hold dst value)
    (hsunk : ∀ inst ∈ list, ∀ sinkable, sinkableOf inst = some sinkable →
      (∃ src, PublishesStable inst src sinkable.dst sinkable.off sinkable.bits) ∧
        ∃ reg, sinkable.storesIn b = [sinkable.store reg] ∧ HoldsFor model inst reg s) :
    ∃ t, eu.execList model.machine s ((list.filterMap sinkableOf).flatMap (·.storesIn b)) = some t ∧
      BehindCommits model (list.filter fun inst => (sinkableOf inst).isSome) s t := by
  induction list generalizing s with
  | nil => exact ⟨s, rfl, rfl, rfl⟩
  | cons inst list ih =>
    obtain ⟨hholdInst, hholds⟩ := List.forall_mem_cons.mp hhold
    obtain ⟨hfirst, hrest⟩ := List.forall_mem_cons.mp hsunk
    cases hsinkable : sinkableOf inst with
    | none =>
      rw [List.filterMap_cons_none hsinkable,
        List.filter_cons_of_neg (by rw [hsinkable]; exact Bool.false_ne_true)]
      exact ih hholds hrest
    | some sinkable =>
      obtain ⟨⟨src, hpub⟩, reg, hstores, value, hvalue, hbits⟩ := hfirst sinkable hsinkable
      obtain ⟨triggers, rfl⟩ := hpub.commit
      obtain ⟨u, hu, hregs, hwritten⟩ := exec_static_store model eu (s := s) sinkable.dst
        sinkable.off sinkable.bits [] [] hvalue
      have hmemory : u.memory = copyBits model s.memory src sinkable.dst sinkable.off sinkable.off
          sinkable.bits := by
        rw [hwritten]
        funext a bit
        simp only [writeBits, copyBits]
        split
        · rename_i hin
          rw [hbits src _ _ _ hpub (bit - sinkable.off) (by omega), hholdInst src _ _ _ hpub]
        · rfl
      obtain ⟨t, ht, hahead⟩ := ih (s := u) hholds fun other hother sinkable' hsinkable' => by
        obtain ⟨hpub', reg', hstores', value', hvalue', hbits'⟩ :=
          hrest other hother sinkable' hsinkable'
        refine ⟨hpub', reg', hstores', value', by rw [hregs, hvalue'], ?_⟩
        intro src' dst' off' bits' hother' k hk
        rw [← hbits' src' dst' off' bits' hother' k hk, hmemory]
        refine if_neg fun hin => ?_
        have hregion := hother'.working
        rw [hin.1, hpub.stable] at hregion
        cases hregion
      refine ⟨t, ?_, ?_⟩
      · rw [List.filterMap_cons_some hsinkable, List.flatMap_cons, hstores, List.singleton_append,
          ExecutionUnit.execList, SinkableCommit.store, hu]
        exact ht
      · rw [List.filter_cons_of_pos (by rw [hsinkable]; rfl)]
        refine ⟨hahead.regs.trans hregs, ?_⟩
        rw [hahead.memory, hmemory]
        rfl

end Front

/-! ## The register that was found -/

section Resolve
variable {eu : RegionedUnit A} {model : BitModel (RegionedAbsoluteAddr A)}
  {s t : State (RegionedAbsoluteAddr A) (BitMemory (RegionedAbsoluteAddr A))}
  {src : RegionedAbsoluteAddr A} {off bits : Nat} {reg : RegisterId} {list : List (Instruction A)}

/-- A store at a constant offset that meets a range. -/
def MeetsRange (src : RegionedAbsoluteAddr A) (off bits : Nat) (inst : Instruction A) : Prop :=
  ∃ storeOff storeBits reg triggers sites,
    inst = .store src (.static storeOff) storeBits reg triggers sites ∧
      off < storeOff + storeBits ∧ storeOff < off + bits

omit [DecidableEq A] in
theorem definingConcat_some {args : List RegisterId} (h : definingConcat reg list = some args) :
    ∃ later earlier, list = later ++ .concat reg args :: earlier := by
  induction list with
  | nil => cases h
  | cons inst list ih =>
    unfold definingConcat at h
    split at h
    · rename_i dst args'
      split at h
      · rename_i heq
        cases h
        subst heq
        exact ⟨[], list, rfl⟩
      · obtain ⟨later, earlier, rfl⟩ := ih h
        exact ⟨_ :: later, earlier, rfl⟩
    · obtain ⟨later, earlier, rfl⟩ := ih h
      exact ⟨inst :: later, earlier, rfl⟩

/-- Going backwards, the first store that meets the range covers it, and the register is stored
there: as a whole, or as an argument of the concatenation that is stored. -/
def FoundIn (registerMap : Table RegisterId RegisterType) (src : RegionedAbsoluteAddr A)
    (off bits : Nat) (reg : RegisterId) (list : List (Instruction A)) : Prop :=
  ∃ later storeOff storeBits storeSrc triggers sites earlier,
    list = later ++ .store src (.static storeOff) storeBits storeSrc triggers sites :: earlier ∧
    (∀ inst ∈ later, ¬ MeetsRange src off bits inst) ∧
    off < storeOff + storeBits ∧ storeOff < off + bits ∧ storeOff ≤ off ∧
    off + bits ≤ storeOff + storeBits ∧
    (reg = storeSrc ∧ off = storeOff ∨ ∃ args between before,
      earlier = between ++ .concat storeSrc args :: before ∧
        extractSubregFromConcat registerMap (off - storeOff) bits 0 args.reverse = some reg)

theorem resolve_some {registerMap : Table RegisterId RegisterType}
    (h : resolveForwardSrcFromPred registerMap src off bits list = some reg) :
    FoundIn registerMap src off bits reg list := by
  induction list with
  | nil => cases h
  | cons inst list ih =>
    have hskip : resolveForwardSrcFromPred registerMap src off bits list = some reg →
        ¬ MeetsRange src off bits inst → FoundIn registerMap src off bits reg (inst :: list) := by
      intro h hnot
      obtain ⟨later, storeOff, storeBits, storeSrc, triggers, sites, earlier, rfl, hlater, hrest⟩ :=
        ih h
      exact ⟨inst :: later, storeOff, storeBits, storeSrc, triggers, sites, earlier, rfl,
        List.forall_mem_cons.mpr ⟨hnot, hlater⟩, hrest⟩
    unfold resolveForwardSrcFromPred at h
    split at h
    · rename_i addr storeOff storeBits storeSrc triggers sites
      split at h
      · rename_i hmeets
        obtain ⟨rfl, hlt, hgt⟩ := hmeets
        refine ⟨[], storeOff, storeBits, storeSrc, triggers, sites, list, rfl, nofun, hlt, hgt, ?_⟩
        split at h
        · cases h
        · split at h
          · cases h
          · split at h
            · rename_i hexact
              cases h
              exact ⟨by omega, by omega, .inl ⟨rfl, hexact.1⟩⟩
            · obtain ⟨args, hargs, hextract⟩ := Option.bind_eq_some_iff.mp h
              obtain ⟨between, before, rfl⟩ := definingConcat_some hargs
              exact ⟨by omega, by omega, .inr ⟨args, between, before, rfl, hextract⟩⟩
      · rename_i hnot
        refine hskip h ?_
        rintro ⟨_, _, _, _, _, heq, hrange⟩
        cases heq
        exact hnot ⟨rfl, hrange⟩
    · rename_i hnot
      refine hskip h ?_
      rintro ⟨_, _, _, _, _, rfl, -⟩
      exact hnot _ _ _ _ _ _ rfl

omit [DecidableEq A] in
/-- The bits of an argument are those of the concatenation. -/
theorem extract_bits {regs : Registers} {args : List RegisterId} {relOff width lsb : Nat}
    {values : List (RegisterType × SIRValue)} (hfits : Fits eu regs)
    (hvalues : args.mapM (eu.operand regs) = some values)
    (h : extractSubregFromConcat eu.registerMap relOff width lsb args = some reg) :
    lsb ≤ relOff ∧ reg ∈ args ∧ ∃ value, regs reg = some value ∧
      ∀ k < width, (evalConcat values.reverse).bit (relOff - lsb + k) = value.bit k := by
  induction args generalizing lsb values with
  | nil => cases h
  | cons arg args ih =>
    simp only [List.mapM_cons, Option.bind_eq_bind, Option.bind_eq_some_iff, Option.pure_def,
      Option.some.injEq] at hvalues
    obtain ⟨⟨type, value⟩, hoperand, rest, hrest, rfl⟩ := hvalues
    simp only [ExecutionUnit.operand, Option.bind_eq_bind, Option.bind_eq_some_iff, Option.pure_def,
      Option.some.injEq, Prod.mk.injEq] at hoperand
    obtain ⟨_, htype, _, hvalue, rfl, rfl⟩ := hoperand
    have hfit := hfits arg _ _ htype hvalue
    unfold extractSubregFromConcat regWidth at h
    simp only [htype, Option.map_some, Option.bind_eq_bind, Option.bind_some] at h
    rw [List.reverse_cons, evalConcat_append]
    split at h
    · rename_i hin
      split at h
      · rename_i hexact
        cases h
        refine ⟨hin.1, List.mem_cons_self, _, hvalue, fun k hk => ?_⟩
        rw [above_bit hfit, if_pos (by omega)]
        congr 1
        omega
      · cases h
    · obtain ⟨hle, hmem, found, hfound, hbits⟩ := ih hrest h
      refine ⟨by omega, List.mem_cons_of_mem _ hmem, found, hfound, fun k hk => ?_⟩
      rw [above_bit hfit, if_neg (by omega), ← hbits k hk]
      congr 1
      omega

/-- What a verified block promises of its instructions. -/
structure KeepsValues (eu : RegionedUnit A) (list : List (Instruction A)) : Prop where
  kept : list.Pairwise fun inst later => ∀ reg ∈ inst.registers, later.definedRegister ≠ some reg
  apart : ∀ inst ∈ list, ∀ reg ∈ inst.uses, inst.definedRegister ≠ some reg
  stores : ∀ addr offset bits src triggers sites,
    .store addr offset bits src triggers sites ∈ list → bits ≠ 0 →
      ∃ type, eu.types src = some type ∧ bits ≤ type.width

omit [DecidableEq A] in
theorem keepsValues_of_verified (hv : Verified eu) {b : BlockId}
    {block : BasicBlock (RegionedAbsoluteAddr A)} (hb : eu.blocks.lookup b = some block) :
    KeepsValues eu block.instructions := by
  refine ⟨List.pairwise_iff_getElem.mpr fun i j hi hj hlt reg hreg => ?_,
    fun inst hinst reg hreg h => ?_, fun addr offset bits src triggers sites hinst hbits => ?_⟩
  · have hget := List.getElem?_eq_getElem hi
    have hlater := List.getElem?_eq_getElem hj
    rcases List.mem_append.mp hreg with hdef | huse
    · exact hv.undefined_defined hb hget (Option.mem_toList.mp hdef) j _ hlt hlater
    · exact hv.undefined_used hb hget huse j _ hlt hlater
  · obtain ⟨i, hi⟩ := List.mem_iff_getElem?.mp hinst
    exact absurd (hv.not_used_before hb hi h hi hreg) (lt_irrefl i)
  · have htyped := (hv.blocks b block hb).typed.typed _ hinst
    simp only [InstructionTyped, hbits, if_false] at htyped
    exact htyped.1

/-- A list of instructions leaves a bit that none of them may write. -/
theorem execList_memory {a : RegionedAbsoluteAddr A} {bit : Nat}
    (h : ∀ inst ∈ list, ¬ inst.mayWrite a bit) (hexec : eu.execList model.machine s list = some t) :
    t.memory a bit = s.memory a bit := by
  induction list generalizing s with
  | nil =>
    cases hexec
    rfl
  | cons inst list ih =>
    obtain ⟨u, hu, hrest⟩ := Option.bind_eq_some_iff.mp hexec
    obtain ⟨hinst, hothers⟩ := List.forall_mem_cons.mp h
    exact (ih hothers hrest).trans (exec_memory hu hinst)

/-- Behind the last store that meets the range nothing else writes to it. -/
def QuietBehind (src : RegionedAbsoluteAddr A) (off bits : Nat) (list : List (Instruction A)) :
    Prop :=
  ∀ before store after, list = before ++ store :: after → MeetsRange src off bits store →
    (∀ later ∈ after, ¬ MeetsRange src off bits later) →
      ∀ later ∈ after, ∀ bit, off ≤ bit → bit < off + bits → ¬ later.mayWrite src bit

/-- At the end of the block the register holds what the working copy does. -/
theorem KeepsValues.holds (h : KeepsValues eu list) (hfits : Fits eu s.regs)
    (hquiet : QuietBehind src off bits list)
    (hfound : FoundIn eu.registerMap src off bits reg list.reverse)
    (hexec : eu.execList model.machine s list = some t) :
    ∃ value, t.regs reg = some value ∧
      ∀ k < bits, t.memory src (off + k) = model.hold src (value.bit k) := by
  obtain ⟨later, storeOff, storeBits, storeSrc, triggers, sites, earlier, hlist, hlater, hlt, hgt,
    hle, hcovers, hwhere⟩ := hfound
  have hsplit : list = earlier.reverse ++
      .store src (.static storeOff) storeBits storeSrc triggers sites :: later.reverse := by
    rw [← List.reverse_reverse list, hlist]
    simp
  have hbehind := hquiet _ _ _ hsplit ⟨_, _, _, _, _, rfl, hlt, hgt⟩
    (fun inst hinst => hlater inst (List.mem_reverse.mp hinst))
  have hbits : storeBits ≠ 0 := by omega
  have htype := h.stores src (.static storeOff) storeBits storeSrc triggers sites
    (by rw [hsplit]; simp) hbits
  have hkept := h.kept
  rw [hsplit] at hexec hkept
  rw [execList_append] at hexec
  obtain ⟨s₁, hfirst, hexec⟩ := Option.bind_eq_some_iff.mp hexec
  obtain ⟨s₂, hstore, hlast⟩ := Option.bind_eq_some_iff.mp hexec
  obtain ⟨value, _, hvalue, hregs, hmemory, -⟩ := exec_store (.inl rfl) hbits hstore
  have hstored : ∀ k < bits, t.memory src (off + k) =
      model.hold src (value.bit (off - storeOff + k)) := by
    intro k hk
    rw [execList_memory (fun inst hinst =>
      hbehind inst hinst (off + k) (by omega) (by omega)) hlast, hmemory]
    simp only [writeBits]
    rw [if_pos ⟨trivial, by omega, by omega⟩]
    congr 2
    omega
  rcases hwhere with ⟨rfl, rfl⟩ | ⟨args, between, before, rfl, hextract⟩
  · refine ⟨value, ?_, fun k hk => ?_⟩
    · have hundefined := (List.pairwise_cons.mp (List.pairwise_append.mp hkept).2.1).1
      rw [execList_frame (fun inst hinst => hundefined inst hinst reg ?_) hlast, hregs, hvalue]
      simp [SIRInstruction.registers, SIRInstruction.uses, hbits]
    · rw [hstored k hk, Nat.sub_self, Nat.zero_add]
  · -- the concatenation, and then everything behind it
    simp only [List.reverse_append, List.reverse_cons, List.append_assoc, List.singleton_append]
      at hfirst hkept
    rw [execList_append] at hfirst
    obtain ⟨u₁, hbefore, hfirst⟩ := Option.bind_eq_some_iff.mp hfirst
    obtain ⟨u₂, hconcat, hbetween⟩ := Option.bind_eq_some_iff.mp hfirst
    have hundefined := (List.pairwise_cons.mp (List.pairwise_append.mp hkept).2.1).1
    simp only [ExecutionUnit.execInstruction, Option.bind_eq_bind, Option.bind_eq_some_iff,
      Option.pure_def, Option.some.injEq] at hconcat
    obtain ⟨values, hvalues, rfl⟩ := hconcat
    obtain ⟨-, hmem, found, hreg, hbit⟩ := extract_bits (hfits.execList hbefore)
      (mapM_reverse hvalues) hextract
    have harg : reg ∈ args := List.mem_reverse.mp hmem
    have hne : reg ≠ storeSrc := by
      rintro rfl
      exact h.apart (.concat reg args) (by rw [hsplit]; simp) reg harg rfl
    refine ⟨found, ?_, fun k hk => ?_⟩
    · have hsame : t.regs reg = s₂.regs reg := execList_frame (fun inst hinst =>
        hundefined inst (by simp [hinst]) reg (by simp [SIRInstruction.registers,
          SIRInstruction.uses, harg])) hlast
      have hsame' := execList_frame (fun inst hinst => hundefined inst (by simp [hinst]) reg
        (by simp [SIRInstruction.registers, SIRInstruction.uses, harg])) hbetween
      rw [hsame, hregs, hsame', ← hreg]
      exact Function.update_of_ne hne _ _
    · have hsource := execList_frame (fun inst hinst => hundefined inst (by simp [hinst]) storeSrc
        (by simp [SIRInstruction.registers, SIRInstruction.definedRegister])) hbetween
      rw [hvalue] at hsource
      have hconcat : some value = some (eu.kept storeSrc (evalConcat values)) :=
        hsource.trans (Function.update_self _ _ _)
      cases hconcat
      obtain ⟨type, htyped, hwide⟩ := htype
      rw [hstored k hk, kept_bit htyped _ (by omega)]
      have hk' := hbit k hk
      rw [List.reverse_reverse, Nat.sub_zero] at hk'
      rw [hk']

end Resolve

/-! ## Pieces -/

section Pieces
variable {eu : RegionedUnit A} {model : BitModel (RegionedAbsoluteAddr A)} {b : BlockId}
  {s s' t : State (RegionedAbsoluteAddr A) (BitMemory (RegionedAbsoluteAddr A))}
  {src dst : RegionedAbsoluteAddr A} {list : List (Instruction A)}

theorem exec_pieces (eu : RegionedUnit A) (model : BitModel (RegionedAbsoluteAddr A))
    (s : State (RegionedAbsoluteAddr A) (BitMemory (RegionedAbsoluteAddr A)))
    (src dst : RegionedAbsoluteAddr A) (ranges : List (Nat × Nat)) :
    ∃ t, eu.execList model.machine s (ranges.map fun range =>
        .commit src dst (.static range.1) range.2 []) = some t ∧ t.regs = s.regs ∧
      t.memory = ranges.foldl (fun memory range =>
        copyBits model memory src dst range.1 range.1 range.2) s.memory := by
  induction ranges generalizing s with
  | nil => exact ⟨s, rfl, rfl, rfl⟩
  | cons range ranges ih =>
    obtain ⟨u, hu⟩ : ∃ u, eu.execInstruction model.machine s
        (.commit src dst (.static range.1) range.2 []) = some u := ⟨_, rfl⟩
    obtain ⟨hregs, hmemory⟩ := exec_commit hu
    obtain ⟨t, ht, hregs', hmemory'⟩ := ih u
    refine ⟨t, ?_, hregs'.trans hregs, by rw [hmemory', hmemory]; rfl⟩
    rw [List.map_cons, ExecutionUnit.execList, hu]
    exact ht

/-- A block with its commits in pieces does the same. -/
theorem exec_split (h : BehindCommits model [] s s')
    (hexec : eu.execList model.machine s list = some t) :
    ∃ t', eu.execList model.machine s' (splitInstructions eu b list) = some t' ∧
      BehindCommits model [] t t' := by
  unfold splitInstructions
  split
  · induction list generalizing s s' with
    | nil =>
      cases hexec
      exact ⟨s', rfl, h⟩
    | cons inst list ih =>
      obtain ⟨u, hu, hrest⟩ := Option.bind_eq_some_iff.mp hexec
      have hpiece : ∃ u', eu.execList model.machine s'
          ((splitCommit eu (commitMergePredecessors eu b).jump inst).getD [inst]) = some u' ∧
          BehindCommits model [] u u' := by
        cases hsplit : splitCommit eu (commitMergePredecessors eu b).jump inst with
        | none =>
          obtain ⟨u', hu', hahead⟩ := h.same hu
          exact ⟨u', by rw [Option.getD_none, execList_singleton, hu'], hahead⟩
        | some pieces =>
          obtain ⟨src, dst, off, bits, triggers, ranges, rfl, hsum, hcontiguous, rfl⟩ :=
            splitCommit_some hsplit
          obtain ⟨hregs, hmemory⟩ := exec_commit hu
          obtain ⟨u', hu', hregs', hmemory'⟩ := exec_pieces eu model s' src dst ranges
          refine ⟨u', hu', hregs'.trans (h.regs.trans hregs.symm), ?_⟩
          rw [hmemory', copyBits_contiguous hcontiguous, hsum, h.memory, hmemory]
          rfl
      obtain ⟨u', hu', hahead⟩ := hpiece
      obtain ⟨t', ht', hend⟩ := ih hahead hrest
      refine ⟨t', ?_, hend⟩
      rw [List.flatMap_cons, execList_append, hu', Option.bind_some]
      exact ht'
  · exact h.sameList hexec

/-- An instruction of a block in pieces is one of the block, or a piece of a commit. -/
theorem mem_splitInstructions {inst : Instruction A} (h : inst ∈ splitInstructions eu b list) :
    inst ∈ list ∨ ∃ src dst off bits triggers, ∃ range : Nat × Nat,
      .commit src dst (.static off) bits triggers ∈ list ∧
        inst = .commit src dst (.static range.1) range.2 [] := by
  unfold splitInstructions at h
  split at h
  · obtain ⟨other, hother, hinst⟩ := List.mem_flatMap.mp h
    cases hsplit : splitCommit eu (commitMergePredecessors eu b).jump other with
    | none =>
      rw [hsplit, Option.getD_none, List.mem_singleton] at hinst
      exact .inl (hinst ▸ hother)
    | some pieces =>
      rw [hsplit, Option.getD_some] at hinst
      obtain ⟨src, dst, off, bits, triggers, ranges, rfl, -, -, rfl⟩ := splitCommit_some hsplit
      obtain ⟨range, -, rfl⟩ := List.mem_map.mp hinst
      exact .inr ⟨src, dst, off, bits, triggers, range, hother, rfl⟩
  · exact .inl h

theorem KeepsValues.split (h : KeepsValues eu list) :
    KeepsValues eu (splitInstructions eu b list) := by
  refine ⟨?_, fun inst hinst reg hreg => ?_, fun addr offset bits src triggers sites hinst => ?_⟩
  · unfold splitInstructions
    split
    · have hpiece : ∀ inst : Instruction A, ∀ piece ∈
          (splitCommit eu (commitMergePredecessors eu b).jump inst).getD [inst],
          piece = inst ∨ piece.registers = [] ∧ piece.definedRegister = none := by
        intro inst piece hpiece
        cases hsplit : splitCommit eu (commitMergePredecessors eu b).jump inst with
        | none =>
          rw [hsplit, Option.getD_none, List.mem_singleton] at hpiece
          exact .inl hpiece
        | some pieces =>
          rw [hsplit, Option.getD_some] at hpiece
          obtain ⟨_, _, _, _, _, ranges, rfl, -, -, rfl⟩ := splitCommit_some hsplit
          obtain ⟨range, -, rfl⟩ := List.mem_map.mp hpiece
          exact .inr ⟨rfl, rfl⟩
      refine List.pairwise_flatMap.mpr ⟨fun inst _ => ?_, h.kept.imp fun {inst later} hkept =>
        fun x hx y hy reg hreg => ?_⟩
      · cases hsplit : splitCommit eu (commitMergePredecessors eu b).jump inst with
        | none => exact List.pairwise_singleton _ _
        | some pieces =>
          obtain ⟨_, _, _, _, _, ranges, rfl, -, -, rfl⟩ := splitCommit_some hsplit
          rw [Option.getD_some, List.pairwise_map]
          exact List.pairwise_of_forall fun _ _ reg hreg => by cases hreg
      · rcases hpiece inst x hx with rfl | ⟨hnil, -⟩
        · rcases hpiece later y hy with rfl | ⟨-, hnone⟩
          · exact hkept reg hreg
          · rw [hnone]
            exact nofun
        · rw [hnil] at hreg
          cases hreg
    · exact h.kept
  · rcases mem_splitInstructions hinst with hinst | ⟨_, _, _, _, _, _, -, rfl⟩
    · exact h.apart inst hinst reg hreg
    · cases hreg
  · rcases mem_splitInstructions hinst with hinst | ⟨_, _, _, _, _, _, -, heq⟩
    · exact h.stores addr offset bits src triggers sites hinst
    · cases heq

end Pieces

/-! ## Runs -/

section Runs
variable {hazards : DirectStableStoreHazards A} {eu : RegionedUnit A}
  {model : BitModel (RegionedAbsoluteAddr A)} {b : BlockId}
  {block : BasicBlock (RegionedAbsoluteAddr A)} {inst : Instruction A}
  {s s' t : State (RegionedAbsoluteAddr A) (BitMemory (RegionedAbsoluteAddr A))}

def sunkCommits (hazards : DirectStableStoreHazards A) (eu : RegionedUnit A) (b : BlockId) :
    List (Instruction A) :=
  (instructionsOf eu b).filter fun inst => (sunk hazards eu b inst).isSome

/-- What sunk commits publish is the same at the ends of the predecessors. -/
structure SinksWell (hazards : DirectStableStoreHazards A) (eu : RegionedUnit A) : Prop where
  /-- The jumps of other blocks are the only ways into the block. -/
  ways : ∀ b, ∀ commit ∈ sunkCommits hazards eu b,
    b ≠ eu.entryBlockId ∧ b ∉ successorBlocks eu b
  /-- Nothing in front of the commit, other sunk commits apart, touches its bits. -/
  front : ∀ b, (instructionsOf eu b).Pairwise fun inst commit =>
    (sunk hazards eu b inst).isSome = false → (sunk hazards eu b commit).isSome = true →
      Untouched inst commit
  /-- Nothing behind the store that was found writes to the working copy. -/
  behind : ∀ b src dst off bits triggers,
    .commit src dst (.static off) bits triggers ∈ sunkCommits hazards eu b →
      ∀ pred ∈ (commitMergePredecessors eu b).jump,
        QuietBehind src off bits (instructionsOf eu pred)

/-- A stable copy keeps of a working bit what it keeps of the bit that was stored. -/
def HoldsPublished (eu : RegionedUnit A) (model : BitModel (RegionedAbsoluteAddr A)) : Prop :=
  ∀ b, ∀ inst ∈ instructionsOf eu b, ∀ src dst off bits, PublishesStable inst src dst off bits →
    ∀ value, model.hold dst (model.hold src value) = model.hold dst value

theorem sunk_publishes {sinkable : SinkableCommit A} (h : sunk hazards eu b inst = some sinkable) :
    ∃ src, PublishesStable inst src sinkable.dst sinkable.off sinkable.bits ∧
      predSources eu (commitMergePredecessors eu b).jump src sinkable.off sinkable.bits =
        some sinkable.predSources := by
  unfold sunk at h
  split at h
  · obtain ⟨src, triggers, rfl, hworking, hstable, -, hsources⟩ := sinkableCommit_some h
    exact ⟨src, ⟨⟨triggers, rfl⟩, hworking, hstable⟩, hsources⟩
  · cases h

/-- A predecessor has one entry, the register that was found in it. -/
theorem predSources_entry {B : Type} (f : RegisterId → B) {preds : List BlockId}
    {src : RegionedAbsoluteAddr A} {off bits : Nat} {sources : List (BlockId × RegisterId)}
    (h : predSources eu preds src off bits = some sources) (hnodup : preds.Nodup) (hb : b ∈ preds) :
    ∃ block reg, eu.blocks.lookup b = some block ∧
      resolveForwardSrcFromPred eu.registerMap src off bits block.instructions.reverse = some reg ∧
      (sources.filterMap fun source =>
        if source.1 = b then some (f source.2) else none) = [f reg] := by
  induction preds generalizing sources with
  | nil => cases hb
  | cons p preds ih =>
    have hcons := h
    unfold predSources at hcons
    simp only [List.mapM_cons, Option.bind_eq_bind, Option.bind_eq_some_iff, Option.pure_def,
      Option.some.injEq] at hcons
    obtain ⟨_, ⟨block, hblock, reg, hreg, rfl⟩, rest, hrest, rfl⟩ := hcons
    have hsources : predSources eu preds src off bits = some rest := hrest
    obtain ⟨hnot, hnodup⟩ := List.nodup_cons.mp hnodup
    rw [List.filterMap_cons]
    simp only
    by_cases heq : p = b
    · subst heq
      refine ⟨block, reg, hblock, hreg, ?_⟩
      rw [if_pos rfl, List.filterMap_eq_nil_iff.mpr]
      intro source hsource
      refine if_neg fun hfst => hnot ?_
      rw [← predSources_fst hsources, ← hfst]
      exact List.mem_map_of_mem hsource
    · rw [if_neg heq]
      exact ih hsources hnodup ((List.mem_cons.mp hb).resolve_left fun h => heq h.symm)

theorem sunkCommits_nil (h : ∀ inst, sunk hazards eu b inst = none) :
    sunkCommits hazards eu b = [] := by
  refine List.filter_eq_nil_iff.mpr fun inst _ => ?_
  rw [h inst]
  exact Bool.false_ne_true

/-- What was published in front of the target of a jump. -/
def sunkBehind (hazards : DirectStableStoreHazards A) (eu : RegionedUnit A) (b : BlockId) :
    List (Instruction A) :=
  match jumpTarget eu b with
  | some target => sunkCommits hazards eu target
  | none => []

/-- Every successor finds its sunk commits published. -/
theorem sunkBehind_eq (hwell : SinksWell hazards eu) (hb : eu.blocks.lookup b = some block)
    {c : BlockId} (hc : c ∈ block.terminator.successorIds) :
    sunkBehind hazards eu b = sunkCommits hazards eu c := by
  have hself : b ∈ block.terminator.successorIds → sunkCommits hazards eu b = [] := by
    intro hmem
    refine List.eq_nil_iff_forall_not_mem.mpr fun commit hcommit => ?_
    exact (hwell.ways b commit hcommit).2 ((mem_successorBlocks hb).mpr hmem)
  have hother : (∀ target args, block.terminator ≠ .jump target args) →
      sunkCommits hazards eu c = [] := by
    intro hnot
    by_cases heq : c = b
    · subst heq
      exact hself hc
    · refine sunkCommits_nil fun inst => if_neg ?_
      have hnonJump : (commitMergePredecessors eu c).hasNonJump = true := by
        refine List.any_eq_true.mpr ⟨⟨b, block⟩, AList.mem_lookup_iff.mp hb, ?_⟩
        cases hterminator : block.terminator with
        | jump target args => exact absurd hterminator (hnot target args)
        | branch | switch =>
          rw [hterminator] at hc
          simpa only [Bool.and_eq_true, decide_eq_true_eq] using ⟨hc, fun h => heq h.symm⟩
        | _ =>
          rw [hterminator] at hc
          cases hc
      unfold CommitMergePredecessors.merges
      rw [hnonJump]
      exact Bool.false_ne_true
  unfold sunkBehind jumpTarget
  rw [hb]
  simp only
  cases hterminator : block.terminator with
  | jump target args =>
    rw [hterminator] at hc hself
    cases List.mem_singleton.mp hc
    simp only
    split
    · rename_i htarget
      split at htarget
      · cases htarget
      · cases htarget
        rfl
    · rename_i htarget
      split at htarget
      · rename_i heq
        subst heq
        exact (hself hc).symm
      · cases htarget
  | _ => exact (hother fun target args h => by rw [hterminator] at h; cases h).symm

theorem sunkCommits_publish (hmem : inst ∈ sunkCommits hazards eu b) :
    ∃ src dst off bits, PublishesStable inst src dst off bits := by
  obtain ⟨sinkable, hsunk⟩ := Option.isSome_iff_exists.mp (List.mem_filter.mp hmem).2
  obtain ⟨src, hpub, -⟩ := sunk_publishes hsunk
  exact ⟨src, _, _, _, hpub⟩

/-- The stores at the end of a block publish what its target commits. -/
theorem exec_storesAtEnd (hwell : SinksWell hazards eu) (hhold : HoldsPublished eu model)
    (hkeeps : KeepsValues eu (instructionsOf eu b)) (hfits : Fits eu s.regs)
    (hexec : eu.execList model.machine s (instructionsOf eu b) = some t) :
    ∃ t', eu.execList model.machine t (storesAtEnd hazards eu b) = some t' ∧
      BehindCommits model (sunkBehind hazards eu b) t t' := by
  unfold storesAtEnd sunkBehind
  cases htarget : jumpTarget eu b with
  | none => exact ⟨t, rfl, rfl, rfl⟩
  | some m =>
    refine exec_stores (hhold m) fun inst hinst sinkable hsunk => ?_
    obtain ⟨src, hpub, hsources⟩ := sunk_publishes hsunk
    obtain ⟨block, reg, hb, hresolve, hentry⟩ := predSources_entry sinkable.store hsources
      nodup_jump (mem_jump.mpr htarget)
    have hinstructions : instructionsOf eu b = block.instructions := instructionsOf_lookup hb
    obtain ⟨triggers, rfl⟩ := hpub.commit
    have hmem : SIRInstruction.commit src sinkable.dst (.static sinkable.off) sinkable.bits
        triggers ∈ sunkCommits hazards eu m := List.mem_filter.mpr ⟨hinst, by rw [hsunk]; rfl⟩
    obtain ⟨value, hvalue, hbits⟩ := hkeeps.holds hfits
      (hwell.behind m src _ _ _ triggers hmem b (mem_jump.mpr htarget))
      (resolve_some (hinstructions ▸ hresolve)) hexec
    refine ⟨⟨src, hpub⟩, reg, hentry, value, hvalue, ?_⟩
    intro src' dst' off' bits' hpub' k hk
    obtain ⟨_, heq⟩ := hpub'.commit
    cases heq
    exact hbits k hk

theorem instructionsOf_splitWideCommits (eu : RegionedUnit A) (b : BlockId) :
    instructionsOf (splitWideCommits eu) b = splitInstructions eu b (instructionsOf eu b) := by
  unfold instructionsOf
  rw [(splitWideCommits_spec eu).2.2]
  cases eu.blocks.lookup b with
  | none => exact (ite_self _).symm
  | some block => rfl

theorem HoldsPublished.split (h : HoldsPublished eu model) :
    HoldsPublished (splitWideCommits eu) model := by
  intro b inst hinst src dst off bits hpub
  rw [instructionsOf_splitWideCommits] at hinst
  obtain ⟨triggers, rfl⟩ := hpub.commit
  rcases mem_splitInstructions hinst with
    hinst | ⟨src', dst', off', bits', triggers', range, hmem, heq⟩
  · exact h b _ hinst src dst off bits hpub
  · cases heq
    exact h b _ hmem src dst off' bits' ⟨⟨triggers', rfl⟩, hpub.working, hpub.stable⟩

/-- A block, split and sunk. -/
theorem sink_exec (hv : Verified eu)
    (hwell : SinksWell hazards (splitWideCommits eu)) (hhold : HoldsPublished eu model)
    (hb : eu.blocks.lookup b = some block) (hfits : Fits eu s.regs)
    (h : BehindCommits model (sunkCommits hazards (splitWideCommits eu) b) s s')
    (hexec : eu.execList model.machine s block.instructions = some t) :
    ∃ t', eu.execList model.machine s'
        (remaining hazards (splitWideCommits eu) b (splitInstructions eu b block.instructions) ++
          storesAtEnd hazards (splitWideCommits eu) b) = some t' ∧
      BehindCommits model (sunkBehind hazards (splitWideCommits eu) b) t t' := by
  have hregs : (splitWideCommits eu).registerMap = eu.registerMap := (splitWideCommits_spec eu).2.1
  have hlist : instructionsOf (splitWideCommits eu) b =
      splitInstructions eu b block.instructions := by
    rw [instructionsOf_splitWideCommits, instructionsOf_lookup hb]
  obtain ⟨t₁, hsplit, hsame⟩ := exec_split (b := b)
    (show BehindCommits model [] s s from ⟨rfl, rfl⟩) hexec
  have hkeeps : KeepsValues (splitWideCommits eu) (instructionsOf (splitWideCommits eu) b) := by
    have hbefore := (keepsValues_of_verified hv hb).split (b := b)
    rw [hlist]
    exact ⟨hbefore.kept, hbefore.apart, by
      simpa only [ExecutionUnit.types, hregs] using hbefore.stores⟩
  unfold sunkCommits at h
  rw [hlist] at h
  obtain ⟨u, hu, hbody⟩ := h.body (fun inst hinst hp => by
      obtain ⟨sinkable, hsunk⟩ := Option.isSome_iff_exists.mp hp
      obtain ⟨src, hpub, -⟩ := sunk_publishes hsunk
      exact ⟨src, _, _, _, hpub⟩) (hlist ▸ hwell.front b) hsplit
  have hremaining : remaining hazards (splitWideCommits eu) b
      (splitInstructions eu b block.instructions) =
      (splitInstructions eu b block.instructions).filter fun inst =>
        !(sunk hazards (splitWideCommits eu) b inst).isSome := by
    unfold remaining
    simp only [Option.not_isSome]
  rw [hremaining, execList_append, hu, Option.bind_some]
  rw [← execList_congr hregs, ← hlist] at hsplit
  obtain ⟨t', ht', hend⟩ := exec_storesAtEnd hwell hhold.split hkeeps
    (by simpa only [Fits, ExecutionUnit.types, hregs] using hfits) hsplit
  rw [execList_congr hregs] at ht'
  obtain ⟨u', hu', hlast⟩ := hbody.sameList ht'
  refine ⟨u', hu', hlast.regs.trans (hend.regs.trans hsame.regs), ?_⟩
  rw [hlast.memory, publishAll, List.foldl_nil, hend.memory, hsame.memory]
  rfl

/-- At the end of every block a run has the same registers, and so read what it read from memory;
where it ends, the memory is the same. -/
def PublishesAlike (model : BitModel (RegionedAbsoluteAddr A)) (eu eu' : RegionedUnit A)
    (memory : BitMemory (RegionedAbsoluteAddr A)) : Prop :=
  ∀ b block s, eu.blocks.lookup b = some block →
    ReflTransGen (eu.Goes model.machine) (eu.start memory []) ⟨b, block.instructions.length, s⟩ →
      ∃ block' s', eu'.blocks.lookup b = some block' ∧ block'.terminator = block.terminator ∧
        ReflTransGen (eu'.Goes model.machine) (eu'.start memory [])
          ⟨b, block'.instructions.length, s'⟩ ∧
        s'.regs = s.regs ∧ (block.terminator.successorIds = [] → s'.memory = s.memory)

/-- Wherever what is sunk is not touched on the way to its commit, a run publishes the same. -/
theorem commitSinking_alike (hverified : eu.verifyResult = .ok ())
    (hwell : SinksWell (directStableStoreHazards (splitWideCommits eu)) (splitWideCommits eu))
    (hhold : HoldsPublished eu model) (memory : BitMemory (RegionedAbsoluteAddr A)) :
    PublishesAlike model eu (optimizeCommitSinking (splitWideCommits eu)) memory := by
  have hv := (verifyResult_ok_iff eu).mp hverified
  obtain ⟨hentry, hregs, hblocks⟩ := splitWideCommits_spec eu
  obtain ⟨hentry', hregs', hblocks'⟩ := optimizeCommitSinkingWithHazards_spec
    (directStableStoreHazards (splitWideCommits eu)) (splitWideCommits eu)
  have hlookup : ∀ b, (optimizeCommitSinking (splitWideCommits eu)).blocks.lookup b =
      (eu.blocks.lookup b).map fun block => withInstructions block
        (remaining (directStableStoreHazards (splitWideCommits eu)) (splitWideCommits eu) b
          (splitInstructions eu b block.instructions) ++
        storesAtEnd (directStableStoreHazards (splitWideCommits eu)) (splitWideCommits eu) b) := by
    intro b
    refine (hblocks' b).trans ?_
    rw [hblocks, Option.map_map]
    rfl
  have hparams : ∀ b, ((optimizeCommitSinking (splitWideCommits eu)).blocks.lookup b).map
      (·.params) = (eu.blocks.lookup b).map (·.params) := by
    intro b
    rw [hlookup, Option.map_map]
    rfl
  have hmap : (optimizeCommitSinking (splitWideCommits eu)).registerMap = eu.registerMap :=
    hregs'.trans hregs
  have hfollow : BlocksFollow model.machine model.machine eu
      (optimizeCommitSinking (splitWideCommits eu)) memory
      (fun b => BehindCommits model
        (sunkCommits (directStableStoreHazards (splitWideCommits eu)) (splitWideCommits eu) b))
      (fun b => BehindCommits model
        (sunkBehind (directStableStoreHazards (splitWideCommits eu)) (splitWideCommits eu) b))
      (fun s s' => s'.regs = s.regs) := by
    refine ⟨hentry'.trans hentry, ?_, fun b block hb => ?_, fun b block s s' hb h => ?_⟩
    · have hnil : sunkCommits (directStableStoreHazards (splitWideCommits eu)) (splitWideCommits eu)
          eu.entryBlockId = [] :=
        List.eq_nil_iff_forall_not_mem.mpr fun commit hcommit =>
          (hwell.ways _ commit hcommit).1 hentry.symm
      rw [hnil]
      exact ⟨rfl, rfl⟩
    · have hfound := hlookup b
      rw [hb, Option.map_some] at hfound
      refine ⟨_, hfound, rfl, fun s s' t hvisit h hexec => ?_⟩
      obtain ⟨t', ht', hend⟩ := sink_exec hv hwell hhold hb (hv.visits_fit hvisit) h hexec
      exact ⟨t', by rw [execList_congr hmap]; exact ht', hend⟩
    · have hsame : s' = ⟨s.regs, s'.memory, s'.trace⟩ := by rw [← h.regs]
      have hnext : eu.execTerminator model.machine s' block.terminator =
          (eu.execTerminator model.machine s block.terminator).withMemory s'.memory s'.trace :=
        (congrArg (eu.execTerminator model.machine · block.terminator) hsame).trans
          (execTerminator_withMemory s s'.memory s'.trace block.terminator)
      rw [execTerminator_congr hparams hmap, hnext]
      cases hgo : eu.execTerminator model.machine s block.terminator with
      | done outcome u => exact .done rfl
      | goto c =>
        obtain ⟨hsucc, -, hmemory, -⟩ := execTerminator_goto hgo
        have hsplit := hblocks b
        rw [hb, Option.map_some] at hsplit
        refine .goto ⟨rfl, ?_⟩
        rw [← sunkBehind_eq hwell hsplit hsucc, hmemory]
        exact h.memory
  intro b block s hb hrun
  obtain ⟨block', s', hb', hterminator, hrun', hend⟩ := hfollow.leaving hb hrun
  refine ⟨block', s', hb', hterminator, hrun', hend.regs, fun hnone => ?_⟩
  have hbehind : sunkBehind (directStableStoreHazards (splitWideCommits eu)) (splitWideCommits eu)
      b = [] := by
    unfold sunkBehind jumpTarget
    rw [hblocks, hb]
    simp only [Option.map_some, withInstructions]
    cases hterminator : block.terminator with
    | jump target args =>
      rw [hterminator] at hnone
      cases hnone
    | _ => rfl
  rw [hend.memory, hbehind]
  rfl

end Runs

/-! ## Two blocks -/

/-- A block that stores and one that commits. -/
def twoBlocks (first second : List (Instruction Unit)) : RegionedUnit Unit where
  entryBlockId := 0
  blocks := [⟨0, ⟨0, [], first, .jump 1 []⟩⟩, ⟨1, ⟨1, [], second, .ret⟩⟩].toAList
  registerMap := [⟨0, .bit 8 false⟩, ⟨1, .bit 4 false⟩, ⟨2, .bit 8 false⟩].toAList

/-- A byte stored in two halves. -/
def storedHalves : RegionedUnit Unit :=
  twoBlocks [.imm 1 ⟨3, 0⟩, .store workingByte (.static 0) 4 1 [] [],
    .store workingByte (.static 4) 4 1 [] []] [.commit workingByte stableByte (.static 0) 8 []]

theorem storedHalves_split : splitWideCommits storedHalves =
    twoBlocks [.imm 1 ⟨3, 0⟩, .store workingByte (.static 0) 4 1 [] [],
      .store workingByte (.static 4) 4 1 [] []]
      [.commit workingByte stableByte (.static 0) 4 [],
        .commit workingByte stableByte (.static 4) 4 []] := rfl

theorem twoBlocks_blocks {first second : List (Instruction Unit)} {b : BlockId}
    {inst : Instruction Unit} (h : inst ∈ instructionsOf (twoBlocks first second) b) :
    b = 0 ∧ inst ∈ first ∨ b = 1 ∧ inst ∈ second := by
  unfold instructionsOf at h
  split at h
  · rename_i block hb
    have hmem := AList.mem_lookup_iff.mp hb
    rcases List.mem_pair.mp hmem with heq | heq <;> cases heq
    · exact .inl ⟨rfl, h⟩
    · exact .inr ⟨rfl, h⟩
  · cases h

/-- A block that stores at constant offsets only. -/
theorem quietBehind_static {A : Type} {src : RegionedAbsoluteAddr A} {off bits : Nat}
    {list : List (Instruction A)} (h : ∀ inst ∈ list, ∀ bit, off ≤ bit → bit < off + bits →
      inst.mayWrite src bit → MeetsRange src off bits inst) : QuietBehind src off bits list :=
  fun _ _ _ hlist _ hnot later hlater bit hle hlt hwrite => hnot later hlater
    (h later (hlist ▸ List.mem_append_right _ (List.mem_cons_of_mem _ hlater)) bit hle hlt hwrite)

theorem storedHalves_sinksWell : SinksWell
    (directStableStoreHazards (splitWideCommits storedHalves)) (splitWideCommits storedHalves) := by
  rw [storedHalves_split]
  refine ⟨fun b commit hcommit => ?_, fun b => ?_,
    fun b src dst off bits triggers hcommit pred hpred => ?_⟩
  · obtain ⟨src, dst, off, bits, hpub⟩ := sunkCommits_publish hcommit
    obtain ⟨triggers, rfl⟩ := hpub.commit
    rcases twoBlocks_blocks (List.mem_filter.mp hcommit).1 with ⟨rfl, hmem⟩ | ⟨rfl, -⟩
    · simp at hmem
    · exact ⟨by decide, by decide⟩
  · refine List.pairwise_of_forall_mem_list fun inst hinst commit hcommit hstays hsunk => ?_
    obtain ⟨src, dst, off, bits, hpub⟩ := sunkCommits_publish (List.mem_filter.mpr ⟨hcommit, hsunk⟩)
    obtain ⟨triggers, rfl⟩ := hpub.commit
    rcases twoBlocks_blocks hcommit with ⟨rfl, hmem⟩ | ⟨rfl, -⟩
    · simp at hmem
    · -- both commits are sunk
      rcases twoBlocks_blocks hinst with ⟨h, -⟩ | ⟨-, hmem⟩
      · cases h
      · exfalso
        rcases List.mem_pair.mp hmem with rfl | rfl <;> revert hstays <;> decide +kernel
  · refine quietBehind_static fun inst hinst bit hle hlt hwrite => ?_
    obtain ⟨_, _, _, _, hpub⟩ := sunkCommits_publish hcommit
    rcases twoBlocks_blocks (List.mem_filter.mp hcommit).1 with ⟨rfl, hmem⟩ | ⟨rfl, -⟩
    · simp at hmem
    · have hpred : pred = 0 := List.mem_singleton.mp hpred
      subst hpred
      rcases twoBlocks_blocks hinst with ⟨-, hmem⟩ | ⟨h, -⟩
      · simp only [List.mem_cons, List.not_mem_nil, or_false] at hmem
        rcases hmem with rfl | rfl | rfl
        · exact hwrite.elim
        · obtain ⟨rfl, hin⟩ := hwrite
          exact ⟨0, 4, 1, [], [], rfl, by have := hin.2; omega, by have := hin.1; omega⟩
        · obtain ⟨rfl, hin⟩ := hwrite
          exact ⟨4, 4, 1, [], [], rfl, by have := hin.2; omega, by have := hin.1; omega⟩
      · cases h

theorem commitSinking_storedHalves : PublishesAlike (BitModel.plain _) storedHalves
    (optimizeCommitSinking (splitWideCommits storedHalves)) (fun _ _ => (false, false)) :=
  commitSinking_alike (by decide) storedHalves_sinksWell (fun _ _ _ _ _ _ _ _ _ => rfl) _

/-- The working copy is written again in front of the commit. -/
def writtenAgain : RegionedUnit Unit :=
  twoBlocks [.imm 0 ⟨5, 0⟩, .store workingByte (.static 0) 8 0 [] []]
    [.imm 2 ⟨3, 0⟩, .store workingByte (.static 0) 8 2 [] [],
      .commit workingByte stableByte (.static 0) 8 []]

/-- The block that commits has one way in, and nothing that it reads is reported. -/
theorem writtenAgain_stale : writtenAgain.verifyResult = .ok () ∧
    ¬ PublishesAlike (BitModel.plain _) writtenAgain
      (optimizeCommitSinking (splitWideCommits writtenAgain)) (fun _ _ => (false, false)) := by
  refine ⟨by decide, fun h => ?_⟩
  obtain ⟨⟨b, i, s⟩, hrun, hb, hi, hbit⟩ : ∃ c, writtenAgain.after (BitModel.plain _).machine 6
      (writtenAgain.start (fun _ _ => (false, false)) []) = some c ∧ c.block = 1 ∧ c.index = 3 ∧
      c.state.memory stableByte 1 = (true, false) := ⟨_, rfl, rfl, rfl, by decide +kernel⟩
  simp only at hb hi
  subst hb hi
  obtain ⟨block', s', hb', -, hrun', -, hmemory⟩ := h 1 _ s rfl (reaches_iff_after.mpr ⟨6, hrun⟩)
  cases hb'
  obtain ⟨n, hn⟩ := reaches_iff_after.mp hrun'
  generalize heq : optimizeCommitSinking (splitWideCommits writtenAgain) = sunk at hn
  have hview : (sunk.after (BitModel.plain _).machine n
      (sunk.start (fun _ _ => (false, false)) [])).map
        (fun c => (c.block, c.index, c.state.memory stableByte 1)) =
      some (1, 2, (true, false)) := by
    rw [hn, Option.map_some]
    congr 3
    rw [← hbit]
    exact congrFun (congrFun (hmemory rfl) _) _
  have hlt : n < 7 := by
    by_contra hge
    have hended : sunk.after (BitModel.plain _).machine 7
        (sunk.start (fun _ _ => (false, false)) []) = none := by
      subst heq
      rfl
    rw [after_ended hended (by omega)] at hn
    cases hn
  subst heq
  clear hn
  interval_cases n <;> revert hview <;> decide +kernel

end Celox.Opt
