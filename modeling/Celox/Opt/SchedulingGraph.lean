import Celox.Graph.Kahn
import Celox.Sir.Unused

/-! # Scheduling within a block

Between two memory barriers the instructions are list-scheduled: stores first, then loads as long as
few of them are in flight, then anything else. An instruction waits for the definitions of its
operands and for the accesses it may alias. -/
namespace Celox.Opt
open Celox.Sir Celox.Graph

variable {A : Type}

/-! ## Accesses -/

def isMemoryBarrier : SIRInstruction A → Bool
  | .commit .. | .runtimeEvent .. | .combCaptureEvent .. | .combCaptureEnableIfChanged .. => true
  | _ => false

/-- No offset is one that registers decide. -/
structure MemAccess (A : Type) where
  addr : A
  offset : Option Nat
  width : Nat
  isWrite : Bool

def memAccessInfo : SIRInstruction A → Option (MemAccess A)
  | .load _ addr offset bits => some ⟨addr, offset.constantBitOffset, bits, false⟩
  | .store addr offset bits _ _ _ => some ⟨addr, offset.constantBitOffset, bits, true⟩
  | _ => none

/-- For accesses to one address. -/
def rangesAlias (x y : MemAccess A) : Bool :=
  match x.offset, y.offset with
  | some a, some b => a < b + y.width && b < a + x.width
  | _, _ => true

/-! ## The dependence graph -/

structure Dependences (A : Type) where
  defMap : RegisterId → Option Nat
  writes : A → List Nat
  reads : A → List Nat
  succs : Nat → List Nat
  indegree : Nat → Nat

def Dependences.start : Dependences A :=
  ⟨fun _ => none, fun _ => [], fun _ => [], fun _ => [], fun _ => 0⟩

def Dependences.addEdge (deps : Dependences A) (source target : Nat) : Dependences A :=
  if target ∈ deps.succs source then deps
  else { deps with
    succs := Function.update deps.succs source (deps.succs source ++ [target])
    indegree := Function.update deps.indegree target (deps.indegree target + 1) }

def Dependences.addEdges (deps : Dependences A) (sources : List Nat) (target : Nat) :
    Dependences A :=
  sources.foldl (fun deps source => deps.addEdge source target) deps

def Dependences.define (deps : Dependences A) (inst : SIRInstruction A) (j : Nat) : Dependences A :=
  match inst.definedRegister with
  | some dst => { deps with defMap := Function.update deps.defMap dst (some j) }
  | none => deps

section Window
variable [DecidableEq A] (window : List (SIRInstruction A))

/-- The accesses of a bucket that may alias another one. -/
def aliasing (access : MemAccess A) (previous : List Nat) : List Nat :=
  previous.filter fun prev =>
    (window[prev]?.bind memAccessInfo).any fun info => rangesAlias info access

/-- A write waits for writes and reads, a read for writes. -/
def Dependences.addAccess (deps : Dependences A) (j : Nat) (access : MemAccess A) :
    Dependences A :=
  let deps' := deps.addEdges (aliasing window access (deps.writes access.addr)) j
  if access.isWrite then
    let deps' := deps'.addEdges (aliasing window access (deps.reads access.addr)) j
    { deps' with writes := Function.update deps.writes access.addr (deps.writes access.addr ++ [j]) }
  else
    { deps' with reads := Function.update deps.reads access.addr (deps.reads access.addr ++ [j]) }

def Dependences.addInstruction (deps : Dependences A) (inst : SIRInstruction A) (j : Nat) :
    Dependences A :=
  let deps := (deps.addEdges (inst.collectUsed.filterMap deps.defMap) j).define inst j
  match memAccessInfo inst with
  | some access => deps.addAccess window j access
  | none => deps

def dependences : Dependences A :=
  window.zipIdx.foldl (fun deps (inst, j) => deps.addInstruction window inst j) .start

/-! ## List scheduling -/

/-- The sets of indices are lists; the least element is taken. -/
structure ReadySets where
  ready : List Nat
  readyStores : List Nat
  readyLoads : List Nat
  inflightLoads : List RegisterId
  indegree : Nat → Nat
  order : List Nat

def isStore : SIRInstruction A → Bool
  | .store .. => true
  | _ => false

def isLoad : SIRInstruction A → Bool
  | .load .. => true
  | _ => false

def least (indices : List Nat) : Option Nat := first (fun a b => a < b) indices

omit [DecidableEq A] in
def ReadySets.start (indegree : Nat → Nat) : ReadySets :=
  let ready := (List.range window.length).filter fun i => indegree i = 0
  ⟨ready, ready.filter fun i => window[i]?.any isStore, ready.filter fun i => window[i]?.any isLoad,
    [], indegree, []⟩

def ReadySets.pick (maxInflightLoads : Nat) (s : ReadySets) : Option Nat :=
  (least s.readyStores).or
    ((if s.inflightLoads.length < maxInflightLoads then least s.readyLoads else none).or
      (least s.ready))

omit [DecidableEq A] in
/-- One predecessor less. -/
def ReadySets.release (s : ReadySets) (v : Nat) : ReadySets :=
  let count := s.indegree v - 1
  let s := { s with indegree := Function.update s.indegree v count }
  if count = 0 then
    { s with
      ready := s.ready ++ [v]
      readyStores := if window[v]?.any isStore then s.readyStores ++ [v] else s.readyStores
      readyLoads := if window[v]?.any isLoad then s.readyLoads ++ [v] else s.readyLoads }
  else s

/-- A load is in flight until its register is used. -/
def inflightAfter (inst : SIRInstruction A) (inflightLoads : List RegisterId) : List RegisterId :=
  let inflightLoads := match inst with
    | .load dst .. => inflightLoads.insert dst
    | _ => inflightLoads
  inst.collectUsed.foldl (fun inflight reg => inflight.erase reg) inflightLoads

omit [DecidableEq A] in
def ReadySets.take (succs : Nat → List Nat) (s : ReadySets) (pick : Nat) : ReadySets :=
  (succs pick).foldl (release window)
    { s with
      ready := s.ready.erase pick
      readyStores := s.readyStores.erase pick
      readyLoads := s.readyLoads.erase pick
      inflightLoads := match window[pick]? with
        | some inst => inflightAfter inst s.inflightLoads
        | none => s.inflightLoads
      order := s.order ++ [pick] }

omit [DecidableEq A] in
/-- A round per instruction is enough. -/
def ReadySets.run (succs : Nat → List Nat) (maxInflightLoads : Nat) : Nat → ReadySets → ReadySets
  | 0, s => s
  | fuel + 1, s =>
    if s.ready = [] then s
    else
      match s.pick maxInflightLoads with
      | none => s
      | some pick => run succs maxInflightLoads fuel (s.take window succs pick)

def scheduleOrder (maxInflightLoads : Nat) : List Nat :=
  let deps := dependences window
  (ReadySets.run window deps.succs maxInflightLoads window.length
    (.start window deps.indegree)).order

def scheduleBlockInterleaved (maxInflightLoads : Nat) : List (SIRInstruction A) :=
  if window.length ≤ 1 then window
  else (scheduleOrder window maxInflightLoads).filterMap (window[·]?)

end Window

section Windows
variable [DecidableEq A] (maxInflightLoads : Nat)

/-- `window` are the instructions since the last barrier. -/
def scheduleWindows : List (SIRInstruction A) → List (SIRInstruction A) → List (SIRInstruction A)
  | window, [] => scheduleBlockInterleaved window maxInflightLoads
  | window, inst :: rest =>
    if isMemoryBarrier inst then
      scheduleBlockInterleaved window maxInflightLoads ++ inst :: scheduleWindows [] rest
    else scheduleWindows (window ++ [inst]) rest

/-- The instructions are overwritten in place, as far as there are new ones. -/
def scheduleInstructions (instructions : List (SIRInstruction A)) : List (SIRInstruction A) :=
  if instructions.length ≤ 2 then instructions
  else
    let out := scheduleWindows maxInflightLoads [] instructions
    out.take instructions.length ++ instructions.drop out.length

end Windows
end Celox.Opt

/-! ## The dependence graph of a window

It has an edge for every pair of instructions that has to keep its order, and all its edges lead
upwards. So list scheduling puts out every instruction once, behind those it waits for. -/
namespace Celox.Opt
open Celox.Sir Celox.Graph

variable {A : Type}

/-! ## Edges -/

namespace Dependences
variable {deps : Dependences A} {source target n u v : Nat} {sources : List Nat}

/-- All edges lead upwards, are there once, and are counted where they end. -/
structure Edges (deps : Dependences A) (n : Nat) : Prop where
  upward : ∀ u, ∀ v ∈ deps.succs u, u < v ∧ v < n
  nodup : ∀ u, (deps.succs u).Nodup
  count : ∀ v, deps.indegree v = ((List.range n).filter fun u => v ∈ deps.succs u).length

theorem addEdge_of_mem (h : target ∈ deps.succs source) : deps.addEdge source target = deps :=
  if_pos h

theorem addEdge_of_not_mem (h : target ∉ deps.succs source) :
    (deps.addEdge source target).succs =
        Function.update deps.succs source (deps.succs source ++ [target]) ∧
      (deps.addEdge source target).indegree =
        Function.update deps.indegree target (deps.indegree target + 1) := by
  unfold addEdge
  rw [if_neg h]
  exact ⟨rfl, rfl⟩

theorem mem_addEdge :
    v ∈ (deps.addEdge source target).succs u ↔ v ∈ deps.succs u ∨ v = target ∧ u = source := by
  by_cases hmem : target ∈ deps.succs source
  · rw [addEdge_of_mem hmem]
    refine ⟨.inl, fun h => h.elim id ?_⟩
    rintro ⟨rfl, rfl⟩
    exact hmem
  · rw [(addEdge_of_not_mem hmem).1]
    by_cases hu : u = source
    · simp [hu]
    · simp [hu]

theorem Edges.addEdge (h : deps.Edges n) (hlt : source < target) (hn : target < n) :
    (deps.addEdge source target).Edges n := by
  by_cases hmem : target ∈ deps.succs source
  · rwa [addEdge_of_mem hmem]
  obtain ⟨hsuccs, hindegree⟩ := addEdge_of_not_mem hmem
  refine ⟨fun u v hv => ?_, fun u => ?_, fun v => ?_⟩
  · rcases mem_addEdge.mp hv with hv | ⟨rfl, rfl⟩
    · exact h.upward u v hv
    · exact ⟨hlt, hn⟩
  · rw [hsuccs]
    by_cases hu : u = source
    · subst hu
      rw [Function.update_self, ← List.concat_eq_append]
      exact (h.nodup u).concat hmem
    · rw [Function.update_of_ne hu]
      exact h.nodup u
  · have hsplit : ∀ u, v ∈ (deps.addEdge source target).succs u ↔
        v ∈ deps.succs u ∨ v = target ∧ u = source := fun u => mem_addEdge
    simp only [hsplit, hindegree]
    by_cases hv : v = target
    · -- one source more
      subst hv
      have hperm : ((List.range n).filter fun u => v ∈ deps.succs u ∨ v = v ∧ u = source).Perm
          (source :: (List.range n).filter fun u => v ∈ deps.succs u) := by
        refine (List.perm_ext_iff_of_nodup (List.nodup_range.filter _) ?_).mpr fun u => ?_
        · refine List.nodup_cons.mpr ⟨fun hin => hmem ?_, List.nodup_range.filter _⟩
          exact of_decide_eq_true (List.mem_filter.mp hin).2
        · simp only [List.mem_filter, List.mem_range, decide_eq_true_eq, List.mem_cons, true_and]
          constructor
          · rintro ⟨hu, hin | rfl⟩
            · exact .inr ⟨hu, hin⟩
            · exact .inl rfl
          · rintro (rfl | ⟨hu, hin⟩)
            · exact ⟨hlt.trans hn, .inr rfl⟩
            · exact ⟨hu, .inl hin⟩
      rw [Function.update_self, hperm.length_eq, List.length_cons, h.count v]
    · rw [Function.update_of_ne hv, h.count v]
      simp only [hv, false_and, or_false]

theorem mem_addEdges : v ∈ (deps.addEdges sources target).succs u ↔
    v ∈ deps.succs u ∨ v = target ∧ u ∈ sources := by
  induction sources generalizing deps with
  | nil => simp [addEdges]
  | cons source sources ih =>
    rw [addEdges, List.foldl_cons]
    rw [show sources.foldl _ _ = (deps.addEdge source target).addEdges sources target from rfl, ih,
      mem_addEdge, List.mem_cons]
    tauto

theorem Edges.addEdges (h : deps.Edges n) (hlt : ∀ source ∈ sources, source < target)
    (hn : target < n) : (deps.addEdges sources target).Edges n := by
  induction sources generalizing deps with
  | nil => exact h
  | cons source sources ih =>
    obtain ⟨hsource, hsources⟩ := List.forall_mem_cons.mp hlt
    exact ih (h.addEdge hsource hn) hsources

/-- Edges alone are added. -/
theorem addEdges_maps : (deps.addEdges sources target).defMap = deps.defMap ∧
    (deps.addEdges sources target).writes = deps.writes ∧
      (deps.addEdges sources target).reads = deps.reads := by
  induction sources generalizing deps with
  | nil => exact ⟨rfl, rfl, rfl⟩
  | cons source sources ih =>
    have hone : (deps.addEdge source target).defMap = deps.defMap ∧
        (deps.addEdge source target).writes = deps.writes ∧
          (deps.addEdge source target).reads = deps.reads := by
      unfold addEdge
      split <;> exact ⟨rfl, rfl, rfl⟩
    rw [← hone.1, ← hone.2.1, ← hone.2.2]
    exact ih

/-- So does a definition leave the edges. -/
theorem define_edges {inst : SIRInstruction A} {j : Nat} :
    (deps.define inst j).succs = deps.succs ∧ (deps.define inst j).indegree = deps.indegree ∧
      (deps.define inst j).writes = deps.writes ∧ (deps.define inst j).reads = deps.reads := by
  unfold define
  split <;> exact ⟨rfl, rfl, rfl, rfl⟩

theorem Edges.define (h : deps.Edges n) (inst : SIRInstruction A) (j : Nat) :
    (deps.define inst j).Edges n := by
  obtain ⟨hsuccs, hindegree, -⟩ := @define_edges _ deps inst j
  exact ⟨hsuccs ▸ h.upward, hsuccs ▸ h.nodup, hsuccs ▸ hindegree ▸ h.count⟩

theorem define_defMap {inst : SIRInstruction A} {j : Nat} (reg : RegisterId) :
    (deps.define inst j).defMap reg =
      if inst.definedRegister = some reg then some j else deps.defMap reg := by
  unfold define
  cases inst.definedRegister with
  | none => rfl
  | some dst =>
    by_cases hreg : dst = reg
    · rw [hreg, if_pos rfl]
      exact Function.update_self ..
    · rw [if_neg fun h => hreg (Option.some.inj h)]
      exact Function.update_of_ne (Ne.symm hreg) ..

end Dependences

/-! ## Instructions that wait -/

/-- The second instruction has to wait for the first one. -/
def Depends (x y : SIRInstruction A) : Prop :=
  (∃ reg, x.definedRegister = some reg ∧ reg ∈ y.collectUsed) ∨
    ∃ a b, memAccessInfo x = some a ∧ memAccessInfo y = some b ∧ a.addr = b.addr ∧
      (a.isWrite = true ∨ b.isWrite = true) ∧ rangesAlias a b = true

/-- Every register is defined once. -/
def DefinedOnce (window : List (SIRInstruction A)) : Prop :=
  ∀ (i j : Nat) x y reg, window[i]? = some x → window[j]? = some y →
    x.definedRegister = some reg → y.definedRegister = some reg → i = j

/-- An access of a kind to an address. -/
def AccessAt (window : List (SIRInstruction A)) (isWrite : Bool) (a : A) (u : Nat) : Prop :=
  ∃ info, window[u]?.bind memAccessInfo = some info ∧ info.addr = a ∧ info.isWrite = isWrite

section Built
variable [DecidableEq A] {window : List (SIRInstruction A)} {deps : Dependences A} {j u v : Nat}
  {inst : SIRInstruction A} {access : MemAccess A}

/-- The graph of the first `j` instructions. -/
structure Dependences.Built (window : List (SIRInstruction A)) (deps : Dependences A) (j : Nat) :
    Prop where
  edges : deps.Edges window.length
  defs : ∀ (u : Nat) x reg, u < j → window[u]? = some x → x.definedRegister = some reg →
    deps.defMap reg = some u
  defined : ∀ reg u, deps.defMap reg = some u → u < j
  writes : ∀ a u, u ∈ deps.writes a ↔ u < j ∧ AccessAt window true a u
  reads : ∀ a u, u ∈ deps.reads a ↔ u < j ∧ AccessAt window false a u
  waits : ∀ (u v : Nat) x y, u < v → v < j → window[u]? = some x → window[v]? = some y →
    Depends x y → v ∈ deps.succs u

omit [DecidableEq A] in
theorem mem_aliasing {previous : List Nat} : u ∈ aliasing window access previous ↔
    u ∈ previous ∧ ∃ info, window[u]?.bind memAccessInfo = some info ∧
      rangesAlias info access = true := by
  simp only [aliasing, List.mem_filter, Option.any_eq_true]

/-- The sources of the edges of an access. -/
theorem Dependences.mem_addAccess : v ∈ (deps.addAccess window j access).succs u ↔
    v ∈ deps.succs u ∨ v = j ∧ (u ∈ aliasing window access (deps.writes access.addr) ∨
      access.isWrite = true ∧ u ∈ aliasing window access (deps.reads access.addr)) := by
  unfold addAccess
  split
  · rename_i hwrite
    simp only [mem_addEdges, hwrite, true_and]
    tauto
  · rename_i hread
    simp only [mem_addEdges, hread, Bool.false_eq_true, false_and, or_false]

theorem Dependences.Edges.addAccess {n : Nat} (h : deps.Edges n)
    (hwrites : ∀ u ∈ deps.writes access.addr, u < j)
    (hreads : ∀ u ∈ deps.reads access.addr, u < j) (hn : j < n) :
    (deps.addAccess window j access).Edges n := by
  have hfirst : (deps.addEdges (aliasing window access (deps.writes access.addr)) j).Edges n :=
    h.addEdges (fun u hu => hwrites u (mem_aliasing.mp hu).1) hn
  unfold Dependences.addAccess
  split
  · have hsecond : (Dependences.addEdges _ (aliasing window access (deps.reads access.addr))
        j).Edges n := hfirst.addEdges (fun u hu => hreads u (mem_aliasing.mp hu).1) hn
    exact ⟨hsecond.upward, hsecond.nodup, hsecond.count⟩
  · exact ⟨hfirst.upward, hfirst.nodup, hfirst.count⟩

/-- The maps of the graph with an access. -/
theorem Dependences.addAccess_maps : (deps.addAccess window j access).defMap = deps.defMap ∧
    (deps.addAccess window j access).writes = (if access.isWrite then
      Function.update deps.writes access.addr (deps.writes access.addr ++ [j]) else deps.writes) ∧
    (deps.addAccess window j access).reads = (if access.isWrite then deps.reads else
      Function.update deps.reads access.addr (deps.reads access.addr ++ [j])) := by
  unfold addAccess
  split
  · exact ⟨(addEdges_maps.1).trans addEdges_maps.1, rfl,
      (addEdges_maps.2.2).trans addEdges_maps.2.2⟩
  · exact ⟨addEdges_maps.1, addEdges_maps.2.1, rfl⟩

/-- The edges that an instruction gets. -/
theorem Dependences.mem_addInstruction : v ∈ (deps.addInstruction window inst j).succs u ↔
    v ∈ deps.succs u ∨ v = j ∧ ((∃ reg ∈ inst.collectUsed, deps.defMap reg = some u) ∨
      ∃ access, memAccessInfo inst = some access ∧
        (u ∈ aliasing window access (deps.writes access.addr) ∨
          access.isWrite = true ∧ u ∈ aliasing window access (deps.reads access.addr))) := by
  have hmaps := fun sources => @addEdges_maps _ deps j sources
  unfold addInstruction
  simp only
  split
  · rename_i access haccess
    rw [mem_addAccess, define_edges.1, define_edges.2.2.1, define_edges.2.2.2, (hmaps _).2.1,
      (hmaps _).2.2, mem_addEdges, List.mem_filterMap, haccess]
    simp only [Option.some.injEq, exists_eq_left', or_assoc, ← and_or_left]
  · rename_i haccess
    rw [define_edges.1, mem_addEdges, List.mem_filterMap, haccess]
    simp

/-- The maps with an instruction. -/
theorem Dependences.addInstruction_maps :
    (∀ reg, (deps.addInstruction window inst j).defMap reg =
      if inst.definedRegister = some reg then some j else deps.defMap reg) ∧
    ∀ a u, (u ∈ (deps.addInstruction window inst j).writes a ↔ u ∈ deps.writes a ∨
        u = j ∧ ∃ info, memAccessInfo inst = some info ∧ info.addr = a ∧ info.isWrite = true) ∧
      (u ∈ (deps.addInstruction window inst j).reads a ↔ u ∈ deps.reads a ∨
        u = j ∧ ∃ info, memAccessInfo inst = some info ∧ info.addr = a ∧ info.isWrite = false) := by
  have hmaps := fun sources => @addEdges_maps _ deps j sources
  have hbucket : ∀ (bucket : A → List Nat) (addr a : A) (u : Nat),
      u ∈ Function.update bucket addr (bucket addr ++ [j]) a ↔
        u ∈ bucket a ∨ u = j ∧ addr = a := by
    intro bucket addr a u
    by_cases ha : a = addr
    · subst ha
      simp
    · simp [Function.update_of_ne ha, Ne.symm ha]
  unfold addInstruction
  simp only
  split
  · rename_i access haccess
    obtain ⟨hdefs, hwrites, hreads⟩ := @addAccess_maps _ _ window
      ((deps.addEdges (inst.collectUsed.filterMap deps.defMap) j).define inst j) j access
    rw [hdefs, hwrites, hreads, define_edges.2.2.1, define_edges.2.2.2, (hmaps _).2.1,
      (hmaps _).2.2]
    refine ⟨fun reg => by rw [define_defMap, (hmaps _).1], fun a u => ?_⟩
    cases hkind : access.isWrite <;>
      simp [hbucket, haccess, hkind]
  · rename_i haccess
    rw [define_edges.2.2.1, define_edges.2.2.2, (hmaps _).2.1, (hmaps _).2.2]
    refine ⟨fun reg => by rw [define_defMap, (hmaps _).1], fun a u => ?_⟩
    simp [haccess]

theorem Dependences.Built.addEdges (h : deps.Built window j) (hlt : j < window.length) :
    (deps.addInstruction window inst j).Edges window.length := by
  have hfirst : (deps.addEdges (inst.collectUsed.filterMap deps.defMap) j).Edges window.length := by
    refine h.edges.addEdges (fun u hu => ?_) hlt
    obtain ⟨reg, -, hreg⟩ := List.mem_filterMap.mp hu
    exact h.defined reg u hreg
  have hsecond := hfirst.define inst j
  unfold addInstruction
  simp only
  split
  · refine hsecond.addAccess (fun u hu => ?_) (fun u hu => ?_) hlt
    · rw [define_edges.2.2.1, addEdges_maps.2.1, h.writes] at hu
      exact hu.1
    · rw [define_edges.2.2.2, addEdges_maps.2.2, h.reads] at hu
      exact hu.1
  · exact hsecond

/-- One instruction more. -/
theorem Dependences.Built.step (hsingle : DefinedOnce window) (hj : window[j]? = some inst)
    (h : deps.Built window j) : (deps.addInstruction window inst j).Built window (j + 1) := by
  obtain ⟨hdefs, hbuckets⟩ := @addInstruction_maps _ _ window deps j inst
  have hlt : j < window.length := (List.getElem?_eq_some_iff.mp hj).1
  have haccess : ∀ isWrite a, AccessAt window isWrite a j ↔
      ∃ info, memAccessInfo inst = some info ∧ info.addr = a ∧ info.isWrite = isWrite := by
    intro isWrite a
    simp only [AccessAt, hj, Option.bind_some]
  refine ⟨?_, fun u x reg hu hx hreg => ?_, fun reg u hdef => ?_, fun a u => ?_, fun a u => ?_,
    fun u v x y huv hv hx hy hdepends => ?_⟩
  · exact h.addEdges hlt
  · rw [hdefs]
    split
    · rename_i hreg'
      exact congrArg some (hsingle j u inst x reg hj hx hreg' hreg)
    · rename_i hreg'
      refine h.defs u x reg (lt_of_le_of_ne (Nat.le_of_lt_succ hu) ?_) hx hreg
      rintro rfl
      rw [hj] at hx
      cases hx
      exact hreg' hreg
  · rw [hdefs] at hdef
    split at hdef
    · cases hdef
      exact Nat.lt_succ_self _
    · exact (h.defined reg u hdef).trans (Nat.lt_succ_self _)
  · rw [(hbuckets a u).1, h.writes, ← haccess true a]
    constructor
    · rintro (⟨hu, hat⟩ | ⟨rfl, hat⟩)
      · exact ⟨hu.trans (Nat.lt_succ_self _), hat⟩
      · exact ⟨Nat.lt_succ_self _, hat⟩
    · rintro ⟨hu, hat⟩
      rcases Nat.lt_succ_iff_lt_or_eq.mp hu with hu | rfl
      · exact .inl ⟨hu, hat⟩
      · exact .inr ⟨rfl, hat⟩
  · rw [(hbuckets a u).2, h.reads, ← haccess false a]
    constructor
    · rintro (⟨hu, hat⟩ | ⟨rfl, hat⟩)
      · exact ⟨hu.trans (Nat.lt_succ_self _), hat⟩
      · exact ⟨Nat.lt_succ_self _, hat⟩
    · rintro ⟨hu, hat⟩
      rcases Nat.lt_succ_iff_lt_or_eq.mp hu with hu | rfl
      · exact .inl ⟨hu, hat⟩
      · exact .inr ⟨rfl, hat⟩
  · rw [mem_addInstruction]
    rcases Nat.lt_succ_iff_lt_or_eq.mp hv with hv | rfl
    · exact .inl (h.waits u v x y huv hv hx hy hdepends)
    · rw [hj] at hy
      cases hy
      refine .inr ⟨rfl, ?_⟩
      rcases hdepends with ⟨reg, hdef, huse⟩ | ⟨a, b, ha, hb, haddr, hwrite, halias⟩
      · exact .inl ⟨reg, huse, h.defs u x reg huv hx hdef⟩
      · refine .inr ⟨b, hb, ?_⟩
        have hinfo : window[u]?.bind memAccessInfo = some a := by rw [hx, Option.bind_some, ha]
        rw [mem_aliasing, mem_aliasing, h.writes, h.reads]
        cases hkind : a.isWrite with
        | true => exact .inl ⟨⟨huv, a, hinfo, haddr, hkind⟩, a, hinfo, halias⟩
        | false =>
          refine .inr ⟨hwrite.resolve_left (by simp [hkind]), ?_⟩
          exact ⟨⟨huv, a, hinfo, haddr, hkind⟩, a, hinfo, halias⟩

theorem dependences_built (hsingle : DefinedOnce window) :
    (dependences window).Built window window.length := by
  have hprefix : ∀ rest, ∀ (done : List (SIRInstruction A)) (deps : Dependences A),
      window = done ++ rest → deps.Built window done.length →
        ((rest.zipIdx done.length).foldl (fun deps (inst, j) => deps.addInstruction window inst j)
          deps).Built window window.length := by
    intro rest
    induction rest with
    | nil =>
      rintro done deps hwindow hbuilt
      rw [List.append_nil] at hwindow
      rwa [← hwindow] at hbuilt
    | cons inst rest ih =>
      intro done deps hwindow hbuilt
      have hget : window[done.length]? = some inst := by simp [hwindow]
      have hnext := hbuilt.step hsingle hget
      have hlength : (done ++ [inst]).length = done.length + 1 := by simp
      rw [← hlength] at hnext
      have hrest := ih (done ++ [inst]) _ (by simp [hwindow]) hnext
      rwa [hlength] at hrest
  have hedges : (Dependences.start (A := A)).Edges window.length :=
    ⟨nofun, fun _ => List.nodup_nil, fun v => by simp [Dependences.start]⟩
  refine hprefix window [] .start rfl ⟨hedges, fun u x reg hu => absurd hu (Nat.not_lt_zero _),
    nofun, fun a u => ?_, fun a u => ?_, fun u v x y huv hv => absurd hv (Nat.not_lt_zero _)⟩
  · simp [Dependences.start]
  · simp [Dependences.start]

/-! ## The order -/

section Order
variable {succs : Nat → List Nat} {maxInflightLoads : Nat} {s : ReadySets}

/-- The successors as rows. -/
def rowsOf (window : List (SIRInstruction A)) (succs : Nat → List Nat) : List (List Nat) :=
  (List.range window.length).map succs

omit [DecidableEq A] in
theorem succ_rowsOf (hu : u < window.length) : succ (rowsOf window succs) u = succs u := by
  simp [succ, rowsOf, hu]

def ReadySets.kahn (s : ReadySets) : Kahn.State := ⟨s.indegree, s.ready, s.order⟩

/-- What is ready as a store or as a load is ready. -/
structure ReadySets.Kinds (s : ReadySets) : Prop where
  stores : s.readyStores.Sublist s.ready
  loads : s.readyLoads.Sublist s.ready

omit [DecidableEq A] in
theorem ReadySets.start_kinds (indegree : Nat → Nat) : (ReadySets.start window indegree).Kinds :=
  ⟨List.filter_sublist, List.filter_sublist⟩

omit [DecidableEq A] in
theorem ReadySets.release_spec (h : s.Kinds) (v : Nat) :
    (s.release window v).kahn = Kahn.releaseOne s.kahn v ∧ (s.release window v).Kinds := by
  unfold release Kahn.releaseOne
  by_cases hlast : s.indegree v - 1 = 0
  · simp only [kahn, hlast, if_true]
    refine ⟨trivial, ?_, ?_⟩
    · simp only
      split
      · exact h.stores.append (.refl _)
      · exact h.stores.trans (List.sublist_append_left _ _)
    · simp only
      split
      · exact h.loads.append (.refl _)
      · exact h.loads.trans (List.sublist_append_left _ _)
  · simp only [kahn, hlast, if_false]
    exact ⟨trivial, h.stores, h.loads⟩

omit [DecidableEq A] in
theorem ReadySets.releaseAll_spec (h : s.Kinds) (row : List Nat) :
    (row.foldl (release window) s).kahn = Kahn.release row s.kahn ∧
      (row.foldl (release window) s).Kinds := by
  induction row generalizing s with
  | nil => exact ⟨rfl, h⟩
  | cons v row ih =>
    have ⟨hkahn, hkinds⟩ : (s.release window v).kahn = Kahn.releaseOne s.kahn v ∧
        (s.release window v).Kinds := release_spec h v
    rw [List.foldl_cons, Kahn.release_cons, ← hkahn]
    exact ih hkinds

omit [DecidableEq A] in
theorem ReadySets.take_spec (h : s.Kinds) {pick : Nat} (hpick : pick < window.length) :
    (s.take window succs pick).kahn = Kahn.take (rowsOf window succs) pick s.kahn ∧
      (s.take window succs pick).Kinds := by
  unfold take Kahn.take
  rw [succ_rowsOf hpick]
  exact releaseAll_spec ⟨h.stores.erase _, h.loads.erase _⟩ _

theorem ReadySets.pick_mem (h : s.Kinds) {pick : Nat} (hpick : s.pick maxInflightLoads = some pick) :
    pick ∈ s.ready := by
  unfold ReadySets.pick least at hpick
  rcases Option.or_eq_some_iff.mp hpick with hstore | ⟨-, hrest⟩
  · exact h.stores.subset (first_mem hstore)
  · rcases Option.or_eq_some_iff.mp hrest with hload | ⟨-, hany⟩
    · split at hload
      · exact h.loads.subset (first_mem hload)
      · cases hload
    · exact first_mem hany

theorem ReadySets.pick_none (h : s.pick maxInflightLoads = none) : s.ready = [] := by
  unfold ReadySets.pick least at h
  simp only [Option.or_eq_none_iff, first_eq_none] at h
  exact h.2.2

omit [DecidableEq A] in
/-- The loop ends with nothing ready. -/
theorem ReadySets.run_spec (maxInflightLoads : Nat) (hadj : InRange (rowsOf window succs)) (fuel : Nat) (h : s.Kinds)
    (hinv : Kahn.Inv (rowsOf window succs) s.kahn)
    (hfuel : window.length ≤ fuel + s.order.length) :
    Kahn.Inv (rowsOf window succs) (s.run window succs maxInflightLoads fuel).kahn ∧
      (s.run window succs maxInflightLoads fuel).ready = [] := by
  have hlength : (rowsOf window succs).length = window.length := by simp [rowsOf]
  induction fuel generalizing s with
  | zero =>
    refine ⟨hinv, hinv.ready_nil_of_length ?_⟩
    rw [hlength]
    simpa [ReadySets.kahn] using hfuel
  | succ fuel ih =>
    unfold run
    split
    · rename_i hready
      exact ⟨hinv, hready⟩
    · cases hpick : s.pick maxInflightLoads with
      | none => exact ⟨hinv, pick_none hpick⟩
      | some pick =>
        have hmem := pick_mem h hpick
        have hlt : pick < window.length := by
          rw [← hlength]
          exact hinv.range pick (List.mem_append_right _ hmem)
        have ⟨hkahn, hkinds⟩ : (s.take window succs pick).kahn =
            Kahn.take (rowsOf window succs) pick s.kahn ∧
            (s.take window succs pick).Kinds := take_spec h hlt
        have hnext : Kahn.Inv (rowsOf window succs) (s.take window succs pick).kahn := by
          rw [hkahn]
          exact hinv.take hadj hmem
        have horder : (s.take window succs pick).order = s.order ++ [pick] := by
          rw [show (s.take window succs pick).order = (s.take window succs pick).kahn.order from rfl,
            hkahn, Kahn.take, Kahn.release_order]
          rfl
        refine ih hkinds hnext ?_
        rw [horder, List.length_append, List.length_singleton]
        omega

/-- Every instruction is put out once, and behind those it waits for. -/
theorem scheduleOrder_spec (hsingle : DefinedOnce window) (maxInflightLoads : Nat) :
    (scheduleOrder window maxInflightLoads).Perm (List.range window.length) ∧
      (scheduleOrder window maxInflightLoads).Pairwise fun i j =>
        ¬ (j < i ∧ ∃ x y, window[j]? = some x ∧ window[i]? = some y ∧ Depends x y) := by
  have hbuilt := dependences_built hsingle
  have hedges := hbuilt.edges
  have hlength : (rowsOf window (dependences window).succs).length = window.length := by
    simp [rowsOf]
  have hsucc : ∀ u v, v ∈ succ (rowsOf window (dependences window).succs) u ↔
      u < window.length ∧ v ∈ (dependences window).succs u := by
    intro u v
    by_cases hu : u < window.length
    · rw [succ_rowsOf hu]
      exact ⟨fun hv => ⟨hu, hv⟩, And.right⟩
    · simp [succ, rowsOf, hu]
  have hadj : InRange (rowsOf window (dependences window).succs) := fun u v hv => by
    rw [hlength]
    exact (hedges.upward u v ((hsucc u v).mp hv).2).2
  have hnodup : ∀ u, (succ (rowsOf window (dependences window).succs) u).Nodup := by
    intro u
    by_cases hu : u < window.length
    · rw [succ_rowsOf hu]
      exact hedges.nodup u
    · simp [succ, rowsOf, hu]
  have hstart : Kahn.Inv (rowsOf window (dependences window).succs)
      (ReadySets.start window (dependences window).indegree).kahn := by
    refine .start (fun v => ?_) ?_ rfl
    · rw [Kahn.pendingIn_start hnodup, hlength]
      refine (hedges.count v).trans (congrArg List.length (List.filter_congr fun u hu => ?_))
      rw [succ_rowsOf (List.mem_range.mp hu)]
    · rw [hlength]
      rfl
  obtain ⟨hinv, hempty⟩ := ReadySets.run_spec maxInflightLoads hadj window.length (ReadySets.start_kinds _) hstart (Nat.le_add_right _ _)
  -- the edges lead upwards
  have hacyclic : Acyclic (rowsOf window (dependences window).succs) := by
    have hup : ∀ u v, Relation.TransGen (Edge (rowsOf window (dependences window).succs)) u v →
        u < v := by
      intro u v h
      induction h with
      | single he => exact (hedges.upward _ _ ((hsucc _ _).mp he).2).1
      | tail _ he ih => exact ih.trans (hedges.upward _ _ ((hsucc _ _).mp he).2).1
    exact fun u hu => lt_irrefl u (hup u u hu)
  have hperm := hinv.perm_of_mem (hinv.complete hacyclic hempty)
  rw [hlength] at hperm
  refine ⟨hperm, hinv.topo.forward.imp fun hedge => ?_⟩
  rintro ⟨hlt, x, y, hx, hy, hdepends⟩
  have hi := (List.getElem?_eq_some_iff.mp hy).1
  exact hedge ((hsucc _ _).mpr ⟨hlt.trans hi, hbuilt.waits _ _ x y hlt hi hx hy hdepends⟩)

end Order

end Built
end Celox.Opt
