import Celox.Cfg.Intervals

/-! # Natural loops

For every header the blocks that lead back to it, from the smallest loop to the largest, each loop
with the innermost other loop around its header. -/
namespace Celox.Cfg
open Celox.Graph Relation

structure NaturalLoop where
  header : Nat
  blocks : Finset Nat
  parent : Option Nat

/-! ## The blocks of a loop -/

/-- Backwards over predecessors until all of them are in the loop. -/
def loopBlocks (predecessors : List (List Nat)) :
    (fuel : Nat) → (stack : List Nat) → Finset Nat → Finset Nat
  | 0, _, blocks => blocks
  | _ + 1, [], blocks => blocks
  | fuel + 1, block :: stack, blocks =>
    if block ∈ blocks then loopBlocks predecessors fuel stack blocks
    else loopBlocks predecessors fuel ((succ predecessors block).reverse ++ stack)
      (insert block blocks)

/-- A block goes into a loop at most once, so the fuel covers what is ever on the stack. -/
def addLatch (predecessors : List (List Nat)) (header tail : Nat) (blocks : Finset Nat) :
    Finset Nat :=
  loopBlocks predecessors
    ((∑ b ∈ Finset.range predecessors.length, (succ predecessors b).length) + 1) [tail] (insert header blocks)

def visitEdge (predecessors : List (List Nat)) (dominators : DominatorTree)
    (byHeader : Nat → Option (Finset Nat)) (edge : Nat × Nat) : Nat → Option (Finset Nat) :=
  let (tail, header) := edge
  if ¬ dominators.dominates header tail then byHeader
  else Function.update byHeader header
    (some (addLatch predecessors header tail ((byHeader header).getD ∅)))

/-- The edges by their sources. -/
def edgesOf (successors : List (List Nat)) : List (Nat × Nat) :=
  (List.range successors.length).flatMap fun tail => (succ successors tail).map fun header =>
    (tail, header)

/-! ## Nesting -/

/-- Smaller loops come first, then those with lower headers. -/
def NaturalLoop.le (l l' : NaturalLoop) : Bool :=
  l.blocks.card < l'.blocks.card || l.blocks.card = l'.blocks.card && l.header ≤ l'.header

/-- From the last loop to the first, with the innermost loop so far around each block. -/
def nestLoops : (remaining : Nat) → (loops : List NaturalLoop) →
    (innermostForBlock : Nat → Option Nat) → Except CfgError (List NaturalLoop)
  | 0, loops, _ => .ok loops
  | child + 1, loops, innermostForBlock =>
    match loops[child]? with
    | none => .ok loops
    | some natural =>
      let parent := innermostForBlock natural.header
      if (parent.bind (loops[·]?)).any fun outer => ¬ natural.blocks ⊆ outer.blocks then
        .error (.invalidGraph "natural loops overlap without nesting")
      else
        nestLoops child (loops.set child { natural with parent }) fun block =>
          if block ∈ natural.blocks then some child else innermostForBlock block

def naturalLoops (predecessors successors : List (List Nat)) (dominators : DominatorTree) :
    Except CfgError (List NaturalLoop) :=
  let byHeader := (edgesOf successors).foldl (visitEdge predecessors dominators) fun _ => none
  let loops := (List.range successors.length).filterMap fun header =>
    (byHeader header).map fun blocks => { header, blocks, parent := none }
  let loops := loops.insertionSort fun l l' => l.le l'
  nestLoops loops.length loops fun _ => none

/-! ## What a loop collects -/

section Blocks
variable {successors predecessors : List (List Nat)} {header tail : Nat} {latches : Nat → Prop}
  {stack : List Nat} {blocks : Finset Nat}

/-- The header and what leads to a latch without passing it. -/
def Collected (successors : List (List Nat)) (header : Nat) (latches : Nat → Prop)
    (blocks : Finset Nat) : Prop :=
  ∀ x, x ∈ blocks ↔ x = header ∨ ∃ t, latches t ∧ Avoids (Edge successors) header x t

/-- Predecessors of blocks of the loop are in it or still on the stack. -/
structure Collecting (successors : List (List Nat)) (header : Nat) (latches : Nat → Prop)
    (stack : List Nat) (blocks : Finset Nat) : Prop where
  header_mem : header ∈ blocks
  latch : ∀ t, latches t → t ∈ blocks ∨ t ∈ stack
  closed : ∀ x ∈ blocks, x ≠ header → ∀ p, Edge successors p x → p ∈ blocks ∨ p ∈ stack
  sound : ∀ x, x ∈ blocks ∨ x ∈ stack →
    x = header ∨ ∃ t, latches t ∧ Avoids (Edge successors) header x t

theorem Collecting.done (h : Collecting successors header latches [] blocks) :
    Collected successors header latches blocks := by
  refine fun x => ⟨fun hx => h.sound x (.inl hx), ?_⟩
  rintro (rfl | ⟨t, ht, hne, hwalk⟩)
  · exact h.header_mem
  · have htblocks : t ∈ blocks := by simpa using h.latch t ht
    clear ht
    induction hwalk using ReflTransGen.head_induction_on with
    | refl => exact htblocks
    | head hstep _ ih => simpa using h.closed _ (ih hstep.2) hstep.2 _ hstep.1

theorem Collecting.skip {block : Nat} (hmem : block ∈ blocks)
    (h : Collecting successors header latches (block :: stack) blocks) :
    Collecting successors header latches stack blocks := by
  have hdrop : ∀ x, x ∈ blocks ∨ x ∈ block :: stack → x ∈ blocks ∨ x ∈ stack := by
    rintro x (hx | hx)
    · exact .inl hx
    · rcases List.mem_cons.mp hx with rfl | hx
      · exact .inl hmem
      · exact .inr hx
  exact ⟨h.header_mem, fun t ht => hdrop t (h.latch t ht),
    fun x hx hne p hp => hdrop p (h.closed x hx hne p hp),
    fun x hx => h.sound x (hx.imp_right (List.mem_cons_of_mem _))⟩

theorem Collecting.grow {block : Nat} (hnew : block ∉ blocks)
    (hpred : ∀ p, p ∈ succ predecessors block ↔ Edge successors p block)
    (h : Collecting successors header latches (block :: stack) blocks) :
    Collecting successors header latches ((succ predecessors block).reverse ++ stack)
      (insert block blocks) := by
  have hkeep : ∀ x, x ∈ blocks ∨ x ∈ block :: stack →
      x ∈ insert block blocks ∨ x ∈ (succ predecessors block).reverse ++ stack := by
    intro x hx
    simp only [List.mem_cons, Finset.mem_insert, List.mem_append] at hx ⊢
    tauto
  have hne : block ≠ header := fun heq => hnew (heq ▸ h.header_mem)
  refine ⟨Finset.mem_insert_of_mem h.header_mem, fun t ht => hkeep t (h.latch t ht),
    fun x hx hxne p hp => ?_, fun x hx => ?_⟩
  · rcases Finset.mem_insert.mp hx with rfl | hx
    · exact .inr (List.mem_append_left _ (List.mem_reverse.mpr ((hpred p).mpr hp)))
    · exact hkeep p (h.closed x hx hxne p hp)
  · rcases hx with hx | hx
    · rcases Finset.mem_insert.mp hx with rfl | hx
      · exact h.sound x (.inr List.mem_cons_self)
      · exact h.sound x (.inl hx)
    · rcases List.mem_append.mp hx with hx | hx
      · -- a predecessor leads to the latch of the block
        by_cases hxh : x = header
        · exact .inl hxh
        · rcases h.sound block (.inr List.mem_cons_self) with heq | ⟨t, ht, hwalk⟩
          · exact absurd heq hne
          · have hedge : Edge successors x block := (hpred x).mp (List.mem_reverse.mp hx)
            exact .inr ⟨t, ht, hxh, hwalk.2.head ⟨hedge, hne⟩⟩
      · exact h.sound x (.inr (List.mem_cons_of_mem _ hx))

/-- Entries that can still come on the stack. -/
def loopWork (predecessors : List (List Nat)) (blocks : Finset Nat) : Nat :=
  ∑ b ∈ Finset.range predecessors.length \ blocks, (succ predecessors b).length

theorem loopWork_insert {block : Nat} (hnew : block ∉ blocks) :
    (succ predecessors block).length + loopWork predecessors (insert block blocks) =
      loopWork predecessors blocks := by
  unfold loopWork
  rw [Finset.sdiff_insert]
  by_cases hlt : block < predecessors.length
  · exact Finset.add_sum_erase _ (fun b => (succ predecessors b).length)
      (Finset.mem_sdiff.mpr ⟨Finset.mem_range.mpr hlt, hnew⟩)
  · have hrow : succ predecessors block = [] := by
      simp [succ, List.getElem?_eq_none (Nat.le_of_not_lt hlt)]
    rw [hrow, Finset.erase_eq_of_notMem (by simp [hlt])]
    simp

theorem loopBlocks_spec (hpred : ∀ b p, p ∈ succ predecessors b ↔ Edge successors p b)
    (fuel : Nat) (h : Collecting successors header latches stack blocks)
    (hfuel : stack.length + loopWork predecessors blocks ≤ fuel) :
    Collected successors header latches (loopBlocks predecessors fuel stack blocks) := by
  induction fuel generalizing stack blocks with
  | zero =>
    obtain rfl : stack = [] := List.eq_nil_of_length_eq_zero (by omega)
    exact h.done
  | succ fuel ih =>
    cases stack with
    | nil => exact h.done
    | cons block stack =>
      rw [List.length_cons] at hfuel
      unfold loopBlocks
      split
      · rename_i hmem
        exact ih (h.skip hmem) (by omega)
      · rename_i hnew
        have hwork : _ = loopWork predecessors _ := loopWork_insert hnew
        refine ih (h.grow hnew (hpred block)) ?_
        rw [List.length_append, List.length_reverse]
        omega

theorem addLatch_spec (hpred : ∀ b p, p ∈ succ predecessors b ↔ Edge successors p b)
    (h : Collected successors header latches (insert header blocks)) :
    Collected successors header (fun t => latches t ∨ t = tail)
      (addLatch predecessors header tail blocks) := by
  refine loopBlocks_spec hpred _ ⟨Finset.mem_insert_self header blocks, fun t ht => ?_,
    fun x hx hne p hp => ?_, fun x hx => ?_⟩ ?_
  · rcases ht with ht | rfl
    · by_cases hth : t = header
      · exact .inl ((h t).mpr (.inl hth))
      · exact .inl ((h t).mpr (.inr ⟨t, ht, hth, .refl⟩))
    · exact .inr List.mem_cons_self
  · left
    by_cases hph : p = header
    · exact (h p).mpr (.inl hph)
    · rcases (h x).mp hx with heq | ⟨t, ht, hwalk⟩
      · exact absurd heq hne
      · exact (h p).mpr (.inr ⟨t, ht, hph, hwalk.2.head ⟨hp, hne⟩⟩)
  · rcases hx with hx | hx
    · exact ((h x).mp hx).imp_right fun ⟨t, ht, hwalk⟩ => ⟨t, .inl ht, hwalk⟩
    · obtain rfl := List.mem_singleton.mp hx
      by_cases hth : x = header
      · exact .inl hth
      · exact .inr ⟨x, .inr rfl, hth, .refl⟩
  · have hle : loopWork predecessors (insert header blocks) ≤
        ∑ b ∈ Finset.range predecessors.length, (succ predecessors b).length :=
      Finset.sum_le_sum_of_subset Finset.sdiff_subset
    rw [List.length_singleton]
    omega

end Blocks

/-! ## The loops of all headers -/

section Edges
variable {successors predecessors : List (List Nat)} {root : Nat} {tree : DominatorTree}

/-- The loops of the headers of some edges. -/
def LoopsOf (successors : List (List Nat)) (tree : DominatorTree) (edges : List (Nat × Nat))
    (byHeader : Nat → Option (Finset Nat)) : Prop :=
  ∀ h, (byHeader h = none ∧ ∀ t, (t, h) ∈ edges → tree.dominates h t = false) ∨
    ∃ blocks, byHeader h = some blocks ∧ (∃ t, (t, h) ∈ edges ∧ tree.dominates h t) ∧
      Collected successors h (fun t => (t, h) ∈ edges ∧ tree.dominates h t) blocks

theorem LoopsOf.visit {edges : List (Nat × Nat)} {byHeader : Nat → Option (Finset Nat)}
    (hpred : ∀ b p, p ∈ succ predecessors b ↔ Edge successors p b)
    (h : LoopsOf successors tree edges byHeader) (edge : Nat × Nat) :
    LoopsOf successors tree (edges ++ [edge]) (visitEdge predecessors tree byHeader edge) := by
  obtain ⟨tail, header⟩ := edge
  have hmem : ∀ t h', (t, h') ∈ edges ++ [(tail, header)] ↔
      (t, h') ∈ edges ∨ t = tail ∧ h' = header := by
    intro t h'
    simp
  unfold visitEdge
  intro h'
  simp only [hmem]
  by_cases hdom : tree.dominates header tail
  · rw [if_neg (not_not.mpr hdom)]
    by_cases heq : h' = header
    · subst heq
      rw [Function.update_self]
      refine .inr ⟨_, rfl, ⟨tail, .inr ⟨rfl, rfl⟩, hdom⟩, ?_⟩
      have hstart : Collected successors h' (fun t => (t, h') ∈ edges ∧ tree.dominates h' t)
          (insert h' ((byHeader h').getD ∅)) := by
        rcases h h' with ⟨hnone, hno⟩ | ⟨blocks, hsome, -, hcollected⟩
        · intro x
          simp only [hnone, Option.getD_none, Finset.mem_insert, Finset.notMem_empty, or_false]
          refine (or_iff_left ?_).symm
          rintro ⟨t, ⟨ht, htrue⟩, -⟩
          rw [hno t ht] at htrue
          cases htrue
        · intro x
          rw [hsome, Option.getD_some, Finset.mem_insert, hcollected x, ← or_assoc, or_self]
      have hadded : Collected successors h' _ (addLatch predecessors h' tail _) :=
        addLatch_spec hpred hstart
      intro x
      rw [hadded x]
      refine or_congr_right (exists_congr fun t => and_congr_left fun _ => ?_)
      constructor
      · rintro (ht | rfl)
        · exact ⟨.inl ht.1, ht.2⟩
        · exact ⟨.inr ⟨rfl, rfl⟩, hdom⟩
      · rintro ⟨ht | ⟨rfl, -⟩, htrue⟩
        · exact .inl ⟨ht, htrue⟩
        · exact .inr rfl
    · rw [Function.update_of_ne heq]
      simpa [heq] using h h'
  · -- an edge that is no edge back
    rw [if_pos hdom]
    have hskip : ∀ t, ((t, h') ∈ edges ∨ t = tail ∧ h' = header) ∧ tree.dominates h' t = true ↔
        (t, h') ∈ edges ∧ tree.dominates h' t = true := by
      intro t
      constructor
      · rintro ⟨ht | ⟨rfl, rfl⟩, htrue⟩
        · exact ⟨ht, htrue⟩
        · exact absurd htrue hdom
      · exact fun ht => ⟨.inl ht.1, ht.2⟩
    simp only [hskip]
    refine (h h').imp_left fun ⟨hnone, hno⟩ => ⟨hnone, ?_⟩
    rintro t (ht | ⟨rfl, rfl⟩)
    · exact hno t ht
    · simpa using hdom

theorem LoopsOf.foldl {rest edges : List (Nat × Nat)} {byHeader : Nat → Option (Finset Nat)}
    (hpred : ∀ b p, p ∈ succ predecessors b ↔ Edge successors p b)
    (h : LoopsOf successors tree edges byHeader) :
    LoopsOf successors tree (edges ++ rest)
      (rest.foldl (visitEdge predecessors tree) byHeader) := by
  induction rest generalizing edges byHeader with
  | nil => simpa using h
  | cons edge rest ih =>
    have hrest := ih (h.visit hpred edge)
    simpa using hrest

theorem mem_edgesOf {t h : Nat} : (t, h) ∈ edgesOf successors ↔ Edge successors t h := by
  unfold edgesOf
  simp only [List.mem_flatMap, List.mem_range, List.mem_map, Prod.mk.injEq]
  constructor
  · rintro ⟨u, -, v, hv, rfl, rfl⟩
    exact hv
  · exact fun hedge => ⟨t, Edge.lt_length hedge, h, hedge, rfl, rfl⟩

end Edges

/-! ## Parents -/

/-- The smallest of the sets around one of them. -/
def IsParent (all : List (Finset Nat)) (own : Finset Nat) : Option Nat → Prop
  | none => ∀ other ∈ all, ¬ own ⊂ other
  | some j => ∃ outer, all[j]? = some outer ∧ own ⊂ outer ∧
      ∀ other ∈ all, own ⊂ other → outer ⊆ other

/-- The first set from an index on that has the block. -/
structure Innermost (all : List (Finset Nat)) (first : Nat) (innermost : Nat → Option Nat) :
    Prop where
  found : ∀ b j, innermost b = some j → first ≤ j ∧ (∃ s, all[j]? = some s ∧ b ∈ s) ∧
    ∀ k s, first ≤ k → all[k]? = some s → b ∈ s → j ≤ k
  absent : ∀ b, innermost b = none → ∀ k s, first ≤ k → all[k]? = some s → b ∉ s

section Nesting
variable {all : List (Finset Nat)} {innermost : Nat → Option Nat} {own : Finset Nat}

theorem Innermost.step {child : Nat} (h : Innermost all (child + 1) innermost)
    (hown : all[child]? = some own) :
    Innermost all child fun b => if b ∈ own then some child else innermost b := by
  have hhere : ∀ {b k s}, b ∉ own → child ≤ k → all[k]? = some s → b ∈ s → child + 1 ≤ k := by
    intro b k s hb hle hs hmem
    refine Nat.lt_of_le_of_ne hle ?_
    rintro rfl
    rw [hown] at hs
    exact hb (Option.some.inj hs ▸ hmem)
  constructor
  · intro b j hj
    split at hj
    · rename_i hb
      cases hj
      exact ⟨le_rfl, ⟨own, hown, hb⟩, fun k s hle _ _ => hle⟩
    · rename_i hb
      obtain ⟨hle, hfound, hfirst⟩ := h.found b j hj
      exact ⟨by omega, hfound, fun k s hk hs hmem => hfirst k s (hhere hb hk hs hmem) hs hmem⟩
  · intro b hb k s hle hs hmem
    split at hb
    · cases hb
    · rename_i hno
      exact h.absent b hb k s (hhere hno hle hs hmem) hs hmem

/-- In a list that begins with the innermost sets, the first set behind one of them that has one of
its elements is its parent. -/
theorem Innermost.isParent {child header : Nat}
    (hall : all.Pairwise fun s s' => Disjoint s s' ∨ s ⊂ s')
    (h : Innermost all (child + 1) innermost) (hown : all[child]? = some own)
    (hheader : header ∈ own) : IsParent all own (innermost header) := by
  obtain ⟨hchild, hget⟩ := List.getElem?_eq_some_iff.mp hown
  have hlater : ∀ {k s}, all[k]? = some s → own ⊂ s → child + 1 ≤ k := by
    intro k s hs hsub
    by_contra hle
    obtain ⟨hk, hgetk⟩ := List.getElem?_eq_some_iff.mp hs
    rcases Nat.lt_or_eq_of_le (Nat.le_of_lt_succ (Nat.lt_of_not_le hle)) with hlt | rfl
    · have hpair := List.pairwise_iff_getElem.mp hall k child hk hchild hlt
      rw [hget, hgetk] at hpair
      rcases hpair with hdisjoint | hsub'
      · exact Finset.disjoint_left.mp hdisjoint (hsub.1 hheader) hheader
      · exact (hsub.trans hsub').ne rfl
    · exact hsub.ne (hget.symm.trans hgetk)
  unfold IsParent
  split
  · rename_i hnone
    intro other hother hsub
    obtain ⟨k, hk⟩ := List.getElem?_of_mem hother
    exact h.absent header hnone k other (hlater hk hsub) hk (hsub.1 hheader)
  · rename_i j hsome
    obtain ⟨hle, ⟨outer, houter, hmem⟩, hfirst⟩ := h.found header j hsome
    obtain ⟨hj, hgetj⟩ := List.getElem?_eq_some_iff.mp houter
    refine ⟨outer, houter, ?_, fun other hother hsub => ?_⟩
    · have hpair := List.pairwise_iff_getElem.mp hall child j hchild hj (by omega)
      rw [hget, hgetj] at hpair
      exact hpair.resolve_left fun hdisjoint => Finset.disjoint_left.mp hdisjoint hheader hmem
    · obtain ⟨k, hk⟩ := List.getElem?_of_mem hother
      have hjk := hfirst k other (hlater hk hsub) hk (hsub.1 hheader)
      obtain ⟨hk', hgetk⟩ := List.getElem?_eq_some_iff.mp hk
      rcases Nat.lt_or_eq_of_le hjk with hlt | rfl
      · have hpair := List.pairwise_iff_getElem.mp hall j k hj hk' hlt
        rw [hgetj, hgetk] at hpair
        rcases hpair with hdisjoint | hsub'
        · exact absurd (hsub.1 hheader) (Finset.disjoint_left.mp hdisjoint hmem)
        · exact hsub'.1
      · rw [houter] at hk
        exact Option.some.inj hk ▸ subset_rfl

/-- Nested loops get their parents without an error. -/
theorem nestLoops_ok (hall : all.Pairwise fun s s' => Disjoint s s' ∨ s ⊂ s') (remaining : Nat)
    {loops : List NaturalLoop} (hblocks : loops.map NaturalLoop.blocks = all)
    (hheader : ∀ l ∈ loops, l.header ∈ l.blocks) (hle : remaining ≤ loops.length)
    (h : Innermost all remaining innermost) :
    ∃ result, nestLoops remaining loops innermost = .ok result ∧
      result.map NaturalLoop.blocks = all ∧
      result.map NaturalLoop.header = loops.map NaturalLoop.header ∧
      (∀ i, remaining ≤ i → result[i]? = loops[i]?) ∧
      ∀ i < remaining, ∀ l, result[i]? = some l → IsParent all l.blocks l.parent := by
  induction remaining generalizing loops innermost with
  | zero => exact ⟨loops, rfl, hblocks, rfl, fun _ _ => rfl, fun i hi => absurd hi (by omega)⟩
  | succ child ih =>
    have hlt : child < loops.length := hle
    have hget : loops[child]? = some loops[child] := List.getElem?_eq_getElem hlt
    generalize loops[child] = natural at hget
    have hown : all[child]? = some natural.blocks := by
      rw [← hblocks, List.getElem?_map, hget]
      rfl
    have hmem : natural ∈ loops := List.mem_of_getElem? hget
    have hparent := h.isParent hall hown (hheader natural hmem)
    have hcheck : ¬ ((innermost natural.header).bind (loops[·]?)).any
        (fun outer => ¬ natural.blocks ⊆ outer.blocks) := by
      cases hinner : innermost natural.header with
      | none => simp
      | some j =>
        rw [hinner] at hparent
        obtain ⟨outer, houter, hsub, -⟩ := hparent
        rw [← hblocks, List.getElem?_map] at houter
        cases hj : loops[j]? with
        | none => simp [hj]
        | some l =>
          rw [hj] at houter
          obtain rfl : l.blocks = outer := Option.some.inj houter
          simp [hj, hsub.1]
    have hset : ∀ {β : Type} (f : NaturalLoop → β),
        f { natural with parent := innermost natural.header } = f natural →
        (loops.set child { natural with parent := innermost natural.header }).map f =
          loops.map f := by
      intro β f hf
      rw [List.map_set, hf]
      refine List.ext_getElem? fun i => ?_
      rw [List.getElem?_set, List.getElem?_map]
      split
      · rename_i heq
        subst heq
        rw [if_pos (by simpa using hlt), hget]
        rfl
      · rfl
    have hheader' : ∀ l ∈ loops.set child { natural with parent := innermost natural.header },
        l.header ∈ l.blocks := by
      intro l hl
      rcases List.mem_or_eq_of_mem_set hl with hl | rfl
      · exact hheader l hl
      · exact hheader natural hmem
    obtain ⟨result, hok, hblocks', hheaders, hsame, hparents⟩ :=
      ih ((hset _ rfl).trans hblocks) hheader' (by rw [List.length_set]; omega) (h.step hown)
    refine ⟨result, ?_, hblocks', hheaders.trans (hset _ rfl), fun i hi => ?_,
      fun i hi l hl => ?_⟩
    · unfold nestLoops
      rw [hget]
      dsimp only
      rw [if_neg hcheck]
      exact hok
    · rw [hsame i (by omega), List.getElem?_set_ne (by omega)]
    · rcases Nat.lt_or_eq_of_le (Nat.le_of_lt_succ hi) with hi | rfl
      · exact hparents i hi l hl
      · rw [hsame i le_rfl, List.getElem?_set_self hlt] at hl
        cases hl
        exact hparent

end Nesting

/-! ## All loops -/

/-- The natural loops of a graph, each with the smallest loop around it. -/
structure LoopForest (successors : List (List Nat)) (root : Nat) (loops : List NaturalLoop) :
    Prop where
  blocks : ∀ l ∈ loops, ∀ x, x ∈ l.blocks ↔ InLoop (Edge successors) root l.header x
  headers : ∀ h, h ∈ loops.map NaturalLoop.header ↔ ∃ t, Latch (Edge successors) root h t
  nodup : (loops.map NaturalLoop.header).Nodup
  nested : (loops.map NaturalLoop.blocks).Pairwise fun s s' => Disjoint s s' ∨ s ⊂ s'
  parent : ∀ l ∈ loops, IsParent (loops.map NaturalLoop.blocks) l.blocks l.parent

section Loops
variable {successors predecessors : List (List Nat)} {root : Nat} {tree : DominatorTree}

instance : Std.Total fun l l' : NaturalLoop => (l.le l' : Prop) where
  total l l' := by
    simp only [NaturalLoop.le, Bool.or_eq_true, Bool.and_eq_true, decide_eq_true_eq]
    omega

instance : IsTrans NaturalLoop fun l l' => (l.le l' : Prop) where
  trans l l' l'' := by
    simp only [NaturalLoop.le, Bool.or_eq_true, Bool.and_eq_true, decide_eq_true_eq]
    omega

theorem NaturalLoop.card_le {l l' : NaturalLoop} (h : l.le l') :
    l.blocks.card ≤ l'.blocks.card := by
  simp only [NaturalLoop.le, Bool.or_eq_true, Bool.and_eq_true, decide_eq_true_eq] at h
  omega

/-- A header has a loop if it has a latch. -/
def LoopAt (successors : List (List Nat)) (root h : Nat) (entry : Option (Finset Nat)) : Prop :=
  (entry.isSome ↔ ∃ t, Latch (Edge successors) root h t) ∧
    ∀ blocks, entry = some blocks → ∀ x, x ∈ blocks ↔ InLoop (Edge successors) root h x

theorem LoopsOf.loopAt {byHeader : Nat → Option (Finset Nat)} (h : DominatorsOf successors root tree)
    (hreach : ∀ b < successors.length, Reach successors root b)
    (hall : LoopsOf successors tree (edgesOf successors) byHeader) (b : Nat) :
    LoopAt successors root b (byHeader b) := by
  have hlatch : ∀ t, ((t, b) ∈ edgesOf successors ∧ tree.dominates b t) ↔
      Latch (Edge successors) root b t := by
    intro t
    rw [mem_edgesOf, h.dominates]
    refine and_congr_right fun hedge => ?_
    have ht : Reach successors root t := hreach t (Edge.lt_length hedge)
    exact ⟨fun hd => hd.2.2, fun hd => ⟨hd.reach ht, ht, hd⟩⟩
  rcases hall b with ⟨hnone, hno⟩ | ⟨blocks, hsome, ⟨t, ht⟩, hcollected⟩
  · rw [hnone]
    refine ⟨iff_of_false (by simp) ?_, by simp⟩
    rintro ⟨t, ht⟩
    obtain ⟨hmem, htrue⟩ := (hlatch t).mpr ht
    rw [hno t hmem] at htrue
    cases htrue
  · rw [hsome]
    refine ⟨iff_of_true rfl ⟨t, (hlatch t).mp ht⟩, ?_⟩
    rintro _ ⟨⟩ x
    rw [hcollected x, InLoop, and_iff_right ⟨t, (hlatch t).mp ht⟩]
    simp only [hlatch]

theorem reach_of_inLoop {b x : Nat} (hin : InLoop (Edge successors) root b x)
    (hreach : ∀ b < successors.length, Reach successors root b) : Reach successors root x := by
  obtain ⟨⟨t, ht⟩, rfl | ⟨t', ht', -, hwalk⟩⟩ := hin
  · exact ht.2.reach (hreach t (Edge.lt_length ht.1))
  · rcases hwalk.cases_head with rfl | ⟨y, hy, -⟩
    · exact hreach x (Edge.lt_length ht'.1)
    · exact hreach x (Edge.lt_length hy.1)

theorem naturalLoops_exact (h : DominatorsOf successors root tree)
    (hreach : ∀ b < successors.length, Reach successors root b)
    (hpred : ∀ b p, p ∈ succ predecessors b ↔ Edge successors p b) :
    ∃ loops, naturalLoops predecessors successors tree = .ok loops ∧
      LoopForest successors root loops := by
  have hall : LoopsOf successors tree ([] ++ edgesOf successors)
      ((edgesOf successors).foldl (visitEdge predecessors tree) fun _ => none) :=
    LoopsOf.foldl hpred fun b => .inl ⟨rfl, by simp⟩
  have hat := hall.loopAt h hreach
  unfold naturalLoops
  dsimp only
  generalize (edgesOf successors).foldl (visitEdge predecessors tree) (fun _ => none) = byHeader
    at hat
  -- the loops before they are sorted
  generalize hbase : ((List.range successors.length).filterMap fun header =>
    (byHeader header).map fun blocks => ({ header, blocks, parent := none } : NaturalLoop)) = base
  have hmem : ∀ l, l ∈ base → byHeader l.header = some l.blocks := by
    intro l hl
    rw [← hbase, List.mem_filterMap] at hl
    obtain ⟨header, -, hheader⟩ := hl
    obtain ⟨blocks, hblocks, rfl⟩ := Option.map_eq_some_iff.mp hheader
    exact hblocks
  have hdistinct : base.Pairwise fun l l' => l.header ≠ l'.header := by
    rw [← hbase, List.pairwise_filterMap]
    refine List.pairwise_lt_range.imp fun {a a'} hlt l hl l' hl' => ?_
    obtain ⟨blocks, -, rfl⟩ := Option.map_eq_some_iff.mp hl
    obtain ⟨blocks', -, rfl⟩ := Option.map_eq_some_iff.mp hl'
    exact hlt.ne
  have hheaders : ∀ b, b ∈ base.map NaturalLoop.header ↔ ∃ t, Latch (Edge successors) root b t := by
    intro b
    rw [← (hat b).1, List.mem_map]
    constructor
    · rintro ⟨l, hl, rfl⟩
      rw [hmem l hl]
      rfl
    · intro hsome
      obtain ⟨blocks, hblocks⟩ := Option.isSome_iff_exists.mp hsome
      obtain ⟨t, ht⟩ := (hat b).1.mp hsome
      have hlt : b < successors.length :=
        h.treeAt.reach_lt (ht.2.reach (hreach t (Edge.lt_length ht.1)))
      refine ⟨⟨b, blocks, none⟩, ?_, rfl⟩
      rw [← hbase]
      exact List.mem_filterMap.mpr ⟨b, List.mem_range.mpr hlt, by rw [hblocks]; rfl⟩
  have hblocks : ∀ l ∈ base, ∀ x, x ∈ l.blocks ↔ InLoop (Edge successors) root l.header x :=
    fun l hl => (hat l.header).2 l.blocks (hmem l hl)
  -- sorted loops that meet lie within each other
  have hperm := List.perm_insertionSort (fun l l' : NaturalLoop => (l.le l' : Prop)) base
  have hsorted := List.pairwise_insertionSort (fun l l' : NaturalLoop => (l.le l' : Prop)) base
  generalize base.insertionSort (fun l l' => (l.le l' : Prop)) = loops at hperm hsorted
  have hdistinct' : loops.Pairwise fun l l' => l.header ≠ l'.header :=
    (hperm.pairwise_iff fun hne => Ne.symm hne).mpr hdistinct
  have hnested : (loops.map NaturalLoop.blocks).Pairwise fun s s' => Disjoint s s' ∨ s ⊂ s' := by
    rw [List.pairwise_map]
    refine (hsorted.and hdistinct').imp_of_mem fun {l l'} hl hl' hle => ?_
    have hx := hblocks l (hperm.mem_iff.mp hl)
    have hx' := hblocks l' (hperm.mem_iff.mp hl')
    obtain ⟨t, ht⟩ := (hheaders l.header).mp (List.mem_map_of_mem (hperm.mem_iff.mp hl))
    obtain ⟨t', ht'⟩ := (hheaders l'.header).mp (List.mem_map_of_mem (hperm.mem_iff.mp hl'))
    rcases InLoop.apart_or_nested h.treeAt.hasIdoms hle.2 (fun x hin => reach_of_inLoop hin hreach) with
      hapart | ⟨hout, hsub⟩ | ⟨hout, hsub⟩
    · exact .inl (Finset.disjoint_left.mpr fun x hin hin' =>
        hapart x ((hx x).mp hin) ((hx' x).mp hin'))
    · -- the larger loop does not come first
      have hlt : l'.blocks ⊂ l.blocks := Finset.ssubset_iff_subset_ne.mpr
        ⟨fun x hin => (hx x).mpr (hsub x ((hx' x).mp hin)), fun heq => hout ((hx' _).mp
          (heq ▸ (hx _).mpr ⟨⟨t, ht⟩, .inl rfl⟩))⟩
      have := Finset.card_lt_card hlt
      have := NaturalLoop.card_le hle.1
      omega
    · exact .inr (Finset.ssubset_iff_subset_ne.mpr
        ⟨fun x hin => (hx' x).mpr (hsub x ((hx x).mp hin)), fun heq => hout ((hx _).mp
          (heq ▸ (hx' _).mpr ⟨⟨t', ht'⟩, .inl rfl⟩))⟩)
  have hheader : ∀ l ∈ loops, l.header ∈ l.blocks := by
    intro l hl
    have hl := hperm.mem_iff.mp hl
    exact (hblocks l hl _).mpr ⟨(hheaders l.header).mp (List.mem_map_of_mem hl), .inl rfl⟩
  obtain ⟨result, hok, hblocks', hheaders', -, hparent⟩ :=
    nestLoops_ok hnested loops.length rfl hheader le_rfl
      (⟨fun _ _ hj => (by cases hj), fun b _ k s hle hs => by
        rw [List.getElem?_eq_none (by simpa using hle)] at hs
        cases hs⟩ : Innermost _ _ fun _ => none)
  have hlength : result.length = loops.length := by simpa using congrArg List.length hheaders'
  have hsame : ∀ l ∈ result, ∃ l' ∈ loops, l'.header = l.header ∧ l'.blocks = l.blocks := by
    intro l hl
    obtain ⟨i, hi⟩ := List.getElem?_of_mem hl
    have hi' : i < loops.length := hlength ▸ (List.getElem?_eq_some_iff.mp hi).1
    have hb := congrArg (·[i]?) hblocks'
    have hh := congrArg (·[i]?) hheaders'
    simp only [List.getElem?_map, hi, List.getElem?_eq_getElem hi', Option.map_some,
      Option.some.injEq] at hb hh
    exact ⟨loops[i], List.getElem_mem hi', hh.symm, hb.symm⟩
  refine ⟨result, hok, ?_, ?_, ?_, ?_, ?_⟩
  · intro l hl x
    obtain ⟨l', hl', hh, hb⟩ := hsame l hl
    rw [← hb, ← hh]
    exact hblocks l' (hperm.mem_iff.mp hl') x
  · intro b
    rw [hheaders', (hperm.map _).mem_iff]
    exact hheaders b
  · rw [hheaders']
    exact List.pairwise_map.mpr hdistinct'
  · rw [hblocks']
    exact hnested
  · intro l hl
    obtain ⟨i, hi⟩ := List.getElem?_of_mem hl
    rw [hblocks']
    exact hparent i (hlength ▸ (List.getElem?_eq_some_iff.mp hi).1) l hi

end Loops
end Celox.Cfg
