import Celox.Regalloc.ParallelCopy

/-! # The resolved copies do what the rows do at once -/
namespace Celox.Regalloc
open Celox.Data

variable {R : Type} [DecidableEq R] {rows : List (ParallelCopy R)} {s s' : Resolver R}
  {m m₀ : CopyMachine R} {saved : Option (CopyDestination R)} {index : Nat} {copy : PendingCopy R}

/-- What the row with a destination reads. -/
def sourceOf (rows : List (ParallelCopy R)) (location : CopyDestination R) :
    Option (CopyDestination R ⊕ UInt64) :=
  (rows.find? (·.destination = location)).map (·.source.operand)

/-- The operations so far have carried out the rows that are done, from the machine `m₀`. -/
structure Carried (rows : List (ParallelCopy R)) (m₀ : CopyMachine R)
    (saved : Option (CopyDestination R)) (s : Resolver R) (m : CopyMachine R) : Prop where
  ran : m₀.run s.operations = some m
  live : m.temporaryLive = s.temporaryLive
  assigning : Assigning (sourceOf rows) m₀.value (Waiting s.copies) saved m.value m.temporary
  unsaved : (∀ l, .saveTemporary l ∉ s.operations) → m.temporary = m₀.temporary
  origin : m.temporary = m₀.temporary ∨ ∃ row ∈ rows, m.temporary = m₀.value row.destination

theorem CopyMachine.run_concat {operations : List (CopyOperation R)} {operation : CopyOperation R}
    (h : m₀.run operations = some m) :
    m₀.run (operations ++ [operation]) = m.execute operation := by
  unfold CopyMachine.run at h ⊢
  rw [List.foldlM_append, h]
  simp

/-- One more operation, which does a row without touching the temporary's value. -/
theorem Carried.retire (hm : Carried rows m₀ saved s m)
    (hdistinct : (s.copies.map (·.destination)).Nodup) (hpending : PendingAt s.copies index copy)
    {operation : CopyOperation R} (hcopies : s'.copies = s.copies)
    (hoperations : s'.operations = s.operations ++ [operation]) {m' : CopyMachine R}
    (hexecute : m.execute operation = some m') (hlive : m'.temporaryLive = s'.temporaryLive)
    (htemporary : m'.temporary = m.temporary) {saved' : Option (CopyDestination R)}
    (hassigning : Assigning (sourceOf rows) m₀.value
      (fun l => l ≠ copy.destination ∧ Waiting s.copies l) saved' m'.value m.temporary) :
    Carried rows m₀ saved' (s'.retire index copy) m' where
  ran := by
    change m₀.run s'.operations = some m'
    rw [hoperations, CopyMachine.run_concat hm.ran, hexecute]
  live := hlive
  assigning := by
    change Assigning _ _ (Waiting (s'.copies.set index _)) _ _ _
    rw [hcopies, waiting_set hdistinct hpending, htemporary]
    exact hassigning
  unsaved hunsaved := by
    refine htemporary.trans (hm.unsaved fun l hl => hunsaved l ?_)
    change _ ∈ s'.operations
    rw [hoperations]
    exact List.mem_append_left _ hl
  origin := by rw [htemporary]; exact hm.origin

namespace Resolver

/-- A location without readers is read by no pending row but the one that reads the temporary. -/
theorem Books.unread (h : s.Books (sourceOf rows) saved) {l : CopyDestination R}
    (hnone : s.readers.lookup l = none) (k : CopyDestination R) (hk : Waiting s.copies k)
    (hsaved : saved ≠ some k) : sourceOf rows k ≠ some (.inl l) := by
  obtain ⟨i, c, hi, rfl⟩ := hk
  obtain ⟨source, hsource, -, ⟨-, hvalue⟩ | ⟨hother, -⟩⟩ := h.source i c hi
  · intro hreads
    have hmem : i ∈ (s.readers.lookup l).getD ∅ := by
      refine (h.readers l i).mpr ⟨c, hi, ?_⟩
      rw [PendingCopy.reads, hvalue]
      exact sourceAsDestination_eq_some.mpr (Option.some.inj (hsource.symm.trans hreads))
    simp [hnone] at hmem
  · exact absurd hother hsaved

/-- One turn of the inner loop keeps the books and carries out the row that it takes. -/
theorem turn_spec (h : s.Books (sourceOf rows) saved) (hm : Carried rows m₀ saved s m)
    {ready : List Nat} (hready : s.ready = index :: ready) :
    ∃ s' saved' m', { s with ready }.turn index = .ok s' ∧ s'.Books (sourceOf rows) saved' ∧
      Carried rows m₀ saved' s' m' ∧ s'.remaining + s'.ready.length + 1 ≤ s.remaining + s.ready.length ∧
      s'.remaining ≤ s.remaining ∧
      ((∃ copy, PendingAt s.copies index copy) → s'.remaining < s.remaining) := by
  obtain ⟨hbound, hunread⟩ := h.ready index (hready ▸ List.mem_cons_self ..)
  have hget := List.getElem?_eq_getElem hbound
  generalize s.copies[index] = copy at hget
  -- the flags of the rows that are left in the queue
  have hflags : ∀ i, (s.queued.set index false)[i]? = some true → i ∈ ready := by
    intro i hi
    rw [List.getElem?_set] at hi
    split_ifs at hi with heq
    · cases hi
    · have hmem := h.queued i hi
      rw [hready] at hmem
      exact (List.mem_cons.mp hmem).resolve_left (Ne.symm heq)
  unfold turn
  rw [if_pos (by simpa [h.queuedLength] using hbound)]
  dsimp only
  rw [hget]
  dsimp only
  by_cases hpend : copy.pending = true
  swap
  · -- a row that is done already
    have hne : ∀ i c, PendingAt s.copies i c → i ≠ index := by
      rintro i c hi rfl
      exact hpend (Option.some.inj (hi.1.symm.trans hget) ▸ hi.2)
    have hleft : ∀ i c, PendingAt s.copies i c → i ∈ s.ready → i ∈ ready := by
      intro i c hi hmem
      rw [hready] at hmem
      exact (List.mem_cons.mp hmem).resolve_left (hne i c hi)
    rw [if_neg hpend]
    refine ⟨_, saved, m, rfl, ⟨h.distinct, h.index, ?_, h.source, h.readers, h.reader,
      fun i hi => h.ready i (hready ▸ List.mem_cons_of_mem _ hi), fun i c hi => ?_, hflags,
      fun i c hlt hi => hleft i c hi (h.search i c hlt hi), h.remaining, h.live⟩,
      ⟨hm.ran, hm.live, hm.assigning, hm.unsaved, hm.origin⟩, ?_, le_refl _, ?_⟩
    · exact (List.length_set ..).trans h.queuedLength
    · exact (h.blocked i c hi).imp_left (hleft i c hi)
    · change s.remaining + ready.length + 1 ≤ _
      rw [hready, List.length_cons]
      omega
    · rintro ⟨c, hc⟩
      exact absurd rfl (hne index c hc)
  have hpending : PendingAt s.copies index copy := ⟨hget, hpend⟩
  have hnone := hunread copy hpending
  rw [if_pos hpend]
  obtain ⟨source, hsource, hself, hwhere⟩ := h.source index copy hpending
  have hwaiting : Waiting s.copies copy.destination := ⟨index, copy, hpending, rfl⟩
  have hpos : 0 < s.remaining := by
    rw [h.remaining]
    exact List.countP_pos_iff.mpr ⟨copy, List.mem_of_getElem? hget, hpend⟩
  -- the reader sets that the row is in
  have hmem : ∀ l, index ∈ (s.readers.lookup l).getD ∅ → copy.reads = some l := by
    intro l hl
    obtain ⟨c, hc, hreads⟩ := (h.readers l index).mp hl
    exact Option.some.inj (hc.1.symm.trans hget) ▸ hreads
  -- the state that `perform` starts from
  generalize hstart : ({ s with
    ready
    queued := s.queued.set index false
    work := { s.work with readyQueuePops := s.work.readyQueuePops + 1 } } : Resolver R) = s₀
  obtain ⟨hcopies, hindex, hremaining, hsearch, hlength, hreaders, hrest, hqueued, hops, hlive⟩ :
      s₀.copies = s.copies ∧ s₀.destinationIndex = s.destinationIndex ∧
      s₀.remaining = s.remaining ∧ s₀.cycleSearchStart = s.cycleSearchStart ∧
      s₀.queued.length = s.queued.length ∧ s₀.readers = s.readers ∧ s₀.ready = ready ∧
      s₀.queued = s.queued.set index false ∧ s₀.operations = s.operations ∧
      s₀.temporaryLive = s.temporaryLive := by
    subst hstart
    exact ⟨rfl, rfl, rfl, rfl, List.length_set .., rfl, rfl, rfl, rfl, rfl⟩
  clear hstart
  obtain ⟨s₁, saved', m', hperform, hleft, hadded, hbooks, hcarried⟩ : ∃ s₁ saved' m',
      s₀.perform index copy = .ok s₁ ∧ s₁.remaining = s.remaining ∧
      s₁.ready.length ≤ ready.length + 1 ∧ (s₁.retire index copy).Books (sourceOf rows) saved' ∧
      Carried rows m₀ saved' (s₁.retire index copy) m' := by
    rcases hwhere with ⟨hsaved, hvalue⟩ | ⟨hsaved, htemporary⟩
    · have hreads : copy.reads = sourceAsDestination source := by
        rw [PendingCopy.reads, hvalue]
      have hmove := hm.assigning.move hwaiting hsaved hsource
        fun k hk hother _ => h.unread hnone k hk hother
      obtain ⟨s₂, hsecond⟩ : ∃ s₂, ({ s₀ with
        operations := s₀.operations ++ [.move copy.destination source]
        work := { s₀.work with directMoves := s₀.work.directMoves + 1 } } : Resolver R) = s₂ := ⟨_, rfl⟩
      have hcopies₂ : s₂.copies = s.copies := by rw [← hsecond]; exact hcopies
      have hindex₂ : s₂.destinationIndex = s.destinationIndex := by rw [← hsecond]; exact hindex
      have hqueued₂ : s₂.queued = s.queued.set index false := by rw [← hsecond]; exact hqueued
      have hreaders₂ : s₂.readers = s.readers := by rw [← hsecond]; exact hreaders
      have hrest₂ : s₂.ready = ready := by rw [← hsecond]; exact hrest
      have hreader₂ : ∀ l, s₂.readers.lookup l ≠ some ∅ := hreaders₂ ▸ h.reader
      have hflags₂ : ∀ i, s₂.queued[i]? = some true → i ∈ s₂.ready := by
        rw [hqueued₂, hrest₂]
        exact hflags
      obtain ⟨s₁, hok, hdone, hops₁, hlive₁⟩ : ∃ s₁, s₀.perform index copy = .ok s₁ ∧
          Performed s₂ s₁ index ∧ s₁.operations = s₂.operations ∧
          s₁.temporaryLive = s₂.temporaryLive := by
        unfold perform
        rw [hvalue]
        dsimp only
        rw [hsecond]
        cases hlocation : sourceAsDestination source with
        | none =>
          refine ⟨s₂, rfl, .of_unread rfl rfl rfl rfl rfl rfl rfl hreader₂ hflags₂ fun l hl => ?_,
            rfl, rfl⟩
          have hread := hmem l (hreaders₂ ▸ hl)
          rw [hreads, hlocation] at hread
          cases hread
        | some location =>
          refine release_spec ?_ ?_ hreader₂ hflags₂ fun l hl => ?_
          · rw [hindex₂, hcopies₂]
            exact h.index
          · rw [hqueued₂, hcopies₂, List.length_set]
            exact h.queuedLength
          · have hread := hmem l (hreaders₂ ▸ hl)
            rw [hreads, hlocation] at hread
            exact (Option.some.inj hread).symm
      have hremaining₂ : s₂.remaining = s.remaining := by rw [← hsecond]; exact hremaining
      have hlive' : s₁.temporaryLive = s.temporaryLive := by
        rw [hlive₁, ← hsecond]
        exact hlive
      refine ⟨s₁, saved,
        { m with value := Function.update m.value copy.destination (m.read source) },
        hok, hdone.remaining.trans hremaining₂, hrest₂ ▸ hdone.length,
        h.retire hpending hready hcopies₂ hindex₂ hremaining₂ ?_ ?_ hreaders₂ hrest₂ hdone
          (fun _ _ => Iff.rfl) (hlive'.trans h.live),
        hm.retire h.distinct hpending (hdone.copies.trans hcopies₂) ?_
          (rfl : m.execute (.move copy.destination source) = some _) ?_ rfl hmove⟩
      · rw [← hsecond]
        exact hsearch
      · rw [hqueued₂, List.length_set]
      · rw [hops₁, ← hsecond, ← hops]
      · exact hm.live.trans hlive'.symm
    · have htrue : s.temporaryLive = true := by rw [h.live, hsaved]; rfl
      have hreads : copy.reads = none := by rw [PendingCopy.reads, htemporary]
      subst hsaved
      have hrestore := hm.assigning.restore hsource fun k hk hne =>
        h.unread hnone k hk fun heq => hne (Option.some.inj heq).symm
      unfold perform
      rw [htemporary]
      dsimp only
      rw [if_pos (hlive.trans htrue)]
      have hexecute : m.execute (.restoreTemporary copy.destination) = some { m with
          value := Function.update m.value copy.destination m.temporary
          temporaryLive := false } := if_pos (hm.live.trans htrue)
      refine ⟨_, none, _, rfl, hremaining, by rw [← hrest]; exact Nat.le_succ _,
        h.retire hpending hready hcopies hindex hremaining hsearch hlength hreaders hrest
          (.of_unread rfl rfl rfl rfl rfl rfl rfl (hreaders ▸ h.reader) ?_ fun l hl => ?_)
          (fun l hne => ⟨nofun, fun heq => absurd (Option.some.inj heq).symm hne⟩) rfl,
        hm.retire h.distinct hpending ?_ ?_ hexecute rfl rfl hrestore⟩
      · rw [hqueued, hrest]
        exact hflags
      · have hread := hmem l (hreaders ▸ hl)
        rw [hreads] at hread
        cases hread
      · exact hcopies
      · rw [← hops]
  refine ⟨s₁.retire index copy, saved', m', by rw [hperform]; rfl, hbooks, hcarried, ?_⟩
  have hlt : (s₁.retire index copy).remaining = s.remaining - 1 := by
    rw [← hleft]
    rfl
  have hle : (s₁.retire index copy).ready.length ≤ ready.length + 1 := hadded
  rw [hlt, hready, List.length_cons]
  omega

/-- The inner loop ends with an empty queue. -/
theorem drain_spec {fuel : Nat} (h : s.Books (sourceOf rows) saved)
    (hm : Carried rows m₀ saved s m) (hfuel : s.remaining + s.ready.length ≤ fuel) :
    ∃ s' saved' m', s.drain fuel = .ok s' ∧ s'.Books (sourceOf rows) saved' ∧
      Carried rows m₀ saved' s' m' ∧ s'.ready = [] ∧ s'.remaining ≤ s.remaining ∧
      ∀ i ∈ s.ready.head?, (∃ copy, PendingAt s.copies i copy) → s'.remaining < s.remaining := by
  induction fuel generalizing s saved m with
  | zero =>
    have hnil : s.ready = [] := List.eq_nil_of_length_eq_zero (by omega)
    exact ⟨s, saved, m, rfl, h, hm, hnil, le_refl _, by simp [hnil]⟩
  | succ fuel ih =>
    cases hready : s.ready with
    | nil =>
      refine ⟨s, saved, m, ?_, h, hm, hready, le_refl _, by simp⟩
      rw [drain, hready]
    | cons index ready =>
      obtain ⟨s₁, saved₁, m₁, hturn, h₁, hm₁, hless, hle, hlt⟩ := turn_spec h hm hready
      obtain ⟨s', saved', m', hdrain, h', hm', hnil, hle', -⟩ := ih h₁ hm₁ (by omega)
      refine ⟨s', saved', m', ?_, h', hm', hnil, hle'.trans hle, fun i hi hpending => ?_⟩
      · rw [drain, hready]
        dsimp only
        rw [hturn]
        exact hdrain
      · obtain rfl := Option.some.inj hi
        exact lt_of_le_of_lt hle' (hlt hpending)

/-! ## Cycles -/

/-- Where no row is ready, each pending row's destination is read by just one pending row, and none
reads the temporary. -/
theorem Books.stalled (h : s.Books (sourceOf rows) saved) (hready : s.ready = [])
    (hkept : ∀ l, saved = some l → Waiting s.copies l) :
    saved = none ∧ ∀ i copy, PendingAt s.copies i copy → ∃ j reader,
      (s.readers.lookup copy.destination).getD ∅ = {j} ∧ PendingAt s.copies j reader ∧
      reader.reads = some copy.destination := by
  have hmem : ∀ c, c ∈ (s.copies.filter (·.pending)).toFinset ↔ ∃ i, PendingAt s.copies i c := by
    intro c
    rw [List.mem_toFinset, List.mem_filter, List.mem_iff_getElem?]
    exact ⟨fun ⟨⟨i, hi⟩, hc⟩ => ⟨i, hi, hc⟩, fun ⟨i, hi, hc⟩ => ⟨⟨i, hi⟩, hc⟩⟩
  have hreader : ∀ i copy, PendingAt s.copies i copy →
      ∃ j, j ∈ (s.readers.lookup copy.destination).getD ∅ := by
    intro i copy hi
    rcases h.blocked i copy hi with hmem | hsome
    · simp [hready] at hmem
    · obtain ⟨set, hset⟩ := Option.ne_none_iff_exists'.mp hsome
      rw [hset]
      refine Finset.nonempty_iff_ne_empty.mpr fun hempty => h.reader _ (hset.trans ?_)
      exact congrArg some hempty
  have hdistinct : Set.InjOn PendingCopy.destination
      ((s.copies.filter (·.pending)).toFinset : Set (PendingCopy R)) := by
    intro c hc c' hc' heq
    obtain ⟨i, hi⟩ := (hmem c).mp hc
    obtain ⟨j, hj⟩ := (hmem c').mp hc'
    obtain rfl := hi.unique h.distinct hj heq
    exact Option.some.inj (hi.1.symm.trans hj.1)
  obtain ⟨hreads, honce⟩ := each_read_once hdistinct fun c hc => by
    obtain ⟨i, hi⟩ := (hmem c).mp hc
    obtain ⟨j, hj⟩ := hreader i c hi
    obtain ⟨c', hc', hread⟩ := (h.readers _ j).mp hj
    exact ⟨c', (hmem c').mpr ⟨j, hc'⟩, hread⟩
  constructor
  · -- the row that reads the temporary reads no row's destination
    cases hsaved : saved with
    | none => rfl
    | some l =>
      obtain ⟨i, c, hi, rfl⟩ := hkept l hsaved
      obtain ⟨c', -, hread⟩ := hreads c ((hmem c).mpr ⟨i, hi⟩)
      obtain ⟨source, -, -, ⟨hother, -⟩ | ⟨-, htemporary⟩⟩ := h.source i c hi
      · exact absurd hsaved hother
      · rw [PendingCopy.reads, htemporary] at hread
        cases hread
  · intro i copy hi
    obtain ⟨j, hj⟩ := hreader i copy hi
    obtain ⟨reader, hreader, hread⟩ := (h.readers _ j).mp hj
    refine ⟨j, reader, Finset.eq_singleton_iff_unique_mem.mpr ⟨hj, fun k hk => ?_⟩, hreader, hread⟩
    obtain ⟨other, hother, hread'⟩ := (h.readers _ k).mp hk
    obtain rfl := honce ((hmem other).mpr ⟨k, hother⟩) ((hmem reader).mpr ⟨j, hreader⟩)
      (hread'.trans hread.symm)
    exact hother.unique h.distinct hreader rfl

/-- The first pending row after those that are done. -/
theorem nextPending_spec (hremaining : s.copies.countP (·.pending) ≠ 0)
    (hdone : ∀ i copy, i < s.cycleSearchStart → ¬ PendingAt s.copies i copy) :
    ∃ cycle copy, s.nextPending = some cycle ∧ PendingAt s.copies cycle copy ∧
      ∀ i copy, i < cycle → ¬ PendingAt s.copies i copy := by
  unfold nextPending
  cases hfind : (s.copies.drop s.cycleSearchStart).findIdx? (·.pending) with
  | none =>
    obtain ⟨copy, hmem, hpending⟩ := List.countP_pos_iff.mp (Nat.pos_of_ne_zero hremaining)
    obtain ⟨i, hi⟩ := List.mem_iff_getElem?.mp hmem
    have hle : s.cycleSearchStart ≤ i := not_lt.mp fun hlt => hdone i copy hlt ⟨hi, hpending⟩
    have hmem' : copy ∈ s.copies.drop s.cycleSearchStart := by
      refine List.mem_iff_getElem?.mpr ⟨i - s.cycleSearchStart, ?_⟩
      rw [List.getElem?_drop, Nat.add_sub_cancel' hle]
      exact hi
    have hno := List.findIdx?_eq_none_iff.mp hfind copy hmem'
    simp [hpending] at hno
  | some k =>
    obtain ⟨hlt, hpending, hbefore⟩ := List.findIdx?_eq_some_iff_getElem.mp hfind
    have hget := List.getElem?_eq_getElem hlt
    rw [List.getElem?_drop] at hget
    refine ⟨_, _, rfl, ⟨hget, hpending⟩, fun i copy hi hpendingAt => ?_⟩
    have hle : s.cycleSearchStart ≤ i := not_lt.mp fun hlt => hdone i copy hlt hpendingAt
    have hlt' : i < s.cycleSearchStart + k := hi
    have hno := hbefore (i - s.cycleSearchStart) (by omega)
    have hget' : (s.copies.drop s.cycleSearchStart)[i - s.cycleSearchStart]? = some copy := by
      rw [List.getElem?_drop, Nat.add_sub_cancel' hle]
      exact hpendingAt.1
    obtain ⟨_, heq⟩ := List.getElem?_eq_some_iff.mp hget'
    rw [heq, hpendingAt.2] at hno
    exact hno rfl

/-- A stalled location is saved for the one row that reads it, and its own row becomes ready. -/
theorem borrow_spec (h : s.Books (sourceOf rows) none) (hm : Carried rows m₀ none s m)
    (hready : s.ready = []) {cycle j : Nat} {reader : PendingCopy R}
    (hcycle : PendingAt s.copies cycle copy)
    (hfirst : ∀ i copy, i < cycle → ¬ PendingAt s.copies i copy)
    (hset : (s.readers.lookup copy.destination).getD ∅ = {j})
    (hreader : PendingAt s.copies j reader) (hread : reader.reads = some copy.destination) :
    ∃ s' m', { s with cycleSearchStart := cycle + 1 }.borrow cycle copy.destination = .ok s' ∧
      s'.Books (sourceOf rows) (some reader.destination) ∧
      Carried rows m₀ (some reader.destination) s' m' ∧ s'.remaining = s.remaining ∧
      s'.ready.head? = some cycle ∧ ∃ copy, PendingAt s'.copies cycle copy := by
  obtain ⟨hcyclelt, -⟩ := List.getElem?_eq_some_iff.mp hcycle.1
  obtain ⟨hjlt, -⟩ := List.getElem?_eq_some_iff.mp hreader.1
  have hunqueued : s.queued[cycle]? = some false := by
    have hlt : cycle < s.queued.length := h.queuedLength.symm ▸ hcyclelt
    cases hflag : s.queued[cycle] with
    | false => rw [List.getElem?_eq_getElem hlt, hflag]
    | true =>
      have hmem := h.queued cycle (by rw [List.getElem?_eq_getElem hlt, hflag])
      simp [hready] at hmem
  have hwaiting : Waiting s.copies copy.destination := ⟨cycle, copy, hcycle, rfl⟩
  -- the row that reads the location in the simultaneous assignment
  obtain ⟨source, hsource, hself, ⟨-, hvalue⟩ | ⟨hother, -⟩⟩ := h.source j reader hreader
  swap
  · cases hother
  have hoperand : source.operand = .inl copy.destination := by
    rw [PendingCopy.reads, hvalue] at hread
    exact sourceAsDestination_eq_some.mp hread
  rw [hoperand] at hsource
  have hlive : s.temporaryLive = false := by rw [h.live]; rfl
  have hmap : (s.copies.modify j ({ · with source := .temporary })).map (·.destination) =
      s.copies.map (·.destination) := map_modify fun _ => rfl
  have hcount : (s.copies.modify j ({ · with source := .temporary })).countP (·.pending) =
      s.copies.countP (·.pending) := by
    have hpending : (s.copies.modify j ({ · with source := .temporary })).map (·.pending) =
        s.copies.map (·.pending) := map_modify fun _ => rfl
    simpa [List.countP_map, Function.comp_def] using congrArg (List.countP id) hpending
  have hgone : (s.readers.erase copy.destination).lookup copy.destination = none :=
    AList.lookup_erase _ _
  have hreaders : ∀ l, l ≠ copy.destination →
      (s.readers.erase copy.destination).lookup l = s.readers.lookup l := fun l hl =>
    AList.lookup_erase_ne hl
  have hok : { s with cycleSearchStart := cycle + 1 }.borrow cycle copy.destination = .ok { s with
      cycleSearchStart := cycle + 1
      readers := s.readers.erase copy.destination
      copies := s.copies.modify j ({ · with source := .temporary })
      operations := s.operations ++ [.saveTemporary copy.destination]
      temporaryLive := true
      ready := [cycle]
      queued := s.queued.set cycle true
      work := { s.work with
        cycleBreaks := s.work.cycleBreaks + 1
        temporaryCycleBreaks := s.work.temporaryCycleBreaks + 1
        dependencyReleases := s.work.dependencyReleases + 1 } } := by
    have hlt : cycle < s.queued.length := h.queuedLength.symm ▸ hcyclelt
    unfold borrow
    dsimp only
    rw [hset, if_pos (Finset.card_singleton j), Finset.min_singleton]
    dsimp only
    rw [if_pos ⟨hjlt, hlt⟩, if_pos hunqueued, hready]
    rfl
  refine ⟨_, { m with temporary := m.value copy.destination, temporaryLive := true }, hok,
    ⟨?_, fun l i => ?_, ?_, fun i c hi => ?_, fun l i => ?_, fun l => ?_, fun i hi => ?_,
      fun i c hi => ?_, fun i hi => ?_, fun i c hlt hi => ?_, ?_, rfl⟩,
    ⟨?_, rfl, ?_, ?_, ?_⟩, rfl, rfl, ?_⟩
  · exact hmap ▸ h.distinct
  · exact hmap ▸ h.index l i
  · exact (List.length_set ..).trans (h.queuedLength.trans (List.length_modify ..).symm)
  · obtain ⟨c₀, hc₀, rfl⟩ := pendingAt_modify.mp hi
    obtain ⟨src, hsrc, hne, ⟨-, hval⟩ | ⟨hother, -⟩⟩ := h.source i c₀ hc₀
    · split_ifs with hji
      · subst hji
        obtain rfl := Option.some.inj (hc₀.1.symm.trans hreader.1)
        exact ⟨src, hsrc, hne, .inr ⟨rfl, rfl⟩⟩
      · refine ⟨src, hsrc, hne, .inl ⟨fun heq => hji ?_, hval⟩⟩
        exact hreader.unique h.distinct hc₀ (Option.some.inj heq)
    · cases hother
  · by_cases hl : l = copy.destination
    · subst hl
      change i ∈ ((s.readers.erase copy.destination).lookup copy.destination).getD ∅ ↔ _
      rw [hgone]
      refine iff_of_false (Finset.notMem_empty i) ?_
      rintro ⟨c, hi, hreads⟩
      obtain ⟨c₀, hc₀, rfl⟩ := pendingAt_modify.mp hi
      split_ifs at hreads with hji
      · cases hreads
      · have hmem := (h.readers _ i).mpr ⟨c₀, hc₀, hreads⟩
        rw [hset, Finset.mem_singleton] at hmem
        exact hji hmem.symm
    · change i ∈ ((s.readers.erase copy.destination).lookup l).getD ∅ ↔ _
      rw [hreaders l hl, h.readers]
      constructor
      · rintro ⟨c, hi, hreads⟩
        have hji : j ≠ i := by
          rintro rfl
          obtain rfl := Option.some.inj (hi.1.symm.trans hreader.1)
          exact hl (Option.some.inj (hreads.symm.trans hread))
        exact ⟨c, pendingAt_modify.mpr ⟨c, hi, (if_neg hji).symm⟩, hreads⟩
      · rintro ⟨c, hi, hreads⟩
        obtain ⟨c₀, hc₀, rfl⟩ := pendingAt_modify.mp hi
        split_ifs at hreads with hji
        · cases hreads
        · exact ⟨c₀, hc₀, hreads⟩
  · by_cases hl : l = copy.destination
    · rw [hl]
      exact fun heq => Option.some_ne_none _ (heq.symm.trans hgone)
    · exact hreaders l hl ▸ h.reader l
  · obtain rfl := List.mem_singleton.mp hi
    refine ⟨hcyclelt.trans_eq (List.length_modify ..).symm, fun c hc => ?_⟩
    obtain ⟨c₀, hc₀, hdest⟩ := pendingAt_of_modify hc
    obtain rfl := Option.some.inj (hc₀.1.symm.trans hcycle.1)
    rw [hdest]
    exact hgone
  · obtain ⟨c₀, hc₀, hdest⟩ := pendingAt_of_modify hi
    rw [hdest]
    by_cases heq : c₀.destination = copy.destination
    · exact .inl (List.mem_singleton.mpr (hc₀.unique h.distinct hcycle heq))
    · refine .inr ?_
      have hsome := (h.blocked i c₀ hc₀).resolve_left (by simp [hready])
      exact (hreaders _ heq).trans_ne hsome
  · change (s.queued.set cycle true)[i]? = some true at hi
    rw [List.getElem?_set] at hi
    split_ifs at hi with heq
    · exact List.mem_singleton.mpr heq.symm
    · have hmem := h.queued i hi
      simp [hready] at hmem
  · obtain ⟨c₀, hc₀, rfl⟩ := pendingAt_modify.mp hi
    have hle : i ≤ cycle := Nat.lt_succ_iff.mp hlt
    rcases hle.lt_or_eq with hlt | rfl
    · exact absurd hc₀ (hfirst i c₀ hlt)
    · exact List.mem_singleton_self i
  · exact h.remaining.trans hcount.symm
  · change m₀.run (s.operations ++ [_]) = _
    rw [CopyMachine.run_concat hm.ran]
    exact if_neg (by rw [hm.live, hlive]; nofun)
  · change Assigning _ _ (Waiting (s.copies.modify j _)) _ m.value (m.value copy.destination)
    rw [waiting_modify]
    exact hm.assigning.save ⟨j, reader, hreader, rfl⟩ hsource
  · intro hunsaved
    exact absurd (List.mem_append_right _ (List.mem_singleton_self _)) (hunsaved copy.destination)
  · obtain ⟨src, hsrc, -⟩ := h.source cycle copy hcycle
    obtain ⟨row, hrow, -⟩ := Option.map_eq_some_iff.mp hsrc
    have hdest : row.destination = copy.destination := by simpa using List.find?_some hrow
    refine .inr ⟨row, List.mem_of_find?_eq_some hrow, ?_⟩
    rw [hdest]
    exact hm.assigning.fresh _ ⟨j, reader, hreader, rfl⟩ nofun _ hsource
  · exact ⟨_, pendingAt_modify.mpr ⟨copy, hcycle, rfl⟩⟩

/-- Two registers that are copied to each other, and that nothing else reads, are exchanged. -/
theorem exchange_spec (h : s.Books (sourceOf rows) none) (hm : Carried rows m₀ none s m)
    (hready : s.ready = []) {cycle j : Nat} {other : PendingCopy R} {left right : R}
    (hcycle : PendingAt s.copies cycle copy)
    (hfirst : ∀ i copy, i < cycle → ¬ PendingAt s.copies i copy)
    (hother : PendingAt s.copies j other) (hne : left ≠ right)
    (hleft : copy.destination = .register left) (hright : other.destination = .register right)
    (hsource : copy.source = .value (.register right))
    (hback : other.source = .value (.register left))
    (honce : ∀ i k, i ∈ (s.readers.lookup (.register left)).getD ∅ →
      k ∈ (s.readers.lookup (.register left)).getD ∅ → i = k)
    (honce' : ∀ i k, i ∈ (s.readers.lookup (.register right)).getD ∅ →
      k ∈ (s.readers.lookup (.register right)).getD ∅ → i = k) :
    ∃ s' m', { s with cycleSearchStart := cycle + 1 }.exchange [cycle, j] [(left, right)] = s' ∧
      s'.Books (sourceOf rows) none ∧ Carried rows m₀ none s' m' ∧
      s'.remaining + 2 = s.remaining := by
  have hij : j ≠ cycle := by
    rintro rfl
    have heq := Option.some.inj (hcycle.1.symm.trans hother.1)
    rw [heq, hright] at hleft
    exact hne (CopyDestination.register.inj hleft).symm
  have hsecond : PendingAt (s.copies.set cycle { copy with pending := false }) j other :=
    (pendingAt_set hcycle.1).mpr ⟨hij, hother⟩
  -- the rows afterwards
  obtain ⟨copies', hcopies'⟩ : ∃ copies', copies' = (s.copies.set cycle
    { copy with pending := false }).set j { other with pending := false } := ⟨_, rfl⟩
  have hpend : ∀ i c, PendingAt copies' i c ↔ i ≠ j ∧ i ≠ cycle ∧ PendingAt s.copies i c := by
    intro i c
    rw [hcopies', pendingAt_set hsecond.1, pendingAt_set hcycle.1]
  have hmap : copies'.map (·.destination) = s.copies.map (·.destination) := by
    rw [hcopies', map_destination_set hsecond.1, map_destination_set hcycle.1]
  have hwait : Waiting copies' =
      fun l => l ≠ .register left ∧ l ≠ .register right ∧ Waiting s.copies l := by
    have hdistinct : ((s.copies.set cycle { copy with pending := false }).map
        (·.destination)).Nodup := (map_destination_set hcycle.1).symm ▸ h.distinct
    rw [hcopies', waiting_set hdistinct hsecond, waiting_set h.distinct hcycle, hleft, hright]
    funext l
    exact propext and_left_comm
  have hcount : copies'.countP (·.pending) + 2 = s.copies.countP (·.pending) := by
    have hone := countP_set hcycle
    have htwo := countP_set hsecond
    rw [← hcopies'] at htwo
    omega
  have hreads : copy.reads = some (.register right) := by rw [PendingCopy.reads, hsource]; rfl
  have hreads' : other.reads = some (.register left) := by rw [PendingCopy.reads, hback]; rfl
  have hin : cycle ∈ (s.readers.lookup (.register right)).getD ∅ :=
    (h.readers _ _).mpr ⟨copy, hcycle, hreads⟩
  have hin' : j ∈ (s.readers.lookup (.register left)).getD ∅ :=
    (h.readers _ _).mpr ⟨other, hother, hreads'⟩
  have hlookup : ∀ l, ((s.readers.erase (.register left)).erase (.register right)).lookup l =
      if l = .register left ∨ l = .register right then none else s.readers.lookup l := by
    intro l
    by_cases hr : l = .register right
    · rw [hr, AList.lookup_erase, if_pos (.inr rfl)]
    · rw [AList.lookup_erase_ne hr]
      by_cases hl : l = .register left
      · rw [hl, AList.lookup_erase, if_pos (.inl rfl)]
      · rw [AList.lookup_erase_ne hl, if_neg (not_or.mpr ⟨hl, hr⟩)]
  have hdest : ∀ i c, PendingAt copies' i c →
      ¬ (c.destination = .register left ∨ c.destination = .register right) := by
    rintro i c hi (heq | heq)
    · obtain ⟨-, hne, hi⟩ := (hpend i c).mp hi
      exact hne (hi.unique h.distinct hcycle (heq.trans hleft.symm))
    · obtain ⟨hne, -, hi⟩ := (hpend i c).mp hi
      exact hne (hi.unique h.distinct hother (heq.trans hright.symm))
  have hblocked : ∀ i c, PendingAt s.copies i c → s.readers.lookup c.destination ≠ none :=
    fun i c hi => (h.blocked i c hi).resolve_left (by simp [hready])
  have hfalse : ∀ i : Nat, ((s.queued.set cycle false).set j false)[i]? = some true → False := by
    intro i hi
    rw [List.getElem?_set, List.getElem?_set] at hi
    split_ifs at hi
    · cases hi
    · cases hi
    · simpa [hready] using h.queued i hi
  have hexchange : { s with cycleSearchStart := cycle + 1 }.exchange [cycle, j] [(left, right)] =
      { s with
        cycleSearchStart := cycle + 1
        operations := s.operations ++ [.swapRegisters left right]
        readers := (s.readers.erase (.register left)).erase (.register right)
        copies := copies'
        queued := (s.queued.set cycle false).set j false
        remaining := s.remaining - 2
        work := { s.work with
          registerSwaps := s.work.registerSwaps + 1
          cycleBreaks := s.work.cycleBreaks + 1
          dependencyReleases := s.work.dependencyReleases + 2 } } := by
    unfold exchange
    simp only [List.foldl_cons, List.foldl_nil, hcycle.1, hother.1, hleft, hright]
    rw [modify_eq_set hcycle.1, modify_eq_set hsecond.1, hcopies']
    rfl
  have hleft' : Waiting s.copies (.register left) := ⟨cycle, copy, hcycle, hleft⟩
  have hright' : Waiting s.copies (.register right) := ⟨j, other, hother, hright⟩
  -- what the two rows read in the simultaneous assignment
  have hlr : sourceOf rows (.register left) = some (.inl (.register right)) := by
    obtain ⟨src, hsrc, -, ⟨-, hval⟩ | ⟨hsaved, -⟩⟩ := h.source cycle copy hcycle
    · rw [hsource] at hval
      obtain rfl := PendingSource.value.inj hval
      exact hleft ▸ hsrc
    · cases hsaved
  have hrl : sourceOf rows (.register right) = some (.inl (.register left)) := by
    obtain ⟨src, hsrc, -, ⟨-, hval⟩ | ⟨hsaved, -⟩⟩ := h.source j other hother
    · rw [hback] at hval
      obtain rfl := PendingSource.value.inj hval
      exact hright ▸ hsrc
    · cases hsaved
  -- no other waiting row reads the two registers
  have hunread : ∀ l i, i ∈ (s.readers.lookup l).getD ∅ →
      (∀ k k', k ∈ (s.readers.lookup l).getD ∅ → k' ∈ (s.readers.lookup l).getD ∅ → k = k') →
      ∀ k c, PendingAt s.copies k c → k ≠ i → sourceOf rows c.destination ≠ some (.inl l) := by
    intro l i hi huniq k c hc hki hread
    refine hki (huniq k i ((h.readers l k).mpr ⟨c, hc, ?_⟩) hi)
    obtain ⟨src, hsrc, -, ⟨-, hval⟩ | ⟨hsaved, -⟩⟩ := h.source k c hc
    · rw [PendingCopy.reads, hval]
      exact sourceAsDestination_eq_some.mpr (Option.some.inj (hsrc.symm.trans hread))
    · cases hsaved
  have hexecute : m.execute (.swapRegisters left right) = some { m with
      value := Function.update
        (Function.update m.value (.register left) (m.value (.register right)))
        (.register right) (m.value (.register left)) } :=
    if_neg (by rw [hm.live, h.live]; nofun)
  refine ⟨_, _, hexchange, ⟨hmap ▸ h.distinct, fun l i => hmap ▸ h.index l i, ?_, fun i c hi => ?_,
    fun l i => ?_, fun l => ?_, fun i hi => ?_, fun i c hi => ?_, fun i hi => ?_,
    fun i c hlt hi => ?_, ?_, h.live⟩,
    ⟨(CopyMachine.run_concat hm.ran).trans hexecute, hm.live, ?_, fun hunsaved => ?_, hm.origin⟩, ?_⟩
  · change ((s.queued.set cycle false).set j false).length = copies'.length
    rw [List.length_set, List.length_set, h.queuedLength]
    exact (by simpa using congrArg List.length hmap.symm)
  · exact h.source i c ((hpend i c).mp hi).2.2
  · change i ∈ (((s.readers.erase (.register left)).erase (.register right)).lookup l).getD ∅ ↔ _
    rw [hlookup]
    split_ifs with hl
    · refine iff_of_false (Finset.notMem_empty i) ?_
      rintro ⟨c, hi, hread⟩
      obtain ⟨hnj, hnc, hi⟩ := (hpend i c).mp hi
      have hmem := (h.readers l i).mpr ⟨c, hi, hread⟩
      rcases hl with rfl | rfl
      · exact hnj (honce i j hmem hin')
      · exact hnc (honce' i cycle hmem hin)
    · rw [h.readers]
      refine exists_congr fun c => ⟨fun ⟨hi, hread⟩ => ⟨(hpend i c).mpr ⟨?_, ?_, hi⟩, hread⟩,
        fun ⟨hi, hread⟩ => ⟨((hpend i c).mp hi).2.2, hread⟩⟩
      · rintro rfl
        rw [Option.some.inj (hi.1.symm.trans hother.1), hreads'] at hread
        exact hl (.inl (Option.some.inj hread).symm)
      · rintro rfl
        rw [Option.some.inj (hi.1.symm.trans hcycle.1), hreads] at hread
        exact hl (.inr (Option.some.inj hread).symm)
  · change ((s.readers.erase (.register left)).erase (.register right)).lookup l ≠ some ∅
    rw [hlookup]
    split_ifs
    · nofun
    · exact h.reader l
  · exact absurd (hready ▸ hi) List.not_mem_nil
  · refine .inr ?_
    change ((s.readers.erase (.register left)).erase (.register right)).lookup _ ≠ none
    rw [hlookup, if_neg (hdest i c hi)]
    exact hblocked i c ((hpend i c).mp hi).2.2
  · exact (hfalse i hi).elim
  · obtain ⟨-, hnc, hi⟩ := (hpend i c).mp hi
    exact absurd hi (hfirst i c (lt_of_le_of_ne (Nat.lt_succ_iff.mp hlt) hnc))
  · change s.remaining - 2 = copies'.countP _
    rw [h.remaining, ← hcount, Nat.add_sub_cancel]
  · change Assigning _ _ (Waiting copies') _ _ _
    rw [hwait]
    refine hm.assigning.swap hleft' hright' hlr hrl ?_
    rintro l ⟨i, c, hi, rfl⟩ hnl hnr
    refine ⟨hunread _ j hin' honce i c hi ?_, hunread _ cycle hin honce' i c hi ?_⟩
    · rintro rfl
      exact hnr (Option.some.inj (hi.1.symm.trans hother.1) ▸ hright)
    · rintro rfl
      exact hnl (Option.some.inj (hi.1.symm.trans hcycle.1) ▸ hleft)
  · exact hm.unsaved fun l hl => hunsaved l (List.mem_append_left _ hl)
  · change s.remaining - 2 + 2 = s.remaining
    rw [h.remaining, ← hcount, Nat.add_sub_cancel]

/-- Where no row is ready, a cycle is broken: two registers are exchanged, or a location is saved
and its row becomes ready. -/
theorem breakCycle_spec (h : s.Books (sourceOf rows) saved) (hm : Carried rows m₀ saved s m)
    (hready : s.ready = []) (hremaining : s.remaining ≠ 0) :
    ∃ s' saved' m', s.breakCycle = .ok s' ∧ s'.Books (sourceOf rows) saved' ∧
      Carried rows m₀ saved' s' m' ∧ (s'.remaining + 2 = s.remaining ∨
        s'.remaining = s.remaining ∧
          ∃ i ∈ s'.ready.head?, ∃ copy, PendingAt s'.copies i copy) := by
  obtain ⟨rfl, honce⟩ := h.stalled hready fun l hl => (hm.assigning.kept l hl).1
  obtain ⟨cycle, copy, hnext, hcycle, hfirst⟩ := nextPending_spec (h.remaining ▸ hremaining)
    fun i copy hlt hi => by simpa [hready] using h.search i copy hlt hi
  have hlive : s.temporaryLive = false := by rw [h.live]; rfl
  unfold breakCycle
  rw [if_neg (by rw [hlive]; nofun), hnext]
  dsimp only
  rw [hcycle.1]
  dsimp only
  obtain ⟨j, reader, hset, hreader, hread⟩ := honce cycle copy hcycle
  obtain ⟨s', m', hborrow, hbooks, hcarried, hsame, hhead, hpending⟩ :=
    borrow_spec h hm hready hcycle hfirst hset hreader hread
  have hsaved : ∃ s' saved' m', { s with cycleSearchStart := cycle + 1 }.borrow cycle
      copy.destination = .ok s' ∧ s'.Books (sourceOf rows) saved' ∧
      Carried rows m₀ saved' s' m' ∧ (s'.remaining + 2 = s.remaining ∨
        s'.remaining = s.remaining ∧ ∃ i ∈ s'.ready.head?, ∃ copy, PendingAt s'.copies i copy) :=
    ⟨s', _, m', hborrow, hbooks, hcarried, .inr ⟨hsame, cycle, hhead, hpending⟩⟩
  split
  · rename_i members swaps hfound
    split_ifs with htwo
    · obtain ⟨k, other, left, right, rfl, rfl, hne, hleft, hsource, hother, hright, hback⟩ :=
        registerCycle_two h.index h.distinct hcycle hfound htwo
      have hsingle : ∀ i c, PendingAt s.copies i c → ∀ a b,
          a ∈ (s.readers.lookup c.destination).getD ∅ →
          b ∈ (s.readers.lookup c.destination).getD ∅ → a = b := by
        intro i c hi a b ha hb
        obtain ⟨k, -, hset, -⟩ := honce i c hi
        rw [hset, Finset.mem_singleton] at ha hb
        rw [ha, hb]
      obtain ⟨s'', m'', hexchange, hbooks, hcarried, htwo⟩ := exchange_spec h hm hready hcycle
        hfirst hother hne hleft hright hsource hback (hleft ▸ hsingle cycle copy hcycle)
        (hright ▸ hsingle k other hother)
      exact ⟨s'', none, m'', congrArg _ hexchange, hbooks, hcarried, .inl htwo⟩
    · exact hsaved
  · exact hsaved

/-- The outer loop ends with no row left. -/
theorem loop_spec {fuel : Nat} (h : s.Books (sourceOf rows) saved)
    (hm : Carried rows m₀ saved s m) (hfuel : 2 * s.remaining < fuel ∨
      2 * s.remaining ≤ fuel ∧ ∃ i ∈ s.ready.head?, ∃ copy, PendingAt s.copies i copy) :
    ∃ s' saved' m', s.loop fuel = .ok s' ∧ s'.Books (sourceOf rows) saved' ∧
      Carried rows m₀ saved' s' m' ∧ s'.remaining = 0 := by
  induction fuel generalizing s saved m with
  | zero => exact ⟨s, saved, m, rfl, h, hm, by omega⟩
  | succ fuel ih =>
    unfold loop
    split_ifs with hzero
    · exact ⟨s, saved, m, rfl, h, hm, hzero⟩
    obtain ⟨s₁, saved₁, m₁, hdrain, h₁, hm₁, hnil, hle, hlt⟩ := drain_spec h hm (le_refl _)
    rw [hdrain]
    change ∃ s' saved' m', (if s₁.remaining = 0 then _ else _) = _ ∧ _
    split_ifs with hzero₁
    · exact ⟨s₁, saved₁, m₁, rfl, h₁, hm₁, hzero₁⟩
    obtain ⟨s₂, saved₂, m₂, hbreak, h₂, hm₂, hless⟩ := breakCycle_spec h₁ hm₁ hnil hzero₁
    rw [hbreak]
    refine ih h₂ hm₂ ?_
    have hdrained : 2 * s₁.remaining ≤ fuel := by
      rcases hfuel with hfuel | ⟨hfuel, i, hi, hpending⟩
      · omega
      · have := hlt i hi hpending
        omega
    rcases hless with htwo | ⟨hsame, hhead⟩
    · exact .inl (by omega)
    · exact .inr ⟨by omega, hhead⟩

end Resolver

/-! ## The rows -/

theorem isIdentity_iff (row : ParallelCopy R) :
    row.isIdentity = true ↔ row.source.operand = .inl row.destination := by
  obtain ⟨destination, source⟩ := row
  cases destination <;> cases source <;>
    simp [ParallelCopy.isIdentity, CopySource.operand, eq_comm]

theorem sourceOf_eq_some (hdistinct : (rows.map (·.destination)).Nodup) {row : ParallelCopy R}
    (hrow : row ∈ rows) : sourceOf rows row.destination = some row.source.operand := by
  have hfind : rows.find? (·.destination = row.destination) = some row := by
    induction rows with
    | nil => cases hrow
    | cons first rows ih =>
      obtain ⟨hfresh, hrest⟩ := List.nodup_cons.mp hdistinct
      rcases List.mem_cons.mp hrow with rfl | hmem
      · simp
      · have hne : first.destination ≠ row.destination := fun heq =>
          hfresh (List.mem_map.mpr ⟨row, hmem, heq.symm⟩)
        rw [List.find?_cons_of_neg (by simpa using hne)]
        exact ih hrest hmem
  rw [sourceOf, hfind]
  rfl

theorem sourceOf_eq_none {l : CopyDestination R} (h : ∀ row ∈ rows, row.destination ≠ l) :
    sourceOf rows l = none := by
  rw [sourceOf, List.find?_eq_none.mpr fun row hrow => by simpa using h row hrow]
  rfl

theorem repeatedDestination_eq_none (owner : List (CopyDestination R)) :
    repeatedDestination rows owner = none ↔
      (rows.map (·.destination)).Nodup ∧ ∀ row ∈ rows, row.destination ∉ owner := by
  induction rows generalizing owner with
  | nil => simp [repeatedDestination]
  | cons row rows ih =>
    unfold repeatedDestination
    split_ifs with hmem
    · simp [hmem]
    · rw [ih, List.map_cons, List.nodup_cons, List.forall_mem_cons]
      simp only [List.mem_cons, not_or, List.mem_map, not_exists, not_and]
      constructor
      · rintro ⟨hnodup, hfresh⟩
        exact ⟨⟨fun r hr => (hfresh r hr).1, hnodup⟩, hmem, fun r hr => (hfresh r hr).2⟩
      · rintro ⟨⟨hne, hnodup⟩, -, hfresh⟩
        exact ⟨hnodup, fun r hr => ⟨hne r hr, hfresh r hr⟩⟩

/-- The rows that are pending at the start. -/
theorem mem_pendingCopies {i : Nat} {copy : PendingCopy R}
    (h : (pendingCopies rows)[i]? = some copy) :
    copy.pending = true ∧ ∃ row ∈ rows, row.isIdentity = false ∧
      copy.destination = row.destination ∧ copy.source = .value row.source := by
  obtain ⟨row, hrow, rfl⟩ := List.mem_map.mp (List.mem_of_getElem? h)
  obtain ⟨hmem, hidentity⟩ := List.mem_filter.mp hrow
  exact ⟨rfl, row, hmem, by simpa using hidentity, rfl, rfl⟩

theorem pendingCopies_distinct (hdistinct : (rows.map (·.destination)).Nodup) :
    ((pendingCopies rows).map (·.destination)).Nodup := by
  unfold pendingCopies
  rw [List.map_map]
  exact hdistinct.sublist (List.filter_sublist.map _)

/-- The books are right at the start. -/
theorem initial_books (hdistinct : (rows.map (·.destination)).Nodup) :
    (Resolver.initial (pendingCopies rows)).Books (sourceOf rows) none := by
  have hnodup := pendingCopies_distinct hdistinct
  have hreaders := readersOf_lookup (pendingCopies rows)
  have hready : ∀ i, i ∈ (Resolver.initial (pendingCopies rows)).ready ↔ ∃ copy,
      (pendingCopies rows)[i]? = some copy ∧
      (readersOf (pendingCopies rows)).lookup copy.destination = none := by
    intro i
    simp [Resolver.initial, List.mem_zipIdx_iff_getElem?]
  have hwaiting : ∀ i copy, PendingAt (pendingCopies rows) i copy →
      i ∈ (Resolver.initial (pendingCopies rows)).ready ∨
        (readersOf (pendingCopies rows)).lookup copy.destination ≠ none := by
    intro i copy hi
    by_cases hnone : (readersOf (pendingCopies rows)).lookup copy.destination = none
    · exact .inl ((hready i).mpr ⟨copy, hi.1, hnone⟩)
    · exact .inr hnone
  refine ⟨hnodup, destinationIndexOf_lookup hnodup, List.length_map .., fun i copy hi => ?_,
    fun l i => ?_, fun l => (hreaders l).2, fun i hi => ?_, hwaiting, fun i hi => ?_,
    fun i copy hlt _ => absurd hlt (Nat.not_lt_zero i), ?_, rfl⟩
  · obtain ⟨-, row, hrow, hidentity, hdest, hsource⟩ := mem_pendingCopies hi.1
    refine ⟨row.source, hdest ▸ sourceOf_eq_some hdistinct hrow, fun hself => ?_,
      .inl ⟨nofun, hsource⟩⟩
    rw [(isIdentity_iff row).mpr (hself.trans (congrArg _ hdest))] at hidentity
    cases hidentity
  · refine ((hreaders l).1 i).trans (exists_congr fun copy => and_congr_left fun _ => ?_)
    exact ⟨fun hget => ⟨hget, (mem_pendingCopies hget).1⟩, And.left⟩
  · obtain ⟨copy, hget, hnone⟩ := (hready i).mp hi
    refine ⟨(List.getElem?_eq_some_iff.mp hget).1, fun c hc => ?_⟩
    obtain rfl := Option.some.inj (hc.1.symm.trans hget)
    exact hnone
  · have hflag : ((pendingCopies rows).map fun copy =>
        ((readersOf (pendingCopies rows)).lookup copy.destination).isNone)[i]? = some true := hi
    rw [List.getElem?_map] at hflag
    obtain ⟨copy, hget, hnone⟩ := Option.map_eq_some_iff.mp hflag
    exact (hready i).mpr ⟨copy, hget, Option.isNone_iff_eq_none.mp hnone⟩
  · refine (List.countP_eq_length.mpr fun copy hcopy => ?_).symm
    obtain ⟨i, hi⟩ := List.mem_iff_getElem?.mp hcopy
    exact (mem_pendingCopies hi).1

/-- Nothing is done at the start, and the identity rows need nothing. -/
theorem initial_carried (rows : List (ParallelCopy R)) (value : CopyDestination R → UInt64)
    (temporary : UInt64) :
    Carried rows ⟨value, temporary, false⟩ none (Resolver.initial (pendingCopies rows))
      ⟨value, temporary, false⟩ := by
  refine ⟨rfl, rfl, Assigning.initial fun l s hs hwaiting => ?_, fun _ => rfl, .inl rfl⟩
  obtain ⟨row, hfind, rfl⟩ := Option.map_eq_some_iff.mp hs
  have hdest : row.destination = l := by simpa using List.find?_some hfind
  have hrow := List.mem_of_find?_eq_some hfind
  rw [← hdest] at hwaiting ⊢
  refine (isIdentity_iff row).mp ?_
  by_contra hidentity
  have hmem : ⟨row.destination, .value row.source, true⟩ ∈ pendingCopies rows :=
    List.mem_map.mpr ⟨row, List.mem_filter.mpr ⟨hrow, by simpa using hidentity⟩, rfl⟩
  obtain ⟨i, hi⟩ := List.mem_iff_getElem?.mp hmem
  exact hwaiting ⟨i, _, ⟨hi, rfl⟩, rfl⟩

/-- Where no row is left, the machine has made the assignment. -/
theorem Carried.finish {value : CopyDestination R → UInt64} {temporary : UInt64}
    (hm : Carried rows ⟨value, temporary, false⟩ saved s m) (h : s.Books (sourceOf rows) saved)
    (hzero : s.remaining = 0) :
    m.value = simultaneous (sourceOf rows) value ∧ m.temporaryLive = false := by
  have hnone : ∀ l, ¬ Waiting s.copies l := by
    rintro l ⟨i, copy, hi, -⟩
    exact List.countP_eq_zero.mp (h.remaining ▸ hzero) copy (List.mem_of_getElem? hi.1) hi.2
  refine ⟨hm.assigning.finish hnone, hm.live.trans (h.live.trans ?_)⟩
  cases hsaved : saved with
  | none => rfl
  | some l => exact absurd (hm.assigning.kept l hsaved).1 (hnone l)

/-- The resolution does not depend on the machine, and any machine makes the assignment. -/
theorem resolveParallelCopies_run (hdistinct : (rows.map (·.destination)).Nodup) :
    ∃ resolution, resolveParallelCopies rows = .ok resolution ∧
      ∀ value temporary, ∃ temporary',
        CopyMachine.run ⟨value, temporary, false⟩ resolution.operations =
          some ⟨simultaneous (sourceOf rows) value, temporary', false⟩ ∧
        ((∀ l, .saveTemporary l ∉ resolution.operations) → temporary' = temporary) ∧
        (temporary' = temporary ∨ ∃ row ∈ rows, temporary' = value row.destination) := by
  unfold resolveParallelCopies
  rw [(repeatedDestination_eq_none []).mpr ⟨hdistinct, by simp⟩]
  dsimp only
  have hbooks := initial_books hdistinct
  split_ifs with hempty
  · refine ⟨_, rfl, fun value temporary => ⟨temporary, ?_, fun _ => rfl, .inl rfl⟩⟩
    have hcarried := initial_carried rows value temporary
    obtain ⟨hvalue, -⟩ := hcarried.finish hbooks (by simp [Resolver.initial, hempty])
    rw [← hvalue]
    rfl
  · have hloop := fun value temporary => Resolver.loop_spec hbooks
      (initial_carried rows value temporary) (.inl (Nat.lt_succ_self _))
    obtain ⟨s, saved, m, hok, hend, hm, hzero⟩ := hloop (fun _ => 0) 0
    have hlive : s.temporaryLive = false := hm.live.symm.trans (hm.finish hend hzero).2
    refine ⟨⟨s.operations, s.work⟩, ?_, fun value temporary => ?_⟩
    · change (Resolver.loop (2 * (Resolver.initial (pendingCopies rows)).remaining + 1) _).bind _ = _
      rw [hok]
      exact if_neg (by rw [hlive]; nofun)
    · obtain ⟨s', saved', m', hok', hend', hm', hzero'⟩ := hloop value temporary
      obtain rfl := Except.ok.inj (hok.symm.trans hok')
      obtain ⟨hvalue, hlive'⟩ := hm'.finish hend' hzero'
      refine ⟨m'.temporary, hm'.ran.trans (congrArg some ?_), hm'.unsaved, hm'.origin⟩
      rw [← hvalue, ← hlive']

/-- Copies with distinct destinations are resolved, and the operations give every destination what
its source held at first and leave the other locations alone; rows that repeat a destination are
refused. The temporary keeps what is saved in it last. -/
theorem resolveParallelCopies_exact (rows : List (ParallelCopy R)) :
    ¬ (rows.map (·.destination)).Nodup ∧
        (∃ e, resolveParallelCopies rows = .error (.error e)) ∨
      (rows.map (·.destination)).Nodup ∧
        ∃ resolution, resolveParallelCopies rows = .ok resolution ∧
          ∀ value temporary, ∃ value' temporary',
            CopyMachine.run ⟨value, temporary, false⟩ resolution.operations =
              some ⟨value', temporary', false⟩ ∧
            (∀ row ∈ rows, value' row.destination =
              CopyMachine.read ⟨value, temporary, false⟩ row.source) ∧
            (∀ l, (∀ row ∈ rows, row.destination ≠ l) → value' l = value l) ∧
            ((∀ l, .saveTemporary l ∉ resolution.operations) → temporary' = temporary) ∧
            (temporary' = temporary ∨ ∃ row ∈ rows, temporary' = value row.destination) := by
  cases hrepeated : repeatedDestination rows [] with
  | some destination =>
    refine .inl ⟨fun hdistinct => ?_, _, by rw [resolveParallelCopies, hrepeated]⟩
    rw [(repeatedDestination_eq_none []).mpr ⟨hdistinct, by simp⟩] at hrepeated
    cases hrepeated
  | none =>
    obtain ⟨hdistinct, -⟩ := (repeatedDestination_eq_none []).mp hrepeated
    obtain ⟨resolution, hok, hrun⟩ := resolveParallelCopies_run hdistinct
    refine .inr ⟨hdistinct, resolution, hok, fun value temporary => ?_⟩
    obtain ⟨temporary', hran, hkept⟩ := hrun value temporary
    refine ⟨_, temporary', hran, fun row hrow => ?_, fun l hl => ?_, hkept⟩
    · exact simultaneous_of_source (sourceOf_eq_some hdistinct hrow)
    · rw [simultaneous, sourceOf_eq_none hl]
      rfl

/-- Three registers in a ring go through the temporary, which is not given back what it held. -/
theorem temporary_overwritten :
    ¬ ∀ (rows : List (ParallelCopy (Fin 3))) (resolution : CopyResolution (Fin 3)),
      resolveParallelCopies rows = .ok resolution → ∀ m m' : CopyMachine (Fin 3),
        m.run resolution.operations = some m' → m'.temporary = m.temporary := by
  intro h
  have hring : resolveParallelCopies (R := Fin 3) [⟨.register 0, .register 1⟩,
      ⟨.register 1, .register 2⟩, ⟨.register 2, .register 0⟩] = .ok ⟨[
        .saveTemporary (.register 0), .move (.register 0) (.register 1),
        .move (.register 1) (.register 2), .restoreTemporary (.register 2)],
        ⟨3, 2, 0, 1, 1, 3, 3⟩⟩ := by decide
  have heq := h _ _ hring ⟨fun _ => 1, 9, false⟩ _ rfl
  exact absurd heq (by decide)

end Celox.Regalloc
