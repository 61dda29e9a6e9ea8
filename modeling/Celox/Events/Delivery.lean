import Celox.Events.Ring

/-! # What the drains deliver

The events come in the order they were written, none twice, and every gap is counted. -/
namespace Celox.Events
open Celox.Concurrent Relation

/-! ## The layout -/

theorem le_argLayouts (b : Nat) (widths : List Nat) : b ≤ (argLayouts b widths).2 := by
  induction widths generalizing b with
  | nil => exact Nat.le_refl b
  | cons width widths ih =>
    have := ih (b + argWordCount width + argWordCount width)
    simp only [argLayouts]
    omega

/-- The words of an argument lie before the end of its site's payload. -/
theorem argLayouts_mem {b : Nat} {widths : List Nat} {l : RuntimeEventArgLayout}
    (h : l ∈ (argLayouts b widths).1) :
    l.valueWordOffset + l.wordCount ≤ (argLayouts b widths).2 ∧
      l.maskWordOffset + l.wordCount ≤ (argLayouts b widths).2 := by
  induction widths generalizing b with
  | nil => simp [argLayouts] at h
  | cons width widths ih =>
    simp only [argLayouts, List.mem_cons] at h ⊢
    rcases h with rfl | h
    · have := le_argLayouts (b + argWordCount width + argWordCount width) widths
      simp only
      omega
    · exact ih h

theorem mem_argStores {l : RuntimeEventArgLayout} {arg : ArgWords} {p : Nat × UInt64} :
    p ∈ argStores l arg ↔ ∃ w < l.wordCount,
      p = (24 + (l.valueWordOffset + w) * 8, arg.values[w]?.getD 0) ∨
      p = (24 + (l.maskWordOffset + w) * 8, arg.masks[w]?.getD 0) := by
  simp [argStores, runtimeEventSlotPayloadOffset]

/-- The stores of arguments laid out from word `b` on. -/
def storesFrom (b : Nat) (widths : List Nat) (args : List ArgWords) : List (Nat × UInt64) :=
  ((argLayouts b widths).1.zip args).flatMap fun (argLayout, arg) => argStores argLayout arg

theorem storesFrom_cons (b width : Nat) (widths : List Nat) (arg : ArgWords)
    (args : List ArgWords) :
    storesFrom b (width :: widths) (arg :: args) =
      argStores ⟨b, b + argWordCount width, argWordCount width⟩ arg ++
        storesFrom (b + argWordCount width + argWordCount width) widths args := rfl

theorem storesFrom_bounds {b : Nat} {widths : List Nat} {args : List ArgWords} {p : Nat × UInt64}
    (h : p ∈ storesFrom b widths args) :
    24 + b * 8 ≤ p.1 ∧ p.1 + 8 ≤ 24 + (argLayouts b widths).2 * 8 ∧ p.1 % 8 = 0 := by
  induction widths generalizing b args with
  | nil => simp [storesFrom, argLayouts] at h
  | cons width widths ih =>
    cases args with
    | nil => simp [storesFrom] at h
    | cons arg args =>
      rw [storesFrom_cons, List.mem_append, mem_argStores] at h
      have hle := le_argLayouts (b + argWordCount width + argWordCount width) widths
      simp only [argLayouts]
      rcases h with ⟨w, hw, rfl | rfl⟩ | h
      · simp only at hw ⊢; omega
      · simp only at hw ⊢; omega
      · have := ih h; omega

theorem argStores_nodup {b c : Nat} (arg : ArgWords) :
    ((argStores ⟨b, b + c, c⟩ arg).map Prod.fst).Nodup := by
  unfold argStores
  simp only [List.map_flatMap, List.map_cons, List.map_nil, runtimeEventSlotPayloadOffset]
  rw [List.nodup_flatMap]
  constructor
  · intro w hw
    simp only [List.mem_range] at hw
    simp
    omega
  · refine List.Pairwise.imp_of_mem ?_ List.nodup_range
    intro v w hv hw hne
    simp only [List.mem_range] at hv hw
    simp [Function.onFun, List.disjoint_left]
    omega

theorem storesFrom_nodup (b : Nat) (widths : List Nat) (args : List ArgWords) :
    ((storesFrom b widths args).map Prod.fst).Nodup := by
  induction widths generalizing b args with
  | nil => simp [storesFrom, argLayouts]
  | cons width widths ih =>
    cases args with
    | nil => simp [storesFrom]
    | cons arg args =>
      rw [storesFrom_cons, List.map_append, List.nodup_append]
      refine ⟨argStores_nodup arg, ih _ _, fun x hx y hy hxy => ?_⟩
      obtain ⟨p, hp, rfl⟩ := List.mem_map.mp hx
      obtain ⟨q, hq, rfl⟩ := List.mem_map.mp hy
      obtain ⟨w, hw, hp | hp⟩ := mem_argStores.mp hp
      all_goals
        have := storesFrom_bounds hq
        simp only [hp] at hw hxy
        omega

section Ring
variable {sites : List RuntimeEventSite}

/-- Where the slot of the event with index `i` starts. -/
def slotAt (sites : List RuntimeEventSite) (i : Nat) : Nat :=
  8 + (i % 1024) * (buildEventLayout sites).slotSize

/-- The capacity divides the range of a word, so a sequence number that has wrapped around still
names the slot of its event. -/
theorem slotBase_ofNat (i : Nat) :
    (buildEventLayout sites).slotBase (UInt64.ofNat i) = slotAt sites i := by
  have hi : (UInt64.ofNat i).toNat = i % 2 ^ 64 := UInt64.toNat_ofNat'
  have hmask : i % 2 ^ 64 &&& (runtimeEventCapacity - 1) = i % 2 ^ 64 % 2 ^ 10 :=
    Nat.and_two_pow_sub_one_eq_mod _ 10
  have hmod : i % 2 ^ 64 % 2 ^ 10 = i % 1024 := by omega
  unfold EventLayout.slotBase slotAt
  rw [hi]
  change 8 + (i % 2 ^ 64 &&& (runtimeEventCapacity - 1)) * _ = _
  rw [hmask, hmod]

theorem payloadWords_le {siteId : Nat} {site : RuntimeEventSiteLayout}
    (h : (buildEventLayout sites).siteLayouts[siteId]? = some site) :
    24 + site.payloadWords * 8 ≤ (buildEventLayout sites).slotSize := by
  have hmem : site.payloadWords ∈
      ((sites.map buildRuntimeEventSiteLayout).map (·.payloadWords)) :=
    List.mem_map_of_mem (List.mem_of_getElem? h)
  simp only [buildEventLayout, runtimeEventSlotPayloadOffset]
  cases hmax : ((sites.map buildRuntimeEventSiteLayout).map (·.payloadWords)).max? with
  | none => simp [List.max?_eq_none_iff.mp hmax] at hmem
  | some m =>
    have := (List.max?_eq_some_iff.mp hmax).2 _ hmem
    simp only [Option.getD_some]
    omega

theorem slotSize_ge (sites : List RuntimeEventSite) : 24 ≤ (buildEventLayout sites).slotSize := by
  simp only [buildEventLayout, runtimeEventSlotPayloadOffset]
  omega

theorem slotSize_mod : (buildEventLayout sites).slotSize % 8 = 0 := by
  simp only [buildEventLayout, runtimeEventSlotPayloadOffset]
  omega

theorem readable_slotAt {i o : Nat} (halign : o % 8 = 0)
    (ho : o + 8 ≤ (buildEventLayout sites).slotSize) :
    (buildEventLayout sites).Readable (slotAt sites i + o) := by
  have hslot : (i % 1024 + 1) * (buildEventLayout sites).slotSize ≤
      1024 * (buildEventLayout sites).slotSize :=
    Nat.mul_le_mul_right _ (Nat.mod_lt i (by decide))
  rw [Nat.add_mul] at hslot
  have hmod : (i % 1024 * (buildEventLayout sites).slotSize) % 8 = 0 := by
    rw [Nat.mul_mod, slotSize_mod]
    simp
  have hsize : (buildEventLayout sites).bufferSize =
      8 + 1024 * (buildEventLayout sites).slotSize := rfl
  unfold EventLayout.Readable slotAt
  omega

/-- Words of different slots are different words. -/
theorem slotAt_ne {i j o o' : Nat} (h : i % 1024 ≠ j % 1024)
    (ho : o + 8 ≤ (buildEventLayout sites).slotSize)
    (ho' : o' + 8 ≤ (buildEventLayout sites).slotSize) :
    slotAt sites i + o ≠ slotAt sites j + o' := by
  unfold slotAt
  rcases Nat.lt_or_gt_of_ne h with hlt | hlt
  all_goals
    have hmul := Nat.mul_le_mul_right (buildEventLayout sites).slotSize hlt
    rw [Nat.succ_mul] at hmul
    omega

/-! ## The stores of an event -/

/-- The event names a site of the design. -/
def WrittenEvent.Sited (sites : List RuntimeEventSite) (event : WrittenEvent) : Prop :=
  event.siteId.toNat < sites.length

instance (event : WrittenEvent) : Decidable (event.Sited sites) :=
  inferInstanceAs (Decidable (_ < _))

theorem siteLayout_getElem? (sites : List RuntimeEventSite) (siteId : Nat) :
    (buildEventLayout sites).siteLayouts[siteId]? =
      sites[siteId]?.map buildRuntimeEventSiteLayout := by
  simp [buildEventLayout]

theorem payloadStores_eq {event : WrittenEvent} {site : RuntimeEventSite}
    (h : sites[event.siteId.toNat]? = some site) :
    (buildEventLayout sites).payloadStores event =
      (8, event.siteId.toUInt64) :: (16, UInt64.ofNat event.args.length) ::
        storesFrom 0 site.argWidths event.args := by
  simp only [EventLayout.payloadStores, siteLayout_getElem?, h, Option.map_some]
  rfl

theorem payloadStores_bounds {event : WrittenEvent} (hsited : event.Sited sites)
    {p : Nat × UInt64} (h : p ∈ (buildEventLayout sites).payloadStores event) :
    8 ≤ p.1 ∧ p.1 + 8 ≤ (buildEventLayout sites).slotSize := by
  have hsite : sites[event.siteId.toNat]? = some sites[event.siteId.toNat] :=
    List.getElem?_eq_getElem hsited
  have hlayout := siteLayout_getElem? sites event.siteId.toNat
  rw [hsite] at hlayout
  have hwords := payloadWords_le hlayout
  rw [payloadStores_eq hsite] at h
  have hsize := slotSize_ge sites
  simp only [List.mem_cons] at h
  rcases h with rfl | rfl | h
  · simp only; omega
  · simp only; omega
  · have hbounds := storesFrom_bounds h
    simp only [buildRuntimeEventSiteLayout] at hwords
    omega

theorem payloadStores_nodup {event : WrittenEvent} (hsited : event.Sited sites) :
    (((buildEventLayout sites).payloadStores event).map Prod.fst).Nodup := by
  have hsite : sites[event.siteId.toNat]? = some sites[event.siteId.toNat] :=
    List.getElem?_eq_getElem hsited
  rw [payloadStores_eq hsite]
  simp only [List.map_cons, List.nodup_cons, List.mem_cons, List.mem_map, not_or, not_exists,
    not_and]
  refine ⟨⟨by decide, fun p hp heq => ?_⟩, fun p hp heq => ?_, storesFrom_nodup _ _ _⟩
  all_goals
    have := storesFrom_bounds hp
    omega

/-! ## The writer's invariant -/

/-- How many events have marked their slot. -/
def Writer.started (w : Writer) : Nat :=
  match w.phase with
  | .idle | .loaded .. => w.written.length
  | .filling .. | .published .. => w.written.length + 1

/-- The stores are all in the slot of event `i`. -/
def Stored (sites : List RuntimeEventSite) (mem : Words) (i : Nat)
    (stores : List (Nat × UInt64)) : Prop :=
  ∀ p ∈ stores, mem (slotAt sites i + p.1) = p.2

/-- No event after `i` has marked the slot of event `i`. -/
def Writer.Intact (i : Nat) (w : Writer) : Prop := w.started ≤ i + 1024

/-- What the slot of the event being written holds. -/
def Writer.PhaseInv (sites : List RuntimeEventSite) (w : Writer) : Prop :=
  match w.phase with
  | .idle => True
  | .loaded seq event => seq = UInt64.ofNat w.written.length ∧ event.Sited sites
  | .filling seq event stores => seq = UInt64.ofNat w.written.length ∧ event.Sited sites ∧
      w.mem (slotAt sites w.written.length) = runtimeEventWriting ∧
      ∃ done, (buildEventLayout sites).payloadStores event = done ++ stores ∧
        Stored sites w.mem w.written.length done
  | .published seq event => seq = UInt64.ofNat w.written.length ∧ event.Sited sites ∧
      w.mem (slotAt sites w.written.length) = seq ∧
      Stored sites w.mem w.written.length ((buildEventLayout sites).payloadStores event)

structure Writer.Inv (sites : List RuntimeEventSite) (w : Writer) : Prop where
  header : w.mem 0 = UInt64.ofNat w.written.length
  sited : ∀ event ∈ w.written, event.Sited sites
  phase : w.PhaseInv sites
  slot : ∀ i event, w.written[i]? = some event → w.Intact i →
    w.mem (slotAt sites i) = UInt64.ofNat i ∧
      Stored sites w.mem i ((buildEventLayout sites).payloadStores event)

theorem Words.set_eq (mem : Words) (offset : Nat) (value : UInt64) :
    mem.set offset value offset = value := if_pos rfl

theorem Words.set_ne (mem : Words) {offset o : Nat} (value : UInt64) (h : o ≠ offset) :
    mem.set offset value o = mem o := if_neg h

/-- A store into the slot of event `n` leaves the slots of the other last events alone. -/
theorem slot_frame {mem : Words} {i n o : Nat} {value : UInt64} {event : WrittenEvent}
    (hsited : event.Sited sites) (hi : i < n) (hn : n + 1 ≤ i + 1024)
    (ho : o + 8 ≤ (buildEventLayout sites).slotSize)
    (h : mem (slotAt sites i) = UInt64.ofNat i ∧
      Stored sites mem i ((buildEventLayout sites).payloadStores event)) :
    mem.set (slotAt sites n + o) value (slotAt sites i) = UInt64.ofNat i ∧
      Stored sites (mem.set (slotAt sites n + o) value) i
        ((buildEventLayout sites).payloadStores event) := by
  have hmod : i % 1024 ≠ n % 1024 := by omega
  have hsize := slotSize_ge sites
  constructor
  · have hne : slotAt sites i + 0 ≠ slotAt sites n + o := slotAt_ne hmod (by omega) ho
    exact (Words.set_ne mem value hne).trans h.1
  · intro p hp
    have hne := slotAt_ne hmod (payloadStores_bounds hsited hp).2 ho
    rw [Words.set_ne _ _ hne]
    exact h.2 p hp

theorem header_frame {mem : Words} {n o : Nat} {value : UInt64} :
    mem.set (slotAt sites n + o) value 0 = mem 0 :=
  Words.set_ne _ _ (by unfold slotAt; omega)

/-- Every step of the generated code keeps the invariant, also past the last sequence number. -/
theorem WriterStep.inv {w w' : Writer} (h : WriterStep (buildEventLayout sites) w w')
    (hw : w.Inv sites) : w'.Inv sites := by
  have hlast : ∀ i event, w.written[i]? = some event → i < w.written.length ∧ event.Sited sites :=
    fun i event hi => ⟨(List.getElem?_eq_some_iff.mp hi).1, hw.sited event (List.mem_of_getElem? hi)⟩
  cases h with
  | load mem written event hsite =>
    have hsited : event.siteId.toNat < sites.length := by simpa [buildEventLayout] using hsite
    exact ⟨hw.header, hw.sited, ⟨hw.header, hsited⟩, hw.slot⟩
  | mark mem written seq event =>
    obtain ⟨hseq, hsited⟩ := hw.phase
    obtain rfl : seq = UInt64.ofNat written.length := hseq
    have hsize := slotSize_ge sites
    rw [slotBase_ofNat]
    refine ⟨header_frame.trans hw.header, hw.sited, ⟨rfl, hsited, ?_, [], rfl, ?_⟩, ?_⟩
    · exact Words.set_eq mem _ _
    · intro p hp
      simp at hp
    · intro i e hi hn
      obtain ⟨hlt, he⟩ := hlast i e hi
      simp only [Writer.Intact, Writer.started] at hn
      exact slot_frame he hlt hn (by unfold runtimeEventSlotSeqOffset; omega)
        (hw.slot i e hi (by simp only [Writer.Intact, Writer.started]; omega))
  | store mem written seq event offset value stores =>
    obtain ⟨hseq, hsited, hmark, done, hdone, hstored⟩ := hw.phase
    obtain rfl : seq = UInt64.ofNat written.length := hseq
    have hbounds := payloadStores_bounds hsited (p := (offset, value)) (by rw [hdone]; simp)
    have hnodup := payloadStores_nodup hsited
    rw [slotBase_ofNat]
    refine ⟨header_frame.trans hw.header, hw.sited, ⟨rfl, hsited, ?_, done ++ [(offset, value)],
      by simp [hdone], ?_⟩, ?_⟩
    · refine (Words.set_ne _ _ ?_).trans hmark
      simp only at hbounds ⊢
      omega
    · intro p hp
      simp only [List.mem_append, List.mem_singleton] at hp
      rcases hp with hp | rfl
      · -- an earlier store went to another word
        have hne : p.1 ≠ offset := by
          rw [hdone, List.map_append, List.nodup_append] at hnodup
          exact hnodup.2.2 p.1 (List.mem_map_of_mem hp) offset (by simp)
        exact (Words.set_ne mem value (by simpa using hne)).trans (hstored p hp)
      · exact Words.set_eq mem _ _
    · intro i e hi hn
      obtain ⟨hlt, he⟩ := hlast i e hi
      exact slot_frame he hlt hn hbounds.2 (hw.slot i e hi hn)
  | publishSlot mem written seq event =>
    obtain ⟨hseq, hsited, hmark, done, hdone, hstored⟩ := hw.phase
    obtain rfl : seq = UInt64.ofNat written.length := hseq
    have hsize := slotSize_ge sites
    rw [List.append_nil] at hdone
    rw [slotBase_ofNat]
    refine ⟨header_frame.trans hw.header, hw.sited, ⟨rfl, hsited, ?_, ?_⟩, ?_⟩
    · exact Words.set_eq mem _ _
    · intro p hp
      have hbounds := payloadStores_bounds hsited hp
      have hne : slotAt sites written.length + p.1 ≠
          slotAt sites written.length + runtimeEventSlotSeqOffset := by
        unfold runtimeEventSlotSeqOffset
        omega
      exact (Words.set_ne mem _ hne).trans (hstored p (hdone ▸ hp))
    · intro i e hi hn
      obtain ⟨hlt, he⟩ := hlast i e hi
      exact slot_frame he hlt hn (by unfold runtimeEventSlotSeqOffset; omega) (hw.slot i e hi hn)
  | publishGlobal mem written seq event =>
    obtain ⟨hload, hsited, hseq, hstored⟩ := hw.phase
    obtain rfl : seq = UInt64.ofNat written.length := hload
    have hframe : ∀ i o, mem.set 0 (UInt64.ofNat written.length + 1) (slotAt sites i + o) =
        mem (slotAt sites i + o) := fun i o =>
      Words.set_ne _ _ (by unfold slotAt; omega)
    refine ⟨?_, ?_, trivial, ?_⟩
    · simp only [Words.set_eq, List.length_append, List.length_singleton]
      exact (UInt64.ofNat_add written.length 1).symm
    · intro e he
      rcases List.mem_append.mp he with he | he
      · exact hw.sited e he
      · rw [List.mem_singleton.mp he]
        exact hsited
    · intro i e hi hn
      have hkeep : mem (slotAt sites i) = UInt64.ofNat i ∧
          Stored sites mem i ((buildEventLayout sites).payloadStores e) := by
        rcases Nat.lt_or_ge i written.length with hlt | hge
        · rw [List.getElem?_append_left hlt] at hi
          refine hw.slot i e hi ?_
          simpa [Writer.Intact, Writer.started] using hn
        · have hi' : i = written.length := by
            have := (List.getElem?_eq_some_iff.mp hi).1
            simp at this
            omega
          subst hi'
          obtain rfl : event = e := by simpa using hi
          exact ⟨hseq, hstored⟩
      exact ⟨(hframe i 0).trans hkeep.1, fun p hp => (hframe i p.1).trans (hkeep.2 p hp)⟩

theorem WriterStep.written {w w' : Writer} (h : WriterStep (buildEventLayout sites) w w') :
    w.written <+: w'.written := by
  cases h
  case publishGlobal mem written seq event => exact List.prefix_append written [event]
  all_goals exact List.prefix_rfl

theorem WriterStep.started_le {w w' : Writer} (h : WriterStep (buildEventLayout sites) w w') :
    w.started ≤ w'.started := by
  cases h <;> simp [Writer.started]

/-! ## Reading a slot -/

/-- Every sequence number so far, and the ones a drain compares it with, fits in a word. -/
def Writer.Bounded (w : Writer) : Prop := w.written.length + 1024 < 2 ^ 64

/-- What the reader relies on between two of its reads. -/
def Rely (sites : List RuntimeEventSite) (w w' : Writer) : Prop :=
  WriterStep (buildEventLayout sites) w w' ∧ w'.Bounded

/-- The state in which a drain looks at event `i`. -/
structure Looks (sites : List RuntimeEventSite) (i : Nat) (event : WrittenEvent) (w : Writer) :
    Prop where
  inv : w.Inv sites
  bounded : w.Bounded
  event : w.written[i]? = some event

theorem Looks.stable (sites : List RuntimeEventSite) (i : Nat) (event : WrittenEvent) :
    Stable (Rely sites) (Looks sites i event) := by
  rintro w w' ⟨hstep, hbound⟩ hw
  refine ⟨hstep.inv hw.inv, hbound, ?_⟩
  obtain ⟨rest, hrest⟩ := hstep.written
  rw [← hrest, List.getElem?_append_left (List.getElem?_eq_some_iff.mp hw.event).1]
  exact hw.event

theorem Looks.intact_back {i : Nat} {event : WrittenEvent} :
    ∀ w w', Looks sites i event w → Rely sites w w' → w'.Intact i → w.Intact i :=
  fun _ _ _ hstep h => Nat.le_trans hstep.1.started_le h

theorem ofNat_inj_of_lt {i j : Nat} (hi : i < 2 ^ 64) (hj : j < 2 ^ 64)
    (h : UInt64.ofNat i = UInt64.ofNat j) : i = j := by
  have := congrArg UInt64.toNat h
  rwa [UInt64.toNat_ofNat_of_lt' hi, UInt64.toNat_ofNat_of_lt' hj] at this

theorem ofNat_ne_writing {i : Nat} (hi : i + 1 < 2 ^ 64) : UInt64.ofNat i ≠ runtimeEventWriting := by
  intro h
  have hmax : runtimeEventWriting = UInt64.ofNat (2 ^ 64 - 1) := rfl
  have := ofNat_inj_of_lt (by omega) (by decide) (h.trans hmax)
  omega

/-- A slot that shows the sequence number of event `i` still holds event `i`. -/
theorem Looks.intact {i : Nat} {event : WrittenEvent} {w : Writer} (hw : Looks sites i event w)
    (hseq : w.mem (slotAt sites i) = UInt64.ofNat i) : w.Intact i := by
  have hi := (List.getElem?_eq_some_iff.mp hw.event).1
  have hbound := hw.bounded
  unfold Writer.Bounded at hbound
  by_contra hlapped
  unfold Writer.Intact at hlapped
  -- the last event that has marked this slot
  obtain ⟨j, hj⟩ : ∃ j, j = i + 1024 * ((w.started - 1 - i) / 1024) := ⟨_, rfl⟩
  have hmod : j % 1024 = i % 1024 := by omega
  have hslot : slotAt sites j = slotAt sites i := by unfold slotAt; rw [hmod]
  rcases Nat.lt_or_ge j w.written.length with hlt | hge
  · have hj' := (hw.inv.slot j _ (List.getElem?_eq_getElem hlt) (by unfold Writer.Intact; omega)).1
    rw [hslot, hseq] at hj'
    have := ofNat_inj_of_lt (by omega) (by omega) hj'
    omega
  · have hstarted : w.started ≤ w.written.length + 1 := by
      unfold Writer.started
      split <;> omega
    have hn : j = w.written.length := by omega
    have hphase := hw.inv.phase
    unfold Writer.PhaseInv at hphase
    cases hp : w.phase with
    | idle =>
      have : w.started = w.written.length := by simp [Writer.started, hp]
      omega
    | loaded seq e =>
      have : w.started = w.written.length := by simp [Writer.started, hp]
      omega
    | filling seq e stores =>
      rw [hp] at hphase
      obtain ⟨-, -, hmark, -⟩ := hphase
      rw [← hn, hslot, hseq] at hmark
      exact ofNat_ne_writing (by omega) hmark
    | published seq e =>
      rw [hp] at hphase
      obtain ⟨hload, -, hpublished, -⟩ := hphase
      rw [← hn, hslot, hseq, hload] at hpublished
      have := ofNat_inj_of_lt (by omega) (by omega) hpublished
      omega

/-- As long as the slot is intact, its words are those of the event. -/
theorem Looks.stored {i : Nat} {event : WrittenEvent} {w : Writer} (hw : Looks sites i event w)
    (h : w.Intact i) {p : Nat × UInt64} (hp : p ∈ (buildEventLayout sites).payloadStores event) :
    w.mem (slotAt sites i + p.1) = p.2 := (hw.inv.slot i event hw.event h).2 p hp

/-! ## Reading the arguments -/

/-- The words of one argument, by what stands at each offset of the slot. -/
def argWordsOf (val : Nat → UInt64) (l : RuntimeEventArgLayout) : List (UInt64 × UInt64) :=
  (List.range l.wordCount).map fun w =>
    (val (24 + (l.valueWordOffset + w) * 8), val (24 + (l.maskWordOffset + w) * 8))

section Args
variable {i : Nat} {I good : Writer → Prop}
  (hI : Stable (Rely sites) I) (hgood : ∀ w w', I w → Rely sites w w' → good w' → good w)
include hI hgood

theorem readArg_holds {l : RuntimeEventArgLayout} (val : Nat → UInt64)
    (hvalue : 24 + (l.valueWordOffset + l.wordCount) * 8 ≤ (buildEventLayout sites).slotSize)
    (hmask : 24 + (l.maskWordOffset + l.wordCount) * 8 ≤ (buildEventLayout sites).slotSize)
    (hval : ∀ s, I s → good s → ∀ w < l.wordCount,
      s.mem (slotAt sites i + (24 + (l.valueWordOffset + w) * 8)) =
        val (24 + (l.valueWordOffset + w) * 8) ∧
      s.mem (slotAt sites i + (24 + (l.maskWordOffset + w) * 8)) =
        val (24 + (l.maskWordOffset + w) * 8)) {s : Writer} (hs : I s) :
    Holds Writer.mem (buildEventLayout sites).Readable (Rely sites)
      (fun words s' => good s' → words = argWordsOf val l) (readArg (slotAt sites i) l) s := by
  refine Holds.forEach hgood hI (fun w hw s hs => ?_) hs
  have hw := List.mem_range.mp hw
  simp only [runtimeEventSlotPayloadOffset, Nat.add_assoc]
  refine Holds.word (readable_slotAt (by omega) (by omega)) fun s₁ h₁ => ?_
  have hs₁ := hI.trans h₁ hs
  refine Holds.word (readable_slotAt (by omega) (by omega)) fun s₂ h₂ => ?_
  have hs₂ := hI.trans h₂ hs₁
  refine Holds.pure fun s₃ h₃ hg => ?_
  have hg₂ := hI.back hgood hs₂ h₃ hg
  rw [(hval s₁ hs₁ (hI.back hgood hs₁ h₂ hg₂) w hw).1, (hval s₂ hs₂ hg₂ w hw).2]

theorem readArgs_holds {siteId argCount : Nat} {site : Option RuntimeEventSite}
    {siteLayout : RuntimeEventSiteLayout} (val : Nat → UInt64)
    (hlayout : (buildEventLayout sites).siteLayouts[siteId]? = some siteLayout)
    (hval : ∀ s, I s → good s → ∀ l ∈ siteLayout.args.take argCount, ∀ w < l.wordCount,
      s.mem (slotAt sites i + (24 + (l.valueWordOffset + w) * 8)) =
        val (24 + (l.valueWordOffset + w) * 8) ∧
      s.mem (slotAt sites i + (24 + (l.maskWordOffset + w) * 8)) =
        val (24 + (l.maskWordOffset + w) * 8)) {s : Writer} (hs : I s) :
    Holds Writer.mem (buildEventLayout sites).Readable (Rely sites)
      (fun args s' => good s' → args = (siteLayout.args.take argCount).zipIdx.map fun (l, idx) =>
        RuntimeEventSite.argValue site idx (argWordsOf val l))
      (readArgs site (some siteLayout) (slotAt sites i) argCount) s := by
  refine Holds.forEach hgood hI ?_ hs
  rintro ⟨l, idx⟩ hl s hs
  have hl : l ∈ siteLayout.args.take argCount := List.fst_mem_of_mem_zipIdx hl
  have hmem := List.mem_of_mem_take hl
  have hwords := payloadWords_le hlayout
  rw [siteLayout_getElem?, Option.map_eq_some_iff] at hlayout
  obtain ⟨site', -, rfl⟩ := hlayout
  have hbounds := argLayouts_mem hmem
  simp only [buildRuntimeEventSiteLayout] at hwords
  refine Holds.bind ?_
  refine (readArg_holds hI hgood val (by omega) (by omega) (fun s hs hg => hval s hs hg l hl) hs).mono
    fun words s₁ h₁ hwords => ?_
  refine Holds.pure fun s₂ h₂ hg => ?_
  rw [hwords (hI.back hgood (hI.trans h₁ hs) h₂ hg)]

end Args

theorem exists_mem_zip {α β : Type} {xs : List α} {ys : List β} {n : Nat} {x : α}
    (h : x ∈ xs.take n) (hn : n ≤ ys.length) : ∃ y, (x, y) ∈ xs.zip ys := by
  obtain ⟨j, hj⟩ := List.getElem?_of_mem h
  rw [List.getElem?_take] at hj
  split at hj
  · have hy : j < ys.length := by omega
    exact ⟨ys[j], List.mem_of_getElem? (List.getElem?_zip_eq_some.mpr
      ⟨hj, List.getElem?_eq_getElem hy⟩)⟩
  · simp at hj

/-- What the code that wrote the event put into it: the arguments the site declares, each word
as it was or zero where the register had none. -/
def decodedArgs (site : RuntimeEventSite) (args : List ArgWords) : List RuntimeEventArgValue :=
  (site.argWidths.zip args).zipIdx.map fun ((width, arg), idx) =>
    RuntimeEventSite.argValue (some site) idx ((List.range (argWordCount width)).map fun w =>
      (arg.values[w]?.getD 0, arg.masks[w]?.getD 0))

theorem argValues_eq (site : Option RuntimeEventSite) (val : Nat → UInt64) (b k : Nat)
    (widths : List Nat) (args : List ArgWords)
    (h : ∀ p ∈ storesFrom b widths args, val p.1 = p.2) :
    (((argLayouts b widths).1.take (min args.length widths.length)).zipIdx k).map (fun (l, idx) =>
        RuntimeEventSite.argValue site idx (argWordsOf val l)) =
      ((widths.zip args).zipIdx k).map fun ((width, arg), idx) =>
        RuntimeEventSite.argValue site idx ((List.range (argWordCount width)).map fun w =>
          (arg.values[w]?.getD 0, arg.masks[w]?.getD 0)) := by
  induction widths generalizing b k args with
  | nil => simp
  | cons width widths ih =>
    cases args with
    | nil => simp
    | cons arg args =>
      rw [storesFrom_cons] at h
      have hrest := ih (b + argWordCount width + argWordCount width) (k + 1) args
        fun p hp => h p (List.mem_append_right _ hp)
      have hhead : argWordsOf val ⟨b, b + argWordCount width, argWordCount width⟩ =
          (List.range (argWordCount width)).map fun w =>
            (arg.values[w]?.getD 0, arg.masks[w]?.getD 0) := by
        refine List.map_congr_left fun w hw => ?_
        have hw := List.mem_range.mp hw
        rw [h _ (List.mem_append_left _ (mem_argStores.mpr ⟨w, hw, .inl rfl⟩)),
          h _ (List.mem_append_left _ (mem_argStores.mpr ⟨w, hw, .inr rfl⟩))]
      simp only [argLayouts, List.length_cons, Nat.add_min_add_right, List.take_succ_cons,
        List.zipIdx_cons, List.map_cons, List.zip_cons_cons, hhead, hrest]

/-! ## Delivery -/

def WrittenEvent.decoded (sites : List RuntimeEventSite) (event : WrittenEvent) :
    RawRuntimeEvent :=
  .event event.siteId.toNat (match sites[event.siteId.toNat]? with
    | some site => decodedArgs site event.args
    | none => [])

/-- The places the delivered events take: one each, and as many empty ones as were missed. -/
def places (delivered : List RawRuntimeEvent) : List (Option RawRuntimeEvent) :=
  delivered.flatMap fun
    | .missed count => List.replicate count.toNat none
    | .event siteId args => [some (.event siteId args)]

theorem places_append (xs ys : List RawRuntimeEvent) : places (xs ++ ys) = places xs ++ places ys :=
  List.flatMap_append

/-- Place by place, what stands there is the event written there. -/
def Matches (sites : List RuntimeEventSite) (delivered : List RawRuntimeEvent)
    (written : List WrittenEvent) : Prop :=
  List.Forall₂ (fun place event => ∀ raw, place = some raw → raw = event.decoded sites)
    (places delivered) written

/-- The first `k` events have been delivered or counted as missed. -/
def Delivered (sites : List RuntimeEventSite) (k : Nat) (delivered : List RawRuntimeEvent)
    (w : Writer) : Prop :=
  k ≤ w.written.length ∧ Matches sites delivered (w.written.take k)

theorem Delivered.stable (k : Nat) (delivered : List RawRuntimeEvent) {w w' : Writer}
    (hstep : WriterStep (buildEventLayout sites) w w') (h : Delivered sites k delivered w) :
    Delivered sites k delivered w' := by
  obtain ⟨rest, hrest⟩ := hstep.written
  refine ⟨h.1.trans hstep.written.length_le, ?_⟩
  rw [← hrest, List.take_append_of_le_length h.1]
  exact h.2

theorem Delivered.event {k : Nat} {delivered : List RawRuntimeEvent} {w : Writer}
    {event : WrittenEvent} (h : Delivered sites k delivered w) (he : w.written[k]? = some event)
    {siteId : Nat} {args : List RuntimeEventArgValue}
    (hargs : .event siteId args = event.decoded sites) :
    Delivered sites (k + 1) (delivered ++ [.event siteId args]) w := by
  refine ⟨(List.getElem?_eq_some_iff.mp he).1, ?_⟩
  rw [Matches, places_append, List.take_add_one, he]
  refine List.rel_append h.2 ?_
  refine .cons ?_ .nil
  rintro raw ⟨⟩
  exact hargs

theorem Delivered.missed {k n : Nat} {delivered : List RawRuntimeEvent} {w : Writer}
    (h : Delivered sites k delivered w) (hk : k ≤ n) (hn : n ≤ w.written.length)
    {count : UInt64} (hcount : count.toNat = n - k) :
    Delivered sites n (delivered ++ [.missed count]) w := by
  refine ⟨hn, ?_⟩
  obtain ⟨d, rfl⟩ := Nat.exists_eq_add_of_le hk
  rw [Matches, places_append, List.take_add]
  refine List.rel_append h.2 ?_
  have hplaces : places [.missed count] = List.replicate d none := by
    simp [places, hcount]
  rw [hplaces]
  have hlen : ((w.written.drop k).take d).length = d := by
    rw [List.length_take, List.length_drop]
    omega
  rw [List.forall₂_iff_zip]
  refine ⟨by simp [hlen], fun {a b} hab raw ha => ?_⟩
  have := List.eq_of_mem_replicate (List.of_mem_zip hab).1
  simp [this] at ha

/-- What the state of a drain is between its reads. -/
structure Draining (sites : List RuntimeEventSite) (k : Nat) (delivered : List RawRuntimeEvent)
    (w : Writer) : Prop where
  inv : w.Inv sites
  bounded : w.Bounded
  delivered : Delivered sites k delivered w

theorem Draining.stable (sites : List RuntimeEventSite) (k : Nat)
    (delivered : List RawRuntimeEvent) :
    Stable (Rely sites) (Draining sites k delivered) :=
  fun _ _ hstep h => ⟨hstep.1.inv h.inv, hstep.2, h.delivered.stable k delivered hstep.1⟩

/-- The state a drain ends in. -/
def Drained (sites : List RuntimeEventSite) (delivered : List RawRuntimeEvent)
    (out : UInt64 × List RawRuntimeEvent) (w : Writer) : Prop :=
  ∃ k, out.1 = UInt64.ofNat k ∧ Draining sites k (delivered ++ out.2) w

theorem Draining.stop {k : Nat} {delivered events : List RawRuntimeEvent} {w : Writer}
    (h : Draining sites k (delivered ++ events) w) :
    Holds Writer.mem (buildEventLayout sites).Readable (Rely sites) (Drained sites delivered)
      (pure (UInt64.ofNat k, events)) w :=
  Holds.pure fun _ hrun => ⟨k, rfl, (Draining.stable sites k _).trans hrun h⟩

/-- The arguments read between two looks at the sequence word, from a site and a count that were
read after the first: if the slot is intact at the end, they are the event's. -/
theorem readSlotArgs_holds {k : Nat} {event : WrittenEvent} {siteWord countWord : UInt64}
    {s : Writer} (hs : Looks sites k event s)
    (hwords : s.Intact k → siteWord = event.siteId.toUInt64 ∧
      countWord = UInt64.ofNat event.args.length) :
    Holds Writer.mem (buildEventLayout sites).Readable (Rely sites)
      (fun args s' => s'.Intact k → siteWord = event.siteId.toUInt64 ∧
        .event event.siteId.toNat args = event.decoded sites)
      (readArgs sites[siteWord.toNat]? (buildEventLayout sites).siteLayouts[siteWord.toNat]?
        (slotAt sites k)
        ((sites[siteWord.toNat]?.map fun s => min countWord.toNat s.argWidths.length).getD 0)) s := by
  have hstable := Looks.stable sites k event
  by_cases hgood : s.Intact k
  · obtain ⟨rfl, rfl⟩ := hwords hgood
    have hsite := List.getElem?_eq_getElem (hs.inv.sited event (List.mem_of_getElem? hs.event))
    obtain ⟨site, hsite'⟩ : ∃ site, sites[event.siteId.toNat]? = some site := ⟨_, hsite⟩
    have hlayout := siteLayout_getElem? sites event.siteId.toNat
    rw [hsite', Option.map_some] at hlayout
    have hstores := payloadStores_eq hsite'
    rw [UInt32.toNat_toUInt64, UInt64.toNat_ofNat_of_lt' event.args_lt, hlayout, hsite']
    simp only [Option.map_some, Option.getD_some]
    refine (readArgs_holds hstable Looks.intact_back (fun o => s.mem (slotAt sites k + o))
      hlayout (fun s' hs' hg l hl w hw => ?_) hs).mono fun args s' hrun hargs hg => ⟨trivial, ?_⟩
    · -- the words of an argument that was written are stores of the event
      obtain ⟨arg, harg⟩ := exists_mem_zip hl (Nat.min_le_left _ _)
      have hmem : ∀ p ∈ argStores l arg, p ∈ (buildEventLayout sites).payloadStores event := by
        intro p hp
        rw [hstores]
        exact List.mem_cons_of_mem _ (List.mem_cons_of_mem _ (List.mem_flatMap.mpr ⟨_, harg, hp⟩))
      constructor
      · have hp := hmem _ (mem_argStores.mpr ⟨w, hw, .inl rfl⟩)
        exact (hs'.stored hg hp).trans (hs.stored hgood hp).symm
      · have hp := hmem _ (mem_argStores.mpr ⟨w, hw, .inr rfl⟩)
        exact (hs'.stored hg hp).trans (hs.stored hgood hp).symm
    · rw [hargs hg]
      have heq := argValues_eq (some site) (fun o => s.mem (slotAt sites k + o)) 0 0
        site.argWidths event.args fun p hp => hs.stored hgood (by
          rw [hstores]
          exact List.mem_cons_of_mem _ (List.mem_cons_of_mem _ hp))
      simp only [WrittenEvent.decoded, hsite', decodedArgs, ← heq]
      rfl
  · have hnever : ∀ s', ReflTransGen (Rely sites) s s' → ¬ s'.Intact k :=
      fun s' hrun hg => hgood (hstable.back Looks.intact_back hs hrun hg)
    cases hlayout : (buildEventLayout sites).siteLayouts[siteWord.toNat]? with
    | none => exact Holds.pure fun s' hrun hg => absurd hg (hnever s' hrun)
    | some siteLayout =>
      have hfalse : ∀ w w', Looks sites k event w → Rely sites w w' → False → False :=
        fun _ _ _ _ h => h
      refine (readArgs_holds hstable hfalse (fun _ => 0)
        hlayout (fun _ _ h => h.elim) hs).mono fun args s' hrun _ hg => ?_
      exact absurd hg (hnever s' hrun)

theorem lt_ofNat_iff {k m : Nat} (hk : k < 2 ^ 64) (hm : m < 2 ^ 64) :
    UInt64.ofNat k < UInt64.ofNat m ↔ k < m := by
  rw [UInt64.lt_iff_toNat_lt, UInt64.toNat_ofNat_of_lt' hk, UInt64.toNat_ofNat_of_lt' hm]

/-- The loop of a drain, from any place up to a sequence number that has been published. -/
theorem collectLoop_holds {delivered : List RawRuntimeEvent} {m : Nat} (fuel : Nat) {k : Nat}
    {events : List RawRuntimeEvent} {s : Writer} (hs : Draining sites k (delivered ++ events) s)
    (hm : m ≤ s.written.length) :
    Holds Writer.mem (buildEventLayout sites).Readable (Rely sites) (Drained sites delivered)
      (collectLoop (buildEventLayout sites) sites (UInt64.ofNat m) fuel (UInt64.ofNat k) events)
      s := by
  induction fuel generalizing k events s with
  | zero => exact hs.stop
  | succ fuel ih =>
    have hbound := hs.bounded
    have hk := hs.delivered.1
    unfold Writer.Bounded at hbound
    have hstable := Draining.stable sites k (delivered ++ events)
    unfold collectLoop
    split
    · rename_i hlt
      rw [lt_ofNat_iff (by omega) (by omega)] at hlt
      have hsize := slotSize_ge sites
      have hevent := List.getElem?_eq_getElem (show k < s.written.length by omega)
      have hlooks : Looks sites k _ s := ⟨hs.inv, hs.bounded, hevent⟩
      simp only [slotBase_ofNat]
      have hseq : (buildEventLayout sites).Readable (slotAt sites k + runtimeEventSlotSeqOffset) :=
        readable_slotAt (by decide) (by unfold runtimeEventSlotSeqOffset; omega)
      refine Holds.word hseq fun s₁ h₁ => ?_
      split
      · exact (hstable.trans h₁ hs).stop
      · have hs₁ := (Looks.stable sites k _).trans h₁ hlooks
        refine Holds.word (readable_slotAt (by decide)
          (by unfold runtimeEventSlotSiteOffset; omega)) fun s₂ h₂ => ?_
        have hs₂ := (Looks.stable sites k _).trans h₂ hs₁
        refine Holds.word (readable_slotAt (by decide)
          (by unfold runtimeEventSlotArgCountOffset; omega)) fun s₃ h₃ => ?_
        have hs₃ := (Looks.stable sites k _).trans h₃ hs₂
        have hsited := hs.inv.sited _ (List.mem_of_getElem? hevent)
        have hstores := payloadStores_eq (List.getElem?_eq_getElem hsited)
        refine Holds.bind ((readSlotArgs_holds hs₃ fun hg => ⟨?_, ?_⟩).mono
          fun args s₄ h₄ hargs => ?_)
        · have hg₂ := (Looks.stable sites k _).back Looks.intact_back hs₂ h₃ hg
          exact hs₂.stored hg₂ (p := (8, s.written[k].siteId.toUInt64))
            (by rw [hstores]; exact List.mem_cons_self)
        · exact hs₃.stored hg (p := (16, UInt64.ofNat s.written[k].args.length))
            (by rw [hstores]; exact List.mem_cons_of_mem _ List.mem_cons_self)
        refine Holds.word hseq fun s₅ h₅ => ?_
        have hrun := ((h₁.trans h₂).trans h₃).trans (h₄.trans h₅)
        split
        · exact (hstable.trans hrun hs).stop
        · rename_i hpublished
          have hs₅ := (Looks.stable sites k _).trans hrun hlooks
          have hgood : s₅.Intact k := hs₅.intact (not_not.mp (not_or.mp hpublished).2)
          have hgood₄ := (Looks.stable sites k _).back Looks.intact_back
            ((Looks.stable sites k _).trans h₄ hs₃) h₅ hgood
          obtain ⟨hsite, hevents⟩ := hargs hgood₄
          have hdrain := hstable.trans hrun hs
          rw [hsite, UInt32.toNat_toUInt64, List.getElem?_eq_getElem hsited, Option.isSome_some,
            if_pos rfl, show UInt64.ofNat k + 1 = UInt64.ofNat (k + 1) from
              (UInt64.ofNat_add k 1).symm]
          refine ih ⟨hdrain.inv, hdrain.bounded, ?_⟩ ?_
          · rw [← List.append_assoc]
            exact hdrain.delivered.event hs₅.event hevents
          · have : s.written.length ≤ s₅.written.length :=
              Stable.trans (P := fun w => s.written.length ≤ w.written.length)
                (fun _ _ hstep h => h.trans hstep.1.written.length_le) hrun (Nat.le_refl _)
            omega
    · exact hs.stop

theorem collectRuntimeEvents_holds {delivered : List RawRuntimeEvent} {k : Nat} {s : Writer}
    (hs : Draining sites k delivered s) :
    Holds Writer.mem (buildEventLayout sites).Readable (Rely sites) (Drained sites delivered)
      (collectRuntimeEvents (buildEventLayout sites) sites (UInt64.ofNat k)) s := by
  have hsize := slotSize_ge sites
  have hcapacity : (buildEventLayout sites).capacity = 1024 := rfl
  have hbuffer : (buildEventLayout sites).bufferSize =
      8 + 1024 * (buildEventLayout sites).slotSize := rfl
  unfold collectRuntimeEvents
  rw [if_neg (by unfold runtimeEventHeaderSize; omega)]
  refine Holds.word ⟨rfl, by omega⟩ fun s₁ h₁ => ?_
  have hs₁ := (Draining.stable sites k delivered).trans h₁ hs
  have hbound := hs₁.bounded
  have hk := hs₁.delivered.1
  unfold Writer.Bounded at hbound
  rw [hs₁.inv.header, hcapacity]
  have hsum : UInt64.ofNat k + UInt64.ofNat 1024 = UInt64.ofNat (k + 1024) :=
    (UInt64.ofNat_add k 1024).symm
  simp only [hsum]
  split
  · rename_i hlapped
    rw [lt_ofNat_iff (by omega) (by omega)] at hlapped
    obtain ⟨n, hn⟩ : ∃ n, s₁.written.length = n + 1024 := ⟨s₁.written.length - 1024, by omega⟩
    have hnew : UInt64.ofNat s₁.written.length - UInt64.ofNat 1024 = UInt64.ofNat n := by
      rw [hn, ← UInt64.ofNat_sub (by omega), Nat.add_sub_cancel]
    have hcount : (UInt64.ofNat n - UInt64.ofNat k).toNat = n - k := by
      have hlt : n - k < 2 ^ 64 := by omega
      rw [← UInt64.ofNat_sub (by omega), UInt64.toNat_ofNat_of_lt' hlt]
    have hmissed : Draining sites n
        (delivered ++ [.missed (UInt64.ofNat n - UInt64.ofNat k)]) s₁ :=
      ⟨hs₁.inv, hs₁.bounded, hs₁.delivered.missed (by omega) (by omega) hcount⟩
    simp only [hnew]
    exact collectLoop_holds _ hmissed (Nat.le_refl _)
  · have hnone : Draining sites k (delivered ++ []) s₁ := by
      rw [List.append_nil]
      exact hs₁
    exact collectLoop_holds _ hnone (Nat.le_refl _)

/-! ## Every interleaving -/

theorem Writer.inv_init : (⟨fun _ => 0, .idle, []⟩ : Writer).Inv sites :=
  ⟨rfl, by simp, trivial, by simp⟩

/-- Between the steps of the system: what has been delivered, and what the drain under way is
going to add. -/
structure System.Good (sites : List RuntimeEventSite) (s : System) : Prop where
  draining : ∃ k, s.readSeq = UInt64.ofNat k ∧ Draining sites k s.delivered s.writer
  reader : ∀ p, s.reader = some p →
    Holds Writer.mem (buildEventLayout sites).Readable (Rely sites) (Drained sites s.delivered) p
      s.writer

theorem SystemStep.written {s s' : System} (h : SystemStep sites s s') :
    s.writer.written <+: s'.writer.written := by
  cases h with
  | write h => exact h.written
  | drain => exact List.prefix_rfl
  | read => exact List.prefix_rfl
  | finish => exact List.prefix_rfl

theorem SystemStep.good {s s' : System} (h : SystemStep sites s s') (hs : s.Good sites)
    (hbound : s'.writer.Bounded) : s'.Good sites := by
  obtain ⟨k, hk, hdrain⟩ := hs.draining
  cases h with
  | write h =>
    refine ⟨⟨k, hk, Draining.stable sites k _ _ _ ⟨h, hbound⟩ hdrain⟩, fun p hp => ?_⟩
    exact (hs.reader p hp).stable (.single ⟨h, hbound⟩)
  | drain =>
    refine ⟨⟨k, hk, hdrain⟩, fun p hp => ?_⟩
    obtain rfl := Option.some.inj hp
    have hk : _ = UInt64.ofNat k := hk
    simp only at hk ⊢
    rw [hk]
    exact collectRuntimeEvents_holds hdrain
  | read h =>
    refine ⟨⟨k, hk, hdrain⟩, fun p hp => ?_⟩
    obtain rfl := Option.some.inj hp
    exact (hs.reader _ rfl).2 _ .refl
  | finish => exact ⟨hs.reader _ rfl _ .refl, by simp⟩

theorem Reachable.good {s : System} (h : Reachable sites s) (hbound : s.writer.Bounded) :
    s.Good sites := by
  unfold Reachable at h
  induction h with
  | refl =>
    refine ⟨⟨0, rfl, Writer.inv_init, hbound, Nat.zero_le _, .nil⟩, ?_⟩
    simp [System.init]
  | tail _ hstep ih =>
    have hle := hstep.written.length_le
    unfold Writer.Bounded at hbound ih
    exact hstep.good (ih (by omega)) hbound

/-- The delivered events, every miss expanded to as many places, are a beginning of what was
written. -/
def DeliversPrefix (sites : List RuntimeEventSite) (s : System) : Prop :=
  ∃ done, done <+: s.writer.written ∧ Matches sites s.delivered done

/-- As long as the sequence words have not come near the end of their range: in every
interleaving the drains deliver a prefix of what was written, and no read leaves the buffer. -/
theorem drains_deliver_in_order {s : System} (h : Reachable sites s)
    (hbound : s.writer.written.length + 1024 < 2 ^ 64) :
    DeliversPrefix sites s ∧
      ∀ offset k, s.reader = some (.read offset k) → (buildEventLayout sites).Readable offset := by
  have hgood := h.good hbound
  obtain ⟨k, -, hdrain⟩ := hgood.draining
  refine ⟨⟨_, List.take_prefix k _, hdrain.delivered.2⟩, fun offset k hk => ?_⟩
  exact (hgood.reader _ hk).1

/-! ## Undisturbed drains, and the sequence words' wrap-around -/

/-- A drain that nobody disturbs reaches its end. -/
theorem drain_runs {post : UInt64 × List RawRuntimeEvent → Writer → Prop} {w : Writer}
    {p : Reader UInt64 (UInt64 × List RawRuntimeEvent)} (readSeq : UInt64)
    (delivered : List RawRuntimeEvent)
    (h : Holds Writer.mem (buildEventLayout sites).Readable (fun _ _ => False) post p w) :
    ∃ out, ReflTransGen (SystemStep sites) ⟨w, some p, readSeq, delivered⟩
      ⟨w, none, out.1, delivered ++ out.2⟩ ∧ post out w := by
  induction p with
  | ret out => exact ⟨out, .single .finish, h w .refl⟩
  | read offset k ih =>
    obtain ⟨out, hrun, hpost⟩ := ih _ (h.2 w .refl)
    exact ⟨out, .head (.read h.1) hrun, hpost⟩

/-- An event can be written from start to end. -/
theorem write_runs (mem : Words) (written : List WrittenEvent) {event : WrittenEvent}
    (h : event.Sited sites) : ∃ mem', ReflTransGen (WriterStep (buildEventLayout sites))
      ⟨mem, .idle, written⟩ ⟨mem', .idle, written ++ [event]⟩ := by
  have hfill : ∀ (stores : List (Nat × UInt64)) (mem : Words) (seq : UInt64), ∃ mem',
      ReflTransGen (WriterStep (buildEventLayout sites)) ⟨mem, .filling seq event stores, written⟩
        ⟨mem', .filling seq event [], written⟩ := by
    intro stores
    induction stores with
    | nil => exact fun mem seq => ⟨mem, .refl⟩
    | cons p stores ih =>
      intro mem seq
      obtain ⟨mem', hrun⟩ := ih (mem.set ((buildEventLayout sites).slotBase seq + p.1) p.2) seq
      exact ⟨mem', .head (.store ..) hrun⟩
  have hsite : event.siteId.toNat < (buildEventLayout sites).siteLayouts.length := by
    unfold WrittenEvent.Sited at h
    simpa [buildEventLayout] using h
  obtain ⟨mem', hrun⟩ := hfill ((buildEventLayout sites).payloadStores event)
    (mem.set ((buildEventLayout sites).slotBase (mem 0) + runtimeEventSlotSeqOffset)
      runtimeEventWriting) (mem 0)
  have hslot : WriterStep (buildEventLayout sites) _ _ := .publishSlot mem' written (mem 0) event
  have hpublish := hrun.tail hslot
  exact ⟨_, .head (.load mem written event hsite) (.head (.mark ..) (hpublish.tail (.publishGlobal ..)))⟩

end Ring

/-- Two sites without arguments. -/
def plainSites : List RuntimeEventSite := [⟨[], [], []⟩, ⟨[], [], []⟩]

def plainEvent (siteId : UInt32) : WrittenEvent := ⟨siteId, [], by decide⟩

/-- A first drain of a ring whose global sequence shows one event and whose first slot holds one
of site 1. -/
theorem drain_plain {w : Writer} (delivered : List RawRuntimeEvent) (hheader : w.mem 0 = 1)
    (hseq : w.mem ((buildEventLayout plainSites).slotBase 0 + runtimeEventSlotSeqOffset) = 0)
    (hsite : w.mem ((buildEventLayout plainSites).slotBase 0 + runtimeEventSlotSiteOffset) = 1)
    (hcount : w.mem ((buildEventLayout plainSites).slotBase 0 +
      runtimeEventSlotArgCountOffset) = 0) :
    ReflTransGen (SystemStep plainSites) ⟨w, none, 0, delivered⟩
      ⟨w, none, 1, delivered ++ [.event 1 []]⟩ := by
  have hsame : ∀ {s s' : Writer}, ReflTransGen (fun _ _ => False) s s' → s' = s := by
    intro s s' h
    induction h with
    | refl => rfl
    | tail _ h => exact h.elim
  have hreads : Holds Writer.mem (buildEventLayout plainSites).Readable (fun _ _ => False)
      (fun out _ => out = (1, [.event 1 []]))
      (collectRuntimeEvents (buildEventLayout plainSites) plainSites 0) w := by
    refine Holds.word ⟨rfl, by decide⟩ fun s h => ?_
    rw [hsame h, hheader]
    refine Holds.word ⟨rfl, by decide⟩ fun s h => ?_
    rw [hsame h, hseq]
    refine Holds.word ⟨rfl, by decide⟩ fun s h => ?_
    rw [hsame h, hsite]
    refine Holds.word ⟨rfl, by decide⟩ fun s h => ?_
    rw [hsame h, hcount]
    refine Holds.word ⟨rfl, by decide⟩ fun s h => ?_
    rw [hsame h, hseq]
    exact fun _ _ => rfl
  obtain ⟨out, hrun, hout⟩ := drain_runs 0 delivered hreads
  rw [hout] at hrun
  exact .head .drain hrun

/-- The writer alone. -/
theorem writer_runs {w w' : Writer}
    (h : ReflTransGen (WriterStep (buildEventLayout plainSites)) w w') (hw : w.Inv plainSites) :
    ReflTransGen (SystemStep plainSites) ⟨w, none, 0, []⟩ ⟨w', none, 0, []⟩ ∧
      w'.Inv plainSites := by
  induction h with
  | refl => exact ⟨.refl, hw⟩
  | tail _ hstep ih => exact ⟨ih.1.tail (.write hstep), hstep.inv ih.2⟩

/-- The state after the events, nothing drained. -/
def System.quiet (mem : Words) (written : List WrittenEvent) : System :=
  ⟨⟨mem, .idle, written⟩, none, 0, []⟩

/-- After one event of site 0 and any number of events of site 1. -/
theorem plain_runs (n : Nat) : ∃ mem,
    Reachable plainSites (.quiet mem (plainEvent 0 :: List.replicate n (plainEvent 1))) ∧
    (⟨mem, .idle, plainEvent 0 :: List.replicate n (plainEvent 1)⟩ : Writer).Inv plainSites := by
  induction n with
  | zero =>
    obtain ⟨mem, hwrite⟩ := write_runs (fun _ => 0) [] (show (plainEvent 0).Sited plainSites by decide)
    exact ⟨mem, writer_runs hwrite Writer.inv_init⟩
  | succ n ih =>
    obtain ⟨mem, hrun, hmem⟩ := ih
    obtain ⟨mem', hwrite⟩ := write_runs mem (plainEvent 0 :: List.replicate n (plainEvent 1))
      (show (plainEvent 1).Sited plainSites by decide)
    rw [List.replicate_succ']
    obtain ⟨hlast, hmem'⟩ := writer_runs hwrite hmem
    exact ⟨mem', ReflTransGen.trans hrun hlast, hmem'⟩

/-- A drain after `n` further events, where both the count of events and the index of the last
one have wrapped around to the first. -/
theorem plain_drains {n : Nat} (hpos : 0 < n) (hzero : UInt64.ofNat n = 0) (hmod : n % 1024 = 0) :
    ∃ s, Reachable plainSites s ∧ s.delivered = [.event 1 []] ∧
      s.writer.written = plainEvent 0 :: List.replicate n (plainEvent 1) := by
  obtain ⟨mem, hrun, hinv⟩ := plain_runs n
  have hlast : (plainEvent 0 :: List.replicate n (plainEvent 1))[n]? = some (plainEvent 1) := by
    obtain ⟨m, rfl⟩ : ∃ m, n = m + 1 := ⟨n - 1, by omega⟩
    simp
  have hslot : slotAt plainSites n = (buildEventLayout plainSites).slotBase 0 := by
    rw [show (0 : UInt64) = UInt64.ofNat 0 from rfl, slotBase_ofNat, slotAt, slotAt, hmod]
  obtain ⟨hseq, hstored⟩ := hinv.slot n _ hlast (by simp [Writer.Intact, Writer.started])
  rw [hslot, hzero] at hseq
  have hheader : mem 0 = 1 := by
    have h := hinv.header
    simp only [List.length_cons, List.length_replicate, UInt64.ofNat_add, hzero] at h
    exact h
  have hwords : ∀ p ∈ (buildEventLayout plainSites).payloadStores (plainEvent 1),
      mem ((buildEventLayout plainSites).slotBase 0 + p.1) = p.2 := fun p hp => hslot ▸ hstored p hp
  refine ⟨_, ReflTransGen.trans hrun (drain_plain _ hheader hseq ?_ ?_), rfl, rfl⟩
  · exact hwords (8, 1) List.mem_cons_self
  · exact hwords (16, 0) (List.mem_cons_of_mem _ List.mem_cons_self)

/-- One event of site 1, written and drained. -/
theorem drains_deliver_in_order_plain : ∃ s, Reachable plainSites s ∧
    s.writer.written.length + 1024 < 2 ^ 64 ∧ s.delivered = [.event 1 []] ∧
    DeliversPrefix plainSites s := by
  obtain ⟨mem, hwrite⟩ := write_runs (fun _ => 0) [] (show (plainEvent 1).Sited plainSites by decide)
  obtain ⟨hrun, hinv⟩ := writer_runs hwrite Writer.inv_init
  obtain ⟨hseq, hstored⟩ := hinv.slot 0 _ rfl (by simp [Writer.Intact, Writer.started])
  have hsite := hstored (8, 1) List.mem_cons_self
  have hcount := hstored (16, 0) (List.mem_cons_of_mem _ List.mem_cons_self)
  have hdrain := drain_plain [] hinv.header hseq hsite hcount
  have hreach : Reachable plainSites _ := ReflTransGen.trans hrun hdrain
  have hbound : ([] ++ [plainEvent 1]).length + 1024 < 2 ^ 64 := by decide
  exact ⟨_, hreach, hbound, rfl, (drains_deliver_in_order hreach hbound).1⟩

/-- After `2 ^ 64 + 1` events the global sequence shows one event again, and a first drain takes
the last event for the first. -/
theorem wrapped_sequence_not_in_order :
    ∃ s, Reachable plainSites s ∧ ¬ DeliversPrefix plainSites s := by
  obtain ⟨s, hs, hdelivered, hwritten⟩ := plain_drains (n := 2 ^ 64) (by decide) rfl (by decide)
  refine ⟨s, hs, ?_⟩
  rintro ⟨done, hdone, hmatch⟩
  rw [hdelivered] at hmatch
  rw [hwritten] at hdone
  cases hmatch with
  | cons hplace hrest =>
    cases hrest
    have hfirst := List.prefix_cons_iff.mp hdone
    simp only [List.cons_ne_nil, List.cons.injEq, false_or] at hfirst
    obtain ⟨_, ⟨rfl, -⟩, -⟩ := hfirst
    cases hplace _ rfl

end Celox.Events
