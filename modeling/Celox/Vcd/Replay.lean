import Celox.Vcd.Header

/-! # A dump replays to what was dumped

After every dump the decoder holds for each signal what the writer keeps as its last value, and for
every earlier time what was held then. -/
namespace Celox.Vcd
open Celox.Text Celox.Bytes
open Celox.Layout (getByteSize)

/-! ## What a dump holds -/

def memoryBits (memory : List UInt8) (offset width : Nat) : Option Nat :=
  (slice? memory offset (offset + getByteSize width)).map fun bytes => ofLeBytes bytes % 2 ^ width

/-- The value and the unknown mask of a signal at a dump. -/
def held (dump : VcdWriter.Dump) (signal : VcdWriterSignal) : Option (Nat × Nat) :=
  match signal.source with
  | .memory offset is4state => do
    let value ← memoryBits dump.memory offset signal.width
    let mask ← if is4state then
        memoryBits dump.memory (offset + getByteSize signal.width) signal.width
      else some 0
    some (value, mask)
  | .external index => dump.external[index]?.map fun (value, mask) =>
    (value % 2 ^ signal.width, mask % 2 ^ signal.width)

theorem ofLeBytes_lt (bytes : List UInt8) : ofLeBytes bytes < 2 ^ (8 * bytes.length) := by
  induction bytes with
  | nil => exact Nat.one_pos
  | cons b bytes ih =>
    have hb := b.toNat_lt
    have hpow : 2 ^ (8 * (bytes.length + 1)) = 256 * 2 ^ (8 * bytes.length) := by
      rw [Nat.mul_succ, Nat.pow_add]
      ring
    rw [ofLeBytes, List.length_cons, hpow]
    omega

theorem readValue_ok {memory : List UInt8} {offset width value : Nat}
    (h : readValue memory offset width = .ok value) :
    memoryBits memory offset width = some value := by
  unfold readValue at h
  unfold memoryBits
  dsimp only at h
  cases hslice : slice? memory offset (offset + getByteSize width) with
  | none =>
    rw [hslice] at h
    cases h
  | some bytes =>
    rw [hslice] at h
    have hlen := length_of_slice? hslice
    have hlt := ofLeBytes_lt bytes
    rw [hlen, Nat.add_sub_cancel_left] at hlt
    rw [Option.map_some, ← Except.ok.inj h, Option.some.injEq]
    split
    · exact (Nat.and_two_pow_sub_one_eq_mod _ _).symm
    · rename_i hfull
      refine Nat.mod_eq_of_lt (Nat.lt_of_lt_of_le hlt (Nat.pow_le_pow_right (by decide) ?_))
      omega

theorem maskToWidth_eq (value width : Nat) : maskToWidth value width = value % 2 ^ width := by
  unfold maskToWidth
  split
  · exact Nat.and_two_pow_sub_one_eq_mod _ _
  · rename_i h
    exact (Nat.mod_eq_of_lt (Nat.size_le.mp (Nat.not_lt.mp h))).symm

theorem memoryBits_lt {memory : List UInt8} {offset width value : Nat}
    (h : memoryBits memory offset width = some value) : value < 2 ^ width := by
  obtain ⟨bytes, -, rfl⟩ := Option.map_eq_some_iff.mp h
  exact Nat.mod_lt _ (Nat.two_pow_pos width)

theorem currentValue_ok {dump : VcdWriter.Dump} {signal : VcdWriterSignal} {value mask : Nat}
    {is4state : Bool}
    (h : VcdWriter.currentValue dump.memory dump.external signal = .ok (value, mask, is4state)) :
    held dump signal = some (value, mask) ∧ value < 2 ^ signal.width ∧ mask < 2 ^ signal.width ∧
      (is4state = false → mask = 0) := by
  have hpos := Nat.two_pow_pos signal.width
  unfold VcdWriter.currentValue at h
  unfold held
  cases hsource : signal.source with
  | memory offset four =>
    rw [hsource] at h
    dsimp only at h ⊢
    cases hvalue : readValue dump.memory offset signal.width with
    | error error =>
      rw [hvalue] at h
      cases h
    | ok read =>
      rw [hvalue] at h
      have hbits := readValue_ok hvalue
      rw [hbits]
      cases four with
      | false =>
        obtain ⟨rfl, rfl, rfl⟩ : read = value ∧ 0 = mask ∧ false = is4state := by
          simpa using Except.ok.inj h
        exact ⟨rfl, memoryBits_lt hbits, hpos, fun _ => rfl⟩
      | true =>
        cases hmask : readValue dump.memory (offset + getByteSize signal.width) signal.width with
        | error error =>
          simp only [if_true, hmask] at h
          cases h
        | ok readMask =>
          simp only [if_true, hmask] at h
          obtain ⟨rfl, rfl, rfl⟩ : read = value ∧ readMask = mask ∧ true = is4state := by
            simpa using Except.ok.inj h
          have hmaskBits := readValue_ok hmask
          simp only [if_true, hmaskBits]
          exact ⟨rfl, memoryBits_lt hbits, memoryBits_lt hmaskBits, fun h => by cases h⟩
  | external index =>
    rw [hsource] at h
    dsimp only at h ⊢
    cases hindex : dump.external[index]? with
    | none =>
      rw [hindex] at h
      cases h
    | some entry =>
      rw [hindex] at h
      obtain ⟨rfl, rfl, rfl⟩ : maskToWidth entry.1 signal.width = value ∧
          maskToWidth entry.2 signal.width = mask ∧
          decide (maskToWidth entry.2 signal.width ≠ 0) = is4state := by
        simpa using Except.ok.inj h
      simp only [maskToWidth_eq]
      exact ⟨rfl, Nat.mod_lt _ hpos, Nat.mod_lt _ hpos, by simp⟩

/-! ## Changes and times -/

section Changes
variable {d : Decoder}

theorem valueAt_change_ne {id other : List Char} (h : id ≠ other) (text : List Char)
    (width time : Nat) : (d.change id text).valueAt other width time = d.valueAt other width time := by
  rw [Decoder.valueAt, Decoder.valueAt, Decoder.change, List.filter_append]
  simp [h]

theorem valueAt_change_before {time : Nat} (h : time < d.time) (id text other : List Char)
    (width : Nat) : (d.change id text).valueAt other width time = d.valueAt other width time := by
  rw [Decoder.valueAt, Decoder.valueAt, Decoder.change, List.filter_append]
  simp [Nat.not_le.mpr h]

theorem valueAt_change_self {time : Nat} (h : d.time ≤ time) (id text : List Char) (width : Nat) :
    (d.change id text).valueAt id width time = some (digitsValue width text) := by
  rw [Decoder.valueAt, Decoder.change, List.filter_append]
  simp [h]

/-- Behind all changes the time does not matter. -/
theorem valueAt_congr {d' : Decoder} (hchanges : d'.changes = d.changes) {t t' : Nat}
    (h : ∀ c ∈ d.changes, c.time ≤ t) (h' : ∀ c ∈ d.changes, c.time ≤ t') (id : List Char)
    (width : Nat) : d'.valueAt id width t' = d.valueAt id width t := by
  rw [Decoder.valueAt, Decoder.valueAt, hchanges]
  congr 2
  refine List.filter_congr fun c hc => ?_
  simp [h c hc, h' c hc]

end Changes

/-! ## Running writers -/

/-- A writer behind its header, with the decoder of its file. -/
structure Running (signals : List VcdWriterSignal) (w : VcdWriter) (d : Decoder) : Prop where
  header : w.headerWritten = true
  declares : ∀ (i : Nat) (signal : VcdWriterSignal), signals[i]? = some signal → ∃ p,
    w.signals[i]? = some (VcdWriterSignal.mk (generateVcdId p) signal.scope signal.name
      signal.width signal.source) ∧ declared signal (generateVcdId p) ∈ d.vars
  distinct : ∀ (i j : Nat) (si sj : VcdWriterSignal), w.signals[i]? = some si → w.signals[j]? = some sj →
    si.vcdId = sj.vcdId → i = j
  ids : ∀ signal ∈ w.signals, Plain signal.vcdId ∧ signal.vcdId ≠ []
  length : w.lastValues.length = w.signals.length
  idle : d.mode = .idle
  time : d.time = w.timestamp
  emits : Emits .start w.written d
  times : ∀ c ∈ d.changes, c.time ≤ d.time
  /-- The writer keeps what the decoder holds. -/
  last : ∀ (i : Nat) (signal : VcdWriterSignal), w.signals[i]? = some signal →
    w.lastValues[i]? = some (d.valueAt signal.vcdId signal.width d.time)

/-- What a dump leaves alone. -/
structure SameBefore (time : Nat) (w w' : VcdWriter) (d d' : Decoder) : Prop where
  signals : w'.signals = w.signals
  before : ∀ id width t, t < time → d'.valueAt id width t = d.valueAt id width t

section Run
variable {signals : List VcdWriterSignal} {w w' : VcdWriter} {d : Decoder} {dump : VcdWriter.Dump}

/-- One signal: what is written keeps the decoder and the writer alike. -/
theorem Running.dumpSignal (h : Running signals w d) {i : Nat} {signal : VcdWriterSignal}
    (hi : w.signals[i]? = some signal)
    (hrun : VcdWriter.dumpSignal dump.memory dump.external w (signal, i) = .ok w') :
    ∃ d' current, held dump signal = some current ∧ Running signals w' d' ∧
      SameBefore d.time w w' d d' ∧ d'.time = d.time ∧ w'.lastValues[i]? = some (some current) ∧
      ∀ j, j ≠ i → w'.lastValues[j]? = w.lastValues[j]? := by
  unfold VcdWriter.dumpSignal at hrun
  dsimp only at hrun
  cases hcurrent : VcdWriter.currentValue dump.memory dump.external signal with
  | error error =>
    rw [hcurrent] at hrun
    cases hrun
  | ok read =>
    obtain ⟨value, mask, is4state⟩ := read
    obtain ⟨hheld, hvalue, hmask, hknown⟩ := currentValue_ok hcurrent
    rw [hcurrent] at hrun
    dsimp only at hrun
    split at hrun
    · rename_i hlast
      obtain rfl := Except.ok.inj hrun
      exact ⟨d, (value, mask), hheld, h, ⟨rfl, fun _ _ _ _ => rfl⟩, rfl, hlast, fun _ _ => rfl⟩
    · obtain rfl := Except.ok.inj hrun
      have hid := h.ids signal (List.mem_of_getElem? hi)
      obtain ⟨text, htext, hdigits⟩ :=
        emits_changeText h.idle hid.1 hid.2 hvalue hmask hknown
      have hlt : i < w.lastValues.length := by
        rw [h.length]
        exact (List.getElem?_eq_some_iff.mp hi).1
      refine ⟨d.change signal.vcdId text, (value, mask), hheld, ?_, ⟨rfl, ?_⟩, rfl,
        List.getElem?_set_self hlt, fun j hj => List.getElem?_set_ne (Ne.symm hj)⟩
      · exact
          { header := h.header
            declares := h.declares
            distinct := h.distinct
            ids := h.ids
            length := by
              rw [List.length_set]
              exact h.length
            idle := rfl
            time := h.time
            emits := h.emits.append htext
            times := by
              intro c hc
              rcases List.mem_append.mp hc with hc | hc
              · exact h.times c hc
              · rw [List.mem_singleton.mp hc]
                exact le_rfl
            last := by
              intro j other hj
              dsimp only at hj ⊢
              by_cases hij : i = j
              · subst hij
                obtain rfl : signal = other := Option.some.inj (hi.symm.trans hj)
                rw [List.getElem?_set_self hlt]
                exact congrArg some ((valueAt_change_self le_rfl _ _ _).trans
                  (congrArg some hdigits)).symm
              · have hne : signal.vcdId ≠ other.vcdId := fun heq =>
                  hij (h.distinct i j signal other hi hj heq)
                rw [List.getElem?_set_ne hij, h.last j other hj]
                exact congrArg some (valueAt_change_ne hne _ _ _).symm }
      · exact fun id width t ht => valueAt_change_before ht _ _ _ _

/-- All signals in a row. -/
theorem Running.dumpSignals (h : Running signals w d) {entries : List (VcdWriterSignal × Nat)}
    (hentries : ∀ e ∈ entries, w.signals[e.2]? = some e.1) (hnodup : (entries.map Prod.snd).Nodup)
    (hrun : entries.foldlM (VcdWriter.dumpSignal dump.memory dump.external) w = .ok w') :
    ∃ d', Running signals w' d' ∧ SameBefore d.time w w' d d' ∧ d'.time = d.time ∧
      (∀ e ∈ entries, ∃ current, held dump e.1 = some current ∧
        w'.lastValues[e.2]? = some (some current)) ∧
      ∀ j, j ∉ entries.map Prod.snd → w'.lastValues[j]? = w.lastValues[j]? := by
  induction entries generalizing w d with
  | nil =>
    obtain rfl := Except.ok.inj hrun
    exact ⟨d, h, ⟨rfl, fun _ _ _ _ => rfl⟩, rfl, by simp, fun _ _ => rfl⟩
  | cons e entries ih =>
    rw [List.foldlM_cons] at hrun
    cases hfirst : VcdWriter.dumpSignal dump.memory dump.external w e with
    | error error =>
      rw [hfirst] at hrun
      cases hrun
    | ok mid =>
      rw [hfirst] at hrun
      obtain ⟨d₁, current, hheld, hmid, hsame, htime, hat, hother⟩ :=
        h.dumpSignal (hentries e List.mem_cons_self) hfirst
      rw [List.map_cons, List.nodup_cons] at hnodup
      obtain ⟨d₂, hd₂, hsame₂, htime₂, hall, hrest⟩ := ih hmid
        (fun e' he' => by rw [hsame.signals]; exact hentries e' (List.mem_cons_of_mem _ he'))
        hnodup.2 hrun
      refine ⟨d₂, hd₂, ⟨hsame₂.signals.trans hsame.signals, ?_⟩, htime₂.trans htime, ?_, ?_⟩
      · intro id width t ht
        rw [hsame₂.before id width t (by rwa [htime]), hsame.before id width t ht]
      · intro e' he'
        rcases List.mem_cons.mp he' with rfl | he'
        · exact ⟨current, hheld, by rw [hrest _ hnodup.1, hat]⟩
        · exact hall e' he'
      · intro j hj
        rw [List.map_cons, List.mem_cons, not_or] at hj
        rw [hrest j hj.2, hother j hj.1]

/-- The time stamp of a dump that is not before the last one. -/
theorem Running.stamp (h : Running signals w d) {timestamp : Nat} (hle : w.timestamp ≤ timestamp) :
    ∃ d', Running signals (w.stamp timestamp) d' ∧ d'.time = timestamp ∧
      SameBefore timestamp w (w.stamp timestamp) d d' := by
  unfold VcdWriter.stamp
  split
  · have hnew : ∀ c ∈ d.changes, c.time ≤ timestamp := fun c hc =>
      (h.times c hc).trans (h.time.le.trans hle)
    refine ⟨{ d with time := timestamp }, ?_, rfl, rfl, fun _ _ _ _ => rfl⟩
    exact
      { h with
        time := rfl
        emits := h.emits.append (emits_stamp h.idle timestamp)
        times := hnew
        last := fun i signal hi => (h.last i signal hi).trans
          (congrArg some (valueAt_congr rfl h.times hnew _ _).symm) }
  · exact ⟨d, h, by rw [h.time]; omega, rfl, fun _ _ _ _ => rfl⟩

/-- A whole dump by a writer behind its header. -/
theorem Running.dumpWithExternal (h : Running signals w d) (hle : w.timestamp ≤ dump.timestamp)
    (hrun : w.dumpWithExternal dump = .ok w') :
    ∃ d', Running signals w' d' ∧ d'.time = dump.timestamp ∧
      SameBefore dump.timestamp w w' d d' ∧
      ∀ (i : Nat) (signal : VcdWriterSignal), w'.signals[i]? = some signal →
        ∃ current, held dump signal = some current ∧
        d'.valueAt signal.vcdId signal.width dump.timestamp = some current := by
  unfold VcdWriter.dumpWithExternal at hrun
  split at hrun
  · cases hrun
  dsimp only at hrun
  rw [VcdWriter.writeHeader, if_pos h.header] at hrun
  obtain ⟨d₁, hd₁, htime₁, hsame₁⟩ := h.stamp hle
  obtain ⟨d₂, hd₂, hsame₂, htime₂, hall, -⟩ := hd₁.dumpSignals
    (fun e he => (List.mem_zipIdx_iff_getElem? .. ).mp he) (by simp [List.nodup_range']) hrun
  rw [htime₁] at hsame₂ htime₂
  refine ⟨d₂, hd₂, htime₂, ⟨hsame₂.signals.trans hsame₁.signals, ?_⟩, ?_⟩
  · intro id width t ht
    rw [hsame₂.before id width t ht, hsame₁.before id width t ht]
  · intro i signal hi
    rw [hsame₂.signals] at hi
    obtain ⟨current, hheld, hlast⟩ := hall (signal, i) (List.mem_zipIdx_iff_getElem?.mpr hi)
    refine ⟨current, hheld, ?_⟩
    rw [← hsame₂.signals] at hi
    have hkept := hd₂.last i signal hi
    dsimp only at hlast
    rw [hlast, htime₂, Option.some.injEq] at hkept
    exact hkept.symm

end Run
end Celox.Vcd

/-! ## The recorded history

From a new writer on: the header gives every signal its identifier, and at each dumped time the
file holds for each signal what the last dump of that time held. -/
namespace Celox.Vcd
open Celox.Text

/-- A writer before its first dump. -/
structure Fresh (w : VcdWriter) : Prop where
  written : w.written = []
  length : w.lastValues.length = w.signals.length
  lastValues : ∀ value ∈ w.lastValues, value = none
  timestamp : w.timestamp = 0
  header : w.headerWritten = false

theorem fresh_new (descs : List VcdSignalDesc) : Fresh (.new descs) where
  written := rfl
  length := by simp [VcdWriter.new]
  lastValues := by simp [VcdWriter.new]
  timestamp := rfl
  header := rfl

theorem Fresh.pushExternal {w : VcdWriter} (h : Fresh w) (desc : VcdExternalSignalDesc) :
    Fresh (w.pushExternal desc) where
  written := h.written
  length := by
    rw [VcdWriter.pushExternal, List.length_append, List.length_append, h.length]
    rfl
  lastValues := by
    intro value hvalue
    rcases List.mem_append.mp hvalue with hvalue | hvalue
    · exact h.lastValues value hvalue
    · exact List.mem_singleton.mp hvalue
  timestamp := h.timestamp
  header := h.header

theorem Fresh.addExternalSignals {w w' : VcdWriter} (h : Fresh w)
    {descs : List VcdExternalSignalDesc} (hadd : w.addExternalSignals descs = .ok w') :
    Fresh w' := by
  have hpush : ∀ (descs : List VcdExternalSignalDesc) {w : VcdWriter}, Fresh w →
      Fresh (descs.foldl VcdWriter.pushExternal w) := by
    intro descs
    induction descs with
    | nil => exact fun h => h
    | cons desc descs ih => exact fun h => ih (h.pushExternal desc)
  unfold VcdWriter.addExternalSignals at hadd
  dsimp only at hadd
  split at hadd
  · rwa [← Except.ok.inj hadd]
  · split at hadd
    · rwa [← Except.ok.inj hadd]
    · split at hadd
      · cases hadd
      · rw [← Except.ok.inj hadd]
        exact hpush descs h

theorem Fresh.addAll {w w' : VcdWriter} (h : Fresh w) {batches : List (List VcdExternalSignalDesc)}
    (hadd : batches.foldlM VcdWriter.addExternalSignals w = .ok w') : Fresh w' := by
  induction batches generalizing w with
  | nil => rwa [← Except.ok.inj hadd]
  | cons descs batches ih =>
    rw [List.foldlM_cons] at hadd
    cases hfirst : w.addExternalSignals descs with
    | error error =>
      rw [hfirst] at hadd
      cases hadd
    | ok mid =>
      rw [hfirst] at hadd
      exact ih (h.addExternalSignals hfirst) hadd

/-- The header makes a fresh writer a running one. -/
theorem Fresh.writeHeader {w : VcdWriter} (h : Fresh w) (time : LocalTime) :
    ∃ d, Running w.signals (w.writeHeader time) d ∧ (w.writeHeader time).timestamp = 0 ∧
      (w.writeHeader time).externalCount = w.externalCount := by
  have hstart : Declaring w [] [] (w.write (VcdWriter.preamble time), 0) .start :=
    { count := rfl
      length := rfl
      assigned := by simp
      untouched := fun _ _ => rfl
      vars := by simp
      idle := rfl
      scopes_eq := rfl
      time := rfl
      changes := rfl
      emits := by
        rw [VcdWriter.write, h.written]
        exact emits_preamble time
      lastValues := rfl
      timestamp := rfl
      externalCount := rfl }
  have hperm := VcdWriter.scopeGroups_perm w.signals
  obtain ⟨d, hd⟩ := hstart.writeScopes
    (by rw [List.nil_append]; exact hperm.nodup_iff.mpr List.nodup_range)
    fun g hg i hi => VcdWriter.mem_scopeGroups hg hi
  rw [List.nil_append] at hd
  have hposition : ∀ (i : Nat) (signal : VcdWriterSignal), w.signals[i]? = some signal →
      ∃ p : Nat, ((VcdWriter.scopeGroups w.signals).flatMap Prod.snd)[p]? = some i := by
    intro i signal hi
    have hlt := (List.getElem?_eq_some_iff.mp hi).1
    exact List.mem_iff_getElem?.mp (hperm.mem_iff.mpr (List.mem_range.mpr hlt))
  rw [VcdWriter.writeHeader, if_neg (by rw [h.header]; decide)]
  dsimp only
  generalize (VcdWriter.scopeGroups w.signals).foldl VcdWriter.writeScope _ = state at hd ⊢
  generalize (VcdWriter.scopeGroups w.signals).flatMap Prod.snd = order at hd hposition
  have hassigned : ∀ (i : Nat) (signal : VcdWriterSignal), state.1.signals[i]? = some signal →
      ∃ p : Nat, order[p]? = some i ∧ signal.vcdId = generateVcdId p := by
    intro i signal hi
    have hlt := (List.getElem?_eq_some_iff.mp hi).1
    rw [hd.length] at hlt
    obtain ⟨p, hp⟩ := hposition i w.signals[i] (List.getElem?_eq_getElem hlt)
    rw [hd.assigned i p hp _ (List.getElem?_eq_getElem hlt), Option.some.injEq] at hi
    exact ⟨p, hp, by rw [← hi]⟩
  refine ⟨d, ?_, hd.timestamp.trans h.timestamp, hd.externalCount⟩
  exact
    { header := rfl
      declares := by
        intro i signal hi
        obtain ⟨p, hp⟩ := hposition i signal hi
        exact ⟨p, hd.assigned i p hp signal hi, hd.vars i p hp signal hi⟩
      distinct := by
        intro i j si sj hi hj heq
        obtain ⟨p, hp, hsi⟩ := hassigned i si hi
        obtain ⟨q, hq, hsj⟩ := hassigned j sj hj
        rw [hsi, hsj] at heq
        rw [generateVcdId_injective heq, hq] at hp
        exact (Option.some.inj hp).symm
      ids := by
        intro signal hsignal
        obtain ⟨i, hi⟩ := List.mem_iff_getElem?.mp hsignal
        obtain ⟨p, -, hid⟩ := hassigned i signal hi
        rw [hid]
        exact ⟨plain_generateVcdId p, generateVcdId_ne_nil p⟩
      length := by
        rw [VcdWriter.write, hd.lastValues, h.length]
        exact hd.length.symm
      idle := hd.idle
      time := by
        rw [hd.time, VcdWriter.write, hd.timestamp, h.timestamp]
      emits := hd.emits.append (emits_definitions hd.idle)
      times := by
        rw [hd.changes]
        simp
      last := by
        intro i signal hi
        have hlt := (List.getElem?_eq_some_iff.mp hi).1
        have hlt' : i < w.lastValues.length := by
          rw [h.length, ← hd.length]
          exact hlt
        have hnone := h.lastValues _ (List.getElem_mem hlt')
        rw [VcdWriter.write, hd.lastValues, List.getElem?_eq_getElem hlt', hnone,
          Decoder.valueAt, hd.changes]
        rfl }

/-- The last dump of a time. -/
def lastDump (dumps : List VcdWriter.Dump) (time : Nat) : Option VcdWriter.Dump :=
  (dumps.filter fun dump => dump.timestamp = time).getLast?

theorem lastDump_append (dumps : List VcdWriter.Dump) (dump : VcdWriter.Dump) (time : Nat) :
    lastDump (dumps ++ [dump]) time =
      if dump.timestamp = time then some dump else lastDump dumps time := by
  rw [lastDump, List.filter_append]
  split
  · rename_i h
    simp [h]
  · rename_i h
    simp [h, lastDump]

/-- A run up to its last dump. -/
structure Recorded (start : List VcdWriterSignal) (dumps : List VcdWriter.Dump) (w : VcdWriter)
    (d : Decoder) : Prop where
  running : Running start w d
  /-- No dump lies behind the last one. -/
  timestamp : ∀ dump ∈ dumps, dump.timestamp ≤ w.timestamp
  last : w.timestamp = 0 ∨ ∃ dump ∈ dumps, dump.timestamp = w.timestamp
  history : ∀ (i : Nat) (signal : VcdWriterSignal), w.signals[i]? = some signal →
    ∀ time dump, lastDump dumps time = some dump →
      ∃ current, held dump signal = some current ∧
        d.valueAt signal.vcdId signal.width time = some current

theorem Recorded.dump {start : List VcdWriterSignal} {dumps : List VcdWriter.Dump}
    {w w' : VcdWriter} {d : Decoder} (h : Recorded start dumps w d) {dump : VcdWriter.Dump}
    (hle : ∀ earlier ∈ dumps, earlier.timestamp ≤ dump.timestamp)
    (hrun : w.dumpWithExternal dump = .ok w') : ∃ d', Recorded start (dumps ++ [dump]) w' d' := by
  have hnow : w.timestamp ≤ dump.timestamp := by
    rcases h.last with hzero | ⟨earlier, hmem, heq⟩
    · omega
    · rw [← heq]
      exact hle earlier hmem
  obtain ⟨d', hd', htime, hsame, hvalues⟩ := h.running.dumpWithExternal hnow hrun
  have hstamp : w'.timestamp = dump.timestamp := by rw [← hd'.time, htime]
  refine ⟨d', hd', ?_, ?_, ?_⟩
  · intro other hother
    rw [hstamp]
    rcases List.mem_append.mp hother with hother | hother
    · exact hle other hother
    · rw [List.mem_singleton.mp hother]
  · exact .inr ⟨dump, by simp, hstamp.symm⟩
  · intro i signal hi time last hlast
    rw [lastDump_append] at hlast
    split at hlast
    · rename_i heq
      obtain rfl := Option.some.inj hlast
      rw [← heq]
      exact hvalues i signal hi
    · rename_i hne
      rw [hsame.signals] at hi
      obtain ⟨current, hheld, hat⟩ := h.history i signal hi time last hlast
      have hmem := List.mem_filter.mp (List.mem_of_getLast? hlast)
      have hearlier := hle last hmem.1
      have htime' : last.timestamp = time := of_decide_eq_true hmem.2
      exact ⟨current, hheld, by rw [hsame.before _ _ _ (by omega), hat]⟩

/-- The first dump, and every one after it. -/
theorem Fresh.dumpAll {w w' : VcdWriter} (h : Fresh w) {dumps : List VcdWriter.Dump}
    (hne : dumps ≠ []) (hsorted : dumps.Pairwise fun a b => a.timestamp ≤ b.timestamp)
    (hrun : w.dumpAll dumps = .ok w') : ∃ d, Recorded w.signals dumps w' d := by
  induction dumps using List.reverseRecOn generalizing w' with
  | nil => exact absurd rfl hne
  | append_singleton dumps dump ih =>
    rw [VcdWriter.dumpAll, List.foldlM_append] at hrun
    rw [List.pairwise_append] at hsorted
    have hle : ∀ earlier ∈ dumps, earlier.timestamp ≤ dump.timestamp := fun earlier hmem =>
      hsorted.2.2 earlier hmem dump List.mem_cons_self
    cases hmid : dumps.foldlM VcdWriter.dumpWithExternal w with
    | error error =>
      rw [hmid] at hrun
      cases hrun
    | ok mid =>
      rw [hmid] at hrun
      have hlast : mid.dumpWithExternal dump = .ok w' := by
        cases hdump : mid.dumpWithExternal dump with
        | error error =>
          simp only [bind, Except.bind, List.foldlM_cons, hdump] at hrun
          cases hrun
        | ok last =>
          simp only [bind, Except.bind, List.foldlM_cons, hdump] at hrun
          exact hrun
      by_cases hempty : dumps = []
      · subst hempty
        obtain rfl := Except.ok.inj hmid
        obtain ⟨d, hd, hzero, hcount⟩ := h.writeHeader dump.time
        have hstart : Recorded w.signals [] (w.writeHeader dump.time) d :=
          { running := hd
            timestamp := by simp
            last := .inl hzero
            history := by
              intro i signal hi time last hlast
              cases hlast }
        refine hstart.dump hle ?_
        rw [VcdWriter.dumpWithExternal] at hlast ⊢
        rwa [hcount, VcdWriter.writeHeader, if_pos hd.header]
      · obtain ⟨d, hd⟩ := ih hempty hsorted.1 hmid
        exact hd.dump hle hlast

/-- A four-bit counter with an unknown mask behind it. -/
def counter : VcdSignalDesc where
  scope := ⟨['t', 'o', 'p'], by decide, plain_of_decide (by decide)⟩
  name := ⟨['n'], by decide, plain_of_decide (by decide)⟩
  offset := 0
  width := 4
  is4state := true

/-- Reset at time 0, counted to 9 at time 5, its low bit unknown at time 5 again. -/
def counterDumps : List VcdWriter.Dump :=
  [⟨0, [0, 0], [], ⟨2024, 1, 1, 0, 0, 0⟩⟩, ⟨5, [9, 0], [], ⟨2024, 1, 1, 0, 0, 0⟩⟩,
    ⟨5, [9, 1], [], ⟨2024, 1, 1, 0, 0, 0⟩⟩]

end Celox.Vcd
