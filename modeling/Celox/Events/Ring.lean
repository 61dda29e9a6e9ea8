import Celox.Concurrent.Reader

/-! # The runtime event ring

The generated code appends events to a ring of slots and the simulator drains it. A slot holds
a sequence word, the site, the argument count and the argument words; word 0 of the buffer is the
global sequence. Offsets are byte offsets of 64-bit words. -/
namespace Celox.Events
open Celox.Concurrent

def runtimeEventCapacity : Nat := 1024
def runtimeEventWriting : UInt64 := 0xffffffffffffffff
def runtimeEventHeaderSize : Nat := 8
def runtimeEventSlotSeqOffset : Nat := 0
def runtimeEventSlotSiteOffset : Nat := 8
def runtimeEventSlotArgCountOffset : Nat := 16
def runtimeEventSlotPayloadOffset : Nat := 24

/-! ## Layout -/

/-- What the ring reads of a site. -/
structure RuntimeEventSite where
  argWidths : List Nat
  argSigned : List Bool
  argIsString : List Bool

structure RuntimeEventArgLayout where
  valueWordOffset : Nat
  maskWordOffset : Nat
  wordCount : Nat

structure RuntimeEventSiteLayout where
  args : List RuntimeEventArgLayout
  payloadWords : Nat

def argWordCount (width : Nat) : Nat := max ((width + 63) / 64) 1

/-- The arguments of one site from word `payloadWords` on, with the words used up to their end. -/
def argLayouts : (payloadWords : Nat) → List Nat → List RuntimeEventArgLayout × Nat
  | payloadWords, [] => ([], payloadWords)
  | payloadWords, width :: widths =>
    let wordCount := argWordCount width
    let (args, total) := argLayouts (payloadWords + wordCount + wordCount) widths
    (⟨payloadWords, payloadWords + wordCount, wordCount⟩ :: args, total)

def buildRuntimeEventSiteLayout (site : RuntimeEventSite) : RuntimeEventSiteLayout :=
  ⟨(argLayouts 0 site.argWidths).1, (argLayouts 0 site.argWidths).2⟩

/-- The part of the memory layout that describes the event buffer. -/
structure EventLayout where
  capacity : Nat
  slotSize : Nat
  bufferSize : Nat
  siteLayouts : List RuntimeEventSiteLayout

def buildEventLayout (sites : List RuntimeEventSite) : EventLayout :=
  let siteLayouts := sites.map buildRuntimeEventSiteLayout
  let slotSize := runtimeEventSlotPayloadOffset +
    ((siteLayouts.map (·.payloadWords)).max?.getD 0) * 8
  { capacity := runtimeEventCapacity
    slotSize
    bufferSize := runtimeEventHeaderSize + runtimeEventCapacity * slotSize
    siteLayouts }

/-- Where the slot of a sequence number starts. -/
def EventLayout.slotBase (layout : EventLayout) (seq : UInt64) : Nat :=
  runtimeEventHeaderSize + (seq.toNat &&& (layout.capacity - 1)) * layout.slotSize

/-- The assertions of `load_atomic_u64` and `read_u64`. -/
def EventLayout.Readable (layout : EventLayout) (offset : Nat) : Prop :=
  offset % 8 = 0 ∧ offset + 8 ≤ layout.bufferSize

/-! ## The writer -/

/-- The words of one argument register: its value chunks and its mask chunks. -/
structure ArgWords where
  values : List UInt64
  masks : List UInt64

structure WrittenEvent where
  siteId : UInt32
  args : List ArgWords
  /-- A slice length is a machine word. -/
  args_lt : args.length < 2 ^ 64

/-- The stores of one argument, relative to the slot. A chunk the register lacks is written as
zero. -/
def argStores (layout : RuntimeEventArgLayout) (arg : ArgWords) : List (Nat × UInt64) :=
  (List.range layout.wordCount).flatMap fun wordIdx =>
    [(runtimeEventSlotPayloadOffset + (layout.valueWordOffset + wordIdx) * 8,
      arg.values[wordIdx]?.getD 0),
     (runtimeEventSlotPayloadOffset + (layout.maskWordOffset + wordIdx) * 8,
      arg.masks[wordIdx]?.getD 0)]

/-- What is stored between marking the slot and publishing it. -/
def EventLayout.payloadStores (layout : EventLayout) (event : WrittenEvent) :
    List (Nat × UInt64) :=
  (runtimeEventSlotSiteOffset, event.siteId.toUInt64) ::
  (runtimeEventSlotArgCountOffset, UInt64.ofNat event.args.length) ::
  match layout.siteLayouts[event.siteId.toNat]? with
  | none => []
  | some site => (site.args.zip event.args).flatMap fun (argLayout, arg) => argStores argLayout arg

/-- Where the writer is in the event it writes: it has loaded the sequence number, marked the
slot and still has stores to make, or published the slot. -/
inductive Phase where
  | idle
  | loaded (seq : UInt64) (event : WrittenEvent)
  | filling (seq : UInt64) (event : WrittenEvent) (stores : List (Nat × UInt64))
  | published (seq : UInt64) (event : WrittenEvent)

abbrev Words := Nat → UInt64

def Words.set (mem : Words) (offset : Nat) (value : UInt64) : Words :=
  fun o => if o = offset then value else mem o

/-- The buffer, the writer's place, and the events whose global sequence is published. -/
structure Writer where
  mem : Words
  phase : Phase
  written : List WrittenEvent

/-- One word-level step of the generated code. A site without a layout is refused when the code
is generated. -/
inductive WriterStep (layout : EventLayout) : Writer → Writer → Prop where
  | load (mem : Words) (written : List WrittenEvent) (event : WrittenEvent)
      (hsite : event.siteId.toNat < layout.siteLayouts.length) :
      WriterStep layout ⟨mem, .idle, written⟩ ⟨mem, .loaded (mem 0) event, written⟩
  | mark (mem : Words) (written : List WrittenEvent) (seq : UInt64) (event : WrittenEvent) :
      WriterStep layout ⟨mem, .loaded seq event, written⟩
        ⟨mem.set (layout.slotBase seq + runtimeEventSlotSeqOffset) runtimeEventWriting,
          .filling seq event (layout.payloadStores event), written⟩
  | store (mem : Words) (written : List WrittenEvent) (seq : UInt64) (event : WrittenEvent)
      (offset : Nat) (value : UInt64) (stores : List (Nat × UInt64)) :
      WriterStep layout ⟨mem, .filling seq event ((offset, value) :: stores), written⟩
        ⟨mem.set (layout.slotBase seq + offset) value, .filling seq event stores, written⟩
  | publishSlot (mem : Words) (written : List WrittenEvent) (seq : UInt64)
      (event : WrittenEvent) :
      WriterStep layout ⟨mem, .filling seq event [], written⟩
        ⟨mem.set (layout.slotBase seq + runtimeEventSlotSeqOffset) seq, .published seq event,
          written⟩
  | publishGlobal (mem : Words) (written : List WrittenEvent) (seq : UInt64)
      (event : WrittenEvent) :
      WriterStep layout ⟨mem, .published seq event, written⟩
        ⟨mem.set 0 (seq + 1), .idle, written ++ [event]⟩

/-! ## The reader -/

structure RuntimeEventArgValue where
  values : List UInt64
  masks : List UInt64
  width : Nat
  signed : Bool
  isString : Bool

inductive RawRuntimeEvent where
  | event (siteId : Nat) (args : List RuntimeEventArgValue)
  | missed (count : UInt64)

/-- An argument of a site from its words. -/
def RuntimeEventSite.argValue (site : Option RuntimeEventSite) (idx : Nat)
    (words : List (UInt64 × UInt64)) : RuntimeEventArgValue :=
  { values := words.map Prod.fst
    masks := words.map Prod.snd
    width := (site.bind (·.argWidths[idx]?)).getD 64
    signed := (site.bind (·.argSigned[idx]?)).getD false
    isString := (site.bind (·.argIsString[idx]?)).getD false }

/-- The words of one argument, value and mask in turn. -/
def readArg (slotBase : Nat) (argLayout : RuntimeEventArgLayout) :
    Reader UInt64 (List (UInt64 × UInt64)) :=
  Reader.forEach (fun wordIdx => do
    let value ← Reader.word (slotBase + runtimeEventSlotPayloadOffset +
      (argLayout.valueWordOffset + wordIdx) * 8)
    let mask ← Reader.word (slotBase + runtimeEventSlotPayloadOffset +
      (argLayout.maskWordOffset + wordIdx) * 8)
    pure (value, mask)) (List.range argLayout.wordCount)

/-- The first `argCount` arguments that the site's layout has. -/
def readArgs (site : Option RuntimeEventSite) (siteLayout : Option RuntimeEventSiteLayout)
    (slotBase argCount : Nat) : Reader UInt64 (List RuntimeEventArgValue) :=
  match siteLayout with
  | none => pure []
  | some siteLayout =>
    Reader.forEach (fun (argLayout, idx) => do
      let words ← readArg slotBase argLayout
      pure (RuntimeEventSite.argValue site idx words)) (siteLayout.args.take argCount).zipIdx

/-- The loop of a drain; `fuel` is the number of sequence numbers left. -/
def collectLoop (layout : EventLayout) (sites : List RuntimeEventSite) (writeSeq : UInt64) :
    (fuel : Nat) → (readSeq : UInt64) → List RawRuntimeEvent →
      Reader UInt64 (UInt64 × List RawRuntimeEvent)
  | 0, readSeq, events => pure (readSeq, events)
  | fuel + 1, readSeq, events =>
    if readSeq < writeSeq then do
      let slotBase := layout.slotBase readSeq
      let published ← Reader.word (slotBase + runtimeEventSlotSeqOffset)
      if published = runtimeEventWriting ∨ published ≠ readSeq then
        pure (readSeq, events)
      else do
        let siteWord ← Reader.word (slotBase + runtimeEventSlotSiteOffset)
        let site := sites[siteWord.toNat]?
        let countWord ← Reader.word (slotBase + runtimeEventSlotArgCountOffset)
        let argCount := (site.map fun s => min countWord.toNat s.argWidths.length).getD 0
        let args ← readArgs site layout.siteLayouts[siteWord.toNat]? slotBase argCount
        let publishedAfter ← Reader.word (slotBase + runtimeEventSlotSeqOffset)
        if publishedAfter = runtimeEventWriting ∨ publishedAfter ≠ readSeq then
          pure (readSeq, events)
        else
          collectLoop layout sites writeSeq fuel (readSeq + 1)
            (if site.isSome then events ++ [.event siteWord.toNat args] else events)
    else pure (readSeq, events)

/-- `collect_runtime_events` on a buffer of the layout's size: the next sequence number to read
and the events. -/
def collectRuntimeEvents (layout : EventLayout) (sites : List RuntimeEventSite)
    (readSeq : UInt64) : Reader UInt64 (UInt64 × List RawRuntimeEvent) :=
  if runtimeEventHeaderSize > layout.bufferSize ∨ layout.capacity = 0 then
    pure (readSeq, [])
  else do
    let writeSeq ← Reader.word 0
    let capacity := UInt64.ofNat layout.capacity
    if readSeq + capacity < writeSeq then
      let newRead := writeSeq - capacity
      collectLoop layout sites writeSeq (writeSeq.toNat - newRead.toNat) newRead
        [.missed (newRead - readSeq)]
    else
      collectLoop layout sites writeSeq (writeSeq.toNat - readSeq.toNat) readSeq []

/-! ## The system -/

/-- The writer, the drain under way, and what all drains so far have delivered. -/
structure System where
  writer : Writer
  reader : Option (Reader UInt64 (UInt64 × List RawRuntimeEvent))
  readSeq : UInt64
  delivered : List RawRuntimeEvent

def System.init : System := ⟨⟨fun _ => 0, .idle, []⟩, none, 0, []⟩

inductive SystemStep (sites : List RuntimeEventSite) : System → System → Prop where
  | write {w w' : Writer} {reader : Option (Reader UInt64 (UInt64 × List RawRuntimeEvent))}
      {readSeq : UInt64} {delivered : List RawRuntimeEvent}
      (h : WriterStep (buildEventLayout sites) w w') :
      SystemStep sites ⟨w, reader, readSeq, delivered⟩ ⟨w', reader, readSeq, delivered⟩
  | drain {w : Writer} {readSeq : UInt64} {delivered : List RawRuntimeEvent} :
      SystemStep sites ⟨w, none, readSeq, delivered⟩
        ⟨w, some (collectRuntimeEvents (buildEventLayout sites) sites readSeq), readSeq, delivered⟩
  | read {w : Writer} {readSeq : UInt64} {delivered : List RawRuntimeEvent} {offset : Nat}
      {k : UInt64 → Reader UInt64 (UInt64 × List RawRuntimeEvent)}
      (h : (buildEventLayout sites).Readable offset) :
      SystemStep sites ⟨w, some (.read offset k), readSeq, delivered⟩
        ⟨w, some (k (w.mem offset)), readSeq, delivered⟩
  | finish {w : Writer} {readSeq readSeq' : UInt64} {delivered events : List RawRuntimeEvent} :
      SystemStep sites ⟨w, some (.ret (readSeq', events)), readSeq, delivered⟩
        ⟨w, none, readSeq', delivered ++ events⟩

/-- The states of every interleaving of one writer with one drain after the other. -/
def Reachable (sites : List RuntimeEventSite) : System → Prop :=
  Relation.ReflTransGen (SystemStep sites) System.init

end Celox.Events
