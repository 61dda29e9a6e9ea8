import Celox.Data.SharedCells

/-! # Symbolic stores

`celox-slt/src/symbolic_store.rs`: maps from addresses to ranges whose forks share a table of
pages, the pages and the ranges until one of them writes. The ranges are values of any type. -/
namespace Celox.Slt
open Celox.Shared

/-- `STORE_SHARDS`. -/
abbrev storeShards : Nat := 64

/-- Keys with the shard their hash selects (`shard_index`). -/
class ShardHash (A : Type) where
  shardIndex : A → Fin storeShards

export ShardHash (shardIndex)

abbrev StoreShard (A : Type) := AList fun _ : A => Ptr

abbrev StorePages := Fin storeShards → Option Ptr

structure SymbolicStore where
  entries : Option Ptr
  len : Nat
  deriving DecidableEq

/-- All stores of a program, by the order of their creation, and the allocations behind their
`Arc`s. A store that was dropped is `none`. `held` are the `Arc`s that `insert` and `remove`
returned and the caller still has. -/
structure Stores (A V : Type) where
  tables : Ptr → StorePages
  shards : Ptr → StoreShard A
  ranges : Ptr → Option V
  next : Ptr
  stores : Nat → Option SymbolicStore
  created : Nat
  held : List Ptr

namespace Stores
variable {A V : Type}

def empty : Stores A V where
  tables _ := fun _ => none
  shards _ := ∅
  ranges _ := none
  next := 0
  stores _ := none
  created := 0
  held := []

/-! ## The places that hold a pointer -/

/-- The page table of a store. -/
def table (w : Stores A V) (s : Nat) : Option Ptr := (w.stores s).bind (·.entries)

def pages (w : Stores A V) (s : Nat) : Option StorePages := (w.table s).map w.tables

def shardPtr (w : Stores A V) (place : Nat × Fin storeShards) : Option Ptr :=
  (w.pages place.1).bind (· place.2)

def shard (w : Stores A V) (place : Nat × Fin storeShards) : Option (StoreShard A) :=
  (w.shardPtr place).map w.shards

/-- The page tables some store has. -/
def liveTables (w : Stores A V) : List Ptr := (List.range w.created).filterMap w.table

/-- The pages some table has. -/
def liveShards (w : Stores A V) : List Ptr :=
  w.liveTables.flatMap fun p => (List.finRange storeShards).filterMap (w.tables p)

/-- Another store has the page table that store `s` has. -/
def tableShared (w : Stores A V) (s : Nat) (p : Ptr) : Bool :=
  (List.range w.created).any fun other => other ≠ s && w.table other = some p

/-- A page of a table is elsewhere in it or in another table. -/
def shardShared (w : Stores A V) (p : Ptr) (i : Fin storeShards) (q : Ptr) : Bool :=
  w.liveTables.any fun p' => (List.finRange storeShards).any fun j =>
    (p', j) ≠ (p, i) && w.tables p' j = some q

/-! ## Making an `Arc` one's own -/

/-- A new page table for store `s`. -/
def newTable (w : Stores A V) (s : Nat) (t : StorePages) : Stores A V × Ptr :=
  ({ w with
      tables := Function.update w.tables w.next t
      stores := Function.update w.stores s
        ((w.stores s).map fun st => { st with entries := some w.next })
      next := w.next + 1 }, w.next)

/-- What position `i` of table `p` points to. -/
def setPage (w : Stores A V) (p : Ptr) (i : Fin storeShards) (page : Option Ptr) : Stores A V :=
  { w with tables := Function.update w.tables p (Function.update (w.tables p) i page) }

/-- A new page at position `i` of table `p`. -/
def newShard (w : Stores A V) (p : Ptr) (i : Fin storeShards) (sh : StoreShard A) :
    Stores A V × Ptr :=
  ({ w.setPage p i (some w.next) with
      shards := Function.update w.shards w.next sh
      next := w.next + 1 }, w.next)

/-- `Arc::make_mut` of the page table, which is allocated first if there is none. -/
def ownPages (w : Stores A V) (s : Nat) : Stores A V × Ptr :=
  match w.table s with
  | none => w.newTable s fun _ => none
  | some p => if w.tableShared s p then w.newTable s (w.tables p) else (w, p)

/-- `Arc::make_mut` of a page, which is allocated first if there is none. -/
def ownShard (w : Stores A V) (p : Ptr) (i : Fin storeShards) : Stores A V × Ptr :=
  match w.tables p i with
  | none => w.newShard p i ∅
  | some q => if w.shardShared p i q then w.newShard p i (w.shards q) else (w, q)

variable [DecidableEq A]

/-- A range is held by the caller, or has another entry in this page or another one. -/
def rangeShared (w : Stores A V) (q : Ptr) (key : A) (r : Ptr) : Bool :=
  w.held.contains r || w.liveShards.any fun q' => (w.shards q').entries.any fun e =>
    (q', e.1) ≠ (q, key) && e.2 = r

/-- `Arc::new` of a range. -/
def newRange (w : Stores A V) (value : Option V) : Stores A V × Ptr :=
  ({ w with ranges := Function.update w.ranges w.next value, next := w.next + 1 }, w.next)

def setShard (w : Stores A V) (q : Ptr) (sh : StoreShard A) : Stores A V :=
  { w with shards := Function.update w.shards q sh }

/-- The entry of `key` in page `q` becomes `r`. -/
def setEntry (w : Stores A V) (q : Ptr) (key : A) (r : Ptr) : Stores A V :=
  w.setShard q ((w.shards q).insert key r)

/-- `Arc::make_mut` of the range `r` that `key` has in page `q`. -/
def ownRange (w : Stores A V) (q : Ptr) (key : A) (r : Ptr) : Stores A V × Ptr :=
  if w.rangeShared q key r then
    let (w, copy) := w.newRange (w.ranges r)
    (w.setEntry q key copy, copy)
  else (w, r)

variable [ShardHash A]

/-- `entry_arc`. -/
def entryArc (w : Stores A V) (s : Nat) (key : A) : Option Ptr :=
  (w.shard (s, shardIndex key)).bind (·.lookup key)

def get (w : Stores A V) (s : Nat) (key : A) : Option V := (w.entryArc s key).bind w.ranges

/-! ## The operations -/

/-- `Arc::make_mut` of the page table and of the page of `key`. -/
def ownPage (w : Stores A V) (s : Nat) (key : A) : Stores A V × Ptr :=
  let (w, p) := w.ownPages s
  w.ownShard p (shardIndex key)

/-- Store `s` counts its keys anew. -/
def mapLen (w : Stores A V) (s : Nat) (f : Nat → Nat) : Stores A V :=
  { w with
    stores := Function.update w.stores s
      ((w.stores s).map fun st => { st with len := f st.len }) }

/-- `HashMap::insert` in a page of the store, counting a new key. The pointer returned is the
one the entry had before. -/
def shardInsert (w : Stores A V) (s : Nat) (q : Ptr) (key : A) (r : Ptr) :
    Stores A V × Option Ptr :=
  let previous := (w.shards q).lookup key
  let w := w.setEntry q key r
  (if previous.isNone then w.mapLen s (· + 1) else w, previous)

/-- The caller of `insert` and `remove` gets the previous range. -/
def hold (w : Stores A V) (previous : Option Ptr) : Stores A V :=
  { w with held := previous.toList ++ w.held }

def insert (w : Stores A V) (s : Nat) (key : A) (value : V) : Stores A V :=
  let (w, q) := w.ownPage s key
  let (w, r) := w.newRange (some value)
  let (w, previous) := w.shardInsert s q key r
  w.hold previous

/-- The caller changes the range it has a mutable reference to. -/
def writeRange (w : Stores A V) (r : Ptr) (f : V → V) : Stores A V :=
  { w with ranges := Function.update w.ranges r ((w.ranges r).map f) }

/-- `HashMap::get_mut` in page `q`, `Arc::make_mut`, and what the caller does to the range. -/
def entryMut (w : Stores A V) (q : Ptr) (key : A) (f : V → V) : Stores A V :=
  match (w.shards q).lookup key with
  | none => w
  | some r =>
    let (w, r) := w.ownRange q key r
    w.writeRange r f

def getMut (w : Stores A V) (s : Nat) (key : A) (f : V → V) : Stores A V :=
  match w.entryArc s key with
  | none => w
  | some _ =>
    let (w, q) := w.ownPage s key
    w.entryMut q key f

/-- `ValuesMut` on one page. -/
def pageMut (w : Stores A V) (p : Ptr) (f : V → V) (i : Fin storeShards) : Stores A V :=
  match w.tables p i with
  | none => w
  | some _ =>
    let (w, q) := w.ownShard p i
    (w.shards q).keys.foldl (fun w key => w.entryMut q key f) w

/-- `values_mut`, and what the caller does to each of the ranges. -/
def valuesMut (w : Stores A V) (s : Nat) (f : V → V) : Stores A V :=
  match w.table s with
  | none => w
  | some _ =>
    let (w, p) := w.ownPages s
    (List.finRange storeShards).foldl (fun w i => w.pageMut p f i) w

/-- `entry`, dropped without a value. -/
def entry (w : Stores A V) (s : Nat) (key : A) : Stores A V := (w.ownPage s key).1

/-- `entry` and `or_insert_with`, and what the caller does to the range. -/
def orInsertWith (w : Stores A V) (s : Nat) (key : A) (default : V) (f : V → V) : Stores A V :=
  let (w, q) := w.ownPage s key
  let (w, r) := match (w.shards q).lookup key with
    | some r => (w, r)
    | none =>
      let (w, r) := w.newRange (some default)
      ((w.shardInsert s q key r).1, r)
  let (w, r) := w.ownRange q key r
  w.writeRange r f

def cloneEntryFrom (w : Stores A V) (s : Nat) (key : A) (source : Nat) : Stores A V :=
  match w.entryArc source key with
  | none => w
  | some value =>
    let (w, q) := w.ownPage s key
    (w.shardInsert s q key value).1

/-- The page table of a store without keys goes. -/
def dropTable (w : Stores A V) (s : Nat) : Stores A V :=
  { w with
    stores := Function.update w.stores s
      ((w.stores s).map fun st => if st.len = 0 then { st with entries := none } else st) }

def remove (w : Stores A V) (s : Nat) (key : A) : Stores A V :=
  match w.entryArc s key with
  | none => w
  | some _ =>
    let (w, p) := w.ownPages s
    let (w, q) := w.ownShard p (shardIndex key)
    let removed := (w.shards q).lookup key
    let w := w.setShard q ((w.shards q).erase key)
    let w := if removed.isSome then w.mapLen s (· - 1) else w
    let w := if (w.shards q).entries.isEmpty then w.setPage p (shardIndex key) none else w
    (w.dropTable s).hold removed

def reserve (w : Stores A V) (s : Nat) (additional : Nat) : Stores A V :=
  if additional = 0 then w
  else
    let (w, p) := w.ownPages s
    (List.finRange storeShards).foldl (fun w i => (w.ownShard p i).1) w

def extend (w : Stores A V) (s : Nat) (values : List (A × V)) : Stores A V :=
  values.foldl (fun w e => w.insert s e.1 e.2) w

/-! ## Finite maps -/

/-- A map with `n` keys. -/
def Counts (m : A → Option V) (n : Nat) : Prop :=
  ∃ keys : List A, keys.Nodup ∧ (∀ k, k ∈ keys ↔ (m k).isSome) ∧ keys.length = n

omit [DecidableEq A] [ShardHash A] in
theorem Counts.eq_none {m : A → Option V} (h : Counts m 0) (k : A) : m k = none := by
  obtain ⟨keys, -, hmem, hlen⟩ := h
  rw [List.length_eq_zero_iff.mp hlen] at hmem
  exact Option.not_isSome_iff_eq_none.mp fun hk => absurd ((hmem k).mpr hk) (by simp)

omit [DecidableEq A] [ShardHash A] in
theorem Counts.unique {m : A → Option V} {n n' : Nat} (h : Counts m n) (h' : Counts m n') :
    n = n' := by
  obtain ⟨keys, hnodup, hmem, rfl⟩ := h
  obtain ⟨keys', hnodup', hmem', rfl⟩ := h'
  exact ((List.perm_ext_iff_of_nodup hnodup hnodup').mpr fun k =>
    (hmem k).trans (hmem' k).symm).length_eq

omit [ShardHash A] in
/-- A changed key counts as it did, is new, or is gone. -/
theorem Counts.update {m : A → Option V} {n : Nat} (h : Counts m n) (key : A) (v : Option V) :
    Counts (Function.update m key v) (n + v.isSome.toNat - (m key).isSome.toNat) := by
  obtain ⟨keys, hnodup, hmem, rfl⟩ := h
  have hne : ∀ k, k ≠ key → (Function.update m key v k).isSome = (m k).isSome := fun k hk => by
    rw [Function.update_of_ne hk]
  cases hold : (m key).isSome with
  | true =>
    have hkey : key ∈ keys := (hmem key).mpr hold
    cases hnew : v.isSome with
    | true =>
      refine ⟨keys, hnodup, fun k => ?_, rfl⟩
      by_cases hk : k = key
      · subst hk
        simp [hkey, hnew]
      · rw [hmem, hne k hk]
    | false =>
      refine ⟨keys.erase key, hnodup.erase key, fun k => ?_, List.length_erase_of_mem hkey⟩
      by_cases hk : k = key
      · subst hk
        simp [hnodup.mem_erase_iff, hnew]
      · rw [hnodup.mem_erase_iff, hmem, hne k hk]
        simp [hk]
  | false =>
    have hkey : key ∉ keys := fun hk => by simp [(hmem key).mp hk] at hold
    cases hnew : v.isSome with
    | true =>
      refine ⟨key :: keys, List.nodup_cons.mpr ⟨hkey, hnodup⟩, fun k => ?_, rfl⟩
      by_cases hk : k = key
      · subst hk
        simp [hnew]
      · rw [List.mem_cons, hmem, hne k hk]
        simp [hk]
    | false =>
      refine ⟨keys, hnodup, fun k => ?_, rfl⟩
      by_cases hk : k = key
      · subst hk
        simp [hkey, hnew]
      · rw [hmem, hne k hk]

/-! ## What the places keep -/

/-- Pointers name allocations, and keys are in the shard their hash selects. -/
structure Valid (w : Stores A V) : Prop where
  live : ∀ s st, w.stores s = some st → s < w.created
  table_lt : ∀ s p, w.table s = some p → p < w.next
  shard_lt : ∀ place q, w.shardPtr place = some q → q < w.next
  homed : ∀ s i sh, w.shard (s, i) = some sh → ∀ k ∈ sh, shardIndex k = i
  range_lt : ∀ s k r, w.entryArc s k = some r → r < w.next
  range_some : ∀ s k r, w.entryArc s k = some r → (w.ranges r).isSome
  held_lt : ∀ r ∈ w.held, r < w.next

/-- The same entries with the same ranges in all stores. -/
structure Keeps (w w' : Stores A V) : Prop where
  entryArc : ∀ s k, w'.entryArc s k = w.entryArc s k
  ranges : w'.ranges = w.ranges
  held : w'.held = w.held
  created : w'.created = w.created
  len : ∀ s, (w'.stores s).map (·.len) = (w.stores s).map (·.len)
  next : w.next ≤ w'.next

theorem Keeps.refl (w : Stores A V) : Keeps w w :=
  ⟨fun _ _ => rfl, rfl, rfl, rfl, fun _ => rfl, le_refl _⟩

theorem Keeps.trans {w₁ w₂ w₃ : Stores A V} (h₁ : Keeps w₁ w₂) (h₂ : Keeps w₂ w₃) :
    Keeps w₁ w₃ where
  entryArc s k := (h₂.entryArc s k).trans (h₁.entryArc s k)
  ranges := h₂.ranges.trans h₁.ranges
  held := h₂.held.trans h₁.held
  created := h₂.created.trans h₁.created
  len s := (h₂.len s).trans (h₁.len s)
  next := h₁.next.trans h₂.next

theorem Valid.of_keeps {w w' : Stores A V} (h : w.Valid) (hkeeps : Keeps w w')
    (table_lt : ∀ s p, w'.table s = some p → p < w'.next)
    (shard_lt : ∀ place q, w'.shardPtr place = some q → q < w'.next)
    (homed : ∀ s i sh, w'.shard (s, i) = some sh → ∀ k ∈ sh, shardIndex k = i) : w'.Valid where
  live s st hs := by
    have hlen := hkeeps.len s
    rw [hs] at hlen
    rw [hkeeps.created]
    cases hold : w.stores s with
    | none => simp [hold] at hlen
    | some old => exact h.live s old hold
  table_lt := table_lt
  shard_lt := shard_lt
  homed := homed
  range_lt s k r hr := (h.range_lt s k r (hkeeps.entryArc s k ▸ hr)).trans_le hkeeps.next
  range_some s k r hr := hkeeps.ranges ▸ h.range_some s k r (hkeeps.entryArc s k ▸ hr)
  held_lt r hr := (h.held_lt r (hkeeps.held ▸ hr)).trans_le hkeeps.next

section Own
variable {w : Stores A V} {s : Nat} {st : SymbolicStore} {p q : Ptr} {i : Fin storeShards}

omit [DecidableEq A] [ShardHash A] in
theorem table_newTable (hs : w.stores s = some st) (t : StorePages) :
    (w.newTable s t).1.table = Function.update w.table s (some w.next) := by
  funext s'
  by_cases h : s' = s
  · subst h
    simp [table, newTable, hs]
  · simp [table, newTable, Function.update_of_ne h]

theorem pages_newTable (h : w.Valid) (hs : w.stores s = some st) (t : StorePages) (s' : Nat) :
    (w.newTable s t).1.pages s' = if s' = s then some t else w.pages s' := by
  rw [pages, table_newTable hs]
  exact map_fresh h.table_lt t s'

/-- A copied table, or an empty one for a store without, has the pages there were. -/
theorem newTable_spec (h : w.Valid) (hs : w.stores s = some st) {t : StorePages}
    (ht : t = (w.pages s).getD fun _ => none) :
    (w.newTable s t).1.Valid ∧ Keeps w (w.newTable s t).1 ∧
      Exclusive (w.newTable s t).1.table s w.next := by
  have hptr : (w.newTable s t).1.shardPtr = w.shardPtr := by
    funext place
    rw [shardPtr, pages_newTable h hs]
    split_ifs with hplace
    · rw [ht, shardPtr, hplace]
      cases w.pages s <;> rfl
    · rfl
  have hshard : (w.newTable s t).1.shard = w.shard := by
    funext place
    rw [shard, hptr]
    rfl
  have hkeeps : Keeps w (w.newTable s t).1 :=
    { entryArc := fun s' k => by rw [entryArc, hshard]; rfl
      ranges := rfl
      held := rfl
      created := rfl
      len := fun s' => by
        by_cases hs' : s' = s
        · subst hs'
          simp [newTable, hs]
        · simp [newTable, Function.update_of_ne hs']
      next := Nat.le_succ _ }
  have hexclusive : Exclusive (w.newTable s t).1.table s w.next := by
    rw [table_newTable hs]
    exact exclusive_update h.table_lt
  refine ⟨h.of_keeps hkeeps (fun s' p hp => ?_) (fun place q hq => ?_) (hshard ▸ h.homed), hkeeps,
    hexclusive⟩
  · rw [table_newTable hs] at hp
    by_cases hs' : s' = s
    · subst hs'
      rw [Function.update_self] at hp
      exact Option.some.inj hp ▸ Nat.lt_succ_self _
    · rw [Function.update_of_ne hs'] at hp
      exact (h.table_lt s' p hp).trans (Nat.lt_succ_self _)
  · rw [hptr] at hq
    exact (h.shard_lt place q hq).trans (Nat.lt_succ_self _)

/-- After `make_mut` the table belongs to the store alone, and nothing else has changed. -/
theorem ownPages_spec (h : w.Valid) (hs : w.stores s = some st) :
    (w.ownPages s).1.Valid ∧ Keeps w (w.ownPages s).1 ∧
      Exclusive (w.ownPages s).1.table s (w.ownPages s).2 := by
  unfold ownPages
  cases hp : w.table s with
  | none => exact newTable_spec h hs (by rw [pages, hp]; rfl)
  | some p =>
    dsimp only
    split_ifs with hshared
    · exact newTable_spec h hs (by rw [pages, hp]; rfl)
    · refine ⟨h, .refl w, hp, fun s' hs' => ?_⟩
      by_contra hne
      obtain ⟨other, hother, -⟩ := Option.bind_eq_some_iff.mp hs'
      refine hshared (List.any_eq_true.mpr ⟨s', List.mem_range.mpr (h.live s' other hother), ?_⟩)
      simp [hne, hs']

omit [DecidableEq A] [ShardHash A] in
theorem shardPtr_of_exclusive (hp : Exclusive w.table s p) (i : Fin storeShards) :
    w.shardPtr (s, i) = w.tables p i := by
  simp [shardPtr, pages, hp.1]

omit [DecidableEq A] [ShardHash A] in
theorem shardPtr_setPage (hp : Exclusive w.table s p) (i : Fin storeShards) (page : Option Ptr) :
    (w.setPage p i page).shardPtr = Function.update w.shardPtr (s, i) page := by
  funext ⟨s', j⟩
  have hpages : (w.setPage p i page).pages s' =
      if s' = s then some (Function.update (w.tables p) i page) else w.pages s' :=
    map_exclusive _ hp _ s'
  rw [shardPtr, hpages]
  by_cases hs : s' = s
  · subst hs
    by_cases hj : j = i
    · subst hj
      simp
    · have hne : (s', j) ≠ (s', i) := fun heq => hj (congrArg Prod.snd heq)
      rw [if_pos rfl, Function.update_of_ne hne, shardPtr_of_exclusive hp]
      exact Function.update_of_ne hj ..
  · have hne : (s', j) ≠ (s, i) := fun heq => hs (congrArg Prod.fst heq)
    rw [if_neg hs, Function.update_of_ne hne]
    rfl

omit [DecidableEq A] [ShardHash A] in
theorem shardPtr_newShard (hp : Exclusive w.table s p) (sh : StoreShard A) :
    (w.newShard p i sh).1.shardPtr = Function.update w.shardPtr (s, i) (some w.next) :=
  shardPtr_setPage hp i (some w.next)

/-- A copied page, or an empty one where there was none, has the entries there were. -/
theorem newShard_spec (h : w.Valid) (hp : Exclusive w.table s p) {sh : StoreShard A}
    (hsh : sh = (w.shard (s, i)).getD ∅) :
    (w.newShard p i sh).1.Valid ∧ Keeps w (w.newShard p i sh).1 ∧
      Exclusive (w.newShard p i sh).1.table s p ∧
      Exclusive (w.newShard p i sh).1.shardPtr (s, i) w.next := by
  have hshard : ∀ place, (w.newShard p i sh).1.shard place =
      if place = (s, i) then some sh else w.shard place := fun place => by
    rw [shard, shardPtr_newShard hp]
    exact map_fresh h.shard_lt sh place
  have hkeeps : Keeps w (w.newShard p i sh).1 :=
    { entryArc := fun s' k => by
        rw [entryArc, hshard]
        split_ifs with hplace
        · rw [hsh, entryArc, hplace]
          cases w.shard (s, i) <;> simp
        · rfl
      ranges := rfl
      held := rfl
      created := rfl
      len := fun s' => rfl
      next := Nat.le_succ _ }
  refine ⟨h.of_keeps hkeeps (fun s' p' hp' => (h.table_lt s' p' hp').trans (Nat.lt_succ_self _))
    (fun place q hq => ?_) (fun s' j sh' hsh' => ?_), hkeeps, hp, ?_⟩
  · rw [shardPtr_newShard hp] at hq
    by_cases hplace : place = (s, i)
    · subst hplace
      rw [Function.update_self] at hq
      exact Option.some.inj hq ▸ Nat.lt_succ_self _
    · rw [Function.update_of_ne hplace] at hq
      exact (h.shard_lt place q hq).trans (Nat.lt_succ_self _)
  · rw [hshard] at hsh'
    split_ifs at hsh' with hplace
    · cases hplace
      cases hold : w.shard (s, i) with
      | none =>
        rw [hold] at hsh
        cases hsh'
        subst hsh
        intro k hk
        exact absurd hk (AList.notMem_empty k)
      | some old =>
        rw [hold] at hsh
        cases hsh'
        subst hsh
        exact h.homed s i _ hold
    · exact h.homed s' j sh' hsh'
  · rw [shardPtr_newShard hp]
    exact exclusive_update h.shard_lt

omit [DecidableEq A] [ShardHash A] in
theorem mem_liveTables {w : Stores A V} (hlive : ∀ s st, w.stores s = some st → s < w.created)
    (hp : w.table s = some p) : p ∈ w.liveTables := by
  obtain ⟨st, hs, -⟩ := Option.bind_eq_some_iff.mp hp
  exact List.mem_filterMap.mpr ⟨s, List.mem_range.mpr (hlive s st hs), hp⟩

omit [DecidableEq A] [ShardHash A] in
theorem shardPtr_eq_some {place : Nat × Fin storeShards} :
    w.shardPtr place = some q ↔ ∃ p, w.table place.1 = some p ∧ w.tables p place.2 = some q := by
  simp [shardPtr, pages, Option.bind_eq_some_iff]

/-- After `make_mut` the page belongs to its place alone, and nothing else has changed. -/
theorem ownShard_spec (h : w.Valid) (hp : Exclusive w.table s p) (i : Fin storeShards) :
    (w.ownShard p i).1.Valid ∧ Keeps w (w.ownShard p i).1 ∧
      Exclusive (w.ownShard p i).1.table s p ∧
      Exclusive (w.ownShard p i).1.shardPtr (s, i) (w.ownShard p i).2 := by
  have hptr := shardPtr_of_exclusive hp i
  unfold ownShard
  cases hq : w.tables p i with
  | none => exact newShard_spec h hp (by rw [shard, hptr, hq]; rfl)
  | some q =>
    dsimp only
    split_ifs with hshared
    · exact newShard_spec h hp (by rw [shard, hptr, hq]; rfl)
    · refine ⟨h, .refl w, hp, hptr.trans hq, fun ⟨s', j⟩ hother => ?_⟩
      obtain ⟨p', hp', hq'⟩ := shardPtr_eq_some.mp hother
      by_cases hplace : (p', j) = (p, i)
      · cases hplace
        rw [hp.2 s' hp']
      · refine absurd (List.any_eq_true.mpr ⟨p', mem_liveTables h.live hp', ?_⟩) hshared
        have hq' : w.tables p' j = some q := hq'
        exact List.any_eq_true.mpr ⟨j, List.mem_finRange j, by simp [hplace, hq']⟩

/-! ## Writes to what a store owns -/

omit [DecidableEq A] [ShardHash A] in
theorem shard_setShard (hq : Exclusive w.shardPtr (s, i) q) (sh : StoreShard A)
    (place : Nat × Fin storeShards) :
    (w.setShard q sh).shard place = if place = (s, i) then some sh else w.shard place :=
  map_exclusive _ hq sh place

/-- A new content of a page shows in its store, for the keys of its shard. -/
theorem entryArc_setShard (hq : Exclusive w.shardPtr (s, i) q) (sh : StoreShard A) (s' : Nat)
    (k : A) : (w.setShard q sh).entryArc s' k =
      if s' = s ∧ shardIndex k = i then sh.lookup k else w.entryArc s' k := by
  rw [entryArc, shard_setShard hq]
  by_cases h : s' = s ∧ shardIndex k = i
  · rw [if_pos h, if_pos (by rw [h.1, h.2])]
    rfl
  · rw [if_neg h, if_neg fun heq => h ⟨congrArg Prod.fst heq, congrArg Prod.snd heq⟩]
    rfl

theorem entryArc_of_exclusive (hq : Exclusive w.shardPtr (s, i) q) {k : A}
    (hk : shardIndex k = i) : w.entryArc s k = (w.shards q).lookup k := by
  simp [entryArc, shard, hk, hq.1]

theorem entryArc_setEntry {key : A} (hq : Exclusive w.shardPtr (s, shardIndex key) q) (r : Ptr)
    (s' : Nat) (k : A) : (w.setEntry q key r).entryArc s' k =
      if s' = s ∧ k = key then some r else w.entryArc s' k := by
  rw [setEntry, entryArc_setShard hq]
  by_cases hk : k = key
  · subst hk
    simp
  · by_cases hplace : s' = s ∧ shardIndex k = shardIndex key
    · obtain ⟨rfl, hplace⟩ := hplace
      rw [if_pos ⟨rfl, hplace⟩, if_neg fun h => hk h.2, AList.lookup_insert_ne hk,
        entryArc_of_exclusive hq hplace]
    · rw [if_neg hplace, if_neg fun h => hk h.2]

/-- A page of one's own stays valid when its entries are pointers to ranges. -/
theorem Valid.setShard (h : w.Valid) (hq : Exclusive w.shardPtr (s, i) q) {sh : StoreShard A}
    (hkeys : ∀ k ∈ sh, shardIndex k = i)
    (hranges : ∀ k r, sh.lookup k = some r → r < w.next ∧ (w.ranges r).isSome) :
    (w.setShard q sh).Valid where
  live := h.live
  table_lt := h.table_lt
  shard_lt := h.shard_lt
  homed s' j sh' hsh' := by
    rw [shard_setShard hq] at hsh'
    split_ifs at hsh' with hplace
    · cases hplace
      cases hsh'
      exact hkeys
    · exact h.homed s' j sh' hsh'
  range_lt s' k r hr := by
    rw [entryArc_setShard hq] at hr
    split_ifs at hr
    · exact (hranges k r hr).1
    · exact h.range_lt s' k r hr
  range_some s' k r hr := by
    rw [entryArc_setShard hq] at hr
    split_ifs at hr
    · exact (hranges k r hr).2
    · exact h.range_some s' k r hr
  held_lt := h.held_lt

theorem Valid.homed_of_exclusive (h : w.Valid) (hq : Exclusive w.shardPtr (s, i) q) :
    ∀ k ∈ w.shards q, shardIndex k = i :=
  h.homed s i _ (by simp [shard, hq.1])

/-- The entries of a page of one's own. -/
theorem Valid.ranges_of_exclusive (h : w.Valid) (hq : Exclusive w.shardPtr (s, i) q) {k : A}
    {r : Ptr} (hr : (w.shards q).lookup k = some r) : r < w.next ∧ (w.ranges r).isSome := by
  have hk : k ∈ w.shards q := AList.lookup_isSome.mp (by simp [hr])
  have hentry := (entryArc_of_exclusive hq (h.homed_of_exclusive hq k hk)).trans hr
  exact ⟨h.range_lt s k r hentry, h.range_some s k r hentry⟩

theorem Valid.setEntry (h : w.Valid) {key : A} (hq : Exclusive w.shardPtr (s, shardIndex key) q)
    {r : Ptr} (hr : r < w.next) (hsome : (w.ranges r).isSome) : (w.setEntry q key r).Valid := by
  refine h.setShard hq (fun k hk => ?_) fun k r' hr' => ?_
  · rcases (AList.mem_insert _).mp hk with rfl | hk
    · rfl
    · exact h.homed_of_exclusive hq k hk
  · by_cases hk : k = key
    · subst hk
      rw [AList.lookup_insert] at hr'
      exact Option.some.inj hr' ▸ ⟨hr, hsome⟩
    · rw [AList.lookup_insert_ne hk] at hr'
      exact h.ranges_of_exclusive hq hr'

theorem Valid.newRange (h : w.Valid) (value : Option V) : (w.newRange value).1.Valid where
  live := h.live
  table_lt s' p' hp' := (h.table_lt s' p' hp').trans (Nat.lt_succ_self _)
  shard_lt place q' hq' := (h.shard_lt place q' hq').trans (Nat.lt_succ_self _)
  homed := h.homed
  range_lt s' k r hr := (h.range_lt s' k r hr).trans (Nat.lt_succ_self _)
  range_some s' k r hr := by
    have hne : r ≠ w.next := (h.range_lt s' k r hr).ne
    show (Function.update w.ranges w.next value r).isSome
    rw [Function.update_of_ne hne]
    exact h.range_some s' k r hr
  held_lt r hr := (h.held_lt r hr).trans (Nat.lt_succ_self _)

/-- What a store shows for its keys. -/
theorem get_newRange (h : w.Valid) (value : Option V) (s' : Nat) (k : A) :
    (w.newRange value).1.get s' k = w.get s' k := by
  show (w.entryArc s' k).bind _ = _
  rw [get]
  cases hr : w.entryArc s' k with
  | none => rfl
  | some r => exact Function.update_of_ne (h.range_lt s' k r hr).ne value w.ranges

theorem get_setEntry {key : A} (hq : Exclusive w.shardPtr (s, shardIndex key) q) (r : Ptr)
    (s' : Nat) (k : A) : (w.setEntry q key r).get s' k =
      if s' = s ∧ k = key then w.ranges r else w.get s' k := by
  rw [get, entryArc_setEntry hq]
  split_ifs <;> rfl

/-! ## What an operation shows -/

/-- All stores show the same maps and have the same lengths. -/
structure Same (w w' : Stores A V) : Prop where
  get : ∀ s k, w'.get s k = w.get s k
  created : w'.created = w.created
  len : ∀ s, (w'.stores s).map (·.len) = (w.stores s).map (·.len)

theorem Keeps.same {w w' : Stores A V} (h : Keeps w w') : Same w w' where
  get s k := by rw [Stores.get, Stores.get, h.entryArc, h.ranges]
  created := h.created
  len := h.len

theorem Same.trans {w₁ w₂ w₃ : Stores A V} (h₁ : Same w₁ w₂) (h₂ : Same w₂ w₃) : Same w₁ w₃ where
  get s k := (h₂.get s k).trans (h₁.get s k)
  created := h₂.created.trans h₁.created
  len s := (h₂.len s).trans (h₁.len s)

/-- Store `s` shows `v` at `key`, and counts it; nothing else shows a difference. -/
structure Sets (w w' : Stores A V) (s : Nat) (key : A) (v : Option V) : Prop where
  valid : w'.Valid
  get : ∀ s' k, w'.get s' k = if s' = s ∧ k = key then v else w.get s' k
  created : w'.created = w.created
  len : ∀ s', (w'.stores s').map (·.len) = (w.stores s').map fun st =>
    if s' = s then st.len + v.isSome.toNat - (w.get s key).isSome.toNat else st.len

theorem Sets.of_same {w w₁ w₂ : Stores A V} {key : A} {v : Option V} (h : Same w w₁)
    (hs : Sets w₁ w₂ s key v) : Sets w w₂ s key v where
  valid := hs.valid
  get s' k := by rw [hs.get, h.get]
  created := hs.created.trans h.created
  len s' := by
    have hlen := h.len s'
    rw [hs.len, h.get]
    cases ho : w.stores s' <;> cases hn : w₁.stores s' <;> simp_all

theorem Sets.same {w w₁ w₂ : Stores A V} {key : A} {v : Option V} (hs : Sets w w₁ s key v)
    (hvalid : w₂.Valid) (h : Same w₁ w₂) : Sets w w₂ s key v where
  valid := hvalid
  get s' k := (h.get s' k).trans (hs.get s' k)
  created := h.created.trans hs.created
  len s' := (h.len s').trans (hs.len s')

/-- A range that is put in place and then changed. -/
theorem Sets.trans {w w₁ w₂ : Stores A V} {key : A} {a b : V}
    (h₁ : Sets w w₁ s key (some a)) (h₂ : Sets w₁ w₂ s key (some b)) :
    Sets w w₂ s key (some b) where
  valid := h₂.valid
  get s' k := by
    rw [h₂.get, h₁.get]
    split_ifs <;> rfl
  created := h₂.created.trans h₁.created
  len s' := by
    have hlen := h₁.len s'
    rw [h₂.len, h₁.get, if_pos ⟨rfl, rfl⟩]
    cases ho : w.stores s' <;> cases hn : w₁.stores s' <;> simp_all

theorem ownPage_spec (h : w.Valid) (hs : w.stores s = some st) (key : A) :
    (w.ownPage s key).1.Valid ∧ Keeps w (w.ownPage s key).1 ∧
      Exclusive (w.ownPage s key).1.shardPtr (s, shardIndex key) (w.ownPage s key).2 := by
  obtain ⟨hvalid, hkeeps, hp⟩ := ownPages_spec h hs
  obtain ⟨hvalid', hkeeps', -, hq⟩ := ownShard_spec hvalid hp (shardIndex key)
  exact ⟨hvalid', hkeeps.trans hkeeps', hq⟩

omit [DecidableEq A] [ShardHash A] in
theorem table_mapLen (w : Stores A V) (s : Nat) (f : Nat → Nat) :
    (w.mapLen s f).table = w.table := by
  funext s'
  by_cases h : s' = s
  · subst h
    cases hs : w.stores s' <;> simp [table, mapLen, hs]
  · simp [table, mapLen, Function.update_of_ne h]

omit [DecidableEq A] [ShardHash A] in
theorem shardPtr_mapLen (w : Stores A V) (s : Nat) (f : Nat → Nat) :
    (w.mapLen s f).shardPtr = w.shardPtr := by
  funext place
  rw [shardPtr, pages, table_mapLen]
  rfl

omit [DecidableEq A] [ShardHash A] in
theorem shard_mapLen (w : Stores A V) (s : Nat) (f : Nat → Nat) :
    (w.mapLen s f).shard = w.shard := by
  funext place
  rw [shard, shardPtr_mapLen]
  rfl

theorem entryArc_mapLen (w : Stores A V) (s : Nat) (f : Nat → Nat) :
    (w.mapLen s f).entryArc = w.entryArc := by
  funext s' k
  rw [entryArc, shard_mapLen]
  rfl

theorem Valid.mapLen (h : w.Valid) (s : Nat) (f : Nat → Nat) : (w.mapLen s f).Valid where
  live s' st' hs' := by
    by_cases hne : s' = s
    · subst hne
      obtain ⟨old, hold, -⟩ := Option.map_eq_some_iff.mp
        ((Function.update_self s' _ w.stores).symm.trans hs')
      exact h.live s' old hold
    · exact h.live s' st' ((Function.update_of_ne hne _ w.stores).symm.trans hs')
  table_lt s' p' hp' := h.table_lt s' p' (table_mapLen w s f ▸ hp')
  shard_lt place q' hq' := by
    rw [shardPtr_mapLen] at hq'
    exact h.shard_lt place q' hq'
  homed := by
    rw [shard_mapLen]
    exact h.homed
  range_lt := by
    rw [entryArc_mapLen]
    exact h.range_lt
  range_some := by
    rw [entryArc_mapLen]
    exact h.range_some
  held_lt := h.held_lt

omit [DecidableEq A] [ShardHash A] in
theorem len_mapLen (w : Stores A V) (s : Nat) (f : Nat → Nat) (s' : Nat) :
    ((w.mapLen s f).stores s').map (·.len) =
      (w.stores s').map fun st => if s' = s then f st.len else st.len := by
  by_cases h : s' = s
  · subst h
    cases hs : w.stores s' <;> simp [mapLen, hs]
  · simp [mapLen, h]

theorem isSome_get (h : w.Valid) (s : Nat) (k : A) :
    (w.get s k).isSome = (w.entryArc s k).isSome := by
  rw [get]
  cases hr : w.entryArc s k with
  | none => rfl
  | some r => exact h.range_some s k r hr

theorem shardInsert_sets (h : w.Valid) {key : A}
    (hq : Exclusive w.shardPtr (s, shardIndex key) q) {r : Ptr} {v : V} (hr : r < w.next)
    (hv : w.ranges r = some v) : Sets w (w.shardInsert s q key r).1 s key (some v) := by
  have hprevious : ((w.shards q).lookup key).isSome = (w.get s key).isSome := by
    rw [isSome_get h, entryArc_of_exclusive hq rfl]
  have hvalid := h.setEntry hq hr (by simp [hv])
  have hget := get_setEntry hq r
  rw [hv] at hget
  unfold shardInsert
  dsimp only
  rw [← Option.not_isSome, hprevious]
  cases hold : (w.get s key).isSome with
  | true =>
    refine ⟨hvalid, hget, rfl, fun s' => ?_⟩
    rw [hold]
    simp [setEntry, setShard]
  | false =>
    refine ⟨hvalid.mapLen s _, fun s' k => ?_, rfl, fun s' => ?_⟩
    · have hentries := entryArc_mapLen (w.setEntry q key r) s (· + 1)
      exact (congrArg (·.bind w.ranges) (congrFun (congrFun hentries s') k)).trans (hget s' k)
    · rw [hold]
      exact len_mapLen (w.setEntry q key r) s (· + 1) s'

/-- After `make_mut` the range belongs to the entry alone, and nothing else has changed. -/
theorem ownRange_spec (h : w.Valid) {key : A} (hq : Exclusive w.shardPtr (s, shardIndex key) q)
    {r : Ptr} (hr : (w.shards q).lookup key = some r) :
    (w.ownRange q key r).1.Valid ∧ Same w (w.ownRange q key r).1 ∧
      Exclusive (fun e : Nat × A => (w.ownRange q key r).1.entryArc e.1 e.2) (s, key)
        (w.ownRange q key r).2 := by
  have hentry : w.entryArc s key = some r := (entryArc_of_exclusive hq rfl).trans hr
  unfold ownRange
  split_ifs with hshared
  · dsimp only
    have hvalid := h.newRange (w.ranges r)
    have hsome : ((w.newRange (w.ranges r)).1.ranges w.next) = w.ranges r :=
      Function.update_self ..
    have hset := hvalid.setEntry hq (Nat.lt_succ_self w.next)
      (by rw [hsome]; exact h.range_some s key r hentry)
    refine ⟨hset, ⟨fun s' k => ?_, rfl, fun _ => rfl⟩, ?_, fun e he => ?_⟩
    · refine (get_setEntry (w := (w.newRange (w.ranges r)).1) hq w.next s' k).trans ?_
      rw [get_newRange h]
      split_ifs with hk
      · rw [hk.1, hk.2, hsome, get, hentry]
        rfl
      · rfl
    · exact (entryArc_setEntry (w := (w.newRange (w.ranges r)).1) hq w.next s key).trans
        (if_pos ⟨rfl, rfl⟩)
    · have he' := (entryArc_setEntry (w := (w.newRange (w.ranges r)).1) hq w.next
        e.1 e.2).symm.trans he
      split_ifs at he' with hplace
      · exact Prod.ext hplace.1 hplace.2
      · exact absurd (h.range_lt e.1 e.2 w.next he') (lt_irrefl _)
  · refine ⟨h, ⟨fun _ _ => rfl, rfl, fun _ => rfl⟩, hentry, fun ⟨s', k⟩ he => ?_⟩
    obtain ⟨sh, hsh, hlookup⟩ := Option.bind_eq_some_iff.mp he
    obtain ⟨q', hq', rfl⟩ := Option.map_eq_some_iff.mp hsh
    obtain ⟨p', hp', hpage⟩ := shardPtr_eq_some.mp hq'
    have hlive : q' ∈ w.liveShards := List.mem_flatMap.mpr
      ⟨p', mem_liveTables h.live hp', List.mem_filterMap.mpr ⟨_, List.mem_finRange _, hpage⟩⟩
    by_cases hplace : (q', k) = (q, key)
    · cases hplace
      exact congrArg (·, key) (congrArg Prod.fst (hq.2 _ hq'))
    · refine absurd ?_ hshared
      rw [rangeShared, Bool.or_eq_true]
      refine .inr (List.any_eq_true.mpr ⟨q', hlive, List.any_eq_true.mpr ⟨⟨k, r⟩, ?_, ?_⟩⟩)
      · exact AList.mem_lookup_iff.mp hlookup
      · simp only [Bool.and_eq_true, decide_eq_true_eq]
        exact ⟨hplace, trivial⟩

/-- A write through a mutable reference. -/
theorem writeRange_sets (h : w.Valid) {key : A} {r : Ptr}
    (hr : Exclusive (fun e : Nat × A => w.entryArc e.1 e.2) (s, key) r) {v : V}
    (hv : w.get s key = some v) (f : V → V) :
    Sets w (w.writeRange r f) s key (some (f v)) := by
  have hrange : w.ranges r = some v := by
    rw [get, show w.entryArc s key = some r from hr.1] at hv
    exact hv
  have hget : ∀ s' k, (w.writeRange r f).get s' k =
      if s' = s ∧ k = key then some (f v) else w.get s' k := fun s' k => by
    have hmap := map_exclusive w.ranges hr ((w.ranges r).map f) (s', k)
    have hjoin : ∀ ranges : Ptr → Option V, (w.entryArc s' k).bind ranges =
        ((w.entryArc s' k).map ranges).join := fun ranges => by
      cases w.entryArc s' k <;> rfl
    refine (hjoin _).trans ((congrArg Option.join hmap).trans ?_)
    by_cases hplace : s' = s ∧ k = key
    · rw [if_pos hplace, if_pos (Prod.ext hplace.1 hplace.2), hrange]
      rfl
    · rw [if_neg hplace, if_neg fun heq => hplace ⟨congrArg Prod.fst heq, congrArg Prod.snd heq⟩]
      exact (hjoin _).symm
  refine ⟨⟨h.live, h.table_lt, h.shard_lt, h.homed, h.range_lt, fun s' k r' hr' => ?_, h.held_lt⟩,
    hget, rfl, fun s' => ?_⟩
  · have hsome := h.range_some s' k r' hr'
    by_cases hne : r' = r
    · subst hne
      simp [writeRange, hrange]
    · simpa [writeRange, hne] using hsome
  · rw [hv]
    simp [writeRange]

omit [ShardHash A] in
theorem table_ownRange (w : Stores A V) (q : Ptr) (key : A) (r : Ptr) :
    (w.ownRange q key r).1.table = w.table := by
  unfold ownRange
  split_ifs <;> rfl

omit [ShardHash A] in
theorem shardPtr_ownRange (w : Stores A V) (q : Ptr) (key : A) (r : Ptr) :
    (w.ownRange q key r).1.shardPtr = w.shardPtr := by
  unfold ownRange
  split_ifs <;> rfl

/-- A write to the range of a key, in a page of the store. Table and page stay as they are. -/
theorem entryMut_sets (h : w.Valid) {key : A} (hq : Exclusive w.shardPtr (s, shardIndex key) q)
    {v : V} (hv : w.get s key = some v) (f : V → V) :
    Sets w (w.entryMut q key f) s key (some (f v)) ∧ (w.entryMut q key f).table = w.table ∧
      (w.entryMut q key f).shardPtr = w.shardPtr := by
  obtain ⟨r, hr, -⟩ := Option.bind_eq_some_iff.mp hv
  have hlookup : (w.shards q).lookup key = some r := (entryArc_of_exclusive hq rfl).symm.trans hr
  obtain ⟨hvalid, hsame, hexclusive⟩ := ownRange_spec h hq hlookup
  unfold entryMut
  rw [hlookup]
  refine ⟨.of_same hsame (writeRange_sets hvalid hexclusive ?_ f), table_ownRange w q key r,
    shardPtr_ownRange w q key r⟩
  rw [hsame.get, hv]

theorem getMut_sets (h : w.Valid) (hs : w.stores s = some st) {key : A} {v : V}
    (hv : w.get s key = some v) (f : V → V) : Sets w (w.getMut s key f) s key (some (f v)) := by
  obtain ⟨r, hr, -⟩ := Option.bind_eq_some_iff.mp hv
  obtain ⟨hvalid, hkeeps, hq⟩ := ownPage_spec h hs key
  unfold getMut
  rw [hr]
  exact .of_same hkeeps.same (entryMut_sets hvalid hq ((hkeeps.same.get s key).trans hv) f).1

theorem getMut_absent {key : A} (h : w.Valid) (hv : w.get s key = none) (f : V → V) :
    w.getMut s key f = w := by
  have hnone : w.entryArc s key = none := by
    rw [← Option.not_isSome_iff_eq_none, ← isSome_get h, hv]
    exact Bool.false_ne_true
  unfold getMut
  rw [hnone]

/-- A new range for a key, in a page of the store. -/
theorem newEntry_spec (h : w.Valid) {key : A} (hq : Exclusive w.shardPtr (s, shardIndex key) q)
    (v : V) :
    Sets w ((w.newRange (some v)).1.shardInsert s q key w.next).1 s key (some v) ∧
      Exclusive ((w.newRange (some v)).1.shardInsert s q key w.next).1.shardPtr
        (s, shardIndex key) q ∧
      (((w.newRange (some v)).1.shardInsert s q key w.next).1.shards q).lookup key =
        some w.next := by
  have hsets := shardInsert_sets (h.newRange (some v)) hq
    (Nat.lt_succ_self w.next) (Function.update_self ..)
  refine ⟨.of_same ⟨get_newRange h _, rfl, fun _ => rfl⟩ hsets, ?_, ?_⟩
  · unfold shardInsert
    dsimp only
    split_ifs
    · rw [shardPtr_mapLen]
      exact hq
    · exact hq
  · unfold shardInsert
    dsimp only
    split_ifs <;> simp [mapLen, setEntry, setShard, newRange]

theorem orInsertWith_sets (h : w.Valid) (hs : w.stores s = some st) (key : A) (default : V)
    (f : V → V) : Sets w (w.orInsertWith s key default f) s key
      (some (f ((w.get s key).getD default))) := by
  obtain ⟨hvalid, hkeeps, hq⟩ := ownPage_spec h hs key
  have hold : (w.ownPage s key).1.get s key =
      (((w.ownPage s key).1.shards (w.ownPage s key).2).lookup key).bind
        (w.ownPage s key).1.ranges := by
    rw [get, entryArc_of_exclusive hq rfl]
  rw [← hkeeps.same.get s key, hold]
  refine .of_same hkeeps.same ?_
  unfold orInsertWith
  dsimp only
  cases hr : ((w.ownPage s key).1.shards (w.ownPage s key).2).lookup key with
  | some r =>
    obtain ⟨hvalid', hsame, hexclusive⟩ := ownRange_spec hvalid hq hr
    obtain ⟨v, hv⟩ := Option.isSome_iff_exists.mp (hvalid.ranges_of_exclusive hq hr).2
    have hgetv : (w.ownPage s key).1.get s key = some v := by
      rw [hold, hr]
      exact hv
    have hwrite := writeRange_sets hvalid' hexclusive ((hsame.get s key).trans hgetv) f
    simpa [hv] using Sets.of_same hsame hwrite
  | none =>
    obtain ⟨hsets, hq', hr'⟩ := newEntry_spec hvalid hq default
    obtain ⟨hvalid', hsame, hexclusive⟩ := ownRange_spec hsets.valid hq' hr'
    refine hsets.trans (.of_same hsame (writeRange_sets hvalid' hexclusive ?_ f))
    rw [hsame.get, hsets.get, if_pos ⟨rfl, rfl⟩]
    rfl

theorem Valid.hold (h : w.Valid) {previous : Option Ptr}
    (hprevious : ∀ r, previous = some r → r < w.next) : (w.hold previous).Valid where
  live := h.live
  table_lt := h.table_lt
  shard_lt := h.shard_lt
  homed := h.homed
  range_lt := h.range_lt
  range_some := h.range_some
  held_lt r hr := by
    rcases List.mem_append.mp hr with hr | hr
    · exact hprevious r (Option.mem_toList.mp hr)
    · exact h.held_lt r hr

theorem same_hold (w : Stores A V) (previous : Option Ptr) : Same w (w.hold previous) :=
  ⟨fun _ _ => rfl, rfl, fun _ => rfl⟩

theorem insert_sets (h : w.Valid) (hs : w.stores s = some st) (key : A) (value : V) :
    Sets w (w.insert s key value) s key (some value) := by
  obtain ⟨hvalid, hkeeps, hq⟩ := ownPage_spec h hs key
  obtain ⟨hsets, -, -⟩ := newEntry_spec hvalid hq value
  refine .of_same hkeeps.same (hsets.same (hsets.valid.hold fun r hr => ?_) (same_hold _ _))
  have hlt : ∀ w' : Stores A V, w'.next = (w.ownPage s key).1.next + 1 → r < w'.next :=
    fun w' hw' => hw' ▸ (hvalid.ranges_of_exclusive hq hr).1.trans (Nat.lt_succ_self _)
  apply hlt
  unfold shardInsert
  dsimp only
  split_ifs <;> rfl

theorem cloneEntryFrom_sets (h : w.Valid) (hs : w.stores s = some st) {key : A} {source : Nat}
    {v : V} (hv : w.get source key = some v) :
    Sets w (w.cloneEntryFrom s key source) s key (some v) := by
  obtain ⟨r, hr, hrange⟩ := Option.bind_eq_some_iff.mp hv
  obtain ⟨hvalid, hkeeps, hq⟩ := ownPage_spec h hs key
  unfold cloneEntryFrom
  rw [hr]
  refine .of_same hkeeps.same (shardInsert_sets hvalid hq ?_ ?_)
  · exact (h.range_lt source key r hr).trans_le hkeeps.next
  · rw [hkeeps.ranges, hrange]

theorem cloneEntryFrom_absent {key : A} {source : Nat} (h : w.Valid)
    (hv : w.get source key = none) : w.cloneEntryFrom s key source = w := by
  have hnone : w.entryArc source key = none := by
    rw [← Option.not_isSome_iff_eq_none, ← isSome_get h, hv]
    exact Bool.false_ne_true
  unfold cloneEntryFrom
  rw [hnone]

theorem entry_spec (h : w.Valid) (hs : w.stores s = some st) (key : A) :
    (w.entry s key).Valid ∧ Same w (w.entry s key) :=
  ⟨(ownPage_spec h hs key).1, (ownPage_spec h hs key).2.1.same⟩

theorem reserve_spec (h : w.Valid) (hs : w.stores s = some st) (additional : Nat) :
    (w.reserve s additional).Valid ∧ Same w (w.reserve s additional) := by
  unfold reserve
  split_ifs
  · exact ⟨h, (Keeps.refl w).same⟩
  · obtain ⟨hvalid, hkeeps, hp⟩ := ownPages_spec h hs
    -- each page of the store's own table is made its own
    have hloop : ∀ (l : List (Fin storeShards)) (w' : Stores A V) (p : Ptr), w'.Valid →
        Keeps w w' → Exclusive w'.table s p →
        (l.foldl (fun w i => (w.ownShard p i).1) w').Valid ∧
          Keeps w (l.foldl (fun w i => (w.ownShard p i).1) w') := by
      intro l
      induction l with
      | nil => exact fun w' p hv hk _ => ⟨hv, hk⟩
      | cons i l ih =>
        intro w' p hv hk hp
        obtain ⟨hv', hk', hp', -⟩ := ownShard_spec hv hp i
        exact ih _ p hv' (hk.trans hk') hp'
    obtain ⟨hvalid', hkeeps'⟩ := hloop (List.finRange storeShards) _ _ hvalid hkeeps hp
    exact ⟨hvalid', hkeeps'.same⟩

/-! ## Removing -/

/-- An empty page can go. -/
theorem dropShard_spec (h : w.Valid) (hp : Exclusive w.table s p)
    (hempty : ∀ k, shardIndex k = i → w.entryArc s k = none) :
    (w.setPage p i none).Valid ∧ Keeps w (w.setPage p i none) := by
  have hshard : ∀ place, (w.setPage p i none).shard place =
      if place = (s, i) then none else w.shard place := fun place => by
    rw [shard, shardPtr_setPage hp]
    by_cases hplace : place = (s, i)
    · subst hplace
      simp
    · rw [Function.update_of_ne hplace, if_neg hplace]
      rfl
  have hkeeps : Keeps w (w.setPage p i none) :=
    { entryArc := fun s' k => by
        rw [entryArc, hshard]
        split_ifs with hplace
        · obtain ⟨rfl, hk⟩ := Prod.mk.inj hplace
          exact (hempty k hk).symm
        · rfl
      ranges := rfl
      held := rfl
      created := rfl
      len := fun _ => rfl
      next := le_refl _ }
  refine ⟨h.of_keeps hkeeps h.table_lt (fun place q hq => ?_) (fun s' j sh hsh => ?_), hkeeps⟩
  · rw [shardPtr_setPage hp] at hq
    by_cases hplace : place = (s, i)
    · subst hplace
      simp at hq
    · rw [Function.update_of_ne hplace] at hq
      exact h.shard_lt place q hq
  · rw [hshard] at hsh
    split_ifs at hsh
    exact h.homed s' j sh hsh

/-- The table of a store without keys can go. -/
theorem dropTable_spec (h : w.Valid)
    (hempty : ∀ st, w.stores s = some st → st.len = 0 → ∀ k, w.get s k = none) :
    (w.dropTable s).Valid ∧ Keeps w (w.dropTable s) := by
  have hother : ∀ s', s' ≠ s → (w.dropTable s).stores s' = w.stores s' := fun s' hs' =>
    Function.update_of_ne hs' ..
  have htable : ∀ s', (w.dropTable s).table s' = w.table s' ∨
      s' = s ∧ (w.dropTable s).table s' = none ∧ ∀ k, w.get s k = none := fun s' => by
    by_cases hs' : s' = s
    · subst hs'
      cases hst : w.stores s' with
      | none => exact .inl (by simp [table, dropTable, hst])
      | some st =>
        by_cases hlen : st.len = 0
        · exact .inr ⟨rfl, by simp [table, dropTable, hst, hlen], hempty st hst hlen⟩
        · exact .inl (by simp [table, dropTable, hst, hlen])
    · exact .inl (by rw [table, hother s' hs']; rfl)
  have hptr : ∀ place q, (w.dropTable s).shardPtr place = some q → w.shardPtr place = some q := by
    intro place q hq
    obtain ⟨p', hp', hpage⟩ := shardPtr_eq_some.mp hq
    rcases htable place.1 with hsame | ⟨-, hnone, -⟩
    · exact shardPtr_eq_some.mpr ⟨p', hsame ▸ hp', hpage⟩
    · rw [hnone] at hp'
      cases hp'
  have hkeeps : Keeps w (w.dropTable s) :=
    { entryArc := fun s' k => by
        rcases htable s' with hsame | ⟨rfl, hnone, hget⟩
        · rw [entryArc, entryArc, shard, shard, shardPtr, shardPtr, pages, pages, hsame]
          rfl
        · have hold : w.entryArc s' k = none := by
            rw [← Option.not_isSome_iff_eq_none, ← isSome_get h, hget k]
            exact Bool.false_ne_true
          rw [hold, entryArc, shard, shardPtr, pages, hnone]
          rfl
      ranges := rfl
      held := rfl
      created := rfl
      len := fun s' => by
        by_cases hs' : s' = s
        · subst hs'
          cases hst : w.stores s' with
          | none => simp [dropTable, hst]
          | some st =>
            simp only [dropTable, hst, Function.update_self, Option.map_some]
            split_ifs <;> rfl
        · rw [hother s' hs']
      next := le_refl _ }
  refine ⟨h.of_keeps hkeeps (fun s' p' hp' => ?_) (fun place q hq => ?_) (fun s' j sh hsh => ?_),
    hkeeps⟩
  · rcases htable s' with hsame | ⟨-, hnone, -⟩
    · exact h.table_lt s' p' (hsame ▸ hp')
    · rw [hnone] at hp'
      cases hp'
  · exact h.shard_lt place q (hptr place q hq)
  · obtain ⟨q, hq, rfl⟩ := Option.map_eq_some_iff.mp hsh
    exact h.homed s' j _ (Option.map_eq_some_iff.mpr ⟨q, hptr _ q hq, rfl⟩)

/-- The entry of a key goes from a page of the store. -/
theorem eraseEntry_sets (h : w.Valid) {key : A} (hq : Exclusive w.shardPtr (s, shardIndex key) q)
    {v : V} (hv : w.get s key = some v) :
    Sets w ((w.setShard q ((w.shards q).erase key)).mapLen s (· - 1)) s key none := by
  have hvalid : (w.setShard q ((w.shards q).erase key)).Valid := by
    refine h.setShard hq (fun k hk => ?_) fun k r hr => ?_
    · exact h.homed_of_exclusive hq k (AList.mem_erase.mp hk).2
    · have hne : k ≠ key := fun heq => by
        rw [heq, AList.lookup_erase] at hr
        cases hr
      rw [AList.lookup_erase_ne hne] at hr
      exact h.ranges_of_exclusive hq hr
  refine ⟨hvalid.mapLen s _, fun s' k => ?_, rfl, fun s' => ?_⟩
  · have hentry := entryArc_setShard hq ((w.shards q).erase key) s' k
    rw [get, entryArc_mapLen, hentry]
    by_cases hplace : s' = s ∧ shardIndex k = shardIndex key
    · obtain ⟨rfl, hk⟩ := hplace
      rw [if_pos ⟨rfl, hk⟩]
      by_cases heq : k = key
      · subst heq
        simp
      · rw [AList.lookup_erase_ne heq, if_neg fun hp => heq hp.2, get,
          entryArc_of_exclusive hq hk]
        rfl
    · rw [if_neg hplace, if_neg fun hp => hplace ⟨hp.1, by rw [hp.2]⟩]
      rfl
  · rw [hv]
    exact len_mapLen (w.setShard q _) s (· - 1) s'

/-- What became empty goes. -/
theorem tidy_spec (h : w.Valid) (hp : Exclusive w.table s p) (hq : Exclusive w.shardPtr (s, i) q)
    (hcounts : ∀ st, w.stores s = some st → Counts (w.get s) st.len) :
    ((if (w.shards q).entries.isEmpty then w.setPage p i none else w).dropTable s).Valid ∧
      Keeps w ((if (w.shards q).entries.isEmpty then w.setPage p i none else w).dropTable s) := by
  have hempty : ∀ st, w.stores s = some st → st.len = 0 → ∀ k, w.get s k = none :=
    fun st hst hlen => Counts.eq_none (hlen ▸ hcounts st hst)
  split_ifs with hentries
  · obtain ⟨hvalid, hkeeps⟩ := dropShard_spec h hp (i := i) fun k hk => by
      have hnil : w.shards q = ∅ := AList.ext (List.isEmpty_iff.mp hentries)
      rw [entryArc_of_exclusive hq hk, hnil, AList.lookup_empty]
    obtain ⟨hvalid', hkeeps'⟩ := dropTable_spec hvalid (s := s) fun st hst hlen k => by
      rw [hkeeps.same.get]
      exact hempty st hst hlen k
    exact ⟨hvalid', hkeeps.trans hkeeps'⟩
  · exact dropTable_spec h hempty

/-- The length of a store that an operation wrote to. -/
theorem Sets.counts {w w' : Stores A V} {key : A} {v : Option V} (hsets : Sets w w' s key v)
    {s' : Nat} {st' : SymbolicStore}
    (hcounts : ∀ st, w.stores s' = some st → Counts (w.get s') st.len)
    (hs' : w'.stores s' = some st') : Counts (w'.get s') st'.len := by
  have hlen := hsets.len s'
  rw [hs'] at hlen
  obtain ⟨st, hs, hst⟩ := Option.map_eq_some_iff.mp hlen.symm
  have hold := hcounts st hs
  dsimp only at hst
  by_cases hne : s' = s
  · subst hne
    rw [if_pos rfl] at hst
    have hget : w'.get s' = Function.update (w.get s') key v := by
      funext k
      rw [hsets.get]
      by_cases hk : k = key
      · subst hk
        simp
      · rw [if_neg fun hp => hk hp.2, Function.update_of_ne hk]
    rw [hget, ← hst]
    exact hold.update key v
  · rw [if_neg hne] at hst
    have hget : w'.get s' = w.get s' := by
      funext k
      rw [hsets.get, if_neg fun hp => hne hp.1]
    rw [hget, ← hst]
    exact hold

theorem remove_sets (h : w.Valid) (hs : w.stores s = some st) (hcounts : Counts (w.get s) st.len)
    {key : A} {v : V} (hv : w.get s key = some v) : Sets w (w.remove s key) s key none := by
  obtain ⟨r, hr, -⟩ := Option.bind_eq_some_iff.mp hv
  obtain ⟨hvalid₁, hkeeps₁, hp₁⟩ := ownPages_spec h hs
  obtain ⟨hvalid₂, hkeeps₂, hp₂, hq⟩ := ownShard_spec hvalid₁ hp₁ (shardIndex key)
  have hkeeps := hkeeps₁.trans hkeeps₂
  unfold remove
  rw [hr]
  dsimp only
  generalize (w.ownPages s).2 = p at *
  generalize ((w.ownPages s).1.ownShard p (shardIndex key)).2 = q at *
  generalize ((w.ownPages s).1.ownShard p (shardIndex key)).1 = w₂ at *
  have hlookup : (w₂.shards q).lookup key = some r :=
    (entryArc_of_exclusive hq rfl).symm.trans ((hkeeps.entryArc s key).trans hr)
  have hsets := Sets.of_same hkeeps.same
    (eraseEntry_sets hvalid₂ hq ((hkeeps.same.get s key).trans hv))
  have hcounts' : ∀ st', ((w₂.setShard q ((w₂.shards q).erase key)).mapLen s (· - 1)).stores s =
      some st' → Counts _ st'.len := fun st' hst' => hsets.counts (fun st₀ hst₀ => by
        rw [hs] at hst₀
        exact Option.some.inj hst₀ ▸ hcounts) hst'
  obtain ⟨hvalid, htidy⟩ := tidy_spec hsets.valid (p := p) (q := q) (i := shardIndex key)
    (by rw [table_mapLen]; exact hp₂) (by rw [shardPtr_mapLen]; exact hq) hcounts'
  simp only [hlookup, Option.isSome_some, if_true]
  refine hsets.same (hvalid.hold fun r' hr' => ?_) (htidy.same.trans (same_hold _ _))
  rw [← Option.some.inj hr']
  exact (h.range_lt s key r hr).trans_le (hkeeps.next.trans htidy.next)

theorem remove_absent {key : A} (h : w.Valid) (hv : w.get s key = none) : w.remove s key = w := by
  have hnone : w.entryArc s key = none := by
    rw [← Option.not_isSome_iff_eq_none, ← isSome_get h, hv]
    exact Bool.false_ne_true
  unfold remove
  rw [hnone]

/-! ## Writing all values -/

/-- The values store `s` shows at the keys of `P` are changed by `f`, and the keys are the same. -/
structure Changes (w w' : Stores A V) (s : Nat) (P : A → Prop) (f : V → V) : Prop where
  valid : w'.Valid
  get_in : ∀ k, P k → w'.get s k = (w.get s k).map f
  get_out : ∀ s' k, ¬ (s' = s ∧ P k) → w'.get s' k = w.get s' k
  created : w'.created = w.created
  len : ∀ s', (w'.stores s').map (·.len) = (w.stores s').map (·.len)

theorem Changes.congr {w w' : Stores A V} {P Q : A → Prop} {f : V → V} (h : Changes w w' s P f)
    (hPQ : ∀ k, (P k → Q k) ∧ (Q k → P k ∨ w.get s k = none)) : Changes w w' s Q f where
  valid := h.valid
  get_in k hk := by
    rcases (hPQ k).2 hk with hP | hnone
    · exact h.get_in k hP
    · by_cases hP : P k
      · exact h.get_in k hP
      · rw [h.get_out s k fun hp => hP hp.2, hnone]
        rfl
  get_out s' k hk := h.get_out s' k fun hp => hk ⟨hp.1, (hPQ k).1 hp.2⟩
  created := h.created
  len := h.len

theorem Changes.trans {w₁ w₂ w₃ : Stores A V} {P Q : A → Prop} {f : V → V}
    (h₁ : Changes w₁ w₂ s P f) (h₂ : Changes w₂ w₃ s Q f) (hPQ : ∀ k, P k → ¬ Q k) :
    Changes w₁ w₃ s (fun k => P k ∨ Q k) f where
  valid := h₂.valid
  get_in k hk := by
    rcases hk with hP | hQ
    · rw [h₂.get_out s k fun hp => hPQ k hP hp.2, h₁.get_in k hP]
    · rw [h₂.get_in k hQ, h₁.get_out s k fun hp => hPQ k hp.2 hQ]
  get_out s' k hk := by
    rw [h₂.get_out s' k fun hp => hk ⟨hp.1, .inr hp.2⟩,
      h₁.get_out s' k fun hp => hk ⟨hp.1, .inl hp.2⟩]
  created := h₂.created.trans h₁.created
  len s' := (h₂.len s').trans (h₁.len s')

theorem Sets.changes {w w' : Stores A V} {key : A} {v : V} {f : V → V}
    (h : Sets w w' s key (some (f v))) (hv : w.get s key = some v) :
    Changes w w' s (fun k => k = key) f where
  valid := h.valid
  get_in k hk := by
    rw [hk, h.get, if_pos ⟨rfl, rfl⟩, hv]
    rfl
  get_out s' k hk := by rw [h.get, if_neg hk]
  created := h.created
  len s' := by
    rw [h.len, hv]
    congr 1
    funext st'
    simp

theorem Same.changes {w w' : Stores A V} (h : Same w w') (hvalid : w'.Valid) (f : V → V) :
    Changes w w' s (fun _ => False) f :=
  ⟨hvalid, fun _ hk => hk.elim, fun s' k _ => h.get s' k, h.created, h.len⟩

/-- The loop over the keys of a page of the store. -/
theorem foldl_entryMut {keys : List A} (h : w.Valid) (hq : Exclusive w.shardPtr (s, i) q)
    (hnodup : keys.Nodup) (hkeys : ∀ k ∈ keys, shardIndex k = i ∧ (w.get s k).isSome)
    (f : V → V) :
    Changes w (keys.foldl (fun w key => w.entryMut q key f) w) s (· ∈ keys) f ∧
      (keys.foldl (fun w key => w.entryMut q key f) w).table = w.table := by
  induction keys generalizing w with
  | nil =>
    refine ⟨((Keeps.refl w).same.changes h f).congr fun k => ⟨False.elim, fun hk => ?_⟩, rfl⟩
    cases hk
  | cons key keys ih =>
    obtain ⟨hnew, hnodup⟩ := List.nodup_cons.mp hnodup
    obtain ⟨hkey, hsome⟩ := hkeys key (by simp)
    obtain ⟨v, hv⟩ := Option.isSome_iff_exists.mp hsome
    subst hkey
    obtain ⟨hsets, htable, hptr⟩ := entryMut_sets h hq hv f
    obtain ⟨hchanges, htable'⟩ := ih hsets.valid (hptr ▸ hq) hnodup fun k hk => by
      have hne : k ≠ key := fun heq => hnew (heq ▸ hk)
      rw [hsets.get, if_neg fun hp => hne hp.2]
      exact hkeys k (List.mem_cons_of_mem _ hk)
    refine ⟨((hsets.changes hv).trans hchanges fun k hk hk' => hnew (hk ▸ hk')).congr fun k => ?_,
      htable'.trans htable⟩
    exact ⟨List.mem_cons.mpr, fun hk => .inl (List.mem_cons.mp hk)⟩

/-- A store's own table, and the page it has for one shard. -/
theorem pageMut_changes (h : w.Valid) (hp : Exclusive w.table s p) (f : V → V)
    (i : Fin storeShards) :
    Changes w (w.pageMut p f i) s (fun k => shardIndex k = i) f ∧
      Exclusive (w.pageMut p f i).table s p := by
  unfold pageMut
  cases hpage : w.tables p i with
  | none =>
    refine ⟨((Keeps.refl w).same.changes h f).congr fun k => ⟨False.elim, fun hk => .inr ?_⟩, hp⟩
    rw [get, entryArc, shard, hk, shardPtr_of_exclusive hp, hpage]
    rfl
  | some page =>
    obtain ⟨hvalid, hkeeps, hp', hq⟩ := ownShard_spec h hp i
    dsimp only
    generalize (w.ownShard p i).2 = q at *
    generalize (w.ownShard p i).1 = w' at *
    have hmem : ∀ k, shardIndex k = i → (k ∈ (w'.shards q).keys ↔ (w'.get s k).isSome) :=
      fun k hk => by
        rw [isSome_get hvalid, entryArc_of_exclusive hq hk, AList.lookup_isSome]
        exact AList.mem_keys.symm
    have hhomed : ∀ k ∈ (w'.shards q).keys, shardIndex k = i := fun k hk =>
      hvalid.homed_of_exclusive hq k (AList.mem_keys.mp hk)
    obtain ⟨hchanges, htable⟩ := foldl_entryMut hvalid hq (w'.shards q).keys_nodup
      (fun k hk => ⟨hhomed k hk, (hmem k (hhomed k hk)).mp hk⟩) f
    refine ⟨?_, htable ▸ hp'⟩
    refine ((hkeeps.same.changes hvalid f).trans hchanges fun k hk _ => hk).congr fun k => ⟨?_, ?_⟩
    · rintro (hk | hk)
      · exact hk.elim
      · exact hhomed k hk
    · intro hk
      by_cases hin : k ∈ (w'.shards q).keys
      · exact .inl (.inr hin)
      · refine .inr ?_
        rw [← hkeeps.same.get]
        exact Option.not_isSome_iff_eq_none.mp fun hsome => hin ((hmem k hk).mpr hsome)

theorem valuesMut_changes (h : w.Valid) (hs : w.stores s = some st) (f : V → V) :
    Changes w (w.valuesMut s f) s (fun _ => True) f := by
  unfold valuesMut
  cases htable : w.table s with
  | none =>
    refine ((Keeps.refl w).same.changes h f).congr fun k => ⟨False.elim, fun _ => .inr ?_⟩
    rw [get, entryArc, shard, shardPtr, pages, htable]
    rfl
  | some p₀ =>
    obtain ⟨hvalid, hkeeps, hp⟩ := ownPages_spec h hs
    dsimp only
    generalize (w.ownPages s).2 = p at *
    generalize (w.ownPages s).1 = w' at *
    have hloop : ∀ (l : List (Fin storeShards)) (w' : Stores A V), l.Nodup → w'.Valid →
        Exclusive w'.table s p →
        Changes w' (l.foldl (fun w i => w.pageMut p f i) w') s (fun k => shardIndex k ∈ l) f := by
      intro l
      induction l with
      | nil =>
        intro w' _ hvalid _
        refine ((Keeps.refl w').same.changes hvalid f).congr fun k => ⟨False.elim, fun hk => ?_⟩
        cases hk
      | cons i l ih =>
        intro w' hnodup hvalid hp
        obtain ⟨hnew, hnodup⟩ := List.nodup_cons.mp hnodup
        obtain ⟨hchanges, hp'⟩ := pageMut_changes hvalid hp f i
        have hrest := ih _ hnodup hchanges.valid hp'
        refine (hchanges.trans hrest fun k hk hk' => hnew (hk ▸ hk')).congr fun k => ?_
        exact ⟨List.mem_cons.mpr, fun hk => .inl (List.mem_cons.mp hk)⟩
    have hall := hloop (List.finRange storeShards) w' (List.nodup_finRange _) hvalid hp
    refine ((hkeeps.same.changes hvalid f).trans hall fun k hk _ => hk).congr fun k => ?_
    exact ⟨fun _ => trivial, fun _ => .inl (.inr (List.mem_finRange _))⟩

end Own

end Stores
end Celox.Slt
