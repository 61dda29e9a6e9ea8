import Celox.Data.Iteration
import Celox.Slt.SymbolicStore

/-! # Versions of symbolic stores

Iterators over a store, the keys at which two stores differ, and what any interleaving of
operations on stores and their forks does to the maps they stand for. -/
namespace Celox.Slt
open Celox.Shared

/-! ## Iterators -/

/-- `Iter`, `Values` and `Keys`: the pages not yet begun, and what is left of the current one. -/
structure StoreIter (A : Type) where
  shards : Option (List (Option (StoreShard A)))
  current : List (Σ _ : A, Ptr)
  remaining : Nat

namespace StoreIter
variable {A B : Type} (item : (Σ _ : A, Ptr) → B)

/-- The loop of `next` behind the current page. -/
def nextPage (remaining : Nat) : List (Option (StoreShard A)) → Option (B × StoreIter A)
  | [] => none
  | none :: shards => nextPage remaining shards
  | some shard :: shards =>
    match shard.entries with
    | e :: current => some (item e, ⟨some shards, current, remaining - 1⟩)
    | [] => nextPage remaining shards

def next (self : StoreIter A) : Option (B × StoreIter A) :=
  match self.current with
  | e :: current => some (item e, { self with current, remaining := self.remaining - 1 })
  | [] => self.shards.bind (nextPage item self.remaining)

/-- The entries still to come. -/
def rest (self : StoreIter A) : List (Σ _ : A, Ptr) :=
  self.current ++ (self.shards.getD []).flatMap fun shard => (shard.map (·.entries)).getD []

theorem nextPage_rest (remaining : Nat) (shards : List (Option (StoreShard A))) :
    match (⟨some shards, [], remaining⟩ : StoreIter A).rest with
    | [] => nextPage item remaining shards = none
    | e :: l => ∃ self', nextPage item remaining shards = some (item e, self') ∧ self'.rest = l ∧
      self'.remaining = remaining - 1 := by
  induction shards with
  | nil => rfl
  | cons shard shards ih =>
    cases shard with
    | none => exact ih
    | some shard =>
      rw [nextPage]
      cases hentries : shard.entries with
      | nil =>
        have hrest : (⟨some (some shard :: shards), [], remaining⟩ : StoreIter A).rest =
            (⟨some shards, [], remaining⟩ : StoreIter A).rest := by
          simp [rest, hentries]
        rw [hrest]
        exact ih
      | cons e current =>
        have hrest : (⟨some (some shard :: shards), [], remaining⟩ : StoreIter A).rest =
            e :: (current ++ shards.flatMap fun shard => (shard.map (·.entries)).getD []) := by
          simp [rest, hentries]
        rw [hrest]
        exact ⟨_, rfl, rfl, rfl⟩

theorem next_rest (self : StoreIter A) :
    match self.rest with
    | [] => self.next item = none
    | e :: l => ∃ self', self.next item = some (item e, self') ∧ self'.rest = l ∧
      self'.remaining = self.remaining - 1 := by
  obtain ⟨shards, current, remaining⟩ := self
  cases current with
  | cons e current => exact ⟨⟨shards, current, remaining - 1⟩, rfl, rfl, rfl⟩
  | nil =>
    cases shards with
    | none => rfl
    | some shards => exact nextPage_rest item remaining shards

/-- An iterator yields the entries still to come. -/
theorem yields (self : StoreIter A) : Yields (next item) self (self.rest.map item) := by
  refine yields_of_items (fun self => self.rest.map item) (fun self hnil => ?_)
    (fun self b l hcons => ?_) self
  · have hnext := self.next_rest item
    rw [List.map_eq_nil_iff.mp hnil] at hnext
    exact hnext
  · obtain ⟨e, l', hrest, rfl, rfl⟩ := List.map_eq_cons_iff.mp hcons
    have hnext := self.next_rest item
    rw [hrest] at hnext
    obtain ⟨self', hsome, rfl, -⟩ := hnext
    exact ⟨self', hsome, rfl⟩

/-- `size_hint` is the number of entries still to come. -/
def Exact (self : StoreIter A) : Prop := self.remaining = self.rest.length

end StoreIter

/-! ## Differing keys -/

/-- `DifferingKeys`: the shards not yet compared, the pages of the current one, and what is left
of them. -/
structure DifferingKeys (A : Type) where
  next : List (Fin storeShards)
  leftShard : Option (StoreShard A)
  rightShard : Option (StoreShard A)
  leftEntries : List (Σ _ : A, Ptr)
  rightKeys : List A

namespace DifferingKeys
variable {A V : Type} [DecidableEq A]

/-- An entry of the left page that is not the same range on the right. -/
def differs (self : DifferingKeys A) (e : Σ _ : A, Ptr) : Bool :=
  (self.rightShard.bind (·.lookup e.1)) ≠ some e.2

/-- A key of the right page that the left page does not have. -/
def absent (self : DifferingKeys A) (key : A) : Bool :=
  !(self.leftShard.any fun left => decide (key ∈ left))

/-- The two inner loops of `next`. -/
def nextKey (self : DifferingKeys A) : Option (A × DifferingKeys A) :=
  match advance self.differs self.leftEntries with
  | some (e, leftEntries) => some (e.1, { self with leftEntries })
  | none =>
    match advance self.absent self.rightKeys with
    | some (key, rightKeys) => some (key, { self with leftEntries := [], rightKeys })
    | none => none

/-- Begin the pages of one shard. -/
def load (w : Stores A V) (left right : Option Ptr) (next : List (Fin storeShards)) :
    DifferingKeys A where
  next
  leftShard := left.map w.shards
  rightShard := right.map w.shards
  leftEntries := ((left.map w.shards).map (·.entries)).getD []
  rightKeys := ((right.map w.shards).map (·.keys)).getD []

/-- The outer loop of `next`: shards with one page in both stores are skipped. `left` and
`right` are the page tables. -/
def nextShard (w : Stores A V) (left right : Option StorePages) :
    List (Fin storeShards) → Option (A × DifferingKeys A)
  | [] => none
  | i :: rest =>
    if left.bind (· i) = right.bind (· i) then nextShard w left right rest
    else
      match (load w (left.bind (· i)) (right.bind (· i)) rest).nextKey with
      | some found => some found
      | none => nextShard w left right rest

def step (w : Stores A V) (left right : Option StorePages) (self : DifferingKeys A) :
    Option (A × DifferingKeys A) :=
  match self.nextKey with
  | some found => some found
  | none => nextShard w left right self.next

/-- The keys still to come of the current pages. -/
def pageItems (self : DifferingKeys A) : List A :=
  (self.leftEntries.filter self.differs).map (·.1) ++ self.rightKeys.filter self.absent

/-- The keys of one shard. -/
def shardItems (w : Stores A V) (left right : Option StorePages) (i : Fin storeShards) : List A :=
  if left.bind (· i) = right.bind (· i) then []
  else (load w (left.bind (· i)) (right.bind (· i)) []).pageItems

def items (w : Stores A V) (left right : Option StorePages) (self : DifferingKeys A) : List A :=
  self.pageItems ++ self.next.flatMap (shardItems w left right)

theorem nextKey_items (self : DifferingKeys A) :
    match self.pageItems with
    | [] => self.nextKey = none
    | k :: l => ∃ self', self.nextKey = some (k, self') ∧ self'.pageItems = l ∧
      self'.next = self.next := by
  unfold pageItems nextKey
  cases hleft : self.leftEntries.filter self.differs with
  | cons e entries =>
    obtain ⟨rest, hadvance, hrest⟩ := advance_some hleft
    rw [hadvance]
    exact ⟨_, rfl, by rw [← hrest]; rfl, rfl⟩
  | nil =>
    rw [advance_none hleft]
    cases hright : self.rightKeys.filter self.absent with
    | cons k keys =>
      obtain ⟨rest, hadvance, hrest⟩ := advance_some hright
      rw [hadvance]
      exact ⟨_, rfl, by rw [← hrest]; rfl, rfl⟩
    | nil =>
      rw [advance_none hright]
      rfl

theorem nextShard_items (w : Stores A V) (left right : Option StorePages)
    (shards : List (Fin storeShards)) :
    match shards.flatMap (shardItems w left right) with
    | [] => nextShard w left right shards = none
    | k :: l => ∃ self', nextShard w left right shards = some (k, self') ∧
      self'.items w left right = l := by
  induction shards with
  | nil => rfl
  | cons i rest ih =>
    rw [List.flatMap_cons, nextShard, shardItems]
    split_ifs with hptr
    · exact ih
    · have hpage := (load w (left.bind (· i)) (right.bind (· i)) rest).nextKey_items
      have hload : (load w (left.bind (· i)) (right.bind (· i)) []).pageItems =
          (load w (left.bind (· i)) (right.bind (· i)) rest).pageItems := rfl
      rw [hload]
      cases hitems : (load w (left.bind (· i)) (right.bind (· i)) rest).pageItems with
      | nil =>
        rw [hitems] at hpage
        rw [show nextKey _ = none from hpage]
        exact ih
      | cons k l =>
        rw [hitems] at hpage
        obtain ⟨self', hsome, rfl, hnext⟩ := hpage
        rw [hsome]
        exact ⟨self', rfl, by rw [items, hnext]; rfl⟩

/-- The iterator yields the keys of the current pages, and of the shards not yet compared. -/
theorem yields (w : Stores A V) (left right : Option StorePages) (self : DifferingKeys A) :
    Yields (step w left right) self (self.items w left right) := by
  have hstep : ∀ self : DifferingKeys A,
      match self.items w left right with
      | [] => step w left right self = none
      | k :: l => ∃ self', step w left right self = some (k, self') ∧
        self'.items w left right = l := fun self => by
    have hpage := self.nextKey_items
    unfold items step
    cases hitems : self.pageItems with
    | nil =>
      rw [hitems] at hpage
      rw [show self.nextKey = none from hpage]
      exact nextShard_items w left right self.next
    | cons k l =>
      rw [hitems] at hpage
      obtain ⟨self', hsome, rfl, hnext⟩ := hpage
      rw [hsome]
      exact ⟨self', rfl, by rw [hnext]; rfl⟩
  refine yields_of_items _ (fun self hnil => ?_) (fun self k l hcons => ?_) self
  · have := hstep self
    rw [hnil] at this
    exact this
  · have := hstep self
    rw [hcons] at this
    exact this

end DifferingKeys

namespace Stores
variable {A V : Type}

/-- The pages of a store, by shard. -/
def pageList (w : Stores A V) (s : Nat) : Option (List (Option (StoreShard A))) :=
  (w.pages s).map fun _ => (List.finRange storeShards).map fun i => w.shard (s, i)

/-- The state `iter`, `values` and `keys` begin with. -/
def iter (w : Stores A V) (s : Nat) : StoreIter A :=
  ⟨w.pageList s, [], ((w.stores s).map (·.len)).getD 0⟩

/-- The item of `Iter`: the key and its range. -/
def iterItem (w : Stores A V) (e : Σ _ : A, Ptr) : A × Option V := (e.1, w.ranges e.2)

/-- The item of `Values`. -/
def valuesItem (w : Stores A V) (e : Σ _ : A, Ptr) : Option V := w.ranges e.2

/-- The item of `Keys`. -/
def keysItem (e : Σ _ : A, Ptr) : A := e.1

/-- The entries `into_iter` collects. -/
def intoIter (w : Stores A V) (s : Nat) : List (A × Option V) :=
  ((w.pageList s).getD []).flatMap fun shard =>
    ((shard.map (·.entries)).getD []).map w.iterItem

/-- `differing_keys`: nothing to compare between stores with one page table. -/
def differingKeys (w : Stores A V) (s s' : Nat) : DifferingKeys A where
  next := if w.table s = w.table s' then [] else List.finRange storeShards
  leftShard := none
  rightShard := none
  leftEntries := []
  rightKeys := []

variable [DecidableEq A] [ShardHash A] {w : Stores A V} {s s' : Nat}

/-- The entries of a store, page by page. -/
def entriesOf (w : Stores A V) (s : Nat) : List (Σ _ : A, Ptr) :=
  (List.finRange storeShards).flatMap fun i => ((w.shard (s, i)).map (·.entries)).getD []

omit [DecidableEq A] [ShardHash A] in
theorem rest_iter (w : Stores A V) (s : Nat) : (w.iter s).rest = w.entriesOf s := by
  rw [StoreIter.rest, iter, pageList, entriesOf]
  cases hp : w.pages s with
  | none =>
    have hnone : ∀ i, w.shard (s, i) = none := fun i => by rw [shard, shardPtr, hp]; rfl
    simp [hnone]
  | some pages => simp [List.flatMap_map]

omit [DecidableEq A] [ShardHash A] in
theorem intoIter_eq (w : Stores A V) (s : Nat) :
    w.intoIter s = (w.entriesOf s).map w.iterItem := by
  rw [intoIter, pageList, entriesOf]
  cases hp : w.pages s with
  | none =>
    have hnone : ∀ i, w.shard (s, i) = none := fun i => by rw [shard, shardPtr, hp]; rfl
    simp [hnone]
  | some pages => simp [List.flatMap_map, List.map_flatMap]

theorem mem_entriesOf (h : w.Valid) (e : Σ _ : A, Ptr) :
    e ∈ w.entriesOf s ↔ w.entryArc s e.1 = some e.2 := by
  constructor
  · intro he
    obtain ⟨i, -, he⟩ := List.mem_flatMap.mp he
    cases hsh : w.shard (s, i) with
    | none => simp [hsh] at he
    | some sh =>
      rw [hsh] at he
      have hlookup : sh.lookup e.1 = some e.2 := AList.mem_lookup_iff.mpr he
      have hkey : e.1 ∈ sh := AList.lookup_isSome.mp (by simp [hlookup])
      rw [entryArc, h.homed s i sh hsh e.1 hkey, hsh]
      exact hlookup
  · intro he
    obtain ⟨sh, hsh, hlookup⟩ := Option.bind_eq_some_iff.mp he
    refine List.mem_flatMap.mpr ⟨shardIndex e.1, List.mem_finRange _, ?_⟩
    rw [hsh]
    exact AList.mem_lookup_iff.mp hlookup

/-- The keys of a page are in the shard of the page. -/
theorem shardIndex_of_entry (h : w.Valid) {i : Fin storeShards} {e : Σ _ : A, Ptr}
    (he : e ∈ ((w.shard (s, i)).map (·.entries)).getD []) : shardIndex e.1 = i := by
  cases hsh : w.shard (s, i) with
  | none => simp [hsh] at he
  | some sh =>
    rw [hsh] at he
    exact h.homed s i sh hsh e.1 (AList.mem_keys.mp (List.mem_map_of_mem he))

/-- No key is in two pages, nor twice in one. -/
theorem keys_nodup (h : w.Valid) (s : Nat) : ((w.entriesOf s).map keysItem).Nodup := by
  rw [entriesOf, List.map_flatMap, List.nodup_flatMap]
  constructor
  · intro i _
    cases hsh : w.shard (s, i) with
    | none => simp
    | some sh => exact sh.keys_nodup
  · refine (List.nodup_finRange storeShards).pairwise_of_forall_ne fun i _ j _ hij k hi hj => ?_
    obtain ⟨e, he, rfl⟩ := List.mem_map.mp hi
    obtain ⟨f, hf, hkey⟩ := List.mem_map.mp hj
    have hkey : f.1 = e.1 := hkey
    exact hij ((shardIndex_of_entry h he).symm.trans (hkey ▸ shardIndex_of_entry h hf))

theorem mem_keys (h : w.Valid) (k : A) :
    k ∈ (w.entriesOf s).map keysItem ↔ (w.get s k).isSome := by
  rw [isSome_get h]
  constructor
  · intro hk
    obtain ⟨e, he, rfl⟩ := List.mem_map.mp hk
    exact Option.isSome_iff_exists.mpr ⟨e.2, (mem_entriesOf h e).mp he⟩
  · intro hk
    obtain ⟨r, hr⟩ := Option.isSome_iff_exists.mp hk
    exact List.mem_map.mpr ⟨⟨k, r⟩, (mem_entriesOf h ⟨k, r⟩).mpr hr, rfl⟩

/-! ## The keys at which two stores differ -/

omit [ShardHash A] in
theorem items_differingKeys (w : Stores A V) (s s' : Nat) :
    (w.differingKeys s s').items w (w.pages s) (w.pages s') =
      if w.table s = w.table s' then []
      else (List.finRange storeShards).flatMap
        (DifferingKeys.shardItems w (w.pages s) (w.pages s')) := by
  unfold DifferingKeys.items differingKeys
  split_ifs <;> rfl

omit [ShardHash A] in
/-- The keys of one shard: entries of the left page, and keys the right one has besides. -/
theorem mem_shardItems {i : Fin storeShards} {k : A}
    (hk : k ∈ DifferingKeys.shardItems w (w.pages s) (w.pages s') i) :
    (∃ r, ⟨k, r⟩ ∈ ((w.shard (s, i)).map (·.entries)).getD []) ∨
      ∃ r, ⟨k, r⟩ ∈ ((w.shard (s', i)).map (·.entries)).getD [] := by
  unfold DifferingKeys.shardItems at hk
  split_ifs at hk
  · simp at hk
  · rcases List.mem_append.mp hk with hk | hk
    · obtain ⟨e, he, rfl⟩ := List.mem_map.mp hk
      exact .inl ⟨e.2, (List.mem_filter.mp he).1⟩
    · right
      have hright := (List.mem_filter.mp hk).1
      simp only [DifferingKeys.load] at hright
      change k ∈ (((w.shard (s', i)).map (·.keys)).getD []) at hright
      cases hsh : w.shard (s', i) with
      | none => simp [hsh] at hright
      | some sh =>
        rw [hsh] at hright
        obtain ⟨e, he, rfl⟩ := List.mem_map.mp (show k ∈ sh.entries.map Sigma.fst from hright)
        exact ⟨e.2, he⟩

theorem shardIndex_of_item (h : w.Valid) {i : Fin storeShards} {k : A}
    (hk : k ∈ DifferingKeys.shardItems w (w.pages s) (w.pages s') i) : shardIndex k = i := by
  rcases mem_shardItems hk with ⟨r, hr⟩ | ⟨r, hr⟩
  · exact shardIndex_of_entry h hr
  · exact shardIndex_of_entry h hr

omit [ShardHash A] in
theorem shardItems_nodup (w : Stores A V) (s s' : Nat) (i : Fin storeShards) :
    (DifferingKeys.shardItems w (w.pages s) (w.pages s') i).Nodup := by
  unfold DifferingKeys.shardItems
  split_ifs
  · exact List.nodup_nil
  · refine List.nodup_append'.mpr ⟨?_, ?_, fun k hleft hright => ?_⟩
    · refine List.Nodup.sublist (List.filter_sublist.map _) ?_
      simp only [DifferingKeys.load]
      cases (w.pages s).bind (· i) with
      | none => exact List.nodup_nil
      | some q => exact (w.shards q).keys_nodup
    · refine List.Nodup.filter _ ?_
      simp only [DifferingKeys.load]
      cases (w.pages s').bind (· i) with
      | none => exact List.nodup_nil
      | some q => exact (w.shards q).keys_nodup
    · -- a key of the left page is not reported again for the right one
      obtain ⟨e, he, rfl⟩ := List.mem_map.mp hleft
      have habsent := (List.mem_filter.mp hright).2
      have he := (List.mem_filter.mp he).1
      simp only [DifferingKeys.load, DifferingKeys.absent] at he habsent
      cases hq : (w.pages s).bind (· i) with
      | none => simp [hq] at he
      | some q =>
        rw [hq] at he habsent
        have hmem : e.1 ∈ w.shards q := AList.mem_keys.mp (List.mem_map_of_mem he)
        simp [hmem] at habsent

/-- A key that two stores show different values for is in its shard's items. -/
theorem mem_shardItems_of_ne {k : A} (hne : w.get s k ≠ w.get s' k) :
    k ∈ DifferingKeys.shardItems w (w.pages s) (w.pages s') (shardIndex k) := by
  have hptr : ¬ (w.pages s).bind (· (shardIndex k)) = (w.pages s').bind (· (shardIndex k)) := by
    intro heq
    have heq : w.shardPtr (s, shardIndex k) = w.shardPtr (s', shardIndex k) := heq
    exact hne (by rw [get, get, entryArc, entryArc, shard, shard, heq])
  unfold DifferingKeys.shardItems
  rw [if_neg hptr]
  refine List.mem_append.mpr ?_
  cases hleft : w.entryArc s k with
  | some r =>
    obtain ⟨sh, hsh, hlookup⟩ := Option.bind_eq_some_iff.mp hleft
    refine .inl (List.mem_map.mpr ⟨⟨k, r⟩, List.mem_filter.mpr ⟨?_, ?_⟩, rfl⟩)
    · change _ ∈ ((w.shard (s, shardIndex k)).map (·.entries)).getD []
      rw [hsh]
      exact AList.mem_lookup_iff.mp hlookup
    · refine decide_eq_true fun hright => hne ?_
      have hright : w.entryArc s' k = some r := hright
      rw [get, get, hleft, hright]
  | none =>
    have hnone : w.get s k = none := by rw [get, hleft]; rfl
    obtain ⟨v, hv⟩ := Option.ne_none_iff_exists'.mp fun h => hne (hnone.trans h.symm)
    obtain ⟨r, hr, -⟩ := Option.bind_eq_some_iff.mp hv
    obtain ⟨sh, hsh, hlookup⟩ := Option.bind_eq_some_iff.mp hr
    refine .inr (List.mem_filter.mpr ⟨?_, ?_⟩)
    · change _ ∈ ((w.shard (s', shardIndex k)).map (·.keys)).getD []
      rw [hsh]
      exact AList.mem_keys.mp (AList.lookup_isSome.mp (by simp [hlookup]))
    · have habsent : ∀ left, w.shard (s, shardIndex k) = some left → k ∉ left := by
        intro left hl hk
        have hlookup := AList.lookup_isSome.mpr hk
        rw [entryArc, hl] at hleft
        rw [show left.lookup k = none from hleft] at hlookup
        cases hlookup
      show (!((w.shard (s, shardIndex k)).any fun left => decide (k ∈ left))) = true
      cases hl : w.shard (s, shardIndex k) with
      | none => rfl
      | some left => simp [habsent left hl]

/-- `differing_keys` yields no key twice, and every key at which the stores differ. -/
theorem differingKeys_spec (h : w.Valid) (s s' : Nat) :
    ∃ keys, Yields (DifferingKeys.step w (w.pages s) (w.pages s')) (w.differingKeys s s') keys ∧
      keys.Nodup ∧ ∀ k, w.get s k ≠ w.get s' k → k ∈ keys := by
  refine ⟨_, DifferingKeys.yields w _ _ _, ?_, fun k hne => ?_⟩
  · rw [items_differingKeys]
    split_ifs
    · exact List.nodup_nil
    · refine List.nodup_flatMap.mpr ⟨fun i _ => shardItems_nodup w s s' i, ?_⟩
      refine (List.nodup_finRange storeShards).pairwise_of_forall_ne fun i _ j _ hij k hi hj => ?_
      exact hij ((shardIndex_of_item h hi).symm.trans (shardIndex_of_item h hj))
  · rw [items_differingKeys]
    split_ifs with htable
    · refine absurd ?_ hne
      rw [get, get, entryArc, entryArc, shard, shard, shardPtr, shardPtr, pages, pages, htable]
    · exact List.mem_flatMap.mpr ⟨shardIndex k, List.mem_finRange _, mem_shardItems_of_ne hne⟩

/-! ## Any interleaving -/

end Stores

/-- An operation on one of the stores, and what its caller does with the reference it returns. -/
inductive StoreOp (A V : Type) where
  | default
  | fork (s : Nat)
  | drop (s : Nat)
  | release (r : Ptr)
  | insert (s : Nat) (key : A) (value : V)
  | remove (s : Nat) (key : A)
  | getMut (s : Nat) (key : A) (f : V → V)
  | entry (s : Nat) (key : A)
  | orInsertWith (s : Nat) (key : A) (default : V) (f : V → V)
  | cloneEntryFrom (s : Nat) (key : A) (source : Nat)
  | reserve (s : Nat) (additional : Nat)
  | extend (s : Nat) (values : List (A × V))
  | valuesMut (s : Nat) (f : V → V)

/-- The store an operation writes to. -/
def StoreOp.target {A V : Type} : StoreOp A V → Option Nat
  | .default | .fork _ | .drop _ | .release _ => none
  | .insert s _ _ | .remove s _ | .getMut s _ _ | .entry s _ | .orInsertWith s _ _ _
  | .cloneEntryFrom s _ _ | .reserve s _ | .extend s _ | .valuesMut s _ => some s

/-- Plain maps, independent of each other. -/
@[ext] structure Maps (A V : Type) where
  maps : Nat → Option (A → Option V)
  created : Nat

namespace Maps
variable {A V : Type}

def empty : Maps A V := ⟨fun _ => none, 0⟩

def create (m : Maps A V) (f : A → Option V) : Maps A V :=
  ⟨Function.update m.maps m.created (some f), m.created + 1⟩

def modify (m : Maps A V) (s : Nat) (f : (A → Option V) → A → Option V) : Maps A V :=
  { m with maps := Function.update m.maps s ((m.maps s).map f) }

/-- Each operation on the map it names, and on no other. -/
def step [DecidableEq A] (m : Maps A V) : StoreOp A V → Maps A V
  | .default => m.create fun _ => none
  | .fork s => ((m.maps s).map m.create).getD m
  | .drop s => { m with maps := Function.update m.maps s none }
  | .release _ | .entry .. | .reserve .. => m
  | .insert s key value => m.modify s fun f => Function.update f key (some value)
  | .remove s key => m.modify s fun f => Function.update f key none
  | .getMut s key g => m.modify s fun f => Function.update f key ((f key).map g)
  | .orInsertWith s key default g =>
    m.modify s fun f => Function.update f key (some (g ((f key).getD default)))
  | .cloneEntryFrom s key source =>
    match (m.maps source).bind (· key) with
    | some value => m.modify s fun f => Function.update f key (some value)
    | none => m
  | .extend s values =>
    m.modify s fun f => values.foldl (fun f e => Function.update f e.1 (some e.2)) f
  | .valuesMut s g => m.modify s fun f key => (f key).map g

theorem modify_modify (m : Maps A V) (s : Nat) (f g : (A → Option V) → A → Option V) :
    (m.modify s f).modify s g = m.modify s fun x => g (f x) := by
  simp [Maps.modify, Option.map_map, Function.comp_def]

theorem modify_eq_self {m : Maps A V} {s : Nat} {g : (A → Option V) → A → Option V}
    (h : ∀ f, m.maps s = some f → g f = f) : m.modify s g = m := by
  have hmap : (m.maps s).map g = m.maps s := by
    cases hs : m.maps s with
    | none => rfl
    | some f => exact congrArg some (h f hs)
  rw [modify, hmap, Function.update_eq_self]

theorem modify_congr {m : Maps A V} {s : Nat} {g g' : (A → Option V) → A → Option V}
    (h : ∀ f, m.maps s = some f → g f = g' f) : m.modify s g = m.modify s g' := by
  have hmap : (m.maps s).map g = (m.maps s).map g' := by
    cases hs : m.maps s with
    | none => rfl
    | some f => exact congrArg some (h f hs)
  rw [modify, modify, hmap]

end Maps

namespace Stores
variable {A V : Type}

/-- A new store with the page table and length of `st`. -/
def create (w : Stores A V) (st : SymbolicStore) : Stores A V :=
  { w with stores := Function.update w.stores w.created (some st), created := w.created + 1 }

/-- `fork` and `clone`: the page table is shared. -/
def fork (w : Stores A V) (s : Nat) : Stores A V := ((w.stores s).map w.create).getD w

def drop (w : Stores A V) (s : Nat) : Stores A V :=
  { w with stores := Function.update w.stores s none }

variable [DecidableEq A] [ShardHash A]

/-- One operation. There is none on a store that does not exist. -/
def step (w : Stores A V) (op : StoreOp A V) : Stores A V :=
  if op.target.any fun s => (w.stores s).isNone then w
  else
    match op with
    | .default => w.create ⟨none, 0⟩
    | .fork s => w.fork s
    | .drop s => w.drop s
    | .release r => { w with held := w.held.erase r }
    | .insert s key value => w.insert s key value
    | .remove s key => w.remove s key
    | .getMut s key f => w.getMut s key f
    | .entry s key => w.entry s key
    | .orInsertWith s key default f => w.orInsertWith s key default f
    | .cloneEntryFrom s key source => w.cloneEntryFrom s key source
    | .reserve s additional => w.reserve s additional
    | .extend s values => w.extend s values
    | .valuesMut s f => w.valuesMut s f

/-- The maps the stores stand for. -/
def toMaps (w : Stores A V) : Maps A V := ⟨fun s => (w.stores s).map fun _ => w.get s, w.created⟩

/-- Pointers are valid and every length counts the keys. -/
structure Inv (w : Stores A V) : Prop where
  valid : w.Valid
  counts : ∀ s st, w.stores s = some st → Counts (w.get s) st.len

variable {w w' : Stores A V} {s : Nat} {st : SymbolicStore}

theorem inv_empty : (empty : Stores A V).Inv where
  valid := by
    refine ⟨?_, ?_, ?_, ?_, ?_, ?_, ?_⟩ <;>
      simp [empty, table, shardPtr, shard, pages, entryArc]
  counts s st h := by cases h

theorem toMaps_maps (w : Stores A V) (hs : w.stores s = some st) :
    w.toMaps.maps s = some (w.get s) := congrArg (Option.map fun _ => w.get s) hs

/-- The stores there are, from the lengths they have. -/
theorem map_const_eq {o o' : Option SymbolicStore} {n : SymbolicStore → Nat}
    (h : o'.map (·.len) = o.map n) {B : Type} (b : B) :
    (o'.map fun _ => b) = o.map fun _ => b := by
  cases o <;> cases o' <;> simp_all

theorem Same.toMaps (h : Same w w') : w'.toMaps = w.toMaps := by
  refine Maps.ext (funext fun s => ?_) h.created
  have hget : w'.get s = w.get s := funext (h.get s)
  simp only [Stores.toMaps, hget]
  exact map_const_eq (h.len s) _

theorem Inv.same (h : w.Inv) (hsame : Same w w') (hvalid : w'.Valid) : w'.Inv where
  valid := hvalid
  counts s st' hs' := by
    have hlen := hsame.len s
    rw [hs'] at hlen
    obtain ⟨st, hs, hst⟩ := Option.map_eq_some_iff.mp hlen.symm
    have hget : w'.get s = w.get s := funext (hsame.get s)
    dsimp only at hst
    rw [hget, ← hst]
    exact h.counts s st hs

theorem Sets.get_eq {key : A} {v : Option V} (h : Sets w w' s key v) :
    w'.get s = Function.update (w.get s) key v := by
  funext k
  rw [h.get]
  by_cases hk : k = key
  · subst hk
    simp
  · rw [if_neg fun hp => hk hp.2, Function.update_of_ne hk]

theorem Sets.toMaps {key : A} {v : Option V} (h : Sets w w' s key v) :
    w'.toMaps = w.toMaps.modify s fun f => Function.update f key v := by
  refine Maps.ext (funext fun s' => ?_) h.created
  by_cases hs' : s' = s
  · subst hs'
    simp only [Stores.toMaps, Maps.modify, Function.update_self, Option.map_map, h.get_eq]
    exact map_const_eq (h.len s') _
  · have hget : w'.get s' = w.get s' := funext fun k => by
      rw [h.get, if_neg fun hp => hs' hp.1]
    simp only [Stores.toMaps, Maps.modify, Function.update_of_ne hs', hget]
    exact map_const_eq (h.len s') _

theorem Inv.sets {key : A} {v : Option V} (h : w.Inv) (hsets : Sets w w' s key v) : w'.Inv :=
  ⟨hsets.valid, fun s' _ hs' => hsets.counts (h.counts s') hs'⟩

/-- A store an operation writes to exists afterwards. -/
theorem Sets.live {key : A} {v : Option V} (h : Sets w w' s key v) (hs : w.stores s = some st) :
    ∃ st', w'.stores s = some st' := by
  have hlen := h.len s
  rw [hs] at hlen
  obtain ⟨st', hs', -⟩ := Option.map_eq_some_iff.mp hlen
  exact ⟨st', hs'⟩

theorem extend_refines (h : w.Inv) (hs : w.stores s = some st) (values : List (A × V)) :
    (w.extend s values).Inv ∧ (w.extend s values).toMaps =
      w.toMaps.modify s fun f => values.foldl (fun f e => Function.update f e.1 (some e.2)) f := by
  induction values generalizing w st with
  | nil => exact ⟨h, (Maps.modify_eq_self fun _ _ => rfl).symm⟩
  | cons e values ih =>
    have hsets := insert_sets h.valid hs e.1 e.2
    obtain ⟨st', hs'⟩ := hsets.live hs
    obtain ⟨hinv, hmaps⟩ := ih (h.sets hsets) hs'
    refine ⟨hinv, hmaps.trans ?_⟩
    rw [hsets.toMaps, Maps.modify_modify]
    rfl

theorem valuesMut_refines (h : w.Inv) (hs : w.stores s = some st) (f : V → V) :
    (w.valuesMut s f).Inv ∧
      (w.valuesMut s f).toMaps = w.toMaps.modify s fun g key => (g key).map f := by
  have hchanges := valuesMut_changes h.valid hs f
  have hget : (w.valuesMut s f).get s = fun k => (w.get s k).map f :=
    funext fun k => hchanges.get_in k trivial
  have hother : ∀ s', s' ≠ s → (w.valuesMut s f).get s' = w.get s' := fun s' hs' =>
    funext fun k => hchanges.get_out s' k fun hp => hs' hp.1
  refine ⟨⟨hchanges.valid, fun s' st' hs' => ?_⟩, Maps.ext (funext fun s' => ?_) hchanges.created⟩
  · have hlen := hchanges.len s'
    rw [hs'] at hlen
    obtain ⟨old, hold, hst⟩ := Option.map_eq_some_iff.mp hlen.symm
    dsimp only at hst
    rw [← hst]
    by_cases hne : s' = s
    · subst hne
      obtain ⟨keys, hnodup, hmem, hlen⟩ := h.counts s' old hold
      exact ⟨keys, hnodup, fun k => by rw [hmem, hget, Option.isSome_map], hlen⟩
    · rw [hother s' hne]
      exact h.counts s' old hold
  · by_cases hne : s' = s
    · subst hne
      simp only [toMaps, Maps.modify, Function.update_self, Option.map_map, hget]
      exact map_const_eq (hchanges.len s') _
    · simp only [toMaps, Maps.modify, Function.update_of_ne hne, hother s' hne]
      exact map_const_eq (hchanges.len s') _

/-- The stores change, but their page tables are those there were. -/
theorem Valid.of_tables (h : w.Valid) {stores : Nat → Option SymbolicStore} {created : Nat}
    (hlive : ∀ s st, stores s = some st → s < created)
    (htable : ∀ s', ({ w with stores, created } : Stores A V).table s' = none ∨
      ∃ s, ({ w with stores, created } : Stores A V).table s' = w.table s) :
    ({ w with stores, created } : Stores A V).Valid := by
  have hshard : ∀ s', (∀ i, ({ w with stores, created } : Stores A V).shardPtr (s', i) = none) ∨
      ∃ s, ∀ i, ({ w with stores, created } : Stores A V).shardPtr (s', i) = w.shardPtr (s, i) := by
    intro s'
    refine (htable s').imp (fun hnone i => ?_) fun ⟨s, hs⟩ => ⟨s, fun i => ?_⟩
    · rw [shardPtr, pages, hnone]
      rfl
    · rw [shardPtr, pages, hs]
      rfl
  have hentry : ∀ s' k r, ({ w with stores, created } : Stores A V).entryArc s' k = some r →
      ∃ s, w.entryArc s k = some r := by
    intro s' k r hr
    rcases hshard s' with hnone | ⟨s, hs⟩
    · rw [entryArc, shard, hnone] at hr
      cases hr
    · rw [entryArc, shard, hs] at hr
      exact ⟨s, hr⟩
  refine ⟨hlive, fun s' p hp => ?_, fun si q hq => ?_, fun s' i sh hsh => ?_,
    fun s' k r hr => ?_, fun s' k r hr => ?_, h.held_lt⟩
  · rcases htable s' with hnone | ⟨s, hs⟩
    · rw [hnone] at hp
      cases hp
    · exact h.table_lt s p (hs ▸ hp)
  · obtain ⟨s', i⟩ := si
    rcases hshard s' with hnone | ⟨s, hs⟩
    · rw [hnone] at hq
      cases hq
    · exact h.shard_lt (s, i) q (hs i ▸ hq)
  · rcases hshard s' with hnone | ⟨s, hs⟩
    · rw [shard, hnone] at hsh
      cases hsh
    · rw [shard, hs] at hsh
      exact h.homed s i sh hsh
  · obtain ⟨s, hs⟩ := hentry s' k r hr
    exact h.range_lt s k r hs
  · obtain ⟨s, hs⟩ := hentry s' k r hr
    exact h.range_some s k r hs

/-- What a store shows depends on its page table alone. -/
theorem get_of_table {stores : Nat → Option SymbolicStore} {created s' : Nat}
    (h : ({ w with stores, created } : Stores A V).table s' = w.table s) :
    ({ w with stores, created } : Stores A V).get s' = w.get s := by
  funext k
  rw [get, get, entryArc, entryArc, shard, shard, shardPtr, shardPtr, pages, pages, h]

theorem get_of_no_table (h : w.table s = none) (k : A) : w.get s k = none := by
  rw [get, entryArc, shard, shardPtr, pages, h]
  rfl

/-- A new store, empty or the copy of another one. -/
theorem create_refines (h : w.Inv) {f : A → Option V} (hcounts : Counts f st.len)
    (hf : (w.create st).get w.created = f)
    (htable : st.entries = none ∨ ∃ s, st.entries = w.table s) :
    (w.create st).Inv ∧ (w.create st).toMaps = w.toMaps.create f := by
  have hold : ∀ s', s' ≠ w.created → (w.create st).stores s' = w.stores s' := fun s' hs' =>
    Function.update_of_ne hs' ..
  have hnew : (w.create st).stores w.created = some st := Function.update_self ..
  have hget : ∀ s', s' ≠ w.created → (w.create st).get s' = w.get s' := fun s' hs' =>
    get_of_table (congrArg (·.bind (·.entries)) (hold s' hs'))
  refine ⟨⟨h.valid.of_tables (fun s' st' hs' => ?_) fun s' => ?_, fun s' st' hs' => ?_⟩,
    Maps.ext (funext fun s' => ?_) rfl⟩
  · by_cases hne : s' = w.created
    · exact hne ▸ Nat.lt_succ_self _
    · exact (h.valid.live s' st' ((hold s' hne).symm.trans hs')).trans (Nat.lt_succ_self _)
  · by_cases hne : s' = w.created
    · subst hne
      have hentries : (w.create st).table w.created = st.entries := by rw [table, hnew]; rfl
      exact htable.imp hentries.trans (Exists.imp fun s => hentries.trans)
    · exact .inr ⟨s', congrArg (·.bind (·.entries)) (hold s' hne)⟩
  · by_cases hne : s' = w.created
    · subst hne
      rw [hnew] at hs'
      rw [hf, ← Option.some.inj hs']
      exact hcounts
    · rw [hold s' hne] at hs'
      rw [hget s' hne]
      exact h.counts s' st' hs'
  · by_cases hne : s' = w.created
    · subst hne
      simp only [toMaps, hnew, hf, Maps.create, Function.update_self]
      rfl
    · simp only [toMaps, hold s' hne, hget s' hne, Maps.create]
      rw [Function.update_of_ne hne]

theorem default_refines (h : w.Inv) : (w.create ⟨none, 0⟩).Inv ∧
    (w.create ⟨none, 0⟩).toMaps = w.toMaps.create fun _ => none := by
  refine create_refines h ⟨[], List.nodup_nil, by simp, rfl⟩ (funext fun k => ?_) (.inl rfl)
  exact get_of_no_table (by simp [table, create]) k

theorem fork_refines (h : w.Inv) (s : Nat) : (w.fork s).Inv ∧
    (w.fork s).toMaps = ((w.toMaps.maps s).map w.toMaps.create).getD w.toMaps := by
  unfold fork
  cases hs : w.stores s with
  | none =>
    rw [show w.toMaps.maps s = none by simp [toMaps, hs]]
    exact ⟨h, rfl⟩
  | some st =>
    rw [toMaps_maps w hs]
    have htable : st.entries = w.table s := by rw [table, hs]; rfl
    refine create_refines h (h.counts s st hs) (get_of_table ?_) (.inr ⟨s, htable⟩)
    rw [← htable]
    simp [table]

theorem drop_refines (h : w.Inv) (s : Nat) : (w.drop s).Inv ∧
    (w.drop s).toMaps = { w.toMaps with maps := Function.update w.toMaps.maps s none } := by
  have hold : ∀ s', s' ≠ s → (w.drop s).stores s' = w.stores s' := fun s' hs' =>
    Function.update_of_ne hs' ..
  have hgone : (w.drop s).stores s = none := Function.update_self ..
  have hget : ∀ s', s' ≠ s → (w.drop s).get s' = w.get s' := fun s' hs' =>
    get_of_table (congrArg (·.bind (·.entries)) (hold s' hs'))
  refine ⟨⟨h.valid.of_tables (fun s' st' hs' => ?_) fun s' => ?_, fun s' st' hs' => ?_⟩,
    Maps.ext (funext fun s' => ?_) rfl⟩
  · by_cases hne : s' = s
    · rw [hne] at hs'
      rw [show Function.update w.stores s none s = none from Function.update_self ..] at hs'
      cases hs'
    · exact h.valid.live s' st' ((hold s' hne).symm.trans hs')
  · by_cases hne : s' = s
    · subst hne
      exact .inl (congrArg (·.bind (·.entries)) hgone)
    · exact .inr ⟨s', congrArg (·.bind (·.entries)) (hold s' hne)⟩
  · by_cases hne : s' = s
    · subst hne
      rw [hgone] at hs'
      cases hs'
    · rw [hold s' hne] at hs'
      rw [hget s' hne]
      exact h.counts s' st' hs'
  · by_cases hne : s' = s
    · subst hne
      simp [toMaps, hgone]
    · simp only [toMaps, hold s' hne, hget s' hne]
      rw [Function.update_of_ne hne]

theorem map_of_toMaps {f : A → Option V} (h : w.toMaps.maps s = some f) : f = w.get s := by
  obtain ⟨st, -, rfl⟩ := Option.map_eq_some_iff.mp h
  rfl

/-- An operation on a store that does not exist. -/
theorem step_absent {op : StoreOp A V} (hop : op.target = some s) (hs : w.stores s = none) :
    w.step op = w ∧ w.toMaps.step op = w.toMaps := by
  have hnone : w.toMaps.maps s = none := by simp [toMaps, hs]
  have hmodify : ∀ g, w.toMaps.modify s g = w.toMaps := fun g =>
    Maps.modify_eq_self fun f hf => by simp [hnone] at hf
  constructor
  · unfold step
    rw [if_pos (by simp [hop, hs])]
  · cases op <;> cases hop <;> simp only [Maps.step, hmodify]
    split <;> rfl

/-- An operation on a store that exists. -/
theorem step_live {op : StoreOp A V} (hop : op.target = some s) (hs : w.stores s = some st)
    (h : w.Inv) : (w.step op).Inv ∧ (w.step op).toMaps = w.toMaps.step op := by
  have hlive : ¬ (op.target.any fun s => (w.stores s).isNone) = true := by simp [hop, hs]
  have hsets : ∀ {w' : Stores A V} {key v}, Sets w w' s key v →
      w'.Inv ∧ w'.toMaps = w.toMaps.modify s fun f => Function.update f key v :=
    fun hw => ⟨h.sets hw, hw.toMaps⟩
  unfold step
  rw [if_neg hlive]
  cases op with
  | default => cases hop
  | fork => cases hop
  | drop => cases hop
  | release => cases hop
  | insert s key value =>
    cases hop
    exact hsets (insert_sets h.valid hs key value)
  | remove s key =>
    cases hop
    cases hv : w.get s key with
    | some v => exact hsets (remove_sets h.valid hs (h.counts s st hs) hv)
    | none =>
      dsimp only
      rw [remove_absent h.valid hv]
      refine ⟨h, (Maps.modify_eq_self fun f hf => ?_).symm⟩
      rw [map_of_toMaps hf, Function.update_eq_self_iff, hv]
  | getMut s key g =>
    cases hop
    cases hv : w.get s key with
    | some v =>
      obtain ⟨hinv, hmaps⟩ := hsets (getMut_sets h.valid hs hv g)
      refine ⟨hinv, hmaps.trans (Maps.modify_congr fun f hf => ?_)⟩
      rw [map_of_toMaps hf, hv]
      rfl
    | none =>
      dsimp only
      rw [getMut_absent h.valid hv]
      refine ⟨h, (Maps.modify_eq_self fun f hf => ?_).symm⟩
      rw [map_of_toMaps hf, Function.update_eq_self_iff, hv]
      rfl
  | entry s key =>
    cases hop
    obtain ⟨hvalid, hsame⟩ := entry_spec h.valid hs key
    exact ⟨h.same hsame hvalid, hsame.toMaps⟩
  | orInsertWith s key default g =>
    cases hop
    obtain ⟨hinv, hmaps⟩ := hsets (orInsertWith_sets h.valid hs key default g)
    refine ⟨hinv, hmaps.trans (Maps.modify_congr fun f hf => ?_)⟩
    rw [map_of_toMaps hf]
  | cloneEntryFrom s key source =>
    cases hop
    have hsource : (w.toMaps.maps source).bind (· key) = w.get source key := by
      cases hst : w.stores source with
      | none =>
        rw [show w.toMaps.maps source = none by simp [toMaps, hst]]
        exact (get_of_no_table (by rw [table, hst]; rfl) key).symm
      | some st' => rw [toMaps_maps w hst]; rfl
    simp only [Maps.step, hsource]
    cases hv : w.get source key with
    | some v => exact hsets (cloneEntryFrom_sets h.valid hs hv)
    | none =>
      rw [cloneEntryFrom_absent h.valid hv]
      exact ⟨h, rfl⟩
  | reserve s additional =>
    cases hop
    obtain ⟨hvalid, hsame⟩ := reserve_spec h.valid hs additional
    exact ⟨h.same hsame hvalid, hsame.toMaps⟩
  | extend s values =>
    cases hop
    exact extend_refines h hs values
  | valuesMut s f =>
    cases hop
    exact valuesMut_refines h hs f

/-- Each operation does to the maps what it does to plain maps. -/
theorem step_refines (h : w.Inv) (op : StoreOp A V) :
    (w.step op).Inv ∧ (w.step op).toMaps = w.toMaps.step op := by
  cases hop : op.target with
  | some s =>
    cases hs : w.stores s with
    | some st => exact step_live hop hs h
    | none =>
      obtain ⟨hstep, hmaps⟩ := step_absent hop hs
      rw [hstep, hmaps]
      exact ⟨h, rfl⟩
  | none =>
    unfold step
    rw [if_neg (by simp [hop])]
    cases op with
    | default => exact default_refines h
    | fork s => exact fork_refines h s
    | drop s => exact drop_refines h s
    | release r =>
      refine ⟨⟨{ h.valid with held_lt := fun r' hr' => ?_ }, h.counts⟩, rfl⟩
      exact h.valid.held_lt r' (List.mem_of_mem_erase hr')
    | _ => cases hop

def run (ops : List (StoreOp A V)) : Stores A V := ops.foldl step empty

theorem run_refines (ops : List (StoreOp A V)) :
    (run ops).Inv ∧ (run ops).toMaps = ops.foldl Maps.step Maps.empty := by
  have hloop : ∀ (ops : List (StoreOp A V)) (w : Stores A V), w.Inv →
      (ops.foldl step w).Inv ∧ (ops.foldl step w).toMaps = ops.foldl Maps.step w.toMaps := by
    intro ops
    induction ops with
    | nil => exact fun w h => ⟨h, rfl⟩
    | cons op ops ih =>
      intro w h
      obtain ⟨hinv, hmaps⟩ := step_refines h op
      obtain ⟨hinv', hmaps'⟩ := ih _ hinv
      exact ⟨hinv', hmaps'.trans (by rw [hmaps]; rfl)⟩
  exact hloop ops empty inv_empty

/-- What can be read of a store: its length is the number of its keys, and each iterator goes
through every key once. -/
structure Readable (w : Stores A V) (s : Nat) (st : SymbolicStore) (keys : List A) : Prop where
  nodup : keys.Nodup
  mem : ∀ k, k ∈ keys ↔ (w.get s k).isSome
  len : st.len = keys.length
  exact_size : (w.iter s).Exact
  keys_yields : Yields (StoreIter.next keysItem) (w.iter s) keys
  iter_yields : Yields (StoreIter.next w.iterItem) (w.iter s) (keys.map fun k => (k, w.get s k))
  values_yields : Yields (StoreIter.next w.valuesItem) (w.iter s) (keys.map (w.get s))
  intoIter_eq : w.intoIter s = keys.map fun k => (k, w.get s k)

theorem Inv.readable (h : w.Inv) (hs : w.stores s = some st) :
    w.Readable s st ((w.entriesOf s).map keysItem) := by
  have hnodup := keys_nodup h.valid s
  have hmem := fun k => mem_keys (s := s) h.valid k
  have hlen : st.len = ((w.entriesOf s).map keysItem).length :=
    (h.counts s st hs).unique ⟨_, hnodup, hmem, rfl⟩
  have hget : ∀ e ∈ w.entriesOf s, w.ranges e.2 = w.get s (keysItem e) := fun e he => by
    rw [get, keysItem, (mem_entriesOf h.valid e).mp he]
    rfl
  have hiter : (w.entriesOf s).map w.iterItem =
      ((w.entriesOf s).map keysItem).map fun k => (k, w.get s k) := by
    rw [List.map_map]
    exact List.map_congr_left fun e he => Prod.ext rfl (hget e he)
  refine ⟨hnodup, hmem, hlen, ?_, ?_, ?_, ?_, ?_⟩
  · rw [StoreIter.Exact, rest_iter]
    simp only [iter, hs]
    exact hlen.trans (List.length_map ..)
  · exact rest_iter w s ▸ StoreIter.yields keysItem (w.iter s)
  · exact hiter ▸ rest_iter w s ▸ StoreIter.yields w.iterItem (w.iter s)
  · have hvalues : (w.entriesOf s).map w.valuesItem =
        ((w.entriesOf s).map keysItem).map (w.get s) := by
      rw [List.map_map]
      exact List.map_congr_left hget
    exact hvalues ▸ rest_iter w s ▸ StoreIter.yields w.valuesItem (w.iter s)
  · rw [intoIter_eq, hiter]

/-- Stores are independent finite maps, whatever their forks share: any interleaving of
operations leaves every store with the map its own operations make, its length, iterators and
differences to other stores included. -/
theorem stores_are_independent_maps (ops : List (StoreOp A V)) :
    (run ops).toMaps = ops.foldl Maps.step Maps.empty ∧
      (∀ s st, (run ops).stores s = some st → ∃ keys, (run ops).Readable s st keys) ∧
      ∀ s s', ∃ keys, Yields (DifferingKeys.step (run ops) ((run ops).pages s)
          ((run ops).pages s')) ((run ops).differingKeys s s') keys ∧ keys.Nodup ∧
        ∀ k, (run ops).get s k ≠ (run ops).get s' k → k ∈ keys := by
  obtain ⟨hinv, hmaps⟩ := run_refines ops
  exact ⟨hmaps, fun s st hs => ⟨_, hinv.readable hs⟩, differingKeys_spec hinv.valid⟩

end Stores
end Celox.Slt
