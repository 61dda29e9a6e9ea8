import Mathlib

/-! # The elements of a finite set in order

What iterating over a search tree visits. -/

/-! ## Ordered maps

A finite map as its entries in ascending order of their keys, with the range operations of a
search tree. -/
namespace Celox

structure OrderedMap (κ α : Type) [LT κ] where
  entries : List (κ × α)
  sorted : entries.Pairwise fun a b => a.1 < b.1

namespace OrderedMap
variable {κ α : Type} [LinearOrder κ]

@[ext] theorem ext {m n : OrderedMap κ α} (h : m.entries = n.entries) : m = n := by
  cases m
  cases n
  cases h
  rfl

def empty : OrderedMap κ α := ⟨[], .nil⟩

def get? (m : OrderedMap κ α) (k : κ) : Option α := (m.entries.find? fun e => e.1 = k).map (·.2)

/-- The entries with keys below `k`. -/
def below (m : OrderedMap κ α) (k : κ) : List (κ × α) := m.entries.filter fun e => e.1 < k

/-- The entries with keys above `k`. -/
def above (m : OrderedMap κ α) (k : κ) : List (κ × α) := m.entries.filter fun e => k < e.1

def insert (m : OrderedMap κ α) (k : κ) (a : α) : OrderedMap κ α where
  entries := m.below k ++ (k, a) :: m.above k
  sorted := by
    refine List.pairwise_append.mpr ⟨m.sorted.filter _, ?_, ?_⟩
    · exact List.pairwise_cons.mpr
        ⟨fun e he => by simpa using (List.mem_filter.mp he).2, m.sorted.filter _⟩
    · intro e he f hf
      have hlt : e.1 < k := by simpa using (List.mem_filter.mp he).2
      rcases List.mem_cons.mp hf with rfl | hf
      · exact hlt
      · exact hlt.trans (by simpa using (List.mem_filter.mp hf).2)

theorem insert_entries (m : OrderedMap κ α) (k : κ) (a : α) :
    (m.insert k a).entries = m.below k ++ (k, a) :: m.above k := rfl

/-- The entry with the greatest key. -/
def last? (m : OrderedMap κ α) : Option (κ × α) := m.entries.getLast?

/-- The entry with the greatest key below `k`. -/
def lastBelow? (m : OrderedMap κ α) (k : κ) : Option (κ × α) := (m.below k).getLast?

/-- The entry with the greatest key up to `k`. -/
def lastUpTo? (m : OrderedMap κ α) (k : κ) : Option (κ × α) :=
  (m.entries.filter fun e => e.1 ≤ k).getLast?

/-- The entries with keys from `lo` to `hi`. -/
def range (m : OrderedMap κ α) (lo hi : κ) : List (κ × α) :=
  m.entries.filter fun e => lo ≤ e.1 ∧ e.1 ≤ hi

/-- Without the entries with keys from `lo` to `hi`. -/
def removeRange (m : OrderedMap κ α) (lo hi : κ) : OrderedMap κ α where
  entries := m.entries.filter fun e => ¬ (lo ≤ e.1 ∧ e.1 ≤ hi)
  sorted := m.sorted.filter _

section Split
variable {m : OrderedMap κ α} {xs ys zs : List (κ × α)} {k lo hi : κ}

/-- Below a key at which the entries split. -/
theorem below_eq (h : m.entries = xs ++ ys) (hx : ∀ e ∈ xs, e.1 < k) (hy : ∀ e ∈ ys, k ≤ e.1) :
    m.below k = xs := by
  rw [below, h, List.filter_append, List.filter_eq_self.mpr fun e he => by simp [hx e he],
    List.filter_eq_nil_iff.mpr fun e he => by simp [hy e he], List.append_nil]

theorem above_eq (h : m.entries = xs ++ ys) (hx : ∀ e ∈ xs, e.1 ≤ k) (hy : ∀ e ∈ ys, k < e.1) :
    m.above k = ys := by
  rw [above, h, List.filter_append, List.filter_eq_nil_iff.mpr fun e he => by simp [hx e he],
    List.filter_eq_self.mpr fun e he => by simp [hy e he], List.nil_append]

/-- Inserting a new key between two entries. -/
theorem insert_new (h : m.entries = xs ++ ys) (hx : ∀ e ∈ xs, e.1 < k)
    (hy : ∀ e ∈ ys, k < e.1) (a : α) : (m.insert k a).entries = xs ++ (k, a) :: ys := by
  rw [insert_entries, below_eq h hx fun e he => (hy e he).le, above_eq h (fun e he => (hx e he).le) hy]

/-- Inserting a key that has an entry replaces it. -/
theorem insert_replace {a b : α} (h : m.entries = xs ++ (k, b) :: ys) :
    (m.insert k a).entries = xs ++ (k, a) :: ys := by
  have hsorted := m.sorted
  rw [h, List.pairwise_append, List.pairwise_cons] at hsorted
  obtain ⟨-, ⟨hy, -⟩, hx⟩ := hsorted
  have hbelow : m.below k = xs := by
    refine below_eq h (fun e he => hx e he (k, b) (by simp)) fun e he => ?_
    rcases List.mem_cons.mp he with rfl | he
    · exact le_refl _
    · exact (hy e he).le
  have habove : m.above k = ys := by
    have hsplit : m.entries = (xs ++ [(k, b)]) ++ ys := by simp [h]
    refine above_eq hsplit (fun e he => ?_) hy
    rcases List.mem_append.mp he with he | he
    · exact (hx e he (k, b) (by simp)).le
    · exact (congrArg Prod.fst (List.mem_singleton.mp he)).le
  rw [insert_entries, hbelow, habove]

/-- Replacing an entry by one with its key and one with a key below the next. -/
theorem insert_split {j : κ} {b : α} (h : m.entries = xs ++ (j, b) :: ys) (hj : j < k)
    (hy : ∀ e ∈ ys, k < e.1) (left right : α) :
    ((m.insert j left).insert k right).entries = xs ++ (j, left) :: (k, right) :: ys := by
  have hinner : (m.insert j left).entries = (xs ++ [(j, left)]) ++ ys := by
    simp [insert_replace (a := left) h]
  have hsorted := m.sorted
  rw [h, List.pairwise_append] at hsorted
  rw [insert_new hinner (fun e he => ?_) hy, List.append_assoc]
  · rfl
  · rcases List.mem_append.mp he with he | he
    · exact (hsorted.2.2 e he (j, b) (by simp)).trans hj
    · exact (congrArg Prod.fst (List.mem_singleton.mp he)).trans_lt hj

variable (lo hi) in
/-- Removing a range that is a segment of the entries. -/
theorem removeRange_eq (h : m.entries = xs ++ ys ++ zs) (hx : ∀ e ∈ xs, e.1 < lo)
    (hy : ∀ e ∈ ys, lo ≤ e.1 ∧ e.1 ≤ hi) (hz : ∀ e ∈ zs, hi < e.1) :
    (m.removeRange lo hi).entries = xs ++ zs := by
  have hentries : (m.removeRange lo hi).entries =
      m.entries.filter fun e => ¬ (lo ≤ e.1 ∧ e.1 ≤ hi) := rfl
  rw [hentries, h, List.filter_append, List.filter_append,
    List.filter_eq_self.mpr fun e he => by simp [hx e he],
    List.filter_eq_nil_iff.mpr fun e he => by simp [hy e he],
    List.filter_eq_self.mpr fun e he => by simp [hz e he], List.append_nil]

/-- The last entry of a first part is the last one below a key between the parts. -/
theorem lastBelow_eq {e : κ × α} (h : m.entries = xs ++ e :: ys) (he : e.1 < k)
    (hy : ∀ f ∈ ys, k ≤ f.1) : m.lastBelow? k = some e := by
  have hsorted := m.sorted
  rw [h, List.pairwise_append] at hsorted
  have hbelow : m.below k = xs ++ [e] := by
    have hsplit : m.entries = (xs ++ [e]) ++ ys := by simp [h]
    refine below_eq hsplit (fun f hf => ?_) hy
    rcases List.mem_append.mp hf with hf | hf
    · exact (hsorted.2.2 f hf e (by simp)).trans he
    · exact (List.mem_singleton.mp hf).symm ▸ he
  rw [lastBelow?, hbelow, List.getLast?_concat]

theorem lastUpTo_eq {e : κ × α} (h : m.entries = xs ++ e :: ys) (he : e.1 ≤ k)
    (hy : ∀ f ∈ ys, k < f.1) : m.lastUpTo? k = some e := by
  have hsorted := m.sorted
  rw [h, List.pairwise_append] at hsorted
  have hx : ∀ f ∈ xs, f.1 ≤ k := fun f hf => (hsorted.2.2 f hf e (by simp)).le.trans he
  have hupTo : (m.entries.filter fun f => f.1 ≤ k) = xs ++ [e] := by
    rw [h, List.filter_append, List.filter_eq_self.mpr fun f hf => by simp [hx f hf],
      List.filter_cons_of_pos (by simp [he]),
      List.filter_eq_nil_iff.mpr fun f hf => by simp [hy f hf]]
  rw [lastUpTo?, hupTo, List.getLast?_concat]

end Split

/-! ## Reading -/

theorem get?_eq_some {m : OrderedMap κ α} {k : κ} {a : α} :
    m.get? k = some a ↔ (k, a) ∈ m.entries := by
  unfold get?
  constructor
  · intro h
    obtain ⟨e, hfind, rfl⟩ := Option.map_eq_some_iff.mp h
    have hkey : e.1 = k := by simpa using List.find?_some hfind
    exact hkey ▸ List.mem_of_find?_eq_some hfind
  · intro hmem
    obtain ⟨xs, ys, hsplit⟩ := List.append_of_mem hmem
    have hsorted := m.sorted
    rw [hsplit, List.pairwise_append] at hsorted
    have hnone : xs.find? (fun e => e.1 = k) = none := by
      refine List.find?_eq_none.mpr fun e he => ?_
      have hlt := hsorted.2.2 e he (k, a) (by simp)
      simpa using hlt.ne
    rw [hsplit, List.find?_append, hnone]
    simp

@[simp] theorem get?_empty (k : κ) : (empty : OrderedMap κ α).get? k = none := rfl

/-- The entries are determined by what is read. -/
theorem entries_eq {m n : OrderedMap κ α} (h : ∀ k, m.get? k = n.get? k) :
    m.entries = n.entries := by
  have hmem : ∀ e, e ∈ m.entries ↔ e ∈ n.entries := fun e => by
    rw [← get?_eq_some (a := e.2), h, get?_eq_some]
  have hnodup : ∀ m : OrderedMap κ α, m.entries.Nodup := fun m =>
    m.sorted.imp fun hlt heq => hlt.ne (congrArg Prod.fst heq)
  exact ((List.perm_ext_iff_of_nodup (hnodup m) (hnodup n)).mpr hmem).eq_of_pairwise
    (fun a b _ _ hab hba => absurd hba (lt_asymm hab)) m.sorted n.sorted
end OrderedMap
end Celox
