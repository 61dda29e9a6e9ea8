import Mathlib

/-! # Row-major order

The elements of an array with several dimensions, the last dimension the fastest. An element has one
index for each dimension; fewer indices name the elements that have them. -/
namespace Celox.RowMajor

/-- Every index is in its own dimension. -/
def Inside : List Nat → List Nat → Prop
  | _, [] => True
  | [], _ :: _ => False
  | dim :: dims, index :: indices => index < dim ∧ Inside dims indices

instance decidableInside : (dims indices : List Nat) → Decidable (Inside dims indices)
  | [], [] => isTrue trivial
  | _ :: _, [] => isTrue trivial
  | [], _ :: _ => isFalse id
  | dim :: dims, index :: indices =>
    have := decidableInside dims indices
    inferInstanceAs (Decidable (index < dim ∧ Inside dims indices))

/-- The place of an element, or of the first one that has these indices. -/
def position : List Nat → List Nat → Nat
  | _ :: dims, index :: indices => index * dims.prod + position dims indices
  | _, _ => 0

/-- The elements that have the indices, and that are in the window in the dimension behind them. -/
def Picks (window : Option (Nat × Nat)) : List Nat → List Nat → Prop
  | [], [] => window = none
  | [], index :: _ => ∀ low ∈ window, low.1 ≤ index ∧ index ≤ low.2
  | index :: indices, first :: element => first = index ∧ Picks window indices element
  | _ :: _, [] => False

/-- The places of these elements. -/
def places (dims indices : List Nat) (window : Option (Nat × Nat)) : Set Nat :=
  {place | ∃ element, element.length = dims.length ∧ Inside dims element ∧
    Picks window indices element ∧ position dims element = place}

section Places
variable {dims indices : List Nat} {window : Option (Nat × Nat)}

/-- The elements that have the indices end before the array does. -/
theorem Inside.position_add_le (h : Inside dims indices) :
    position dims indices + (dims.drop indices.length).prod ≤ dims.prod := by
  induction dims generalizing indices with
  | nil =>
    cases indices with
    | nil => exact le_rfl
    | cons => exact h.elim
  | cons dim dims ih =>
    cases indices with
    | nil => simp [position]
    | cons index indices =>
      calc position (dim :: dims) (index :: indices) + (dims.drop indices.length).prod
          = index * dims.prod + (position dims indices + (dims.drop indices.length).prod) :=
            Nat.add_assoc ..
        _ ≤ index * dims.prod + dims.prod := Nat.add_le_add_left (ih h.2) _
        _ = (index + 1) * dims.prod := (Nat.succ_mul ..).symm
        _ ≤ dim * dims.prod := Nat.mul_le_mul_right _ h.1
        _ = (dim :: dims).prod := List.prod_cons.symm

theorem position_lt (hlength : indices.length = dims.length) (h : Inside dims indices) :
    position dims indices < dims.prod := by
  have hle := h.position_add_le
  rw [hlength, List.drop_length, List.prod_nil] at hle
  exact hle

/-- Every place has an element. -/
theorem exists_element (hdims : ∀ dim ∈ dims, 0 < dim) {place : Nat} (h : place < dims.prod) :
    ∃ element, element.length = dims.length ∧ Inside dims element ∧ position dims element = place := by
  induction dims generalizing place with
  | nil => exact ⟨[], rfl, trivial, by simp at h; simp [position, h]⟩
  | cons dim dims ih =>
    rw [List.prod_cons] at h
    have hpos : 0 < dims.prod := Nat.pos_of_mul_pos_left (Nat.zero_lt_of_lt h)
    obtain ⟨element, hlength, hinside, hplace⟩ :=
      ih (fun other hother => hdims other (List.mem_cons_of_mem _ hother)) (Nat.mod_lt place hpos)
    refine ⟨place / dims.prod :: element, by simp [hlength],
      ⟨(Nat.div_lt_iff_lt_mul hpos).mpr h, hinside⟩, ?_⟩
    rw [position, hplace, Nat.mul_comm]
    exact Nat.div_add_mod ..

/-- Without indices the elements in a window are those from its first to its last. -/
theorem mem_places_window {dim low high place : Nat} (hdims : ∀ other ∈ dims, 0 < other)
    (hhigh : high < dim) : place ∈ places (dim :: dims) [] (some (low, high)) ↔
      low * dims.prod ≤ place ∧ place < (high + 1) * dims.prod := by
  have hpos : 0 < dims.prod := List.prod_pos_iff_forall_pos_nat.mpr hdims
  constructor
  · rintro ⟨element, hlength, hinside, hpicks, rfl⟩
    cases element with
    | nil => cases hlength
    | cons first element =>
      obtain ⟨hlow, hle⟩ := hpicks (low, high) rfl
      have hlt := position_lt (Nat.succ.inj hlength) hinside.2
      constructor
      · exact Nat.le_trans (Nat.mul_le_mul_right _ hlow) (Nat.le_add_right ..)
      · calc first * dims.prod + position dims element < first * dims.prod + dims.prod :=
              Nat.add_lt_add_left hlt _
          _ = (first + 1) * dims.prod := (Nat.succ_mul ..).symm
          _ ≤ (high + 1) * dims.prod := Nat.mul_le_mul_right _ (Nat.succ_le_succ hle)
  · rintro ⟨hlow, hlt⟩
    obtain ⟨element, hlength, hinside, hplace⟩ := exists_element hdims (Nat.mod_lt place hpos)
    have hle : place / dims.prod ≤ high := Nat.lt_succ_iff.mp ((Nat.div_lt_iff_lt_mul hpos).mpr hlt)
    refine ⟨place / dims.prod :: element, by simp [hlength], ⟨Nat.lt_of_le_of_lt hle hhigh, hinside⟩,
      ?_, ?_⟩
    · rintro _ ⟨⟩
      exact ⟨(Nat.le_div_iff_mul_le hpos).mpr hlow, hle⟩
    · rw [position, hplace, Nat.mul_comm]
      exact Nat.div_add_mod ..

theorem mem_places_all (hdims : ∀ dim ∈ dims, 0 < dim) {place : Nat} :
    place ∈ places dims [] none ↔ place < dims.prod := by
  constructor
  · rintro ⟨element, hlength, hinside, _, rfl⟩
    exact position_lt hlength hinside
  · intro h
    obtain ⟨element, hlength, hinside, hplace⟩ := exists_element hdims h
    refine ⟨element, hlength, hinside, ?_, hplace⟩
    cases element with
    | nil => rfl
    | cons => exact fun _ hnone => nomatch hnone

/-- An index moves the places behind it. -/
theorem mem_places_cons {dim index place : Nat} (h : index < dim) :
    place ∈ places (dim :: dims) (index :: indices) window ↔
      ∃ rest ∈ places dims indices window, place = index * dims.prod + rest := by
  constructor
  · rintro ⟨element, hlength, hinside, hpicks, rfl⟩
    cases element with
    | nil => exact hpicks.elim
    | cons first element =>
      obtain ⟨rfl, hpicks⟩ := hpicks
      exact ⟨_, ⟨element, Nat.succ.inj hlength, hinside.2, hpicks, rfl⟩, rfl⟩
  · rintro ⟨rest, ⟨element, hlength, hinside, hpicks, rfl⟩, rfl⟩
    exact ⟨index :: element, by simp [hlength], ⟨h, hinside⟩, ⟨rfl, hpicks⟩, rfl⟩

theorem mem_places_drop (h : Inside dims indices) {place : Nat} :
    place ∈ places dims indices window ↔
      ∃ rest ∈ places (dims.drop indices.length) [] window, place = position dims indices + rest := by
  induction dims generalizing indices place with
  | nil =>
    cases indices with
    | nil => simp [position]
    | cons => exact h.elim
  | cons dim dims ih =>
    cases indices with
    | nil => simp [position]
    | cons index indices =>
      rw [mem_places_cons h.1]
      constructor
      · rintro ⟨_, hbehind, rfl⟩
        obtain ⟨rest, hrest, rfl⟩ := (ih h.2).mp hbehind
        exact ⟨rest, hrest, (Nat.add_assoc ..).symm⟩
      · rintro ⟨rest, hrest, rfl⟩
        exact ⟨position dims indices + rest, (ih h.2).mpr ⟨rest, hrest, rfl⟩, Nat.add_assoc ..⟩

/-- Further indices and a window pick from what is there. -/
theorem places_append_subset {more : List Nat} :
    places dims (indices ++ more) window ⊆ places dims indices none := by
  rintro place ⟨element, hlength, hinside, hpicks, hplace⟩
  refine ⟨element, hlength, hinside, ?_, hplace⟩
  clear hlength hinside hplace
  induction indices generalizing element with
  | nil =>
    cases element with
    | nil => rfl
    | cons => exact fun _ hnone => nomatch hnone
  | cons index indices ih =>
    cases element with
    | nil => exact hpicks.elim
    | cons first element => exact ⟨hpicks.1, ih element hpicks.2⟩

theorem Inside.of_append {more : List Nat} (h : Inside dims (indices ++ more)) :
    Inside dims indices := by
  induction indices generalizing dims with
  | nil => cases dims <;> trivial
  | cons index indices ih =>
    cases dims with
    | nil => exact h.elim
    | cons dim dims => exact ⟨h.1, ih h.2⟩

end Places
end Celox.RowMajor
