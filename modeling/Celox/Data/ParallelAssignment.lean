import Mathlib

/-! # Simultaneous assignments, carried out one after the other

The rows of a simultaneous assignment are read off the values before it. Done one by one, a row may
be written once no other waiting row reads its destination; one row at a time may read a saved copy
of its source instead. -/
namespace Celox.Data

variable {L V : Type*}

/-- A location's value, or a constant. -/
def readOperand (value : L → V) : L ⊕ V → V := Sum.elim value id

/-- All rows at once. -/
def simultaneous (source : L → Option (L ⊕ V)) (start : L → V) (l : L) : V :=
  ((source l).map (readOperand start)).getD (start l)

/-- The assignment is done except for the rows of `waiting`; `saved` is the one that reads the
saved value, if any does. -/
structure Assigning (source : L → Option (L ⊕ V)) (start : L → V) (waiting : L → Prop)
    (saved : Option L) (value : L → V) (temporary : V) : Prop where
  settled : ∀ l, ¬ waiting l → value l = simultaneous source start l
  fresh : ∀ l, waiting l → saved ≠ some l → ∀ s, source l = some s →
    readOperand value s = readOperand start s
  kept : ∀ l, saved = some l → waiting l ∧
    ∀ s, source l = some s → temporary = readOperand start s

variable {source : L → Option (L ⊕ V)} {start value : L → V} {waiting : L → Prop}
  {saved : Option L} {temporary : V} {l k : L}

theorem simultaneous_of_source {s : L ⊕ V} (h : source l = some s) :
    simultaneous source start l = readOperand start s := by
  simp [simultaneous, h]

namespace Assigning

/-- Nothing is done where every row that changes its destination waits. -/
theorem initial (h : ∀ l s, source l = some s → ¬ waiting l → s = .inl l) :
    Assigning source start waiting none start temporary := by
  refine ⟨fun l hl => ?_, fun _ _ _ _ _ => rfl, fun _ hsaved => nomatch hsaved⟩
  cases hs : source l with
  | none => simp [simultaneous, hs]
  | some s =>
    rw [simultaneous_of_source hs, h l s hs hl]
    rfl

/-- The assignment is done where no row waits. -/
theorem finish (h : Assigning source start waiting saved value temporary) (hnone : ∀ l, ¬ waiting l) :
    value = simultaneous source start :=
  funext fun l => h.settled l (hnone l)

/-- A location that one waiting row reads is saved for that row. -/
theorem save (h : Assigning source start waiting none value temporary) (hk : waiting k)
    (hs : source k = some (.inl l)) :
    Assigning source start waiting (some k) value (value l) := by
  refine ⟨h.settled, fun j hj _ => h.fresh j hj nofun, fun j hj => ?_⟩
  obtain rfl := Option.some.inj hj
  refine ⟨hk, fun s hs' => ?_⟩
  obtain rfl := Option.some.inj (hs.symm.trans hs')
  exact h.fresh k hk nofun _ hs

variable [DecidableEq L]

/-- A value that no other waiting row reads is written over, with the value it is to have. -/
theorem write (h : Assigning source start waiting saved value temporary)
    (hunread : ∀ k, waiting k → saved ≠ some k → k ≠ l → source k ≠ some (.inl l))
    {v : V} (hv : v = simultaneous source start l) {saved' : Option L}
    (hsaved : ∀ k, k ≠ l → (saved' = some k ↔ saved = some k)) (hnot : saved' ≠ some l) :
    Assigning source start (fun k => k ≠ l ∧ waiting k) saved' (Function.update value l v)
      temporary := by
  refine ⟨fun k hk => ?_, fun k ⟨hne, hk⟩ hother s hs => ?_, fun k hk => ?_⟩
  · by_cases heq : k = l
    · rw [heq, Function.update_self, hv]
    · rw [Function.update_of_ne heq]
      exact h.settled k fun hwaiting => hk ⟨heq, hwaiting⟩
  · have hother' : saved ≠ some k := fun hs => hother ((hsaved k hne).mpr hs)
    rw [← h.fresh k hk hother' s hs]
    cases s with
    | inr c => rfl
    | inl m =>
      have hm : m ≠ l := fun hml => hunread k hk hother' hne (hml ▸ hs)
      exact Function.update_of_ne hm v value
  · have hne : k ≠ l := fun hkl => hnot (hkl ▸ hk)
    exact ⟨⟨hne, (h.kept k ((hsaved k hne).mp hk)).1⟩, (h.kept k ((hsaved k hne).mp hk)).2⟩

/-- A row whose destination no other waiting row reads is moved. -/
theorem move (h : Assigning source start waiting saved value temporary) (hl : waiting l)
    (hother : saved ≠ some l) {s : L ⊕ V} (hs : source l = some s)
    (hunread : ∀ k, waiting k → saved ≠ some k → k ≠ l → source k ≠ some (.inl l)) :
    Assigning source start (fun k => k ≠ l ∧ waiting k) saved
      (Function.update value l (readOperand value s)) temporary :=
  h.write hunread ((h.fresh l hl hother s hs).trans (simultaneous_of_source hs).symm)
    (fun _ _ => Iff.rfl) hother

/-- The row that reads the saved value is written. -/
theorem restore (h : Assigning source start waiting (some l) value temporary) {s : L ⊕ V}
    (hs : source l = some s)
    (hunread : ∀ k, waiting k → k ≠ l → source k ≠ some (.inl l)) :
    Assigning source start (fun k => k ≠ l ∧ waiting k) none
      (Function.update value l temporary) temporary := by
  refine h.write (fun k hk _ hne => hunread k hk hne)
    (((h.kept l rfl).2 s hs).trans (simultaneous_of_source hs).symm) (fun k hne => ?_) nofun
  exact ⟨nofun, fun hk => absurd (Option.some.inj hk).symm hne⟩

/-- Two rows that read each other's destination, which no other waiting row reads. -/
theorem swap (h : Assigning source start waiting none value temporary) (hl : waiting l)
    (hk : waiting k) (hlk : source l = some (.inl k)) (hkl : source k = some (.inl l))
    (hunread : ∀ j, waiting j → j ≠ l → j ≠ k → source j ≠ some (.inl l) ∧
      source j ≠ some (.inl k)) :
    Assigning source start (fun j => j ≠ l ∧ j ≠ k ∧ waiting j) none
      (Function.update (Function.update value l (value k)) k (value l)) temporary := by
  have hfirst : value k = start k := h.fresh l hl nofun _ hlk
  have hsecond : value l = start l := h.fresh k hk nofun _ hkl
  refine ⟨fun j hj => ?_, fun j ⟨hjl, hjk, hj⟩ _ s hs => ?_, fun _ hsaved => nomatch hsaved⟩
  · by_cases hjk : j = k
    · rw [hjk, Function.update_self, simultaneous_of_source hkl]
      exact hsecond
    · rw [Function.update_of_ne hjk]
      by_cases hjl : j = l
      · rw [hjl, Function.update_self, simultaneous_of_source hlk]
        exact hfirst
      · rw [Function.update_of_ne hjl]
        exact h.settled j fun hwaiting => hj ⟨hjl, hjk, hwaiting⟩
  · rw [← h.fresh j hj nofun s hs]
    cases s with
    | inr c => rfl
    | inl m =>
      have hml : m ≠ l := fun heq => (hunread j hj hjl hjk).1 (heq ▸ hs)
      have hmk : m ≠ k := fun heq => (hunread j hj hjl hjk).2 (heq ▸ hs)
      exact (Function.update_of_ne hmk ..).trans (Function.update_of_ne hml ..)

end Assigning

/-- Where each of finitely many rows is read by one of them, each reads one of them and no two read
the same. -/
theorem each_read_once {ι : Type*} {rows : Finset ι} {destination : ι → L} {reads : ι → Option L}
    (hdistinct : Set.InjOn destination rows)
    (hread : ∀ i ∈ rows, ∃ j ∈ rows, reads j = some (destination i)) :
    (∀ j ∈ rows, ∃ i ∈ rows, reads j = some (destination i)) ∧ Set.InjOn reads rows := by
  classical
  have hsub : rows.image (some ∘ destination) ⊆ rows.image reads := by
    intro x hx
    obtain ⟨i, hi, rfl⟩ := Finset.mem_image.mp hx
    obtain ⟨j, hj, heq⟩ := hread i hi
    exact Finset.mem_image.mpr ⟨j, hj, heq⟩
  have hcard : (rows.image (some ∘ destination)).card = rows.card :=
    Finset.card_image_of_injOn ((Option.some_injective L).comp_injOn hdistinct)
  have heq : rows.image (some ∘ destination) = rows.image reads :=
    Finset.eq_of_subset_of_card_le hsub (hcard ▸ Finset.card_image_le)
  refine ⟨fun j hj => ?_, Finset.card_image_iff.mp (heq ▸ hcard)⟩
  have hmem : reads j ∈ rows.image (some ∘ destination) := heq ▸ Finset.mem_image_of_mem reads hj
  obtain ⟨i, hi, hji⟩ := Finset.mem_image.mp hmem
  exact ⟨i, hi, hji.symm⟩

end Celox.Data
