import Celox.Vcd.Decoder

/-! # The header

Every signal is declared once, below its scope, under an identifier of its own. -/
namespace Celox.Vcd
open Celox.Text

/-! ## Identifiers -/

theorem toNat_idChar (n : Nat) : (Char.ofNat (n % 94 + 33)).toNat = n % 94 + 33 := by
  have hall : ∀ k, k < 94 → (Char.ofNat (k + 33)).toNat = k + 33 := by decide
  exact hall _ (Nat.mod_lt n (by decide))

theorem vcdIdChars_injective {m n : Nat} (h : vcdIdChars m = vcdIdChars n) : m = n := by
  induction m using Nat.strongRecOn generalizing n with
  | ind m ih =>
    rw [vcdIdChars.eq_def m, vcdIdChars.eq_def n] at h
    dsimp only at h
    have hchar : ∀ {tail tail' : List Char}, Char.ofNat (m % 94 + 33) :: tail =
        Char.ofNat (n % 94 + 33) :: tail' → m % 94 = n % 94 := by
      intro tail tail' heq
      have := congrArg Char.toNat (List.cons.inj heq).1
      rw [toNat_idChar, toNat_idChar] at this
      omega
    have hne : ∀ k, vcdIdChars k ≠ [] := by
      intro k
      rw [vcdIdChars]
      split <;> simp
    split at h <;> split at h
    · have := hchar h
      omega
    · exact absurd (List.cons.inj h).2.symm (hne _)
    · exact absurd (List.cons.inj h).2 (hne _)
    · have hlow := hchar h
      have hhigh := ih _ (by omega) (List.cons.inj h).2
      omega

theorem generateVcdId_injective {m n : Nat} (h : generateVcdId m = generateVcdId n) : m = n :=
  vcdIdChars_injective (List.reverse_injective h)

theorem plain_generateVcdId (n : Nat) : Plain (generateVcdId n) := by
  have hall : ∀ k, k < 94 → (Char.ofNat (k + 33)).isWhitespace = false := by decide
  have hplain : Plain (vcdIdChars n) := by
    induction n using Nat.strongRecOn with
    | ind n ih =>
      rw [vcdIdChars]
      intro c hc
      split at hc
      · rw [List.mem_singleton.mp hc]
        exact hall _ (Nat.mod_lt n (by decide))
      · rcases List.mem_cons.mp hc with rfl | hc
        · exact hall _ (Nat.mod_lt n (by decide))
        · exact ih _ (by omega) c hc
  intro c hc
  exact hplain c (List.mem_reverse.mp hc)

theorem generateVcdId_ne_nil (n : Nat) : generateVcdId n ≠ [] := by
  rw [generateVcdId, vcdIdChars]
  split <;> simp

/-! ## Scopes -/

namespace VcdWriter

theorem pushGroup_perm (scope : Word) (index : Nat) (groups : List (Word × List Nat)) :
    ((pushGroup scope index groups).flatMap Prod.snd).Perm (index :: groups.flatMap Prod.snd) := by
  induction groups with
  | nil => exact .refl _
  | cons group groups ih =>
    obtain ⟨other, group⟩ := group
    rw [pushGroup]
    split
    · rw [List.flatMap_cons, List.flatMap_cons, List.append_assoc, List.singleton_append]
      exact List.perm_middle
    · rw [List.flatMap_cons, List.flatMap_cons]
      exact (ih.append_left group).trans List.perm_middle

theorem mem_pushGroup {scope : Word} {index : Nat} {groups : List (Word × List Nat)}
    {g : Word × List Nat} (hg : g ∈ pushGroup scope index groups) {i : Nat} (hi : i ∈ g.2) :
    (i = index ∧ g.1 = scope) ∨ ∃ g' ∈ groups, g'.1 = g.1 ∧ i ∈ g'.2 := by
  induction groups with
  | nil =>
    rw [pushGroup, List.mem_singleton] at hg
    subst hg
    exact .inl ⟨List.mem_singleton.mp hi, rfl⟩
  | cons group groups ih =>
    obtain ⟨other, group⟩ := group
    rw [pushGroup] at hg
    split at hg
    · rename_i heq
      rcases List.mem_cons.mp hg with rfl | hg
      · rcases List.mem_append.mp hi with hi | hi
        · exact .inr ⟨(other, group), List.mem_cons_self, rfl, hi⟩
        · exact .inl ⟨List.mem_singleton.mp hi, heq⟩
      · exact .inr ⟨g, List.mem_cons_of_mem _ hg, rfl, hi⟩
    · rcases List.mem_cons.mp hg with rfl | hg
      · exact .inr ⟨(other, group), List.mem_cons_self, rfl, hi⟩
      · rcases ih hg with h | ⟨g', hg', h⟩
        · exact .inl h
        · exact .inr ⟨g', List.mem_cons_of_mem _ hg', h⟩

theorem scopeGroups_append (signals : List VcdWriterSignal) (signal : VcdWriterSignal) :
    scopeGroups (signals ++ [signal]) =
      pushGroup signal.scope signals.length (scopeGroups signals) := by
  rw [scopeGroups, scopeGroups, List.zipIdx_append, List.foldl_append]
  simp

theorem scopeGroups_perm (signals : List VcdWriterSignal) :
    ((scopeGroups signals).flatMap Prod.snd).Perm (List.range signals.length) := by
  induction signals using List.reverseRecOn with
  | nil => exact .refl _
  | append_singleton signals signal ih =>
    rw [scopeGroups_append, List.length_append, List.length_singleton, List.range_succ]
    exact (pushGroup_perm _ _ _).trans ((ih.cons _).trans (List.perm_append_singleton _ _).symm)

theorem mem_scopeGroups {signals : List VcdWriterSignal} {g : Word × List Nat}
    (hg : g ∈ scopeGroups signals) {i : Nat} (hi : i ∈ g.2) :
    ∃ signal, signals[i]? = some signal ∧ signal.scope = g.1 := by
  induction signals using List.reverseRecOn generalizing g with
  | nil => cases hg
  | append_singleton signals signal ih =>
    rw [scopeGroups_append] at hg
    rcases mem_pushGroup hg hi with ⟨rfl, hscope⟩ | ⟨g', hg', hscope, hi'⟩
    · exact ⟨signal, by simp, hscope.symm⟩
    · obtain ⟨signal', hsignal', heq⟩ := ih hg' hi'
      have hlt := (List.getElem?_eq_some_iff.mp hsignal').1
      exact ⟨signal', by rw [List.getElem?_append_left hlt, hsignal'], heq.trans hscope⟩

end VcdWriter

/-! ## Declarations -/

/-- The declaration of a signal under an identifier. -/
def declared (signal : VcdWriterSignal) (id : List Char) : Var :=
  ⟨[signal.scope.chars], signal.name.chars, signal.width, id⟩

/-- The header up to the indices `taken`; inside a scope, its name. -/
structure Declaring (start : VcdWriter) (taken : List Nat) (scopes : List (List Char))
    (state : VcdWriter × Nat) (d : Decoder) : Prop where
  count : state.2 = taken.length
  length : state.1.signals.length = start.signals.length
  assigned : ∀ i p, taken[p]? = some i → ∀ signal : VcdWriterSignal, start.signals[i]? = some signal →
    state.1.signals[i]? = some { signal with vcdId := generateVcdId p }
  untouched : ∀ i, i ∉ taken → state.1.signals[i]? = start.signals[i]?
  vars : ∀ i p, taken[p]? = some i → ∀ signal, start.signals[i]? = some signal →
    declared signal (generateVcdId p) ∈ d.vars
  idle : d.mode = .idle
  scopes_eq : d.scopes = scopes
  time : d.time = 0
  changes : d.changes = []
  emits : Emits .start state.1.written d
  lastValues : state.1.lastValues = start.lastValues
  timestamp : state.1.timestamp = start.timestamp
  externalCount : state.1.externalCount = start.externalCount

namespace Declaring
variable {start : VcdWriter} {taken : List Nat} {state : VcdWriter × Nat} {d : Decoder}

theorem writeVar {scope : Word} {index : Nat} (h : Declaring start taken [scope.chars] state d)
    (hnew : index ∉ taken) {signal : VcdWriterSignal} (hsignal : start.signals[index]? = some signal)
    (hscope : signal.scope = scope) :
    ∃ d', Declaring start (taken ++ [index]) [scope.chars] (VcdWriter.writeVar state index) d' := by
  obtain ⟨w, nextId⟩ := state
  have hat : w.signals[index]? = some signal := by rw [h.untouched index hnew, hsignal]
  have hlt := (List.getElem?_eq_some_iff.mp hat).1
  have hid : nextId = taken.length := h.count
  rw [VcdWriter.writeVar]
  dsimp only
  rw [hat]
  have hnext : ∀ i p, (taken ++ [index])[p]? = some i →
      taken[p]? = some i ∧ i ≠ index ∨ i = index ∧ p = nextId := by
    intro i p hp
    rcases Nat.lt_or_ge p taken.length with hp' | hp'
    · rw [List.getElem?_append_left hp'] at hp
      exact .inl ⟨hp, fun heq => hnew (heq ▸ List.mem_of_getElem? hp)⟩
    · rw [List.getElem?_append_right hp', List.getElem?_singleton] at hp
      split at hp
      · exact .inr ⟨(Option.some.inj hp).symm, by omega⟩
      · cases hp
  refine ⟨{ d with vars := d.vars ++
    [⟨d.scopes, signal.name.chars, signal.width, generateVcdId nextId⟩] }, ?_⟩
  exact
    { count := by rw [List.length_append, List.length_singleton, hid]
      length := by
        rw [List.length_set]
        exact h.length
      assigned := by
        intro i p hp other hother
        rcases hnext i p hp with ⟨hp, hne⟩ | ⟨rfl, rfl⟩
        · rw [List.getElem?_set_ne (Ne.symm hne)]
          exact h.assigned i p hp other hother
        · rw [hsignal, Option.some.injEq] at hother
          rw [List.getElem?_set_self hlt, hother]
      untouched := by
        intro i hi
        rw [List.mem_append, List.mem_singleton, not_or] at hi
        rw [List.getElem?_set_ne (Ne.symm hi.2)]
        exact h.untouched i hi.1
      vars := by
        intro i p hp other hother
        rcases hnext i p hp with ⟨hp, -⟩ | ⟨rfl, rfl⟩
        · exact List.mem_append_left _ (h.vars i p hp other hother)
        · rw [hsignal, Option.some.injEq] at hother
          subst hother
          refine List.mem_append_right _ (List.mem_singleton.mpr ?_)
          rw [declared, h.scopes_eq, hscope]
      idle := h.idle
      scopes_eq := h.scopes_eq
      time := h.time
      changes := h.changes
      emits := h.emits.append (emits_var h.idle signal.width (plain_generateVcdId nextId)
        (generateVcdId_ne_nil nextId) signal.name)
      lastValues := h.lastValues
      timestamp := h.timestamp
      externalCount := h.externalCount }

theorem writeVars {scope : Word} {group : List Nat}
    (h : Declaring start taken [scope.chars] state d) (hnodup : (taken ++ group).Nodup)
    (hscope : ∀ i ∈ group, ∃ signal, start.signals[i]? = some signal ∧ signal.scope = scope) :
    ∃ d', Declaring start (taken ++ group) [scope.chars]
      (group.foldl VcdWriter.writeVar state) d' := by
  induction group generalizing taken state d with
  | nil => exact ⟨d, by simpa using h⟩
  | cons index group ih =>
    obtain ⟨signal, hsignal, hs⟩ := hscope index List.mem_cons_self
    have hnew : index ∉ taken := fun hmem =>
      (List.nodup_append.mp hnodup).2.2 index hmem index List.mem_cons_self rfl
    obtain ⟨d', hd'⟩ := h.writeVar hnew hsignal hs
    have hassoc : taken ++ index :: group = taken ++ [index] ++ group := by simp
    rw [hassoc] at hnodup ⊢
    exact ih hd' hnodup fun i hi => hscope i (List.mem_cons_of_mem _ hi)

theorem writeScope {g : Word × List Nat} (h : Declaring start taken [] state d)
    (hnodup : (taken ++ g.2).Nodup)
    (hscope : ∀ i ∈ g.2, ∃ signal, start.signals[i]? = some signal ∧ signal.scope = g.1) :
    ∃ d', Declaring start (taken ++ g.2) [] (VcdWriter.writeScope state g) d' := by
  obtain ⟨w, nextId⟩ := state
  obtain ⟨scope, group⟩ := g
  have hopen : Declaring start taken [scope.chars]
      (w.write (line ["$scope".toList, "module".toList, scope.chars, "$end".toList]), nextId)
      { d with scopes := scope.chars :: d.scopes } :=
    { h with
      scopes_eq := by rw [h.scopes_eq]
      emits := h.emits.append (emits_scope h.idle scope) }
  obtain ⟨d', hd'⟩ := hopen.writeVars hnodup hscope
  refine ⟨{ d' with scopes := d'.scopes.tail }, ?_⟩
  rw [VcdWriter.writeScope]
  dsimp only at hd' ⊢
  generalize group.foldl VcdWriter.writeVar _ = state' at hd' ⊢
  exact
    { hd' with
      scopes_eq := by rw [hd'.scopes_eq]; rfl
      emits := hd'.emits.append (emits_upscope hd'.idle) }

theorem writeScopes {groups : List (Word × List Nat)} (h : Declaring start taken [] state d)
    (hnodup : (taken ++ groups.flatMap Prod.snd).Nodup)
    (hscope : ∀ g ∈ groups, ∀ i ∈ g.2,
      ∃ signal, start.signals[i]? = some signal ∧ signal.scope = g.1) :
    ∃ d', Declaring start (taken ++ groups.flatMap Prod.snd) []
      (groups.foldl VcdWriter.writeScope state) d' := by
  induction groups generalizing taken state d with
  | nil => exact ⟨d, by simpa using h⟩
  | cons g groups ih =>
    rw [List.flatMap_cons, ← List.append_assoc] at hnodup ⊢
    obtain ⟨d', hd'⟩ := h.writeScope (List.nodup_append.mp hnodup).1
      (hscope g List.mem_cons_self)
    exact ih hd' hnodup fun g' hg' => hscope g' (List.mem_cons_of_mem _ hg')

end Declaring

/-! ## Around the declarations -/

section Preamble
variable {d : Decoder} {keyword : List Char}

theorem emits_open (hidle : d.mode = .idle) (hplain : Plain keyword)
    (h : Decoder.enclosesChanges keyword = false) :
    Emits d (line ['$' :: keyword]) { d with mode := .command keyword [] } := by
  refine .line ?_ ?_
  · simpa using plain_append (show Plain ['$'] from plain_of_decide (by decide)) hplain
  · rw [filter_ne_nil (by simp), List.foldlM_cons, step_keyword hidle h]
    rfl

/-- Words of a command that takes none. -/
theorem emits_ignored (harity : Decoder.arity keyword = 0) {tokens : List (List Char)}
    (hplain : ∀ token ∈ tokens, Plain token) (hend : "$end".toList ∉ tokens) :
    Emits { d with mode := .command keyword [] } (line tokens)
      { d with mode := .command keyword [] } := by
  refine .line hplain ?_
  have hstep : ∀ token, token ≠ "$end".toList →
      { d with mode := .command keyword [] }.step token =
        some { d with mode := .command keyword [] } := fun token hne =>
    (if_neg (by rw [harity]; exact Nat.not_lt_zero _)).trans (if_neg hne)
  have hall : ∀ token ∈ tokens.filter (fun token => !token.isEmpty), token ≠ "$end".toList :=
    fun token ht heq => hend (heq ▸ List.mem_of_mem_filter ht)
  generalize tokens.filter (fun token => !token.isEmpty) = tokens at hall
  induction tokens with
  | nil => rfl
  | cons token tokens ih =>
    rw [List.foldlM_cons, hstep token (hall token List.mem_cons_self)]
    exact ih fun t ht => hall t (List.mem_cons_of_mem _ ht)

theorem emits_close (hidle : d.mode = .idle) (harity : Decoder.arity keyword = 0)
    (hkeyword : keyword ≠ "upscope".toList) :
    Emits { d with mode := .command keyword [] } (line ["$end".toList]) d := by
  refine .line (fun token ht => plain_of_decide ?_) ?_
  · revert token
    decide
  · rw [filter_ne_nil (by decide), List.foldlM_cons,
      step_end (by rw [harity]; exact Nat.not_lt_zero _)]
    have hfinish : { d with mode := .command keyword [] }.finish keyword [] = d :=
      (if_neg hkeyword).trans (by rw [← hidle])
    rw [hfinish]
    rfl

/-- A command in three lines. -/
theorem emits_block (hidle : d.mode = .idle) (hplain : Plain keyword)
    (henclose : Decoder.enclosesChanges keyword = false) (harity : Decoder.arity keyword = 0)
    (hkeyword : keyword ≠ "upscope".toList) {tokens : List (List Char)}
    (htokens : ∀ token ∈ tokens, Plain token) (hend : "$end".toList ∉ tokens) :
    Emits d (line ['$' :: keyword] ++ line tokens ++ line ["$end".toList]) d :=
  ((emits_open hidle hplain henclose).append (emits_ignored harity htokens hend)).append
    (emits_close hidle harity hkeyword)

theorem plain_padded (length value : Nat) : Plain (LocalTime.padded length value) := by
  refine plain_append ?_ (plain_toDigits (by decide) (by decide) value)
  intro c hc
  rw [List.eq_of_mem_replicate hc]
  decide

theorem plain_cons {c : Char} {token : List Char} (hc : c.isWhitespace = false)
    (h : Plain token) : Plain (c :: token) := by
  intro c' hc'
  rcases List.mem_cons.mp hc' with rfl | hc'
  · exact hc
  · exact h c' hc'

theorem plain_date (time : LocalTime) : Plain time.date :=
  plain_append (plain_append (plain_padded _ _) (plain_cons (by decide) (plain_padded _ _)))
    (plain_cons (by decide) (plain_padded _ _))

theorem plain_clock (time : LocalTime) : Plain time.clock :=
  plain_append (plain_append (plain_padded _ _) (plain_cons (by decide) (plain_padded _ _)))
    (plain_cons (by decide) (plain_padded _ _))

theorem emits_preamble (time : LocalTime) :
    Emits .start (VcdWriter.preamble time) .start := by
  have hdate : Emits .start (line ["$date".toList] ++ line [[], [], time.date, time.clock] ++
      line ["$end".toList]) .start := by
    refine emits_block rfl (plain_of_decide (by decide)) (by decide) (by decide) (by decide) ?_ ?_
    · intro token ht
      simp only [List.mem_cons, List.not_mem_nil, or_false] at ht
      rcases ht with rfl | rfl | rfl | rfl
      · exact plain_of_decide (by decide)
      · exact plain_of_decide (by decide)
      · exact plain_date time
      · exact plain_clock time
    · intro hmem
      simp only [List.mem_cons, List.not_mem_nil, or_false] at hmem
      rcases hmem with h | h | h | h
      · exact absurd h (by decide)
      · exact absurd h (by decide)
      · have hdash : '-' ∈ time.date := List.mem_append_right _ List.mem_cons_self
        rw [← h] at hdash
        exact absurd hdash (by decide)
      · have hcolon : ':' ∈ time.clock := List.mem_append_right _ List.mem_cons_self
        rw [← h] at hcolon
        exact absurd hcolon (by decide)
  have hversion : Emits .start (line ["$version".toList] ++ line [[], [], "celox".toList] ++
      line ["$end".toList]) .start := by
    refine emits_block rfl (plain_of_decide (by decide)) (by decide) (by decide) (by decide) ?_
      (by decide)
    intro token ht
    refine plain_of_decide ?_
    revert token
    decide
  have htimescale : Emits .start (line ["$timescale".toList, "1ns".toList, "$end".toList])
      .start := by
    refine .line (fun token ht => plain_of_decide ?_) (by decide)
    revert token
    decide
  have h := (hdate.append hversion).append htimescale
  simpa only [VcdWriter.preamble, List.append_assoc] using h

theorem emits_definitions (hidle : d.mode = .idle) :
    Emits d (line ["$enddefinitions".toList, "$end".toList] ++ line ["$dumpvars".toList] ++
      line ["$end".toList]) d := by
  have hend : Emits d (line ["$enddefinitions".toList, "$end".toList]) d := by
    refine .line (fun token ht => plain_of_decide ?_) ?_
    · revert token
      decide
    · rw [filter_ne_nil (by decide)]
      refine (read_keyword hidle "enddefinitions".toList [] (by decide) (by decide)).trans ?_
      have hfinish : { d with mode := .command "enddefinitions".toList [] }.finish
          "enddefinitions".toList [] = { d with mode := .idle } := rfl
      rw [hfinish, ← hidle]
  have henclosing : ∀ keyword : List Char, Decoder.enclosesChanges keyword = true →
      Plain keyword → Emits d (line ['$' :: keyword]) d := by
    intro keyword henclose hplain
    refine .line ?_ ?_
    · simpa using plain_append (show Plain ['$'] from plain_of_decide (by decide)) hplain
    · rw [filter_ne_nil (by simp), List.foldlM_cons, Decoder.step, hidle]
      dsimp only
      rw [if_pos henclose]
      rfl
  exact (hend.append (henclosing "dumpvars".toList (by decide) (plain_of_decide (by decide)))).append
    (henclosing "end".toList (by decide) (plain_of_decide (by decide)))

end Preamble
end Celox.Vcd
