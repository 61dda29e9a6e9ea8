import Celox.Analysis.DagScheduleExact

/-! # What the entry points return

Owned rows that pass the checks are scheduled exactly if their graph has no cycle and no counter
overflows. Borrowed rows of the same relations have the same schedule. -/
namespace Celox.Analysis.DagSchedule
open Celox.Graph

/-! ## Owned rows -/

/-- What the scheduler asks of its rows. -/
structure OwnedRows (dependencies valueDependencies tokensByNode : List (List Nat))
    (tokenWeights : List Nat) : Prop where
  dependencyRows : Ascending dependencies.length dependencies
  valueRows : Ascending valueDependencies.length valueDependencies
  values_length : valueDependencies.length = dependencies.length
  tokens_length : tokensByNode.length = dependencies.length
  values_sub : ∀ u, ∀ v ∈ succ valueDependencies u, v ∈ succ dependencies u
  tokenRows : Ascending tokenWeights.length tokensByNode

/-- Deltas that fit `isize` however the nodes are ordered. -/
def DeltasFit (valueDependencies tokensByNode : List (List Nat)) (tokenWeights : List Nat)
    (nodeCount : Nat) : Prop :=
  2 * ((List.range nodeCount).map fun node => 2 * (1 + (succ valueDependencies node).length +
    ((succ tokensByNode node).map fun t => tokenWeights[t]?.getD 0).sum)).sum ≤ isizeMax

section Owned
variable {dependencies valueDependencies tokensByNode : List (List Nat)} {tokenWeights : List Nat}
  {p : Problem}

/-- The problem of rows that pass the checks. -/
def ownedRowsProblem (dependencies valueDependencies tokensByNode : List (List Nat))
    (tokenWeights : List Nat) : Problem where
  dependencies := dependencies
  valueDependencies := valueDependencies
  tokensByNode := tokensByNode
  tokenWeights := tokenWeights
  tokenUsers := (List.range tokenWeights.length).map fun token =>
    (List.range dependencies.length).filter fun user => token ∈ succ tokensByNode user
  successors := userRows dependencies.length dependencies
  valueUsers := userRows dependencies.length valueDependencies

theorem ownedProblem_ok_iff :
    ownedProblem dependencies valueDependencies tokensByNode tokenWeights = .ok p ↔
      OwnedRows dependencies valueDependencies tokensByNode tokenWeights ∧
      p = ownedRowsProblem dependencies valueDependencies tokensByNode tokenWeights := by
  unfold ownedProblem
  constructor
  · intro h
    obtain ⟨_, hdeps, h₁⟩ := bind_eq_ok.mp h
    obtain ⟨hdeps, rfl⟩ := localGraphRows_ok_iff.mp hdeps
    obtain ⟨_, hvalues, h₂⟩ := bind_eq_ok.mp h₁
    obtain ⟨hvalues, rfl⟩ := localGraphRows_ok_iff.mp hvalues
    obtain ⟨_, hinputs, h₃⟩ := bind_eq_ok.mp h₂
    obtain ⟨hv, ht, htokens, hsub, rfl⟩ := validateInputs_ok_iff.mp hinputs
    obtain ⟨_, hsucc, h₄⟩ := bind_eq_ok.mp h₃
    obtain ⟨-, rfl⟩ := localGraphRows_ok_iff.mp hsucc
    obtain ⟨_, husers, h₅⟩ := bind_eq_ok.mp h₄
    obtain ⟨-, rfl⟩ := localGraphRows_ok_iff.mp husers
    exact ⟨⟨hdeps, hvalues, hv, ht, hsub, htokens⟩, (Except.ok.inj h₅).symm⟩
  · rintro ⟨h, rfl⟩
    have hlength : ∀ {n : Nat} {rows : List (List Nat)}, (userRows n rows).length = n := by
      intro n rows
      simp [userRows]
    have hvalues : Ascending dependencies.length
        (userRows dependencies.length valueDependencies) := by
      rw [← h.values_length]
      exact userRows_ascending h.valueRows
    refine bind_eq_ok.mpr ⟨_, localGraphRows_ok_iff.mpr ⟨h.dependencyRows, rfl⟩, ?_⟩
    refine bind_eq_ok.mpr ⟨_, localGraphRows_ok_iff.mpr ⟨h.valueRows, rfl⟩, ?_⟩
    refine bind_eq_ok.mpr ⟨_, validateInputs_ok_iff.mpr
      ⟨h.values_length, h.tokens_length, h.tokenRows, h.values_sub, rfl⟩, ?_⟩
    refine bind_eq_ok.mpr ⟨_, localGraphRows_ok_iff.mpr
      ⟨hlength.symm ▸ userRows_ascending h.dependencyRows, rfl⟩, ?_⟩
    exact bind_eq_ok.mpr ⟨_, localGraphRows_ok_iff.mpr ⟨hlength.symm ▸ hvalues, rfl⟩, rfl⟩

theorem OwnedRows.sound (h : OwnedRows dependencies valueDependencies tokensByNode tokenWeights) :
    (ownedRowsProblem dependencies valueDependencies tokensByNode tokenWeights).Sound where
  reversed := userRows_reversed h.dependencyRows
  valueUsers := by
    have := userRows_reversed h.valueRows
    rwa [h.values_length] at this
  values_length := h.values_length
  values_sub := h.values_sub
  tokens_length := h.tokens_length
  tokens_nodup := h.tokenRows.nodup
  token_lt := h.tokenRows.lt
  tokenUsers_eq := rfl

theorem scheduleOwned_eq (h : OwnedRows dependencies valueDependencies tokensByNode tokenWeights) :
    scheduleOwned dependencies valueDependencies tokensByNode tokenWeights =
      (ownedRowsProblem dependencies valueDependencies tokensByNode
        tokenWeights).scheduleWithUsers := by
  unfold scheduleOwned
  rw [ownedProblem_ok_iff.mpr ⟨h, rfl⟩]
  exact Problem.schedule_eq _

/-- A topological list has the dependencies of a node in front of it. -/
theorem dependencies_first {successors : List (List Nat)} {order : List Nat}
    (hrev : Reversed successors dependencies) (htopo : Topological successors order)
    (hperm : order.Perm (List.range dependencies.length)) (u d : Nat)
    (hd : d ∈ succ dependencies u) : [d, u].Sublist order := by
  have hedge : Edge successors d u := (hrev.edge d u).mpr hd
  have hlt : ∀ v < dependencies.length, v ∈ order := fun v hv =>
    hperm.mem_iff.mpr (List.mem_range.mpr hv)
  exact htopo.before hedge (hlt d (hrev.symm.inRange u d hd)) (hlt u (Edge.lt_length hd))

/-- Acyclic users are acyclic dependencies. -/
theorem acyclic_iff {successors : List (List Nat)} (hrev : Reversed successors dependencies) :
    Acyclic successors ↔ Acyclic dependencies :=
  ⟨hrev.acyclic, hrev.symm.acyclic⟩

theorem scheduleOwned_of_ok {order : List Nat}
    (ho : scheduleOwned dependencies valueDependencies tokensByNode tokenWeights = .ok order) :
    OwnedRows dependencies valueDependencies tokensByNode tokenWeights ∧ Acyclic dependencies ∧
      order.Perm (List.range dependencies.length) ∧
      ∀ u, ∀ d ∈ succ dependencies u, [d, u].Sublist order := by
  obtain ⟨p, hproblem, -⟩ := bind_eq_ok.mp ho
  obtain ⟨hrows, rfl⟩ := ownedProblem_ok_iff.mp hproblem
  rw [scheduleOwned_eq hrows] at ho
  have hrev := userRows_reversed hrows.dependencyRows
  rcases Problem.scheduleWithUsers_cases hrows.sound with
    ⟨hac, ⟨order', ho', hperm, htopo⟩ | herr⟩ | ⟨-, herr⟩
  · obtain rfl := Except.ok.inj (ho'.symm.trans ho)
    exact ⟨hrows, (acyclic_iff hrev).mp hac, hperm, dependencies_first hrev htopo hperm⟩
  · rw [herr] at ho
    cases ho
  · rw [herr] at ho
    cases ho

theorem scheduleOwned_of_acyclic
    (h : OwnedRows dependencies valueDependencies tokensByNode tokenWeights)
    (hac : Acyclic dependencies) :
    (∃ order, scheduleOwned dependencies valueDependencies tokensByNode tokenWeights = .ok order) ∨
      scheduleOwned dependencies valueDependencies tokensByNode tokenWeights =
        .error .arithmeticOverflow := by
  rw [scheduleOwned_eq h]
  rcases Problem.scheduleWithUsers_cases h.sound with
    ⟨-, ⟨order, ho, -⟩ | herr⟩ | ⟨hnot, -⟩
  · exact .inl ⟨order, ho⟩
  · exact .inr herr
  · exact absurd ((acyclic_iff (userRows_reversed h.dependencyRows)).mpr hac) hnot

theorem scheduleOwned_of_fit
    (h : OwnedRows dependencies valueDependencies tokensByNode tokenWeights)
    (hac : Acyclic dependencies)
    (hfit : DeltasFit valueDependencies tokensByNode tokenWeights dependencies.length) :
    ∃ order, scheduleOwned dependencies valueDependencies tokensByNode tokenWeights = .ok order := by
  have hs := h.sound
  obtain ⟨order, ho, -⟩ := Problem.scheduleWithUsers_ok
    (p := ownedRowsProblem dependencies valueDependencies tokensByNode tokenWeights)
    ⟨hs.reversed, hs.valueUsers.length.symm.trans hs.values_length, hs.valueUsers.nodup,
      hs.tokens_length, hs.tokens_nodup, hs.token_lt, rfl, hfit⟩
    ((acyclic_iff hs.reversed).mpr hac)
  exact ⟨order, (scheduleOwned_eq h).trans ho⟩

end Owned

/-! ## Borrowed rows -/

/-- The rows of the borrowed nodes, in local numbers. -/
def Represents (rows : List (List Nat)) (m : MappedGraphRows) : Prop :=
  rows.length = m.externalByLocal.length ∧
    ∀ u v, v ∈ succ rows u ↔ ∃ a b, m.externalByLocal[u]? = some a ∧
      m.externalByLocal[v]? = some b ∧ b ∈ succ m.rowsByExternalNode a

theorem validateMappedUserRow_sound {externalByLocal : List Nat}
    {localByExternal : Nat → Option Nat} {externalCount : Nat} {previous : Option Nat}
    {row : List Nat}
    (h : validateMappedUserRow externalByLocal localByExternal externalCount previous row = .ok ()) :
    row.Pairwise (· < ·) ∧ (∀ q ∈ previous, ∀ v ∈ row, q < v) ∧
      ∀ v ∈ row, ∀ k, localByExternal v = some k → externalByLocal[k]? = some v := by
  induction row generalizing previous with
  | nil => simp
  | cons external row ih =>
    unfold validateMappedUserRow at h
    split at h
    · cases h
    split at h
    · cases h
    rename_i hprev
    split at h
    · cases h
    rename_i hback
    obtain ⟨hpair, hfirst, hrest⟩ := ih h
    have hnode := hfirst external rfl
    refine ⟨List.pairwise_cons.mpr ⟨hnode, hpair⟩, fun q hq v hv => ?_, fun v hv k hk => ?_⟩
    · have hqe : q < external := by
        obtain rfl := Option.mem_def.mp hq
        simpa using hprev
      rcases List.mem_cons.mp hv with rfl | hv
      · exact hqe
      · exact hqe.trans (hnode v hv)
    · rcases List.mem_cons.mp hv with rfl | hv
      · rw [hk] at hback
        simpa using hback
      · exact hrest v hv k hk

theorem MappedGraphRows.represents (m : MappedGraphRows) :
    Represents m.rows m ∧ ∀ u, (succ m.rows u).Nodup := by
  have hall := forall₂_of_mapM m.built
  have hlength : m.rows.length = m.externalByLocal.length := by
    simpa using hall.length_eq.symm
  -- what the constructor has checked of each node
  have hnode : ∀ u a, m.externalByLocal[u]? = some a → m.localByExternal a = some u ∧
      (succ m.rowsByExternalNode a).Pairwise (· < ·) ∧
      (∀ b ∈ succ m.rowsByExternalNode a, ∀ k, m.localByExternal b = some k →
        m.externalByLocal[k]? = some b) ∧
      succ m.rows u = (succ m.rowsByExternalNode a).filterMap m.localByExternal := by
    intro u a hu
    obtain ⟨hlt, rfl⟩ := List.getElem?_eq_some_iff.mp hu
    have hone := hall.get (i := u) (by simpa using hlt) (by omega)
    simp only [List.get_eq_getElem, List.getElem_zipIdx, Nat.zero_add] at hone
    split at hone
    · cases hone
    rename_i hchecks
    obtain ⟨_, hrow, heq⟩ := bind_eq_ok.mp hone
    obtain ⟨hpair, -, hback⟩ := validateMappedUserRow_sound hrow
    have hrowEq : succ m.rows u = m.rows[u] := by simp [succ, hlength, hlt]
    refine ⟨?_, hpair, hback, hrowEq.trans (Except.ok.inj heq).symm⟩
    by_contra hne
    exact hchecks (.inr (.inr hne))
  have hmem : ∀ u v, v ∈ succ m.rows u ↔ ∃ a b, m.externalByLocal[u]? = some a ∧
      m.externalByLocal[v]? = some b ∧ b ∈ succ m.rowsByExternalNode a := by
    intro u v
    cases hu : m.externalByLocal[u]? with
    | none =>
      have hout : m.rows[u]? = none := by
        rw [List.getElem?_eq_none_iff] at hu ⊢
        omega
      simp [succ, hout]
    | some a =>
      obtain ⟨-, -, hback, heq⟩ := hnode u a hu
      rw [heq, List.mem_filterMap]
      constructor
      · rintro ⟨b, hb, hv⟩
        exact ⟨a, b, rfl, hback b hb v hv, hb⟩
      · rintro ⟨a', b, ha, hv, hb⟩
        obtain rfl := Option.some.inj ha
        exact ⟨b, hb, (hnode v b hv).1⟩
  refine ⟨⟨hlength, hmem⟩, fun u => ?_⟩
  cases hu : m.rows[u]? with
  | none => simp [succ, hu]
  | some row =>
    have hlt : u < m.externalByLocal.length := hlength ▸ (List.getElem?_eq_some_iff.mp hu).1
    obtain ⟨-, hpair, hback, heq⟩ := hnode u _ (List.getElem?_eq_getElem hlt)
    rw [heq]
    refine List.pairwise_filterMap.mpr (hpair.imp_of_mem ?_)
    rintro b c hb hc hlt k hk k' hk' rfl
    have hbc := (hback b hb k hk).symm.trans (hback c hc k hk')
    exact Nat.ne_of_lt hlt (Option.some.inj hbc)

section Mapped
variable {dependencies valueDependencies successors valueUsers : MappedGraphRows}
  {tokensByNode : MappedNodeRows} {tokenWeights : List Nat} {p : Problem}

/-- The borrowed rows pass the checks of the entry point. -/
structure BorrowedRows (dependencies valueDependencies : MappedGraphRows)
    (tokensByNode : MappedNodeRows) (tokenWeights : List Nat)
    (successors valueUsers : MappedGraphRows) : Prop where
  values_length : valueDependencies.rows.length = dependencies.rows.length
  tokens_length : tokensByNode.rows.length = dependencies.rows.length
  values_sub : ∀ u, ∀ v ∈ succ valueDependencies.rows u, v ∈ succ dependencies.rows u
  tokenRows : Ascending tokenWeights.length tokensByNode.rows
  reversed : Reversed successors.rows dependencies.rows
  valueUsers : Reversed valueUsers.rows valueDependencies.rows

/-- The problem of borrowed rows that pass the checks. -/
def borrowedRowsProblem (dependencies valueDependencies : MappedGraphRows)
    (tokensByNode : MappedNodeRows) (tokenWeights : List Nat)
    (successors valueUsers : MappedGraphRows) : Problem where
  dependencies := dependencies.rows
  valueDependencies := valueDependencies.rows
  tokensByNode := tokensByNode.rows
  tokenWeights := tokenWeights
  tokenUsers := (List.range tokenWeights.length).map fun token =>
    (List.range dependencies.rows.length).filter fun user => token ∈ succ tokensByNode.rows user
  successors := successors.rows
  valueUsers := valueUsers.rows

theorem mappedProblem_ok_iff :
    mappedProblem dependencies valueDependencies tokensByNode tokenWeights successors valueUsers =
        .ok p ↔
      BorrowedRows dependencies valueDependencies tokensByNode tokenWeights successors valueUsers ∧
      p = borrowedRowsProblem dependencies valueDependencies tokensByNode tokenWeights successors
        valueUsers := by
  have hreverse := fun m m' : MappedGraphRows =>
    validateReverseUsers_ok_iff m.represents.2 m'.represents.2
  unfold mappedProblem
  constructor
  · intro h
    obtain ⟨_, hinputs, h₁⟩ := bind_eq_ok.mp h
    obtain ⟨hv, ht, htokens, hsub, rfl⟩ := validateInputs_ok_iff.mp hinputs
    obtain ⟨_, hsucc, h₂⟩ := bind_eq_ok.mp h₁
    obtain ⟨_, husers, h₃⟩ := bind_eq_ok.mp h₂
    exact ⟨⟨hv, ht, hsub, htokens, (hreverse _ _).mp hsucc, (hreverse _ _).mp husers⟩,
      (Except.ok.inj h₃).symm⟩
  · rintro ⟨h, rfl⟩
    refine bind_eq_ok.mpr ⟨_, validateInputs_ok_iff.mpr
      ⟨h.values_length, h.tokens_length, h.tokenRows, h.values_sub, rfl⟩, ?_⟩
    refine bind_eq_ok.mpr ⟨(), (hreverse _ _).mpr h.reversed, ?_⟩
    exact bind_eq_ok.mpr ⟨(), (hreverse _ _).mpr h.valueUsers, rfl⟩

theorem BorrowedRows.sound
    (h : BorrowedRows dependencies valueDependencies tokensByNode tokenWeights successors
      valueUsers) :
    (borrowedRowsProblem dependencies valueDependencies tokensByNode tokenWeights successors
      valueUsers).Sound where
  reversed := h.reversed
  valueUsers := h.valueUsers
  values_length := h.values_length
  values_sub := h.values_sub
  tokens_length := h.tokens_length
  tokens_nodup := h.tokenRows.nodup
  token_lt := h.tokenRows.lt
  tokenUsers_eq := rfl

theorem scheduleMapped_eq
    (h : BorrowedRows dependencies valueDependencies tokensByNode tokenWeights successors
      valueUsers) :
    scheduleMapped dependencies valueDependencies tokensByNode tokenWeights successors valueUsers =
      (borrowedRowsProblem dependencies valueDependencies tokensByNode tokenWeights successors
        valueUsers).scheduleWithUsers := by
  unfold scheduleMapped
  rw [mappedProblem_ok_iff.mpr ⟨h, rfl⟩]
  exact Problem.schedule_eq _

/-! ## Owned and borrowed rows of the same relations -/

variable {rows valueRows : List (List Nat)}

theorem represents_perm {m : MappedGraphRows} (h : Represents rows m)
    (hsorted : ∀ u, (succ rows u).Pairwise (· < ·)) (u : Nat) :
    (succ rows u).Perm (succ m.rows u) := by
  refine (List.perm_ext_iff_of_nodup ((hsorted u).imp Nat.ne_of_lt) (m.represents.2 u)).mpr
    fun v => ?_
  rw [h.2, m.represents.1.2]

theorem represents_acyclic {m : MappedGraphRows} (h : Represents rows m) :
    Acyclic rows ↔ Acyclic m.rows := by
  have hedge : ∀ u v, Edge rows u v ↔ Edge m.rows u v := fun u v => by
    rw [Edge, Edge, h.2, m.represents.1.2]
  have hsame : Edge rows = Edge m.rows := funext fun u => funext fun v => propext (hedge u v)
  unfold Acyclic Cyclic
  rw [hsame]

theorem represents_length {m : MappedGraphRows} (h : Represents rows m) :
    rows.length = m.rows.length := h.1.trans m.represents.1.1.symm

variable (hr : Represents rows dependencies) (hv : Represents valueRows valueDependencies)
  (hsorted : ∀ u, (succ rows u).Pairwise (· < ·))
  (hsorted' : ∀ u, (succ valueRows u).Pairwise (· < ·))
include hr hv hsorted hsorted'

theorem BorrowedRows.owned
    (h : BorrowedRows dependencies valueDependencies tokensByNode tokenWeights successors
      valueUsers) : OwnedRows rows valueRows tokensByNode.rows tokenWeights := by
  have hp := represents_perm hr hsorted
  have hp' := represents_perm hv hsorted'
  refine ⟨⟨hsorted, fun u v hmem => ?_⟩, ⟨hsorted', fun u v hmem => ?_⟩, ?_, ?_,
    fun u v hmem => ?_, h.tokenRows⟩
  · rw [represents_length hr]
    exact h.reversed.symm.inRange u v ((hp u).mem_iff.mp hmem)
  · rw [represents_length hv]
    exact h.valueUsers.symm.inRange u v ((hp' u).mem_iff.mp hmem)
  · rw [represents_length hr, represents_length hv, h.values_length]
  · rw [represents_length hr, h.tokens_length]
  · exact (hp u).mem_iff.mpr (h.values_sub u v ((hp' u).mem_iff.mp hmem))

theorem OwnedRows.borrowed (h : OwnedRows rows valueRows tokensByNode.rows tokenWeights)
    (hrev : Reversed successors.rows dependencies.rows)
    (hrev' : Reversed valueUsers.rows valueDependencies.rows) :
    BorrowedRows dependencies valueDependencies tokensByNode tokenWeights successors
      valueUsers := by
  have hp := represents_perm hr hsorted
  have hp' := represents_perm hv hsorted'
  refine ⟨?_, ?_, fun u v hmem => ?_, h.tokenRows, hrev, hrev'⟩
  · rw [← represents_length hr, ← represents_length hv, h.values_length]
  · rw [← represents_length hr, h.tokens_length]
  · exact (hp u).mem_iff.mp (h.values_sub u v ((hp' u).mem_iff.mpr hmem))

theorem borrowed_alike : (borrowedRowsProblem dependencies valueDependencies tokensByNode
    tokenWeights successors valueUsers).Alike
      (ownedRowsProblem rows valueRows tokensByNode.rows tokenWeights) where
  length := represents_length hr
  dependencies := represents_perm hr hsorted
  values := represents_perm hv hsorted'
  tokens := rfl
  weights := rfl

theorem scheduleOwned_of_mapped {order : List Nat}
    (ho : scheduleMapped dependencies valueDependencies tokensByNode tokenWeights successors
      valueUsers = .ok order) :
    scheduleOwned rows valueRows tokensByNode.rows tokenWeights = .ok order ∨
      scheduleOwned rows valueRows tokensByNode.rows tokenWeights =
        .error .arithmeticOverflow := by
  obtain ⟨p, hproblem, -⟩ := bind_eq_ok.mp ho
  obtain ⟨hb, rfl⟩ := mappedProblem_ok_iff.mp hproblem
  have howned := hb.owned hr hv hsorted hsorted'
  rw [scheduleMapped_eq hb] at ho
  have hac : Acyclic successors.rows := by
    rcases Problem.scheduleWithUsers_cases hb.sound with ⟨hac, -⟩ | ⟨-, herr⟩
    · exact hac
    · rw [herr] at ho
      cases ho
  have hac' : Acyclic rows := (represents_acyclic hr).mpr ((acyclic_iff hb.reversed).mp hac)
  rcases scheduleOwned_of_acyclic howned hac' with ⟨order', ho'⟩ | herr
  · rw [scheduleOwned_eq howned] at ho'
    have heq := (borrowed_alike hr hv hsorted hsorted').schedule hb.sound howned.sound ho ho'
    exact .inl ((scheduleOwned_eq howned).trans (heq ▸ ho'))
  · exact .inr herr

theorem scheduleMapped_of_owned {order : List Nat}
    (ho : scheduleOwned rows valueRows tokensByNode.rows tokenWeights = .ok order)
    (hrev : Reversed successors.rows dependencies.rows)
    (hrev' : Reversed valueUsers.rows valueDependencies.rows) :
    scheduleMapped dependencies valueDependencies tokensByNode tokenWeights successors valueUsers =
        .ok order ∨
      scheduleMapped dependencies valueDependencies tokensByNode tokenWeights successors
        valueUsers = .error .arithmeticOverflow := by
  obtain ⟨howned, hac, -⟩ := scheduleOwned_of_ok ho
  have hb := howned.borrowed hr hv hsorted hsorted' hrev hrev'
  rw [scheduleMapped_eq hb]
  rcases Problem.scheduleWithUsers_cases hb.sound with
    ⟨-, ⟨order', ho', -⟩ | herr⟩ | ⟨hnot, -⟩
  · rw [scheduleOwned_eq howned] at ho
    have heq := (borrowed_alike hr hv hsorted hsorted').schedule hb.sound howned.sound ho' ho
    exact .inl (heq ▸ ho')
  · exact .inr herr
  · exact absurd ((acyclic_iff hb.reversed).mpr ((represents_acyclic hr).mp hac)) hnot

end Mapped
/-! ## Both entry points -/

/-- Owned rows are scheduled if and only if they pass the checks and have no cycle, unless a counter
overflows; borrowed rows of the same relations have the same schedule. -/
theorem schedules_exact :
    (∀ (dependencies valueDependencies tokensByNode : List (List Nat)) (tokenWeights : List Nat),
      (∀ order, scheduleOwned dependencies valueDependencies tokensByNode tokenWeights = .ok order →
        OwnedRows dependencies valueDependencies tokensByNode tokenWeights ∧
        Acyclic dependencies ∧ order.Perm (List.range dependencies.length) ∧
        ∀ u, ∀ d ∈ succ dependencies u, [d, u].Sublist order) ∧
      (OwnedRows dependencies valueDependencies tokensByNode tokenWeights →
        Acyclic dependencies →
        ((∃ order, scheduleOwned dependencies valueDependencies tokensByNode tokenWeights =
            .ok order) ∨
          scheduleOwned dependencies valueDependencies tokensByNode tokenWeights =
            .error .arithmeticOverflow) ∧
        (DeltasFit valueDependencies tokensByNode tokenWeights dependencies.length →
          ∃ order, scheduleOwned dependencies valueDependencies tokensByNode tokenWeights =
            .ok order))) ∧
    (∀ (dependencies valueDependencies successors valueUsers : MappedGraphRows)
        (tokensByNode : MappedNodeRows) (tokenWeights : List Nat) (rows valueRows : List (List Nat)),
      Represents rows dependencies → Represents valueRows valueDependencies →
      (∀ u, (succ rows u).Pairwise (· < ·)) → (∀ u, (succ valueRows u).Pairwise (· < ·)) →
      (∀ order, scheduleMapped dependencies valueDependencies tokensByNode tokenWeights successors
          valueUsers = .ok order →
        scheduleOwned rows valueRows tokensByNode.rows tokenWeights = .ok order ∨
        scheduleOwned rows valueRows tokensByNode.rows tokenWeights =
          .error .arithmeticOverflow) ∧
      (∀ order, scheduleOwned rows valueRows tokensByNode.rows tokenWeights = .ok order →
        Reversed successors.rows dependencies.rows →
        Reversed valueUsers.rows valueDependencies.rows →
        scheduleMapped dependencies valueDependencies tokensByNode tokenWeights successors
            valueUsers = .ok order ∨
        scheduleMapped dependencies valueDependencies tokensByNode tokenWeights successors
            valueUsers = .error .arithmeticOverflow)) := by
  refine ⟨fun dependencies valueDependencies tokensByNode tokenWeights =>
    ⟨fun order => scheduleOwned_of_ok, fun h hac =>
      ⟨scheduleOwned_of_acyclic h hac, scheduleOwned_of_fit h hac⟩⟩, ?_⟩
  intro dependencies valueDependencies successors valueUsers tokensByNode tokenWeights rows
    valueRows hr hv hsorted hsorted'
  exact ⟨fun order ho => scheduleOwned_of_mapped hr hv hsorted hsorted' ho,
    fun order ho hrev hrev' => scheduleMapped_of_owned hr hv hsorted hsorted' ho hrev hrev'⟩

/-- A dependency listed twice is rejected, though the graph is in range and has no cycle. -/
theorem repeatedDependency_rejected :
    InRange [[], [0, 0]] ∧ Acyclic [[], [0, 0]] ∧
      scheduleOwned [[], [0, 0]] [[], []] [[], []] [] = .error .duplicateDependency := by
  refine ⟨by decide, ?_, by decide⟩
  have htopo : Topological [[], [0, 0]] [1, 0] :=
    ⟨by decide, by simp [Edge, succ], by simp [Edge, succ]⟩
  exact htopo.acyclic (by decide) (by decide)

/-! ## The queue of either entry point -/

/-- Problems that reach the loop. -/
def Accepted (p : Problem) : Prop :=
  (∃ dependencies valueDependencies tokensByNode tokenWeights,
    ownedProblem dependencies valueDependencies tokensByNode tokenWeights = .ok p) ∨
  ∃ dependencies valueDependencies tokensByNode tokenWeights successors valueUsers,
    mappedProblem dependencies valueDependencies tokensByNode tokenWeights successors valueUsers =
      .ok p

theorem Accepted.sound {p : Problem} (h : Accepted p) : p.Sound := by
  rcases h with ⟨_, _, _, _, h⟩ | ⟨_, _, _, _, _, _, h⟩
  · obtain ⟨hrows, rfl⟩ := ownedProblem_ok_iff.mp h
    exact hrows.sound
  · obtain ⟨hrows, rfl⟩ := mappedProblem_ok_iff.mp h
    exact hrows.sound

/-- In every state of the loop the queue holds the ready nodes under their recomputed deltas, and
the loop selects the least of them. -/
theorem queue_exact {p : Problem} (hp : Accepted p) {entryDepth exitDepth : Nat → Nat} {q : Queued}
    (h : Queued.Reached p entryDepth exitDepth q) :
    (∀ v, v ∈ q.ready ↔ v < p.dependencies.length ∧ v ∉ q.reverse ∧
      ∀ u, v ∈ succ p.dependencies u → u ∈ q.reverse) ∧
    (∀ v ∈ q.ready, q.deltas v = p.recomputedDelta q.reverse v) ∧
    (∀ k, k ∈ q.keys ↔ ∃ v ∈ q.ready,
      k = keyOf entryDepth exitDepth (p.recomputedDelta q.reverse v) v) ∧
    ∀ selected, q.first = some selected → selected ∈ q.ready ∧ ∀ v ∈ q.ready,
      keyOf entryDepth exitDepth (p.recomputedDelta q.reverse selected) selected ≤
        keyOf entryDepth exitDepth (p.recomputedDelta q.reverse v) v :=
  h.queue hp.sound

/-- Two nodes, the second with the value of the first. -/
def pairProblem : Problem :=
  ownedRowsProblem [[], [0]] [[], [0]] [[], []] []

theorem queue_exact_pair : ∃ q, Queued.start pairProblem (fun _ => 1) (fun _ => 1) = .ok q ∧
    q.deltas 1 = pairProblem.recomputedDelta q.reverse 1 := by
  refine ⟨_, rfl, ?_⟩
  have haccepted : Accepted pairProblem := .inl ⟨[[], [0]], [[], [0]], [[], []], [], by rfl⟩
  exact (queue_exact haccepted (.start rfl)).2.1 1 (by decide)

/-- Values of `node` that no other node is left to use. -/
def lastUses (p : Problem) (selected : List Nat) (node : Nat) : Nat :=
  ((succ p.valueDependencies node).filter fun d =>
    Problem.usersLeft p.valueDependencies selected d == 1).length

/-- A value whose last remaining use is the node still counts in full: only the own value of a node
is subtracted. -/
theorem lastUse_notSubtracted : ∃ q, Accepted pairProblem ∧
    Queued.start pairProblem (fun _ => 1) (fun _ => 1) = .ok q ∧ 1 ∈ q.ready ∧ q.deltas 1 = 1 ∧
    (((succ pairProblem.valueDependencies 1).filter fun d =>
        !Problem.hasUser pairProblem.valueDependencies q.reverse d).length : Int) -
      lastUses pairProblem q.reverse 1 +
      ((succ pairProblem.tokensByNode 1).map (pairProblem.tokenTerm q.reverse)).sum = 0 :=
  ⟨_, .inl ⟨[[], [0]], [[], [0]], [[], []], [], by rfl⟩, rfl, by decide, by decide, by decide⟩

end Celox.Analysis.DagSchedule
