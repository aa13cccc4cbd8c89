import Synapse.State.Deletion

/-!
# Synapse.State.DeletionSafety — no group in use is deleted

* `Rewrites`: what happens to the rows of the pending table; a row that changes gets a sequence number that no deleter
  has seen.
* `Safe`: the invariant.  Its core is `checked`: once a deleter has found a group unreferenced, an accepted event can
  refer to the group only while it is marked as persisting, or after the row has changed.
* `step_safe`, `run_safe`: every transaction keeps it.
* `deletion_safe`: groups that accepted events refer to exist, and no group is a delta on a deleted one.
-/

namespace Synapse.State

open Lib Finset Option Finmap State.System

/-! ## The pending table -/

/-- The rows of `T` are gone or rewritten; any row is the same as before or has a new sequence number. -/
structure Rewrites (T : Set ℕ) (t t' : PendingTable) : Prop where
  le : t.lastSequence ≤ t'.lastSequence
  rows : ∀ g r, t'.rows.lookup g = some r →
    (g ∉ T ∧ t.rows.lookup g = some r) ∨ (t.lastSequence < r.sequenceNumber ∧ r.sequenceNumber ≤ t'.lastSequence)

section Pending

variable {t t' t'' : PendingTable} {T T' : Set ℕ} {now : ℕ}

theorem Rewrites.refl (t : PendingTable) : Rewrites ∅ t t := ⟨le_rfl, fun _ _ h => .inl ⟨Set.notMem_empty _, h⟩⟩

theorem Rewrites.trans (h : Rewrites T t t') (h' : Rewrites T' t' t'') : Rewrites (T ∪ T') t t'' := by
  have hle := h.le
  refine ⟨h.le.trans h'.le, fun g r hr => ?_⟩
  rcases h'.rows g r hr with ⟨hg', hr⟩ | ⟨hlt, hle'⟩
  · rcases h.rows g r hr with ⟨hg, hr⟩ | ⟨hlt, hle'⟩
    · exact .inl ⟨fun hmem => hmem.elim hg hg', hr⟩
    · exact .inr ⟨hlt, hle'.trans h'.le⟩
  · exact .inr ⟨by omega, hle'⟩

theorem Rewrites.weaken (h : Rewrites T t t') (hT : T' ⊆ T) : Rewrites T' t t' :=
  ⟨h.le, fun g r hr => (h.rows g r hr).imp (fun h => ⟨fun hg => h.1 (hT hg), h.2⟩) id⟩

section

variable (t : PendingTable)

theorem rewrites_write (now group : ℕ) : Rewrites {group} t (t.write now group) := by
  refine ⟨Nat.le_succ _, fun g r hr => ?_⟩
  rw [PendingTable.write, lookup_insert_eq] at hr
  split_ifs at hr with hg
  · cases hr
    exact .inr ⟨Nat.lt_succ_self _, le_rfl⟩
  · exact .inl ⟨hg, hr⟩

theorem rewrites_bumpGroup (now group : ℕ) : Rewrites {group} t (t.bumpGroup now group) := by
  unfold PendingTable.bumpGroup
  split
  · exact rewrites_write t now group
  · rename_i hnot
    refine ⟨le_rfl, fun g r hr => .inl ⟨fun hg => hnot ?_, hr⟩⟩
    exact hg ▸ mem_iff.mpr ⟨r, hr⟩

theorem rewrites_bumpDeletion (now : ℕ) (groups : List ℕ) :
    Rewrites {g | g ∈ groups} t (t.bumpDeletion now groups) := by
  unfold PendingTable.bumpDeletion
  induction groups generalizing t with
  | nil => exact (Rewrites.refl t).weaken (by simp)
  | cons g groups ih =>
    refine ((rewrites_bumpGroup t now g).trans (ih _)).weaken fun x hx => ?_
    rcases List.mem_cons.mp hx with rfl | hx
    · exact .inl rfl
    · exact .inr hx

theorem rewrites_propose (now : ℕ) (groups : List ℕ) :
    Rewrites ∅ t (t.markStateGroupsAsPendingDeletion now groups) := by
  unfold PendingTable.markStateGroupsAsPendingDeletion
  induction groups generalizing t with
  | nil => exact Rewrites.refl t
  | cons g groups ih =>
    refine (Rewrites.trans (T := ∅) ?_ (ih _)).weaken (Set.empty_subset _)
    unfold PendingTable.proposeGroup
    split
    · exact Rewrites.refl t
    · exact (rewrites_write t now g).weaken (Set.empty_subset _)

theorem rewrites_delete (groups : Finset ℕ) : Rewrites ↑groups t (t.delete groups) := by
  refine ⟨le_rfl, fun g r hr => .inl ?_⟩
  rw [PendingTable.delete, lookup_restrict] at hr
  split_ifs at hr with hg
  exact ⟨by simpa using hg, hr⟩

end

end Pending

/-! ## The invariant -/

/-- An accepted event refers to the group. -/
def System.Used (s : System) (group : ℕ) : Prop :=
  ∃ eventId ref, s.eventToStateGroups.lookup eventId = some ref ∧ ref.accepted = true ∧ ref.stateGroup = group

/-- The row of the group is not the one that the deleter has seen. -/
def System.Changed (s : System) (d : Deleter) (group : ℕ) : Prop :=
  ∀ row, s.pending.rows.lookup group = some row → row.sequenceNumber ≠ d.sequence group

/-- The rows of `event_to_state_groups` stay as they are. -/
def System.Keeps (s s' : System) : Prop :=
  ∀ eventId ref, s.eventToStateGroups.lookup eventId = some ref → s'.eventToStateGroups.lookup eventId = some ref

/-- The group is pending under the sequence number that the deleter has seen, has waited long enough, and is not being
persisted. -/
def System.Passes (s : System) (d : Deleter) (group : ℕ) : Prop :=
  ¬ s.isPersisting group ∧ (s.pending.rows.lookup group).any fun row =>
    row.sequenceNumber = d.sequence group ∧ row.insertionTs + delayBeforeDeletionMs ≤ s.now

/-- The group is marked, or its row is another than the deleter has seen or too new. -/
def System.Refused (s : System) (d : Deleter) (group : ℕ) : Prop :=
  s.isPersisting group ∨ (s.pending.rows.lookup group).any fun row =>
    row.sequenceNumber ≠ d.sequence group ∨ s.now < row.insertionTs + delayBeforeDeletionMs

/-- The edges lead from `x` to `group`. -/
def System.DeltaOn (s : System) (x group : ℕ) : Prop := group ∈ (Delta.chain s.state.tables.store x).tail

instance (s : System) (d : Deleter) : DecidablePred (s.Passes d) := fun _ => inferInstanceAs (Decidable (_ ∧ _))

/-- The candidates that pass, but for those that the others are deltas on. -/
def System.passing (s : System) (d : Deleter) (groups : Finset ℕ) : Finset ℕ :=
  groups.filter (s.Passes d) \ s.ancestors (groups.filter fun group => ¬ s.Passes d group)

structure Safe (s : System) : Prop where
  state : Inv s.state
  pendingSequence : ∀ group row, s.pending.rows.lookup group = some row → row.sequenceNumber ≤ s.pending.lastSequence
  deleterSequence : ∀ d ∈ s.deleters, ∀ group ∈ d.groups, d.sequence group ≤ s.pending.lastSequence
  tasks : ∀ room task, s.tasks room = some task → referencedStateGroups task.events = some task.referenced ∧
    ∀ group ∈ task.referenced, (group, task.instanceName) ∈ s.persisting ∧ group ∈ s.stateGroups
  /-- a mark belongs to one batch -/
  apart : ∀ room room' task task', s.tasks room = some task → s.tasks room' = some task' → room ≠ room' →
    task.instanceName = task'.instanceName → Disjoint task.referenced task'.referenced
  persisted : ∀ eventId ∈ s.eventToStateGroups, s.events.lookup eventId = some false
  used : ∀ group, s.Used group → group ∈ s.stateGroups
  checked : ∀ d ∈ s.deleters, ∀ group ∈ d.groups, group ∉ d.unchecked → group ∉ d.referenced → s.Used group →
    s.isPersisting group ∨ s.Changed d group

variable {order : List ℕ}

section Preserved

variable {s : System}

theorem safe_empty : Safe .empty where
  state := inv_empty
  pendingSequence := by simp [empty]
  deleterSequence := by simp [empty]
  tasks := by simp [empty]
  apart := by simp [empty]
  persisted _ h := absurd h Finmap.notMem_empty
  used := by
    rintro group ⟨_, _, h, -⟩
    simp [empty] at h
  checked := by simp [empty]

variable {d : Deleter} {group : ℕ}

theorem changed_of_rewrites {T : Set ℕ} {t : PendingTable} (h : Rewrites T s.pending t)
    (hseq : d.sequence group ≤ s.pending.lastSequence) (hc : group ∈ T ∨ s.Changed d group) :
    ∀ row, t.rows.lookup group = some row → row.sequenceNumber ≠ d.sequence group := by
  intro row hrow
  rcases h.rows group row hrow with ⟨hnot, hold⟩ | ⟨hlt, -⟩
  · exact hc.elim (fun hmem => absurd hmem hnot) fun hc => hc row hold
  · omega

theorem Safe.withPending (h : Safe s) {T : Set ℕ} {t : PendingTable} (ht : Rewrites T s.pending t) :
    Safe { s with pending := t } where
  __ := h
  pendingSequence group row hrow := by
    rcases ht.rows group row hrow with ⟨-, hold⟩ | ⟨-, hle⟩
    · exact (h.pendingSequence group row hold).trans ht.le
    · exact hle
  deleterSequence d hd group hg := (h.deleterSequence d hd group hg).trans ht.le
  checked d hd group hg hu hr huse :=
    (h.checked d hd group hg hu hr huse).imp id fun hc => changed_of_rewrites ht (h.deleterSequence d hd group hg) (.inr hc)

theorem safe_bumpDeletion (h : Safe s) (groups : List ℕ) : Safe (s.bumpDeletion groups) :=
  h.withPending (rewrites_bumpDeletion s.pending s.now groups)

theorem safe_withGroups (h : Safe s) (room : String) {state : World} (hinv : Inv state)
    (hsub : s.stateGroups ⊆ state.tables.stateGroups) : Safe (s.withGroups room state) where
  __ := h
  state := hinv
  tasks room' task htask := by
    refine ⟨(h.tasks room' task htask).1, fun group hg => ?_⟩
    obtain ⟨hp, hmem⟩ := (h.tasks room' task htask).2 group hg
    exact ⟨hp, hsub hmem⟩
  used group hu := hsub (h.used group hu)

theorem stateGroups_insertGroup (t : Tables) (stateGroup : ℕ) (prev : Option ℕ) (ids : StateMap) :
    t.stateGroups ⊆ (insertGroup t stateGroup prev ids).stateGroups := subset_insert _ _

theorem stateGroups_insertContext (t : Tables) (contexts : List BatchContext) :
    t.stateGroups ⊆ (contexts.foldl insertContext t).stateGroups := by
  refine List.foldlRecOn (motive := fun t' : Tables => t.stateGroups ⊆ t'.stateGroups) contexts _ (Subset.refl _)
    fun t' h c _ => ?_
  unfold insertContext
  split
  · exact h
  · exact h.trans (stateGroups_insertGroup _ _ _ _)

/-! ### Deleters -/

/-- The deleters are those that were there, and new ones that have seen the rows and know what they have checked. -/
theorem Safe.withDeleters (h : Safe s) {deleters : List Deleter} (hnew : ∀ d ∈ deleters, d ∈ s.deleters ∨
      ∀ group ∈ d.groups, d.sequence group ≤ s.pending.lastSequence ∧ (group ∉ d.unchecked → group ∉ d.referenced →
        s.Used group → s.isPersisting group ∨ s.Changed d group)) : Safe { s with deleters := deleters } := by
  refine { h with deleterSequence := fun d hd group hg => ?_, checked := fun d hd group hg => ?_ }
  · rcases hnew d hd with hold | hnew
    · exact h.deleterSequence d hold group hg
    · exact (hnew group hg).1
  · rcases hnew d hd with hold | hnew
    · exact h.checked d hold group hg
    · exact (hnew group hg).2

theorem safe_fetch (h : Safe s) (room : String) (insertionTs : ℕ) :
    Safe { s with deleters := s.deleters ++ [⟨s.fetchGroups room insertionTs,
      fun group => ((s.pending.rows.lookup group).map Pending.sequenceNumber).getD 0, s.fetchGroups room insertionTs, ∅,
      false⟩] } := by
  refine h.withDeleters fun d hd => (mem_snoc.mp hd).imp id ?_
  rintro rfl
  -- the new deleter has checked nothing
  refine fun group hg => ⟨?_, fun hu => absurd hg hu⟩
  show ((s.pending.rows.lookup group).map Pending.sequenceNumber).getD 0 ≤ _
  rcases hrow : s.pending.rows.lookup group with _ | row
  · exact Nat.zero_le _
  · exact h.pendingSequence group row hrow

theorem isReferenced_of_used (h : s.Used group) : s.isReferenced group := by
  obtain ⟨eventId, ref, hl, -, rfl⟩ := h
  exact ⟨eventId, Finmap.mem_keys.mpr (mem_iff.mpr ⟨ref, hl⟩), by rw [hl]; simp⟩

theorem safe_checkReferenced (h : Safe s) {deleter : ℕ} (hd : s.deleters[deleter]? = some d) (batch : Finset ℕ) :
    Safe { s with deleters := s.deleters.set deleter { d with
      unchecked := d.unchecked \ batch
      referenced := d.referenced ∪ batch.filter s.isReferenced } } := by
  have hmem := List.mem_of_getElem? hd
  refine h.withDeleters fun d' hd' => (List.mem_or_eq_of_mem_set hd').imp id ?_
  rintro rfl group hg
  refine ⟨h.deleterSequence d hmem group hg, fun hu hr huse => ?_⟩
  rw [Finset.mem_union, not_or, mem_filter, not_and] at hr
  have hbatch : group ∉ batch := fun hb => hr.2 hb (isReferenced_of_used huse)
  exact h.checked d hmem group hg (fun hunc => hu (mem_sdiff.mpr ⟨hunc, hbatch⟩)) hr.1 huse

theorem safe_markAsUsed (h : Safe s) {deleter : ℕ} (hd : s.deleters[deleter]? = some d) : Safe { s with
      deleters := s.deleters.set deleter { d with marked := true }
      pending := s.pending.delete d.referenced } := by
  have hmem := List.mem_of_getElem? hd
  have hp := h.withPending (rewrites_delete s.pending d.referenced)
  refine hp.withDeleters fun d' hd' => (List.mem_or_eq_of_mem_set hd').imp id ?_
  rintro rfl group hg
  exact ⟨hp.deleterSequence d hmem group hg, hp.checked d hmem group hg⟩

theorem safe_eraseDeleter (h : Safe s) (deleter : ℕ) : Safe { s with deleters := s.deleters.eraseIdx deleter } :=
  h.withDeleters fun _ hd => .inl (List.mem_of_mem_eraseIdx hd)

variable {groups : Finset ℕ}

theorem ready_sdiff_notReady :
    s.readyToBeDeleted d groups \ s.notReadyToBeDeleted d groups = groups.filter (s.Passes d) := by
  ext group
  rw [mem_sdiff, readyToBeDeleted, notReadyToBeDeleted, mem_filter, mem_filter, mem_filter, System.Passes]
  rcases s.pending.rows.lookup group with _ | row
  · simp
  simp only [Option.any_some, decide_eq_true_eq]
  constructor
  · rintro ⟨⟨hg, hrow⟩, hnot⟩
    exact ⟨hg, fun hp => hnot ⟨hg, .inl hp⟩, hrow⟩
  rintro ⟨hg, hp, hrow⟩
  refine ⟨⟨hg, hrow⟩, ?_⟩
  rintro ⟨-, hp' | hseq | hlt⟩
  · exact hp hp'
  · exact hseq hrow.1
  · exact absurd hrow.2 (not_le.mpr hlt)

theorem mem_ready_iff : group ∈ s.getStateGroupsReadyForPotentialDeletion d groups ↔
    (group ∈ groups ∧ s.Passes d group) ∧ ¬ (s.notReadyToBeDeleted d groups ≠ ∅ ∧ group ∈ s.ancestors groups) := by
  unfold getStateGroupsReadyForPotentialDeletion
  rw [ready_sdiff_notReady]
  split
  · simp [*]
  · simp [*]

theorem mem_ancestors : group ∈ s.ancestors groups ↔ ∃ x ∈ groups, s.DeltaOn x group := by
  simp [System.ancestors, System.DeltaOn]

theorem notReady_ne_empty : s.notReadyToBeDeleted d groups ≠ ∅ ↔ ∃ x ∈ groups, s.Refused d x := by
  rw [← nonempty_iff_ne_empty, notReadyToBeDeleted, filter_nonempty_iff]
  rfl

theorem not_passes_iff (h : ¬ s.Refused d group) : ¬ s.Passes d group ↔ s.pending.rows.lookup group = none := by
  unfold System.Refused at h
  unfold System.Passes
  cases hrow : s.pending.rows.lookup group with
  | none => simp
  | some row =>
    simp only [hrow, Option.any_some, decide_eq_true_eq, not_or] at h ⊢
    simp only [h.1, not_not.mp h.2.1, not_lt.mp h.2.2]
    simp

/-- **What is selected for deletion.**  It is the candidates that pass, but for those that candidates which do not pass
are deltas on, exactly in two cases.  If a candidate is marked, or its row has changed or is too new: where a candidate
that passes is a delta on one that passes, one that does not pass is as well.  If there is no such candidate: none without
a row is a delta on one that passes. -/
theorem selected_eq_passing_iff (s : System) (d : Deleter) (groups : Finset ℕ) :
    s.getStateGroupsReadyForPotentialDeletion d groups = s.passing d groups ↔
      ((∃ x ∈ groups, s.Refused d x) → ∀ group ∈ groups, s.Passes d group → ∀ x ∈ groups, s.Passes d x →
        s.DeltaOn x group → ∃ y ∈ groups, ¬ s.Passes d y ∧ s.DeltaOn y group) ∧
      ((∀ x ∈ groups, ¬ s.Refused d x) → ∀ group ∈ groups, s.Passes d group → ∀ x ∈ groups,
        s.pending.rows.lookup x = none → ¬ s.DeltaOn x group) := by
  have hiff : s.getStateGroupsReadyForPotentialDeletion d groups = s.passing d groups ↔ ∀ group ∈ groups,
      s.Passes d group → ((∃ y ∈ groups, ¬ s.Passes d y ∧ s.DeltaOn y group) ↔
        (∃ x ∈ groups, s.Refused d x) ∧ ∃ x ∈ groups, s.DeltaOn x group) := by
    simp only [Finset.ext_iff, mem_ready_iff, passing, mem_sdiff, mem_filter, mem_ancestors, notReady_ne_empty, and_assoc]
    constructor
    · intro h group hg hpass
      have hgroup := h group
      simp only [hg, hpass, true_and] at hgroup
      exact (not_iff_not.mp hgroup).symm
    · intro h group
      exact and_congr_right fun hg => and_congr_right fun hpass => not_congr (h group hg hpass).symm
  rw [hiff]
  by_cases hrefused : ∃ x ∈ groups, s.Refused d x
  · have hsome : ¬ ∀ x ∈ groups, ¬ s.Refused d x := fun h => hrefused.elim fun x hx => h x hx.1 hx.2
    simp only [hrefused, hsome, true_and, true_imp_iff, false_imp_iff, and_true]
    constructor
    · exact fun h group hg hpass x hx _ hdelta => (h group hg hpass).mpr ⟨x, hx, hdelta⟩
    · refine fun h group hg hpass => ⟨fun ⟨y, hy, _, hdelta⟩ => ⟨y, hy, hdelta⟩, fun ⟨x, hx, hdelta⟩ => ?_⟩
      by_cases hxpass : s.Passes d x
      · exact h group hg hpass x hx hxpass hdelta
      · exact ⟨x, hx, hxpass, hdelta⟩
  · have hnone : ∀ x ∈ groups, ¬ s.Refused d x := fun x hx hr => hrefused ⟨x, hx, hr⟩
    simp only [hrefused, false_and, iff_false, false_imp_iff, true_and]
    constructor
    · exact fun h _ group hg hpass x hx hrow hdelta =>
        h group hg hpass ⟨x, hx, (not_passes_iff (hnone x hx)).mpr hrow, hdelta⟩
    · rintro h group hg hpass ⟨x, hx, hnot, hdelta⟩
      exact h hnone group hg hpass x hx ((not_passes_iff (hnone x hx)).mp hnot) hdelta

/-- What the deletion transaction finds ready has the row that the deleter has seen, and is not being persisted. -/
theorem mem_ready (h : group ∈ s.getStateGroupsReadyForPotentialDeletion d groups) :
    group ∈ groups ∧ ¬ s.isPersisting group ∧ ¬ s.Changed d group := by
  obtain ⟨⟨hg, hp, hrow⟩, -⟩ := mem_ready_iff.mp h
  obtain ⟨row, hlook, hseq⟩ := (any_eq_true _ _).mp hrow
  exact ⟨hg, hp, fun hc => hc row hlook (of_decide_eq_true hseq).1⟩

/-- **The deletion transaction keeps the invariant**: it deletes no group that is in use. -/
theorem safe_purge (h : Safe s) (hd : d ∈ s.deleters) (hunc : d.unchecked = ∅) {toDelete : Finset ℕ}
    (hdel : toDelete = s.getStateGroupsReadyForPotentialDeletion d d.remaining) {t : Tables}
    (hinv : Inv ⟨t, s.state.created⟩) (hgroups : t.stateGroups = s.stateGroups \ toDelete) :
    Safe { s with state := ⟨t, s.state.created⟩, pending := s.pending.delete toDelete } := by
  have hp := h.withPending (rewrites_delete s.pending toDelete)
  have hready : ∀ group ∈ toDelete, group ∈ d.remaining ∧ ¬ s.isPersisting group ∧ ¬ s.Changed d group := by
    intro group hg
    rw [hdel] at hg
    exact mem_ready hg
  refine { hp with state := hinv, tasks := fun room task htask => ?_, used := fun group hu => ?_ }
  · refine ⟨(h.tasks room task htask).1, fun group hg => ?_⟩
    obtain ⟨hpersist, hmem⟩ := (h.tasks room task htask).2 group hg
    refine ⟨hpersist, ?_⟩
    show group ∈ t.stateGroups
    rw [hgroups, mem_sdiff]
    exact ⟨hmem, fun hdel' => (hready group hdel').2.1 ⟨_, hpersist, rfl⟩⟩
  · show group ∈ t.stateGroups
    rw [hgroups, mem_sdiff]
    refine ⟨h.used group hu, fun hdel' => ?_⟩
    obtain ⟨hrem, hnp, hnc⟩ := hready group hdel'
    obtain ⟨hg, hnr⟩ := mem_sdiff.mp hrem
    exact (h.checked d hd group hg (by rw [hunc]; exact Finset.notMem_empty _) hnr hu).elim hnp hnc

/-! ### Batches of events -/

variable {events : List EventContext} {e : EventContext}

theorem mem_referenced (h : referencedStateGroups events = some groups) (he : e ∈ events)
    (hacc : e.accepted = true) (hg : e.stateGroup = some group) : group ∈ groups := by
  induction events generalizing groups with
  | nil => exact absurd he List.not_mem_nil
  | cons a events ih =>
    unfold referencedStateGroups at h
    split at h
    · obtain ⟨rest, hrest, h⟩ := bind_eq_some_iff.mp h
      obtain ⟨first, hfirst, h⟩ := bind_eq_some_iff.mp h
      cases h
      rcases List.mem_cons.mp he with rfl | he
      · rw [hg] at hfirst
        cases hfirst
        exact mem_insert_self _ _
      · exact mem_insert_of_mem (mem_union_right _ (ih hrest he))
    · rename_i hna
      rcases List.mem_cons.mp he with rfl | he
      · exact absurd hacc hna
      · exact ih h he

variable {room : String}

theorem safe_markAsPersisting (h : Safe s) {instanceName : String}
    (hgroups : referencedStateGroups events = some groups) (hsub : groups ⊆ s.stateGroups)
    (hnew : ∀ group ∈ groups, (group, instanceName) ∉ s.persisting) :
    Safe { s with
      persisting := s.persisting ∪ groups.image fun group => (group, instanceName)
      tasks := Function.update s.tasks room (some ⟨instanceName, groups, events⟩) } := by
  -- a mark of another batch of the instance would be in the way
  have hapart : ∀ room' task', s.tasks room' = some task' → task'.instanceName = instanceName →
      Disjoint groups task'.referenced := by
    intro room' task' htask' hname
    refine disjoint_left.mpr fun group hg hg' => hnew group hg ?_
    exact hname ▸ ((h.tasks room' task' htask').2 group hg').1
  refine { h with
    tasks := fun room' task htask => ?_
    apart := fun room₁ room₂ task₁ task₂ h₁ h₂ hne hname => ?_
    checked := fun d hd group hg hu hr huse => (h.checked d hd group hg hu hr huse).imp ?_ id }
  · rcases update_eq_some htask with ⟨-, heq⟩ | ⟨-, htask⟩
    · cases heq
      exact ⟨hgroups, fun group hg => ⟨mem_union_right _ (mem_image_of_mem _ hg), hsub hg⟩⟩
    · obtain ⟨href, hall⟩ := h.tasks room' task htask
      exact ⟨href, fun group hg => ⟨mem_union_left _ (hall group hg).1, (hall group hg).2⟩⟩
  · rcases update_eq_some h₁ with ⟨hr₁, heq₁⟩ | ⟨-, hold₁⟩ <;>
      rcases update_eq_some h₂ with ⟨hr₂, heq₂⟩ | ⟨-, hold₂⟩
    · exact absurd (hr₁.trans hr₂.symm) hne
    · cases heq₁
      exact hapart room₂ task₂ hold₂ hname.symm
    · cases heq₂
      exact (hapart room₁ task₁ hold₁ hname).symm
    · exact h.apart room₁ room₂ task₁ task₂ hold₁ hold₂ hne hname
  · rintro ⟨p, hp, rfl⟩
    exact ⟨p, mem_union_left _ hp, rfl⟩

variable {s' : System}

/-- The row of the event is written. -/
def Stored (s : System) (e : EventContext) : Prop :=
  e.outlier = false ∧ (s.events.lookup e.eventId = none ∨ e.rejected = false ∧ s.events.lookup e.eventId = some true)

instance (s : System) (e : EventContext) : Decidable (Stored s e) := inferInstanceAs (Decidable (_ ∧ _))

/-- **What becomes of an event**: its row is written, or it is a new outlier, or it has been persisted before. -/
theorem persistEvent_eq (s : System) (e : EventContext) : s.persistEvent e =
    if Stored s e then (mappedGroup e).map fun group => { s with
      events := s.events.insert e.eventId false
      eventToStateGroups := s.eventToStateGroups.insert e.eventId ⟨group, !e.rejected⟩ }
    else if s.events.lookup e.eventId = none then some { s with events := s.events.insert e.eventId true }
    else some s := by
  have hrejected : e.rejected = true ∨ e.rejected = false := by cases e.rejected <;> simp
  have houtlier : e.outlier = true ∨ e.outlier = false := by cases e.outlier <;> simp
  unfold persistEvent storeEventStateMapping Stored
  rcases Option.eq_none_or_eq_some (s.events.lookup e.eventId) with hrow | ⟨_ | _, hrow⟩ <;>
    rcases houtlier with hout | hout <;> rcases hrejected with hrej | hrej <;> simp [*]

theorem persistEvent_cases (h : s.persistEvent e = some s') : s' = s ∨ (s.events.lookup e.eventId ≠ some false ∧
      (s' = { s with events := s.events.insert e.eventId true } ∨
      ∃ group, mappedGroup e = some group ∧ e.outlier = false ∧
        s' = { s with
          events := s.events.insert e.eventId false
          eventToStateGroups := s.eventToStateGroups.insert e.eventId ⟨group, !e.rejected⟩ })) := by
  rw [persistEvent_eq] at h
  split_ifs at h with hstored hnew
  · obtain ⟨group, hgroup, rfl⟩ := map_eq_some_iff.mp h
    refine .inr ⟨?_, .inr ⟨group, hgroup, hstored.1, rfl⟩⟩
    rcases hstored.2 with hrow | ⟨-, hrow⟩ <;> simp [hrow]
  · cases h
    exact .inr ⟨by simp [hnew], .inl rfl⟩
  · cases h
    exact .inl rfl

theorem persistEvent_row (hgroup : e.outlier = false → (mappedGroup e).isSome) : ∃ s', s.persistEvent e = some s' ∧
    s'.eventToStateGroups.lookup e.eventId = (if Stored s e then (mappedGroup e).map (⟨·, !e.rejected⟩)
      else s.eventToStateGroups.lookup e.eventId) ∧
    ∀ eventId, eventId ≠ e.eventId → s'.events.lookup eventId = s.events.lookup eventId ∧
      s'.eventToStateGroups.lookup eventId = s.eventToStateGroups.lookup eventId := by
  rw [persistEvent_eq]
  split_ifs with hstored hnew
  · obtain ⟨group, hg⟩ := isSome_iff_exists.mp (hgroup hstored.1)
    simp +contextual [hg, lookup_insert_of_ne]
  · simp +contextual [lookup_insert_of_ne]
  · simp

theorem persistEvents_rows (hnodup : (events.map EventContext.eventId).Nodup)
    (hgroups : ∀ e ∈ events, e.outlier = false → (mappedGroup e).isSome) : ∃ s', events.foldlM persistEvent s = some s' ∧
    (∀ e ∈ events, s'.eventToStateGroups.lookup e.eventId = if Stored s e then (mappedGroup e).map (⟨·, !e.rejected⟩)
      else s.eventToStateGroups.lookup e.eventId) ∧
    ∀ eventId ∉ events.map EventContext.eventId, s'.events.lookup eventId = s.events.lookup eventId ∧
      s'.eventToStateGroups.lookup eventId = s.eventToStateGroups.lookup eventId := by
  induction events generalizing s with
  | nil => exact ⟨s, rfl, by simp, fun _ _ => ⟨rfl, rfl⟩⟩
  | cons e events ih =>
    obtain ⟨hid, hnodup⟩ := List.nodup_cons.mp hnodup
    obtain ⟨s₁, hs₁, hrow, hframe⟩ := persistEvent_row (s := s) (hgroups e List.mem_cons_self)
    obtain ⟨s', hs', hrows, hother⟩ := ih (s := s₁) hnodup fun e' he' => hgroups e' (List.mem_cons_of_mem e he')
    refine ⟨s', by rw [List.foldlM_cons, hs₁]; exact hs', fun e' he' => ?_, fun eventId hnot => ?_⟩
    · rcases List.mem_cons.mp he' with rfl | he'
      · rw [(hother e'.eventId hid).2, hrow]
      · have hne : e'.eventId ≠ e.eventId := fun h => hid (h ▸ List.mem_map_of_mem he')
        have hstored : Stored s₁ e' ↔ Stored s e' := by rw [Stored, Stored, (hframe _ hne).1]
        simp only [hrows e' he', (hframe _ hne).2, hstored]
    · rw [List.map_cons, List.mem_cons, not_or] at hnot
      rw [(hother eventId hnot.2).1, (hother eventId hnot.2).2]
      exact hframe eventId hnot.1

theorem mapped_referenced (h : referencedStateGroups events = some groups) (he : e ∈ events)
    (hout : e.outlier = false) (hrej : e.rejected = false) (hgroup : mappedGroup e = some group) : group ∈ groups := by
  rw [mappedGroup, hrej] at hgroup
  exact mem_referenced h he (by simp [EventContext.accepted, hrej, hout]) hgroup

variable {task : PersistTask}

theorem safe_persistEvent (h : Safe s) (htask : s.tasks room = some task)
    (he : e ∈ task.events) (hs : s.persistEvent e = some s') : Safe s' ∧ s'.tasks = s.tasks := by
  have hrow : s.events.lookup e.eventId ≠ some false → ∀ eventId ∈ s.eventToStateGroups, eventId ≠ e.eventId := by
    rintro hne _ hmem rfl
    exact hne (h.persisted _ hmem)
  rcases persistEvent_cases hs with rfl | ⟨hne, rfl | ⟨group, hgroup, hout, rfl⟩⟩
  · exact ⟨h, rfl⟩
  · refine ⟨{ h with persisted := fun eventId hmem => ?_ }, rfl⟩
    show (s.events.insert e.eventId true).lookup eventId = some false
    rw [lookup_insert_of_ne _ (hrow hne eventId hmem)]
    exact h.persisted eventId hmem
  have hnew : ∀ g, System.Used { s with
      events := s.events.insert e.eventId false
      eventToStateGroups := s.eventToStateGroups.insert e.eventId ⟨group, !e.rejected⟩ } g →
      s.Used g ∨ g ∈ task.referenced := by
    rintro g ⟨eventId, ref, hl, hacc, rfl⟩
    rw [lookup_insert_eq] at hl
    split_ifs at hl
    · cases hl
      exact .inr (mapped_referenced (h.tasks room task htask).1 he hout (by simpa using hacc) hgroup)
    · exact .inl ⟨eventId, ref, hl, hacc, rfl⟩
  refine ⟨{ h with
    persisted := fun eventId hmem => ?_
    used := fun g hu => ?_
    checked := fun d hd g hg hunc hr hu => ?_ }, rfl⟩
  · show (s.events.insert e.eventId false).lookup eventId = some false
    rw [lookup_insert_eq]
    split_ifs with hid
    · rfl
    · exact h.persisted eventId ((Finmap.mem_insert.mp hmem).resolve_left hid)
  · rcases hnew g hu with hu | hmem
    · exact h.used g hu
    · exact ((h.tasks room task htask).2 g hmem).2
  · rcases hnew g hu with hu | hmem
    · exact h.checked d hd g hg hunc hr hu
    · exact .inl ⟨_, ((h.tasks room task htask).2 g hmem).1, rfl⟩

theorem keeps_persistEvent (h : Safe s) (hs : s.persistEvent e = some s') : s.Keeps s' := by
  intro eventId ref hl
  rcases persistEvent_cases hs with rfl | ⟨hne, rfl | ⟨group, -, -, rfl⟩⟩
  · exact hl
  · exact hl
  rw [lookup_insert_of_ne]
  · exact hl
  · rintro rfl
    exact hne (h.persisted _ (mem_iff.mpr ⟨ref, hl⟩))

theorem safe_persistEvents (h : Safe s) (htask : s.tasks room = some task) (hsub : ∀ e ∈ events, e ∈ task.events) :
    Safe (s.persistEvents events) ∧ s.Keeps (s.persistEvents events) := by
  unfold persistEvents
  rcases hrun : (EventContext.filterDuplicates events).foldlM persistEvent s with _ | s'
  · exact ⟨h, fun _ _ hl => hl⟩
  have hrule := run_rule_mem (I := fun s => Safe s ∧ s.tasks room = some task) (R := System.Keeps)
    (fun _ _ _ hl => hl) (fun h₁ h₂ eventId ref hl => h₂ eventId ref (h₁ eventId ref hl))
    (fun {s₁ e s₂} he hs₁ hstep => by
      have hmem := hsub e (EventContext.mem_of_mem_filterDuplicates he)
      obtain ⟨hsafe, htasks⟩ := safe_persistEvent hs₁.1 hs₁.2 hmem hstep
      exact ⟨⟨hsafe, htasks ▸ hs₁.2⟩, keeps_persistEvent hs₁.1 hstep⟩) ⟨h, htask⟩ hrun
  exact ⟨hrule.1.1, hrule.2⟩

theorem rewrites_finish (task : PersistTask) (error : Bool) (horder : order.toFinset = task.referenced) :
    Rewrites ↑task.referenced s.pending (s.finishPersisting task error order).pending := by
  rcases error
  · exact rewrites_delete s.pending task.referenced
  · refine (rewrites_bumpDeletion s.pending s.now order).weaken fun g hg => ?_
    rw [← horder] at hg
    exact List.mem_toFinset.mp hg

/-- **The end of a batch keeps the invariant**: what loses its mark has a row that no deleter has seen. -/
theorem safe_finishPersisting (h : Safe s) (htask : s.tasks room = some task)
    (error : Bool) (horder : order.toFinset = task.referenced) :
    Safe { s.finishPersisting task error order with tasks := Function.update s.tasks room none } := by
  have ht := rewrites_finish (s := s) task error horder
  have hp := h.withPending ht
  have hother : ∀ room' task', Function.update s.tasks room none room' = some task' →
      room' ≠ room ∧ s.tasks room' = some task' := by
    intro room' task' htask'
    rcases update_eq_some htask' with ⟨-, hnone⟩ | hother
    · cases hnone
    · exact hother
  refine { hp with tasks := fun room' task' htask' => ?_, apart := ?_, checked := fun d hd group hg hu hr huse => ?_ }
  · obtain ⟨hne, htask'⟩ := hother room' task' htask'
    obtain ⟨href, hall⟩ := h.tasks room' task' htask'
    refine ⟨href, fun group hg => ⟨mem_filter.mpr ⟨(hall group hg).1, ?_⟩, (hall group hg).2⟩⟩
    rintro ⟨hmem, hname⟩
    exact disjoint_left.mp (h.apart room' room task' task htask' htask hne hname) hg hmem
  · intro room₁ room₂ task₁ task₂ h₁ h₂
    exact h.apart room₁ room₂ task₁ task₂ (hother room₁ task₁ h₁).2 (hother room₂ task₂ h₂).2
  have hseq := h.deleterSequence d hd group hg
  by_cases hmem : group ∈ task.referenced
  · exact .inr (changed_of_rewrites ht hseq (.inl hmem))
  · rcases h.checked d hd group hg hu hr huse with ⟨p, hp, rfl⟩ | hc
    · exact .inl ⟨p, mem_filter.mpr ⟨hp, fun hb => hmem hb.1⟩, rfl⟩
    · exact .inr (changed_of_rewrites ht hseq (.inr hc))

end Preserved

/-! ## Runs -/

section Runs

variable {s s' : System} {engine : Engine}

theorem safe_insertDeltaGroup (h : Safe s) {room : String} {stateGroup prevGroup : ℕ} {deltaIds : StateMap}
    (hid : s.state.tables.lastGroup < stateGroup) {t : Tables}
    (hins : insertDeltaGroupTxn s.state.tables engine stateGroup prevGroup deltaIds = .ok (some t)) :
    Safe (s.withGroups room
      ⟨t, Function.update s.state.created stateGroup (update (s.state.created prevGroup) deltaIds)⟩) := by
  unfold insertDeltaGroupTxn at hins
  split at hins
  · cases hins
  rename_i hprev
  split at hins
  · cases hins
  · cases hins
    exact safe_withGroups h room (inv_addDelta h.state hid (not_not.mp hprev) deltaIds) (stateGroups_insertGroup _ _ _ _)

theorem safe_storeStateDeltasForBatched (h : Safe s) {room : String} {stateGroups : List ℕ} {prevGroup : ℕ}
    {events : List (Option (StateKey × String))} (hids : (s.state.tables.lastGroup :: stateGroups).Pairwise (· < ·))
    {t : Tables} {contexts : List BatchContext}
    (hins : storeStateDeltasForBatched s.state.tables stateGroups prevGroup events = .ok (t, contexts)) :
    Safe (s.withGroups room ⟨t, contexts.foldl createdContext s.state.created⟩) := by
  unfold storeStateDeltasForBatched at hins
  split at hins
  · cases hins
  rename_i hprev
  cases hins
  exact safe_withGroups h room (inv_batch h.state events stateGroups (not_not.mp hprev) hids)
    (stateGroups_insertContext _ _)

theorem safe_purgeDeleter (h : Safe s) {deleter : ℕ} {d : Deleter} (hd : s.deleters[deleter]? = some d)
    (hunc : d.unchecked = ∅) (hstep : s.purgeDeleter engine d deleter order = some s') : Safe s' ∧ s.Keeps s' := by
  unfold purgeDeleter at hstep
  simp only at hstep
  split at hstep
  · cases hstep
    exact ⟨safe_eraseDeleter h deleter, fun _ _ hl => hl⟩
  obtain ⟨horder, hstep⟩ := ite_none_right_eq_some.mp hstep
  obtain ⟨t, ht, hinv, hgroups⟩ := inv_purge h.state engine horder
  rw [ht] at hstep
  cases hstep
  have hpurged := safe_purge h (List.mem_of_getElem? hd) hunc rfl hinv hgroups
  exact ⟨safe_eraseDeleter hpurged deleter, fun _ _ hl => hl⟩

theorem step_safe (h : Safe s) {txn : Txn} (hstep : s.step engine txn = some s') : Safe s' ∧ s.Keeps s' := by
  rcases txn with ms | ⟨room, stateGroup, prevGroup, deltaIds⟩ | ⟨room, stateGroup, ids⟩ |
    ⟨room, stateGroups, prevGroup, events⟩ | groups | groups | ⟨room, insertionTs⟩ | ⟨deleter, batch⟩ | deleter |
    ⟨deleter, order⟩ | ⟨room, instanceName, events⟩ | ⟨room, events⟩ | ⟨room, error, order⟩ <;>
    simp only [step, ite_none_right_eq_some, some.injEq] at hstep
  case tick =>
    cases hstep
    exact ⟨{ h with }, fun _ _ hl => hl⟩
  case insertDeltaGroup =>
    obtain ⟨hid, hstep⟩ := hstep
    split at hstep
    · cases hstep
      exact ⟨h, fun _ _ hl => hl⟩
    · cases hstep
      exact ⟨safe_bumpDeletion h [prevGroup], fun _ _ hl => hl⟩
    · cases hstep
      exact ⟨safe_bumpDeletion (safe_insertDeltaGroup h hid ‹_›) [prevGroup], fun _ _ hl => hl⟩
  case insertFullState =>
    obtain ⟨hid, rfl⟩ := hstep
    exact ⟨safe_withGroups h room (inv_addFull h.state hid ids) (stateGroups_insertGroup _ _ _ _), fun _ _ hl => hl⟩
  case storeStateDeltasForBatched =>
    obtain ⟨hids, hstep⟩ := hstep
    split at hstep
    · cases hstep
      exact ⟨h, fun _ _ hl => hl⟩
    · cases hstep
      exact ⟨safe_bumpDeletion (safe_storeStateDeltasForBatched h hids ‹_›) [prevGroup], fun _ _ hl => hl⟩
  case checkStateGroupsAndBumpDeletion =>
    cases hstep
    exact ⟨safe_bumpDeletion h _, fun _ _ hl => hl⟩
  case markStateGroupsAsPendingDeletion =>
    cases hstep
    exact ⟨h.withPending (rewrites_propose s.pending s.now groups), fun _ _ hl => hl⟩
  case fetch =>
    obtain ⟨-, rfl⟩ := hstep
    exact ⟨safe_fetch h room insertionTs, fun _ _ hl => hl⟩
  case checkReferenced =>
    split at hstep
    · cases hstep
    · obtain ⟨-, rfl⟩ := ite_some_none_eq_some.mp hstep
      exact ⟨safe_checkReferenced h ‹_› batch, fun _ _ hl => hl⟩
  case markStateGroupsAsUsed =>
    split at hstep
    · cases hstep
    · obtain ⟨-, rfl⟩ := ite_some_none_eq_some.mp hstep
      exact ⟨safe_markAsUsed h ‹_›, fun _ _ hl => hl⟩
  case purge =>
    split at hstep
    · cases hstep
    · obtain ⟨⟨hunc, -⟩, hstep⟩ := ite_none_right_eq_some.mp hstep
      exact safe_purgeDeleter h ‹_› hunc hstep
  case markAsPersisting =>
    obtain ⟨-, hstep⟩ := hstep
    split at hstep
    · cases hstep
      exact ⟨h, fun _ _ hl => hl⟩
    rename_i hgroups
    split at hstep
    · cases hstep
      exact ⟨h, fun _ _ hl => hl⟩
    rename_i hmark
    obtain ⟨⟨hsub, hnew⟩, rfl⟩ := ite_some_none_eq_some.mp hmark
    cases hstep
    exact ⟨safe_markAsPersisting h hgroups hsub hnew, fun _ _ hl => hl⟩
  case persistEvents =>
    split at hstep
    · cases hstep
    · obtain ⟨hsub, rfl⟩ := ite_some_none_eq_some.mp hstep
      exact safe_persistEvents h ‹_› hsub
  case finishPersisting =>
    split at hstep
    · cases hstep
    · obtain ⟨horder, rfl⟩ := ite_some_none_eq_some.mp hstep
      exact ⟨safe_finishPersisting h ‹_› error horder, fun _ _ hl => hl⟩

theorem run_safe (h : Safe s) {txns : List Txn} (hrun : s.run engine txns = some s') : Safe s' ∧ s.Keeps s' :=
  run_rule (fun _ _ _ hl => hl)
    (fun hkeep hkeep' eventId ref hl => hkeep' eventId ref (hkeep eventId ref hl))
    (fun hs hstep => step_safe hs hstep) h hrun

/-- **No group in use is deleted.**  Take any run, and any run after it.  A group that a persisted accepted event refers to
still exists later; whatever accepted events refer to in the end, exists; and a group that is a delta is one on a group
that exists. -/
theorem deletion_safe {txns txns' : List Txn} (hrun : empty.run engine txns = some s)
    (hrun' : s.run engine txns' = some s') :
    (∀ eventId ref, s.eventToStateGroups.lookup eventId = some ref → ref.accepted = true →
      ref.stateGroup ∈ s'.stateGroups) ∧
    (∀ eventId ref, s'.eventToStateGroups.lookup eventId = some ref → ref.accepted = true →
      ref.stateGroup ∈ s'.stateGroups) ∧
    ∀ group ∈ s'.stateGroups, ∀ prev, s'.state.tables.stateGroupEdges group = some prev → prev ∈ s'.stateGroups := by
  have hsafe := (run_safe safe_empty hrun).1
  obtain ⟨hsafe', hkeep⟩ := run_safe hsafe hrun'
  have hused : ∀ eventId ref, s'.eventToStateGroups.lookup eventId = some ref → ref.accepted = true →
      ref.stateGroup ∈ s'.stateGroups := fun eventId ref hl hacc => hsafe'.used _ ⟨eventId, ref, hl, hacc, rfl⟩
  refine ⟨fun eventId ref hl => hused eventId ref (hkeep eventId ref hl), hused, fun group hg prev hprev => ?_⟩
  exact (hsafe'.state.represents.delta group hg prev hprev).1

end Runs

/-! ## A race -/

namespace Race

def event : EventContext := ⟨"$event", [], false, false, false, some 2, none⟩

/-- Groups 2 and 3 are deltas on 1.  A deleter finds 1 and 2 unreferenced; then an event with group 2 is persisted. -/
def before : List Txn :=
  [.insertFullState "!room" 1 (Finmap.singleton ("m.room.create", "") "$create"),
    .insertDeltaGroup "!room" 2 1 (Finmap.singleton ("m.room.topic", "") "$topic1"),
    .insertDeltaGroup "!room" 3 1 (Finmap.singleton ("m.room.topic", "") "$topic2"),
    .markStateGroupsAsPendingDeletion [1, 2], .tick (delayBeforeDeletionMs + 1), .fetch "!room" 0,
    .checkReferenced 0 {1, 2}, .markAsPersisting "!room" "worker" [event],
    .persistEvents "!room" [event]]

/-- The batch ends, and the deleter goes on. -/
def after : List Txn := [.finishPersisting "!room" false [2], .purge 0 [2, 3]]

/-- Group 1 is deleted; group 2 is not. -/
theorem deletion_safe_race : ∃ s s', empty.run .postgres before = some s ∧ s.run .postgres after = some s' ∧
    1 ∈ s.stateGroups ∧ 1 ∉ s'.stateGroups ∧ s.eventToStateGroups.lookup "$event" = some ⟨2, true⟩ ∧
    2 ∈ s'.stateGroups := by
  have h : ((empty.run .postgres before).bind fun s => (s.run .postgres after).map fun s' =>
      decide (1 ∈ s.stateGroups ∧ 1 ∉ s'.stateGroups ∧ s.eventToStateGroups.lookup "$event" = some ⟨2, true⟩)) =
      some true := by decide +kernel
  obtain ⟨s, hs, h⟩ := bind_eq_some_iff.mp h
  obtain ⟨s', hs', h⟩ := map_eq_some_iff.mp h
  obtain ⟨hmem, hdel, href⟩ := of_decide_eq_true h
  exact ⟨s, s', hs, hs', hmem, hdel, href, (deletion_safe hs hs').1 "$event" _ href rfl⟩

def rejectedEvent : EventContext := ⟨"$event", [], false, true, false, some 2, some 2⟩

def otherEvent : EventContext := ⟨"$event", [], false, false, false, some 3, none⟩

/-- Group 3, which stands alone, is being persisted.  Group 1 is not selected, though it is only below group 2, which
is. -/
theorem selected_ne_passing : ((empty.run .postgres
    [.insertFullState "!room" 1 ∅, .insertDeltaGroup "!room" 2 1 ∅, .insertFullState "!room" 3 ∅,
      .markStateGroupsAsPendingDeletion [1, 2, 3], .tick (delayBeforeDeletionMs + 1), .fetch "!room" 0,
      .markAsPersisting "!room" "worker" [otherEvent]]).map fun s => s.deleters.map fun d =>
        (s.getStateGroupsReadyForPotentialDeletion d d.groups, s.passing d d.groups)) = some [({2}, {1, 2})] := by
  decide +kernel

end Race

end Synapse.State
