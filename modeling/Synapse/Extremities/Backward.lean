import Synapse.Extremities.Persist

/-!
# Synapse.Extremities.Backward — the backward extremities of a room

`_persist_events_txn` of `synapse/storage/databases/main/events.py`, as far as `event_backward_extremities` goes.  An
event id stands for one event, so the prev events of an event are those of its id.

* `updateBackwardExtremeties`, `updateOutliersTxn`, `storeEventTxn`, `persistEventsTxn`: what is written.
* `Accepted`, `Referenced`, `Root`: events that count, events they refer to, and events without prev events.
* `Kept`: how the table and these events agree, while some events are still to be looked at.
* **`backward_extremities_of_run`**: they agree but for events without prev events, and rejected ones.
* `Roots.root_removed_or_stays`: what can happen to an event without prev events.
-/

namespace Synapse.Extremities.Backward

open Lib List Finmap EventContext

structure Tables where
  events : Finmap fun _ : String => Row
  /-- `ex_outlier_stream` -/
  exOutlierStream : Finset String
  /-- `event_backward_extremities` -/
  backwardExtremities : Finset String

namespace Tables

def empty : Tables := ⟨∅, ∅, ∅⟩

variable (t : Tables)

/-- The event is persisted as a non-outlier. -/
def NonOutlier (id : String) : Prop := ∃ row, t.events.lookup id = some row ∧ row.outlier = false

def updateBackwardExtremeties (events : List EventContext) : Tables :=
  let potential := ((events.filter fun e => !e.outlier).flatMap EventContext.prevEventIds).toFinset
  if potential = ∅ then t
  else
    let potential := potential.filter fun id => ¬ (t.events.lookup id).any fun row => !row.outlier
    let removed := (events.filter fun e => !e.outlier || e.prevEventIds.isEmpty).map EventContext.eventId
    { t with backwardExtremities := (t.backwardExtremities ∪ potential) \ removed.toFinset }

/-- The update of the row of an ex-outlier. -/
def markExOutlier (id : String) (row : Row) : Tables :=
  { t with
    events := t.events.insert id { row with outlier := false }
    exOutlierStream := insert id t.exOutlierStream }

/-- The body of the loop of `_update_outliers_txn`; `havePersisted` is what was persisted before it. -/
def updateOutlier (havePersisted : Finmap fun _ : String => Row) (t : Tables) (e : EventContext) : Tables :=
  match havePersisted.lookup e.eventId with
  | none => t
  | some row =>
    if e.rejected then t
    else if !e.outlier && row.outlier then (t.markExOutlier e.eventId row).updateBackwardExtremeties [e]
    else t

def updateOutliersTxn (events : List EventContext) : Tables × List EventContext :=
  (events.foldl (updateOutlier t.events) t, events.filter fun e => (t.events.lookup e.eventId).isNone)

def storeEventTxn (events : List EventContext) : Tables :=
  { t with events := events.foldl (fun d e => d.insert e.eventId ⟨e.outlier, e.rejected, e.softFailed⟩) t.events }

/-- `_persist_events_txn(txn, events_and_contexts)`: rejected events only get their rows. -/
def persistEventsTxn (events : List EventContext) : Tables :=
  let (t, new) := t.updateOutliersTxn (EventContext.filterDuplicates events)
  let t := t.storeEventTxn new
  let accepted := new.filter fun e => !e.rejected
  if accepted = [] then t else t.updateBackwardExtremeties accepted

end Tables

/-- A copy of an event, with the prev events that its id stands for. -/
abbrev Copy (prevs : String → List String) := { e : EventContext // e.prevEventIds = prevs e.eventId }

def run {prevs : String → List String} (batches : List (List (Copy prevs))) : Tables :=
  batches.foldl (fun t batch => t.persistEventsTxn (batch.map Subtype.val)) .empty

/-! ## What the table should have -/

section Spec

variable (prevs : String → List String) (t : Tables)

/-- The event is persisted as a non-outlier, and was not rejected when it became one. -/
def Accepted (id : String) : Prop :=
  ∃ row, t.events.lookup id = some row ∧ row.outlier = false ∧ (row.rejected = false ∨ id ∈ t.exOutlierStream)

/-- An accepted event refers to the event. -/
def Referenced (id : String) : Prop := ∃ x, Accepted t x ∧ id ∈ prevs x

/-- The event is persisted, and has no prev events. -/
def Root (id : String) : Prop := id ∈ t.events ∧ prevs id = []

/-- How the table agrees with the events that accepted events refer to, where some events that have become non-outliers
are still to be looked at. -/
structure Kept (pending : Set String) : Prop where
  referenced : ∀ id ∈ t.backwardExtremities, Referenced prevs t id
  missing : ∀ id ∈ t.backwardExtremities, Accepted t id → prevs id = [] ∨ id ∈ pending
  stored : ∀ x, Accepted t x → x ∉ pending → ∀ id ∈ prevs x, ¬ t.NonOutlier id →
    id ∈ t.backwardExtremities ∨ Root prevs t id

end Spec

section Steps

variable {prevs : String → List String} {t t' : Tables} {pending : Set String} {id : String}

theorem Accepted.nonOutlier (h : Accepted t id) : t.NonOutlier id := by
  obtain ⟨row, hrow, hout, -⟩ := h
  exact ⟨row, hrow, hout⟩

variable {events : List EventContext}

theorem mem_potential : id ∈ ((events.filter fun e => !e.outlier).flatMap prevEventIds).toFinset ↔
      ∃ e ∈ events, e.outlier = false ∧ id ∈ e.prevEventIds := by
  simp [and_assoc]

theorem not_nonOutlier_iff : (¬ ((t.events.lookup id).any fun row => !row.outlier) = true) ↔ ¬ t.NonOutlier id := by
  simp [Tables.NonOutlier, Option.any_eq_true]

theorem mem_updateBackwardExtremeties (h : ∃ e ∈ events, e.outlier = false ∧ e.prevEventIds ≠ []) :
    id ∈ (t.updateBackwardExtremeties events).backwardExtremities ↔
      (id ∈ t.backwardExtremities ∨ (∃ e ∈ events, e.outlier = false ∧ id ∈ e.prevEventIds) ∧ ¬ t.NonOutlier id) ∧
        ¬ ∃ e ∈ events, e.eventId = id ∧ (e.outlier = false ∨ e.prevEventIds = []) := by
  obtain ⟨e, he, hout, hne⟩ := h
  obtain ⟨prev, hprev⟩ := exists_mem_of_ne_nil _ hne
  have hpotential := Finset.nonempty_iff_ne_empty.mp ⟨prev, mem_potential.mpr ⟨e, he, hout, hprev⟩⟩
  rw [Tables.updateBackwardExtremeties]
  rw [if_neg hpotential]
  rw [Finset.mem_sdiff, Finset.mem_union, Finset.mem_filter, mem_potential, not_nonOutlier_iff]
  simp [and_assoc, and_comm]

theorem updateBackwardExtremeties_of_none
    (h : ¬ ∃ e ∈ events, e.outlier = false ∧ e.prevEventIds ≠ []) : t.updateBackwardExtremeties events = t := by
  have hpotential : ((events.filter fun e => !e.outlier).flatMap prevEventIds).toFinset = ∅ := by
    refine Finset.eq_empty_of_forall_notMem fun id hid => h ?_
    obtain ⟨e, he, hout, hmem⟩ := mem_potential.mp hid
    exact ⟨e, he, hout, ne_nil_of_mem hmem⟩
  exact if_pos hpotential

theorem events_updateBackwardExtremeties (events : List EventContext) :
    (t.updateBackwardExtremeties events).events = t.events ∧
      (t.updateBackwardExtremeties events).exOutlierStream = t.exOutlierStream := by
  rw [Tables.updateBackwardExtremeties]
  split <;> exact ⟨rfl, rfl⟩

theorem Kept.updateBackwardExtremeties (h : Kept prevs t pending)
    (hprevs : ∀ e ∈ events, e.prevEventIds = prevs e.eventId)
    (hpending : ∀ id, id ∈ pending ↔ ∃ e ∈ events, e.eventId = id ∧ e.outlier = false)
    (haccepted : ∀ e ∈ events, e.outlier = false → Accepted t e.eventId)
    (hpersisted : ∀ e ∈ events, e.eventId ∈ t.events) : Kept prevs (t.updateBackwardExtremeties events) ∅ := by
  by_cases hsome : ∃ e ∈ events, e.outlier = false ∧ e.prevEventIds ≠ []
  · obtain ⟨hevents, hex⟩ := @events_updateBackwardExtremeties t events
    have hacc : ∀ id, Accepted (t.updateBackwardExtremeties events) id ↔ Accepted t id := by
      intro id
      rw [Accepted, Accepted, hevents, hex]
    have hnon : ∀ id, (t.updateBackwardExtremeties events).NonOutlier id ↔ t.NonOutlier id := by
      intro id
      rw [Tables.NonOutlier, Tables.NonOutlier, hevents]
    -- what is taken out is a non-outlier, or has no prev events
    have hremoved : ∀ id, ¬ t.NonOutlier id →
        (∃ e ∈ events, e.eventId = id ∧ (e.outlier = false ∨ e.prevEventIds = [])) → Root prevs t id := by
      rintro id hid ⟨e, he, rfl, hout | hnil⟩
      · exact absurd (haccepted e he hout).nonOutlier hid
      · exact ⟨hpersisted e he, (hprevs e he) ▸ hnil⟩
    refine ⟨fun id hid => ?_, fun id hid hid' => ?_, fun x hx _ id hid hnot => ?_⟩
    · rcases ((mem_updateBackwardExtremeties hsome).mp hid).1 with hold | ⟨⟨e, he, hout, hmem⟩, -⟩
      · obtain ⟨x, hx, hmem⟩ := h.referenced id hold
        exact ⟨x, (hacc x).mpr hx, hmem⟩
      · exact ⟨e.eventId, (hacc _).mpr (haccepted e he hout), (hprevs e he) ▸ hmem⟩
    · obtain ⟨hin, hkeep⟩ := (mem_updateBackwardExtremeties hsome).mp hid
      rw [hacc] at hid'
      rcases hin with hold | ⟨-, hnot⟩
      · refine .inl ((h.missing id hold hid').resolve_right fun hp => hkeep ?_)
        obtain ⟨e, he, heq, hout⟩ := (hpending id).mp hp
        exact ⟨e, he, heq, .inl hout⟩
      · exact absurd hid'.nonOutlier hnot
    · rw [hnon] at hnot
      rw [hacc] at hx
      have hroot : Root prevs t id → Root prevs (t.updateBackwardExtremeties events) id :=
        fun hroot => ⟨hevents ▸ hroot.1, hroot.2⟩
      have hin : (id ∈ t.backwardExtremities ∨
          (∃ e ∈ events, e.outlier = false ∧ id ∈ e.prevEventIds) ∧ ¬ t.NonOutlier id) ∨ Root prevs t id := by
        by_cases hp : x ∈ pending
        · obtain ⟨e, he, rfl, hout⟩ := (hpending x).mp hp
          exact .inl (.inr ⟨⟨e, he, hout, (hprevs e he).symm ▸ hid⟩, hnot⟩)
        · exact (h.stored x hx hp id hid hnot).imp_left .inl
      rcases hin with hin | hin
      · by_cases hgone : ∃ e ∈ events, e.eventId = id ∧ (e.outlier = false ∨ e.prevEventIds = [])
        · exact .inr (hroot (hremoved id hnot hgone))
        · exact .inl ((mem_updateBackwardExtremeties hsome).mpr ⟨hin, hgone⟩)
      · exact .inr (hroot hin)
  · rw [updateBackwardExtremeties_of_none hsome]
    have hnil : ∀ id ∈ pending, prevs id = [] := by
      intro id hid
      obtain ⟨e, he, rfl, hout⟩ := (hpending id).mp hid
      by_contra hne
      exact hsome ⟨e, he, hout, (hprevs e he).symm ▸ hne⟩
    refine ⟨h.referenced, fun id hid hacc => .inl ((h.missing id hid hacc).elim (fun h => h) (hnil id)),
      fun x hx _ id hid hnot => ?_⟩
    by_cases hp : x ∈ pending
    · rw [hnil x hp] at hid
      exact absurd hid not_mem_nil
    · exact h.stored x hx hp id hid hnot

/-- The rows change: some events become non-outliers. -/
structure Grows (t t' : Tables) (pending : Set String) : Prop where
  same : t'.backwardExtremities = t.backwardExtremities
  accepted : ∀ id, Accepted t' id ↔ Accepted t id ∨ id ∈ pending
  nonOutlier : ∀ id, t.NonOutlier id → t'.NonOutlier id
  persisted : ∀ id, id ∈ t.events → id ∈ t'.events

theorem Kept.grows (h : Kept prevs t ∅) (hg : Grows t t' pending) : Kept prevs t' pending := by
  refine ⟨fun id hid => ?_, fun id hid hacc => ?_, fun x hx hp id hid hnot => ?_⟩
  · obtain ⟨x, hx, hmem⟩ := h.referenced id (hg.same ▸ hid)
    exact ⟨x, (hg.accepted x).mpr (.inl hx), hmem⟩
  · rcases (hg.accepted id).mp hacc with hacc | hp
    · exact .inl ((h.missing id (hg.same ▸ hid) hacc).resolve_right (Set.notMem_empty id))
    · exact .inr hp
  have hold := ((hg.accepted x).mp hx).resolve_right hp
  rcases h.stored x hold (Set.notMem_empty x) id hid fun hn => hnot (hg.nonOutlier id hn) with hin | hroot
  · exact .inl (hg.same ▸ hin)
  · exact .inr ⟨hg.persisted id hroot.1, hroot.2⟩

theorem grows_markExOutlier (t : Tables) (id : String) (row : Row) : Grows t (t.markExOutlier id row) {id} where
  same := rfl
  accepted j := by
    by_cases hj : j = id
    · subst hj
      exact iff_of_true ⟨_, lookup_insert _, rfl, .inr (Finset.mem_insert_self _ _)⟩ (.inr rfl)
    · rw [Tables.markExOutlier]
      simp [hj, Accepted]
  nonOutlier j := by
    rintro ⟨r, hr, hout⟩
    by_cases hj : j = id
    · subst hj
      exact ⟨_, lookup_insert _, rfl⟩
    · exact ⟨r, (lookup_insert_of_ne _ hj).trans hr, hout⟩
  persisted j hj := mem_insert.mpr (.inr hj)

theorem lookup_storeEventTxn {new : List EventContext} (hnodup : (new.map eventId).Nodup) (t : Tables) :
    (∀ e ∈ new, (t.storeEventTxn new).events.lookup e.eventId = some ⟨e.outlier, e.rejected, e.softFailed⟩) ∧
      ∀ id ∉ new.map eventId, (t.storeEventTxn new).events.lookup id = t.events.lookup id := by
  induction new generalizing t with
  | nil => exact ⟨fun e he => absurd he not_mem_nil, fun id _ => rfl⟩
  | cons a new ih =>
    rw [map_cons, nodup_cons] at hnodup
    obtain ⟨hnew, hold⟩ := ih hnodup.2
      { t with events := t.events.insert a.eventId ⟨a.outlier, a.rejected, a.softFailed⟩ }
    refine ⟨forall_mem_cons.mpr ⟨?_, hnew⟩, fun id hid => ?_⟩
    · exact (hold a.eventId hnodup.1).trans (lookup_insert _)
    · rw [map_cons, mem_cons, not_or] at hid
      exact (hold id hid.2).trans (lookup_insert_of_ne _ hid.1)

theorem grows_storeEventTxn {new : List EventContext} (hnodup : (new.map eventId).Nodup)
    (hnew : ∀ e ∈ new, e.eventId ∉ t.events) (hex : ∀ id ∈ t.exOutlierStream, id ∈ t.events) :
    Grows t (t.storeEventTxn new)
      { id | ∃ e ∈ new.filter fun e => !e.rejected, e.eventId = id ∧ e.outlier = false } := by
  obtain ⟨hrow, hold⟩ := lookup_storeEventTxn hnodup t
  have hother : ∀ id ∈ t.events, (t.storeEventTxn new).events.lookup id = t.events.lookup id := by
    intro id hid
    refine hold id fun hmem => ?_
    obtain ⟨e, he, rfl⟩ := mem_map.mp hmem
    exact hnew e he hid
  have hmem : ∀ {id : String} {row : Row}, t.events.lookup id = some row → id ∈ t.events :=
    fun h => mem_iff.mpr ⟨_, h⟩
  refine ⟨rfl, fun id => ⟨?_, ?_⟩, ?_, fun id hid => ?_⟩
  · rintro ⟨row, hlookup, hout, hrej⟩
    by_cases hid : id ∈ new.map eventId
    · obtain ⟨e, he, rfl⟩ := mem_map.mp hid
      rw [hrow e he] at hlookup
      obtain rfl := Option.some.inj hlookup
      have hnot : e.rejected = false := hrej.resolve_right fun hex' => hnew e he (hex _ hex')
      exact .inr ⟨e, mem_filter.mpr ⟨he, by simp [hnot]⟩, rfl, hout⟩
    · rw [hold id hid] at hlookup
      exact .inl ⟨row, hlookup, hout, hrej⟩
  · rintro (⟨row, hlookup, hout, hrej⟩ | ⟨e, he, rfl, hout⟩)
    · exact ⟨row, (hother id (hmem hlookup)).trans hlookup, hout, hrej⟩
    · obtain ⟨he, hnot⟩ := mem_filter.mp he
      exact ⟨_, hrow e he, hout, .inl (by simpa using hnot)⟩
  · rintro id ⟨row, hlookup, hout⟩
    exact ⟨row, (hother id (hmem hlookup)).trans hlookup, hout⟩
  · obtain ⟨row, hlookup⟩ := mem_iff.mp hid
    exact mem_iff.mpr ⟨row, (hother id hid).trans hlookup⟩

/-! ## Transactions and runs -/

variable (prevs) in
/-- The invariant of the transactions, and of the loop in `_update_outliers_txn`. -/
structure Inv (t : Tables) : Prop where
  kept : Kept prevs t ∅
  exOutliers : ∀ id ∈ t.exOutlierStream, id ∈ t.events

theorem inv_empty : Inv prevs .empty where
  kept := by
    refine ⟨fun id hid => absurd hid (Finset.notMem_empty id), fun id hid => absurd hid (Finset.notMem_empty id), ?_⟩
    rintro x ⟨row, hrow, -⟩
    cases hrow
  exOutliers id hid := absurd hid (Finset.notMem_empty id)

theorem updateOutlier_inv (h : Inv prevs t) {havePersisted : Finmap fun _ : String => Row}
    (hkeys : ∀ id, id ∈ t.events ↔ id ∈ havePersisted) {e : EventContext} (hprevs : e.prevEventIds = prevs e.eventId) :
    Inv prevs (Tables.updateOutlier havePersisted t e) ∧
      ∀ id, id ∈ (Tables.updateOutlier havePersisted t e).events ↔ id ∈ havePersisted := by
  rw [Tables.updateOutlier]
  split
  · exact ⟨h, hkeys⟩
  · next row hrow =>
    split
    · exact ⟨h, hkeys⟩
    split
    · next hguard =>
      have hout : e.outlier = false := by simpa using (Bool.and_eq_true_iff.mp hguard).1
      have hgrows := grows_markExOutlier t e.eventId row
      have hpersisted : e.eventId ∈ (t.markExOutlier e.eventId row).events := mem_insert.mpr (.inl rfl)
      obtain ⟨hevents, hex⟩ := @events_updateBackwardExtremeties (t.markExOutlier e.eventId row) [e]
      refine ⟨⟨(h.kept.grows hgrows).updateBackwardExtremeties ?_ ?_ ?_ ?_, fun id hid => ?_⟩, fun id => ?_⟩
      · simpa using hprevs
      · intro id
        simp only [List.mem_singleton, exists_eq_left, hout, and_true]
        exact eq_comm
      · simpa using fun _ => (hgrows.accepted e.eventId).mpr (.inr rfl)
      · simpa using hpersisted
      · rw [hex] at hid
        rw [hevents]
        rcases Finset.mem_insert.mp hid with rfl | hid
        · exact hpersisted
        · exact hgrows.persisted id (h.exOutliers id hid)
      · rw [hevents, Tables.markExOutlier]
        rw [mem_insert, hkeys]
        refine ⟨fun hid => hid.elim ?_ fun hid => hid, .inr⟩
        rintro rfl
        exact mem_iff.mpr ⟨row, hrow⟩
    · exact ⟨h, hkeys⟩

theorem persistEventsTxn_inv (h : Inv prevs t)
    (hprevs : ∀ e ∈ events, e.prevEventIds = prevs e.eventId) : Inv prevs (t.persistEventsTxn events) := by
  have hprevs' : ∀ e ∈ filterDuplicates events, e.prevEventIds = prevs e.eventId :=
    fun e he => hprevs e (mem_of_mem_filterDuplicates he)
  have hnodup := nodup_filterDuplicates events
  rw [Tables.persistEventsTxn, Tables.updateOutliersTxn]
  dsimp only
  generalize filterDuplicates events = distinct at hprevs' hnodup ⊢
  -- the rows of known events
  obtain ⟨h₁, hkeys⟩ : Inv prevs (distinct.foldl (Tables.updateOutlier t.events) t) ∧
      ∀ id, id ∈ (distinct.foldl (Tables.updateOutlier t.events) t).events ↔ id ∈ t.events :=
    foldlRecOn distinct (Tables.updateOutlier t.events)
      (motive := fun t' => Inv prevs t' ∧ ∀ id, id ∈ t'.events ↔ id ∈ t.events) ⟨h, fun _ => Iff.rfl⟩
      fun t' ht' e he => updateOutlier_inv ht'.1 ht'.2 (hprevs' e he)
  generalize distinct.foldl (Tables.updateOutlier t.events) t = t₁ at h₁ hkeys ⊢
  set new := distinct.filter fun e => (t.events.lookup e.eventId).isNone with hnew
  have hnodup' : (new.map eventId).Nodup := hnodup.sublist (filter_sublist.map _)
  have hfresh : ∀ e ∈ new, e.eventId ∉ t₁.events := by
    intro e he hmem
    have hnone := (mem_filter.mp he).2
    obtain ⟨row, hrow⟩ := mem_iff.mp ((hkeys _).mp hmem)
    rw [hrow] at hnone
    cases hnone
  -- the rows of new events
  have hgrows := grows_storeEventTxn hnodup' hfresh h₁.exOutliers
  have hkept := h₁.kept.grows hgrows
  have hex : ∀ id ∈ (t₁.storeEventTxn new).exOutlierStream, id ∈ (t₁.storeEventTxn new).events :=
    fun id hid => hgrows.persisted id (h₁.exOutliers id hid)
  split
  · next hnone =>
    refine ⟨?_, hex⟩
    have hempty : { id | ∃ e ∈ new.filter fun e => !e.rejected, e.eventId = id ∧ e.outlier = false } = (∅ : Set String) := by
      rw [hnone]
      simp
    rwa [hempty] at hkept
  obtain ⟨hevents, hstream⟩ := @events_updateBackwardExtremeties (t₁.storeEventTxn new) (new.filter fun e => !e.rejected)
  have hin : ∀ e ∈ new.filter (fun e => !e.rejected), e ∈ new := fun e he => (mem_filter.mp he).1
  refine ⟨hkept.updateBackwardExtremeties (fun e he => ?_) (fun id => Iff.rfl) (fun e he hout => ?_) (fun e he => ?_), ?_⟩
  · exact hprevs' e (mem_filter.mp (hin e he)).1
  · exact (hgrows.accepted e.eventId).mpr (.inr ⟨e, he, rfl, hout⟩)
  · exact mem_iff.mpr ⟨_, (lookup_storeEventTxn hnodup' t₁).1 e (hin e he)⟩
  · rw [hevents, hstream]
    exact hex

theorem run_inv (batches : List (List (Copy prevs))) : Inv prevs (run batches) :=
  foldlRecOn batches _ inv_empty fun t ht batch _ =>
    persistEventsTxn_inv ht fun e he => by
      obtain ⟨copy, -, rfl⟩ := mem_map.mp he
      exact copy.2

end Steps

/-- **The backward extremities after any batches of events.**  They are the events that accepted events refer to and
that are not persisted as non-outliers, up to two kinds: an event without prev events may be there or not once it is
persisted, and one that is persisted as a non-outlier but rejected may be there. -/
theorem backward_extremities_of_run (prevs : String → List String) (batches : List (List (Copy prevs))) (id : String) :
    (id ∈ (run batches).backwardExtremities → Referenced prevs (run batches) id ∧
      ((run batches).NonOutlier id → prevs id = [] ∨ ¬ Accepted (run batches) id)) ∧
    (Referenced prevs (run batches) id → ¬ (run batches).NonOutlier id →
      id ∈ (run batches).backwardExtremities ∨ Root prevs (run batches) id) := by
  have h := (run_inv batches).kept
  refine ⟨fun hid => ⟨h.referenced id hid, fun _ => ?_⟩, ?_⟩
  · by_cases hacc : Accepted (run batches) id
    · exact .inl ((h.missing id hid hacc).resolve_right (Set.notMem_empty id))
    · exact .inr hacc
  · rintro ⟨x, hx, hid⟩ hnot
    exact h.stored x hx (Set.notMem_empty x) id hid hnot

namespace Roots

/-- `x` comes after the first event `c` of the room, and `y` after `z`. -/
def prevs : String → List String
  | "x" => ["c"]
  | "y" => ["z"]
  | _ => []

def copy (id : String) (outlier : Bool) : Copy prevs := ⟨⟨id, prevs id, outlier, false, false, none, none⟩, rfl⟩

/-- `x` comes, and then `c` as an outlier, with `y`. -/
def outlierRoot : Tables := run [[copy "x" false], [copy "c" true, copy "y" false]]

/-- `x` comes, and then `c` as a non-outlier. -/
def nonOutlierRoot : Tables := run [[copy "x" false], [copy "c" false]]

/-- `x` refers to `c`.  As an outlier without prev events, `c` is removed; as a non-outlier that comes alone, it stays. -/
theorem root_removed_or_stays :
    (outlierRoot.backwardExtremities = {"z"} ∧ Referenced prevs outlierRoot "c" ∧ ¬ outlierRoot.NonOutlier "c") ∧
    nonOutlierRoot.backwardExtremities = {"c"} ∧ nonOutlierRoot.NonOutlier "c" := by
  have hx : outlierRoot.events.lookup "x" = some ⟨false, false, false⟩ := by decide +kernel
  have hc' : nonOutlierRoot.events.lookup "c" = some ⟨false, false, false⟩ := by decide +kernel
  refine ⟨⟨by decide +kernel, ⟨"x", ⟨_, hx, rfl, .inl rfl⟩, by decide⟩, ?_⟩, by decide +kernel, ⟨_, hc', rfl⟩⟩
  rintro ⟨row, hrow, hout⟩
  cases hrow
  cases hout

end Roots

end Synapse.Extremities.Backward
