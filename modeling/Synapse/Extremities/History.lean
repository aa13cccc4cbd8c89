import Synapse.Extremities.Persist
import Synapse.Lib.Dict

/-!
# Synapse.Extremities.History — the extremities in terms of what has been persisted

* `Accepted`, `Prev`, `Impaired`, `SoftFailed`, `Leads`: an abstract account of a room, from the events that have come.
* `Stored`: the database agrees with the history, if an event is the same each time it comes (`Steady`).
* `mem_getEventsWhichArePrevs`, `leads_of_mem`, `mem_of_leads`: what the queries find.
* `persistChunk_inv`, `run_inv`: what every chunk and every run keeps.
* `extremities_of_history`: which events are forward extremities.
-/

namespace Synapse.Extremities

open Lib Relation List Finmap EventContext World

/-! ## Histories -/

section Histories

variable (arrivals : List EventContext)

/-- The event has come, and was no outlier, not rejected and not soft-failed. -/
def Accepted (id : String) : Prop := ∃ e ∈ arrivals, e.eventId = id ∧ isNewEvent e = true

/-- The first event has come, and the second is one of its prev events. -/
def Prev (id prev : String) : Prop := ∃ e ∈ arrivals, e.eventId = id ∧ prev ∈ e.prevEventIds

/-- The event has come, and was rejected or soft-failed. -/
def Impaired (id : String) : Prop :=
  ∃ e ∈ arrivals, e.eventId = id ∧ e.outlier = false ∧ (e.rejected = true ∨ e.softFailed = true)

/-- The event has come, and was soft-failed but not rejected. -/
def SoftFailed (id : String) : Prop := ∃ e ∈ arrivals, e.eventId = id ∧ e.accepted = true ∧ e.softFailed = true

/-- A path of prev events; all events on it but the last are such events. -/
def Leads (through : String → Prop) : String → String → Prop :=
  ReflTransGen fun id prev => through id ∧ Prev arrivals id prev

/-- An accepted event refers to the event, directly or through events that are rejected or soft-failed. -/
def Referenced (id : String) : Prop :=
  ∃ n p, Accepted arrivals n ∧ Prev arrivals n p ∧ Leads arrivals (Impaired arrivals) p id

end Histories

/-- An event is the same each time: its prev events, and whether it is rejected or soft-failed. -/
def Steady (events : Set EventContext) : Prop :=
  ∀ e ∈ events, ∀ e' ∈ events, e.eventId = e'.eventId →
    e.prevEventIds = e'.prevEventIds ∧ e.rejected = e'.rejected ∧ e.softFailed = e'.softFailed

variable {id : String}

section Monotone

variable {arrivals arrivals' : List EventContext} (hsub : arrivals ⊆ arrivals')
include hsub

theorem Accepted.mono (h : Accepted arrivals id) : Accepted arrivals' id := by
  obtain ⟨e, he, h⟩ := h
  exact ⟨e, hsub he, h⟩

theorem Prev.mono {prev : String} (h : Prev arrivals id prev) : Prev arrivals' id prev := by
  obtain ⟨e, he, h⟩ := h
  exact ⟨e, hsub he, h⟩

theorem Impaired.mono (h : Impaired arrivals id) : Impaired arrivals' id := by
  obtain ⟨e, he, h⟩ := h
  exact ⟨e, hsub he, h⟩

theorem leads_mono {id' : String} (h : Leads arrivals (Impaired arrivals) id id') :
    Leads arrivals' (Impaired arrivals') id id' :=
  ReflTransGen.mono (fun _ _ h => ⟨h.1.mono hsub, h.2.mono hsub⟩) _ _ h

theorem Referenced.mono (h : Referenced arrivals id) : Referenced arrivals' id := by
  obtain ⟨n, p, hn, hp, hl⟩ := h
  exact ⟨n, p, hn.mono hsub, hp.mono hsub, leads_mono hsub hl⟩

end Monotone

/-! ## The tables -/

structure Stored (arrivals : List EventContext) (db : Db) : Prop where
  row : ∀ id row, db.events.lookup id = some row →
    ∃ e ∈ arrivals, e.eventId = id ∧ row = ⟨e.outlier, e.rejected, e.softFailed⟩
  known : ∀ e ∈ arrivals, ∃ row, db.events.lookup e.eventId = some row ∧ (e.accepted = true → row.outlier = false)
  edge : ∀ edge ∈ db.eventEdges, Prev arrivals edge.1 edge.2
  edges : ∀ e ∈ arrivals, e.rejected = false → ∀ prev ∈ e.prevEventIds, (e.eventId, prev) ∈ db.eventEdges

section Tables

variable {events : Set EventContext} (hsteady : Steady events) {arrivals : List EventContext} {db : Db} {e : EventContext}

theorem stored_empty : Stored [] empty.db where
  row _ _ h := absurd h (by simp [empty])
  known _ h := absurd h not_mem_nil
  edge _ h := absurd h (Finset.notMem_empty _)
  edges _ h := absurd h not_mem_nil

theorem Stored.insert (h : Stored arrivals db) {edges : Finset (String × String)}
    (hknown : ∀ a ∈ arrivals, a.eventId = e.eventId → e.outlier = false)
    (hedge : ∀ edge ∈ edges, Prev (arrivals ++ [e]) edge.1 edge.2)
    (hedges : ∀ a ∈ arrivals ++ [e], a.rejected = false → ∀ prev ∈ a.prevEventIds, (a.eventId, prev) ∈ edges) :
    Stored (arrivals ++ [e]) { db with
      events := db.events.insert e.eventId ⟨e.outlier, e.rejected, e.softFailed⟩, eventEdges := edges } := by
  refine ⟨insert_all (fun id row hrow => ?_) ⟨e, mem_concat_self, rfl, rfl⟩,
    fun a ha => ?_, hedge, hedges⟩
  · obtain ⟨a, ha, hrow⟩ := h.row id row hrow
    exact ⟨a, mem_append_left _ ha, hrow⟩
  · by_cases hid : a.eventId = e.eventId
    · rw [hid]
      refine ⟨_, lookup_insert _, fun hacc => ?_⟩
      rcases mem_snoc.mp ha with ha | rfl
      · exact hknown a ha hid
      · simp only [accepted, Bool.and_eq_true, Bool.not_eq_true'] at hacc
        exact hacc.2
    rw [lookup_insert_of_ne _ hid]
    rcases mem_snoc.mp ha with ha | rfl
    · exact h.known a ha
    · exact absurd rfl hid

include hsteady

theorem Stored.widen (h : Stored arrivals db) {arrivals' : List EventContext} (hsub : arrivals ⊆ arrivals')
    (hmem : ∀ a ∈ arrivals', a ∈ events)
    (hcover : ∀ a ∈ arrivals', ∃ a' ∈ arrivals, a'.eventId = a.eventId ∧
      (a.rejected = false → a.outlier = false → a'.outlier = false)) :
    Stored arrivals' db := by
  refine ⟨fun id row hrow => ?_, fun a ha => ?_, fun edge hedge => (h.edge edge hedge).mono hsub,
    fun a ha hrej prev hprev => ?_⟩
  · obtain ⟨b, hb, hrow⟩ := h.row id row hrow
    exact ⟨b, hsub hb, hrow⟩
  · obtain ⟨a', ha', hid, hout⟩ := hcover a ha
    obtain ⟨row, hrow, hrowout⟩ := h.known a' ha'
    refine ⟨row, hid ▸ hrow, fun hacc => hrowout ?_⟩
    have hrej := (hsteady a' (hmem a' (hsub ha')) a (hmem a ha) hid).2.1
    simp only [accepted, Bool.and_eq_true, Bool.not_eq_true'] at hacc ⊢
    exact ⟨hrej.trans hacc.1, hout hacc.1 hacc.2⟩
  · obtain ⟨a', ha', hid, -⟩ := hcover a ha
    obtain ⟨hprevs, hrej', -⟩ := hsteady a' (hmem a' (hsub ha')) a (hmem a ha) hid
    rw [← hid]
    exact h.edges a' ha' (hrej'.trans hrej) prev (hprevs ▸ hprev)

theorem stored_storeEvent (h : Stored arrivals db) (hsub : ∀ a ∈ arrivals ++ [e], a ∈ events) :
    Stored (arrivals ++ [e]) (db.storeEvent e) := by
  have hmem : e ∈ arrivals ++ [e] := mem_concat_self
  have happ : arrivals ⊆ arrivals ++ [e] := subset_append_left _ _
  unfold Db.storeEvent
  split
  · rename_i hnone
    refine h.insert (fun a ha hid => ?_) (fun edge hedge => ?_) fun a ha hrej prev hprev => ?_
    · obtain ⟨row, hrow, -⟩ := h.known a ha
      rw [hid, hnone] at hrow
      cases hrow
    · split at hedge
      · exact (h.edge edge hedge).mono happ
      rcases Finset.mem_union.mp hedge with hedge | hedge
      · exact (h.edge edge hedge).mono happ
      · obtain ⟨prev, hprev, rfl⟩ := mem_map.mp (mem_toFinset.mp hedge)
        exact ⟨e, hmem, rfl, hprev⟩
    · rcases mem_snoc.mp ha with ha | rfl
      · have hold := h.edges a ha hrej prev hprev
        split
        · exact hold
        · exact Finset.mem_union_left _ hold
      · rw [if_neg (by simp [hrej])]
        exact Finset.mem_union_right _ (mem_toFinset.mpr (mem_map_of_mem hprev))
  rename_i old hold
  obtain ⟨a, ha, hid, rfl⟩ := h.row e.eventId old hold
  -- the event is the one that has come before
  obtain ⟨hprevs, hrej, hsoft⟩ := hsteady a (hsub a (happ ha)) e (hsub e hmem) hid
  split
  · rename_i hguard
    simp only [Bool.and_eq_true, Bool.not_eq_true'] at hguard
    rw [← hguard.1.2, hrej, hsoft]
    refine h.insert (fun _ _ _ => hguard.1.2) (fun edge hedge => (h.edge edge hedge).mono happ) fun b hb hb' prev hprev => ?_
    rcases mem_snoc.mp hb with hb | rfl
    · exact h.edges b hb hb' prev hprev
    · rw [← hid]
      exact h.edges a ha (hrej.trans hb') prev (hprevs ▸ hprev)
  · rename_i hguard
    refine h.widen hsteady happ hsub fun b hb => ?_
    rcases mem_snoc.mp hb with hb | rfl
    · exact ⟨b, hb, rfl, fun _ => id⟩
    · exact ⟨a, ha, hid, fun hrej' hout => by simpa [hrej', hout] using hguard⟩

theorem stored_persist (h : Stored arrivals db) {chunk : List EventContext}
    (hsub : ∀ a ∈ arrivals ++ chunk, a ∈ events) :
    Stored (arrivals ++ chunk) ((filterDuplicates chunk).foldl Db.storeEvent db) := by
  have hfold : ∀ l, (∀ a ∈ arrivals ++ l, a ∈ events) → Stored (arrivals ++ l) (l.foldl Db.storeEvent db) := by
    intro l
    induction l using reverseRecOn with
    | nil => simpa using fun _ => h
    | append_singleton l e ih =>
      intro hl
      rw [← append_assoc] at hl ⊢
      rw [foldl_append]
      exact stored_storeEvent hsteady (ih fun a ha => hl a (mem_append_left _ ha)) hl
  have hkept : arrivals ++ filterDuplicates chunk ⊆ arrivals ++ chunk :=
    append_subset.mpr ⟨subset_append_left _ _, fun a ha => mem_append_right _ (mem_of_mem_filterDuplicates ha)⟩
  refine (hfold _ fun a ha => hsub a (hkept ha)).widen hsteady hkept hsub fun a ha => ?_
  rcases mem_append.mp ha with ha | ha
  · exact ⟨a, mem_append_left _ ha, rfl, fun _ => id⟩
  · obtain ⟨a', ha', hcov⟩ := covers_filterDuplicates ha
    exact ⟨a', mem_append_right _ ha', hcov.1, fun _ => hcov.2⟩

end Tables

/-! ## The queries -/

section Queries

variable {events : Set EventContext} (hsteady : Steady events) {arrivals : List EventContext} {db : Db}
  (h : Stored arrivals db) (hsub : ∀ a ∈ arrivals, a ∈ events)
include hsteady h hsub

/-- The row of an event that has come is what it was each time; it is an outlier only if it never came as accepted. -/
theorem row_of_mem {e : EventContext} (he : e ∈ arrivals) : ∃ row, db.events.lookup e.eventId = some row ∧
    row.rejected = e.rejected ∧ row.softFailed = e.softFailed ∧ (e.accepted = true → row.outlier = false) := by
  obtain ⟨row, hrow, hout⟩ := h.known e he
  obtain ⟨a, ha, hid, rfl⟩ := h.row _ _ hrow
  obtain ⟨-, hrej, hsoft⟩ := hsteady a (hsub a ha) e (hsub e he) hid
  exact ⟨_, hrow, hrej, hsoft, hout⟩

variable {a : String}

theorem mem_getEventsWhichArePrevs {ids : Finset String} :
    a ∈ db.getEventsWhichArePrevs ids ↔ a ∈ ids ∧ ∃ n, Accepted arrivals n ∧ Prev arrivals n a := by
  rw [Db.getEventsWhichArePrevs, Finset.mem_filter]
  refine and_congr_right fun _ => ⟨?_, ?_⟩
  · rintro ⟨⟨n, a'⟩, hedge, rfl, hrow⟩
    refine ⟨n, ?_, h.edge _ hedge⟩
    rcases hlook : db.events.lookup n with _ | row
    · simp [hlook] at hrow
    · obtain ⟨e, he, hid, rfl⟩ := h.row n row hlook
      rw [hlook] at hrow
      exact ⟨e, he, hid, hrow⟩
  · rintro ⟨n, ⟨e, he, rfl, hnew⟩, e', he', hid, hprev⟩
    simp only [isNewEvent, Bool.and_eq_true, Bool.not_eq_true'] at hnew
    obtain ⟨row, hrow, hrej, hsoft, hout⟩ := row_of_mem hsteady h hsub he
    refine ⟨(e.eventId, a), ?_, rfl, ?_⟩
    · rw [← hid]
      have hrej' := (hsteady e' (hsub e' he') e (hsub e he) hid).2.1
      exact h.edges e' he' (hrej'.trans hnew.1.2) a hprev
    · simp only [hrow, Option.any_some]
      rw [hout (by simp [accepted, hnew]), hrej, hsoft, hnew.1.2, hnew.2]
      rfl

omit hsteady hsub in
/-- The loop follows only events that are rejected or soft-failed. -/
theorem impaired_of_mem {prev : String} (hp : prev ∈ db.prevsIfRejected id) :
    Impaired arrivals id ∧ Prev arrivals id prev := by
  unfold Db.prevsIfRejected at hp
  split at hp
  · rename_i hrow
    obtain ⟨⟨id', prev'⟩, hmem, rfl⟩ := Finset.mem_image.mp hp
    obtain ⟨hedge, rfl⟩ := Finset.mem_filter.mp hmem
    refine ⟨?_, h.edge _ hedge⟩
    rcases hlook : db.events.lookup id' with _ | row
    · simp [hlook] at hrow
    · obtain ⟨e, he, hid, rfl⟩ := h.row _ _ hlook
      simp only [hlook, Option.any_some, Bool.and_eq_true, Bool.not_eq_true', Bool.or_eq_true] at hrow
      exact ⟨e, he, hid, hrow.1, hrow.2.symm⟩
  · exact absurd hp (Finset.notMem_empty _)

theorem mem_of_softFailed {prev : String} (hid : SoftFailed arrivals id) (hp : Prev arrivals id prev) :
    prev ∈ db.prevsIfRejected id := by
  obtain ⟨e, he, rfl, hacc, hsf⟩ := hid
  obtain ⟨e', he', hid, hprev⟩ := hp
  obtain ⟨row, hrow, hrej, hsoft, hout⟩ := row_of_mem hsteady h hsub he
  unfold Db.prevsIfRejected
  rw [if_pos (by simp [hrow, hout hacc, hsoft, hsf])]
  refine Finset.mem_image.mpr ⟨(e.eventId, prev), Finset.mem_filter.mpr ⟨?_, rfl⟩, rfl⟩
  simp only [accepted, Bool.and_eq_true, Bool.not_eq_true'] at hacc
  rw [← hid]
  have hrej' := (hsteady e' (hsub e' he') e (hsub e he) hid).2.1
  exact h.edges e' he' (hrej'.trans hacc.1) prev hprev

variable {ids : List String}

omit hsteady h hsub in
theorem mem_getPrevsBeforeRejected :
    a ∈ db.getPrevsBeforeRejected ids ↔ ∃ p ∈ ids, TransGen (Step db.prevsIfRejected) p a := by
  have hbound : ∀ id, db.prevsIfRejected id ⊆ db.eventEdges.image Prod.snd := by
    intro id
    unfold Db.prevsIfRejected
    split
    · exact Finset.image_subset_image (Finset.filter_subset _ _)
    · exact Finset.empty_subset _
  rw [Db.getPrevsBeforeRejected, mem_foldl_frontier hbound (Nat.lt_succ_of_le Finset.card_image_le) _
    fun _ h => absurd h (Finset.notMem_empty _)]
  constructor
  · rintro (h | ⟨batch, hb, p, hp, hpa⟩)
    · exact absurd h (Finset.notMem_empty _)
    · exact ⟨p, (exists_mem_batchIter (by decide)).mp ⟨batch, hb, hp⟩, hpa⟩
  · rintro ⟨p, hp, hpa⟩
    obtain ⟨batch, hb, hp⟩ := (exists_mem_batchIter (by decide : 0 < 100)).mpr hp
    exact .inr ⟨batch, hb, p, hp, hpa⟩

omit hsteady hsub in
theorem leads_of_mem (ha : a ∈ db.getPrevsBeforeRejected ids) : ∃ p ∈ ids, Leads arrivals (Impaired arrivals) p a := by
  obtain ⟨p, hp, hpa⟩ := mem_getPrevsBeforeRejected.mp ha
  exact ⟨p, hp, ReflTransGen.mono (fun _ _ hstep => impaired_of_mem h hstep) _ _ hpa.to_reflTransGen⟩

theorem mem_of_leads {p : String} (hp : p ∈ ids)
    (hpa : Leads arrivals (SoftFailed arrivals) p a) : p = a ∨ a ∈ db.getPrevsBeforeRejected ids := by
  rcases reflTransGen_iff_eq_or_transGen.mp hpa with rfl | hpa
  · exact .inl rfl
  · refine .inr (mem_getPrevsBeforeRejected.mpr ⟨p, hp, ?_⟩)
    exact TransGen.mono (fun _ _ hstep => mem_of_softFailed hsteady h hsub hstep.1 hstep.2) _ _ hpa

theorem mem_calculateNewExtremities {chunk : List EventContext} {latest : Finset String} :
    a ∈ db.calculateNewExtremities chunk latest ↔
      (a ∈ latest ∨ ∃ e ∈ chunk, isNewEvent e = true ∧ e.eventId = a) ∧
      (∀ e ∈ chunk, isNewEvent e = true → a ∉ e.prevEventIds) ∧ (∀ n, Accepted arrivals n → ¬ Prev arrivals n a) ∧
      a ∉ db.getPrevsBeforeRejected ((chunk.filter isNewEvent).flatMap prevEventIds) := by
  unfold Db.calculateNewExtremities
  simp only [Finset.mem_sdiff, mem_getEventsWhichArePrevs hsteady h hsub, Finset.mem_union, mem_toFinset,
    mem_map, mem_filter, mem_flatMap, not_and, not_exists]
  constructor
  · rintro ⟨⟨⟨hin, hprev⟩, hdb⟩, hrej⟩
    refine ⟨hin.imp id ?_, fun e he hnew hmem => hprev e ⟨he, hnew⟩ hmem, fun n hn => ?_, hrej⟩
    · rintro ⟨e, ⟨he, hnew⟩, hid⟩
      exact ⟨e, he, hnew, hid⟩
    · exact hdb ⟨hin, hprev⟩ n hn
  · rintro ⟨hin, hprev, hdb, hrej⟩
    refine ⟨⟨⟨hin.imp id ?_, fun e he hmem => hprev e he.1 he.2 hmem⟩, fun _ n hn => hdb n hn⟩, hrej⟩
    rintro ⟨e, he, hnew, hid⟩
    exact ⟨e, ⟨he, hnew⟩, hid⟩

end Queries

/-! ## Runs -/

/-- What holds after every chunk, if none is backfilled. -/
structure Inv (events : Set EventContext) (w : World) : Prop where
  sub : ∀ e ∈ w.log.flatten, e ∈ events
  stored : Stored w.log.flatten w.db
  accepted : ∀ a ∈ w.db.forwardExtremities, Accepted w.log.flatten a
  unreferenced : ∀ a, Accepted w.log.flatten a → ¬ Referenced w.log.flatten a →
    a ∈ w.db.forwardExtremities ∨ a ∈ w.pruned
  direct : ∀ a ∈ w.db.forwardExtremities, ∀ n, Accepted w.log.flatten n → ¬ Prev w.log.flatten n a
  through : ∀ a ∈ w.db.forwardExtremities, ∀ earlier chunk later, w.log = earlier ++ chunk :: later →
    (∀ e ∈ later.flatten, e.eventId ≠ a) → ∀ n ∈ chunk, isNewEvent n = true → ∀ p ∈ n.prevEventIds,
      ¬ Leads earlier.flatten (SoftFailed earlier.flatten) p a

section Runs

variable {events : Set EventContext} {w w' : World} {c : Chunk}

theorem inv_empty : Inv events .empty where
  sub _ h := absurd h not_mem_nil
  stored := stored_empty
  accepted _ h := absurd h (Finset.notMem_empty _)
  unreferenced := by
    rintro a ⟨e, he, -⟩
    exact absurd he not_mem_nil
  direct _ h := absurd h (Finset.notMem_empty _)
  through _ h := absurd h (Finset.notMem_empty _)

theorem forwardExtremities_foldl (db : Db) (l : List EventContext) :
    (l.foldl Db.storeEvent db).forwardExtremities = db.forwardExtremities := by
  induction l generalizing db with
  | nil => rfl
  | cons e l ih =>
    rw [foldl_cons, ih]
    unfold Db.storeEvent
    split
    · rfl
    · split <;> rfl

theorem persistChunk_ok (hback : c.backfilled = false) (h : w.persistChunk c = .ok w') :
    ∃ dropped, w'.log = w.log ++ [c.events] ∧ w'.pruned = w.pruned ∪ dropped ∧
      w'.db.events = ((filterDuplicates c.events).foldl Db.storeEvent w.db).events ∧
      w'.db.eventEdges = ((filterDuplicates c.events).foldl Db.storeEvent w.db).eventEdges ∧
      w'.db.forwardExtremities = w.db.calculateNewExtremities c.events w.db.forwardExtremities \ dropped := by
  unfold persistChunk at h
  rw [hback] at h
  obtain ⟨new, hnew, h⟩ := exc_bind_ok h
  cases h
  refine ⟨w.dropped c new, rfl, rfl, ?_⟩
  simp only [Db.calculateNewForwardExtremities] at hnew
  split_ifs at hnew with hsame hempty hne
  · cases hnew
    refine ⟨rfl, rfl, ?_⟩
    show (List.foldl Db.storeEvent w.db _).forwardExtremities = _ \ ∅
    rw [forwardExtremities_foldl, hsame, Finset.sdiff_empty]
  cases hnew
  unfold Db.persistEventsTxn dropped
  simp only [if_neg hne]
  refine ⟨trivial, trivial, ?_⟩
  rw [Finset.sdiff_sdiff_eq_self Finset.sdiff_subset]

section

variable (hsteady : Steady events) (h : Inv events w)
include hsteady h

theorem unreferenced_chunk {a : String}
    (ha : Accepted (w.log.flatten ++ c.events) a) (hnot : ¬ Referenced (w.log.flatten ++ c.events) a) :
    a ∈ w.db.calculateNewExtremities c.events w.db.forwardExtremities ∨ a ∈ w.pruned := by
  have hleft : w.log.flatten ⊆ w.log.flatten ++ c.events := subset_append_left _ _
  have hin : (a ∈ w.db.forwardExtremities ∨ ∃ e ∈ c.events, isNewEvent e = true ∧ e.eventId = a) ∨ a ∈ w.pruned := by
    obtain ⟨e, he, hid, hnew⟩ := ha
    rcases mem_append.mp he with he | he
    · have hold := h.unreferenced a ⟨e, he, hid, hnew⟩ fun href => hnot (href.mono hleft)
      exact hold.imp .inl id
    · exact .inl (.inr ⟨e, he, hnew, hid⟩)
  refine hin.imp (fun hin => ?_) id
  -- a new event that refers to the event, with a path from it, would make it referenced
  have hnew : ∀ e ∈ c.events, isNewEvent e = true → ∀ p ∈ e.prevEventIds,
      ¬ Leads w.log.flatten (Impaired w.log.flatten) p a := by
    intro e he hnew p hp hl
    have hmem : e ∈ w.log.flatten ++ c.events := mem_append_right _ he
    exact hnot ⟨e.eventId, p, ⟨e, hmem, rfl, hnew⟩, ⟨e, hmem, rfl, hp⟩, leads_mono hleft hl⟩
  refine (mem_calculateNewExtremities hsteady h.stored h.sub).mpr ⟨hin, fun e he hne hp => ?_, fun n hn hp => ?_, fun hp => ?_⟩
  · exact hnew e he hne a hp .refl
  · exact hnot ⟨n, a, hn.mono hleft, hp.mono hleft, .refl⟩
  obtain ⟨p, hp, hl⟩ := leads_of_mem h.stored hp
  obtain ⟨e, he, hp⟩ := mem_flatMap.mp hp
  obtain ⟨he, hne⟩ := mem_filter.mp he
  exact hnew e he hne p hp hl

theorem persistChunk_inv (hback : c.backfilled = false)
    (hsub : ∀ e ∈ c.events, e ∈ events) (hstep : w.persistChunk c = .ok w') : Inv events w' := by
  obtain ⟨dropped, hlog, hpruned, hevents, hedges, hext⟩ := persistChunk_ok hback hstep
  have hflat : w'.log.flatten = w.log.flatten ++ c.events := by rw [hlog, flatten_concat]
  have hsub' : ∀ e ∈ w.log.flatten ++ c.events, e ∈ events := by
    intro e he
    exact (mem_append.mp he).elim (h.sub e) (hsub e)
  have hmem : ∀ a ∈ w'.db.forwardExtremities, a ∈ w.db.calculateNewExtremities c.events w.db.forwardExtremities := by
    intro a ha
    rw [hext] at ha
    exact (Finset.mem_sdiff.mp ha).1
  have hcalc := fun a ha => (mem_calculateNewExtremities hsteady h.stored h.sub).mp (hmem a ha)
  refine ⟨hflat ▸ hsub', ?_, fun a ha => ?_, fun a hacc hnot => ?_, fun a ha n hn => ?_, ?_⟩
  · have hst := stored_persist hsteady h.stored hsub'
    rw [hflat]
    exact ⟨hevents ▸ hst.row, hevents ▸ hst.known, hedges ▸ hst.edge, hedges ▸ hst.edges⟩
  · rw [hflat]
    rcases (hcalc a ha).1 with hold | ⟨e, he, hnew, hid⟩
    · exact (h.accepted a hold).mono (subset_append_left _ _)
    · exact ⟨e, mem_append_right _ he, hid, hnew⟩
  · rw [hflat] at hacc hnot
    rw [hext, hpruned, Finset.mem_sdiff, Finset.mem_union]
    by_cases hd : a ∈ dropped
    · exact .inr (.inr hd)
    · exact (unreferenced_chunk hsteady h hacc hnot).imp (fun ha => ⟨ha, hd⟩) .inl
  · rw [hflat] at hn ⊢
    rintro ⟨e', he', hid', hp⟩
    obtain ⟨e, he, hid, hnew⟩ := hn
    obtain ⟨-, hprev, hdb, -⟩ := hcalc a ha
    -- it refers to the event each time that it comes
    have hp : a ∈ e.prevEventIds := (hsteady e (hsub' e he) e' (hsub' e' he') (hid.trans hid'.symm)).1 ▸ hp
    rcases mem_append.mp he with he | he
    · exact hdb n ⟨e, he, hid, hnew⟩ ⟨e, he, hid, hp⟩
    · exact hprev e he hnew hp
  · intro a ha earlier chunk later hsplit hlater n hn hnew p hp hl
    obtain ⟨hin, hprev, -, hrej⟩ := hcalc a ha
    rw [hlog] at hsplit
    rcases eq_nil_or_concat later with rfl | ⟨later, last, rfl⟩
    · -- the event came with this chunk
      obtain ⟨rfl, hchunk⟩ := append_inj' hsplit rfl
      obtain rfl := singleton_inj.mp hchunk
      have hmem := mem_flatMap.mpr ⟨n, mem_filter.mpr ⟨hn, hnew⟩, hp⟩
      rcases mem_of_leads hsteady h.stored h.sub hmem hl with rfl | hmem
      · exact hprev n hn hnew hp
      · exact hrej hmem
    · -- the chunk does not bring the event back
      rw [concat_eq_append, ← cons_append, ← List.append_assoc] at hsplit
      obtain ⟨hold, hlast⟩ := append_inj' hsplit rfl
      obtain rfl := singleton_inj.mp hlast
      rw [concat_eq_append, flatten_concat] at hlater
      refine h.through a (hin.resolve_right ?_) earlier chunk later hold
        (fun e he => hlater e (mem_append_left _ he)) n hn hnew p hp hl
      rintro ⟨e, he, -, hid⟩
      exact hlater e (mem_append_right _ he) hid

theorem persistChunks_inv {chunks : List Chunk}
    (hchunks : ∀ c ∈ chunks, c.backfilled = false ∧ ∀ e ∈ c.events, e ∈ events) :
    Inv events (w.persistChunks chunks) := by
  induction chunks generalizing w with
  | nil => exact h
  | cons c chunks ih =>
    unfold persistChunks
    obtain ⟨hback, hsub⟩ := hchunks c mem_cons_self
    split
    · rename_i w' hstep
      exact ih (persistChunk_inv hsteady h hback hsub hstep) fun c' hc' => hchunks c' (mem_cons_of_mem _ hc')
    · exact h

end

theorem mem_of_mem_chunks {b : Batch} (hc : c ∈ b.chunks) : c.backfilled = b.backfilled ∧ ∀ e ∈ c.events, e ∈ b.events := by
  obtain ⟨⟨chunk, i⟩, hmem, rfl⟩ := mem_map.mp hc
  refine ⟨rfl, fun e he => ?_⟩
  have hbatch : chunk ∈ batchIter 100 (b.events.filter fun e => e.eventId ∉ b.replacedEvents) :=
    (mem_zipIdx' hmem).2 ▸ getElem_mem _
  exact (mem_filter.mp ((exists_mem_batchIter (by decide)).mp ⟨chunk, hbatch, he⟩)).1

theorem run_inv (hsteady : Steady events) (h : Inv events w) {batches : List Batch}
    (hbatches : ∀ b ∈ batches, b.backfilled = false ∧ ∀ e ∈ b.events, e ∈ events) : Inv events (w.run batches) := by
  induction batches generalizing w with
  | nil => exact h
  | cons b batches ih =>
    obtain ⟨hback, hsub⟩ := hbatches b mem_cons_self
    refine ih (persistChunks_inv hsteady h fun c hc => ?_) fun b' hb' => hbatches b' (mem_cons_of_mem _ hb')
    obtain ⟨hback', hsub'⟩ := mem_of_mem_chunks hc
    exact ⟨hback'.trans hback, fun e he => hsub e (hsub' e he)⟩

/-- **Which events are forward extremities**, after any run of batches that are not backfilled, of events that are the
same whenever they come again: accepted events only; all of them that no accepted event refers to, directly or through
rejected and soft-failed events, but for those that have been pruned; and none that an accepted event refers to directly,
or through soft-failed events that had come before the chunk of that event, if the extremity has not come again. -/
theorem extremities_of_history {batches : List Batch} (hback : ∀ b ∈ batches, b.backfilled = false)
    (hsteady : Steady {e | ∃ b ∈ batches, e ∈ b.events}) :
    let w := empty.run batches
    (∀ a ∈ w.db.forwardExtremities, Accepted w.log.flatten a) ∧
    (∀ a, Accepted w.log.flatten a → ¬ Referenced w.log.flatten a → a ∈ w.db.forwardExtremities ∨ a ∈ w.pruned) ∧
    (∀ a ∈ w.db.forwardExtremities, ∀ n, Accepted w.log.flatten n → ¬ Prev w.log.flatten n a) ∧
    ∀ a ∈ w.db.forwardExtremities, ∀ earlier chunk later, w.log = earlier ++ chunk :: later →
      (∀ e ∈ later.flatten, e.eventId ≠ a) → ∀ n ∈ chunk, isNewEvent n = true → ∀ p ∈ n.prevEventIds,
        ¬ Leads earlier.flatten (SoftFailed earlier.flatten) p a := by
  have h := run_inv hsteady inv_empty fun b hb => ⟨hback b hb, fun e he => ⟨b, hb, he⟩⟩
  exact ⟨h.accepted, h.unreferenced, h.direct, h.through⟩

end Runs

/-! ## A room -/

namespace Branch

def event (eventId : String) (prevEventIds : List String) (softFailed : Bool) : EventContext :=
  ⟨eventId, prevEventIds, false, false, softFailed, none, none⟩

def batch (backfilled : Bool) (e : EventContext) : Batch := ⟨[e], backfilled, ∅, fun _ => ∅⟩

/-- An accepted event that refers to another one through a soft-failed event. -/
def softFailed : List Batch :=
  [batch false (event "$create" [] false), batch false (event "$old" ["$create"] false),
    batch false (event "$failed" ["$old"] true), batch false (event "$new" ["$failed"] false)]

/-- The last event is the only extremity. -/
theorem extremities_of_history_softFailed : (empty.run softFailed).db.forwardExtremities = {"$new"} ∧
      Accepted (empty.run softFailed).log.flatten "$new" := by
  have hext : (empty.run softFailed).db.forwardExtremities = {"$new"} := by decide +kernel
  have hsteady : Steady {e | ∃ b ∈ softFailed, e ∈ b.events} := by
    have h : ∀ e ∈ softFailed.flatMap Batch.events, ∀ e' ∈ softFailed.flatMap Batch.events, e.eventId = e'.eventId →
        e.prevEventIds = e'.prevEventIds ∧ e.rejected = e'.rejected ∧ e.softFailed = e'.softFailed := by decide +kernel
    intro e he e' he'
    exact h e (mem_flatMap.mpr he) e' (mem_flatMap.mpr he')
  refine ⟨hext, (extremities_of_history (by decide +kernel) hsteady).1 "$new" ?_⟩
  exact Finset.mem_singleton_self _

/-- A branch of the room that is backfilled. -/
def backfilled : List Batch :=
  [batch false (event "$create" [] false), batch false (event "$new" ["$create"] false),
    batch true (event "$branch" ["$create"] false)]

/-- The event at the end of the branch is accepted and nothing refers to it, but it is no extremity. -/
theorem backfilled_no_extremity : Accepted (empty.run backfilled).log.flatten "$branch" ∧
      ¬ Referenced (empty.run backfilled).log.flatten "$branch" ∧
      "$branch" ∉ (empty.run backfilled).db.forwardExtremities ∧ (empty.run backfilled).pruned = ∅ := by
  have hprev : ∀ e ∈ backfilled.flatMap Batch.events, "$branch" ∉ e.prevEventIds := by decide +kernel
  refine ⟨⟨event "$branch" ["$create"] false, by decide +kernel, rfl, rfl⟩, ?_, by decide +kernel, by decide +kernel⟩
  rintro ⟨n, p, -, ⟨e, he, -, hp⟩, hl⟩
  rcases ReflTransGen.cases_tail hl with rfl | ⟨q, -, -, e', he', -, hq⟩
  · exact hprev e he hp
  · exact hprev e' he' hq

end Branch

end Synapse.Extremities
