import Mathlib.Data.List.Induction
import Mathlib.Data.List.Nodup
import Synapse.Lib.Runs

/-!
# Synapse.EventContext — events on their way to the database

What the persistence of events reads of an event and its context, and
`_filter_events_and_contexts_for_duplicates` of `synapse/storage/databases/main/events.py`.
-/

namespace Synapse

open List Lib

/-- What is read of an event and its context. -/
structure EventContext where
  eventId : String
  prevEventIds : List String
  outlier : Bool
  rejected : Bool
  softFailed : Bool
  stateGroup : Option ℕ
  stateGroupBeforeEvent : Option ℕ
  deriving DecidableEq

namespace EventContext

variable (e : EventContext)

/-- The event is neither an outlier nor rejected. -/
def accepted : Bool := !e.rejected && !e.outlier

/-- One event of `_filter_events_and_contexts_for_duplicates`: the earliest that is no outlier, else the earliest. -/
def filterDuplicate (events : List EventContext) (e : EventContext) : List EventContext :=
  match events.find? (·.eventId = e.eventId) with
  | none => events ++ [e]
  | some prev =>
    if !e.outlier && prev.outlier then events.filter (·.eventId ≠ e.eventId) ++ [e] else events

/-- `_filter_events_and_contexts_for_duplicates(events_and_contexts)` -/
def filterDuplicates (events : List EventContext) : List EventContext := events.foldl filterDuplicate []

variable {e} {events : List EventContext}

theorem mem_of_mem_filterDuplicate {a : EventContext} (h : e ∈ filterDuplicate events a) : e ∈ events ∨ e = a := by
  unfold filterDuplicate at h
  split at h
  · exact mem_snoc.mp h
  · split at h
    · exact (mem_snoc.mp h).imp_left fun hf => (mem_filter.mp hf).1
    · exact .inl h

theorem mem_of_mem_filterDuplicates (h : e ∈ filterDuplicates events) : e ∈ events := by
  refine foldlRecOn (motive := fun acc => ∀ e ∈ acc, e ∈ events) events _ (by simp) (fun acc hacc a ha e he => ?_) e h
  rcases mem_of_mem_filterDuplicate he with he | rfl
  · exact hacc e he
  · exact ha

theorem nodup_filterDuplicate (h : (events.map eventId).Nodup) (a : EventContext) :
    ((filterDuplicate events a).map eventId).Nodup := by
  unfold filterDuplicate
  split
  · rename_i hnone
    rw [map_append, map_singleton]
    refine Nodup.append h (nodup_singleton _) (disjoint_singleton.mpr fun hmem => ?_)
    obtain ⟨e, he, hid⟩ := mem_map.mp hmem
    simpa [hid] using find?_eq_none.mp hnone e he
  split
  · rw [map_append, map_singleton]
    refine Nodup.append (h.sublist (filter_sublist.map _)) (nodup_singleton _) ?_
    refine disjoint_singleton.mpr fun hmem => ?_
    obtain ⟨e, he, hid⟩ := mem_map.mp hmem
    simpa [hid] using (mem_filter.mp he).2
  · exact h

theorem nodup_filterDuplicates (events : List EventContext) : ((filterDuplicates events).map eventId).Nodup :=
  foldlRecOn events filterDuplicate (motive := fun acc => (acc.map eventId).Nodup) nodup_nil
    fun _ hacc a _ => nodup_filterDuplicate hacc a

/-- The event is the same as the other, and no outlier unless the other is. -/
def Covers (e e' : EventContext) : Prop := e.eventId = e'.eventId ∧ (e'.outlier = false → e.outlier = false)

theorem covers_filterDuplicate (events : List EventContext) (a : EventContext) :
    ∀ e, e ∈ events ∨ e = a → ∃ e' ∈ filterDuplicate events a, e'.Covers e := by
  unfold filterDuplicate
  split
  · rintro e he
    exact ⟨e, mem_snoc.mpr he, rfl, id⟩
  rename_i prev hprev
  have hid : prev.eventId = a.eventId := by simpa using find?_some hprev
  split
  · rename_i hguard
    simp only [Bool.and_eq_true, Bool.not_eq_true'] at hguard
    rintro e he
    by_cases hea : e.eventId = a.eventId
    · exact ⟨a, mem_concat_self, hea.symm, fun _ => hguard.1⟩
    refine ⟨e, mem_append_left _ (mem_filter.mpr ⟨he.resolve_right ?_, ?_⟩), rfl, id⟩
    · rintro rfl
      exact hea rfl
    · simpa using hea
  · rename_i hguard
    rintro e (he | rfl)
    · exact ⟨e, he, rfl, id⟩
    · refine ⟨prev, mem_of_find?_eq_some hprev, hid, fun hout => ?_⟩
      simpa [hout] using hguard

theorem covers_filterDuplicates (he : e ∈ events) : ∃ e' ∈ filterDuplicates events, e'.Covers e := by
  induction events using reverseRecOn with
  | nil => cases he
  | append_singleton events a ih =>
    have hstep := covers_filterDuplicate (filterDuplicates events) a
    rw [filterDuplicates, foldl_append]
    rcases mem_snoc.mp he with he | he
    · obtain ⟨e₁, he₁, hid₁, hout₁⟩ := ih he
      obtain ⟨e₂, he₂, hid₂, hout₂⟩ := hstep e₁ (.inl he₁)
      exact ⟨e₂, he₂, hid₂.trans hid₁, fun h => hout₂ (hout₁ h)⟩
    · exact hstep e (.inr he)

end EventContext

end Synapse
