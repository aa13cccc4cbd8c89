import Synapse.AuthChain.DifferenceExact
import Synapse.AuthChain.Exactness

/-!
# Synapse.AuthChain.Accounted — every state event of an indexed room is accounted for

* `Accounted`: a state event has a position or is to be calculated.
* `persistBatch_accounted`: a batch of a room that has an index keeps it so.
* **`run_covered`**: whatever batches have been persisted, state sets of a room are as the auth chain difference needs
  them.
-/

namespace Synapse.AuthChain

open Lib Chain Greedy Relation List Option AList

variable {ev : Events} {t : Tables} {o : Orders} {c : Calc} {stateEvents : List String}

/-! ## The events of a calculation -/

theorem mem_foldl_add (f : String → List String) (ids : List String) (c : Calc) (id : String) :
    id ∈ (ids.foldl (fun c id => c.add ev id (f id)) c).eventsToCalc ↔ id ∈ c.eventsToCalc ∨ id ∈ ids := by
  induction ids generalizing c with
  | nil => simp
  | cons a ids ih =>
    rw [foldl_cons, ih, Calc.add, mem_insert_iff, mem_cons]
    tauto

/-- Positions are calculated for the events of the batch, and for others that are stored. -/
structure Within (t : Tables) (stateEvents : List String) (c : Calc) : Prop where
  batch : ∀ id ∈ stateEvents, id ∈ c.eventsToCalc
  stored : ∀ id ∈ c.eventsToCalc, id ∈ t.stateEvents ∨ id ∈ stateEvents

theorem within_start (hpending : ∀ id ∈ t.eventAuthChainToCalculate, id ∈ t.stateEvents) :
    Within t stateEvents (addPending ev t o stateEvents (startCalc ev stateEvents)) where
  batch id hid := (mem_foldl_add _ _ _ _).mpr (.inl ((mem_foldl_add _ _ _ _).mpr (.inr hid)))
  stored id hid := by
    rcases (mem_foldl_add _ _ _ _).mp hid with hid | hid
    · exact .inr (((mem_foldl_add _ _ _ _).mp hid).resolve_left not_mem_nil)
    · exact .inl (hpending id (mem_filter.mp hid).1)

theorem Within.fetchAuthEvent {acc : Calc × List String} (h : Within t stateEvents acc.1) {id : String}
    (hid : id ∈ t.stateEvents) : Within t stateEvents (fetchAuthEvent ev t o acc id).1 := by
  unfold AuthChain.fetchAuthEvent
  split
  · refine ⟨fun x hx => mem_insert_of_mem (h.batch x hx), fun x hx => ?_⟩
    rcases mem_insert_iff.mp hx with rfl | hx
    · exact .inl hid
    · exact h.stored x hx
  · exact ⟨h.batch, h.stored⟩

theorem Within.fetchMissing {fuel : ℕ} {missing : List String} (h : Within t stateEvents c) {c' : Calc}
    (hc' : fetchMissing ev t o fuel c missing = .ok c') : Within t stateEvents c' := by
  fun_induction AuthChain.fetchMissing ev t o fuel c missing with
  | case1 =>
    cases hc'
    exact h
  | case2 => cases hc'
  | case3 _ c _ _ _ ih =>
    refine ih ?_ hc'
    refine foldlRecOn (motive := fun acc : Calc × List String => Within t stateEvents acc.1) _ _ h
      fun acc hacc id hid => ?_
    have hmem := (o.strings_perm _).mem_iff.mp hid
    exact hacc.fetchAuthEvent (of_decide_eq_true (mem_filter.mp hmem).2)

/-! ## Batches -/

/-- **Every state event is accounted for**: it has a position or is to be calculated, and no other event has one. -/
structure Accounted (ev : Events) (t : Tables) : Prop where
  indexed : Indexed ev t
  stored : ∀ id, (t.pos id).isSome → id ∈ t.stateEvents
  all : ∀ id ∈ t.stateEvents, (t.pos id).isSome ∨ id ∈ t.eventAuthChainToCalculate

/-- What a calculation does with the events of the batch. -/
structure Accounts (t : Tables) (stateEvents : List String) (new : NewLinks) : Prop where
  stored : ∀ id ∈ new.positions, id ∈ t.stateEvents ∨ id ∈ stateEvents
  batch : ∀ id ∈ stateEvents, id ∈ new.positions ∨ id ∈ new.toCalculate
  kept : ∀ id ∈ t.eventAuthChainToCalculate, id ∈ new.toCalculate

theorem calculated (hix : Indexed ev t) (hg : Gathered ev t c) (hgather : gather ev t o stateEvents = .ok c)
    {new : NewLinks} (hnew : calculateChainCoverIndex ev t o stateEvents = .ok new) :
    (∀ id, id ∈ new.positions ↔ id ∈ (discard t stateEvents c).1) ∧ new.toCalculate = (discard t stateEvents c).2 := by
  rw [calculateChainCoverIndex_eq hgather Prod.mk.eta.symm] at hnew
  split_ifs at hnew with hnil
  · cases hnew
    rw [hnil]
    exact ⟨fun id => Iff.rfl, rfl⟩
  obtain ⟨positions, last, halloc, hp, -⟩ := allocateChainIds_ok hix hg (allocatable_discard hg stateEvents) o
  rw [halloc] at hnew
  obtain ⟨r, hr, hnew⟩ := exc_bind_ok hnew
  cases hr
  obtain ⟨links, -, hnew⟩ := exc_bind_ok hnew
  cases hnew
  exact ⟨hp.keys, rfl⟩

theorem calculateChainCoverIndex_accounts (hix : Indexed ev t) (hstate : ∀ id ∈ stateEvents, t.pos id = none)
    {new : NewLinks} (hnew : calculateChainCoverIndex ev t o stateEvents = .ok new) : Accounts t stateEvents new := by
  obtain ⟨c, hgather, hg⟩ : ∃ c, gather ev t o stateEvents = .ok c ∧ Gathered ev t c := gather_ok hstate hix.pending
  have hwithin : Within t stateEvents c :=
    (within_start fun id hid => (hix.pending id hid).1).fetchMissing hgather
  have hd := discard_ok hg stateEvents
  obtain ⟨hkeys, hrows⟩ := calculated hix hg hgather hnew
  refine ⟨fun id hid => ?_, fun id hid => ?_, fun id hid => ?_⟩
  · exact hwithin.stored id (hd.sublist.subset ((hkeys id).mp hid))
  · rw [hkeys, hrows]
    exact hd.discarded id hid (hwithin.batch id hid)
  · rw [hrows]
    exact hd.kept id hid

theorem Accounted.persist (h : Accounted ev t) {events : List String} {new : NewLinks}
    (hnew : Accounts t ((stateEventsOf ev events).filter fun id => t.pos id = none) new)
    (hix : Indexed ev (persist ev t events new)) : Accounted ev (persist ev t events new) := by
  have hpos : ∀ id, ((AuthChain.persist ev t events new).pos id).isSome ↔ id ∈ new.positions ∨ (t.pos id).isSome := by
    intro id
    rw [pos_persist, newPos, isSome_or, Bool.or_eq_true, lookup_isSome]
  have hleft : ∀ id, id ∈ new.positions ∨ id ∈ new.toCalculate →
      ((AuthChain.persist ev t events new).pos id).isSome ∨
        id ∈ (AuthChain.persist ev t events new).eventAuthChainToCalculate := by
    intro id hid
    by_cases hkey : id ∈ new.positions
    · exact .inl ((hpos id).mpr (.inl hkey))
    · exact .inr (mem_filter.mpr ⟨hid.resolve_left hkey, decide_eq_true hkey⟩)
  refine ⟨hix, fun id hid => ?_, fun id hid => ?_⟩
  · rcases (hpos id).mp hid with hkey | hold
    · rcases hnew.stored id hkey with hold | hbatch
      · exact Finset.mem_union_left _ hold
      · exact Finset.mem_union_right _ (List.mem_toFinset.mpr (mem_filter.mp hbatch).1)
    · exact Finset.mem_union_left _ (h.stored id hold)
  by_cases hold : (t.pos id).isSome
  · exact .inl ((hpos id).mpr (.inr hold))
  refine hleft id ?_
  rcases Finset.mem_union.mp hid with hstored | hbatch
  · exact .inr (hnew.kept id ((h.all id hstored).resolve_left hold))
  · refine hnew.batch id (mem_filter.mpr ⟨List.mem_toFinset.mp hbatch, decide_eq_true ?_⟩)
    exact not_isSome_iff_eq_none.mp hold

theorem persistBatch_accounted (h : Accounted ev t) {b : Batch} (hb : b.hasAuthChainIndex = true) :
    ∃ t', persistBatch ev t b = .ok t' ∧ Accounted ev t' := by
  obtain ⟨t', ht', hix'⟩ := persistBatch_ok h.indexed b
  refine ⟨t', ht', ?_⟩
  unfold persistBatch at ht'
  rcases hnew : calculateForEvents ev t b.orders b.hasAuthChainIndex b.events with e | new
  · rw [hnew] at ht'
    cases ht'
  rw [hnew] at ht'
  cases ht'
  refine h.persist ?_ hix'
  unfold calculateForEvents at hnew
  simp only [hb, Bool.true_eq_false, false_or] at hnew
  split_ifs at hnew with hnil
  · cases hnew
    rw [hnil]
    exact ⟨fun _ hid => absurd hid (notMem_empty _), fun _ hid => absurd hid not_mem_nil, fun _ hid => hid⟩
  · exact calculateChainCoverIndex_accounts h.indexed (fun id hid => of_decide_eq_true (mem_filter.mp hid).2) hnew

theorem accounted_empty (ev : Events) : Accounted ev .empty where
  indexed := indexed_empty ev
  stored _ h := by cases h
  all _ h := absurd h (Finset.notMem_empty _)

/-! ## Reading -/

/-- Auth events are in the room of the event. -/
def Events.SameRoom (ev : Events) : Prop := ∀ id, ∀ a ∈ ev.auth id, (ev.event a).roomId = (ev.event id).roomId

theorem Accounted.cover (h : Accounted ev t) : Cover (t.eventAuth ev) t.pos t.links := by
  have hauth : ∀ {id : String} {p : Pos}, t.pos id = some p → t.eventAuth ev id = ev.auth id := fun hid =>
    if_pos (h.stored _ (isSome_of_eq_some hid))
  refine ⟨h.indexed.cover.unique, fun id p hp => ?_, fun l hl => ?_, fun id p hp => ?_⟩
  · rw [hauth hp]
    exact h.indexed.cover.contiguous id p hp
  · obtain ⟨a, b, hb, hsrc, htarget⟩ := h.indexed.cover.sound l hl
    exact ⟨a, b, by rwa [hauth hsrc], hsrc, htarget⟩
  · rw [hauth hp]
    exact h.indexed.cover.covered id p hp

theorem InChain.room (hroom : ev.SameRoom) {roomId : String} {s : Finset String}
    (hs : ∀ id ∈ s, (ev.event id).roomId = roomId) {id : String} (h : InChain ev t s id) :
    (ev.event id).roomId = roomId := by
  obtain ⟨e, he, hpath⟩ := h
  induction hpath with
  | refl => exact hs e he
  | @tail b c _ hedge ih =>
    have hauth : c ∈ t.eventAuth ev b := hedge
    unfold Tables.eventAuth at hauth
    split_ifs at hauth with hstored
    · rw [hroom b c hauth, ih]
    · exact absurd hauth not_mem_nil

theorem Accounted.covered (h : Accounted ev t) (hroom : ev.SameRoom) {roomId : String} {sets : List (Finset String)}
    (hsets : ∀ s ∈ sets, ∀ id ∈ s, id ∈ t.stateEvents ∧ (ev.event id).roomId = roomId) : Covered ev t roomId sets := by
  have hknown : ∀ id, id ∈ t.stateEvents → (ev.event id).roomId = roomId →
      (t.pos id).isSome ∨ id ∈ t.pendingIn ev roomId := fun id hid hr =>
    (h.all id hid).imp_right fun hpend => mem_filter.mpr ⟨hpend, decide_eq_true hr⟩
  refine ⟨h.cover.exact, fun l hl => ?_, fun id hid => ?_, fun s hs id hid => ?_, fun s hs id hid => ?_⟩
  · obtain ⟨a, b, -, -, hb⟩ := h.indexed.cover.sound l hl
    exact seq_pos h.indexed.cover.contiguous hb
  · exact (h.indexed.pending id (mem_filter.mp hid).1).2
  · exact hknown id (hsets s hs id hid).1 (hsets s hs id hid).2
  by_cases hstored : id ∈ t.stateEvents
  · rcases hknown id hstored (hid.room hroom fun e he => (hsets s hs e he).2) with hsome | hpend
    · exact .inl hsome
    · exact .inr (.inl hpend)
  · exact .inr (.inr (if_neg hstored))

/-- **State sets are covered in every state that is reached.**  Whatever batches have been persisted in rooms that have
an index, any sets of state events of a room are as the auth chain difference needs them. -/
theorem run_covered (hroom : ev.SameRoom) (batches : List Batch) (hindex : ∀ b ∈ batches, b.hasAuthChainIndex = true) :
    ∃ t, run ev .empty batches = .ok t ∧ ∀ roomId sets,
      (∀ s ∈ sets, ∀ id ∈ s, id ∈ t.stateEvents ∧ (ev.event id).roomId = roomId) → Covered ev t roomId sets := by
  obtain ⟨t, hrun, h⟩ := foldlM_total (l := batches) (fun _ t => Accounted ev t)
    (accounted_empty ev) fun _ b _ _ hsplit h =>
      persistBatch_accounted h (hindex b (hsplit ▸ mem_append_right _ mem_cons_self))
  exact ⟨t, hrun, fun _ _ hsets => h.covered hroom hsets⟩

theorem Joining.batch_covered : ∃ t, run Joining.events .empty [⟨["$create", "$power", "$join"], true, .listed⟩] = .ok t ∧
    ∀ roomId sets, (∀ s ∈ sets, ∀ id ∈ s, id ∈ t.stateEvents ∧ (Joining.events.event id).roomId = roomId) →
      Covered Joining.events t roomId sets := by
  have hroom : ∀ id, (Joining.event id).roomId = "!room" := by
    intro id
    unfold Joining.event
    split_ifs <;> rfl
  exact run_covered (fun id a _ => (hroom a).trans (hroom id).symm) _ (by simp)

end Synapse.AuthChain
