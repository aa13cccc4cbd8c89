import Synapse.StateRes.Conflicts
import Synapse.StateRes.Mainline
import Synapse.StateRes.AuthChecks

/-!
# Synapse.StateRes.Resolve — `resolve_events_with_store`

State resolution v2 as a whole.

* `resolve_order_free`: the resolved state depends on the set of state sets only.
* `resolve_sound`: unconflicted keys keep their events; every other key has an event of the full conflicted set that one of
  the two passes accepted over what it had resolved by then.
-/

namespace Synapse.StateRes

open Lib List Finmap Finset
open Query hiding pure

/-- `set(itertools.chain.from_iterable(conflicted_state.values()))` -/
def conflictedIds (o : Orders) (conflicted : Finmap fun _ : StateKey => Finset String) : Finset String :=
  (values conflicted (o.keys .conflicted)).foldl (· ∪ ·) ∅

/-- `for event in event_map.values(): if event.room_id != room_id: raise ...` -/
def checkRooms (roomId : String) : List Event → Except Exc Unit
  | [] => pure ()
  | event :: rest =>
    if event.roomId ≠ roomId then
      throw (.exception [.text (s!"Attempting to state-resolve for room {roomId} with event {event.eventId}" ++
        s!" which is in {event.roomId}")])
    else checkRooms roomId rest

/-- The part of `resolve_events_with_store` that reads events through `event_map`. -/
def resolveConflicts (env : Env) (o : Orders) (fuel : ℕ) (unconflicted : StateMap) (fullConflictedSet : Finset String) :
    Fetch StateMap := do
  let sortedPowerEvents ← reverseTopologicalPowerSort o fuel env.roomId fullConflictedSet
  let resolved ← iterativeAuthChecks env o true sortedPowerEvents unconflicted
  let leftoverEvents := (o.ids .leftover fullConflictedSet).filter (· ∉ sortedPowerEvents)
  let leftoverEvents ← mainlineSort fuel env.roomId leftoverEvents (resolved.lookup (EventTypes.powerLevels, ""))
  let resolved ← iterativeAuthChecks env o false leftoverEvents resolved
  pure (update resolved unconflicted)

/-- The conflicted state with the auth chain difference, before unknown events are dropped. -/
def conflictedAndDifference (env : Env) (o : Orders) (fuel : ℕ) (stateSets : List StateMap) :
    Except (Halt Exc) (Finset String) := do
  let authDiff ← getAuthChainDifference o fuel env.store env.roomId env.inFlight.map stateSets
  pure (conflictedIds o (seperate o stateSets).2 ∪ authDiff)

/-- `event_map` with the events of the full conflicted set. -/
def fetchConflicted (env : Env) (o : Orders) (full : Finset String) : EventMap :=
  update env.inFlight.map (env.store.getEvents ((o.ids .missing full).filter (· ∉ env.inFlight.map)))

def resolveEventsWithStore (env : Env) (o : Orders) (fuel : ℕ) (stateSets : List StateMap) :
    Except (Halt Exc) StateMap :=
  if (seperate o stateSets).2.keys = ∅ then pure (seperate o stateSets).1
  else do
    let full ← conflictedAndDifference env o fuel stateSets
    let eventMap := fetchConflicted env o full
    (checkRooms env.roomId (values eventMap (o.ids .eventMap))).mapError .raised
    let (resolved, _) ← (resolveConflicts env o fuel (seperate o stateSets).1 (full.filter (· ∈ eventMap))).run
      (env.store.events.map.lookup ·) eventMap
    pure resolved

/-! ## The event map -/

section EventMap

variable {env : Env}

theorem mem_conflictedIds {o : Orders} {conflicted : Finmap fun _ : StateKey => Finset String} {id : String} :
    id ∈ conflictedIds o conflicted ↔ ∃ k s, conflicted.lookup k = some s ∧ id ∈ s := by
  rw [conflictedIds, foldl_iff (P := (id ∈ ·)) (Q := (id ∈ ·)) fun _ _ => Finset.mem_union]
  simp only [Finset.notMem_empty, false_or]
  constructor
  · rintro ⟨s, hs, hid⟩
    obtain ⟨k, hk⟩ := (mem_values fun k => o.mem_keys _).mp hs
    exact ⟨k, s, hk, hid⟩
  · rintro ⟨k, s, hk, hid⟩
    exact ⟨s, (mem_values fun k => o.mem_keys _).mpr ⟨k, hk⟩, hid⟩

theorem lookup_getEvents (store : Store) (ids : List String) (id : String) :
    (store.getEvents ids).lookup id = if id ∈ ids then store.events.map.lookup id else none := by
  have hitems : store.getEvents ids = setItems (store.events.map.lookup ·) ∅ ids := by
    refine congrArg (fun step => ids.foldl step ∅) (funext fun found => funext fun id => ?_)
    dsimp only [Store.addFound]
    cases store.events.map.lookup id <;> rfl
  rw [hitems, lookup_setItems]
  simp

/-- The event map when the conflicts are resolved: the events in flight, and the known events of the set. -/
theorem lookup_fetchConflicted (o : Orders) (full : Finset String) (id : String) :
    (fetchConflicted env o full).lookup id =
      (env.inFlight.map.lookup id <|> if id ∈ full then env.store.events.map.lookup id else none) := by
  rw [fetchConflicted, lookup_update, lookup_getEvents]
  cases hid : env.inFlight.map.lookup id with
  | some e =>
    have : id ∈ env.inFlight.map := mem_iff.mpr ⟨e, hid⟩
    simp [this]
  | none =>
    have : id ∉ env.inFlight.map := lookup_eq_none.mp hid
    simp [this]

theorem faithful_fetchConflicted (o : Orders) (full : Finset String) :
    Query.Faithful env.look (env.store.events.map.lookup ·) (fetchConflicted env o full) := by
  constructor
  · intro id e h
    rw [lookup_fetchConflicted] at h
    unfold Env.look
    cases hid : env.inFlight.map.lookup id with
    | some e' => simpa [hid] using h
    | none =>
      rw [hid] at h
      by_cases hf : id ∈ full
      · simpa [hf] using h
      · simp [hf] at h
  · intro id h
    rw [lookup_fetchConflicted] at h
    unfold Env.look
    cases hid : env.inFlight.map.lookup id with
    | some e' => simp [hid] at h
    | none => rfl

theorem checkRooms_ok_iff {roomId : String} {l : List Event} :
    checkRooms roomId l = .ok () ↔ ∀ e ∈ l, e.roomId = roomId := by
  induction l with
  | nil => simp [checkRooms, pure, Except.pure]
  | cons e l ih =>
    unfold checkRooms
    by_cases he : e.roomId = roomId
    · simp [he, ih]
    · simp [he]

/-- The events of the full conflicted set that are known. -/
def knownEvents (env : Env) (o : Orders) (full : Finset String) : Finset String :=
  full.filter (· ∈ fetchConflicted env o full)

/-- The room check finds nothing wrong. -/
def RoomsChecked (env : Env) (o : Orders) (full : Finset String) : Prop :=
  checkRooms env.roomId (values (fetchConflicted env o full) (o.ids .eventMap)) = .ok ()

theorem allInRoom_of_checkRooms {o : Orders} {full : Finset String} (h : RoomsChecked env o full) :
    AllInRoom env (knownEvents env o full) := by
  intro id hid
  obtain ⟨e, he⟩ := mem_iff.mp (mem_filter.mp hid).2
  exact ⟨e, (faithful_fetchConflicted o full).hit id e he,
    checkRooms_ok_iff.mp h e ((mem_values fun k => o.mem_ids _).mpr ⟨id, he⟩)⟩

end EventMap

/-! ## `event_map[...]` is used at events that are there -/

section Covered

variable {look : String → Option Event} {keys : Set String} {roomId : String} {full : Finset String}

theorem ensures_visitEvent {x : String} {stack : List String} {g : Graph}
    (hstack : ∀ y ∈ x :: stack, y ∈ full) (hg : ∀ y ∈ g, y ∈ full) :
    (visitEvent roomId full x g).Ensures look True keys fun r =>
      (∀ y ∈ r.2.reverse ++ stack, y ∈ full) ∧ ∀ y ∈ r.1, y ∈ full := by
  refine (ensures_getEvent roomId x).bind fun e _ => ensures_pure ?_
  obtain ⟨h1, -, -, h4⟩ := foldl_addAuthEdge full e.authEventIds (mem_setdefault.mpr (.inl rfl))
  refine ⟨fun y hy => ?_, fun y hy => ?_⟩
  · rcases mem_append.mp hy with hy | hy
    · rw [h4] at hy
      simp at hy
      exact hy.2.1
    · exact hstack y (by simp [hy])
  · rcases mem_setdefault.mp ((h1 y).mp hy) with rfl | hy
    · exact hstack y (by simp)
    · exact hg y hy

theorem ensures_powerGraph (hfull : ∀ id ∈ full, id ∈ keys) (o : Orders) (fuel : ℕ) :
    (powerGraph o fuel roomId full).Ensures look True keys fun g => ∀ y ∈ g, y ∈ full := by
  refine ensures_foldlM _ (fun g hg id hid => ?_) fun y hy => absurd hy notMem_empty
  have hid := (o.mem_ids _).mp hid
  refine (ensures_eventMapItem (hfull id hid)).bind fun event _ => (ensures_lift fun _ h => h).bind fun power _ => ?_
  split
  · refine (ensures_worklist (fun stack g => (∀ y ∈ stack, y ∈ full) ∧ ∀ y ∈ g, y ∈ full)
      (fun x stack g h => ensures_visitEvent h.1 h.2) ⟨fun y hy => ?_, hg⟩).mono fun _ h => h.2
    rw [List.mem_singleton.mp hy]
    exact hid
  · exact ensures_pure hg

section Kahn

variable {κ : Type} {g : Graph} {key : String → Fetch κ}

/-- What the loops of the sort keep: parents and queued nodes are nodes of the graph. -/
def HeapIn (g : Graph) (heap : List (κ ×ₗ String)) : Prop := ∀ p ∈ heap, (ofLex p).2 ∈ g

variable (hkey : ∀ x ∈ g, (key x).Ensures look True keys fun _ => True)
include hkey

theorem ensures_sortNode (o : Orders) :
    ((o.ids .nodes g.keys).foldlM (sortNode o g key) (∅, [])).Ensures look True keys fun r =>
      (∀ y, ∀ p ∈ needs r.1 y, p ∈ g) ∧ HeapIn g r.2 := by
  refine ensures_foldlM _ (fun acc hacc x hx => ?_) ⟨by simp [needs], by simp [HeapIn]⟩
  have hx : x ∈ g := Finmap.mem_keys.mp ((o.mem_ids _).mp hx)
  have hparents : ∀ y, ∀ p ∈ needs ((o.ids (.edges x) ((g.lookup x).getD ∅)).foldl (fun r edge => addEdge r edge x)
      (setdefault acc.1 x)) y, p ∈ g := by
    intro y p hp
    rcases ((foldl_addEdge x _ _ y).1 p).mp hp with hp | ⟨rfl, -⟩
    · exact hacc.1 y p (needs_setdefault acc.1 x y ▸ hp)
    · exact hx
  unfold sortNode
  simp only
  split
  · exact (hkey x hx).bind fun k _ => ensures_pure ⟨hparents, forall_mem_snoc.mpr ⟨hacc.2, hx⟩⟩
  · exact ensures_pure ⟨hparents, hacc.2⟩

theorem ensures_discardEdge {node : String}
    {parents : List String} (hparents : ∀ p ∈ parents, p ∈ g) {s : Graph × List (κ ×ₗ String)} (hs : HeapIn g s.2) :
    (parents.foldlM (discardEdge key node) s).Ensures look True keys fun r => HeapIn g r.2 := by
  refine ensures_foldlM _ (fun s hs x hx => (ensures_lift fun _ h => h).bind fun out _ => ?_) hs
  split
  · exact (hkey x (hparents x hx)).bind fun k _ => ensures_pure (forall_mem_cons.mpr ⟨hparents x hx, hs⟩)
  · exact ensures_pure hs

theorem ensures_sortLoop [LinearOrder κ] (o : Orders) {reverse : Graph} (hreverse : ∀ y, ∀ p ∈ needs reverse y, p ∈ g)
    (fuel : ℕ) (out : Graph) {heap : List (κ ×ₗ String)} (hheap : HeapIn g heap) :
    (sortLoop o key reverse fuel out heap).Ensures look True keys fun l => ∀ x ∈ l, x ∈ g := by
  fun_induction sortLoop o key reverse fuel out heap with
  | case1 => exact ensures_pure (forall_mem_nil _)
  | case2 => exact ensures_stop
  | case3 out heap least heap' hpop node fuel ih =>
    obtain ⟨hmem, hrest⟩ := Greedy.mem_of_heappop hpop
    refine (ensures_lift fun _ h => h).bind fun parents hparents => ?_
    refine (ensures_discardEdge hkey (fun p hp => hreverse node p ?_) fun p hp => hheap p (hrest p hp)).bind fun s hs =>
      (ih s.1 s.2 hs).bind fun rest hrest => ensures_pure (forall_mem_cons.mpr ⟨hheap least hmem, hrest⟩)
    rw [needs, item_ok.mp hparents]
    exact (o.mem_ids _).mp hp

end Kahn

theorem ensures_reverseTopologicalPowerSort (hfull : ∀ id ∈ full, id ∈ keys) (o : Orders)
    (fuel : ℕ) : (reverseTopologicalPowerSort o fuel roomId full).Ensures look True keys fun l => ∀ id ∈ l, id ∈ full := by
  refine (ensures_powerGraph hfull o fuel).bind fun g hg => ?_
  refine (ensures_collect fun id _ => ensures_getPowerLevelForSender id).bind fun levels _ => ?_
  have hkey : ∀ x ∈ g, (getPowerOrder levels x).Ensures look True keys fun _ => True := fun x hx =>
    (ensures_eventMapItem (hfull x (hg x hx))).bind fun _ _ => (ensures_lift fun _ h => h).bind fun _ _ =>
      ensures_pure trivial
  refine (ensures_sortNode hkey o).bind fun r hr => ?_
  exact (ensures_sortLoop hkey o hr.1 fuel g hr.2).mono fun l hl id hid => hg id (hl id hid)

/-- One of the two passes accepts the event: the pass over the sorted power events, from the unconflicted state, or the
pass over the other events, from what the first has left. -/
def AcceptedByPass (env : Env) (o : Orders) (fuel : ℕ) (unconflicted : StateMap) (full : Finset String) (k : StateKey)
    (id : String) : Prop :=
  ∃ sorted resolved, eval env.look (reverseTopologicalPowerSort o fuel env.roomId full) = .ok sorted ∧
    eval env.look (iterativeAuthChecks env o true sorted unconflicted) = .ok resolved ∧
    (Accepted env o true sorted unconflicted k id ∨ ∃ leftover,
      eval env.look (mainlineSort fuel env.roomId ((o.ids .leftover full).filter (· ∉ sorted))
        (resolved.lookup (EventTypes.powerLevels, ""))) = .ok leftover ∧
      Accepted env o false leftover resolved k id)

/-- What both passes add is accepted, and what they overwrite the last update restores. -/
theorem ensures_resolveConflicts {env : Env} (hfull : ∀ id ∈ full, id ∈ keys) (o : Orders)
    (fuel : ℕ) (unconflicted : StateMap) :
    (resolveConflicts env o fuel unconflicted full).Ensures env.look True keys fun resolved => ∀ k,
      (∀ u, unconflicted.lookup k = some u → resolved.lookup k = some u) ∧
        ∀ id, resolved.lookup k = some id → unconflicted.lookup k = none →
          id ∈ full ∧ AcceptedByPass env o fuel unconflicted full k id := by
  have hsort : (reverseTopologicalPowerSort o fuel env.roomId full).Ensures env.look True keys _ :=
    ensures_reverseTopologicalPowerSort hfull o fuel
  refine hsort.self.bind fun sorted hs => ?_
  have hsorted := hsort.post sorted hs
  refine (ensures_iterativeAuthChecks o true (fun id hid => hfull id (hsorted id hid)) _).self.bind fun resolved₁ h₁ => ?_
  have hleft : ∀ id ∈ (o.ids .leftover full).filter (· ∉ sorted), id ∈ full := fun id hid =>
    (o.mem_ids _).mp (mem_filter.mp hid).1
  have hmain : (mainlineSort fuel env.roomId _ _).Ensures env.look True keys _ :=
    ensures_mainlineSort (fun id hid => hfull id (hleft id hid)) fuel (resolved₁.lookup (EventTypes.powerLevels, ""))
  refine hmain.self.bind fun leftover hl => ?_
  have hleftover := hmain.post leftover hl
  refine (ensures_iterativeAuthChecks o false (fun id hid => hfull id (hleft id (hleftover id hid))) _).self.bind
    fun resolved₂ h₂ => ensures_pure fun k => ⟨fun u hu => by rw [lookup_update, hu]; rfl, fun id hid hnone => ?_⟩
  rw [lookup_update, hnone] at hid
  rcases iterativeAuthChecks_adds h₂ hid with hid | hacc
  · rcases iterativeAuthChecks_adds h₁ hid with hid | hacc
    · rw [hnone] at hid
      cases hid
    · exact ⟨hsorted id hacc.mem, sorted, resolved₁, hs, h₁, .inl hacc⟩
  · exact ⟨hleft id (hleftover id hacc.mem), sorted, resolved₁, hs, h₁, .inr ⟨leftover, hl, hacc⟩⟩

end Covered

/-! ## Resolving the conflicts -/

section Conflicts

variable {env : Env} {cost : String → ℕ} {full : Finset String}

/-- Enough fuel for the searches through the known events. -/
structure Enough (env : Env) (cost : String → ℕ) (fuel : ℕ) : Prop where
  pos : 1 ≤ fuel
  cost : ∀ id e, env.look id = some e → cost id ≤ fuel
  card : (env.inFlight.map.keys ∪ env.store.events.map.keys).card ≤ fuel

theorem Enough.inFlight {env : Env} {cost : String → ℕ} {fuel : ℕ} (h : Enough env cost fuel) {id : String}
    (hid : id ∈ env.inFlight.map) : cost id ≤ fuel := by
  obtain ⟨e, he⟩ := mem_iff.mp hid
  exact h.cost id e (look_of_inFlight he)

theorem exists_enough (env : Env) (cost : String → ℕ) : ∃ bound, ∀ fuel, bound ≤ fuel → Enough env cost fuel := by
  let known := env.inFlight.map.keys ∪ env.store.events.map.keys
  refine ⟨1 + known.sum cost + known.card, fun fuel hfuel => ⟨by omega, fun id e he => ?_, ?_⟩⟩
  · have : cost id ≤ known.sum cost := single_le_sum (fun _ _ => Nat.zero_le _) (Env.mem_known he)
    omega
  · show known.card ≤ fuel
    omega

theorem resolveConflicts_agree (hcost : env.Pays cost) (hfull : AllInRoom env full) (unconflicted : StateMap)
    {o o' : Orders} {fuel fuel' : ℕ} (hfuel : Enough env cost fuel) (hfuel' : Enough env cost fuel') :
    Agree (eval env.look (resolveConflicts env o fuel unconflicted full))
      (eval env.look (resolveConflicts env o' fuel' unconflicted full)) := by
  have hlook : ∀ id ∈ full, ∃ e, env.look id = some e := fun id hid => (hfull id hid).imp fun _ h => h.1
  have hcard := card_le_card fun id hid => Env.mem_known (hlook id hid).choose_spec
  obtain ⟨v, hsort⟩ := reverseTopologicalPowerSort_outcome hcost hfull
  have hs : ∀ (o : Orders) {fuel}, Enough env cost fuel →
      outcome (eval env.look (reverseTopologicalPowerSort o fuel env.roomId full)) = some v := fun o fuel hf =>
    hsort o fuel (fun id hid => hf.cost id _ (hlook id hid).choose_spec) (hcard.trans hf.card)
  -- the leftover events come in some order, and are then sorted
  have hperm : (o.ids .leftover full).Perm (o'.ids .leftover full) :=
    Multiset.coe_eq_coe.mp ((o.ids_val _ _).trans (o'.ids_val _ _).symm)
  unfold resolveConflicts
  simp only [eval_bind]
  refine Agree.bind ⟨(hs o hfuel).trans (hs o' hfuel').symm, by rw [hs o hfuel]; simp⟩ fun sorted _ => ?_
  refine (iterativeAuthChecks_agree o o' true sorted unconflicted).bind fun resolved _ => ?_
  refine (mainlineSort_agree hcost env.roomId (hperm.filter _) _ hfuel.pos hfuel'.pos hfuel.cost hfuel'.cost).bind
    fun leftover _ => ?_
  exact (iterativeAuthChecks_agree o o' false leftover resolved).bind fun _ _ => .refl (by simp)

end Conflicts

/-! ## The whole run -/

section Run

variable {env : Env} {cost : String → ℕ} {stateSets : List StateMap}

variable {o : Orders} {fuel : ℕ}

theorem outcome_resolve {full : Finset String} (hne : ¬ (seperate o stateSets).2.keys = ∅)
    (hfull : conflictedAndDifference env o fuel stateSets = .ok full) :
    (RoomsChecked env o full → outcome (resolveEventsWithStore env o fuel stateSets) =
        outcome (eval env.look (resolveConflicts env o fuel (seperate o stateSets).1 (knownEvents env o full)))) ∧
      (¬ RoomsChecked env o full → outcome (resolveEventsWithStore env o fuel stateSets) = some none) := by
  unfold resolveEventsWithStore
  rw [if_neg hne, hfull]
  constructor
  · intro hrooms
    have hkeys : ∀ id ∈ knownEvents env o full, id ∈ {id | id ∈ fetchConflicted env o full} :=
      fun id hid => (mem_filter.mp hid).2
    obtain ⟨d, -, -, hrun⟩ := run_eq_eval (ensures_resolveConflicts hkeys o fuel (seperate o stateSets).1).covered
      (faithful_fetchConflicted o full) fun id hid => hid
    show outcome (Except.mapError .raised (checkRooms _ _) >>= _) = _
    rw [hrooms]
    show outcome (run _ (resolveConflicts _ _ _ _ (knownEvents env o full)) _ >>= _) = _
    rw [hrun]
    rcases eval env.look _ with (_ | _) | _ <;> rfl
  · intro hrooms
    show outcome (Except.mapError .raised (checkRooms _ _) >>= _) = _
    cases hc : checkRooms env.roomId (values (fetchConflicted env o full) (o.ids .eventMap)) with
    | ok u => exact absurd hc hrooms
    | error e => rfl

/-- The full conflicted set is computed in every run, and it depends on the set of state sets only. -/
theorem conflictedAndDifference_ok (hcost : env.Pays cost)
    (hstore : env.store.OrderFree env.roomId) (hne : stateSets ≠ []) :
    ∃ full, ∀ o fuel stateSets', Enough env cost fuel → (∀ m, m ∈ stateSets' ↔ m ∈ stateSets) →
      conflictedAndDifference env o fuel stateSets' = .ok full := by
  obtain ⟨d, hd⟩ := getAuthChainDifference_ok hcost hstore hne
  refine ⟨conflictedIds Orders.ascending (seperate Orders.ascending stateSets).2 ∪ d, fun o fuel stateSets' hfuel hmem => ?_⟩
  have hids : conflictedIds o (seperate o stateSets').2 =
      conflictedIds Orders.ascending (seperate Orders.ascending stateSets).2 := by
    ext id
    rw [mem_conflictedIds, mem_conflictedIds, seperate_congr hmem o Orders.ascending]
  unfold conflictedAndDifference
  rw [hd o fuel stateSets' (fun id => hfuel.inFlight) hmem, hids]
  rfl

theorem ne_nil_of_conflicted (h : ¬ (seperate o stateSets).2.keys = ∅) : stateSets ≠ [] := by
  rintro rfl
  refine h (eq_empty_of_forall_notMem fun k hk => ?_)
  obtain ⟨s, hs⟩ := mem_iff.mp (Finmap.mem_keys.mp hk)
  obtain ⟨m, hm, -⟩ := (((seperate_lookup o [] k).2 s).mp hs).1.1
  cases hm

theorem resolve_agree (hcost : env.Pays cost)
    (hstore : env.store.OrderFree env.roomId) {stateSets' : List StateMap} (hmem : ∀ m, m ∈ stateSets' ↔ m ∈ stateSets)
    {o' : Orders} {fuel' : ℕ} (hfuel : Enough env cost fuel) (hfuel' : Enough env cost fuel') :
    Agree (resolveEventsWithStore env o fuel stateSets) (resolveEventsWithStore env o' fuel' stateSets') := by
  have hsep := seperate_congr hmem o' o
  by_cases hempty : (seperate o stateSets).2.keys = ∅
  · unfold resolveEventsWithStore
    rw [if_pos hempty, hsep, if_pos hempty]
    exact .refl (by simp)
  have hempty' : ¬ (seperate o' stateSets').2.keys = ∅ := by rwa [hsep]
  obtain ⟨full, hfull⟩ := conflictedAndDifference_ok hcost hstore (ne_nil_of_conflicted hempty)
  obtain ⟨hok, hraise⟩ := outcome_resolve hempty (hfull o fuel stateSets hfuel fun _ => Iff.rfl)
  obtain ⟨hok', hraise'⟩ := outcome_resolve hempty' (hfull o' fuel' stateSets' hfuel' hmem)
  -- both runs have the same event map
  have hmap : fetchConflicted env o' full = fetchConflicted env o full := ext_lookup fun id => by
    rw [lookup_fetchConflicted, lookup_fetchConflicted]
  have hrooms : RoomsChecked env o' full ↔ RoomsChecked env o full := by
    rw [RoomsChecked, RoomsChecked, checkRooms_ok_iff, checkRooms_ok_iff, hmap]
    simp only [mem_values fun k => o'.mem_ids _, mem_values fun k => o.mem_ids _]
  by_cases hc : RoomsChecked env o full
  · rw [Agree, hok hc, hok' (hrooms.mpr hc), hsep, show knownEvents env o' full = _ by rw [knownEvents, hmap]]
    exact resolveConflicts_agree hcost (allInRoom_of_checkRooms hc) _ hfuel hfuel'
  · rw [Agree, hraise hc, hraise' fun h => hc (hrooms.mp h)]
    simp

theorem resolve_terminates (hcost : env.Pays cost)
    (hfuel : Enough env cost fuel) : outcome (resolveEventsWithStore env o fuel stateSets) ≠ none := by
  by_cases hempty : (seperate o stateSets).2.keys = ∅
  · unfold resolveEventsWithStore
    rw [if_pos hempty]
    simp
  obtain ⟨_, -, hspec⟩ := getAuthChainDifference_spec hcost
  obtain ⟨d, hd, -⟩ := hspec o fuel stateSets (fun id => hfuel.inFlight) (ne_nil_of_conflicted hempty)
  obtain ⟨full, hfull⟩ : ∃ full, conflictedAndDifference env o fuel stateSets = .ok full := by
    rw [conflictedAndDifference, hd]
    exact ⟨_, rfl⟩
  obtain ⟨hok, hraise⟩ := outcome_resolve hempty hfull
  by_cases hc : RoomsChecked env o full
  · rw [hok hc]
    exact (@resolveConflicts_agree env cost _ hcost (allInRoom_of_checkRooms hc) _ o o fuel fuel hfuel hfuel).2
  · rw [hraise hc]
    simp

end Run

/-- **State resolution depends on the set of distinct state sets only.** There is one outcome, a resolved state or an
exception, for all lists with these state sets and all orders of iteration; the runs end. -/
theorem resolve_order_free (env : Env) (hacyclic : env.Acyclic) (hstore : env.store.OrderFree env.roomId)
    (stateSets : List StateMap) :
    ∃ (bound : ℕ) (result : Option StateMap), ∀ (o : Orders) (fuel : ℕ) (stateSets' : List StateMap),
      bound ≤ fuel → (∀ m, m ∈ stateSets' ↔ m ∈ stateSets) →
        outcome (resolveEventsWithStore env o fuel stateSets') = some result := by
  obtain ⟨cost, hcost⟩ := hacyclic.exists_cost
  obtain ⟨bound, hbound⟩ := exists_enough env cost
  have hrun := fun o fuel stateSets' hfuel hmem => @resolve_agree env cost stateSets .ascending bound hcost hstore
    stateSets' hmem o fuel (hbound bound le_rfl) (hbound fuel hfuel)
  obtain ⟨result, hresult⟩ := Option.ne_none_iff_exists'.mp (hrun .ascending bound stateSets le_rfl fun _ => Iff.rfl).2
  refine ⟨bound, result, fun o fuel stateSets' hfuel hmem => ?_⟩
  rw [← (hrun o fuel stateSets' hfuel hmem).1, hresult]

/-! ### A room with two topics

Two forks of a room, each with new power levels and a topic set under them. -/

namespace Topic

def create : Event := .ofContent "$create" EventTypes.create "" "@admin:hs" [("creator", .str "@admin:hs")]

def join : Event :=
  { Event.ofContent "$join" EventTypes.member "@admin:hs" "@admin:hs" [("membership", .str "join")] with
    authEventIds := ["$create"] }

def powerLevels (eventId : String) (stateDefault : Int) : Event :=
  { Event.ofContent eventId EventTypes.powerLevels "" "@admin:hs"
      [("users", .obj [("@admin:hs", .int 100)]), ("state_default", .int stateDefault)] with
    authEventIds := ["$create", "$join"] }

def topic (eventId powerLevels text : String) (ts : Int) : Event :=
  { Event.ofContent eventId "m.room.topic" "" "@admin:hs" [("topic", .str text)] with
    authEventIds := ["$create", "$join", powerLevels], originServerTs := ts }

def events : List Event :=
  [create, join, powerLevels "$p1" 50, powerLevels "$p2" 60, topic "$t1" "$p1" "one" 5, topic "$t2" "$p2" "two" 3]

def fork (powerLevels topic : String) : StateMap :=
  ((((∅ : StateMap).insert (EventTypes.create, "") "$create").insert (EventTypes.member, "@admin:hs") "$join").insert
    (EventTypes.powerLevels, "") powerLevels).insert ("m.room.topic", "") topic

/-- The forks hold every auth event they need, so their auth chains differ where the forks do. -/
def env : Env where
  roomId := "!r:hs"
  roomVersion := .v10
  eventMap := none
  store := ⟨.ofList events, fun _ sets => (unionMinusIntersection sets).toOption.getD ∅⟩
  authCheck event authEvents := (EventAuth.checkAgainst EventAuth.Deps.offline event authEvents).isOk

/-- The position of the event in its room. -/
def rank (id : String) : ℕ := events.findIdx (·.eventId = id)

theorem env_acyclic : env.Acyclic := Env.acyclic_of_rank rank (by decide +kernel)

theorem env_orderFree : env.store.OrderFree env.roomId := by
  intro sets sets' h
  by_cases hne : sets = []
  · subst hne
    rw [show sets' = [] from eq_nil_iff_forall_not_mem.mpr fun s hs => by simpa using (h s).mpr hs]
  obtain ⟨d, hd, hmem⟩ := unionMinusIntersection_ok hne
  obtain ⟨d', hd', hmem'⟩ := unionMinusIntersection_ok (l := sets') fun h' =>
    hne (eq_nil_iff_forall_not_mem.mpr fun s hs => by simpa [h'] using (h s).mp hs)
  show (unionMinusIntersection sets).toOption.getD ∅ = (unionMinusIntersection sets').toOption.getD ∅
  rw [hd, hd']
  exact ext fun x => ((hmem x).trans (by simp only [h])).trans (hmem' x).symm

theorem resolve_forks :
    resolveEventsWithStore env .ascending 20 [fork "$p1" "$t1", fork "$p2" "$t2"] = .ok (fork "$p2" "$t2") :=
  ok_of_outcome (by decide +kernel)

theorem resolve_order_free_forks :
    ∃ (bound : ℕ) (result : Option StateMap), ∀ (o : Orders) (fuel : ℕ) (stateSets' : List StateMap), bound ≤ fuel →
      (∀ m, m ∈ stateSets' ↔ m ∈ [fork "$p1" "$t1", fork "$p2" "$t2"]) →
        outcome (resolveEventsWithStore env o fuel stateSets') = some result :=
  resolve_order_free env env_acyclic env_orderFree _

end Topic

/-! ## What the resolved state holds -/

section Sound

variable {env : Env} {stateSets : List StateMap}

def OneKey (stateSets : List StateMap) : Prop :=
  ∀ m ∈ stateSets, ∀ m' ∈ stateSets, ∀ k k' id, m.lookup k = some id → m'.lookup k' = some id → k = k'

/-- What is required of the state resolved from some state sets. -/
structure Sound (env : Env) (o : Orders) (fuel : ℕ) (stateSets : List StateMap) (resolved : StateMap) : Prop where
  /-- Unconflicted keys keep their events. -/
  unconflicted : ∀ k id, Unconflicted stateSets k id → resolved.lookup k = some id
  /-- Every other key has an event of the full conflicted set with that key, not rejected and accepted by a pass. -/
  accepted : ∀ k id, resolved.lookup k = some id → (∀ u, ¬ Unconflicted stateSets k u) →
    ∃ full, conflictedAndDifference env o fuel stateSets = .ok full ∧ id ∈ full ∧
      AcceptedByPass env o fuel (seperate o stateSets).1 (knownEvents env o full) k id
  /-- No event that the state sets disagree on stands under an unconflicted key. -/
  disjoint : OneKey stateSets → ∀ k u k' id, Unconflicted stateSets k u → Conflicted stateSets k' →
    id ∈ candidates stateSets k' → resolved.lookup k ≠ some id

variable {resolved : StateMap}

theorem disjoint_of_unconflicted (h : ∀ k id, Unconflicted stateSets k id → resolved.lookup k = some id)
    (hone : OneKey stateSets) {k k' : StateKey} {u id : String} (hu : Unconflicted stateSets k u)
    (hc : Conflicted stateSets k') (hid : id ∈ candidates stateSets k') : resolved.lookup k ≠ some id := by
  intro hk
  cases (h k u hu).symm.trans hk
  obtain ⟨m', hm', hid'⟩ := mem_filterMap.mp (mem_toFinset.mp hid)
  obtain ⟨m, hm⟩ := exists_mem_of_ne_nil _ hu.1
  have := hone m hm m' hm' k k' u (hu.2 m hm) hid'
  exact hc.2 u (this ▸ hu)

theorem resolve_cases {o : Orders} {fuel : ℕ} (h : resolveEventsWithStore env o fuel stateSets = .ok resolved) :
    resolved = (seperate o stateSets).1 ∨ ∃ full, conflictedAndDifference env o fuel stateSets = .ok full ∧
      eval env.look (resolveConflicts env o fuel (seperate o stateSets).1 (knownEvents env o full)) = .ok resolved := by
  by_cases hempty : (seperate o stateSets).2.keys = ∅
  · left
    unfold resolveEventsWithStore at h
    rw [if_pos hempty] at h
    cases h
    rfl
  right
  cases hfull : conflictedAndDifference env o fuel stateSets with
  | error e =>
    unfold resolveEventsWithStore at h
    rw [if_neg hempty, hfull] at h
    cases h
  | ok full =>
    obtain ⟨hok, hraise⟩ := outcome_resolve hempty hfull
    rw [h] at hok hraise
    by_cases hc : RoomsChecked env o full
    · exact ⟨full, rfl, ok_of_outcome (hok hc).symm⟩
    · exact absurd (hraise hc) (by simp)

theorem resolveConflicts_sound {o : Orders} {fuel : ℕ} {full : Finset String} {unconflicted : StateMap}
    (h : eval env.look (resolveConflicts env o fuel unconflicted full) = .ok resolved) (k : StateKey) :
    (∀ u, unconflicted.lookup k = some u → resolved.lookup k = some u) ∧
      ∀ id, resolved.lookup k = some id → unconflicted.lookup k = none →
        id ∈ full ∧ AcceptedByPass env o fuel unconflicted full k id :=
  (ensures_resolveConflicts (fun _ hid => mem_coe.mpr hid) o fuel unconflicted).post resolved h k

end Sound

/-- **The resolved state is sound**, whatever the order of iteration and the auth graph; without cycles in the auth
graph every run ends. -/
theorem resolve_sound (env : Env) (stateSets : List StateMap) :
    (∀ o fuel resolved, resolveEventsWithStore env o fuel stateSets = .ok resolved → Sound env o fuel stateSets resolved) ∧
      (env.Acyclic → ∃ bound, ∀ o fuel, bound ≤ fuel → outcome (resolveEventsWithStore env o fuel stateSets) ≠ none) := by
  constructor
  · intro o fuel resolved h
    have hsep := seperate_lookup o stateSets
    have hnone : ∀ k, (∀ u, ¬ Unconflicted stateSets k u) → (seperate o stateSets).1.lookup k = none := by
      intro k hk
      cases hl : (seperate o stateSets).1.lookup k with
      | none => rfl
      | some u => exact absurd (((hsep k).1 u).mp hl) (hk u)
    have hun : ∀ k id, Unconflicted stateSets k id → resolved.lookup k = some id := by
      intro k id hid
      rcases resolve_cases h with rfl | ⟨full, -, hrun⟩
      · exact ((hsep k).1 id).mpr hid
      · exact (resolveConflicts_sound hrun k).1 id (((hsep k).1 id).mpr hid)
    refine ⟨hun, fun k id hk hcon => ?_, fun hone k u k' id => disjoint_of_unconflicted hun hone⟩
    rcases resolve_cases h with rfl | ⟨full, hfull, hrun⟩
    · exact absurd (((hsep k).1 id).mp hk) (hcon id)
    · obtain ⟨hmem, hacc⟩ := (resolveConflicts_sound hrun k).2 id hk (hnone k hcon)
      exact ⟨full, hfull, (mem_filter.mp hmem).1, hacc⟩
  · intro hacyclic
    obtain ⟨cost, hcost⟩ := hacyclic.exists_cost
    obtain ⟨bound, hbound⟩ := exists_enough env cost
    exact ⟨bound, fun o fuel hfuel => resolve_terminates hcost (hbound fuel hfuel)⟩

/-- The forks are resolved, and the result is sound. -/
theorem Topic.resolve_sound_forks :
    Sound Topic.env .ascending 20 [Topic.fork "$p1" "$t1", Topic.fork "$p2" "$t2"] (Topic.fork "$p2" "$t2") ∧
      ∃ bound, ∀ o fuel, bound ≤ fuel →
        outcome (resolveEventsWithStore Topic.env o fuel [Topic.fork "$p1" "$t1", Topic.fork "$p2" "$t2"]) ≠ none :=
  ⟨(resolve_sound _ _).1 _ _ _ Topic.resolve_forks, (resolve_sound _ _).2 Topic.env_acyclic⟩

end Synapse.StateRes
