import Synapse.StateRes.AuthChecks
import Synapse.StateRes.V1.Conflicts

/-!
# Synapse.StateRes.V1.Stages — resolving the conflicts of v1

`_resolve_state_events` of `synapse/state/v1.py`.  Conflicts are resolved in stages: power levels, join rules,
memberships, and the rest, where each stage adds what it resolves to the auth events of the next one.

* `Env`: what one resolution is given.
* `check_congr`: the auth rules do not see the order of the auth events.
* `resolveAuthEvents_congr`, `resolveNormalEvents_congr`: the order of the candidates does not matter, if the hash tells
  them apart.
* `resolveStateEvents_inv`, `resolveStateEvents_congr`: the stages choose one candidate for every key, in one way only.
-/

namespace Synapse.StateRes.V1

open Lib List Finmap

structure Env where
  roomId : String
  roomVersion : RoomVersion
  /-- `event_map`, the events in flight -/
  eventMap : Option Events
  stateMapFactory : Finset String → Events
  deps : EventAuth.Deps
  /-- `int(e.depth)` -/
  depth : Event → ℤ
  /-- `hashlib.sha1(event_id.encode("utf-8")).hexdigest()` -/
  sha1 : String → String

/-- A dict from state key to the events that are in conflict. -/
abbrev ConflictedEvents := Finmap fun _ : StateKey => List Event

/-! ## The candidates of a key -/

section Model

variable (env : Env) (o : Orders)

/-- `event_map` -/
def Env.inFlight : EventMap := env.eventMap.elim ∅ Events.map

/-- The key of `_ordered_events`. -/
def sortKey (e : Event) : ℤ ×ₗ String := toLex (-env.depth e, env.sha1 e.eventId)

def orderedEvents (events : List Event) : List Event := events.insertionSort fun a b => sortKey env a ≤ sortKey env b

/-- `event_auth.check_state_dependent_auth_rules(event, auth_events.values())` -/
def check (authEvents : AuthMap) (event : Event) : Except Exc Bool :=
  EventAuth.checkStateDependentAuthRules env.deps event (values authEvents (o.keys (.authEvents event.eventId)).iter)

/-- The loop of `_resolve_auth_events`. -/
def resolveAuthLoop (authEvents : AuthMap) (prevEvent : Event) : List Event → Except Exc Event
  | [] => pure prevEvent
  | event :: rest => do
    let stateKey ← prevEvent.stateKeyAttr
    let authEvents := authEvents.insert (prevEvent.type, stateKey) prevEvent
    match check env o authEvents event with
    | .ok _ => resolveAuthLoop authEvents event rest
    | .error e => if e.isAuthError then pure prevEvent else throw e

def authKeys (events : List Event) : Except Exc (Finset StateKey) :=
  gather (EventAuth.authTypesForEvent env.roomVersion) (fun keys _ sel => keys ∪ selectedKeys sel) ∅ events

/-- `_resolve_auth_events`, for two events at least. -/
def resolveAuthEvents (authEvents : AuthMap) (events : List Event) : Except Exc Event := do
  let keys ← authKeys env events
  match (orderedEvents env events).reverse with
  | [] => throw .indexError
  | prevEvent :: rest => resolveAuthLoop env o (restrict (fun k => decide (k ∈ keys)) authEvents) prevEvent rest

/-- The loop of `_resolve_normal_events`; the last event is returned if they all fail. -/
def resolveNormalLoop (authEvents : AuthMap) (event : Event) : List Event → Except Exc Event
  | [] =>
    match check env o authEvents event with
    | .ok _ => pure event
    | .error e => if e.isAuthError then pure event else throw e
  | next :: rest =>
    match check env o authEvents event with
    | .ok _ => pure event
    | .error e => if e.isAuthError then resolveNormalLoop authEvents next rest else throw e

/-- `_resolve_normal_events`.  Without events the name `event` would not be bound. -/
def resolveNormalEvents (authEvents : AuthMap) (events : List Event) : Except Exc Event :=
  match orderedEvents env events with
  | [] => throw (.exception [.text "UnboundLocalError"])
  | event :: rest => resolveNormalLoop env o authEvents event rest

/-! ## The stages -/

/-- `resolved_state[key] = resolve(events)` -/
def resolveKey (resolve : List Event → Except Exc Event) (conflicted : ConflictedEvents) (key : StateKey) :
    Except Exc (Option Event) :=
  match conflicted.lookup key with
  | none => pure none
  | some events => do pure (some (← resolve events))

def powerKey : StateKey := (EventTypes.powerLevels, "")

/-- `_resolve_state_events`.  The keys of a dict are distinct, so that `key not in resolved_state` can be seen before the
last loop. -/
def resolveStateEvents (conflicted : ConflictedEvents) (authEvents : AuthMap) : Except Exc AuthMap := do
  let resolved ← assign (resolveKey (resolveAuthEvents env o authEvents) conflicted) ∅ [powerKey]
  let authEvents := update authEvents resolved
  let resolved ← assign (resolveKey (resolveAuthEvents env o authEvents) conflicted) resolved
    (((o.keys .joinRules).iter conflicted.keys).filter (·.1 = EventTypes.joinRules))
  let authEvents := update authEvents resolved
  let resolved ← assign (resolveKey (resolveAuthEvents env o authEvents) conflicted) resolved
    (((o.keys .members).iter conflicted.keys).filter (·.1 = EventTypes.member))
  let authEvents := update authEvents resolved
  assign (resolveKey (resolveNormalEvents env o authEvents) conflicted) resolved
    (((o.keys .others).iter conflicted.keys).filter (· ∉ resolved))

end Model

/-! ## The auth rules -/

/-- Every event is filed under its own type and state key. -/
def Keyed (authEvents : AuthMap) : Prop := ∀ k e, authEvents.lookup k = some e → e.key? = some k

section Check

variable {env : Env} {authEvents entries : AuthMap} {event prevEvent : Event}

section

variable (h : Keyed authEvents)
include h

theorem Keyed.insert {k : StateKey} (he : event.key? = some k) : Keyed (authEvents.insert k event) :=
  insert_all h he

theorem Keyed.update (h' : Keyed entries) : Keyed (update authEvents entries) := by
  intro k e hk
  rw [lookup_update, Option.orElse_eq_some] at hk
  rcases hk with hk | ⟨-, hk⟩
  · exact h' k e hk
  · exact h k e hk

theorem Keyed.restrict (p : StateKey → Bool) : Keyed (restrict p authEvents) := by
  intro k e hk
  rw [lookup_restrict] at hk
  split at hk
  · exact h k e hk
  · cases hk

theorem authDict_values (order : SetOrder StateKey) :
    EventAuth.authDict (values authEvents order.iter) = fun k => authEvents.lookup k := by
  funext k
  have hmem : ∀ {e : Event}, e ∈ values authEvents order.iter ↔ ∃ k, authEvents.lookup k = some e :=
    mem_values fun k => order.mem _ k
  unfold EventAuth.authDict
  cases hk : authEvents.lookup k with
  | none =>
    refine find?_eq_none.mpr fun e he hkey => ?_
    obtain ⟨k', hk'⟩ := hmem.mp (mem_reverse.mp he)
    have hkey := (h k' e hk').symm.trans (of_decide_eq_true hkey)
    cases hkey
    cases hk.symm.trans hk'
  | some e =>
    cases hfind : (values authEvents order.iter).reverse.find? fun e => e.key? = some k with
    | none =>
      have hnone := find?_eq_none.mp hfind e (mem_reverse.mpr (hmem.mpr ⟨k, hk⟩))
      exact absurd (decide_eq_true (h k e hk)) hnone
    | some e' =>
      obtain ⟨k', hk'⟩ := hmem.mp (mem_reverse.mp (mem_of_find?_eq_some hfind))
      have hfound := find?_some hfind
      rw [decide_eq_true_eq] at hfound
      have hkey := (h k' e' hk').symm.trans hfound
      cases hkey
      exact hk'.symm.trans hk

theorem check_congr (o o' : Orders) (event : Event) : check env o authEvents event = check env o' authEvents event := by
  have hstate : ∀ order : SetOrder StateKey, (values authEvents order.iter).all Event.isState = true := by
    intro order
    refine all_eq_true.mpr fun e he => ?_
    obtain ⟨k, hk⟩ := (mem_values fun k => order.mem _ k).mp he
    obtain ⟨stateKey, hs, -⟩ := Option.map_eq_some_iff.mp (h k e hk)
    rw [Event.isState, hs]
    rfl
  unfold check EventAuth.checkStateDependentAuthRules
  rw [hstate, hstate, authDict_values h, authDict_values h]

end

theorem key?_of_stateKeyAttr {e : Event} {stateKey : String} (h : e.stateKeyAttr = .ok stateKey) :
    e.key? = some (e.type, stateKey) := by
  rw [Event.key?, Event.stateKeyAttr_ok.mp h]
  rfl

theorem resolveAuthLoop_congr (h : Keyed authEvents) (o o' : Orders) (l : List Event) :
    resolveAuthLoop env o authEvents prevEvent l = resolveAuthLoop env o' authEvents prevEvent l := by
  induction l generalizing authEvents prevEvent with
  | nil => rfl
  | cons event rest ih =>
    unfold resolveAuthLoop
    cases hs : prevEvent.stateKeyAttr with
    | error e => rfl
    | ok stateKey =>
      have hkeyed := h.insert (key?_of_stateKeyAttr hs)
      show (match check env o (authEvents.insert (prevEvent.type, stateKey) prevEvent) event with
          | .ok _ => resolveAuthLoop env o (authEvents.insert (prevEvent.type, stateKey) prevEvent) event rest
          | .error e => if e.isAuthError then pure prevEvent else throw e) = _
      rw [check_congr hkeyed o o', ih hkeyed]
      rfl

theorem resolveAuthLoop_mem {o : Orders} {l : List Event} (h : resolveAuthLoop env o authEvents prevEvent l = .ok event) :
    event ∈ prevEvent :: l := by
  induction l generalizing authEvents prevEvent with
  | nil =>
    cases h
    exact mem_cons_self
  | cons next rest ih =>
    obtain ⟨stateKey, -, h⟩ := exc_bind_ok h
    dsimp only at h
    split at h
    · exact mem_cons_of_mem _ (ih h)
    split at h
    · cases h
      exact mem_cons_self
    · cases h

theorem resolveNormalLoop_congr (h : Keyed authEvents) (o o' : Orders) (l : List Event) :
    resolveNormalLoop env o authEvents event l = resolveNormalLoop env o' authEvents event l := by
  induction l generalizing event with
  | nil =>
    unfold resolveNormalLoop
    rw [check_congr h o o']
  | cons next rest ih =>
    unfold resolveNormalLoop
    rw [check_congr h o o', ih]

theorem resolveNormalLoop_mem {o : Orders} {l : List Event} {first : Event}
    (h : resolveNormalLoop env o authEvents first l = .ok event) : event ∈ first :: l := by
  fun_induction resolveNormalLoop env o authEvents first l with
  | case3 | case6 => cases h
  | case5 first next rest e _ hauth ih => exact mem_cons_of_mem _ (ih h)
  | _ =>
    cases h
    exact mem_cons_self

end Check

/-! ## The candidates of a key -/

section Candidates

variable {env : Env} {authEvents : AuthMap} {events events' : List Event} {event : Event}

theorem mem_gathered_authKeys {k : StateKey} (s : Finset StateKey) :
    k ∈ gathered (EventAuth.authTypesForEvent env.roomVersion) (fun keys _ sel => keys ∪ selectedKeys sel) s events ↔
      k ∈ s ∨ ∃ e ∈ events, ∃ sel, EventAuth.authTypesForEvent env.roomVersion e = .ok sel ∧ k ∈ selectedKeys sel := by
  refine foldl_iff (P := (k ∈ ·)) (fun s e => ?_) events s
  cases he : EventAuth.authTypesForEvent env.roomVersion e <;> simp [Except.toOption]

theorem authKeys_congr (hperm : events.Perm events') : (authKeys env events).toOption = (authKeys env events').toOption := by
  refine toOption_gather_congr (fun e => hperm.mem_iff) (fun _ _ => rfl) ∅ (Finset.ext fun k => ?_)
  simp only [mem_gathered_authKeys, hperm.mem_iff]

theorem orderedEvents_congr (hperm : events.Perm events')
    (hkey : ∀ a ∈ events, ∀ b ∈ events, sortKey env a = sortKey env b → a = b) :
    orderedEvents env events = orderedEvents env events' :=
  insertionSort_eq_of_perm (sortKey env) hperm hkey

theorem mem_orderedEvents : event ∈ orderedEvents env events ↔ event ∈ events := mem_insertionSort _

theorem resolveAuthEvents_congr (hperm : events.Perm events')
    (hkey : ∀ a ∈ events, ∀ b ∈ events, sortKey env a = sortKey env b → a = b) (h : Keyed authEvents) (o o' : Orders) :
    (resolveAuthEvents env o authEvents events).toOption = (resolveAuthEvents env o' authEvents events').toOption := by
  refine toOption_bind_congr (authKeys_congr hperm) fun keys _ => ?_
  rw [orderedEvents_congr hperm hkey]
  cases (orderedEvents env events').reverse with
  | nil => rfl
  | cons prevEvent rest => exact congrArg Except.toOption (resolveAuthLoop_congr (h.restrict _) o o' rest)

theorem resolveAuthEvents_mem {o : Orders} (h : resolveAuthEvents env o authEvents events = .ok event) : event ∈ events := by
  obtain ⟨keys, -, h⟩ := exc_bind_ok h
  split at h
  · cases h
  rename_i prevEvent rest hreverse
  have hmem := resolveAuthLoop_mem h
  rw [← hreverse, mem_reverse] at hmem
  exact mem_orderedEvents.mp hmem

theorem resolveNormalEvents_congr (hperm : events.Perm events')
    (hkey : ∀ a ∈ events, ∀ b ∈ events, sortKey env a = sortKey env b → a = b) (h : Keyed authEvents) (o o' : Orders) :
    resolveNormalEvents env o authEvents events = resolveNormalEvents env o' authEvents events' := by
  unfold resolveNormalEvents
  rw [orderedEvents_congr hperm hkey]
  cases orderedEvents env events' with
  | nil => rfl
  | cons event rest => exact resolveNormalLoop_congr h o o' rest

theorem resolveNormalEvents_mem {o : Orders} (h : resolveNormalEvents env o authEvents events = .ok event) :
    event ∈ events := by
  unfold resolveNormalEvents at h
  split at h
  · cases h
  rename_i first rest hordered
  have hmem := resolveNormalLoop_mem h
  rw [← hordered] at hmem
  exact mem_orderedEvents.mp hmem

end Candidates

/-! ## The stages -/

/-- The candidates of a key have that key, and the order tells them apart. -/
structure Conflicting (env : Env) (conflicted : ConflictedEvents) : Prop where
  keyed : ∀ {k : StateKey} {events : List Event}, conflicted.lookup k = some events → ∀ e ∈ events, e.key? = some k
  distinct : ∀ {k : StateKey} {events : List Event}, conflicted.lookup k = some events →
    ∀ a ∈ events, ∀ b ∈ events, sortKey env a = sortKey env b → a = b

structure Same (conflicted conflicted' : ConflictedEvents) : Prop where
  mem : ∀ k, k ∈ conflicted ↔ k ∈ conflicted'
  perm : ∀ {k : StateKey} {events events' : List Event}, conflicted.lookup k = some events →
    conflicted'.lookup k = some events' → events.Perm events'

/-- What has been resolved is one of the candidates. -/
def Chosen (conflicted : ConflictedEvents) (resolved : AuthMap) : Prop :=
  ∀ k e, resolved.lookup k = some e → ∃ events, conflicted.lookup k = some events ∧ e ∈ events

section Stages

variable {env : Env} {conflicted conflicted' : ConflictedEvents} {resolved resolved' authEvents : AuthMap}
  {resolve resolve' : List Event → Except Exc Event} {keys keys' : List StateKey}

theorem chosen_empty (conflicted : ConflictedEvents) : Chosen conflicted ∅ := by
  intro k e hk
  cases hk

theorem Chosen.keyed (h : Chosen conflicted resolved) (hc : Conflicting env conflicted) : Keyed resolved := by
  intro k e hk
  obtain ⟨events, hevents, he⟩ := h k e hk
  exact hc.keyed hevents e he

theorem resolveKey_ok {k : StateKey} {e : Event} (h : resolveKey resolve conflicted k = .ok (some e)) :
    ∃ events, conflicted.lookup k = some events ∧ resolve events = .ok e := by
  unfold resolveKey at h
  split at h
  · cases h
  rename_i events hevents
  obtain ⟨e', he', h⟩ := exc_bind_ok h
  cases h
  exact ⟨events, hevents, he'⟩

/-- **A stage** resolves its keys to candidates and keeps what has been resolved. -/
theorem stage_inv (hmem : ∀ {events : List Event} {e : Event}, resolve events = .ok e → e ∈ events)
    (h : assign (resolveKey resolve conflicted) resolved keys = .ok resolved') (hchosen : Chosen conflicted resolved) :
    Chosen conflicted resolved' ∧ (∀ k ∈ resolved, k ∈ resolved') ∧ ∀ k ∈ keys, k ∈ conflicted → k ∈ resolved' := by
  obtain ⟨hok, rfl⟩ := assign_inv h
  refine ⟨fun k e hk => ?_, fun k hk => ?_, fun k hk hc => ?_⟩
  · rw [lookup_setItems] at hk
    split at hk
    · rename_i hmemk
      rcases Option.or_eq_some_iff.mp hk with hk | ⟨-, hk⟩
      · obtain ⟨b, hb⟩ := hok k hmemk
        rw [hb] at hk
        cases hk
        obtain ⟨events, hevents, he⟩ := resolveKey_ok hb
        exact ⟨events, hevents, hmem he⟩
      · exact hchosen k e hk
    · exact hchosen k e hk
  · obtain ⟨e, he⟩ := mem_iff.mp hk
    refine mem_iff.mpr ?_
    rw [lookup_setItems, he]
    split
    · cases (resolveKey resolve conflicted k).toOption.join with
      | none => exact ⟨e, rfl⟩
      | some e' => exact ⟨e', rfl⟩
    · exact ⟨e, rfl⟩
  · obtain ⟨events, hevents⟩ := mem_iff.mp hc
    obtain ⟨b, hb⟩ := hok k hk
    refine mem_iff.mpr ?_
    rw [lookup_setItems, if_pos hk, hb]
    simp only [resolveKey, hevents] at hb
    obtain ⟨e, -, hb⟩ := exc_bind_ok hb
    cases hb
    exact ⟨e, rfl⟩

theorem stage_congr (hsame : Same conflicted conflicted') (hkeys : ∀ k, k ∈ keys ↔ k ∈ keys')
    (hresolve : ∀ {k : StateKey} {events events' : List Event}, conflicted.lookup k = some events →
      events.Perm events' → (resolve events).toOption = (resolve' events').toOption) :
    (assign (resolveKey resolve conflicted) resolved keys).toOption =
      (assign (resolveKey resolve' conflicted') resolved keys').toOption := by
  refine toOption_assign_congr resolved hkeys fun k _ => ?_
  unfold resolveKey
  cases hc : conflicted.lookup k with
  | none =>
    have hnone : conflicted'.lookup k = none :=
      lookup_eq_none.mpr fun hk => lookup_eq_none.mp hc ((hsame.mem k).mpr hk)
    rw [hnone]
  | some events =>
    obtain ⟨events', hevents'⟩ := mem_iff.mp ((hsame.mem k).mp (mem_iff.mpr ⟨events, hc⟩))
    rw [hevents']
    exact toOption_bind_congr (hresolve hc (hsame.perm hc hevents')) fun _ _ => rfl

/-- **`_resolve_state_events`** resolves every key to one of its candidates. -/
theorem resolveStateEvents_inv {o : Orders} (h : resolveStateEvents env o conflicted authEvents = .ok resolved) :
    Chosen conflicted resolved ∧ ∀ k ∈ conflicted, k ∈ resolved := by
  obtain ⟨power, hpower, h⟩ := exc_bind_ok h
  obtain ⟨rules, hrules, h⟩ := exc_bind_ok h
  obtain ⟨members, hmembers, h⟩ := exc_bind_ok h
  have hp := (stage_inv resolveAuthEvents_mem hpower (chosen_empty conflicted)).1
  have hr := (stage_inv resolveAuthEvents_mem hrules hp).1
  have hm := (stage_inv resolveAuthEvents_mem hmembers hr).1
  obtain ⟨hchosen, hkept, hrest⟩ := stage_inv resolveNormalEvents_mem h hm
  refine ⟨hchosen, fun k hk => ?_⟩
  by_cases hkm : k ∈ members
  · exact hkept k hkm
  · refine hrest k (mem_filter.mpr ⟨?_, decide_eq_true hkm⟩) hk
    exact ((o.keys .others).mem _ k).mpr (Finmap.mem_keys.mpr hk)

theorem Same.mem_filter_iter (hsame : Same conflicted conflicted') (order order' : SetOrder StateKey)
    (p : StateKey → Bool) (k : StateKey) :
    k ∈ (order.iter conflicted.keys).filter p ↔ k ∈ (order'.iter conflicted'.keys).filter p := by
  rw [mem_filter, mem_filter, order.mem, order'.mem, Finmap.mem_keys, Finmap.mem_keys, hsame.mem]

theorem resolveStateEvents_congr (hsame : Same conflicted conflicted') (hc : Conflicting env conflicted)
    (hauth : Keyed authEvents) (o o' : Orders) :
    (resolveStateEvents env o conflicted authEvents).toOption =
      (resolveStateEvents env o' conflicted' authEvents).toOption := by
  have hstage : ∀ {authEvents : AuthMap}, Keyed authEvents → ∀ {k : StateKey} {events events' : List Event},
      conflicted.lookup k = some events → events.Perm events' →
        (resolveAuthEvents env o authEvents events).toOption = (resolveAuthEvents env o' authEvents events').toOption :=
    fun hauth _ _ _ hk hperm => resolveAuthEvents_congr hperm (hc.distinct hk) hauth o o'
  refine toOption_bind_congr (stage_congr hsame (fun _ => Iff.rfl) (hstage hauth)) fun power hpower => ?_
  have hp := (stage_inv resolveAuthEvents_mem hpower (chosen_empty conflicted)).1
  have hauth := hauth.update (hp.keyed hc)
  refine toOption_bind_congr (stage_congr hsame (hsame.mem_filter_iter _ _ _) (hstage hauth)) fun rules hrules => ?_
  have hr := (stage_inv resolveAuthEvents_mem hrules hp).1
  have hauth := hauth.update (hr.keyed hc)
  refine toOption_bind_congr (stage_congr hsame (hsame.mem_filter_iter _ _ _) (hstage hauth)) fun members hmembers => ?_
  have hm := (stage_inv resolveAuthEvents_mem hmembers hr).1
  have hauth := hauth.update (hm.keyed hc)
  refine stage_congr hsame (hsame.mem_filter_iter _ _ _) fun hk hperm => ?_
  rw [resolveNormalEvents_congr hperm (hc.distinct hk) hauth o o']

end Stages

end Synapse.StateRes.V1
