import Synapse.StateRes.Resolve
import Synapse.StateRes.V1.Stages

/-!
# Synapse.StateRes.V1.Resolve — `resolve_events_with_store` in v1

State resolution of room version 1 as a whole, `synapse/state/v1.py`.

* `createAuthEvents_congr`, `resolveWithState_congr`, `resolveConflicts_congr`: no order matters.
* `resolveConflicts_sound`: what the resolved state has for a key.
* **`resolve_v1`**: the order of the state sets does not matter, unconflicted entries stay, and a conflicted key gets one of
  its candidates, if the event of one can be had.
* `Forks.key_dropped`: a conflicted key none of whose events can be had is not in the resolved state.
-/

namespace Synapse.StateRes.V1

open Lib List Finmap

section Model

variable (env : Env) (o : Orders) (unconflicted : StateMap) (conflicted : Conflicts)

/-- `{event_id for event_ids in conflicted_state.values() for event_id in event_ids}` -/
def neededEvents : Finset String :=
  conflicted.keys.biUnion fun key => (conflicted.lookup key).getD ∅

/-- `auth_events[key] = unconflicted_state[key]`, if the key is not there yet. -/
def addAuthEventId (unconflicted authEvents : StateMap) (key : StateKey) : StateMap :=
  if key ∈ authEvents then authEvents
  else match unconflicted.lookup key with
    | some authEventId => if authEventId = "" then authEvents else authEvents.insert key authEventId
    | none => authEvents

/-- The auth types of a candidate, if its event is at hand. -/
def candidateAuthTypes (stateMap : EventMap) (eventId : String) : Except Exc (Finset StateKey) :=
  match stateMap.lookup eventId with
  | none => pure ∅
  | some event => do pure (selectedKeys (← EventAuth.authTypesForEvent env.roomVersion event))

def createAuthEventsFromMaps (stateMap : EventMap) : Except Exc StateMap :=
  let eventIds := ((o.keys .authConflicted).iter conflicted.keys).flatMap fun key =>
    (o.ids (.authIds key)).iter ((conflicted.lookup key).getD ∅)
  gather (candidateAuthTypes env stateMap) (fun authEvents eventId keys =>
    ((o.keys (.authTypes eventId)).iter keys).foldl (addAuthEventId unconflicted) authEvents) ∅ eventIds

/-- The candidates of a key that are at hand. -/
def knownEvents (stateMap : EventMap) (conflicted : Conflicts) (key : StateKey) : List Event :=
  ((o.ids (.events key)).iter ((conflicted.lookup key).getD ∅)).filterMap stateMap.lookup

/-- The first loop of `_resolve_with_state`: a key with one event at hand is not in conflict. -/
def takeSingle (stateMap : EventMap) (conflicted : Conflicts) (acc : ConflictedEvents × StateMap) (key : StateKey) :
    ConflictedEvents × StateMap :=
  match knownEvents o stateMap conflicted key with
  | [] => acc
  | [event] => (acc.1, acc.2.insert key event.eventId)
  | events => (acc.1.insert key events, acc.2)

def resolveWithState (authEventIds : StateMap) (stateMap : EventMap) : Except Exc StateMap := do
  let (conflictedState, newState) :=
    ((o.keys .conflictedIds).iter conflicted.keys).foldl (takeSingle o stateMap conflicted) (∅, unconflicted)
  let authEvents := setItems (fun key => (authEventIds.lookup key).bind stateMap.lookup) ∅
    ((o.keys .authEventIds).iter authEventIds.keys)
  let resolved ← resolveStateEvents env o conflictedState authEvents
  pure (setItems (fun key => (resolved.lookup key).map Event.eventId) newState ((o.keys .resolved).iter resolved.keys))

/-- What `resolve_events_with_store` does after `_seperate`. -/
def resolveConflicts : Except Exc StateMap := do
  let needed := neededEvents conflicted \ env.inFlight.keys
  let stateMap := update (env.stateMapFactory needed).map env.inFlight
  checkRooms env.roomId (values stateMap (o.ids .stateMap).iter)
  let authEvents ← createAuthEventsFromMaps env o unconflicted conflicted stateMap
  let newNeeded := ((authEvents.entries.map fun e => e.2).toFinset \ needed) \ env.inFlight.keys
  let stateMapNew := (env.stateMapFactory newNeeded).map
  checkRooms env.roomId (values stateMapNew (o.ids .stateMapNew).iter)
  resolveWithState env o unconflicted conflicted authEvents (update stateMap stateMapNew)

def resolveEventsWithStore : List StateMap → Except Exc StateMap
  | [stateSet] => pure stateSet
  | stateSets => do
    let (unconflicted, conflicted) ← seperate o stateSets
    resolveConflicts env o unconflicted conflicted

end Model

/-! ## The auth events of the candidates -/

section AuthEvents

variable {env : Env} {unconflicted authEvents : StateMap} {conflicted : Conflicts} {stateMap : EventMap}

/-- What the unconflicted state has for a key. -/
def authEventId (unconflicted : StateMap) (k : StateKey) : Option String := (unconflicted.lookup k).filter (· ≠ "")

theorem lookup_addAuthEventId (key k : StateKey) : (addAuthEventId unconflicted authEvents key).lookup k =
    if k = key then (authEvents.lookup k).or (authEventId unconflicted k) else authEvents.lookup k := by
  unfold addAuthEventId authEventId
  by_cases hk : k = key
  · subst hk
    rw [if_pos rfl]
    cases ha : authEvents.lookup k with
    | some id =>
      rw [if_pos (mem_iff.mpr ⟨id, ha⟩), ha]
      rfl
    | none =>
      rw [if_neg (lookup_eq_none.mp ha)]
      cases hu : unconflicted.lookup k with
      | none => exact ha
      | some id =>
        by_cases hid : id = ""
        · simp [hid, ha, Option.filter]
        · simp [hid, Option.filter]
  · split
    · rfl
    split
    · split
      · rfl
      · exact lookup_insert_of_ne _ hk
    · rfl

theorem lookup_addAuthEventIds (keys : List StateKey) (k : StateKey) :
    (keys.foldl (addAuthEventId unconflicted) authEvents).lookup k =
      if k ∈ keys then (authEvents.lookup k).or (authEventId unconflicted k) else authEvents.lookup k := by
  induction keys generalizing authEvents with
  | nil => rfl
  | cons key keys ih =>
    rw [foldl_cons, ih, lookup_addAuthEventId]
    by_cases hk : k = key
    · by_cases hmem : k ∈ keys <;> cases authEvents.lookup k <;> simp [hk]
    · simp [hk]

theorem mem_candidateIds (o : Orders) (id : String) :
    (id ∈ ((o.keys .authConflicted).iter conflicted.keys).flatMap fun key =>
      (o.ids (.authIds key)).iter ((conflicted.lookup key).getD ∅)) ↔ ∃ k s, conflicted.lookup k = some s ∧ id ∈ s := by
  simp only [mem_flatMap, SetOrder.mem]
  constructor
  · rintro ⟨k, hk, hid⟩
    obtain ⟨s, hs⟩ := mem_iff.mp hk
    rw [hs] at hid
    exact ⟨k, s, hs, hid⟩
  · rintro ⟨k, s, hs, hid⟩
    refine ⟨k, mem_iff.mpr ⟨s, hs⟩, ?_⟩
    rw [hs]
    exact hid

/-- The dict has what the unconflicted state has for these keys. -/
def Selects (unconflicted authEvents : StateMap) (keys : StateKey → Prop) : Prop :=
  ∀ k id, authEvents.lookup k = some id ↔ authEventId unconflicted k = some id ∧ keys k

theorem Selects.add {keys : StateKey → Prop} (h : Selects unconflicted authEvents keys) (added : List StateKey) :
    Selects unconflicted (added.foldl (addAuthEventId unconflicted) authEvents) fun k => keys k ∨ k ∈ added := by
  intro k id
  rw [lookup_addAuthEventIds]
  split_ifs with hk
  · rw [Option.or_eq_some_iff, h]
    constructor
    · rintro (⟨hid, -⟩ | ⟨-, hid⟩)
      · exact ⟨hid, .inr hk⟩
      · exact ⟨hid, .inr hk⟩
    rintro ⟨hid, -⟩
    cases ha : authEvents.lookup k with
    | none => exact .inr ⟨rfl, hid⟩
    | some id' =>
      obtain ⟨hid', hkeys⟩ := (h k id').mp ha
      exact .inl ⟨hid, hkeys⟩
  · rw [h]
    exact and_congr_right fun _ => (or_iff_left hk).symm

theorem Selects.gathered {keys : StateKey → Prop} (h : Selects unconflicted authEvents keys)
    (order : String → SetOrder StateKey) (ids : List String) :
    Selects unconflicted (gathered (candidateAuthTypes env stateMap) (fun authEvents eventId keys =>
      ((order eventId).iter keys).foldl (addAuthEventId unconflicted) authEvents) authEvents ids)
      fun k => keys k ∨ ∃ id ∈ ids, ∃ types, candidateAuthTypes env stateMap id = .ok types ∧ k ∈ types := by
  induction ids generalizing authEvents keys with
  | nil =>
    intro k id
    exact (h k id).trans (by simp)
  | cons id ids ih =>
    intro k id'
    rw [Lib.gathered, foldl_cons, ← Lib.gathered]
    cases hid : candidateAuthTypes env stateMap id with
    | error e => exact (ih h k id').trans (by simp [hid])
    | ok types => exact (ih (h.add ((order id).iter types)) k id').trans (by simp [hid, SetOrder.mem, or_assoc])

theorem selects_empty : Selects unconflicted ∅ fun _ => False := by
  intro k id
  simp

theorem createAuthEvents_congr (o o' : Orders) :
    (createAuthEventsFromMaps env o unconflicted conflicted stateMap).toOption =
      (createAuthEventsFromMaps env o' unconflicted conflicted stateMap).toOption := by
  have hmem := fun id => (@mem_candidateIds conflicted o id).trans (mem_candidateIds o' id).symm
  refine toOption_gather_congr hmem (fun _ _ => rfl) ∅ (ext_lookup fun k => Option.ext fun id => ?_)
  refine (selects_empty.gathered _ _ k id).trans (Iff.trans ?_ (selects_empty.gathered _ _ k id).symm)
  simp only [hmem]

end AuthEvents

/-! ## The candidates at hand -/

/-- An event that the resolution can get. -/
def Env.Has (env : Env) (id : String) (e : Event) : Prop :=
  env.inFlight.lookup id = some e ∨ ∃ ids, (env.stateMapFactory ids).map.lookup id = some e

/-- **State sets**: an event is filed under its own type and state key. -/
structure StateSets (env : Env) where
  sets : List StateMap
  keyed : ∀ m ∈ sets, ∀ k id e, m.lookup k = some id → env.Has id e → e.key? = some k

/-- The events of a split are filed under their keys, and the hash tells the candidates of a key apart. -/
structure Filed (env : Env) (unconflicted : StateMap) (conflicted : Conflicts) : Prop where
  one : ∀ {k : StateKey} {id : String} {e : Event}, unconflicted.lookup k = some id → env.Has id e → e.key? = some k
  many : ∀ {k : StateKey} {s : Finset String} {id : String} {e : Event}, conflicted.lookup k = some s → id ∈ s →
    env.Has id e → e.key? = some k
  hash : ∀ {k : StateKey} {s : Finset String} {a b : String}, conflicted.lookup k = some s → a ∈ s → b ∈ s →
    env.sha1 a = env.sha1 b → a = b

/-- The ids of a dict are those of its events. -/
def AtHand (env : Env) (stateMap : EventMap) : Prop :=
  ∀ id e, stateMap.lookup id = some e → e.eventId = id ∧ env.Has id e

section AtHand

variable {env : Env} {o o' : Orders} {unconflicted authEventIds : StateMap} {conflicted : Conflicts}
  {stateMap entries : EventMap} {k : StateKey}

theorem atHand_inFlight (env : Env) : AtHand env env.inFlight := by
  intro id e h
  refine ⟨?_, .inl h⟩
  unfold Env.inFlight at h
  cases hm : env.eventMap with
  | none => simp [hm] at h
  | some events =>
    rw [hm] at h
    exact events.keyed id e h

theorem atHand_factory (env : Env) (ids : Finset String) : AtHand env (env.stateMapFactory ids).map :=
  fun id e h => ⟨(env.stateMapFactory ids).keyed id e h, .inr ⟨ids, h⟩⟩

theorem AtHand.update (h : AtHand env stateMap) (h' : AtHand env entries) : AtHand env (update stateMap entries) := by
  intro id e hid
  rw [lookup_update, Option.orElse_eq_some] at hid
  rcases hid with hid | ⟨-, hid⟩
  · exact h' id e hid
  · exact h id e hid

theorem mem_knownEvents {e : Event} : e ∈ knownEvents o stateMap conflicted k ↔
    ∃ s, conflicted.lookup k = some s ∧ ∃ id ∈ s, stateMap.lookup id = some e := by
  unfold knownEvents
  rw [mem_filterMap]
  simp only [SetOrder.mem]
  cases hs : conflicted.lookup k with
  | none => simp
  | some s => simp

theorem knownEvents_perm (o o' : Orders) (stateMap : EventMap) (conflicted : Conflicts) (k : StateKey) :
    (knownEvents o stateMap conflicted k).Perm (knownEvents o' stateMap conflicted k) := by
  refine Perm.filterMap _ ?_
  refine (perm_ext_iff_of_nodup ((o.ids _).nodup _) ((o'.ids _).nodup _)).mpr fun id => ?_
  rw [SetOrder.mem, SetOrder.mem]

def single : List Event → Option String
  | [event] => some event.eventId
  | _ => none

/-- The events, if there are two at least. -/
def several : List Event → Option (List Event)
  | [] => none
  | [_] => none
  | events => some events

theorem takeSingle_eq (acc : ConflictedEvents × StateMap) (key : StateKey) : takeSingle o stateMap conflicted acc key =
    ((several (knownEvents o stateMap conflicted key)).elim acc.1 (acc.1.insert key),
      (single (knownEvents o stateMap conflicted key)).elim acc.2 (acc.2.insert key)) := by
  unfold takeSingle
  match knownEvents o stateMap conflicted key with
  | [] => rfl
  | [_] => rfl
  | _ :: _ :: _ => rfl

theorem foldl_takeSingle (acc : ConflictedEvents × StateMap) (keys : List StateKey) :
    keys.foldl (takeSingle o stateMap conflicted) acc =
      (setItems (fun key => several (knownEvents o stateMap conflicted key)) acc.1 keys,
        setItems (fun key => single (knownEvents o stateMap conflicted key)) acc.2 keys) := by
  induction keys generalizing acc with
  | nil => rfl
  | cons key keys ih =>
    rw [foldl_cons, ih, takeSingle_eq]
    rfl

theorem several_eq_some {events events' : List Event} : several events = some events' ↔ events' = events ∧ 1 < events.length := by
  match events with
  | [] => simp [several]
  | [_] => simp [several]
  | _ :: _ :: _ => simp [several, eq_comm]

theorem single_eq_some {events : List Event} {id : String} (h : single events = some id) : ∃ e ∈ events, e.eventId = id := by
  match events with
  | [e] =>
    cases h
    exact ⟨e, mem_cons_self, rfl⟩
  | [] | _ :: _ :: _ => cases h

theorem single_or_several {events : List Event} (h : events ≠ []) : (∃ id, single events = some id) ∨ 1 < events.length := by
  match events with
  | [] => exact absurd rfl h
  | [e] => exact .inl ⟨e.eventId, rfl⟩
  | _ :: _ :: _ => simp

/-- The conflicts that the stages resolve. -/
def conflictedState (o : Orders) (stateMap : EventMap) (conflicted : Conflicts) : ConflictedEvents :=
  setItems (fun key => several (knownEvents o stateMap conflicted key)) ∅ ((o.keys .conflictedIds).iter conflicted.keys)

theorem knownEvents_of_not_mem (hk : k ∉ (o.keys .conflictedIds).iter conflicted.keys) : knownEvents o stateMap conflicted k = [] := by
  refine eq_nil_iff_forall_not_mem.mpr fun e he => ?_
  obtain ⟨s, hs, -⟩ := mem_knownEvents.mp he
  exact hk ((SetOrder.mem _ _ _).mpr (mem_keys.mpr (mem_iff.mpr ⟨s, hs⟩)))

theorem lookup_conflictedState :
    (conflictedState o stateMap conflicted).lookup k = several (knownEvents o stateMap conflicted k) := by
  unfold conflictedState
  rw [lookup_setItems_of fun hk => by rw [knownEvents_of_not_mem hk]; rfl, lookup_empty, Option.or_none]

theorem same_conflictedState (o o' : Orders) :
    Same (conflictedState o stateMap conflicted) (conflictedState o' stateMap conflicted) := by
  have hperm := knownEvents_perm o o' stateMap conflicted
  refine ⟨fun k => ?_, fun {k events events'} h h' => ?_⟩
  · simp only [mem_iff, lookup_conflictedState, several_eq_some, (hperm k).length_eq, exists_eq_left]
  · rw [lookup_conflictedState, several_eq_some] at h h'
    rw [h.1, h'.1]
    exact hperm k

theorem conflicting_conflictedState (hfiled : Filed env unconflicted conflicted) (hhand : AtHand env stateMap)
    (o : Orders) : Conflicting env (conflictedState o stateMap conflicted) := by
  have hknown : ∀ {k events e}, (conflictedState o stateMap conflicted).lookup k = some events → e ∈ events →
      ∃ s, conflicted.lookup k = some s ∧ ∃ id ∈ s, stateMap.lookup id = some e := by
    intro k events e h he
    rw [lookup_conflictedState, several_eq_some] at h
    rw [h.1] at he
    exact mem_knownEvents.mp he
  refine ⟨fun {k events} h e he => ?_, fun {k events} h a ha b hb hab => ?_⟩
  · obtain ⟨s, hs, id, hid, he⟩ := hknown h he
    exact hfiled.many hs hid (hhand id e he).2
  obtain ⟨s, hs, ida, hida, ha⟩ := hknown h ha
  obtain ⟨s', hs', idb, hidb, hb⟩ := hknown h hb
  cases hs.symm.trans hs'
  have hhash : env.sha1 a.eventId = env.sha1 b.eventId := congrArg (fun key => (ofLex key).2) hab
  rw [(hhand ida a ha).1, (hhand idb b hb).1] at hhash
  rw [hfiled.hash hs hida hidb hhash] at ha
  exact Option.some.inj (ha.symm.trans hb)

theorem single_perm {events events' : List Event} (h : events.Perm events') : single events = single events' := by
  match events with
  | [] =>
    rw [nil_perm.mp h]
  | [_] =>
    rw [singleton_perm.mp h]
  | _ :: _ :: _ =>
    have hlength := h.length_eq
    match events' with
    | [] => cases hlength
    | [_] => cases hlength
    | _ :: _ :: _ => rfl

theorem lookup_authEvents (order : SetOrder StateKey) :
    (setItems (fun key => (authEventIds.lookup key).bind stateMap.lookup) ∅ (order.iter authEventIds.keys)).lookup k =
      (authEventIds.lookup k).bind stateMap.lookup := by
  rw [lookup_setItems_of fun hk => ?_, lookup_empty, Option.or_none]
  have hnone : k ∉ authEventIds := fun hmem => hk ((order.mem _ _).mpr (mem_keys.mpr hmem))
  rw [lookup_eq_none.mpr hnone]
  rfl

theorem lookup_resolvedState (chosen : AuthMap) : (setItems (fun key => (chosen.lookup key).map Event.eventId)
      (setItems (fun key => single (knownEvents o stateMap conflicted key)) unconflicted
        ((o.keys .conflictedIds).iter conflicted.keys)) ((o.keys .resolved).iter chosen.keys)).lookup k =
      ((chosen.lookup k).map Event.eventId).or
        ((single (knownEvents o stateMap conflicted k)).or (unconflicted.lookup k)) := by
  rw [lookup_setItems_of fun hk => ?_, lookup_setItems_of fun hk => by rw [knownEvents_of_not_mem hk]; rfl]
  have hnone : k ∉ chosen := fun hmem => hk ((SetOrder.mem _ _ _).mpr (mem_keys.mpr hmem))
  rw [lookup_eq_none.mpr hnone]
  rfl

theorem resolveWithState_congr (hfiled : Filed env unconflicted conflicted) (hhand : AtHand env stateMap)
    (hauth : ∀ {k id}, authEventIds.lookup k = some id → unconflicted.lookup k = some id) (o o' : Orders) :
    (resolveWithState env o unconflicted conflicted authEventIds stateMap).toOption =
      (resolveWithState env o' unconflicted conflicted authEventIds stateMap).toOption := by
  have hevents : setItems (fun key => (authEventIds.lookup key).bind stateMap.lookup) ∅
        ((o.keys .authEventIds).iter authEventIds.keys) =
      setItems (fun key => (authEventIds.lookup key).bind stateMap.lookup) ∅
        ((o'.keys .authEventIds).iter authEventIds.keys) :=
    ext_lookup fun k => (lookup_authEvents _).trans (lookup_authEvents _).symm
  unfold resolveWithState
  rw [foldl_takeSingle, foldl_takeSingle, hevents]
  refine toOption_bind_congr ?_ fun chosen _ => ?_
  · refine resolveStateEvents_congr (same_conflictedState o o') (conflicting_conflictedState hfiled hhand o)
      (fun k e h => ?_) o o'
    rw [lookup_setItems, lookup_empty, Option.or_none] at h
    split at h
    · obtain ⟨id, hid, he⟩ := Option.bind_eq_some_iff.mp h
      exact hfiled.one (hauth hid) (hhand id e he).2
    · cases h
  · refine congrArg some (ext_lookup fun k => ?_)
    rw [lookup_resolvedState, lookup_resolvedState, single_perm (knownEvents_perm o o' stateMap conflicted k)]

end AtHand

/-! ## The resolution -/

section Resolution

variable {env : Env} {o o' : Orders} {unconflicted : StateMap} {conflicted : Conflicts}

theorem checkRooms_congr {roomId : String} {l l' : List Event} (hmem : ∀ e, e ∈ l ↔ e ∈ l') :
    (checkRooms roomId l).toOption = (checkRooms roomId l').toOption := by
  have hiff : checkRooms roomId l = .ok () ↔ checkRooms roomId l' = .ok () := by
    rw [checkRooms_ok_iff, checkRooms_ok_iff]
    simp only [hmem]
  cases h : checkRooms roomId l with
  | ok u => rw [hiff.mp h]
  | error e =>
    cases h' : checkRooms roomId l' with
    | ok u => cases h.symm.trans (hiff.mpr h')
    | error e' => rfl

theorem mem_values_iff (d : EventMap) (order order' : SetOrder String) (e : Event) :
    e ∈ values d order.iter ↔ e ∈ values d order'.iter :=
  (mem_values fun k => order.mem _ k).trans (mem_values fun k => order'.mem _ k).symm

theorem resolveConflicts_congr (hfiled : Filed env unconflicted conflicted) (o o' : Orders) :
    (resolveConflicts env o unconflicted conflicted).toOption =
      (resolveConflicts env o' unconflicted conflicted).toOption := by
  refine toOption_bind_congr (checkRooms_congr (mem_values_iff _ _ _)) fun _ _ => ?_
  refine toOption_bind_congr (createAuthEvents_congr o o') fun authEvents hevents => ?_
  refine toOption_bind_congr (checkRooms_congr (mem_values_iff _ _ _)) fun _ _ => ?_
  refine resolveWithState_congr hfiled ?_ (fun hk => ?_) o o'
  · exact ((atHand_factory env _).update (atHand_inFlight env)).update (atHand_factory env _)
  · obtain ⟨-, rfl⟩ := gather_inv hevents
    exact (Option.filter_eq_some_iff.mp ((selects_empty.gathered _ _ _ _).mp hk).1).1

def stateIds (stateSets : List StateMap) : Set String := {id | ∃ k, id ∈ candidates stateSets k}

variable {stateSets : List StateMap}

theorem mem_candidates {k : StateKey} {id : String} :
    id ∈ candidates stateSets k ↔ ∃ m ∈ stateSets, m.lookup k = some id := by
  simp [candidates]

theorem filed_of_split (s : StateSets env) (hsha1 : Set.InjOn env.sha1 (stateIds s.sets))
    (hsplit : ∀ k, Split (candidates s.sets k) (unconflicted.lookup k) (conflicted.lookup k)) :
    Filed env unconflicted conflicted := by
  have hkeyed : ∀ {k : StateKey} {id : String} {e : Event}, id ∈ candidates s.sets k → env.Has id e → e.key? = some k := by
    intro k id e hid he
    obtain ⟨m, hm, hid⟩ := mem_candidates.mp hid
    exact s.keyed m hm k id e hid he
  refine ⟨fun {k id e} hk he => ?_, fun {k ids id e} hk hid he => ?_, fun {k ids a b} hk ha hb hab => ?_⟩
  · refine hkeyed ?_ he
    rw [((hsplit k).one id).mp hk]
    exact Finset.mem_singleton_self id
  · rw [((hsplit k).many ids).mp hk |>.1] at hid
    exact hkeyed hid he
  · rw [((hsplit k).many ids).mp hk |>.1] at ha hb
    exact hsha1 ⟨k, ha⟩ ⟨k, hb⟩ hab

/-- The event is in flight, or the factory gives it when it is asked for it. -/
def Env.Gives (env : Env) (id : String) : Prop :=
  id ∈ env.inFlight ∨ ∀ ids, id ∈ ids → id ∈ (env.stateMapFactory ids).map

variable {resolved : StateMap}

theorem resolveConflicts_inv (h : resolveConflicts env o unconflicted conflicted = .ok resolved) :
    ∃ authEvents stateMap, resolveWithState env o unconflicted conflicted authEvents stateMap = .ok resolved ∧
      AtHand env stateMap ∧
      ∀ {k s id}, conflicted.lookup k = some s → id ∈ s → env.Gives id → ∃ e, stateMap.lookup id = some e := by
  obtain ⟨-, -, h⟩ := exc_bind_ok h
  obtain ⟨authEvents, -, h⟩ := exc_bind_ok h
  obtain ⟨-, -, h⟩ := exc_bind_ok h
  refine ⟨authEvents, _, h, ?_, fun {k s id} hk hid hgives => ?_⟩
  · exact ((atHand_factory env _).update (atHand_inFlight env)).update (atHand_factory env _)
  have hneeded : id ∈ neededEvents conflicted := by
    refine Finset.mem_biUnion.mpr ⟨k, mem_keys.mpr (mem_iff.mpr ⟨s, hk⟩), ?_⟩
    rw [hk]
    exact hid
  have hstate : id ∈ update (env.stateMapFactory (neededEvents conflicted \ env.inFlight.keys)).map env.inFlight := by
    by_cases hflight : id ∈ env.inFlight
    · exact mem_union.mpr (.inl hflight)
    · refine mem_union.mpr (.inr (hgives.resolve_left hflight _ ?_))
      exact Finset.mem_sdiff.mpr ⟨hneeded, fun hmem => hflight (mem_keys.mp hmem)⟩
  exact mem_iff.mp (mem_union.mpr (.inr hstate))

theorem chosen_known {stateMap : EventMap} {chosen : AuthMap} {k : StateKey}
    (hchosen : Chosen (conflictedState o stateMap conflicted) chosen)
    (hall : ∀ k ∈ conflictedState o stateMap conflicted, k ∈ chosen) :
    (∀ id, ((chosen.lookup k).map Event.eventId).or (single (knownEvents o stateMap conflicted k)) = some id →
      ∃ e ∈ knownEvents o stateMap conflicted k, e.eventId = id) ∧
    (knownEvents o stateMap conflicted k ≠ [] →
      ∃ id, ((chosen.lookup k).map Event.eventId).or (single (knownEvents o stateMap conflicted k)) = some id) := by
  constructor
  · intro id hid
    rcases Option.or_eq_some_iff.mp hid with hid | ⟨-, hid⟩
    · obtain ⟨e, he, rfl⟩ := Option.map_eq_some_iff.mp hid
      obtain ⟨events, hevents, hmem⟩ := hchosen k e he
      rw [lookup_conflictedState, several_eq_some] at hevents
      exact ⟨e, hevents.1 ▸ hmem, rfl⟩
    · exact single_eq_some hid
  · intro hne
    rcases single_or_several hne with ⟨id, hid⟩ | hseveral
    · rw [hid]
      cases chosen.lookup k <;> simp
    · have hmem : k ∈ conflictedState o stateMap conflicted := by
        refine mem_iff.mpr ⟨_, lookup_conflictedState.trans (several_eq_some.mpr ⟨rfl, hseveral⟩)⟩
      obtain ⟨e, he⟩ := mem_iff.mp (hall k hmem)
      exact ⟨e.eventId, by rw [he]; rfl⟩

/-- The resolved state has what is unconflicted, and otherwise one of the candidates at hand. -/
theorem resolveConflicts_sound (h : resolveConflicts env o unconflicted conflicted = .ok resolved) (k : StateKey) :
    (conflicted.lookup k = none → resolved.lookup k = unconflicted.lookup k) ∧
      ∀ ids, conflicted.lookup k = some ids → unconflicted.lookup k = none →
        (∀ id, resolved.lookup k = some id → id ∈ ids ∧ ∃ e, env.Has id e) ∧
        ((∃ id ∈ ids, env.Gives id) → k ∈ resolved) := by
  obtain ⟨authEvents, stateMap, hresolve, hhand, hgives⟩ := resolveConflicts_inv h
  rw [resolveWithState, foldl_takeSingle] at hresolve
  obtain ⟨chosen, hchosen, hok⟩ := exc_bind_ok hresolve
  cases hok
  obtain ⟨hmem, hall⟩ := resolveStateEvents_inv hchosen
  obtain ⟨hknown, hsome⟩ := @chosen_known o conflicted stateMap chosen k hmem hall
  have hlook := @lookup_resolvedState o unconflicted conflicted stateMap k chosen
  rw [← Option.or_assoc] at hlook
  refine ⟨fun hnone => ?_, fun ids hids hnone => ⟨fun id hid => ?_, ?_⟩⟩
  · rw [hlook, Option.or_eq_right_of_none]
    refine Option.eq_none_iff_forall_ne_some.mpr fun id hid => ?_
    obtain ⟨e, he, -⟩ := hknown id hid
    obtain ⟨s, hs, -⟩ := mem_knownEvents.mp he
    cases hnone.symm.trans hs
  · rw [hlook, hnone, Option.or_none] at hid
    obtain ⟨e, he, rfl⟩ := hknown id hid
    obtain ⟨s, hs, id, hids', hlookup⟩ := mem_knownEvents.mp he
    cases hids.symm.trans hs
    rw [(hhand id e hlookup).1]
    exact ⟨hids', e, (hhand id e hlookup).2⟩
  rintro ⟨id, hid, hgive⟩
  obtain ⟨e, he⟩ := hgives hids hid hgive
  have hne : knownEvents o stateMap conflicted k ≠ [] :=
    ne_nil_of_mem (mem_knownEvents.mpr ⟨ids, hids, id, hid, he⟩)
  obtain ⟨id', hid'⟩ := hsome hne
  refine mem_iff.mpr ⟨id', ?_⟩
  rw [hlook, hid']
  rfl

theorem resolveEventsWithStore_eq (h : stateSets.length ≠ 1) : resolveEventsWithStore env o stateSets =
      (seperate o stateSets >>= fun split => resolveConflicts env o split.1 split.2) := by
  match stateSets with
  | [] => rfl
  | [_] => exact absurd rfl h
  | _ :: _ :: _ => rfl

theorem resolve_perm (s s' : StateSets env) (hsha1 : Set.InjOn env.sha1 (stateIds s.sets)) (hperm : s.sets.Perm s'.sets) :
    (resolveEventsWithStore env o s.sets).toOption = (resolveEventsWithStore env o' s'.sets).toOption := by
  by_cases hlength : s.sets.length = 1
  · obtain ⟨m, hm⟩ := length_eq_one_iff.mp hlength
    rw [hm] at hperm
    rw [hm, ← singleton_perm.mp hperm]
    rfl
  · rw [resolveEventsWithStore_eq hlength, resolveEventsWithStore_eq fun h => hlength (hperm.length_eq.trans h)]
    refine toOption_bind_congr (seperate_congr hperm o o') fun split hsplit => ?_
    exact resolveConflicts_congr (filed_of_split s hsha1 (seperate_spec hsplit)) o o'

theorem resolve_candidates (h : resolveEventsWithStore env o stateSets = .ok resolved) (k : StateKey) :
    (∀ id, candidates stateSets k = {id} → resolved.lookup k = some id) ∧
      (∀ id, resolved.lookup k = some id → id ∈ candidates stateSets k) ∧
      ((∃ id ∈ candidates stateSets k, env.Gives id) → k ∈ resolved) ∧
      (1 < (candidates stateSets k).card → ∀ id, resolved.lookup k = some id → ∃ e, env.Has id e) := by
  by_cases hlength : stateSets.length = 1
  · obtain ⟨m, rfl⟩ := length_eq_one_iff.mp hlength
    cases h
    have hmem : ∀ id, id ∈ candidates [resolved] k ↔ resolved.lookup k = some id := fun id => by simp [mem_candidates]
    refine ⟨fun id hid => ?_, fun id hid => (hmem id).mpr hid, ?_, fun hcard => ?_⟩
    · exact (hmem id).mp (hid ▸ Finset.mem_singleton_self id)
    · rintro ⟨id, hid, -⟩
      exact mem_iff.mpr ⟨id, (hmem id).mp hid⟩
    · -- one state set has one candidate at most
      have hone : (candidates [resolved] k).card ≤ 1 := 
        (toFinset_card_le _).trans (length_filterMap_le _ _)
      exact absurd hcard (Nat.not_lt_of_le hone)
  · rw [resolveEventsWithStore_eq hlength] at h
    obtain ⟨split, hsplit, h⟩ := exc_bind_ok h
    obtain ⟨hone, hmany⟩ := resolveConflicts_sound h k
    rcases (seperate_spec hsplit k).cases with ⟨hids, hu, hc⟩ | ⟨id, hids, hu, hc⟩ | ⟨hcard, hu, hc⟩
    · rw [hids, hone hc, hu]
      refine ⟨fun id hid => absurd hid.symm (Finset.singleton_ne_empty id), nofun, ?_, nofun⟩
      rintro ⟨id, hid, -⟩
      exact absurd hid (Finset.notMem_empty id)
    · have hresolved := (hone hc).trans hu
      rw [hids, hresolved]
      refine ⟨fun id' hid' => congrArg some (Finset.singleton_inj.mp hid'), fun id' hid' => ?_, fun _ => ?_, fun h => ?_⟩
      · exact Finset.mem_singleton.mpr (Option.some.inj hid').symm
      · exact mem_iff.mpr ⟨id, hresolved⟩
      · exact absurd h (lt_irrefl 1)
    · obtain ⟨hcandidate, hgives⟩ := hmany _ hc hu
      refine ⟨fun id hid => ?_, fun id hid => (hcandidate id hid).1, hgives, fun _ id hid => (hcandidate id hid).2⟩
      rw [hid] at hcard
      exact absurd hcard (lt_irrefl 1)

end Resolution

/-- **State resolution v1.**  The order of the state sets and of everything that is iterated does not matter, entries that
the state sets agree on stay, every entry is one of the candidates of its key, a key has an entry if the event of one of
its candidates can be had, and a conflicted key has none otherwise. -/
theorem resolve_v1 (env : Env) (s : StateSets env) (hsha1 : Set.InjOn env.sha1 (stateIds s.sets)) :
    (∀ (o o' : Orders) (s' : StateSets env), s.sets.Perm s'.sets →
      (resolveEventsWithStore env o s.sets).toOption = (resolveEventsWithStore env o' s'.sets).toOption) ∧
    ∀ (o : Orders) (resolved : StateMap), resolveEventsWithStore env o s.sets = .ok resolved → ∀ k,
      (∀ id, candidates s.sets k = {id} → resolved.lookup k = some id) ∧
      (∀ id, resolved.lookup k = some id → id ∈ candidates s.sets k) ∧
      ((∃ id ∈ candidates s.sets k, env.Gives id) → k ∈ resolved) ∧
      (1 < (candidates s.sets k).card → ∀ id, resolved.lookup k = some id → ∃ e, env.Has id e) :=
  ⟨fun _ _ s' hperm => resolve_perm s s' hsha1 hperm, fun _ _ h => resolve_candidates h⟩

/-! ### A room with two topics -/

/-- Every dict and set in ascending order. -/
def Orders.ascending : Orders where
  ids _ := ⟨fun s => StateRes.Orders.sorted s, fun s => by
    rw [← Multiset.coe_nodup, StateRes.Orders.sorted_val]
    exact s.nodup, fun s x => by rw [← Multiset.mem_coe, StateRes.Orders.sorted_val, Finset.mem_val]⟩
  keys _ := ⟨StateRes.Orders.ascending.keys .seperate, fun s => by
    rw [← Multiset.coe_nodup, StateRes.Orders.keys_val]
    exact s.nodup, fun s x => StateRes.Orders.ascending.mem_keys _⟩

namespace Forks

open StateRes.Topic

/-- A database with some events of a v1 room.  Timestamps stand in for depths, and ids for their hashes. -/
def env (known : List Event) : Env where
  roomId := "!r:hs"
  roomVersion := .v1
  eventMap := none
  stateMapFactory _ := .ofList (known.map fun e => { e with roomVersion := .v1 })
  deps := .offline
  depth := Event.originServerTs
  sha1 := id

/-- The state of the forks, in which the events are filed under their own keys. -/
def stateSets (known : List Event) (sets : List StateMap)
    (h : ∀ m ∈ sets, ∀ k ∈ m.keys, ∀ id ∈ m.lookup k, ∀ e ∈ ((env known).stateMapFactory ∅).map.lookup id,
      e.key? = some k) : StateSets (env known) where
  sets := sets
  keyed m hm k id e hk he := by
    refine h m hm k (mem_keys.mpr (mem_iff.mpr ⟨id, hk⟩)) id hk e ?_
    rcases he with he | ⟨_, he⟩
    · have he : (∅ : EventMap).lookup id = some e := he
      rw [lookup_empty] at he
      cases he
    · exact he

/-- Both orders of the forks resolve to the power levels and the topic of the first one. -/
theorem resolve_v1_forks :
    resolveEventsWithStore (env events) .ascending [fork "$p1" "$t1", fork "$p2" "$t2"] = .ok (fork "$p1" "$t1") ∧
      (resolveEventsWithStore (env events) .ascending [fork "$p2" "$t2", fork "$p1" "$t1"]).toOption =
        some (fork "$p1" "$t1") := by
  have hforks : resolveEventsWithStore (env events) .ascending [fork "$p1" "$t1", fork "$p2" "$t2"] =
      .ok (fork "$p1" "$t1") := ok_of_toOption (by decide +kernel)
  refine ⟨hforks, ?_⟩
  have hperm := (resolve_v1 (env events) (stateSets events [fork "$p1" "$t1", fork "$p2" "$t2"] (by decide +kernel))
    (fun _ _ _ _ h => h)).1 .ascending .ascending
    (stateSets events [fork "$p2" "$t2", fork "$p1" "$t1"] (by decide +kernel)) (.swap ..)
  exact hperm.symm.trans (congrArg Except.toOption hforks)

/-- Without the events of the topics there is no topic in the resolved state. -/
theorem key_dropped : (resolveEventsWithStore (env (events.take 4)) .ascending
    [fork "$p1" "$t1", fork "$p1" "$t2"]).toOption.map (·.lookup ("m.room.topic", "")) = some none ∧
    candidates [fork "$p1" "$t1", fork "$p1" "$t2"] ("m.room.topic", "") = {"$t1", "$t2"} := by
  decide +kernel

end Forks

end Synapse.StateRes.V1
