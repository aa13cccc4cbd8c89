import Mathlib.Data.String.Basic
import Synapse.EventAuth.Levels
import Synapse.Lib.Query

/-!
# Synapse.StateRes.Store — what state resolution reads

State maps, event maps and the store of `synapse/state/v2.py`.  Python dicts and sets are `Finmap`s and `Finset`s:
they have no order of their own, and each place that iterates one takes its order from an `Orders`.

* `Orders`: an order for every iteration of a run.
* `Env.look`: the event that an id stands for, from the events in flight or else from the store.
* `Env.Acyclic`, `Env.exists_cost`: the auth events of events in flight or in the store have no cycles.
-/

namespace Synapse.StateRes

open Lib Finmap Multiset

abbrev EventMap := Finmap fun _ : String => Event

/-- A dict from event id to a set of event ids. -/
abbrev Graph := Finmap fun _ : String => Finset String

/-! ## Iteration -/

/-- The iterations over dicts and sets, with what tells apart the visits of each. -/
inductive Site where
  /-- `for key in set(itertools.chain.from_iterable(state_sets))` -/
  | seperate
  /-- `for event in unpersisted_events.values()` -/
  | unpersisted
  /-- `for event_id in state_set.values()`, of the state set at an index -/
  | stateSet (i : ℕ)
  /-- `conflicted_state.values()` -/
  | conflicted
  /-- `[eid for eid in full_conflicted_set if eid not in event_map]` -/
  | missing
  /-- `for event in event_map.values()` -/
  | eventMap
  /-- `power_events` -/
  | powerEvents
  /-- `for event_id in graph` -/
  | graph
  /-- `for node, edges in graph.items()` -/
  | nodes
  /-- `for edge in edges`, of a node -/
  | edges (node : String)
  /-- `for parent in reverse_graph[node]` -/
  | parents (node : String)
  /-- `leftover_events` -/
  | leftover
  /-- `for key in auth_types_for_event(room_version, event)`, in the pass over the power events or the other one -/
  | authTypes (power : Bool) (eventId : String)

/-- The order in which each dict and set is iterated. -/
structure Orders where
  ids : Site → Finset String → List String
  keys : Site → Finset StateKey → List StateKey
  ids_val : ∀ site s, (ids site s : Multiset String) = s.val
  keys_val : ∀ site s, (keys site s : Multiset StateKey) = s.val

namespace Orders

variable (o : Orders) (site : Site)

@[simp] theorem mem_ids {s : Finset String} {x : String} : x ∈ o.ids site s ↔ x ∈ s := by
  rw [← mem_coe, o.ids_val, Finset.mem_val]

@[simp] theorem mem_keys {s : Finset StateKey} {k : StateKey} : k ∈ o.keys site s ↔ k ∈ s := by
  rw [← mem_coe, o.keys_val, Finset.mem_val]

theorem nodup_ids (s : Finset String) : (o.ids site s).Nodup := by
  rw [← coe_nodup, o.ids_val]
  exact s.nodup

/-- The members of a set in ascending order. -/
def sorted {α : Type} [LinearOrder α] (s : Finset α) : List α :=
  Quot.liftOn s.val (fun l => l.insertionSort (· ≤ ·)) fun l l' h =>
    List.Perm.eq_of_sortedLE (List.sortedLE_insertionSort) (List.sortedLE_insertionSort)
      ((List.perm_insertionSort _ l).trans (h.trans (List.perm_insertionSort _ l').symm))

theorem sorted_val {α : Type} [LinearOrder α] (s : Finset α) : (sorted s : Multiset α) = s.val := by
  obtain ⟨l, hl⟩ := Quot.exists_rep s.val
  unfold sorted
  rw [← hl]
  exact Quot.sound (List.perm_insertionSort _ l)

/-- Every dict and set in ascending order. -/
def ascending : Orders where
  ids _ s := sorted s
  keys _ s := (sorted (s.map toLex.toEmbedding)).map ofLex
  ids_val _ s := sorted_val s
  keys_val _ s := by
    rw [← Multiset.map_coe, sorted_val, Finset.map_val, Multiset.map_map]
    exact Multiset.map_id s.val

end Orders

/-! ## Events -/

/-- An event map that files every event under its id. -/
structure Events where
  map : EventMap
  keyed : ∀ id e, map.lookup id = some e → e.eventId = id

namespace Events

def none : Events := ⟨∅, by simp⟩

/-- `{e.event_id: e for e in events}` -/
def ofList (events : List Event) : Events where
  map := events.foldl (fun d e => d.insert e.eventId e) ∅
  keyed := by
    refine List.foldlRecOn (motive := fun d : EventMap => ∀ id e, d.lookup id = some e → e.eventId = id) events _
      (by simp) fun d hd x _ id e h => ?_
    by_cases hid : id = x.eventId
    · subst hid
      rw [Finmap.lookup_insert] at h
      cases h
      rfl
    · rw [Finmap.lookup_insert_of_ne _ hid] at h
      exact hd id e h

end Events

/-- `StateResolutionStore`: the events of the database, and the difference of the auth chains of some sets of
persisted events, in a room. -/
structure Store where
  events : Events
  authChainDifference : String → List (Finset String) → Finset String

/-- The event of an id, if the database has it. -/
def Store.addFound (store : Store) (found : EventMap) (eventId : String) : EventMap :=
  match store.events.map.lookup eventId with
  | some e => found.insert eventId e
  | none => found

/-- `store.get_events(event_ids, allow_rejected=True)`: unknown ids are left out. -/
def Store.getEvents (store : Store) (eventIds : List String) : EventMap := eventIds.foldl store.addFound ∅

/-- The store's difference depends on the set of the sets only. -/
def Store.OrderFree (store : Store) (roomId : String) : Prop :=
  ∀ sets sets', (∀ s, s ∈ sets ↔ s ∈ sets') → store.authChainDifference roomId sets = store.authChainDifference roomId sets'

/-- What one resolution is given.  `authCheck event authEvents` is whether `check_state_dependent_auth_rules` accepts
the event over the dict `auth_events`. -/
structure Env where
  roomId : String
  roomVersion : RoomVersion
  /-- `event_map`, the events in flight; `None` stands for an empty dict. -/
  eventMap : Option Events
  store : Store
  authCheck : Event → EventAuth.AuthDict → Bool

namespace Env

variable (env : Env)

/-- `event_map` after its initialisation. -/
def inFlight : Events := env.eventMap.getD .none

def look (id : String) : Option Event := env.inFlight.map.lookup id <|> env.store.events.map.lookup id

def authIds (id : String) : List String := ((env.look id).map Event.authEventIds).getD []

def Acyclic : Prop := ∀ id, ¬ Relation.TransGen (fun a b => b ∈ env.authIds a) id id

variable {env}

theorem authIds_of_look {id : String} {e : Event} (h : env.look id = some e) : env.authIds id = e.authEventIds := by
  simp [authIds, h]

theorem mem_known {id : String} {e : Event} (h : env.look id = some e) :
    id ∈ env.inFlight.map.keys ∪ env.store.events.map.keys := by
  unfold look at h
  rw [Option.orElse_eq_some] at h
  rw [Finset.mem_union, Finmap.mem_keys, Finmap.mem_keys, mem_iff, mem_iff]
  exact h.imp (⟨e, ·⟩) (⟨e, ·.2⟩)

/-- Under the cost every event pays for its auth events. -/
def Pays (env : Env) (cost : String → ℕ) : Prop := ∀ id, ((env.authIds id).map cost).sum < cost id

theorem Acyclic.exists_cost (h : env.Acyclic) : ∃ cost, env.Pays cost := by
  refine Lib.exists_cost (Finset.finite_toSet (env.inFlight.map.keys ∪ env.store.events.map.keys))
    (fun x y hy => ?_) h
  unfold authIds at hy
  cases hx : env.look x with
  | none => simp [hx] at hy
  | some e => exact mem_known hx

theorem acyclic_of_rank (rank : String → ℕ)
    (h : ∀ id ∈ env.inFlight.map.keys ∪ env.store.events.map.keys, ∀ a ∈ env.authIds id, rank a < rank id) :
    env.Acyclic := by
  have hstep : ∀ id, ∀ a ∈ env.authIds id, rank a < rank id := by
    intro id a ha
    refine h id ?_ a ha
    cases hid : env.look id with
    | none => simp [authIds, hid] at ha
    | some e => exact mem_known hid
  intro id hcycle
  have hlt : ∀ a b, Relation.TransGen (fun a b => b ∈ env.authIds a) a b → rank b < rank a := by
    intro a b hab
    induction hab with
    | single h => exact hstep a _ h
    | tail _ hbc ih => exact (hstep _ _ hbc).trans ih
  exact lt_irrefl _ (hlt id id hcycle)

theorem faithful_inFlight : Query.Faithful env.look (env.store.events.map.lookup ·) env.inFlight.map where
  hit id e h := by simp [look, h]
  miss id h := by simp [look, h]

end Env

/-! ## `_get_event` -/

/-- Code that reads events through `event_map`. -/
abbrev Fetch := Query String Event Exc

/-- The end of `_get_event`. -/
def checkRoom (roomId eventId : String) (event : Event) : Except Exc Event :=
  if event.roomId = roomId then pure event
  else throw (.exception [.text s!"In state res for room {roomId}, event {eventId} is in {event.roomId}"])

def getEvent? (roomId eventId : String) : Fetch (Option Event) :=
  .fetch eventId fun
    | none => pure none
    | some event => do pure (some (← .lift (checkRoom roomId eventId event)))

def getEvent (roomId eventId : String) : Fetch Event :=
  .fetch eventId fun
    | none => .raise (.exception [.text s!"Unknown event {eventId}"])
    | some event => .lift (checkRoom roomId eventId event)

/-- `event_map[event_id]` -/
def eventMapItem (eventId : String) : Fetch Event :=
  .cached eventId fun
    | none => .raise (.keyError (.str eventId))
    | some event => pure event

/-- `d[key]` for a dict with string keys. -/
def item {β : Type} (d : Finmap fun _ : String => β) (key : String) : Except Exc β :=
  (d.lookup key).elim (throw (.keyError (.str key))) pure

section Specs

variable {look : String → Option Event} {stop : Prop} {keys : Set String}

theorem checkRoom_ok {roomId id : String} {event e : Event} (h : checkRoom roomId id event = .ok e) : event = e := by
  unfold checkRoom at h
  split at h <;> cases h
  rfl

theorem ensures_getEvent? (roomId id : String) :
    (getEvent? roomId id).Ensures look stop keys fun r => ∀ e ∈ r, look id = some e := by
  refine Query.ensures_fetch ?_
  cases look id with
  | none => exact Query.ensures_pure nofun
  | some event =>
    refine (Query.ensures_lift fun e => checkRoom_ok).bind fun e he => Query.ensures_pure ?_
    rintro _ ⟨⟩
    rw [he]

theorem ensures_getEvent (roomId id : String) :
    (getEvent roomId id).Ensures look stop keys fun e => look id = some e := by
  refine Query.ensures_fetch ?_
  cases look id with
  | none => exact Query.ensures_raise _
  | some event => exact Query.ensures_lift fun e he => congrArg some (checkRoom_ok he)

theorem ensures_eventMapItem {id : String} (hid : id ∈ keys) :
    (eventMapItem id).Ensures look stop keys fun e => look id = some e := by
  refine Query.ensures_cached hid ?_
  cases look id with
  | none => exact Query.ensures_raise _
  | some event => exact Query.ensures_pure rfl

end Specs

theorem item_ok {β : Type} {d : Finmap fun _ : String => β} {key : String} {b : β} :
    item d key = .ok b ↔ d.lookup key = some b := exc_elim_ok

end Synapse.StateRes
