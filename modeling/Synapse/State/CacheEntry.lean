import Synapse.Event
import Synapse.Lib.Dict

/-!
# Synapse.State.CacheEntry — the cache entry of a resolved state

`_make_state_cache_entry` and `_StateCacheEntry.get_state` of `synapse/state/__init__.py`.  An entry holds a state, a
group with this state, or a group and what has to be set on top of its state.

* `makeStateCacheEntry`: a group with the same events, else the group with the smallest delta.
* `delta_restores`: a group without further keys, overlaid with its delta, is the new state.
* **`makeStateCacheEntry_restores`**: `get_state` of the entry is the new state: that of a matching group, that of a group
  with the delta, or the state itself, where every group has a key that the new state lacks.
-/

namespace Synapse.State

open Lib List Finmap

/-- A `_StateCacheEntry`, with what its constructor demands. -/
structure StateCacheEntry where
  state : Option StateMap
  stateGroup : Option ℕ
  prevGroup : Option ℕ
  deltaIds : Option StateMap
  given : state.isSome ∨ stateGroup.isSome ∨ prevGroup.isSome
  delta : prevGroup.isSome → deltaIds.isSome

/-- `get_state`, where `fetch` is `get_state_ids_for_group` with the filter.  The `ChainMap` looks into the delta first. -/
def StateCacheEntry.getState (entry : StateCacheEntry) (fetch : ℕ → StateMap) : StateMap :=
  match entry.state, entry.stateGroup, entry.prevGroup with
  | some state, _, _ => state
  | none, some group, _ => fetch group
  | none, none, some prevGroup => update (fetch prevGroup) (entry.deltaIds.getD ∅)
  | none, none, none => ∅

/-- `set(state.values())` -/
def eventIds (state : StateMap) : Finset String := (state.entries.map Sigma.snd).toFinset

section Make

variable (newState : StateMap)

/-- The test for an exact match. -/
def sameEvents (state : StateMap) : Bool :=
  (eventIds newState).card = state.keys.card ∧ eventIds newState = eventIds state

/-- `{k: v for k, v in new_state.items() if old_state.get(k) != v}` -/
def deltaFrom (oldState : StateMap) : StateMap := restrict (fun k => oldState.lookup k ≠ newState.lookup k) newState

/-- The body of the loop for the closest match: the group and its delta, if there are such. -/
def closer (best : Option (ℕ × StateMap)) (old : ℕ × StateMap) : Option (ℕ × StateMap) :=
  if (old.2.keys \ newState.keys).Nonempty then best
  else
    match best with
    | none => some (old.1, deltaFrom newState old.2)
    | some (_, deltaIds) =>
      if deltaIds.keys = ∅ ∨ (deltaFrom newState old.2).keys.card < deltaIds.keys.card then
        some (old.1, deltaFrom newState old.2)
      else best

/-- The groups come as the items of a dict. -/
def makeStateCacheEntry (stateGroupsIds : List (ℕ × StateMap)) : StateCacheEntry :=
  match stateGroupsIds.find? fun sg => sameEvents newState sg.2 with
  | some (group, _) => ⟨none, some group, none, none, .inr (.inl rfl), nofun⟩
  | none =>
    match stateGroupsIds.foldl (closer newState) none with
    | some (prevGroup, deltaIds) => ⟨none, none, some prevGroup, some deltaIds, .inr (.inr rfl), fun _ => rfl⟩
    | none => ⟨some newState, none, none, none, .inl rfl, nofun⟩

end Make

/-- Every event id stands under one key in these states. -/
def OneKey (states : List StateMap) : Prop :=
  ∀ s ∈ states, ∀ s' ∈ states, ∀ k k' id, s.lookup k = some id → s'.lookup k' = some id → k = k'

variable {newState state : StateMap}

theorem mem_eventIds {id : String} : id ∈ eventIds state ↔ ∃ k, state.lookup k = some id := by
  rw [eventIds, Multiset.mem_toFinset, Multiset.mem_map]
  constructor
  · rintro ⟨⟨k, id⟩, he, rfl⟩
    exact ⟨k, lookup_eq_some_iff.mpr he⟩
  · rintro ⟨k, hk⟩
    exact ⟨⟨k, id⟩, lookup_eq_some_iff.mp hk, rfl⟩

theorem lookup_of_eventIds_subset {states : List StateMap} (hone : OneKey states) (hs : newState ∈ states)
    (hs' : state ∈ states) (hsub : eventIds newState ⊆ eventIds state) {k : StateKey} {id : String}
    (hk : newState.lookup k = some id) : state.lookup k = some id := by
  obtain ⟨k', hk'⟩ := mem_eventIds.mp (hsub (mem_eventIds.mpr ⟨k, hk⟩))
  rwa [hone _ hs _ hs' k k' id hk hk']

theorem eq_of_sameEvents {states : List StateMap} (hone : OneKey states) (hs : newState ∈ states) (hs' : state ∈ states)
    (h : sameEvents newState state = true) : state = newState := by
  have hids : eventIds newState = eventIds state := (of_decide_eq_true h).2
  refine ext_lookup fun k => Option.ext fun id => ⟨fun hk => ?_, fun hk => ?_⟩
  · exact lookup_of_eventIds_subset hone hs' hs hids.ge hk
  · exact lookup_of_eventIds_subset hone hs hs' hids.le hk

/-- **A delta restores the state** if no key has to be removed. -/
theorem delta_restores (h : ¬ (state.keys \ newState.keys).Nonempty) : update state (deltaFrom newState state) = newState := by
  refine ext_lookup fun k => ?_
  rw [lookup_update, deltaFrom, lookup_restrict]
  by_cases hk : state.lookup k = newState.lookup k
  · simp [hk]
  rw [if_pos (decide_eq_true hk)]
  cases hnew : newState.lookup k with
  | some id => rfl
  | none =>
    have hstate : state.lookup k = none := by
      refine lookup_eq_none.mpr fun hmem => h ⟨k, Finset.mem_sdiff.mpr ⟨mem_keys.mpr hmem, ?_⟩⟩
      exact fun hmem => lookup_eq_none.mp hnew (mem_keys.mp hmem)
    rw [hstate]
    rfl

theorem closest_spec {groups : List (ℕ × StateMap)} {prevGroup : ℕ} {deltaIds : StateMap}
    (h : groups.foldl (closer newState) none = some (prevGroup, deltaIds)) :
    ∃ old, (prevGroup, old) ∈ groups ∧ update old deltaIds = newState := by
  suffices hall : ∀ best ∈ groups.foldl (closer newState) none,
      ∃ old, (best.1, old) ∈ groups ∧ update old best.2 = newState from hall _ h
  refine foldlRecOn (motive := fun best : Option (ℕ × StateMap) =>
    ∀ b ∈ best, ∃ old, (b.1, old) ∈ groups ∧ update old b.2 = newState) groups _ nofun ?_
  intro best hbest old hold b hb
  unfold closer at hb
  split at hb
  · exact hbest b hb
  next hkeys =>
  have hnew : ∃ state, (old.1, state) ∈ groups ∧ update state (deltaFrom newState old.2) = newState :=
    ⟨old.2, hold, delta_restores hkeys⟩
  split at hb
  · cases hb
    exact hnew
  · split at hb
    · cases hb
      exact hnew
    · exact hbest b hb

theorem isSome_closest {groups : List (ℕ × StateMap)} :
    (groups.foldl (closer newState) none).isSome ↔ ∃ g ∈ groups, ¬ (g.2.keys \ newState.keys).Nonempty := by
  have hstep : ∀ best old, (closer newState best old).isSome ↔ best.isSome ∨ ¬ (old.2.keys \ newState.keys).Nonempty := by
    intro best old
    unfold closer
    cases best with
    | none => split_ifs with hkeys <;> simp [hkeys]
    | some best =>
      rcases best with ⟨prevGroup, deltaIds⟩
      dsimp only
      split_ifs <;> simp
  refine (foldl_iff (P := fun best => best.isSome) hstep groups none).trans ?_
  simp

/-- What an entry for the new state holds. -/
inductive Holds (newState : StateMap) (groups : List (ℕ × StateMap)) (entry : StateCacheEntry) : Prop
  /-- a group with the new state -/
  | group (g : ℕ) (hmem : (g, newState) ∈ groups) (hstate : entry.state = none) (hgroup : entry.stateGroup = some g)
  /-- a group, and what has to be set on top of its state -/
  | delta (prev : ℕ) (old deltaIds : StateMap) (hmem : (prev, old) ∈ groups) (hstate : entry.state = none)
      (hgroup : entry.stateGroup = none) (hprev : entry.prevGroup = some prev) (hdelta : entry.deltaIds = some deltaIds)
      (hrestores : update old deltaIds = newState)
  /-- the new state, which is a delta of no group -/
  | kept (hstate : entry.state = some newState) (hkeys : ∀ g ∈ groups, (g.2.keys \ newState.keys).Nonempty)

theorem holds_makeStateCacheEntry {groups : List (ℕ × StateMap)} (hone : OneKey (newState :: groups.map Prod.snd)) :
    Holds newState groups (makeStateCacheEntry newState groups) := by
  unfold makeStateCacheEntry
  split
  · next group state hfind =>
    have hmem := mem_of_find?_eq_some hfind
    have hstate : state = newState :=
      eq_of_sameEvents hone mem_cons_self (mem_cons_of_mem _ (mem_map_of_mem hmem))
        (find?_some (p := fun sg : ℕ × StateMap => sameEvents newState sg.2) hfind)
    exact .group group (hstate ▸ hmem) rfl rfl
  · split
    · next prevGroup deltaIds hclosest =>
      obtain ⟨old, hold, hrestores⟩ := closest_spec hclosest
      exact .delta prevGroup old deltaIds hold rfl rfl rfl rfl hrestores
    · next hnone =>
      refine .kept rfl fun g hg => ?_
      by_contra hkeys
      have hsome := isSome_closest.mpr ⟨g, hg, hkeys⟩
      rw [hnone] at hsome
      cases hsome

/-- **The entry restores the new state**, through a matching group, through the delta on top of a group, or, where every
group has a key that the new state lacks, by itself. -/
theorem makeStateCacheEntry_restores {groups : List (ℕ × StateMap)} {fetch : ℕ → StateMap}
    (hfetch : ∀ g ∈ groups, fetch g.1 = g.2) (hone : OneKey (newState :: groups.map Prod.snd)) :
    Holds newState groups (makeStateCacheEntry newState groups) ∧
      (makeStateCacheEntry newState groups).getState fetch = newState := by
  have hholds := holds_makeStateCacheEntry hone
  refine ⟨hholds, ?_⟩
  cases hholds with
  | group g hmem hstate hgroup =>
    rw [StateCacheEntry.getState, hstate, hgroup]
    exact hfetch _ hmem
  | delta prev old deltaIds hmem hstate hgroup hprev hdelta hrestores =>
    rw [StateCacheEntry.getState, hstate, hgroup, hprev, hdelta]
    show update (fetch prev) deltaIds = newState
    rw [hfetch _ hmem, hrestores]
  | kept hstate => rw [StateCacheEntry.getState, hstate]

namespace Topic

def topic (id : String) : StateMap := Finmap.singleton ("m.room.topic", "") id

theorem makeStateCacheEntry_replaced_topic :
    Holds (topic "$b") [(1, topic "$a")] (makeStateCacheEntry (topic "$b") [(1, topic "$a")]) ∧
      (makeStateCacheEntry (topic "$b") [(1, topic "$a")]).getState (fun _ => topic "$a") = topic "$b" := by
  refine makeStateCacheEntry_restores (by simp) ?_
  intro s hs s' hs' k k' id hk hk'
  have hkey : ∀ {s : StateMap} {k}, s ∈ [topic "$b", topic "$a"] → s.lookup k = some id → k = ("m.room.topic", "") := by
    intro s k hs hk
    have hmem : k ∈ s := mem_iff.mpr ⟨id, hk⟩
    simp only [mem_cons, not_mem_nil, or_false] at hs
    rcases hs with rfl | rfl <;> exact (mem_singleton k _ _).mp hmem
  rw [hkey hs hk, hkey hs' hk']

/-- The new state has a name and no topic, so the entry names no group. -/
theorem makeStateCacheEntry_lost_topic :
    let entry := makeStateCacheEntry (Finmap.singleton ("m.room.name", "") "$b") [(1, topic "$a")]
    entry.stateGroup = none ∧ entry.prevGroup = none :=
  ⟨by rfl, by rfl⟩

end Topic

end Synapse.State
