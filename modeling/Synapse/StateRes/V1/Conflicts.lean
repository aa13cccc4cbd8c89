import Synapse.StateRes.Conflicts

/-!
# Synapse.StateRes.V1.Conflicts — what the state sets disagree on, in v1

`_seperate` of `synapse/state/v1.py`.  Unlike in v2 a key that some state set does not have can be unconflicted.

* `seperate_spec`: one candidate is unconflicted state, more are conflicted state; for every order of the state sets and
  of their items.
-/

namespace Synapse.StateRes.V1

open Lib Finset Option Finmap

/-- A dict from state key to set of event ids. -/
abbrev Conflicts := Finmap fun _ : StateKey => Finset String

/-! ## Iteration -/

/-- The iterations over dicts and sets whose order can be seen, with what tells apart the visits of each. -/
inductive Site where
  /-- `for key, value in state_set.items()`, of the state set at an index -/
  | stateSet (i : ℕ)
  /-- `for event in state_map.values()` -/
  | stateMap
  /-- `for event in state_map_new.values()` -/
  | stateMapNew
  /-- `for event_ids in conflicted_state.values()` in `_create_auth_events_from_maps` -/
  | authConflicted
  /-- `for event_id in event_ids`, of a key -/
  | authIds (key : StateKey)
  /-- `for key in keys`, of an event -/
  | authTypes (eventId : String)
  /-- `for key, event_ids in conflicted_state_ids.items()` -/
  | conflictedIds
  /-- `[state_map[ev_id] for ev_id in event_ids if ev_id in state_map]`, of a key -/
  | events (key : StateKey)
  /-- `for key, ev_id in auth_event_ids.items()` -/
  | authEventIds
  /-- `for key, events in conflicted_state.items()`, for the join rules -/
  | joinRules
  /-- for the members -/
  | members
  /-- for the rest -/
  | others
  /-- `auth_events.values()`, when an event is checked -/
  | authEvents (eventId : String)
  /-- `for key, event in resolved_state.items()` -/
  | resolved

/-- The order in which each dict and set is iterated. -/
structure Orders where
  ids : Site → SetOrder String
  keys : Site → SetOrder StateKey

/-! ## `_seperate` -/

def seperateItem (acc : StateMap × Conflicts) (key : StateKey) (value : String) : StateMap × Conflicts :=
  match acc.1.lookup key with
  | none =>
    match acc.2.lookup key with
    | none => (acc.1.insert key value, acc.2)
    | some ls => (acc.1, acc.2.insert key (insert value ls))
  | some unconflictedValue =>
    if unconflictedValue ≠ value then (acc.1.erase key, acc.2.insert key {value, unconflictedValue}) else acc

def seperateItems (stateSet : StateMap) (acc : StateMap × Conflicts) (keys : List StateKey) : StateMap × Conflicts :=
  keys.foldl (fun acc key => (stateSet.lookup key).elim acc (seperateItem acc key)) acc

/-- The outer loop, from the state set at an index on. -/
def seperateSets (o : Orders) (i : ℕ) (acc : StateMap × Conflicts) : List StateMap → StateMap × Conflicts
  | [] => acc
  | stateSet :: rest =>
    seperateSets o (i + 1) (seperateItems stateSet acc ((o.keys (.stateSet i)).iter stateSet.keys)) rest

/-- `_seperate(state_sets)`.  `next` of the empty iterator raises in a coroutine. -/
def seperate (o : Orders) : List StateMap → Except Exc (StateMap × Conflicts)
  | [] => throw (.exception [.text "coroutine raised StopIteration"])
  | first :: rest => pure (seperateSets o 1 (first, ∅) rest)

/-- Where a key with these candidates is. -/
structure Split (ids : Finset String) (unconflicted : Option String) (conflicted : Option (Finset String)) : Prop where
  one : ∀ id, unconflicted = some id ↔ ids = {id}
  many : ∀ s, conflicted = some s ↔ s = ids ∧ 1 < ids.card

/-- The candidates of each key. -/
def Splits (acc : StateMap × Conflicts) (cands : StateKey → Finset String) : Prop :=
  ∀ k, Split (cands k) (acc.1.lookup k) (acc.2.lookup k)

section Seperate

variable {ids : Finset String} {cands : StateKey → Finset String} {acc : StateMap × Conflicts} {key : StateKey}
  {value : String} {stateSet : StateMap} {stateSets : List StateMap}

theorem Split.first : Split {value} (some value) none := by
  refine ⟨fun id => ?_, fun s => ?_⟩
  · rw [some_inj, singleton_inj]
  · exact ⟨nofun, fun h => absurd h.2 (lt_irrefl 1)⟩

theorem Split.absent : Split ∅ none none := by
  refine ⟨fun id => ⟨nofun, fun h => ?_⟩, fun s => ⟨nofun, fun h => ?_⟩⟩
  · exact absurd h.symm (singleton_ne_empty id)
  · exact absurd h.2 (Nat.not_lt_zero 1)

theorem Split.conflict (h : 1 < ids.card) : Split ids none (some ids) := by
  refine ⟨fun id => ⟨nofun, fun hid => ?_⟩, fun s => ?_⟩
  · rw [hid, card_singleton] at h
    exact absurd h (lt_irrefl 1)
  · rw [some_inj]
    exact ⟨fun hs => ⟨hs.symm, h⟩, fun hs => hs.1.symm⟩

theorem Split.unique {u u' : Option String} {c c' : Option (Finset String)} (h : Split ids u c) (h' : Split ids u' c') :
    u = u' ∧ c = c' :=
  ⟨Option.ext fun id => (h.one id).trans (h'.one id).symm, Option.ext fun s => (h.many s).trans (h'.many s).symm⟩

theorem Split.cases {u : Option String} {c : Option (Finset String)} (h : Split ids u c) :
    (ids = ∅ ∧ u = none ∧ c = none) ∨ (∃ id, ids = {id} ∧ u = some id ∧ c = none) ∨
      (1 < ids.card ∧ u = none ∧ c = some ids) := by
  rcases Nat.lt_trichotomy ids.card 1 with hcard | hcard | hcard
  · cases card_eq_zero.mp (Nat.lt_one_iff.mp hcard)
    exact .inl ⟨rfl, h.unique .absent⟩
  · obtain ⟨id, rfl⟩ := card_eq_one.mp hcard
    exact .inr (.inl ⟨id, rfl, h.unique .first⟩)
  · exact .inr (.inr ⟨hcard, h.unique (.conflict hcard)⟩)

theorem seperateItem_self (h : Split ids (acc.1.lookup key) (acc.2.lookup key)) :
    Split (insert value ids) ((seperateItem acc key value).1.lookup key) ((seperateItem acc key value).2.lookup key) := by
  unfold seperateItem
  cases hu : acc.1.lookup key with
  | none =>
    rw [hu] at h
    have hsingle : ids.card ≠ 1 := by
      intro hcard
      obtain ⟨id, hid⟩ := card_eq_one.mp hcard
      cases (h.one id).mpr hid
    cases hc : acc.2.lookup key with
    | none =>
      -- the key has not been seen
      rw [hc] at h
      have hempty : ids = ∅ := by
        have hmany : ¬ 1 < ids.card := fun hcard => nomatch (h.many ids).mpr ⟨rfl, hcard⟩
        exact card_eq_zero.mp (by omega)
      subst hempty
      simp only [hc, lookup_insert]
      exact .first
    | some ls =>
      rw [hc] at h
      obtain ⟨rfl, hcard⟩ := (h.many ls).mp rfl
      simp only [hu, lookup_insert]
      exact .conflict (lt_of_lt_of_le hcard (card_le_card (subset_insert ..)))
  | some unconflictedValue =>
    rw [hu] at h
    cases (h.one unconflictedValue).mp rfl
    by_cases hne : unconflictedValue = value
    · subst hne
      simp only [ne_eq, not_true_eq_false, if_false, hu]
      have hc : acc.2.lookup key = none := by
        refine eq_none_iff_forall_ne_some.mpr fun s hs => ?_
        have hcard := ((h.many s).mp hs).2
        exact lt_irrefl 1 hcard
      rw [hc, insert_eq_of_mem (mem_singleton_self _)]
      exact .first
    · simp only [ne_eq, hne, not_false_eq_true, if_true, lookup_erase, lookup_insert]
      exact .conflict (by rw [card_pair (Ne.symm hne)]; exact Nat.one_lt_two)

theorem seperateItem_of_ne {k : StateKey} (hk : k ≠ key) : (seperateItem acc key value).1.lookup k = acc.1.lookup k ∧
      (seperateItem acc key value).2.lookup k = acc.2.lookup k := by
  unfold seperateItem
  split
  · split
    · exact ⟨lookup_insert_of_ne _ hk, rfl⟩
    · exact ⟨rfl, lookup_insert_of_ne _ hk⟩
  · split
    · exact ⟨lookup_erase_ne hk, lookup_insert_of_ne _ hk⟩
    · exact ⟨rfl, rfl⟩

theorem candidates_singleton (h : stateSet.lookup key = some value) : candidates [stateSet] key = {value} := by
  simp [candidates, h]

theorem candidates_cons (k : StateKey) :
    candidates (stateSet :: stateSets) k = candidates [stateSet] k ∪ candidates stateSets k := by
  ext id
  simp [candidates]

theorem Splits.congr {cands' : StateKey → Finset String} (h : Splits acc cands) (heq : ∀ k, cands' k = cands k) :
    Splits acc cands' := fun k => heq k ▸ h k

theorem seperateItem_splits (h : Splits acc cands) : Splits (seperateItem acc key value)
    fun k => if k = key then insert value (cands k) else cands k := by
  intro k
  dsimp only
  by_cases hk : k = key
  · subst hk
    rw [if_pos rfl]
    exact seperateItem_self (h k)
  · obtain ⟨hu, hc⟩ := @seperateItem_of_ne acc key value k hk
    rw [if_neg hk, hu, hc]
    exact h k

theorem seperateItems_splits {keys : List StateKey} (hkeys : ∀ k ∈ keys, k ∈ stateSet) (h : Splits acc cands) :
    Splits (seperateItems stateSet acc keys) fun k =>
      if k ∈ keys then candidates [stateSet] k ∪ cands k else cands k := by
  induction keys generalizing acc cands with
  | nil => exact h
  | cons x xs ih =>
    obtain ⟨value, hvalue⟩ := mem_iff.mp (hkeys x List.mem_cons_self)
    have hrest := ih (fun k hk => hkeys k (List.mem_cons_of_mem _ hk)) (@seperateItem_splits _ _ x value h)
    rw [seperateItems, List.foldl_cons, hvalue]
    refine hrest.congr fun k => ?_
    by_cases hk : k = x
    · subst hk
      rw [candidates_singleton hvalue, if_pos rfl, if_pos List.mem_cons_self]
      split
      · rw [union_insert, ← insert_eq, insert_idem]
      · rw [insert_eq]
    · simp only [hk, if_false, List.mem_cons, false_or]

theorem seperateSet_splits (order : SetOrder StateKey) (stateSet : StateMap) (h : Splits acc cands) :
    Splits (seperateItems stateSet acc (order.iter stateSet.keys)) fun k => candidates [stateSet] k ∪ cands k := by
  have hmem : ∀ k, k ∈ order.iter stateSet.keys ↔ k ∈ stateSet := fun k => (order.mem _ k).trans Finmap.mem_keys
  refine (seperateItems_splits (fun k hk => (hmem k).mp hk) h).congr fun k => ?_
  by_cases hk : k ∈ stateSet
  · rw [if_pos ((hmem k).mpr hk)]
  · have hnone : candidates [stateSet] k = ∅ := by simp [candidates, lookup_eq_none.mpr hk]
    rw [if_neg fun h => hk ((hmem k).mp h), hnone, Finset.empty_union]

theorem seperateSets_splits (o : Orders) (i : ℕ) (h : Splits acc cands) :
    Splits (seperateSets o i acc stateSets) fun k => cands k ∪ candidates stateSets k := by
  induction stateSets generalizing i acc cands with
  | nil => exact h.congr fun k => Finset.union_empty _
  | cons stateSet rest ih =>
    refine (ih (i + 1) (seperateSet_splits (o.keys (.stateSet i)) stateSet h)).congr fun k => ?_
    rw [candidates_cons, union_left_comm, ← Finset.union_assoc]

/-- **`_seperate`**: a key with one candidate is unconflicted, and one with more is conflicted. -/
theorem seperate_spec {o : Orders} (h : seperate o stateSets = .ok acc) (k : StateKey) :
    Split (candidates stateSets k) (acc.1.lookup k) (acc.2.lookup k) := by
  cases stateSets with
  | nil => cases h
  | cons first rest =>
    cases h
    rw [candidates_cons]
    refine seperateSets_splits o 1 (fun k => ?_) k
    cases hk : first.lookup k with
    | none =>
      rw [show candidates [first] k = ∅ by simp [candidates, hk]]
      exact .absent
    | some value =>
      rw [candidates_singleton hk]
      exact .first

theorem seperate_unique {stateSets' : List StateMap} {acc' : StateMap × Conflicts} {o o' : Orders}
    (hperm : stateSets.Perm stateSets') (h : seperate o stateSets = .ok acc) (h' : seperate o' stateSets' = .ok acc') :
    acc = acc' := by
  have hsplit : ∀ k, acc.1.lookup k = acc'.1.lookup k ∧ acc.2.lookup k = acc'.2.lookup k := by
    intro k
    refine (seperate_spec h k).unique ?_
    rw [candidates_congr (fun m => hperm.mem_iff) k]
    exact seperate_spec h' k
  exact Prod.ext (ext_lookup fun k => (hsplit k).1) (ext_lookup fun k => (hsplit k).2)

theorem seperate_congr {stateSets' : List StateMap} (hperm : stateSets.Perm stateSets') (o o' : Orders) :
    (seperate o stateSets).toOption = (seperate o' stateSets').toOption := by
  cases stateSets with
  | nil =>
    rw [List.nil_perm.mp hperm]
    rfl
  | cons first rest =>
    cases stateSets' with
    | nil => exact absurd hperm.length_eq (Nat.succ_ne_zero _)
    | cons first' rest' => exact congrArg some (seperate_unique hperm rfl rfl)

end Seperate

end Synapse.StateRes.V1
