import Mathlib.Data.Finset.Sort
import Mathlib.Data.String.Basic
import Synapse.State.Filter

/-!
# Synapse.SlidingSync.RequiredState — changes of the required state

What `_required_state_changes` makes of the required state of a request and the one that is remembered for the room: the
new one to remember, and a filter for the state that has to be fetched because it was not asked for before.

* `RequiredStateMap`: state keys by event type, with the special values of `StateValues`.
* `requiredStateChanges`: the function, over any order in which Python goes through a set.
* `get_effective`: what is remembered for one event type afterwards.
* `admits_fetched`: the keys of the filter.
-/

namespace Synapse.SlidingSync

open Lib State Finset Option Table

namespace StateValues

def wildcard : String := "*"

/-- The members that the timeline makes relevant. -/
def lazy : String := "$LAZY"

def me : String := "$ME"

def all : Finset String := {wildcard, lazy, me}

end StateValues

/-- The `EventTypes.Member` type. -/
def member : String := "m.room.member"

/-- The order in which a set is iterated over, which is arbitrary. -/
structure SetOrder where
  iter : Finset String → List String
  nodup : ∀ s, (iter s).Nodup
  mem : ∀ s x, x ∈ iter s ↔ x ∈ s

def Own.ascending : SetOrder := ⟨fun s => s.sort (· ≤ ·), fun s => s.sort_nodup _, fun s _ => s.mem_sort _⟩

/-- An order that has one element first. -/
def SetOrder.front (order : SetOrder) (x : String) : SetOrder where
  iter s := if x ∈ s then x :: order.iter (s.erase x) else order.iter s
  nodup s := by
    split
    · exact List.nodup_cons.mpr ⟨by simp [order.mem], order.nodup _⟩
    · exact order.nodup s
  mem s y := by
    split
    · next hx =>
      rw [List.mem_cons, order.mem, mem_erase]
      constructor
      · rintro (rfl | h)
        · exact hx
        · exact h.2
      · intro hy
        by_cases hyx : y = x
        · exact .inl hyx
        · exact .inr ⟨hyx, hy⟩
    · exact order.mem s y

theorem SetOrder.front_iter (order : SetOrder) {x : String} {s : Finset String} (hx : x ∈ s) :
    (order.front x).iter s = x :: order.iter (s.erase x) := if_pos hx

/-- `Mapping[str, AbstractSet[str]]`; there are no entries without state keys: `from_room_config` makes none, and
`_required_state_changes` removes them. -/
structure RequiredStateMap extends Table String (Finset String) where
  nonempty : ∀ t keys, (t, keys) ∈ rows → keys.Nonempty

namespace RequiredStateMap

/-- `m.get(t, set())` -/
def get (m : RequiredStateMap) (t : String) : Finset String := (m.find t).getD ∅

/-- `m.keys()` -/
def types (m : RequiredStateMap) : Finset String := (m.rows.map Prod.fst).toFinset

def empty : RequiredStateMap := { Table.empty with nonempty := by simp [Table.empty] }

/-- `m[t] = keys` for a set that is not empty, `m.pop(t, None)` for an empty one. -/
def set (m : RequiredStateMap) (t : String) (keys : Finset String) : RequiredStateMap :=
  if h : keys.Nonempty then
    { m.toTable.upsert t fun _ => keys with
      nonempty := by
        intro t' keys' hmem
        have hfind := mem_rows.mp hmem
        rw [find_upsert] at hfind
        split at hfind
        · exact Option.some.inj hfind ▸ h
        · exact m.nonempty t' keys' (mem_rows.mpr hfind) }
  else
    { m.toTable.erase t with nonempty := fun t' keys' hmem => m.nonempty t' keys' (List.mem_of_mem_filter hmem) }

/-- `m == m'` -/
def same (m m' : RequiredStateMap) : Bool :=
  m.rows.all (fun row => m'.find row.1 = some row.2) && m'.rows.all fun row => m.find row.1 = some row.2

theorem get_set (m : RequiredStateMap) (t t' : String) (keys : Finset String) :
    (m.set t keys).get t' = if t' = t then keys else m.get t' := by
  unfold set get
  by_cases h : keys.Nonempty
  · rw [dif_pos h]
    rw [find_upsert]
    split <;> rfl
  · rw [dif_neg h, not_nonempty_iff_eq_empty.mp h]
    rw [find_erase]
    split <;> rfl

theorem mem_types {m : RequiredStateMap} {t : String} : t ∈ m.types ↔ (m.get t).Nonempty := by
  unfold types get
  rw [List.mem_toFinset, ← find_isSome]
  cases hf : m.find t with
  | none => simp
  | some keys => simpa using m.nonempty t keys (mem_rows.mpr hf)

theorem get_eq_of_same {m m' : RequiredStateMap} (h : m.same m' = true) (t : String) : m.get t = m'.get t := by
  obtain ⟨h₁, h₂⟩ := Bool.and_eq_true_iff.mp h
  rw [List.all_eq_true] at h₁ h₂
  unfold get
  rcases hf : m.find t with _ | keys
  · rcases hf' : m'.find t with _ | keys'
    · rfl
    · have := h₂ _ (mem_rows.mpr hf')
      simp [hf] at this
  · rw [of_decide_eq_true (h₁ _ (mem_rows.mpr hf))]

theorem get_foldl_set {f : String → Finset String} {changes : List (String × Finset String)}
    (hf : ∀ p ∈ changes, p.2 = f p.1) (m : RequiredStateMap) (t : String) :
    (changes.foldl (fun m p => m.set p.1 p.2) m).get t = if t ∈ changes.map Prod.fst then f t else m.get t := by
  induction changes generalizing m with
  | nil => simp
  | cons p changes ih =>
    rw [List.foldl_cons, ih fun p hp => hf p (List.mem_cons_of_mem _ hp), get_set, hf p List.mem_cons_self]
    simp only [List.map_cons, List.mem_cons]
    by_cases ht : t = p.1
    · simp only [ht, true_or, if_true, ite_self]
    · simp only [ht, if_false, false_or]

end RequiredStateMap

/-! ## The function -/

open StateValues

def maxNumberPreviousStateKeysToRemember : ℕ := 100

section Changes

variable (order : SetOrder) (userId : String)

/-- The previous state keys that stay remembered when some are added. -/
def inheritablePreviousStateKeys (old request changed : Finset String) : Finset String :=
  (old \ {wildcard, lazy}) \ ((old \ request) ∩ changed)

/-- What the first loop puts into `changes` for a type with added keys. -/
def keysToRemember (old request changed : Finset String) : Finset String :=
  let inheritable := inheritablePreviousStateKeys old request changed
  if (request ∪ inheritable).card > maxNumberPreviousStateKeysToRemember then
    if request.card < maxNumberPreviousStateKeysToRemember then
      request ∪ ((order.iter inheritable).take (maxNumberPreviousStateKeysToRemember - request.card)).toFinset
    else request
  else request ∪ inheritable

/-- What the first loop appends to `added` for a type with added keys. -/
def keysToFetch (t : String) (old request : Finset String) : List (String × Option String) :=
  if wildcard ∈ old then []
  else if wildcard ∈ request then [(t, none)]
  else (order.iter (request \ old)).filterMap fun key =>
    if key = me then some (t, some userId) else if key = lazy then none else some (t, some key)

/-- `changed_state_keys` in the second loop, with `$ME` for the user's own key. -/
def changedWithMe (changed : Finset String) : Finset String :=
  if userId ∈ changed then insert me changed else changed

/-- The second loop, for a type with state changes: what it puts into `changes`, if anything. -/
def afterRemovals (t : String) (old request changed : Finset String) : Option (Finset String) :=
  if old = request then none
  else
    let invalidated := (old \ request) ∩ changedWithMe userId changed
    if (request \ old).Nonempty then none
    else if (wildcard ∈ old) ≠ (wildcard ∈ request) then some request
    else if t = member ∧ (lazy ∈ old) ≠ (lazy ∈ request) then some request
    else if invalidated.Nonempty then some (old \ invalidated)
    else none

/-- `changed_types_to_state_keys`, at a type. -/
def changedStateKeys (deltas : StateMap) (t : String) : Finset String :=
  (deltas.keys.filter fun k => k.1 = t).image Prod.snd

variable (prev request : RequiredStateMap) (deltas : StateMap)

/-- The types for which something was added. -/
def typesWithAdditions : List String :=
  (order.iter (prev.types ∪ request.types)).filter fun t =>
    prev.get t ≠ request.get t ∧ (request.get t \ prev.get t).Nonempty

/-- `changes`, after both loops. -/
def changes : List (String × Finset String) :=
  (typesWithAdditions order prev request).map (fun t =>
    (t, keysToRemember order (prev.get t) (request.get t) (changedStateKeys deltas t))) ++
  (order.iter (deltas.keys.image Prod.fst)).filterMap fun t =>
    (afterRemovals userId t (prev.get t) (request.get t) (changedStateKeys deltas t)).map fun keys => (t, keys)

def added : List (String × Option String) :=
  (typesWithAdditions order prev request).flatMap fun t => keysToFetch order userId t (prev.get t) (request.get t)

def requiredStateChanges : Option RequiredStateMap × StateFilter :=
  if prev.same request then (none, .none)
  else if wildcard ∈ prev.get wildcard then (some request, .none)
  else if (request.get wildcard \ prev.get wildcard).Nonempty then (some request, .all)
  else if (prev.get wildcard \ request.get wildcard).Nonempty then (some request, .none)
  else
    let addedStateFilter := StateFilter.fromTypes (added order userId prev request)
    let changes := changes order userId prev request deltas
    if changes ≠ [] then (some (changes.foldl (fun m p => m.set p.1 p.2) prev), addedStateFilter)
    else (none, addedStateFilter)

/-- The required state that counts as sent after the changes. -/
def effective : RequiredStateMap := (requiredStateChanges order userId prev request deltas).1.getD prev

/-! ## What is remembered for one type -/

/-- The remembered state keys of a type after a request that leaves the event type wildcards as they are. -/
def keysAfter (t : String) : Finset String :=
  let old := prev.get t
  if (request.get t \ old).Nonempty then keysToRemember order old (request.get t) (changedStateKeys deltas t)
  else if t ∈ deltas.keys.image Prod.fst then
    (afterRemovals userId t old (request.get t) (changedStateKeys deltas t)).getD old
  else old

variable {order userId prev request deltas} {t : String}

theorem mem_typesWithAdditions : t ∈ typesWithAdditions order prev request ↔ (request.get t \ prev.get t).Nonempty := by
  unfold typesWithAdditions
  rw [List.mem_filter, order.mem, mem_union, decide_eq_true_eq]
  refine ⟨fun h => h.2.2, fun h => ⟨.inr ?_, ?_, h⟩⟩
  · exact RequiredStateMap.mem_types.mpr (h.mono sdiff_subset)
  · rintro heq
    simp [heq] at h

variable {old changed : Finset String}

theorem afterRemovals_eq_none {request : Finset String} (h : (request \ old).Nonempty) :
    afterRemovals userId t old request changed = none := by
  simp [afterRemovals, h]

theorem snd_of_mem_changes {p : String × Finset String} (hp : p ∈ changes order userId prev request deltas) :
    p.2 = keysAfter order userId prev request deltas p.1 := by
  unfold keysAfter
  rcases List.mem_append.mp hp with hp | hp
  · obtain ⟨t, ht, rfl⟩ := List.mem_map.mp hp
    exact (if_pos (mem_typesWithAdditions.mp ht)).symm
  obtain ⟨t, ht, hp⟩ := List.mem_filterMap.mp hp
  obtain ⟨keys, hkeys, rfl⟩ := map_eq_some_iff.mp hp
  have hadd : ¬ (request.get t \ prev.get t).Nonempty := by
    intro hadd
    rw [afterRemovals_eq_none hadd] at hkeys
    cases hkeys
  rw [if_neg hadd, if_pos ((order.mem _ _).mp ht), hkeys]
  rfl

theorem keysAfter_of_not_mem (h : t ∉ (changes order userId prev request deltas).map Prod.fst) :
    keysAfter order userId prev request deltas t = prev.get t := by
  have hnot : ∀ keys, (t, keys) ∉ changes order userId prev request deltas := fun keys hmem =>
    h (List.mem_map.mpr ⟨_, hmem, rfl⟩)
  unfold keysAfter
  by_cases hadd : (request.get t \ prev.get t).Nonempty
  · exact (hnot _ (List.mem_append_left _ (List.mem_map.mpr ⟨t, mem_typesWithAdditions.mpr hadd, rfl⟩))).elim
  rw [if_neg hadd]
  split_ifs with ht
  · rcases hkeys : afterRemovals userId t (prev.get t) (request.get t) (changedStateKeys deltas t) with _ | keys
    · rfl
    · refine absurd (List.mem_append_right _ ?_) (hnot keys)
      exact List.mem_filterMap.mpr ⟨t, (order.mem _ _).mpr ht, by rw [hkeys]; rfl⟩
  · rfl

variable (order userId prev request deltas) in
/-- What the function can do: nothing, since nothing has changed; take over the request when event type wildcards are
given up or added; or go through the two loops. -/
theorem requiredStateChanges_cases :
    ((∀ t, prev.get t = request.get t) ∧ requiredStateChanges order userId prev request deltas = (none, .none)) ∨
    ((wildcard ∈ prev.get wildcard ∨ request.get wildcard ⊂ prev.get wildcard) ∧
      requiredStateChanges order userId prev request deltas = (some request, .none)) ∨
    ((request.get wildcard \ prev.get wildcard).Nonempty ∧
      requiredStateChanges order userId prev request deltas = (some request, .all)) ∨
    (prev.get wildcard = request.get wildcard ∧
      (requiredStateChanges order userId prev request deltas).2 =
        StateFilter.fromTypes (added order userId prev request) ∧
      ∀ t, (effective order userId prev request deltas).get t = keysAfter order userId prev request deltas t) := by
  unfold effective requiredStateChanges
  dsimp only
  split_ifs with hsame hall hmore hless hch
  · exact .inl ⟨RequiredStateMap.get_eq_of_same hsame, rfl⟩
  · exact .inr (.inl ⟨.inl hall, rfl⟩)
  · exact .inr (.inr (.inl ⟨hmore, rfl⟩))
  all_goals rw [not_nonempty_iff_eq_empty, sdiff_eq_empty_iff_subset] at hmore
  · exact .inr (.inl ⟨.inr ⟨hmore, sdiff_nonempty.mp hless⟩, rfl⟩)
  all_goals rw [not_nonempty_iff_eq_empty, sdiff_eq_empty_iff_subset] at hless
  · refine .inr (.inr (.inr ⟨hless.antisymm hmore, rfl, fun t => ?_⟩))
    refine (RequiredStateMap.get_foldl_set (fun p hp => snd_of_mem_changes hp) _ t).trans ?_
    split
    · rfl
    · rename_i h
      exact (keysAfter_of_not_mem h).symm
  · rw [not_not] at hch
    exact .inr (.inr (.inr ⟨hless.antisymm hmore, rfl, fun t => (keysAfter_of_not_mem (by simp [hch])).symm⟩))

variable (order userId prev request deltas) in
/-- **What is remembered afterwards**: what the request asks for, or, when the event type wildcards stay the same, what
the two loops leave at each type. -/
theorem get_effective : (∀ t, (effective order userId prev request deltas).get t = request.get t) ∨
      (prev.get wildcard = request.get wildcard ∧
        ∀ t, (effective order userId prev request deltas).get t = keysAfter order userId prev request deltas t) := by
  rcases requiredStateChanges_cases order userId prev request deltas with ⟨hsame, h⟩ | ⟨-, h⟩ | ⟨-, h⟩ | ⟨heq, -, h⟩
  · exact .inl fun t => by rw [effective, h]; exact hsame t
  · exact .inl fun t => by rw [effective, h]; rfl
  · exact .inl fun t => by rw [effective, h]; rfl
  · exact .inr ⟨heq, h⟩

/-! ## What is fetched -/

theorem mem_keysToFetch {t' : String} {request : Finset String} {s : Option String} :
    (t', s) ∈ keysToFetch order userId t old request ↔ t' = t ∧ wildcard ∉ old ∧
      if wildcard ∈ request then s = none
      else ∃ key ∈ request \ old, (key = me ∧ s = some userId) ∨ (key ≠ me ∧ key ≠ lazy ∧ s = some key) := by
  unfold keysToFetch
  by_cases hold : wildcard ∈ old
  · simp [hold]
  by_cases hreq : wildcard ∈ request
  · simp [hold, hreq]
  simp only [hold, hreq, if_false, not_false_eq_true, true_and, List.mem_filterMap, order.mem]
  constructor
  · rintro ⟨key, hkey, h⟩
    split_ifs at h with hme hlazy
    · obtain ⟨rfl, rfl⟩ := Prod.mk.inj (some.inj h)
      exact ⟨rfl, key, hkey, .inl ⟨hme, rfl⟩⟩
    · obtain ⟨rfl, rfl⟩ := Prod.mk.inj (some.inj h)
      exact ⟨rfl, key, hkey, .inr ⟨hme, hlazy, rfl⟩⟩
  · rintro ⟨rfl, key, hkey, ⟨hme, rfl⟩ | ⟨hme, hlazy, rfl⟩⟩
    · exact ⟨key, hkey, if_pos hme⟩
    · exact ⟨key, hkey, by rw [if_neg hme, if_neg hlazy]⟩

theorem mem_added {s : Option String} : (t, s) ∈ added order userId prev request ↔
      (request.get t \ prev.get t).Nonempty ∧ (t, s) ∈ keysToFetch order userId t (prev.get t) (request.get t) := by
  unfold added
  rw [List.mem_flatMap]
  constructor
  · rintro ⟨t', ht', hs⟩
    obtain rfl := (mem_keysToFetch.mp hs).1
    exact ⟨mem_typesWithAdditions.mp ht', hs⟩
  · rintro ⟨ht, hs⟩
    exact ⟨t, mem_typesWithAdditions.mpr ht, hs⟩

/-! ## Keys that count as sent -/

/-- The entry of the key's own type covers the key.  `$ME` under `m.room.member` does not count: requests for it also ask
for the user id. -/
def Covers (m : RequiredStateMap) (userId : String) (k : StateKey) : Prop :=
  wildcard ∈ m.get k.1 ∨ (k.2 ∈ m.get k.1 ∧ k.2 ∉ StateValues.all) ∨ (me ∈ m.get k.1 ∧ k.1 ≠ member ∧ k.2 = userId)

/-- A request for the key alone would not make the code fetch it: with an event type wildcard everything counts as sent. -/
def Remembers (m : RequiredStateMap) (userId : String) (k : StateKey) : Prop :=
  ((m.get wildcard).Nonempty ∧ k.1 ≠ wildcard) ∨ Covers m userId k

variable {s : String}

theorem ne_of_not_mem_all (h : s ∉ StateValues.all) : s ≠ wildcard ∧ s ≠ lazy ∧ s ≠ me := by
  simpa [StateValues.all] using h

variable {k : StateKey}

theorem Covers.mono {m m' : RequiredStateMap} (hsub : m.get k.1 ⊆ m'.get k.1)
    (h : Covers m userId k) : Covers m' userId k :=
  h.imp (hsub ·) (Or.imp (fun h => ⟨hsub h.1, h.2⟩) fun h => ⟨hsub h.1, h.2⟩)

/-- A key that an entry of the request covers is already covered at the type, or fetched.  Where `$ME` counts is up to
the condition. -/
theorem covered_or_added {c : Prop}
    (h : wildcard ∈ request.get t ∨ (s ∈ request.get t ∧ s ∉ StateValues.all) ∨ (me ∈ request.get t ∧ c ∧ s = userId)) :
    (wildcard ∈ prev.get t ∨ (s ∈ prev.get t ∧ s ∉ StateValues.all) ∨ (me ∈ prev.get t ∧ c ∧ s = userId)) ∨
      (t, none) ∈ added order userId prev request ∨ (t, some s) ∈ added order userId prev request := by
  by_cases hold : wildcard ∈ prev.get t
  · exact .inl (.inl hold)
  by_cases hreq : wildcard ∈ request.get t
  · refine .inr (.inl (mem_added.mpr ⟨⟨wildcard, mem_sdiff.mpr ⟨hreq, hold⟩⟩, ?_⟩))
    exact mem_keysToFetch.mpr ⟨rfl, hold, by rw [if_pos hreq]⟩
  rcases h with h | ⟨hk, hspecial⟩ | ⟨hk, hown, huser⟩
  · exact absurd h hreq
  · by_cases hin : s ∈ prev.get t
    · exact .inl (.inr (.inl ⟨hin, hspecial⟩))
    have hnew := mem_sdiff.mpr ⟨hk, hin⟩
    refine .inr (.inr (mem_added.mpr ⟨⟨_, hnew⟩, mem_keysToFetch.mpr ⟨rfl, hold, ?_⟩⟩))
    rw [if_neg hreq]
    obtain ⟨-, hlazy, hme⟩ := ne_of_not_mem_all hspecial
    exact ⟨s, hnew, .inr ⟨hme, hlazy, rfl⟩⟩
  · by_cases hin : me ∈ prev.get t
    · exact .inl (.inr (.inr ⟨hin, hown, huser⟩))
    have hnew := mem_sdiff.mpr ⟨hk, hin⟩
    refine .inr (.inr (mem_added.mpr ⟨⟨_, hnew⟩, mem_keysToFetch.mpr ⟨rfl, hold, ?_⟩⟩))
    rw [if_neg hreq]
    exact ⟨me, hnew, .inl ⟨rfl, by rw [huser]⟩⟩

/-- **Nothing that is asked for is forgotten**: a key that the request makes count as sent did so before, or the filter
fetches it. -/
theorem remembers_or_fetched (h : Remembers request userId k) :
    Remembers prev userId k ∨ (requiredStateChanges order userId prev request deltas).2.admits k = true := by
  have hprev : (prev.get wildcard).Nonempty → k.1 ≠ wildcard → Remembers prev userId k := fun h hk => .inl ⟨h, hk⟩
  rcases requiredStateChanges_cases order userId prev request deltas with ⟨hsame, -⟩ | ⟨hall | hless, -⟩ | ⟨-, hr⟩ | ⟨heq, hr, -⟩
  · left
    unfold Remembers Covers
    simp only [hsame]
    exact h
  · left
    by_cases hk : k.1 = wildcard
    · exact .inr (.inl (hk ▸ hall))
    · exact hprev ⟨_, hall⟩ hk
  · left
    by_cases hk : k.1 = wildcard
    · exact .inr ((h.resolve_left fun h => h.2 hk).mono (by rw [hk]; exact hless.subset))
    · exact hprev ((exists_of_ssubset hless).imp fun _ h => h.1) hk
  · rw [hr]
    exact .inr (StateFilter.isFull_admits rfl)
  · rw [hr, StateFilter.admits_fromTypes]
    rcases h with ⟨hw, hk⟩ | h
    · exact .inl (hprev (heq ▸ hw) hk)
    · exact (covered_or_added h).imp_left .inr

theorem admits_fetched (h : (requiredStateChanges order userId prev request deltas).2.admits k = true) :
    (request.get wildcard \ prev.get wildcard).Nonempty ∨
      (prev.get wildcard = request.get wildcard ∧ (request.get k.1 \ prev.get k.1).Nonempty) := by
  rcases requiredStateChanges_cases order userId prev request deltas with
    ⟨-, hr⟩ | ⟨-, hr⟩ | ⟨hmore, -⟩ | ⟨heq, hr, -⟩
  · rw [hr] at h
    cases h
  · rw [hr] at h
    cases h
  · exact .inl hmore
  · rw [hr, StateFilter.admits_fromTypes] at h
    exact .inr ⟨heq, h.elim (fun h => (mem_added.mp h).1) fun h => (mem_added.mp h).1⟩

/-! ## What stays remembered -/

variable {key : String}

theorem mem_changedStateKeys : key ∈ changedStateKeys deltas t ↔ (t, key) ∈ deltas := by
  simp [changedStateKeys, Finmap.mem_keys]

theorem mem_changedWithMe : key ∈ changedWithMe userId changed ↔ key ∈ changed ∨ (key = me ∧ userId ∈ changed) := by
  unfold changedWithMe
  split <;> simp [*, or_comm]

theorem mem_keysToRemember {request : Finset String} (h : key ∈ keysToRemember order old request changed) :
    key ∈ request ∨ key ∈ inheritablePreviousStateKeys old request changed := by
  unfold keysToRemember at h
  dsimp only at h
  split_ifs at h
  · refine (mem_union.mp h).imp_right fun h => ?_
    exact (order.mem _ _).mp (List.mem_of_mem_take (List.mem_toFinset.mp h))
  · exact .inl h
  · exact mem_union.mp h

/-- What is known of a state key that stays remembered although the request does not ask for it. -/
structure Kept (userId : String) (prev request : RequiredStateMap) (deltas : StateMap) (t key : String) : Prop where
  before : key ∈ prev.get t
  unchanged : (t, key) ∉ deltas
  wildcard : key = wildcard → ∀ k ∈ deltas, k.1 ≠ t
  own : key = me → (t, userId) ∈ deltas → (request.get t \ prev.get t).Nonempty

theorem afterRemovals_kept
    (h : key ∈ (afterRemovals userId t (prev.get t) (request.get t) (changedStateKeys deltas t)).getD (prev.get t))
    (hreq : key ∉ request.get t) (hadd : ¬ (request.get t \ prev.get t).Nonempty) :
    Kept userId prev request deltas t key := by
  have hkept : key ∈ prev.get t → key ∉ changedWithMe userId (changedStateKeys deltas t) →
      ¬ ((wildcard ∈ prev.get t) ≠ (wildcard ∈ request.get t)) → Kept userId prev request deltas t key := by
    intro hbefore hunchanged hwild
    rw [mem_changedWithMe, mem_changedStateKeys, mem_changedStateKeys] at hunchanged
    refine ⟨hbefore, fun hmem => hunchanged (.inl hmem), ?_, fun hme hmem => absurd (.inr ⟨hme, hmem⟩) hunchanged⟩
    rintro rfl
    simp [hbefore, hreq] at hwild
  unfold afterRemovals at h
  dsimp only at h
  split_ifs at h with heq hwild hlazy hinv
  · exact absurd (heq ▸ h) hreq
  · exact absurd h hreq
  · exact absurd h hreq
  · -- the keys that were not invalidated
    obtain ⟨hbefore, hnot⟩ := mem_sdiff.mp h
    exact hkept hbefore (fun hmem => hnot (mem_inter.mpr ⟨mem_sdiff.mpr ⟨hbefore, hreq⟩, hmem⟩)) hwild
  · exact hkept h (fun hmem => hinv ⟨key, mem_inter.mpr ⟨mem_sdiff.mpr ⟨h, hreq⟩, hmem⟩⟩) hwild

theorem mem_keysAfter (h : key ∈ keysAfter order userId prev request deltas t)
    (hreq : key ∉ request.get t) : Kept userId prev request deltas t key := by
  unfold keysAfter at h
  by_cases hadd : (request.get t \ prev.get t).Nonempty
  · rw [if_pos hadd] at h
    have hin := (mem_keysToRemember h).resolve_left hreq
    unfold inheritablePreviousStateKeys at hin
    simp only [mem_sdiff, mem_insert, mem_inter, not_or, not_and] at hin
    obtain ⟨⟨hbefore, hw, -⟩, hch⟩ := hin
    exact ⟨hbefore, fun hmem => hch ⟨hbefore, hreq⟩ (mem_changedStateKeys.mpr hmem), fun h => absurd h hw,
      fun _ _ => hadd⟩
  rw [if_neg hadd] at h
  split_ifs at h with ht
  · exact afterRemovals_kept h hreq hadd
  have hnone : ∀ k ∈ deltas, k.1 ≠ t := by
    rintro k hk rfl
    exact ht (mem_image.mpr ⟨k, Finmap.mem_keys.mpr hk, rfl⟩)
  exact ⟨h, fun hmem => hnone _ hmem rfl, fun _ => hnone, fun _ hmem => absurd rfl (hnone _ hmem)⟩

theorem mem_effective (h : key ∈ (effective order userId prev request deltas).get t) :
    key ∈ request.get t ∨ key ∈ prev.get t := by
  rcases get_effective order userId prev request deltas with heff | ⟨-, heff⟩
  · exact .inl (heff t ▸ h)
  · by_cases hreq : key ∈ request.get t
    · exact .inl hreq
    · exact .inr (mem_keysAfter (heff t ▸ h) hreq).before

variable (order userId prev deltas) in
theorem get_subset_effective (t : String) : request.get t ⊆ (effective order userId prev request deltas).get t := by
  rcases get_effective order userId prev request deltas with heff | ⟨-, heff⟩
  · rw [heff t]
  rw [heff t]
  unfold keysAfter
  by_cases hadd : (request.get t \ prev.get t).Nonempty
  · rw [if_pos hadd]
    unfold keysToRemember
    dsimp only
    split_ifs
    · exact subset_union_left
    · exact subset_rfl
    · exact subset_union_left
  rw [if_neg hadd]
  unfold afterRemovals
  rw [if_neg hadd]
  rw [not_nonempty_iff_eq_empty, sdiff_eq_empty_iff_subset] at hadd
  split_ifs
  · exact hadd
  · exact subset_rfl
  · exact subset_rfl
  · exact fun key hkey => mem_sdiff.mpr ⟨hadd hkey, fun hinv => (mem_sdiff.mp (mem_inter.mp hinv).1).2 hkey⟩
  · exact hadd
  · exact hadd

/-- The one way in which a changed key stays remembered that the request does not ask for: the requester's own key of
another type than `m.room.member`, asked for as `$ME` before, when the request adds other keys of the type. -/
structure KeptOwn (order : SetOrder) (userId : String) (prev request : RequiredStateMap) (deltas : StateMap)
    (t : String) : Prop where
  noWildcard : prev.get wildcard = ∅
  notMember : t ≠ member
  before : me ∈ prev.get t
  dropped : me ∉ request.get t
  added : (request.get t \ prev.get t).Nonempty
  changed : (t, userId) ∈ deltas
  kept : me ∈ keysToRemember order (prev.get t) (request.get t) (changedStateKeys deltas t)

/-- **What stays remembered**: what the request asks for, what has not changed, and own keys that slip through. -/
theorem remembers_effective (h : Remembers (effective order userId prev request deltas) userId k) :
    Remembers request userId k ∨ (Remembers prev userId k ∧ k ∉ deltas) ∨
      (k.2 = userId ∧ KeptOwn order userId prev request deltas k.1) := by
  rcases get_effective order userId prev request deltas with heff | ⟨heq, heff⟩
  · left
    unfold Remembers Covers at h ⊢
    simpa only [heff] using h
  have hkept : ∀ t key, key ∈ (effective order userId prev request deltas).get t → key ∉ request.get t →
      Kept userId prev request deltas t key := fun t key hkey => mem_keysAfter (heff t ▸ hkey)
  rcases h with ⟨⟨key, hkey⟩, hk⟩ | h | ⟨h, hs⟩ | ⟨h, hne, huser⟩
  · refine .inl (.inl ⟨⟨key, ?_⟩, hk⟩)
    by_contra hreq
    exact hreq (heq ▸ (hkept _ _ hkey hreq).before)
  · by_cases hreq : wildcard ∈ request.get k.1
    · exact .inl (.inr (.inl hreq))
    · have hk := hkept _ _ h hreq
      exact .inr (.inl ⟨.inr (.inl hk.before), fun hmem => hk.wildcard rfl k hmem rfl⟩)
  · by_cases hreq : k.2 ∈ request.get k.1
    · exact .inl (.inr (.inr (.inl ⟨hreq, hs⟩)))
    · have hk := hkept _ _ h hreq
      exact .inr (.inl ⟨.inr (.inr (.inl ⟨hk.before, hs⟩)), hk.unchanged⟩)
  by_cases hreq : me ∈ request.get k.1
  · exact .inl (.inr (.inr (.inr ⟨hreq, hne, huser⟩)))
  have hk := hkept _ _ h hreq
  by_cases hmem : k ∈ deltas
  · have hmem' : (k.1, userId) ∈ deltas := by rwa [← huser]
    by_cases hw : (request.get wildcard).Nonempty
    · refine .inl (.inl ⟨hw, fun hk1 => hreq ?_⟩)
      rw [hk1, ← heq, ← hk1]
      exact hk.before
    have hadd := hk.own rfl hmem'
    rw [not_nonempty_iff_eq_empty, ← heq] at hw
    refine .inr (.inr ⟨huser, hw, hne, hk.before, hreq, hadd, hmem', ?_⟩)
    rw [heff, keysAfter, if_pos hadd] at h
    exact h
  · exact .inr (.inl ⟨.inr (.inr (.inr ⟨hk.before, hne, huser⟩)), hmem⟩)

theorem KeptOwn.mem_changed (h : KeptOwn order userId prev request deltas t) (hw : request.get wildcard = ∅) :
    ∃ changed, (requiredStateChanges order userId prev request deltas).1 = some changed ∧ me ∈ changed.get t := by
  have hmem : me ∈ (effective order userId prev request deltas).get t := by
    rcases requiredStateChanges_cases order userId prev request deltas with
      ⟨hsame, -⟩ | ⟨hall | hless, -⟩ | ⟨hmore, -⟩ | ⟨-, -, heff⟩
    · exact absurd (hsame t ▸ h.before) h.dropped
    · simp [h.noWildcard] at hall
    · simp [h.noWildcard] at hless
    · simp [hw] at hmore
    · rw [heff, keysAfter, if_pos h.added]
      exact h.kept
  rcases hch : (requiredStateChanges order userId prev request deltas).1 with _ | changed
  · obtain ⟨key, hkey⟩ := h.added
    obtain ⟨hreq, hnot⟩ := mem_sdiff.mp hkey
    have hsub := get_subset_effective order userId prev deltas t hreq
    rw [effective, hch] at hsub
    exact absurd hsub hnot
  · rw [effective, hch] at hmem
    exact ⟨changed, rfl, hmem⟩

/-! ## State that is covered, and entries that are kept -/

/-- The map covers a piece of state, under its type or under all types: with a wildcard, with its key, or with `$ME`. -/
def CoversState (m : RequiredStateMap) (userId : String) (k : StateKey) : Prop :=
  ∃ t, (t = k.1 ∨ t = wildcard) ∧
    (wildcard ∈ m.get t ∨ (k.2 ∈ m.get t ∧ k.2 ∉ StateValues.all) ∨ (me ∈ m.get t ∧ k.2 = userId))

/-- **State that is newly covered is fetched**, if there was no event type wildcard. -/
theorem newly_covered_fetched (hprev : prev.get wildcard = ∅) {k : StateKey} (h : CoversState request userId k)
    (hnew : ¬ CoversState prev userId k) :
    (requiredStateChanges order userId prev request deltas).2.admits k = true := by
  rcases requiredStateChanges_cases order userId prev request deltas with
    ⟨hsame, -⟩ | ⟨hall | hless, -⟩ | ⟨-, hr⟩ | ⟨heq, hr, -⟩
  · refine absurd ?_ hnew
    unfold CoversState at h ⊢
    simpa only [hsame] using h
  · simp [hprev] at hall
  · simp [hprev] at hless
  · rw [hr]
    exact StateFilter.isFull_admits rfl
  · -- the request has no event type wildcard either, so it covers the key at its type
    obtain ⟨t, ht, h⟩ := h
    have htype : t = k.1 := ht.resolve_right fun ht => by simp [ht, ← heq, hprev] at h
    subst htype
    rw [hr, StateFilter.admits_fromTypes]
    refine (covered_or_added (c := True) (by simpa using h)).resolve_left fun hold => hnew ⟨k.1, .inl rfl, ?_⟩
    simpa using hold

theorem get_effective_of_all (h : wildcard ∈ prev.get wildcard) (t : String) :
    (effective order userId prev request deltas).get t = request.get t := by
  unfold effective requiredStateChanges
  split_ifs with hsame
  · exact RequiredStateMap.get_eq_of_same hsame t
  · rfl

/-- The own state of a type has changed, and `$ME` is given up for new keys of the type, of which there are not too many.
The loop over the types with new keys compares the changed keys with `$ME` itself. -/
structure GivenUp (userId : String) (prev request : RequiredStateMap) (deltas : StateMap) (t : String) : Prop where
  sameWildcards : prev.get wildcard = request.get wildcard
  notAll : wildcard ∉ prev.get wildcard
  before : me ∈ prev.get t
  dropped : me ∉ request.get t
  added : (request.get t \ prev.get t).Nonempty
  few : (request.get t).card < maxNumberPreviousStateKeysToRemember
  changed : (t, userId) ∈ deltas
  unnamed : (t, me) ∉ deltas

theorem card_lt_of_mem_keysToRemember {old request : Finset String} (hreq : key ∉ request)
    (h : key ∈ keysToRemember order old request changed) : request.card < maxNumberPreviousStateKeysToRemember := by
  have hin := (mem_keysToRemember h).resolve_left hreq
  by_contra hcard
  unfold keysToRemember at h
  dsimp only at h
  rw [if_neg hcard] at h
  split_ifs at h with hlimit
  · exact hreq h
  · have hlt := card_lt_card (ssubset_iff.mpr ⟨key, hreq, insert_subset (mem_union_right _ hin) subset_union_left⟩ :
      request ⊂ request ∪ inheritablePreviousStateKeys old request changed)
    omega

theorem GivenUp.mem_effective (h : GivenUp userId prev request deltas t) :
    me ∈ (effective (order.front me) userId prev request deltas).get t := by
  have hin : me ∈ inheritablePreviousStateKeys (prev.get t) (request.get t) (changedStateKeys deltas t) := by
    refine mem_sdiff.mpr ⟨mem_sdiff.mpr ⟨h.before, by decide⟩, fun hmem => ?_⟩
    exact h.unnamed (mem_changedStateKeys.mp (mem_inter.mp hmem).2)
  rcases requiredStateChanges_cases (order.front me) userId prev request deltas with
    ⟨hsame, -⟩ | ⟨hall | hless, -⟩ | ⟨hmore, -⟩ | ⟨-, -, heff⟩
  · exact absurd (hsame t ▸ h.before) h.dropped
  · exact absurd hall h.notAll
  · simp [h.sameWildcards] at hless
  · simp [h.sameWildcards] at hmore
  rw [heff, keysAfter, if_pos h.added]
  unfold keysToRemember
  dsimp only
  split_ifs with hlimit hcard
  · -- `$ME` is the first of those that there is room for
    have hfew := h.few
    obtain ⟨n, hn⟩ : ∃ n, maxNumberPreviousStateKeysToRemember - (request.get t).card = n + 1 :=
      ⟨_, (Nat.sub_add_cancel (by omega)).symm⟩
    rw [SetOrder.front_iter _ hin, hn, List.take_succ_cons]
    exact mem_union_right _ (List.mem_toFinset.mpr List.mem_cons_self)
  · exact absurd h.few hcard
  · exact mem_union_right _ hin

/-- **An entry that is kept although the request does not ask for it** was there before, and its state has not changed,
in whatever order sets are iterated over, exactly if no `$ME` is given up for other keys of its type. -/
theorem kept_entry_unchanged_iff (userId : String) (prev request : RequiredStateMap) (deltas : StateMap) :
    (∀ order t key, key ∈ (effective order userId prev request deltas).get t → key ∉ request.get t →
      key ∈ prev.get t ∧ (t, if key = me then userId else key) ∉ deltas) ↔
    ∀ t, ¬ GivenUp userId prev request deltas t := by
  constructor
  · intro hkept t h
    exact (hkept (Own.ascending.front me) t me h.mem_effective h.dropped).2 (by rw [if_pos rfl]; exact h.changed)
  · intro hnone order t key h hreq
    rcases get_effective order userId prev request deltas with heff | ⟨heq, heff⟩
    · exact absurd (heff t ▸ h) hreq
    have hk := mem_keysAfter (heff t ▸ h) hreq
    refine ⟨hk.before, fun hmem => ?_⟩
    by_cases hme : key = me
    · subst hme
      have hadd := hk.own rfl hmem
      have hall : wildcard ∉ prev.get wildcard := fun hall => hreq (get_effective_of_all hall t ▸ h)
      rw [heff, keysAfter, if_pos hadd] at h
      exact hnone t ⟨heq, hall, hk.before, hreq, hadd, card_lt_of_mem_keysToRemember hreq h, hmem, hk.unchanged⟩
    · rw [if_neg hme] at hmem
      exact hk.unchanged hmem

end Changes

namespace Own

def asking (t key : String) : RequiredStateMap := RequiredStateMap.empty.set t {key}

def changed : StateMap := Finmap.singleton ("org.foo", "@a:hs") "$new"

theorem newly_covered_own :
    (requiredStateChanges ascending "@a:hs" (asking "org.foo" "other") (asking "org.foo" me) changed).2.admits
      ("org.foo", "@a:hs") = true :=
  newly_covered_fetched (by decide) ⟨"org.foo", by decide⟩ (by
    rintro ⟨t, rfl | rfl, h⟩
    · exact absurd h (by decide)
    · exact absurd h (by decide))

/-- The own key has changed, and `$ME` stays remembered while the request asks for another key instead. -/
theorem kept_entry_changed :
    me ∈ (effective ascending "@a:hs" (asking "org.foo" me) (asking "org.foo" "other") changed).get "org.foo" ∧
      me ∉ (asking "org.foo" "other").get "org.foo" ∧ ("org.foo", "@a:hs") ∈ changed := by
  decide +kernel

end Own

end Synapse.SlidingSync
