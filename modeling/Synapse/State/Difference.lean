import Synapse.State.Filter

/-!
# Synapse.State.Difference — `StateFilter.approx_difference`

What is left to fetch for a filter when the state of another one is there already.  The difference is taken on four
parts of the filters (everything or not, types to exclude, types to include, state keys to include) and put together
again.

* `Parts.Admits`: what the four parts stand for.
* `admits_decompose`, `admits_recompose`: taking a filter apart and putting parts together keep that.
* `Parts.Admits.difference`, `Parts.admits_of_difference`: the difference of parts.
* **`approxDifference_sound`**: the difference has what the first filter admits and the second does not, and nothing that
  the first does not admit.
-/

namespace Synapse.State.StateFilter

open Lib Finset List

/-- The orders in which sets of types and of state keys are iterated over. -/
structure SetOrders where
  types : SetOrder String
  keys : SetOrder StateKey

/-- The parts of a filter: `all? - minus_wildcards + plus_wildcards + plus_state_keys`. -/
structure Parts where
  all : Bool
  minusWildcards : Finset String
  plusWildcards : Finset String
  plusStateKeys : Finset StateKey

variable (f : StateFilter)

def wildcardTypes : List String := (f.types.filter fun p => p.2 = Option.none).map Prod.fst

def decomposeIntoFourParts : Parts where
  all := f.includeOthers
  minusWildcards := if f.includeOthers then (f.types.map Prod.fst).toFinset else ∅
  plusWildcards := f.wildcardTypes.toFinset
  plusStateKeys := f.concreteTypes.toFinset

/-! ## Putting parts together -/

section Recompose

/-- The loop body of `_recompose_from_four_parts` for a state key. -/
def addStateKey (all : Bool) (d : TypeDict) (k : StateKey) : TypeDict :=
  match d.find k.1 with
  | some Option.none => d
  | some (some keys) => d.upsert k.1 fun _ => some ⟨keys.1.insert k.2, keys.2.insert⟩
  | Option.none => if all then d else d.upsert k.1 fun _ => some ⟨[k.2], nodup_singleton _⟩

/-- `new_types` with the wildcards. -/
def wildcardDict (o : SetOrders) (p : Parts) : TypeDict :=
  (Table.upsertMany (if p.all then Table.upsertMany .empty (o.types.iter p.minusWildcards) fun _ _ => some ⟨[], nodup_nil⟩
    else .empty) (o.types.iter p.plusWildcards) fun _ _ => Option.none)

def recomposeFromFourParts (o : SetOrders) (p : Parts) : StateFilter :=
  freeze ((o.keys.iter p.plusStateKeys).foldl (addStateKey p.all) (wildcardDict o p)) p.all

end Recompose

/-! ## The difference -/

def Parts.difference (a b : Parts) : Parts :=
  let newWildcards := a.plusWildcards \ b.plusWildcards
  let newConcreteKeys := (a.plusStateKeys.filter fun k => k.1 ∉ b.plusWildcards) \ b.plusStateKeys
  if b.all then
    let newWildcards := if a.all then newWildcards ∪ (b.minusWildcards \ a.minusWildcards) else newWildcards
    ⟨false, ∅, newWildcards ∩ b.minusWildcards, newConcreteKeys.filter fun k => k.1 ∈ b.minusWildcards⟩
  else ⟨a.all, a.minusWildcards ∪ b.plusWildcards, newWildcards, newConcreteKeys⟩

/-- `self.approx_difference(other)` -/
def approxDifference (o : SetOrders) (other : StateFilter) : StateFilter :=
  recomposeFromFourParts o (f.decomposeIntoFourParts.difference other.decomposeIntoFourParts)

/-! ## What parts stand for -/

def Parts.Admits (p : Parts) (k : StateKey) : Prop :=
  (p.all = true ∧ k.1 ∉ p.minusWildcards) ∨ k.1 ∈ p.plusWildcards ∨ k ∈ p.plusStateKeys

variable {f} {k : StateKey}

theorem mem_wildcardTypes {t : String} : t ∈ f.wildcardTypes ↔ (t, Option.none) ∈ f.types := by
  unfold wildcardTypes
  rw [List.mem_map]
  constructor
  · rintro ⟨⟨t', keys⟩, hp, rfl⟩
    obtain ⟨hp, hnone⟩ := List.mem_filter.mp hp
    obtain rfl : keys = Option.none := of_decide_eq_true hnone
    exact hp
  · intro hp
    exact ⟨_, List.mem_filter.mpr ⟨hp, by simp⟩, rfl⟩

theorem mem_concreteTypes_iff : k ∈ f.concreteTypes ↔ ∃ l, (k.1, some l) ∈ f.types ∧ k.2 ∈ l := by
  unfold concreteTypes
  rw [mem_flatMap]
  constructor
  · rintro ⟨⟨t, keys⟩, hp, hk⟩
    obtain ⟨s, hs, rfl⟩ := mem_map.mp hk
    rcases keys with _ | l
    · cases hs
    · exact ⟨l, hp, hs⟩
  · rintro ⟨l, hp, hl⟩
    exact ⟨_, hp, mem_map.mpr ⟨k.2, hl, rfl⟩⟩

theorem admits_decompose : f.decomposeIntoFourParts.Admits k ↔ f.admits k = true := by
  have hminus : (f.includeOthers = true ∧ k.1 ∉ f.decomposeIntoFourParts.minusWildcards) ↔
      (f.includeOthers = true ∧ k.1 ∉ f.types.map Prod.fst) := by
    refine and_congr_right fun ho => ?_
    rw [decomposeIntoFourParts, if_pos ho, mem_toFinset]
  have hplus : (k.1 ∈ f.wildcardTypes.toFinset ∨ k ∈ f.concreteTypes.toFinset) ↔
      ∃ keys, (k.1, keys) ∈ f.types ∧ ∀ l, keys = some l → k.2 ∈ l := by
    rw [mem_toFinset, mem_toFinset, mem_wildcardTypes, mem_concreteTypes_iff]
    constructor
    · rintro (hp | ⟨l, hp, hl⟩)
      · exact ⟨Option.none, hp, by simp⟩
      · exact ⟨some l, hp, fun l' hl' => Option.some.inj hl' ▸ hl⟩
    · rintro ⟨_ | l, hp, hl⟩
      · exact .inl hp
      · exact .inr ⟨l, hp, hl l rfl⟩
  rw [admits_iff, ← hplus, ← hminus]
  exact or_comm

section Recomposed

variable {o : SetOrders} {p : Parts}

theorem find_wildcardDict (t : String) : (wildcardDict o p).find t = if t ∈ p.plusWildcards then some Option.none
    else if p.all = true ∧ t ∈ p.minusWildcards then some (some ⟨[], nodup_nil⟩) else Option.none := by
  unfold wildcardDict
  rw [Table.find_upsertMany (o.types.nodup _)]
  simp only [o.types.mem]
  split
  · rfl
  cases hall : p.all with
  | false => simp [Table.find, Table.empty]
  | true =>
    simp only [if_true, Table.find_upsertMany (o.types.nodup _), o.types.mem, true_and]
    split
    · rfl
    · rfl

theorem lists_addStateKey (all : Bool) (d : TypeDict) (x : StateKey) :
    (Lists (addStateKey all d x) k ∨ (all = true ∧ (addStateKey all d x).find k.1 = Option.none)) ↔
      (Lists d k ∨ (all = true ∧ d.find k.1 = Option.none)) ∨ k = x := by
  obtain ⟨t, s⟩ := k
  obtain ⟨t', s'⟩ := x
  simp only [addStateKey]
  rcases hfind : d.find t' with _ | _ | keys
  · cases all with
    | true =>
      simp only [if_true, true_and]
      refine ⟨.inl, ?_⟩
      rintro (h | ⟨rfl, -⟩)
      · exact h
      · exact .inr hfind
    | false =>
      simp only [Bool.false_eq_true, if_false, false_and, or_false, Lists, Table.find_upsert]
      by_cases ht : t = t'
      · subst ht
        simp [hfind, eq_comm]
      · simp [ht]
  · -- all keys of the type are listed already
    refine ⟨.inl, ?_⟩
    rintro (h | ⟨rfl, -⟩)
    · exact h
    · exact .inl (.inl hfind)
  · simp only [Lists, Table.find_upsert]
    by_cases ht : t = t'
    · subst ht
      simp [hfind, or_comm]
    · simp [ht]

theorem lists_foldl_addStateKey (all : Bool) (d : TypeDict) (keys : List StateKey) :
    (Lists (keys.foldl (addStateKey all) d) k ∨
        (all = true ∧ (keys.foldl (addStateKey all) d).find k.1 = Option.none)) ↔
      (Lists d k ∨ (all = true ∧ d.find k.1 = Option.none)) ∨ k ∈ keys := by
  induction keys generalizing d with
  | nil => simp
  | cons x keys ih => rw [List.foldl_cons, ih, lists_addStateKey, List.mem_cons, or_assoc]

theorem admits_recompose : (recomposeFromFourParts o p).admits k = true ↔ p.Admits k := by
  unfold recomposeFromFourParts Parts.Admits
  rw [admits_freeze, lists_foldl_addStateKey, o.keys.mem, ← or_assoc]
  refine or_congr ?_ Iff.rfl
  unfold Lists
  rw [find_wildcardDict]
  by_cases hplus : k.1 ∈ p.plusWildcards
  · simp [hplus]
  by_cases hminus : p.all = true ∧ k.1 ∈ p.minusWildcards
  · simp [hplus, hminus]
  · have hnot : p.all = true → k.1 ∉ p.minusWildcards := fun hall hmem => hminus ⟨hall, hmem⟩
    simp only [hplus, hminus, if_false, or_false, reduceCtorEq, false_and, exists_false, false_or, and_true]
    exact ⟨fun hall => ⟨hall, hnot hall⟩, And.left⟩

end Recomposed

/-! ## The difference of parts -/

theorem Parts.Admits.difference {a b : Parts} (ha : a.Admits k) (hb : ¬ b.Admits k) : (a.difference b).Admits k := by
  obtain ⟨hall, hwild, hkey⟩ : (b.all = true → k.1 ∈ b.minusWildcards) ∧ k.1 ∉ b.plusWildcards ∧
      k ∉ b.plusStateKeys := by
    unfold Parts.Admits at hb
    grind
  unfold Parts.difference
  by_cases hb : b.all = true
  · -- the other filter excludes the type, so the type or the key can be listed
    rw [if_pos hb]
    have hminus := hall hb
    rcases ha with ⟨ha, hnot⟩ | ha | ha
    · exact .inr (.inl (by simp [ha, hnot, hminus]))
    · refine .inr (.inl ?_)
      by_cases haall : a.all = true <;> simp [haall, ha, hwild, hminus]
    · exact .inr (.inr (by simp [ha, hwild, hkey, hminus]))
  · rw [if_neg hb]
    rcases ha with ⟨ha, hnot⟩ | ha | ha
    · exact .inl ⟨ha, by simp [hnot, hwild]⟩
    · exact .inr (.inl (by simp [ha, hwild]))
    · exact .inr (.inr (by simp [ha, hwild, hkey]))

theorem Parts.admits_of_difference {a b : Parts} (h : (a.difference b).Admits k) : a.Admits k := by
  unfold Parts.difference at h
  by_cases hb : b.all = true
  · rw [if_pos hb] at h
    rcases h with ⟨hall, -⟩ | h | h
    · cases hall
    · obtain ⟨h, -⟩ := mem_inter.mp h
      split_ifs at h with ha
      · rcases mem_union.mp h with h | h
        · exact .inr (.inl (mem_sdiff.mp h).1)
        · exact .inl ⟨ha, (mem_sdiff.mp h).2⟩
      · exact .inr (.inl (mem_sdiff.mp h).1)
    · have hmem := (mem_sdiff.mp (mem_filter.mp h).1).1
      exact .inr (.inr (mem_filter.mp hmem).1)
  · rw [if_neg hb] at h
    rcases h with ⟨hall, hnot⟩ | h | h
    · exact .inl ⟨hall, fun hmem => hnot (mem_union_left _ hmem)⟩
    · exact .inr (.inl (mem_sdiff.mp h).1)
    · exact .inr (.inr (mem_filter.mp (mem_sdiff.mp h).1).1)

/-- **The difference of filters.**  It has every key that the first filter accepts and the second does not, and no key that
the first does not accept. -/
theorem approxDifference_sound (o : SetOrders) (f other : StateFilter) (k : StateKey) :
    (f.contains k = true ∧ other.contains k = false → (f.approxDifference o other).contains k = true) ∧
      ((f.approxDifference o other).contains k = true → f.contains k = true) := by
  unfold approxDifference
  simp only [contains_eq_admits]
  rw [admits_recompose, ← admits_decompose, ← Bool.not_eq_true, ← admits_decompose]
  exact ⟨fun ⟨ha, hb⟩ => ha.difference hb, Parts.admits_of_difference⟩

end Synapse.State.StateFilter
