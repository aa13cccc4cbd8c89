import Synapse.Event
import Synapse.Lib.Dict
import Synapse.Lib.Table

/-!
# Synapse.State.Filter — `StateFilter`

The filter of `synapse/types/state.py` that reads of state are made with, and the SQL clause it becomes.

* `StateFilter`: a filter in the canonical form that `__attrs_post_init__` gives it.
* `StateFilter.filterState`: what it keeps of a state map; `admits` says it for one key.
* `makeSqlFilterClause_holds`, `any_conds`: the SQL clauses keep the same keys.
* **`contains_agrees`**: so do filtering a state map and the membership test.
* `mem_concreteTypes`: without wildcards the filter admits the keys it lists.
* `freeze`, `admits_freeze`: filters from a dict.
* `fromTypes`, `toTypes`: filters from pairs of a type and a state key and back; `admits_fromTypes`.
* **`returnExpanded_covers`**: the filter for the database keeps the memberships and takes all other state, or is the same.
-/

namespace Synapse.State

open Lib List

/-- `__attrs_post_init__`: entries that say nothing are dropped. -/
def canonicalise (types : List (String × Option (List String))) (includeOthers : Bool) :
    List (String × Option (List String)) :=
  if includeOthers then types.filter fun p => p.2 ≠ none else types.filter fun p => p.2 ≠ some []

/-- `StateFilter`: the items of `types`, with the members of each set, and `include_others`. -/
structure StateFilter where
  types : List (String × Option (List String))
  includeOthers : Bool
  nodup : (types.map Prod.fst).Nodup
  nodup_keys : ∀ t keys, (t, some keys) ∈ types → keys.Nodup
  canonical : canonicalise types includeOthers = types

namespace StateFilter

/-- `StateFilter(types, include_others)` -/
def make (types : List (String × Option (List String))) (includeOthers : Bool) (nodup : (types.map Prod.fst).Nodup)
    (nodup_keys : ∀ t keys, (t, some keys) ∈ types → keys.Nodup) : StateFilter where
  types := canonicalise types includeOthers
  includeOthers := includeOthers
  nodup := by
    unfold canonicalise
    split <;> exact nodup.sublist (List.filter_sublist.map _)
  nodup_keys t keys h := by
    refine nodup_keys t keys ?_
    unfold canonicalise at h
    split at h <;> exact List.mem_of_mem_filter h
  canonical := by
    unfold canonicalise
    split <;> simp

/-- `StateFilter.all()` -/
def all : StateFilter := make [] true (by simp) (by simp)

/-- `StateFilter.none()` -/
def none : StateFilter := make [] false (by simp) (by simp)

variable (f : StateFilter)

def isFull : Bool := f.includeOthers && f.types.isEmpty

/-- `not state_filter`: the filter matches nothing. -/
def IsEmpty : Prop := f.includeOthers = false ∧ f.types = []

instance : Decidable f.IsEmpty := inferInstanceAs (Decidable (_ ∧ _))

def hasWildcards : Bool := f.includeOthers || f.types.any fun p => p.2 = Option.none

def concreteTypes : List StateKey :=
  f.types.flatMap fun p => (p.2.getD []).map fun s => (p.1, s)

def maxEntriesReturned : Option ℕ := if f.hasWildcards then Option.none else some f.concreteTypes.length

/-- The condition of `filter_state` on a key. -/
def admits (k : StateKey) : Bool :=
  match f.types.lookup k.1 with
  | some (some keys) => keys.contains k.2
  | some Option.none => true
  | Option.none => f.includeOthers

/-- `k in state_filter` -/
def contains (k : StateKey) : Bool :=
  match f.types.lookup k.1 with
  | some stateKeys => stateKeys.all (·.contains k.2)
  | Option.none => f.includeOthers

def filterState (state : StateMap) : StateMap := if f.isFull then state else restrict f.admits state

/-! ## SQL -/

/-- `(type = ?)` and `(type = ? AND state_key = ?)`. -/
inductive Cond where
  | type (etype : String)
  | exact (etype stateKey : String)

def Cond.holds : Cond → StateKey → Bool
  | .type t, k => k.1 = t
  | .exact t s, k => k.1 = t && k.2 = s

/-- A condition for each type and state key. -/
def conds : List Cond :=
  f.types.flatMap fun p => match p.2 with
    | Option.none => [.type p.1]
    | some keys => keys.map (.exact p.1)

/-- What `make_sql_filter_clause` gives: no clause, `1 = 2`, or conditions joined by `OR`, the last of them possibly
`type NOT IN (...)`. -/
inductive Clause where
  | always
  | never
  | anyOf (conds : List Cond) (notIn : Option (List String))

def Clause.holds : Clause → StateKey → Bool
  | .always, _ => true
  | .never, _ => false
  | .anyOf conds notIn, k => conds.any (·.holds k) || notIn.any fun types => !types.contains k.1

def makeSqlFilterClause : Clause :=
  if f.isFull then .always
  else if f.includeOthers = false ∧ f.types = [] then .never
  else .anyOf f.conds (if f.includeOthers then some (f.types.map Prod.fst) else Option.none)

/-! ## What the clauses keep -/

variable {f} {k : StateKey} {t : String} {keys : Option (List String)}

theorem lookup_of_mem (h : (t, keys) ∈ f.types) : f.types.lookup t = some keys := by
  have hnodup := f.nodup
  revert h hnodup
  induction f.types with
  | nil => simp
  | cons p types ih =>
    intro h hnodup
    obtain ⟨hnot, hnodup⟩ := nodup_cons.mp hnodup
    rcases mem_cons.mp h with rfl | h
    · simp
    · have hne : t ≠ p.1 := fun e => hnot (e ▸ mem_map_of_mem h)
      rw [lookup_cons, beq_false_of_ne hne]
      exact ih h hnodup

theorem mem_of_lookup (h : f.types.lookup t = some keys) : (t, keys) ∈ f.types := by
  obtain ⟨l₁, l₂, hl, -⟩ := lookup_eq_some_iff.mp h
  rw [hl]
  simp

variable {others : Bool}

theorem make_types (f : StateFilter) (h : others = f.includeOthers) : make f.types others f.nodup f.nodup_keys = f := by
  subst h
  simp only [make, canonical]

theorem any_conds : f.conds.any (·.holds k) = true ↔ ∃ keys, (k.1, keys) ∈ f.types ∧ ∀ l, keys = some l → k.2 ∈ l := by
  rw [any_eq_true]
  constructor
  · rintro ⟨c, hc, hk⟩
    obtain ⟨⟨t, keys⟩, hp, hc⟩ := mem_flatMap.mp hc
    rcases keys with _ | keys
    · obtain rfl := mem_singleton.mp hc
      obtain rfl : k.1 = t := of_decide_eq_true hk
      exact ⟨Option.none, hp, by simp⟩
    obtain ⟨s, hs, rfl⟩ := mem_map.mp hc
    simp only [Cond.holds, Bool.and_eq_true, decide_eq_true_eq] at hk
    obtain ⟨rfl, rfl⟩ := hk
    exact ⟨some keys, hp, fun l hl => Option.some.inj hl ▸ hs⟩
  · rintro ⟨keys, hp, hl⟩
    rcases keys with _ | keys
    · exact ⟨.type k.1, mem_flatMap.mpr ⟨_, hp, mem_singleton.mpr rfl⟩, by simp [Cond.holds]⟩
    · exact ⟨.exact k.1 k.2, mem_flatMap.mpr ⟨_, hp, mem_map_of_mem (hl keys rfl)⟩, by simp [Cond.holds]⟩

theorem admits_iff : f.admits k = true ↔ (∃ keys, (k.1, keys) ∈ f.types ∧ ∀ l, keys = some l → k.2 ∈ l) ∨
      (f.includeOthers = true ∧ k.1 ∉ f.types.map Prod.fst) := by
  have hnotMem : f.types.lookup k.1 = Option.none ↔ k.1 ∉ f.types.map Prod.fst := by
    constructor
    · rintro h hmem
      obtain ⟨⟨t, keys⟩, hp, rfl⟩ := mem_map.mp hmem
      rw [lookup_of_mem hp] at h
      cases h
    · intro h
      rcases hl : f.types.lookup k.1 with _ | keys
      · rfl
      · exact absurd (mem_map_of_mem (mem_of_lookup hl)) h
  unfold admits
  rcases hl : f.types.lookup k.1 with _ | keys
  · have hnone := hnotMem.mp hl
    refine ⟨fun h => .inr ⟨h, hnone⟩, ?_⟩
    rintro (⟨keys, hp, -⟩ | ⟨h, -⟩)
    · exact absurd (mem_map_of_mem hp) hnone
    · exact h
  have hp := mem_of_lookup hl
  have hin : k.1 ∈ f.types.map Prod.fst := mem_map_of_mem hp
  have honly : ∀ keys', (k.1, keys') ∈ f.types → keys' = keys := fun keys' hp' =>
    Option.some.inj ((lookup_of_mem hp').symm.trans hl)
  rcases keys with _ | keys
  · exact ⟨fun _ => .inl ⟨Option.none, hp, by simp⟩, fun _ => rfl⟩
  rw [contains_iff_mem]
  refine ⟨fun h => .inl ⟨some keys, hp, fun l hl => Option.some.inj hl ▸ h⟩, ?_⟩
  rintro (⟨keys', hp', h⟩ | ⟨-, h⟩)
  · exact h keys (honly keys' hp')
  · exact absurd hin h

theorem makeSqlFilterClause_holds : f.makeSqlFilterClause.holds k = f.admits k := by
  rw [Bool.eq_iff_iff, admits_iff]
  unfold makeSqlFilterClause
  by_cases hfull : f.isFull = true
  · rw [if_pos hfull]
    obtain ⟨ho, ht⟩ := Bool.and_eq_true_iff.mp hfull
    rw [List.isEmpty_iff] at ht
    simp [Clause.holds, ho, ht]
  rw [if_neg hfull]
  by_cases hempty : f.includeOthers = false ∧ f.types = []
  · simp [Clause.holds, hempty.1, hempty.2]
  rw [if_neg hempty]
  show (_ || _) = true ↔ _
  rw [Bool.or_eq_true, any_conds]
  by_cases ho : f.includeOthers = true
  · simp [ho]
  · simp [ho]

theorem isFull_admits (h : f.isFull = true) : f.admits k = true := by
  rw [← makeSqlFilterClause_holds, makeSqlFilterClause, if_pos h]
  rfl

theorem filterState_eq (state : StateMap) : f.filterState state = restrict f.admits state := by
  unfold filterState
  split
  · rename_i h
    refine Finmap.ext_lookup fun k => ?_
    rw [lookup_restrict, if_pos (isFull_admits h)]
  · rfl

theorem contains_eq_admits (f : StateFilter) (k : StateKey) : f.contains k = f.admits k := by
  unfold contains admits
  rcases f.types.lookup k.1 with _ | _ | keys <;> rfl

/-- **The three readings of a filter agree**: the SQL clause, filtering a state map, and the membership test. -/
theorem contains_agrees (f : StateFilter) (k : StateKey) : f.makeSqlFilterClause.holds k = f.contains k ∧
    ∀ state : StateMap, (f.filterState state).lookup k = if f.contains k then state.lookup k else Option.none := by
  rw [contains_eq_admits]
  refine ⟨makeSqlFilterClause_holds, fun state => ?_⟩
  rw [filterState_eq, lookup_restrict]

/-! ## Without wildcards -/

theorem mem_concreteTypes (h : f.hasWildcards = false) : k ∈ f.concreteTypes ↔ f.admits k = true := by
  obtain ⟨ho, hw⟩ := Bool.or_eq_false_iff.mp h
  have hsome : ∀ t keys, (t, keys) ∈ f.types → keys ≠ Option.none := by
    intro t keys hp hnone
    have := any_eq_false.mp hw _ hp
    simp [hnone] at this
  rw [admits_iff, concreteTypes, mem_flatMap]
  constructor
  · rintro ⟨⟨t, keys⟩, hp, hk⟩
    obtain ⟨s, hs, rfl⟩ := mem_map.mp hk
    refine .inl ⟨keys, hp, fun l hl => ?_⟩
    rw [hl] at hs
    exact hs
  · rintro (⟨keys, hp, hl⟩ | ⟨h, -⟩)
    · obtain ⟨l, rfl⟩ := Option.ne_none_iff_exists'.mp (hsome _ _ hp)
      exact ⟨_, hp, mem_map.mpr ⟨k.2, hl l rfl, rfl⟩⟩
    · rw [ho] at h
      cases h

theorem nodup_concreteTypes : f.concreteTypes.Nodup := by
  unfold concreteTypes
  rw [nodup_flatMap]
  constructor
  · rintro ⟨t, keys⟩ hp
    rcases keys with _ | keys
    · exact nodup_nil
    · exact (f.nodup_keys t keys hp).map fun _ _ h => (Prod.mk.inj h).2
  · refine (pairwise_map.mp f.nodup).imp fun {p q} hne k hk hk' => ?_
    obtain ⟨s, -, rfl⟩ := mem_map.mp hk
    obtain ⟨s', -, h⟩ := mem_map.mp hk'
    exact hne (Prod.mk.inj h).1.symm

/-! ## Pairs of a type and a state key -/

/-- The dict that `from_types` fills: the state keys of each type, `none` for all of them. -/
abbrev TypeDict := Table String (Option { keys : List String // keys.Nodup })

/-- `StateFilter.freeze(types, include_others)` -/
def freeze (d : TypeDict) (includeOthers : Bool) : StateFilter :=
  make (d.rows.map fun p => (p.1, p.2.map (·.1))) includeOthers (by simpa [Function.comp_def] using d.nodup) (by
    intro t keys h
    obtain ⟨p, -, hp⟩ := List.mem_map.mp h
    obtain ⟨l, -, rfl⟩ := Option.map_eq_some_iff.mp (Prod.mk.inj hp).2
    exact l.2)

/-- The loop body of `from_types`. -/
def addType (d : TypeDict) : String × Option String → TypeDict
  | (typ, s) =>
    if d.find typ = some Option.none then d
    else match s with
      | Option.none => d.upsert typ fun _ => Option.none
      | some s => d.upsert typ fun old =>
          let keys := (old.bind id).getD ⟨[], List.nodup_nil⟩
          some ⟨keys.1.insert s, keys.2.insert⟩

/-- `StateFilter.from_types(types)` -/
def fromTypes (types : List (String × Option String)) : StateFilter :=
  let d := types.foldl addType .empty
  make (d.rows.map fun p => (p.1, p.2.map (·.1))) false (by simpa [Function.comp_def] using d.nodup) (by
    intro t keys h
    obtain ⟨p, -, hp⟩ := List.mem_map.mp h
    obtain ⟨l, -, rfl⟩ := Option.map_eq_some_iff.mp (Prod.mk.inj hp).2
    exact l.2)

def toTypes (f : StateFilter) : List (String × Option String) :=
  f.types.flatMap fun p => match p.2 with
    | Option.none => [(p.1, Option.none)]
    | some keys => keys.map fun s => (p.1, some s)

theorem mem_types_freeze {d : TypeDict} :
    (t, keys) ∈ (freeze d others).types ↔ (∃ l, d.find t = some l ∧ l.map (·.1) = keys) ∧
      if others then keys ≠ Option.none else keys ≠ some [] := by
  have hmem : (t, keys) ∈ (d.rows.map fun p => (p.1, p.2.map (·.1))) ↔ ∃ l, d.find t = some l ∧ l.map (·.1) = keys := by
    rw [mem_map]
    constructor
    · rintro ⟨⟨t', l⟩, hp, heq⟩
      obtain ⟨rfl, rfl⟩ := Prod.mk.inj heq
      exact ⟨l, Table.mem_rows.mp hp, rfl⟩
    · rintro ⟨l, hp, rfl⟩
      exact ⟨(t, l), Table.mem_rows.mpr hp, rfl⟩
  show (t, keys) ∈ canonicalise _ others ↔ _
  unfold canonicalise
  cases others
  · simp only [Bool.false_eq_true, if_false, mem_filter, hmem, decide_eq_true_eq]
  · simp only [if_true, mem_filter, hmem, decide_eq_true_eq]

/-- The dict lists the key, or all keys of its type. -/
def Lists (d : TypeDict) (k : StateKey) : Prop :=
  d.find k.1 = some Option.none ∨ ∃ l, d.find k.1 = some (some l) ∧ k.2 ∈ l.1

theorem lists_addType (d : TypeDict) (typ : String) (s : Option String) (k : StateKey) :
    Lists (addType d (typ, s)) k ↔ Lists d k ∨ (k.1 = typ ∧ ∀ x, s = some x → k.2 = x) := by
  simp only [addType]
  split_ifs with hall
  · refine ⟨.inl, ?_⟩
    rintro (h | ⟨rfl, -⟩)
    · exact h
    · exact .inl hall
  by_cases ht : k.1 = typ
  · subst ht
    rcases s with _ | s
    · simp [Lists, Table.find_upsert]
    simp only [Lists, Table.find_upsert, if_true]
    rcases hd : d.find k.1 with _ | _ | l
    · simp
    · exact absurd hd hall
    simp only [Option.some.injEq, reduceCtorEq, false_or]
    constructor
    · rintro ⟨_, rfl, h⟩
      rcases mem_insert_iff.mp h with h | h
      · exact .inr ⟨trivial, fun _ hs => hs ▸ h⟩
      · exact .inl ⟨l, rfl, h⟩
    · rintro (⟨_, rfl, h⟩ | ⟨-, h⟩)
      · exact ⟨_, rfl, mem_insert_iff.mpr (.inr h)⟩
      · exact ⟨_, rfl, mem_insert_iff.mpr (.inl (h s rfl))⟩
  · rcases s with _ | s <;> simp [Lists, Table.find_upsert, ht]

theorem lists_foldl (types : List (String × Option String)) (d : TypeDict) (k : StateKey) :
    Lists (types.foldl addType d) k ↔ Lists d k ∨ (k.1, Option.none) ∈ types ∨ (k.1, some k.2) ∈ types := by
  induction types generalizing d with
  | nil => simp
  | cons p types ih =>
    obtain ⟨typ, s⟩ := p
    rw [foldl_cons, ih, lists_addType]
    rcases s with _ | s
    · simp [or_assoc]
    · grind

/-- **What a filter admits that is made from a dict**: the keys that the dict lists, and those of types without an entry
if others are included. -/
theorem admits_freeze {d : TypeDict} :
    (freeze d others).admits k = true ↔ Lists d k ∨ (others = true ∧ d.find k.1 = Option.none) := by
  have htypes : k.1 ∉ (freeze d others).types.map Prod.fst ↔ ∀ keys, (k.1, keys) ∉ (freeze d others).types := by
    simp
  rw [admits_iff, htypes]
  simp only [mem_types_freeze]
  constructor
  · rintro (⟨keys, ⟨⟨_ | l, hl, rfl⟩, -⟩, hk⟩ | ⟨rfl, hnone⟩)
    · exact .inl (.inl hl)
    · exact .inl (.inr ⟨l, hl, hk _ rfl⟩)
    · -- an entry that was dropped stands for all keys of the type
      rcases hfind : d.find k.1 with _ | _ | l
      · exact .inr ⟨rfl, rfl⟩
      · exact .inl (.inl hfind)
      · exact absurd ⟨⟨some l, hfind, rfl⟩, by simp⟩ (hnone (some l.1))
  · rintro ((hl | ⟨l, hl, hk⟩) | ⟨rfl, hnone⟩)
    · cases others with
      | false => exact .inl ⟨Option.none, ⟨⟨_, hl, rfl⟩, by simp⟩, by simp⟩
      | true =>
        refine .inr ⟨rfl, fun keys h => ?_⟩
        obtain ⟨⟨l, hl', rfl⟩, hne⟩ := h
        obtain rfl := Option.some.inj (hl.symm.trans hl')
        simp at hne
    · refine .inl ⟨some l.1, ⟨⟨_, hl, rfl⟩, ?_⟩, fun keys hkeys => Option.some.inj hkeys ▸ hk⟩
      cases others with
      | false =>
        intro hnil
        rw [Option.some.inj hnil] at hk
        cases hk
      | true => simp
    · refine .inr ⟨rfl, fun keys h => ?_⟩
      obtain ⟨⟨l, hl, -⟩, -⟩ := h
      rw [hnone] at hl
      cases hl

theorem admits_fromTypes (types : List (String × Option String)) :
    (fromTypes types).admits k = true ↔ (k.1, Option.none) ∈ types ∨ (k.1, some k.2) ∈ types := by
  have hinit : ¬ Lists .empty k := by
    rintro (h | ⟨_, h, -⟩) <;> cases h
  rw [← or_iff_right (b := _ ∨ _) hinit, ← lists_foldl types .empty k, show fromTypes types =
    freeze (types.foldl addType .empty) false from rfl, admits_freeze]
  simp

theorem admits_iff_toTypes (h : f.includeOthers = false) :
    f.admits k = true ↔ (k.1, Option.none) ∈ f.toTypes ∨ (k.1, some k.2) ∈ f.toTypes := by
  rw [admits_iff, h]
  unfold toTypes
  simp only [mem_flatMap]
  constructor
  · rintro (⟨keys, hp, hk⟩ | ⟨hc, -⟩)
    · rcases keys with _ | keys
      · exact .inl ⟨_, hp, by simp⟩
      · exact .inr ⟨_, hp, by simpa using hk keys rfl⟩
    · cases hc
  rintro (⟨⟨t, keys⟩, hp, hk⟩ | ⟨⟨t, keys⟩, hp, hk⟩)
  · rcases keys with _ | keys
    · obtain rfl : k.1 = t := by simpa using hk
      exact .inl ⟨_, hp, by simp⟩
    · simp at hk
  · rcases keys with _ | keys
    · simp at hk
    · obtain ⟨hs, rfl⟩ : k.2 ∈ keys ∧ t = k.1 := by simpa using hk
      exact .inl ⟨_, hp, fun l hl => Option.some.inj hl ▸ hs⟩

/-! ## Expansion for the caches -/

/-- `EventTypes.Member` -/
def memberType : String := "m.room.member"

/-- `StateFilter({EventTypes.Member: members}, include_others=True)`; without members, `_ALL_NON_MEMBER_STATE_FILTER` -/
def withMembers (members : List String) (nodup : members.Nodup) : StateFilter :=
  make [(memberType, some members)] true (by simp) (by simp_all)

/-- `has_non_member_wildcard` -/
def hasNonMemberWildcard (f : StateFilter) : Bool :=
  f.includeOthers || f.types.any fun p => p.1 ≠ memberType ∧ p.2 = Option.none

def returnExpanded (f : StateFilter) : StateFilter :=
  if f.isFull then f
  else if !f.hasWildcards then f
  else if !f.hasNonMemberWildcard then f
  else match h : f.types.lookup memberType with
    | some Option.none => all
    | some (some members) => withMembers members (f.nodup_keys _ _ (mem_of_lookup h))
    -- `get_all_members` is `include_others` if there is no entry
    | Option.none => if f.includeOthers then all else withMembers [] nodup_nil

/-- The filter of `get_member_split` for memberships. -/
def memberFilter (f : StateFilter) : StateFilter :=
  match h : f.types.lookup memberType with
  | some Option.none => all
  | some (some members) =>
    make [(memberType, some members)] false (by simp) (by simpa using f.nodup_keys _ _ (mem_of_lookup h))
  | Option.none => if f.includeOthers then all else none

/-- The filter of `get_member_split` for other state. -/
def nonMemberFilter (f : StateFilter) : StateFilter :=
  make (f.types.filter fun p => p.1 ≠ memberType) f.includeOthers (f.nodup.sublist (filter_sublist.map _))
    fun t keys h => f.nodup_keys t keys (mem_of_mem_filter h)

section

variable {members : List String} {nodup : members.Nodup}

theorem admits_withMembers :
    (withMembers members nodup).admits k = if k.1 = memberType then members.contains k.2 else true := by
  by_cases hk : k.1 = memberType
  · simp [admits, withMembers, make, canonicalise, hk]
  · simp [admits, withMembers, make, canonicalise, hk, lookup_cons, beq_false_of_ne hk]

end

/-- What the expanded filter is: the same one, all state, or some memberships and all other state. -/
theorem returnExpanded_cases (f : StateFilter) :
    f.returnExpanded = f ∧ (f.isFull = true ∨ f.hasNonMemberWildcard = false) ∨
    f.returnExpanded = all ∧ (∀ k : StateKey, k.1 = memberType → f.admits k = true) ∨
    ∃ members nodup, f.returnExpanded = withMembers members nodup ∧
      ∀ k : StateKey, k.1 = memberType → f.admits k = members.contains k.2 := by
  unfold returnExpanded
  split
  · next hfull => exact .inl ⟨rfl, .inl hfull⟩
  split
  · next hwild =>
    refine .inl ⟨rfl, .inr ?_⟩
    simp only [hasWildcards, hasNonMemberWildcard, Bool.not_eq_true', Bool.or_eq_false_iff, any_eq_false] at hwild ⊢
    exact ⟨hwild.1, fun p hp hw => hwild.2 p hp (by simp_all)⟩
  split
  · next hother => exact .inl ⟨rfl, .inr (by simpa using hother)⟩
  split
  · next h => exact .inr (.inl ⟨rfl, fun k hk => by simp [admits, hk, h]⟩)
  · next h => exact .inr (.inr ⟨_, f.nodup_keys _ _ (mem_of_lookup h), rfl, fun k hk => by simp [admits, hk, h]⟩)
  · next h =>
    split
    · next hothers => exact .inr (.inl ⟨rfl, fun k hk => by simp [admits, hk, h, hothers]⟩)
    · next hothers => exact .inr (.inr ⟨_, nodup_nil, rfl, fun k hk => by simp [admits, hk, h, hothers]⟩)

/-- **Expanding a filter** takes no state away and keeps the memberships; other state stays as it is, without wildcards,
or is taken as a whole; and expanding once is enough. -/
theorem returnExpanded_covers (f : StateFilter) :
    (∀ k, f.admits k = true → f.returnExpanded.admits k = true) ∧
    (∀ k : StateKey, k.1 = memberType → f.returnExpanded.admits k = f.admits k) ∧
    (f.returnExpanded = f ∧ f.hasNonMemberWildcard = false ∨
      ∀ k : StateKey, k.1 ≠ memberType → f.returnExpanded.admits k = true) ∧
    f.returnExpanded.returnExpanded = f.returnExpanded := by
  rcases f.returnExpanded_cases with ⟨h, hf⟩ | ⟨h, hf⟩ | ⟨members, nodup, h, hf⟩
  · simp only [h, true_and, imp_self, implies_true, and_true]
    exact hf.symm.imp_right fun hfull k _ => isFull_admits hfull
  · have hall : ∀ k, all.admits k = true := fun k => isFull_admits rfl
    rw [h]
    exact ⟨fun k _ => hall k, fun k hk => (hall k).trans (hf k hk).symm, .inr fun k _ => hall k, if_pos rfl⟩
  rw [h]
  refine ⟨fun k hk => ?_, fun k hk => ?_, .inr fun k hk => ?_, rfl⟩
  · rw [admits_withMembers]
    split
    · next hm => exact (hf k hm).symm.trans hk
    · rfl
  · rw [admits_withMembers, if_pos hk, hf k hk]
  · rw [admits_withMembers, if_neg hk]

theorem isEmpty_returnExpanded {f : StateFilter} (h : f.returnExpanded.IsEmpty) : f.IsEmpty := by
  rcases f.returnExpanded_cases with ⟨heq, -⟩ | ⟨heq, -⟩ | ⟨members, nodup, heq, -⟩
  · rwa [heq] at h
  · rw [heq] at h
    exact absurd h.1 (by decide)
  · rw [heq] at h
    cases h.1

theorem ne_nil_of_mem_types {f : StateFilter} (ho : f.includeOthers = false) {p : String × Option (List String)}
    (hp : p ∈ f.types) : p.2 ≠ some [] := by
  have hcanon := f.canonical
  rw [canonicalise, ho, if_neg Bool.false_ne_true, filter_eq_self] at hcanon
  simpa using hcanon p hp

theorem isEmpty_split {f : StateFilter} : f.memberFilter.IsEmpty ∧ f.nonMemberFilter.IsEmpty ↔ f.IsEmpty := by
  constructor
  · rintro ⟨hmember, ho, htypes⟩
    have ho : f.includeOthers = false := ho
    refine ⟨ho, eq_nil_iff_forall_not_mem.mpr fun p hp => ?_⟩
    have hne := ne_nil_of_mem_types ho hp
    by_cases hp1 : p.1 = memberType
    · have hlookup : f.types.lookup memberType = some p.2 := hp1 ▸ lookup_of_mem hp
      unfold memberFilter at hmember
      split at hmember
      · exact absurd hmember.1 (by decide)
      · next members h =>
        obtain rfl : members = [] := by simpa [make, canonicalise] using hmember.2
        exact hne (Option.some.inj (hlookup.symm.trans h))
      · next h => cases hlookup.symm.trans h
    · have hmem : p ∈ f.nonMemberFilter.types := by
        simp [nonMemberFilter, make, canonicalise, ho, hp, hp1, hne]
      rw [htypes] at hmem
      cases hmem
  · rintro ⟨ho, htypes⟩
    refine ⟨?_, ho, by simp [nonMemberFilter, make, canonicalise, htypes]⟩
    unfold memberFilter
    split
    · next h => simp [htypes] at h
    · next h => simp [htypes] at h
    · rw [if_neg (by simp [ho])]
      decide

end StateFilter

end Synapse.State
