import Mathlib.Algebra.Order.BigOperators.Group.Finset
import Synapse.Lib.Dict
import Synapse.StateRes.Store

/-!
# Synapse.StateRes.Conflicts — what the state sets disagree on

`_seperate` and `_get_auth_chain_difference` of `synapse/state/v2.py`.

* `seperate_lookup`: a key is unconflicted if every state set maps it to the same event; the others are conflicted, with
  every event that some state set has for them.
* `seperate_congr`, `getAuthChainDifference_ok`: both functions see only which state sets there are, not their order,
  their repetitions or the order in which dicts and sets are iterated.
-/

namespace Synapse.StateRes

open Lib List

/-! ## `_seperate` -/

/-- The body of the loop of `_seperate`. -/
def seperateKey (stateSets : List StateMap) (key : StateKey)
    (acc : StateMap × Finmap fun _ : StateKey => Finset String) : StateMap × Finmap fun _ : StateKey => Finset String :=
  let found := stateSets.map (·.lookup key)
  if found.toFinset.card = 1 then
    -- `event_ids.pop()`; every key comes from a state set, so the only member is not `None`
    match found with
    | some id :: _ => (acc.1.insert key id, acc.2)
    | _ => acc
  else (acc.1, acc.2.insert key (found.filterMap id).toFinset)

/-- `set(itertools.chain.from_iterable(state_sets))` -/
def allKeys (stateSets : List StateMap) : Finset StateKey := stateSets.foldl (fun s m => s ∪ m.keys) ∅

/-- `_seperate(state_sets)`: the unconflicted and the conflicted state. -/
def seperate (o : Orders) (stateSets : List StateMap) : StateMap × Finmap fun _ : StateKey => Finset String :=
  (o.keys .seperate (allKeys stateSets)).foldl (fun acc key => seperateKey stateSets key acc) (∅, ∅)

section Seperate

variable {stateSets : List StateMap} {k : StateKey}

theorem mem_allKeys : k ∈ allKeys stateSets ↔ ∃ m ∈ stateSets, k ∈ m := by
  rw [allKeys, foldl_iff (P := (k ∈ ·)) (Q := fun m : StateMap => k ∈ m.keys) fun _ _ => Finset.mem_union]
  simp [Finmap.mem_keys]

/-- Every state set has `id` for the key. -/
def Unconflicted (stateSets : List StateMap) (k : StateKey) (id : String) : Prop :=
  stateSets ≠ [] ∧ ∀ m ∈ stateSets, m.lookup k = some id

/-- Some state set has the key, and some has something else for it. -/
def Conflicted (stateSets : List StateMap) (k : StateKey) : Prop :=
  (∃ m ∈ stateSets, k ∈ m) ∧ ∀ id, ¬ Unconflicted stateSets k id

/-- The events that the state sets have for a key. -/
def candidates (stateSets : List StateMap) (k : StateKey) : Finset String :=
  (stateSets.filterMap (·.lookup k)).toFinset

theorem Unconflicted.unique {id id' : String} (h : Unconflicted stateSets k id)
    (h' : Unconflicted stateSets k id') : id = id' := by
  obtain ⟨m, hm⟩ := exists_mem_of_ne_nil _ h.1
  exact Option.some.inj ((h.2 m hm).symm.trans (h'.2 m hm))

theorem card_eq_one_iff (hk : ∃ m ∈ stateSets, k ∈ m) :
    (stateSets.map (·.lookup k)).toFinset.card = 1 ↔ ∃ id, Unconflicted stateSets k id := by
  obtain ⟨m, hm, hkm⟩ := hk
  obtain ⟨id, hid⟩ := Finmap.mem_iff.mp hkm
  have hmem := mem_toFinset.mpr (mem_map.mpr ⟨m, hm, hid⟩)
  constructor
  · intro h
    have hone := Finset.card_le_one.mp h.le
    refine ⟨id, ne_nil_of_mem hm, fun m' hm' => hone _ ?_ _ hmem⟩
    exact mem_toFinset.mpr (mem_map.mpr ⟨m', hm', rfl⟩)
  · rintro ⟨id', hne, hall⟩
    refine Finset.card_eq_one.mpr ⟨some id', Finset.ext fun v => ?_⟩
    rw [mem_toFinset, mem_map, Finset.mem_singleton]
    constructor
    · rintro ⟨m', hm', rfl⟩
      exact hall m' hm'
    · rintro rfl
      exact ⟨m, hm, hall m hm⟩

theorem seperateKey_eq (hk : ∃ m ∈ stateSets, k ∈ m) (acc : StateMap × Finmap fun _ : StateKey => Finset String) :
    (∃ id, Unconflicted stateSets k id ∧ seperateKey stateSets k acc = (acc.1.insert k id, acc.2)) ∨
      (Conflicted stateSets k ∧
        seperateKey stateSets k acc = (acc.1, acc.2.insert k (candidates stateSets k))) := by
  by_cases hu : ∃ id, Unconflicted stateSets k id
  · left
    obtain ⟨id, hid⟩ := hu
    refine ⟨id, hid, ?_⟩
    unfold seperateKey
    rw [if_pos ((card_eq_one_iff hk).mpr ⟨id, hid⟩)]
    cases hs : stateSets with
    | nil => exact absurd hs hid.1
    | cons m rest => simp [hid.2 m (by simp [hs])]
  · right
    refine ⟨⟨hk, fun id h => hu ⟨id, h⟩⟩, ?_⟩
    unfold seperateKey candidates
    rw [if_neg (fun h => hu ((card_eq_one_iff hk).mp h)), filterMap_map]
    rfl

theorem seperate_lookup (o : Orders) (stateSets : List StateMap) (k : StateKey) :
    (∀ id, (seperate o stateSets).1.lookup k = some id ↔ Unconflicted stateSets k id) ∧
      ∀ s, (seperate o stateSets).2.lookup k = some s ↔ Conflicted stateSets k ∧ s = candidates stateSets k := by
  have hkey : ∀ k, k ∈ o.keys .seperate (allKeys stateSets) ↔ ∃ m ∈ stateSets, k ∈ m :=
    fun k => (o.mem_keys _).trans mem_allKeys
  -- each key that has been looked at is in one of the two dicts
  have hfold : ∀ keys : List StateKey, (∀ key ∈ keys, ∃ m ∈ stateSets, key ∈ m) →
      (∀ id, (keys.foldr (seperateKey stateSets) (∅, ∅)).1.lookup k = some id ↔ k ∈ keys ∧ Unconflicted stateSets k id) ∧
      ∀ s, (keys.foldr (seperateKey stateSets) (∅, ∅)).2.lookup k = some s ↔
        k ∈ keys ∧ Conflicted stateSets k ∧ s = candidates stateSets k := by
    intro keys
    induction keys with
    | nil => simp
    | cons key keys ih =>
      intro hkeys
      obtain ⟨hone, hmany⟩ := ih fun x hx => hkeys x (mem_cons_of_mem _ hx)
      rw [foldr_cons]
      rcases seperateKey_eq (hkeys key mem_cons_self) (keys.foldr (seperateKey stateSets) (∅, ∅)) with
        ⟨id, hid, hacc⟩ | ⟨hconf, hacc⟩
      · rw [hacc]
        grind [lookup_insert_eq, Unconflicted.unique, Conflicted]
      · rw [hacc]
        grind [lookup_insert_eq, Conflicted]
  rw [seperate, ← foldr_reverse]
  obtain ⟨hone, hmany⟩ := hfold (o.keys .seperate (allKeys stateSets)).reverse fun key h => (hkey key).mp (mem_reverse.mp h)
  simp only [hone, hmany, mem_reverse, hkey]
  refine ⟨fun id => and_iff_right_of_imp fun hid => ?_, fun s => and_iff_right_of_imp fun h => h.1.1⟩
  obtain ⟨m, hm⟩ := exists_mem_of_ne_nil _ hid.1
  exact ⟨m, hm, Finmap.mem_iff.mpr ⟨id, hid.2 m hm⟩⟩

variable {stateSets' : List StateMap}

variable (h : ∀ m, m ∈ stateSets ↔ m ∈ stateSets')
include h

theorem unconflicted_congr (k : StateKey)
    (id : String) : Unconflicted stateSets k id ↔ Unconflicted stateSets' k id := by
  have hnil : stateSets = [] ↔ stateSets' = [] := by
    simp only [eq_nil_iff_forall_not_mem, h]
  simp only [Unconflicted, ne_eq, hnil, h]

theorem conflicted_congr (k : StateKey) : Conflicted stateSets k ↔ Conflicted stateSets' k := by
  simp only [Conflicted, h, unconflicted_congr h]

theorem candidates_congr (k : StateKey) : candidates stateSets k = candidates stateSets' k := by
  ext id
  simp only [candidates, mem_toFinset, mem_filterMap, h]

theorem seperate_congr (o o' : Orders) : seperate o stateSets = seperate o' stateSets' := by
  refine Prod.ext (Finmap.ext_lookup fun k => Option.ext fun id => ?_)
    (Finmap.ext_lookup fun k => Option.ext fun s => ?_)
  · rw [(seperate_lookup o stateSets k).1, (seperate_lookup o' stateSets' k).1, unconflicted_congr h]
  · rw [(seperate_lookup o stateSets k).2, (seperate_lookup o' stateSets' k).2, conflicted_congr h,
      candidates_congr h]

end Seperate

/-! ## `_get_auth_chain_difference` -/

/-- The body of the inner loop: the auth events join the chain, and the search goes on from those in flight. -/
def searchAuth (unpersisted : EventMap) (event : Event) (chain : Finset String) :
    Except (Halt Exc) (Finset String × List Event) :=
  pure (event.authEventIds.foldl (fun chain authId => insert authId chain) chain,
    event.authEventIds.filterMap (unpersisted.lookup ·))

/-- The inner loop: an event with what it reaches through auth events in flight. -/
def unpersistedChain (fuel : ℕ) (unpersisted : EventMap) (event : Event) : Except (Halt Exc) (Finset String) :=
  worklist (throw .outOfFuel) (searchAuth unpersisted) fuel [event] {event.eventId}

/-- `d.values()` -/
def values {κ β : Type} [DecidableEq κ] (d : Finmap fun _ : κ => β) (order : Finset κ → List κ) : List β :=
  (order d.keys).filterMap d.lookup

def recordChain (fuel : ℕ) (unpersisted : EventMap) (chains : Graph) (event : Event) : Except (Halt Exc) Graph := do
  let chain ← unpersistedChain fuel unpersisted event
  pure (chains.insert event.eventId chain)

def eventsToAuthChain (o : Orders) (fuel : ℕ) (unpersisted : EventMap) : Except (Halt Exc) Graph :=
  (values unpersisted (o.ids .unpersisted)).foldlM (recordChain fuel unpersisted) ∅

/-- The body of the loop over a state set: the persisted ids to pass to the store, and the unpersisted ones. -/
def splitId (unpersisted : EventMap) (chains : Graph) (acc : Finset String × Finset String) (eventId : String) :
    Finset String × Finset String :=
  match chains.lookup eventId with
  | some chain => (acc.1 ∪ chain.filter (· ∉ unpersisted), acc.2 ∪ chain.filter (· ∈ unpersisted))
  | none => (insert eventId acc.1, acc.2)

/-- `union - intersection` of a non-empty list of sets. -/
def unionMinusIntersection : List (Finset String) → Except Exc (Finset String)
  | [] => throw .indexError
  | s :: rest => pure (rest.foldl (· ∪ ·) s \ rest.foldl (· ∩ ·) s)

/-- The difference, once `events_to_auth_chain` is known. -/
def differenceFrom (o : Orders) (store : Store) (roomId : String) (unpersisted : EventMap) (stateSets : List StateMap)
    (chains : Graph) : Except (Halt Exc) (Finset String) :=
  if unpersisted.keys = ∅ then
    pure (store.authChainDifference roomId
      (stateSets.mapIdx fun i m => (values m (o.keys (.stateSet i))).toFinset))
  else do
    let split := stateSets.mapIdx fun i m => (values m (o.keys (.stateSet i))).foldl (splitId unpersisted chains) (∅, ∅)
    let unpersistedPart ← (unionMinusIntersection (split.map Prod.snd)).mapError .raised
    pure (store.authChainDifference roomId (split.map Prod.fst) ∪ unpersistedPart)

def getAuthChainDifference (o : Orders) (fuel : ℕ) (store : Store) (roomId : String) (unpersisted : EventMap)
    (stateSets : List StateMap) : Except (Halt Exc) (Finset String) := do
  let chains ← eventsToAuthChain o fuel unpersisted
  differenceFrom o store roomId unpersisted stateSets chains

section Difference

variable {env : Env} {cost : String → ℕ} {id x : String}

theorem look_of_inFlight {e : Event} (h : env.inFlight.map.lookup id = some e) : env.look id = some e :=
  Env.faithful_inFlight.hit id e h

theorem sum_inFlight_le (l : List String) :
    ((l.filterMap (env.inFlight.map.lookup ·)).map (cost ·.eventId)).sum ≤ (l.map cost).sum := by
  induction l with
  | nil => simp
  | cons id l ih =>
    cases he : env.inFlight.map.lookup id with
    | none =>
      simp only [filterMap_cons, he, map_cons, sum_cons]
      omega
    | some e =>
      simp only [filterMap_cons, he, map_cons, sum_cons, env.inFlight.keyed id e he]
      omega

/-- Reached through auth events, from events in flight only. -/
def ReachedInFlight (env : Env) : String → String → Prop :=
  Relation.ReflTransGen fun a b => a ∈ env.inFlight.map ∧ b ∈ env.authIds a

theorem mem_foldl_insert (ids : List String) (chain : Finset String) :
    x ∈ ids.foldl (fun chain authId => insert authId chain) chain ↔ x ∈ chain ∨ x ∈ ids := by
  simp [foldl_iff (P := (x ∈ ·)) (Q := (x = ·)) fun chain id => (Finset.mem_insert).trans or_comm]

variable {fuel : ℕ}

theorem unpersistedChain_ok (hcost : env.Pays cost) {e : Event}
    (he : env.inFlight.map.lookup id = some e) (hfuel : cost id ≤ fuel) :
    ∃ chain, unpersistedChain fuel env.inFlight.map e = .ok chain ∧ ∀ x, x ∈ chain ↔ ReachedInFlight env id x := by
  obtain rfl := env.inFlight.keyed id e he
  -- what is in the chain is reached, and has its auth events in the chain or is on the stack
  let Inv (stack : List Event) (chain : Finset String) : Prop :=
    (∀ y ∈ stack, env.inFlight.map.lookup y.eventId = some y ∧ ReachedInFlight env e.eventId y.eventId) ∧
    (∀ x ∈ chain, ReachedInFlight env e.eventId x) ∧ e.eventId ∈ chain ∧
    ∀ a ∈ chain, a ∈ env.inFlight.map → (∃ y ∈ stack, y.eventId = a) ∨ ∀ b ∈ env.authIds a, b ∈ chain
  have hstep : ∀ y stack chain, Inv (y :: stack) chain → ∃ chain' pushed,
      searchAuth env.inFlight.map y chain = .ok (chain', pushed) ∧ Inv (pushed.reverse ++ stack) chain' ∧
        (pushed.map (cost ·.eventId)).sum < cost y.eventId := by
    rintro y stack chain ⟨hstack, hsound, hself, hclosed⟩
    obtain ⟨hy, hreach⟩ := hstack y mem_cons_self
    have hauth := Env.authIds_of_look (look_of_inFlight hy)
    have hedge : ∀ a ∈ y.authEventIds, ReachedInFlight env e.eventId a := fun a ha =>
      hreach.tail ⟨Finmap.mem_iff.mpr ⟨y, hy⟩, hauth ▸ ha⟩
    refine ⟨_, _, rfl, ?_, lt_of_le_of_lt (sum_inFlight_le y.authEventIds) (hauth ▸ hcost y.eventId)⟩
    simp only [Inv, mem_foldl_insert, mem_append, mem_reverse, mem_filterMap]
    refine ⟨?_, fun x hx => hx.elim (hsound x) (hedge x), .inl hself, fun a ha hmem => ?_⟩
    · rintro z (⟨a, ha, hz⟩ | hz)
      · rw [env.inFlight.keyed a z hz]
        exact ⟨hz, hedge a ha⟩
      · exact hstack z (mem_cons_of_mem _ hz)
    rcases ha with ha | ha
    · rcases hclosed a ha hmem with ⟨z, hz, rfl⟩ | hauths
      · rcases mem_cons.mp hz with rfl | hz
        · exact .inr fun b hb => .inr (hauth ▸ hb)
        · exact .inl ⟨z, .inr hz, rfl⟩
      · exact .inr fun b hb => .inl (hauths b hb)
    · obtain ⟨z, hz⟩ := Finmap.mem_iff.mp hmem
      exact .inl ⟨z, .inl ⟨a, ha, hz⟩, env.inFlight.keyed a z hz⟩
  have hrun : ∃ chain, unpersistedChain fuel env.inFlight.map e = .ok chain ∧ Inv [] chain :=
    worklist_total Inv (cost ·.eventId) hstep fuel [e] {e.eventId}
      (by simp [Inv, he, ReachedInFlight, Relation.ReflTransGen.refl]) (by simpa using hfuel)
  obtain ⟨chain, hrun, -, hsound, hself, hclosed⟩ := hrun
  refine ⟨chain, hrun, fun x => ⟨hsound x, fun hx => ?_⟩⟩
  induction hx with
  | refl => exact hself
  | tail _ hab ih => exact (hclosed _ ih hab.1).resolve_left (by simp) _ hab.2

theorem mem_values {κ β : Type} [DecidableEq κ] {d : Finmap fun _ : κ => β} {order : Finset κ → List κ}
    (horder : ∀ k, k ∈ order d.keys ↔ k ∈ d.keys) {b : β} : b ∈ values d order ↔ ∃ k, d.lookup k = some b := by
  unfold values
  rw [mem_filterMap]
  refine ⟨fun ⟨k, _, hk⟩ => ⟨k, hk⟩, fun ⟨k, hk⟩ => ⟨k, ?_, hk⟩⟩
  rw [horder, Finmap.mem_keys, Finmap.mem_iff]
  exact ⟨b, hk⟩

/-- `events_to_auth_chain` -/
structure Chains (env : Env) (chains : Graph) : Prop where
  keys : ∀ id, id ∈ chains ↔ id ∈ env.inFlight.map
  mem : ∀ id chain, chains.lookup id = some chain → ∀ x, x ∈ chain ↔ ReachedInFlight env id x

theorem eventsToAuthChain_ok (hcost : env.Pays cost) (o : Orders) (hfuel : ∀ id ∈ env.inFlight.map, cost id ≤ fuel) :
    ∃ chains, eventsToAuthChain o fuel env.inFlight.map = .ok chains ∧ Chains env chains := by
  have hvalues : ∀ e, e ∈ values env.inFlight.map (o.ids .unpersisted) ↔ ∃ id, env.inFlight.map.lookup id = some e :=
    fun e => mem_values fun k => o.mem_ids _
  obtain ⟨chains, hrun, hkeys, hmem⟩ := foldlM_total (f := recordChain fuel env.inFlight.map) (s := (∅ : Graph))
    (l := values env.inFlight.map (o.ids .unpersisted)) (fun seen chains =>
      (∀ id, id ∈ chains ↔ ∃ e ∈ seen, e.eventId = id) ∧
      ∀ id chain, chains.lookup id = some chain → ∀ x, x ∈ chain ↔ ReachedInFlight env id x)
    (by simp [Finmap.notMem_empty]) (fun seen e rest chains hl ⟨hkeys, hmem⟩ => by
      obtain ⟨id, he⟩ := (hvalues e).mp (by simp [hl])
      obtain rfl := env.inFlight.keyed id e he
      obtain ⟨chain, hchain, hx⟩ := unpersistedChain_ok hcost he (hfuel _ (Finmap.mem_iff.mpr ⟨e, he⟩))
      refine ⟨chains.insert e.eventId chain, by rw [recordChain, hchain]; rfl, fun id => ?_, insert_all hmem hx⟩
      rw [Finmap.mem_insert, hkeys]
      simp [or_comm, eq_comm])
  refine ⟨chains, hrun, fun id => (hkeys id).trans ⟨?_, fun h => ?_⟩, hmem⟩
  · rintro ⟨e, he, rfl⟩
    obtain ⟨id, he⟩ := (hvalues e).mp he
    exact Finmap.mem_iff.mpr ⟨e, env.inFlight.keyed id e he ▸ he⟩
  · obtain ⟨e, he⟩ := Finmap.mem_iff.mp h
    exact ⟨e, (hvalues e).mpr ⟨id, he⟩, env.inFlight.keyed id e he⟩

/-- Reached from an event of a state set, through events in flight. -/
def FromSet (env : Env) (m : StateMap) (x : String) : Prop := ∃ k id, m.lookup k = some id ∧ ReachedInFlight env id x

theorem reachedInFlight_persisted (h : id ∉ env.inFlight.map) : ReachedInFlight env id x ↔ x = id := by
  refine ⟨fun hx => ?_, fun hx => hx ▸ .refl⟩
  rcases Relation.ReflTransGen.cases_head hx with rfl | ⟨_, hab, -⟩
  · rfl
  · exact absurd hab.1 h

theorem mem_splitId {chains : Graph} (hc : Chains env chains) (acc : Finset String × Finset String) (id : String) :
    (x ∈ (splitId env.inFlight.map chains acc id).1 ↔ x ∈ acc.1 ∨ x ∉ env.inFlight.map ∧ ReachedInFlight env id x) ∧
      (x ∈ (splitId env.inFlight.map chains acc id).2 ↔ x ∈ acc.2 ∨ x ∈ env.inFlight.map ∧ ReachedInFlight env id x) := by
  rw [splitId]
  cases hid : chains.lookup id with
  | some chain => simp [hc.mem id chain hid, and_comm]
  | none =>
    have hnot : id ∉ env.inFlight.map := mt (hc.keys id).mpr (Finmap.lookup_eq_none.mp hid)
    simp only [Finset.mem_insert, reachedInFlight_persisted hnot]
    refine ⟨or_comm.trans (or_congr_right ⟨fun h => ⟨h ▸ hnot, h⟩, And.right⟩), (or_iff_left ?_).symm⟩
    rintro ⟨hx, rfl⟩
    exact hnot hx

theorem mem_splitIds {chains : Graph} (hc : Chains env chains) (o : Orders) (site : Site) (m : StateMap) :
    (x ∈ ((values m (o.keys site)).foldl (splitId env.inFlight.map chains) (∅, ∅)).1 ↔
        x ∉ env.inFlight.map ∧ FromSet env m x) ∧
      (x ∈ ((values m (o.keys site)).foldl (splitId env.inFlight.map chains) (∅, ∅)).2 ↔
        x ∈ env.inFlight.map ∧ FromSet env m x) := by
  rw [foldl_iff (P := (x ∈ ·.1)) fun acc id => (mem_splitId hc acc id).1,
    foldl_iff (P := (x ∈ ·.2)) fun acc id => (mem_splitId hc acc id).2]
  simp only [mem_values fun k => o.mem_keys _, FromSet]
  tauto

theorem mapIdx_eq_map {α β : Type} {f : ℕ → α → β} {g : α → β} (h : ∀ i a, f i a = g a) (l : List α) :
    l.mapIdx f = l.map g := by
  refine ext_getElem? fun i => ?_
  rw [getElem?_mapIdx, getElem?_map]
  cases l[i]? with
  | none => rfl
  | some a => exact congrArg some (h i a)

theorem unionMinusIntersection_ok {l : List (Finset String)} (hne : l ≠ []) :
    ∃ d, unionMinusIntersection l = .ok d ∧ ∀ x, x ∈ d ↔ (∃ s ∈ l, x ∈ s) ∧ ∃ s ∈ l, x ∉ s := by
  cases l with
  | nil => exact absurd rfl hne
  | cons s rest =>
    refine ⟨_, rfl, fun x => ?_⟩
    rw [Finset.mem_sdiff, foldl_iff (P := (x ∈ ·)) (Q := (x ∈ ·)) fun _ _ => Finset.mem_union,
      foldl_iff (P := (x ∉ ·)) fun _ _ => by rw [Finset.mem_inter, not_and_or],
      exists_mem_cons_iff, exists_mem_cons_iff]

/-- **The difference**: what the store answers for the persisted events that each state set leads to, and the events in
flight that some state set leads to but not all. -/
theorem getAuthChainDifference_spec (hcost : env.Pays cost) :
    ∃ persisted : StateMap → Finset String, (∀ m x, x ∈ persisted m ↔ x ∉ env.inFlight.map ∧ FromSet env m x) ∧
      ∀ (o : Orders) (fuel : ℕ) (stateSets : List StateMap), (∀ id ∈ env.inFlight.map, cost id ≤ fuel) → stateSets ≠ [] →
        ∃ d, getAuthChainDifference o fuel env.store env.roomId env.inFlight.map stateSets = .ok d ∧
          ∀ x, x ∈ d ↔ x ∈ env.store.authChainDifference env.roomId (stateSets.map persisted) ∨
            x ∈ env.inFlight.map ∧ (∃ m ∈ stateSets, FromSet env m x) ∧ ∃ m ∈ stateSets, ¬ FromSet env m x := by
  -- one run of the search gives the sets that every run has
  obtain ⟨chains₀, -, hc₀⟩ := eventsToAuthChain_ok hcost .ascending
    fun id hid => Finset.single_le_sum (fun _ _ => Nat.zero_le _) (Finmap.mem_keys.mpr hid)
  let split (m : StateMap) := (values m (Orders.ascending.keys .seperate)).foldl (splitId env.inFlight.map chains₀) (∅, ∅)
  have hsplit : ∀ m x, (x ∈ (split m).1 ↔ x ∉ env.inFlight.map ∧ FromSet env m x) ∧
      (x ∈ (split m).2 ↔ x ∈ env.inFlight.map ∧ FromSet env m x) := fun m x => mem_splitIds hc₀ _ _ m
  refine ⟨fun m => (split m).1, fun m x => (hsplit m x).1, fun o fuel stateSets hfuel hne => ?_⟩
  obtain ⟨chains, hchains, hc⟩ := eventsToAuthChain_ok hcost o hfuel
  rw [getAuthChainDifference, hchains]
  show ∃ d, differenceFrom o env.store env.roomId env.inFlight.map stateSets chains = .ok d ∧ _
  unfold differenceFrom
  by_cases hempty : env.inFlight.map.keys = ∅
  · have hnone : ∀ x, x ∉ env.inFlight.map := fun x hx => by simpa [hempty] using Finmap.mem_keys.mpr hx
    rw [if_pos hempty, mapIdx_eq_map fun i m => show (values m (o.keys (.stateSet i))).toFinset = (split m).1 from ?_]
    · exact ⟨_, rfl, fun x => by simp [hnone]⟩
    · ext x
      rw [(hsplit m x).1, mem_toFinset, mem_values fun k => o.mem_keys _]
      simp [hnone, FromSet, reachedInFlight_persisted]
  have hsame : ∀ i m, (values m (o.keys (.stateSet i))).foldl (splitId env.inFlight.map chains) (∅, ∅) = split m := by
    intro i m
    refine Prod.ext (Finset.ext fun x => ?_) (Finset.ext fun x => ?_)
    · rw [(mem_splitIds hc o _ m).1, (hsplit m x).1]
    · rw [(mem_splitIds hc o _ m).2, (hsplit m x).2]
  rw [if_neg hempty]
  simp only [mapIdx_eq_map hsame]
  obtain ⟨d, hd, hx⟩ := unionMinusIntersection_ok (l := (stateSets.map split).map Prod.snd) (by simpa using hne)
  rw [hd, map_map]
  refine ⟨_, rfl, fun x => ?_⟩
  rw [Finset.mem_union, hx]
  refine or_congr_right ?_
  simp only [mem_map, exists_exists_and_eq_and, (hsplit _ x).2]
  by_cases hin : x ∈ env.inFlight.map <;> simp [hin]

theorem getAuthChainDifference_ok (hcost : env.Pays cost)
    (hstore : env.store.OrderFree env.roomId) {stateSets : List StateMap} (hne : stateSets ≠ []) :
    ∃ d, ∀ o fuel stateSets', (∀ id ∈ env.inFlight.map, cost id ≤ fuel) → (∀ m, m ∈ stateSets' ↔ m ∈ stateSets) →
      getAuthChainDifference o fuel env.store env.roomId env.inFlight.map stateSets' = .ok d := by
  obtain ⟨persisted, -, hspec⟩ := getAuthChainDifference_spec hcost
  obtain ⟨d, -, hd⟩ := hspec .ascending _ stateSets
    (fun id hid => Finset.single_le_sum (fun _ _ => Nat.zero_le _) (Finmap.mem_keys.mpr hid)) hne
  refine ⟨d, fun o fuel stateSets' hfuel hmem => ?_⟩
  obtain ⟨d', hrun, hd'⟩ := hspec o fuel stateSets' hfuel
    fun h => hne (eq_nil_iff_forall_not_mem.mpr fun m hm => by simpa [h] using (hmem m).mpr hm)
  rw [hrun, show d' = d from Finset.ext fun x => ?_]
  rw [hd, hd', hstore (stateSets'.map persisted) (stateSets.map persisted) fun s => by simp only [mem_map, hmem]]
  simp only [hmem]

end Difference

/-! ## Events that are not persisted -/

section Unpersisted

variable {env : Env} {stateSets : List StateMap} {id x : String}

/-- In the auth chain of an event, or the event itself. -/
def InChain (auth : String → List String) : String → String → Prop := Relation.ReflTransGen fun a b => b ∈ auth a

def Store.authIds (store : Store) (id : String) : List String :=
  ((store.events.map.lookup id).map Event.authEventIds).getD []

/-- The difference is exact for sets of persisted events. -/
def Store.Exact (store : Store) (roomId : String) : Prop :=
  ∀ sets : List (Finset String), (∀ s ∈ sets, ∀ id ∈ s, id ∈ store.events.map) →
    ∀ x, x ∈ store.authChainDifference roomId sets ↔
      (∃ s ∈ sets, ∃ id ∈ s, InChain store.authIds id x) ∧ ∃ s ∈ sets, ¬ ∃ id ∈ s, InChain store.authIds id x

/-- Every event is in flight or persisted, and those that are persisted have no auth events in flight. -/
structure Supplied (env : Env) (stateSets : List StateMap) : Prop where
  sets : ∀ m ∈ stateSets, ∀ k ∈ m.keys, ∀ id ∈ m.lookup k, id ∈ env.inFlight.map ∨ id ∈ env.store.events.map
  auth : ∀ a ∈ env.inFlight.map.keys, ∀ b ∈ env.authIds a, b ∈ env.inFlight.map ∨ b ∈ env.store.events.map
  persisted : ∀ a ∈ env.store.events.map.keys, ∀ b ∈ env.store.authIds a, b ∉ env.inFlight.map

theorem authIds_persisted (h : id ∉ env.inFlight.map) : env.authIds id = env.store.authIds id := by
  rw [Env.authIds, Store.authIds, Env.faithful_inFlight.miss id (Finmap.lookup_eq_none.mpr h)]

section Supplied

variable (h : Supplied env stateSets)
include h

theorem Supplied.not_inFlight (hid : id ∉ env.inFlight.map)
    (hx : InChain env.store.authIds id x) : x ∉ env.inFlight.map := by
  induction hx with
  | refl => exact hid
  | @tail a _ _ hab ih =>
    refine h.persisted a (Finmap.mem_keys.mpr ?_) _ hab
    by_contra hnot
    simp [Store.authIds, Finmap.lookup_eq_none.mpr hnot] at hab

/-- An auth chain leaves the events in flight once. -/
theorem Supplied.inChain_iff : InChain env.authIds id x ↔ (x ∈ env.inFlight.map ∧ ReachedInFlight env id x) ∨
      ∃ y ∉ env.inFlight.map, ReachedInFlight env id y ∧ InChain env.store.authIds y x := by
  constructor
  · intro hx
    induction hx with
    | refl =>
      by_cases hid : id ∈ env.inFlight.map
      · exact .inl ⟨hid, .refl⟩
      · exact .inr ⟨id, hid, .refl, .refl⟩
    | @tail a b _ hab ih =>
      rcases ih with ⟨ha, hreach⟩ | ⟨y, hy, hreach, hchain⟩
      · by_cases hb : b ∈ env.inFlight.map
        · exact .inl ⟨hb, hreach.tail ⟨ha, hab⟩⟩
        · exact .inr ⟨b, hb, hreach.tail ⟨ha, hab⟩, .refl⟩
      · rw [authIds_persisted (h.not_inFlight hy hchain)] at hab
        exact .inr ⟨y, hy, hreach, hchain.tail hab⟩
  · have hin : ∀ {y}, ReachedInFlight env id y → InChain env.authIds id y :=
      fun hy => Relation.ReflTransGen.mono (fun _ _ hab => hab.2) _ _ hy
    rintro (⟨-, hreach⟩ | ⟨y, hy, hreach, hchain⟩)
    · exact hin hreach
    · induction hchain with
      | refl => exact hin hreach
      | tail hchain hab ih => exact ih.tail (authIds_persisted (h.not_inFlight hy hchain) ▸ hab)

def InChains (env : Env) (m : StateMap) (x : String) : Prop := ∃ k id, m.lookup k = some id ∧ InChain env.authIds id x

theorem Supplied.inChains_inFlight (hx : x ∈ env.inFlight.map) (m : StateMap) : InChains env m x ↔ FromSet env m x := by
  refine exists_congr fun k => exists_congr fun id => and_congr_right fun _ => ?_
  rw [h.inChain_iff]
  refine ⟨fun h' => (h'.resolve_right ?_).2, fun h' => .inl ⟨hx, h'⟩⟩
  rintro ⟨y, hy, -, hchain⟩
  exact h.not_inFlight hy hchain hx

theorem Supplied.inChains_persisted (hx : x ∉ env.inFlight.map) (m : StateMap) :
    InChains env m x ↔ ∃ y, (y ∉ env.inFlight.map ∧ FromSet env m y) ∧ InChain env.store.authIds y x := by
  constructor
  · rintro ⟨k, id, hk, hchain⟩
    obtain ⟨y, hy, hreach, hchain⟩ := (h.inChain_iff.mp hchain).resolve_left fun h' => hx h'.1
    exact ⟨y, ⟨hy, k, id, hk, hreach⟩, hchain⟩
  · rintro ⟨y, ⟨hy, k, id, hk, hreach⟩, hchain⟩
    exact ⟨k, id, hk, h.inChain_iff.mpr (.inr ⟨y, hy, hreach, hchain⟩)⟩

theorem Supplied.mem_store {m : StateMap} (hm : m ∈ stateSets)
    (hx : x ∉ env.inFlight.map) (hfrom : FromSet env m x) : x ∈ env.store.events.map := by
  obtain ⟨k, id, hk, hreach⟩ := hfrom
  cases hreach with
  | refl => exact (h.sets m hm k (Finmap.mem_keys.mpr (Finmap.mem_iff.mpr ⟨x, hk⟩)) x hk).resolve_left hx
  | tail _ hab => exact (h.auth _ (Finmap.mem_keys.mpr hab.1) _ hab.2).resolve_left hx

end Supplied

/-- **The difference with events that are not persisted** is the union minus the intersection of the auth chains. -/
theorem unpersisted_difference_exact (hacyclic : env.Acyclic) (hexact : env.store.Exact env.roomId)
    (h : Supplied env stateSets) (hne : stateSets ≠ []) :
    ∃ bound, ∀ (o : Orders) (fuel : ℕ), bound ≤ fuel → ∃ d,
      getAuthChainDifference o fuel env.store env.roomId env.inFlight.map stateSets = .ok d ∧
        ∀ x, x ∈ d ↔ (∃ m ∈ stateSets, InChains env m x) ∧ ∃ m ∈ stateSets, ¬ InChains env m x := by
  obtain ⟨cost, hcost⟩ := hacyclic.exists_cost
  obtain ⟨persisted, hpersisted, hspec⟩ := getAuthChainDifference_spec hcost
  refine ⟨env.inFlight.map.keys.sum cost, fun o fuel hfuel => ?_⟩
  obtain ⟨d, hrun, hd⟩ := hspec o fuel stateSets (fun id hid => le_trans
    (Finset.single_le_sum (fun _ _ => Nat.zero_le _) (Finmap.mem_keys.mpr hid)) hfuel) hne
  refine ⟨d, hrun, fun x => (hd x).trans ?_⟩
  have hstored : ∀ s ∈ stateSets.map persisted, ∀ id ∈ s, id ∈ env.store.events.map := by
    intro s hs id hid
    obtain ⟨m, hm, rfl⟩ := mem_map.mp hs
    obtain ⟨hnot, hfrom⟩ := (hpersisted m id).mp hid
    exact h.mem_store hm hnot hfrom
  rw [hexact _ hstored]
  simp only [mem_map, exists_exists_and_eq_and, hpersisted]
  by_cases hx : x ∈ env.inFlight.map
  · -- the store knows no chain with an event in flight
    have hnone : ∀ m, ¬ ∃ y, (y ∉ env.inFlight.map ∧ FromSet env m y) ∧ InChain env.store.authIds y x := by
      rintro m ⟨y, ⟨hy, -⟩, hchain⟩
      exact h.not_inFlight hy hchain hx
    simp only [h.inChains_inFlight, hnone, hx, and_false, exists_false, false_and, false_or, true_and]
  · simp only [h.inChains_persisted hx, hx, false_and, or_false]

end Unpersisted

namespace InFlight

/-- A room whose create event is persisted, with the join of its creator in flight. -/
def env : Env where
  roomId := "!r:hs"
  roomVersion := .v10
  eventMap := some (.ofList [{ Event.ofContent "$join" EventTypes.member "@a:hs" "@a:hs" [] with authEventIds := ["$create"] }])
  store := ⟨.ofList [Event.ofContent "$create" EventTypes.create "" "@a:hs" []],
    fun _ sets => (unionMinusIntersection sets).toOption.getD ∅⟩
  authCheck _ _ := true

theorem store_exact : env.store.Exact env.roomId := by
  have hauth : ∀ id, env.store.authIds id = [] := by
    intro id
    rw [Store.authIds, show env.store.events.map = (∅ : EventMap).insert "$create" _ from rfl, lookup_insert_eq]
    split <;> rfl
  have hself : ∀ id x, InChain env.store.authIds id x ↔ x = id := by
    intro id x
    refine ⟨fun h => ?_, fun h => h ▸ .refl⟩
    cases h with
    | refl => rfl
    | tail _ hab => simp [hauth] at hab
  intro sets _ x
  simp only [hself, exists_eq_right']
  show x ∈ (unionMinusIntersection sets).toOption.getD ∅ ↔ _
  cases sets with
  | nil => simp [unionMinusIntersection, Except.toOption, throw, throwThe, MonadExceptOf.throw]
  | cons s rest =>
    obtain ⟨d, hd, hx⟩ := unionMinusIntersection_ok (cons_ne_nil s rest)
    rw [hd]
    exact hx x

def before : StateMap := Finmap.singleton (EventTypes.create, "") "$create"

def after : StateMap := before.insert (EventTypes.member, "@a:hs") "$join"

theorem unpersisted_difference_join : ∃ bound, ∀ (o : Orders) (fuel : ℕ), bound ≤ fuel → ∃ d,
    getAuthChainDifference o fuel env.store env.roomId env.inFlight.map [before, after] = .ok d ∧
      ∀ x, x ∈ d ↔ (∃ m ∈ [before, after], InChains env m x) ∧ ∃ m ∈ [before, after], ¬ InChains env m x := by
  refine unpersisted_difference_exact (Env.acyclic_of_rank (fun id => if id = "$join" then 1 else 0) (by decide +kernel))
    store_exact ⟨?_, ?_, ?_⟩ (cons_ne_nil _ _)
  · decide +kernel
  · decide +kernel
  · decide +kernel

end InFlight

end Synapse.StateRes
