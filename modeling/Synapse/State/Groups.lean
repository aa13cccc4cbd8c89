import Synapse.Lib.DeltaChain
import Synapse.State.Filter

/-!
# Synapse.State.Groups — state groups and their deltas

The tables `state_groups`, `state_group_edges` and `state_groups_state`, with the operations of
`synapse/storage/databases/state/store.py` on them and the readers of `bg_updates.py`.

* `Tables`: the tables; `Tables.store` reads them as a store of deltas.
* `sqliteState`, `postgresState`: the two readers of a group.
* `storeStateGroup`, `storeStateDeltasForBatched`, `purgeUnreferencedStateGroups`: the writers.
-/

namespace Synapse.State

open Lib

/-- `isinstance(self.database_engine, PostgresEngine)` -/
inductive Engine where
  | sqlite
  | postgres
  deriving DecidableEq

/-- The tables.  A group has at most one edge; it has no state where it has no rows. -/
structure Tables where
  /-- the last value of `state_group_id_seq` -/
  lastGroup : ℕ
  stateGroups : Finset ℕ
  stateGroupEdges : ℕ → Option ℕ
  stateGroupsState : ℕ → StateMap

namespace Tables

def empty : Tables := ⟨0, ∅, fun _ => none, fun _ => ∅⟩

def store (t : Tables) : Delta.Store StateKey String := ⟨t.stateGroupEdges, t.stateGroupsState⟩

end Tables

/-! ## Reading -/

section Read

variable (t : Tables) (f : StateFilter)

/-- The step-by-step walk: the entries of a group do not replace those found before, and the walk ends when there are
as many as the filter can return. -/
def sqliteState (group : ℕ) : StateMap :=
  Delta.walk t.store f.makeSqlFilterClause.holds (fun results => f.maxEntriesReturned = some results.keys.card) ∅
    ((Delta.chain t.store group).takeWhile (· ≠ 0))

/-- `SELECT DISTINCT ON (type, state_key) ... ORDER BY type, state_key, state_group DESC` over the groups of the
recursive query: the row of the highest group. -/
def selectDistinct (group : ℕ) (holds : StateKey → Bool) : StateMap :=
  Delta.collect t.store holds ∅ ((Delta.chain t.store group).insertionSort (· ≥ ·))

/-- The recursive query.  A filter with few conditions has a `SELECT` for each, joined by `UNION`; with none of them
the statement ends after the `WITH` part. -/
def postgresState (group : ℕ) : Except Exc StateMap :=
  let useConditionOptimization := !f.includeOthers && !f.isFull
  if useConditionOptimization ∧ f.conds.length < 10 then
    if f.conds.isEmpty then throw .programmingError
    else pure (f.conds.foldl (fun results cond => update results (selectDistinct t group cond.holds)) ∅)
  else pure (selectDistinct t group f.makeSqlFilterClause.holds)

def stateForGroup : Engine → ℕ → Except Exc StateMap
  | .sqlite, group => pure (sqliteState t f group)
  | .postgres, group => postgresState t f group

def getStateGroupsFromGroupsTxn (engine : Engine) (groups : List ℕ) : Except Exc (List (ℕ × StateMap)) :=
  groups.mapM fun group => do pure (group, ← stateForGroup t f engine group)

end Read

/-! ## Writing -/

variable (t : Tables) (engine : Engine)

def maxStateDeltaHops : ℕ := 100

/-- `_count_state_group_hops_txn(txn, state_group)`: PostgreSQL counts the groups, SQLite the edges between them. -/
def countStateGroupHopsTxn : Engine → ℕ → ℕ
  | .sqlite, group => ((Delta.chain t.store group).takeWhile (· ≠ 0)).length - 1
  | .postgres, group => (Delta.chain t.store group).length

def insertGroup (stateGroup : ℕ) (prevGroup : Option ℕ) (ids : StateMap) : Tables where
  lastGroup := stateGroup
  stateGroups := insert stateGroup t.stateGroups
  stateGroupEdges := Function.update t.stateGroupEdges stateGroup prevGroup
  stateGroupsState := Function.update t.stateGroupsState stateGroup ids

def unpersistedPrevGroup (prevGroup : ℕ) : Exc :=
  .exception [.text s!"Trying to persist state with unpersisted prev_group: {prevGroup}"]

/-- `insert_delta_group_txn(txn, prev_group, delta_ids)`, which would give the new group the number `stateGroup`. -/
def insertDeltaGroupTxn (stateGroup prevGroup : ℕ) (deltaIds : StateMap) : Except Exc (Option Tables) :=
  if prevGroup ∉ t.stateGroups then throw (unpersistedPrevGroup prevGroup)
  else if maxStateDeltaHops ≤ countStateGroupHopsTxn t engine prevGroup then pure none
  else pure (some (insertGroup t stateGroup (some prevGroup) deltaIds))

/-- `current_state_ids`, read from the previous group if it was not given. -/
def currentState (prevGroup : ℕ) (deltaIds : StateMap) : Option StateMap → Except Exc StateMap
  | some ids => pure ids
  | none => do pure (update (← stateForGroup t .all engine prevGroup) deltaIds)

/-- The end of `store_state_group`, after the attempt to store a delta. -/
def deltaOrFullState (stateGroup prevGroup : ℕ) (deltaIds : StateMap)
    (currentStateIds : Option StateMap) : Option Tables → Except Exc Tables
  | some t => pure t
  | none => do pure (insertGroup t stateGroup none (← currentState t engine prevGroup deltaIds currentStateIds))

def storeStateGroup (stateGroup : ℕ) (prevGroup : Option ℕ)
    (deltaIds currentStateIds : Option StateMap) : Except Exc Tables :=
  match prevGroup, deltaIds, currentStateIds with
  | none, _, none => throw (.exception [.text "current_state_ids and prev_group can't both be None"])
  | none, _, some ids => pure (insertGroup t stateGroup none ids)
  | some _, none, _ => throw (.exception [.text "delta_ids is None when prev_group is not None"])
  | some prev, some delta, current => do
    deltaOrFullState t engine stateGroup prev delta current (← insertDeltaGroupTxn t engine stateGroup prev delta)

/-- The groups and the delta that the loop of `store_state_deltas_for_batched` gives to an event. -/
structure BatchContext where
  stateGroupBeforeEvent : ℕ
  stateGroupAfterEvent : ℕ
  stateDeltaDueToEvent : Option (StateKey × String)

/-- The loop over the events of a batch: a state event takes the next new group, any other event stays in the group
before it. -/
def batchContexts : ℕ → List (Option (StateKey × String)) → List ℕ → List BatchContext
  | _, [], _ => []
  | sgBefore, none :: events, stateGroups => ⟨sgBefore, sgBefore, none⟩ :: batchContexts sgBefore events stateGroups
  | _, some _ :: _, [] => []
  | sgBefore, some delta :: events, sgAfter :: stateGroups =>
    ⟨sgBefore, sgAfter, some delta⟩ :: batchContexts sgAfter events stateGroups

/-- The rows that are inserted for an event of the batch. -/
def insertContext (context : BatchContext) : Tables :=
  match context.stateDeltaDueToEvent with
  | none => t
  | some delta => insertGroup t context.stateGroupAfterEvent (some context.stateGroupBeforeEvent)
      (Finmap.singleton delta.1 delta.2)

/-- `store_state_deltas_for_batched(events_and_context, room_id, prev_group)`: the events are given by what they set,
`none` for events that are not state. -/
def storeStateDeltasForBatched (stateGroups : List ℕ) (prevGroup : ℕ)
    (events : List (Option (StateKey × String))) : Except Exc (Tables × List BatchContext) :=
  if prevGroup ∉ t.stateGroups then throw (unpersistedPrevGroup prevGroup)
  else
    let contexts := batchContexts prevGroup events stateGroups
    pure (contexts.foldl insertContext t, contexts)

/-! ## Purging -/

/-- `remaining_state_groups`: the groups that are deltas on groups to be deleted. -/
def remainingStateGroups (toDelete : Finset ℕ) : Finset ℕ :=
  t.stateGroups.filter fun sg => sg ∉ toDelete ∧ (t.stateGroupEdges sg).any (· ∈ toDelete)

/-- The body of the loop over `remaining_state_groups`. -/
def deDelta (engine : Engine) (t : Tables) (sg : ℕ) : Except Exc Tables := do
  let currState ← stateForGroup t .all engine sg
  pure { t with
    stateGroupEdges := Function.update t.stateGroupEdges sg none
    stateGroupsState := Function.update t.stateGroupsState sg currState }

/-- The `DELETE`s at the end. -/
def deleteGroups (toDelete : Finset ℕ) : Tables where
  lastGroup := t.lastGroup
  stateGroups := t.stateGroups \ toDelete
  stateGroupEdges sg := if sg ∈ toDelete then none else t.stateGroupEdges sg
  stateGroupsState sg := if sg ∈ toDelete then ∅ else t.stateGroupsState sg

/-- `_purge_unreferenced_state_groups`, for the groups that are ready to be deleted; `order` is the order in which
`remaining_state_groups` is iterated. -/
def purgeUnreferencedStateGroups (toDelete : Finset ℕ) (order : List ℕ) : Except Exc Tables := do
  let t ← order.foldlM (deDelta engine) t
  pure (deleteGroups t toDelete)

end Synapse.State
