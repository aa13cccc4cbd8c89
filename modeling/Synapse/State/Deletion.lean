import Synapse.EventContext
import Synapse.State.Reads

/-!
# Synapse.State.Deletion — deleting state groups while events are persisted

`StateDeletionDataStore` of `synapse/storage/databases/state/deletion.py`, the background deletion of
`controllers/purge_events.py`, and what persists events and stores state groups beside it.  Each transaction is one
step; the state groups and the events can be in different databases, so no transaction reads both.

* `Pending`: a row of `state_groups_pending_deletion`; its sequence number is new each time the row is written.
* `PersistTask`: a batch inside `persisting_state_group_references`; `Deleter`: a call of `_delete_state_groups`.
* `System.step`: every transition.
-/

namespace Synapse.State

open Lib

def delayBeforeDeletionMs : ℕ := 10 * 60 * 1000

/-- A row of `state_groups_pending_deletion`. -/
structure Pending where
  insertionTs : ℕ
  sequenceNumber : ℕ
  deriving DecidableEq

/-- `state_groups_pending_deletion`, and the last sequence number. -/
structure PendingTable where
  rows : Finmap fun _ : ℕ => Pending
  lastSequence : ℕ

namespace PendingTable

variable (now : ℕ) (t : PendingTable)

/-- A row is written with the next sequence number. -/
def write (group : ℕ) : PendingTable := ⟨t.rows.insert group ⟨now, t.lastSequence + 1⟩, t.lastSequence + 1⟩

/-- `INSERT ... ON CONFLICT (state_group) DO NOTHING` -/
def proposeGroup (group : ℕ) : PendingTable := if group ∈ t.rows then t else t.write now group

/-- One group of `_bump_deletion_txn`. -/
def bumpGroup (group : ℕ) : PendingTable := if group ∈ t.rows then t.write now group else t

/-- `_mark_state_groups_as_pending_deletion_txn(txn, state_groups)` -/
def markStateGroupsAsPendingDeletion (groups : List ℕ) : PendingTable := groups.foldl (proposeGroup now) t

/-- `_bump_deletion_txn(txn, state_groups)` -/
def bumpDeletion (groups : List ℕ) : PendingTable := groups.foldl (bumpGroup now) t

def delete (groups : Finset ℕ) : PendingTable := { t with rows := restrict (· ∉ groups) t.rows }

end PendingTable

/-- `state_groups[event.event_id]`: a rejected event has the state of its predecessor. -/
def mappedGroup (e : EventContext) : Option ℕ := if e.rejected then e.stateGroupBeforeEvent else e.stateGroup

/-- A row of `event_to_state_groups`, and whether the event was accepted. -/
structure Ref where
  stateGroup : ℕ
  accepted : Bool
  deriving DecidableEq

/-- A batch of events of one room that an instance is persisting. -/
structure PersistTask where
  instanceName : String
  referenced : Finset ℕ
  events : List EventContext

/-- A call of `_delete_state_groups`: `groups_to_sequences`, the groups that `get_referenced_state_groups` has still to
look up, those it has found, and whether they have been marked as used. -/
structure Deleter where
  groups : Finset ℕ
  sequence : ℕ → ℕ
  unchecked : Finset ℕ
  referenced : Finset ℕ
  marked : Bool

/-- `groups_to_sequences` without the referenced groups. -/
def Deleter.remaining (d : Deleter) : Finset ℕ := d.groups \ d.referenced

/-- The databases, the clock, and the work in progress. -/
structure System where
  now : ℕ
  /-- the tables of state groups -/
  state : World
  roomOf : ℕ → String
  pending : PendingTable
  /-- `state_groups_persisting` -/
  persisting : Finset (ℕ × String)
  /-- `events`, with the column `outlier` -/
  events : Finmap fun _ : String => Bool
  /-- `event_to_state_groups` -/
  eventToStateGroups : Finmap fun _ : String => Ref
  /-- the batch that the queue of a room is at -/
  tasks : String → Option PersistTask
  deleters : List Deleter

namespace System

def empty : System := ⟨0, .empty, fun _ => "", ⟨∅, 0⟩, ∅, ∅, ∅, fun _ => none, []⟩

variable (s : System)

def stateGroups : Finset ℕ := s.state.tables.stateGroups

def isPersisting (group : ℕ) : Prop := ∃ p ∈ s.persisting, p.1 = group

instance (group : ℕ) : Decidable (s.isPersisting group) := inferInstanceAs (Decidable (∃ p ∈ s.persisting, p.1 = group))

/-- `_bump_deletion_txn(txn, state_groups)` -/
def bumpDeletion (groups : List ℕ) : System := { s with pending := s.pending.bumpDeletion s.now groups }

/-! ## Persisting events -/

/-- `referenced_state_groups`; `none` when an accepted event has no state group, which is an `AssertionError`. -/
def referencedStateGroups : List EventContext → Option (Finset ℕ)
  | [] => some ∅
  | e :: events =>
    if e.accepted then do
      let rest ← referencedStateGroups events
      let group ← e.stateGroup
      let before := (e.stateGroupBeforeEvent.filter (· ≠ 0)).toFinset
      pure (insert group (before ∪ rest))
    else referencedStateGroups events

/-- `_mark_state_groups_as_persisting_txn`, which raises if a group does not exist or is marked already. -/
def markStateGroupsAsPersisting (instanceName : String) (groups : Finset ℕ) : Option System :=
  if groups ⊆ s.stateGroups ∧ ∀ group ∈ groups, (group, instanceName) ∉ s.persisting then
    some { s with persisting := s.persisting ∪ groups.image fun group => (group, instanceName) }
  else none

/-- `_store_event_state_mappings_txn` for one event; the column may not be null. -/
def storeEventStateMapping (e : EventContext) : Option System :=
  if e.outlier then some s
  else (mappedGroup e).map fun group =>
    { s with eventToStateGroups := s.eventToStateGroups.insert e.eventId ⟨group, !e.rejected⟩ }

/-- `_persist_events_txn` for one event: `_update_outliers_txn` if there is a row for it in `events`, and
`_store_event_txn` if there is none. -/
def persistEvent (e : EventContext) : Option System :=
  match s.events.lookup e.eventId with
  | none => { s with events := s.events.insert e.eventId e.outlier }.storeEventStateMapping e
  | some outlierPersisted =>
    if !e.rejected && !e.outlier && outlierPersisted then
      { s with events := s.events.insert e.eventId false }.storeEventStateMapping e
    else some s

/-- `_persist_events_txn(txn, events_and_contexts)`, which is rolled back if it raises. -/
def persistEvents (events : List EventContext) : System :=
  ((EventContext.filterDuplicates events).foldlM persistEvent s).getD s

/-- `_finish_persisting_txn(txn, state_groups, error)`; `order` is the order of the bumps. -/
def finishPersisting (task : PersistTask) (error : Bool) (order : List ℕ) : System :=
  { s with
    persisting := s.persisting.filter fun p => ¬ (p.1 ∈ task.referenced ∧ p.2 = task.instanceName)
    pending := if error then s.pending.bumpDeletion s.now order else s.pending.delete task.referenced }

/-! ## Deleting -/

/-- `insertion_ts < now - DELAY_BEFORE_DELETION_MS ... ORDER BY insertion_ts LIMIT 1` finds this time. -/
def isOldest (insertionTs : ℕ) : Prop :=
  insertionTs + delayBeforeDeletionMs < s.now ∧ ∀ group ∈ s.stateGroups, ¬ s.isPersisting group →
    (s.pending.rows.lookup group).all fun row => insertionTs ≤ row.insertionTs

instance (insertionTs : ℕ) : Decidable (s.isOldest insertionTs) := inferInstanceAs (Decidable (_ ∧ _))

/-- `get_next_state_group_collection_to_delete()`: the groups of a room that were written at that time. -/
def fetchGroups (room : String) (insertionTs : ℕ) : Finset ℕ :=
  s.stateGroups.filter fun group => s.roomOf group = room ∧ ¬ s.isPersisting group ∧
    (s.pending.rows.lookup group).any fun row => row.insertionTs = insertionTs

/-- A row of `event_to_state_groups` has the group. -/
def isReferenced (group : ℕ) : Prop :=
  ∃ eventId ∈ s.eventToStateGroups.keys, (s.eventToStateGroups.lookup eventId).any fun ref => ref.stateGroup = group

instance (group : ℕ) : Decidable (s.isReferenced group) := inferInstanceAs (Decidable (∃ _ ∈ _, _))

/-- The state groups that no transaction since the fetch has touched, and that have waited long enough. -/
def readyToBeDeleted (d : Deleter) (groups : Finset ℕ) : Finset ℕ :=
  groups.filter fun group => (s.pending.rows.lookup group).any fun row =>
    row.sequenceNumber = d.sequence group ∧ row.insertionTs + delayBeforeDeletionMs ≤ s.now

def notReadyToBeDeleted (d : Deleter) (groups : Finset ℕ) : Finset ℕ :=
  groups.filter fun group => s.isPersisting group ∨ (s.pending.rows.lookup group).any fun row =>
    row.sequenceNumber ≠ d.sequence group ∨ s.now < row.insertionTs + delayBeforeDeletionMs

/-- The recursive query for the groups that the candidates are deltas on. -/
def ancestors (groups : Finset ℕ) : Finset ℕ :=
  groups.biUnion fun group => (Delta.chain s.state.tables.store group).tail.toFinset

/-- `get_state_groups_ready_for_potential_deletion_txn(txn, state_groups_to_sequence_numbers)` -/
def getStateGroupsReadyForPotentialDeletion (d : Deleter) (groups : Finset ℕ) : Finset ℕ :=
  let canBeDeleted := s.readyToBeDeleted d groups \ s.notReadyToBeDeleted d groups
  if s.notReadyToBeDeleted d groups = ∅ then canBeDeleted else canBeDeleted \ s.ancestors groups

/-! ## Storing groups -/

/-- The tables with new groups of a room. -/
def withGroups (room : String) (state : World) : System :=
  { s with
    state := state
    roomOf := fun group => if group ∈ state.tables.stateGroups ∧ group ∉ s.stateGroups then room else s.roomOf group }

end System

/-! ## Transitions -/

inductive Txn where
  /-- time passes -/
  | tick (ms : ℕ)
  /-- the two transactions of `store_state_group` -/
  | insertDeltaGroup (room : String) (stateGroup prevGroup : ℕ) (deltaIds : StateMap)
  | insertFullState (room : String) (stateGroup : ℕ) (currentStateIds : StateMap)
  | storeStateDeltasForBatched (room : String) (stateGroups : List ℕ) (prevGroup : ℕ)
      (events : List (Option (StateKey × String)))
  /-- `check_state_groups_and_bump_deletion`, when an event is made or received -/
  | checkStateGroupsAndBumpDeletion (groups : List ℕ)
  | markStateGroupsAsPendingDeletion (groups : List ℕ)
  /-- a deleter starts -/
  | fetch (room : String) (insertionTs : ℕ)
  /-- one query of `get_referenced_state_groups` -/
  | checkReferenced (deleter : ℕ) (batch : Finset ℕ)
  | markStateGroupsAsUsed (deleter : ℕ)
  /-- the deletion transaction -/
  | purge (deleter : ℕ) (order : List ℕ)
  /-- the queue of a room takes up a batch -/
  | markAsPersisting (room instanceName : String) (events : List EventContext)
  /-- events of the batch are written to the main database -/
  | persistEvents (room : String) (events : List EventContext)
  | finishPersisting (room : String) (error : Bool) (order : List ℕ)

namespace System

variable (engine : Engine) (s : System)

/-- The deletion transaction of a deleter. -/
def purgeDeleter (d : Deleter) (deleter : ℕ) (order : List ℕ) : Option System :=
  let s := { s with deleters := s.deleters.eraseIdx deleter }
  let toDelete := s.getStateGroupsReadyForPotentialDeletion d d.remaining
  if toDelete = ∅ then some s
  else if order.toFinset = remainingStateGroups s.state.tables toDelete then
    match purgeUnreferencedStateGroups s.state.tables engine toDelete order with
    | .ok t => some { s with state := ⟨t, s.state.created⟩, pending := s.pending.delete toDelete }
    | .error _ => some s
  else none

def step : Txn → Option System
  | .tick ms => some { s with now := s.now + ms }
  | .insertDeltaGroup room stateGroup prevGroup deltaIds =>
    if s.state.tables.lastGroup < stateGroup then
      match insertDeltaGroupTxn s.state.tables engine stateGroup prevGroup deltaIds with
      | .error _ => some s
      | .ok none => some (s.bumpDeletion [prevGroup])
      | .ok (some t) =>
        let created := Function.update s.state.created stateGroup (update (s.state.created prevGroup) deltaIds)
        some ((s.withGroups room ⟨t, created⟩).bumpDeletion [prevGroup])
    else none
  | .insertFullState room stateGroup currentStateIds =>
    if s.state.tables.lastGroup < stateGroup then
      some (s.withGroups room ⟨insertGroup s.state.tables stateGroup none currentStateIds,
        Function.update s.state.created stateGroup currentStateIds⟩)
    else none
  | .storeStateDeltasForBatched room stateGroups prevGroup events =>
    if (s.state.tables.lastGroup :: stateGroups).Pairwise (· < ·) then
      match storeStateDeltasForBatched s.state.tables stateGroups prevGroup events with
      | .error _ => some s
      | .ok (t, contexts) =>
        some ((s.withGroups room ⟨t, contexts.foldl createdContext s.state.created⟩).bumpDeletion [prevGroup])
    else none
  | .checkStateGroupsAndBumpDeletion groups => some (s.bumpDeletion (groups.filter (· ∈ s.stateGroups)))
  | .markStateGroupsAsPendingDeletion groups =>
    some { s with pending := s.pending.markStateGroupsAsPendingDeletion s.now groups }
  | .fetch room insertionTs =>
    let groups := s.fetchGroups room insertionTs
    if s.isOldest insertionTs ∧ groups ≠ ∅ then
      let sequence group := ((s.pending.rows.lookup group).map Pending.sequenceNumber).getD 0
      some { s with deleters := s.deleters ++ [⟨groups, sequence, groups, ∅, false⟩] }
    else none
  | .checkReferenced deleter batch =>
    match s.deleters[deleter]? with
    | none => none
    | some d =>
      if batch ⊆ d.unchecked then
        some { s with deleters := s.deleters.set deleter { d with
          unchecked := d.unchecked \ batch
          referenced := d.referenced ∪ batch.filter s.isReferenced } }
      else none
  | .markStateGroupsAsUsed deleter =>
    match s.deleters[deleter]? with
    | none => none
    | some d =>
      if d.unchecked = ∅ then
        some { s with
          deleters := s.deleters.set deleter { d with marked := true }
          pending := s.pending.delete d.referenced }
      else none
  | .purge deleter order =>
    match s.deleters[deleter]? with
    | none => none
    | some d =>
      if d.unchecked = ∅ ∧ (d.referenced = ∅ ∨ d.marked) then s.purgeDeleter engine d deleter order else none
  | .markAsPersisting room instanceName events =>
    if s.tasks room = none then
      match referencedStateGroups events with
      | none => some s
      | some groups =>
        match s.markStateGroupsAsPersisting instanceName groups with
        | none => some s
        | some s => some { s with tasks := Function.update s.tasks room (some ⟨instanceName, groups, events⟩) }
    else none
  | .persistEvents room events =>
    match s.tasks room with
    | none => none
    | some task => if ∀ e ∈ events, e ∈ task.events then some (s.persistEvents events) else none
  | .finishPersisting room error order =>
    match s.tasks room with
    | none => none
    | some task =>
      if order.toFinset = task.referenced then
        some { s.finishPersisting task error order with tasks := Function.update s.tasks room none }
      else none

def run : List Txn → Option System := List.foldlM (step engine) s

end System

end Synapse.State
