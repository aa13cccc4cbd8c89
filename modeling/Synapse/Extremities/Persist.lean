import Mathlib.Data.Finmap
import Synapse.EventContext
import Synapse.Json
import Synapse.Lib.Rounds

/-!
# Synapse.Extremities.Persist — batches of events and the forward extremities of a room

`_persist_event_batch` and `_calculate_new_extremities` of `synapse/storage/controllers/persist_events.py`, with the
queries and the tables of `synapse/storage/databases/main/events.py` that they use.

* `Db`: the rows of a room's events, `event_edges` and `event_forward_extremities`.
* `calculateNewExtremities`: the new extremities, from a chunk of events and what the database has before it.
* `persistChunk`, `persistEventBatch`: what is written; a batch is persisted in chunks of 100 events.
-/

namespace Synapse.Extremities

open Lib

/-- `new_events`: the event is no outlier, not rejected and not soft-failed. -/
def isNewEvent (e : EventContext) : Bool := !e.outlier && !e.rejected && !e.softFailed

/-- `events.outlier`, whether there is a row in `rejections`, and `soft_failed` of `event_json.internal_metadata`. -/
structure Row where
  outlier : Bool
  rejected : Bool
  softFailed : Bool
  deriving DecidableEq

structure Db where
  events : Finmap fun _ : String => Row
  /-- `event_edges`, as pairs of `event_id` and `prev_event_id` -/
  eventEdges : Finset (String × String)
  /-- `event_forward_extremities` -/
  forwardExtremities : Finset String

namespace Db

variable (db : Db)

def getEventsWhichArePrevs (eventIds : Finset String) : Finset String :=
  eventIds.filter fun id => ∃ edge ∈ db.eventEdges, edge.2 = id ∧
    (db.events.lookup edge.1).any fun row => !row.outlier && !row.rejected && !row.softFailed

/-- The rows that `_get_prevs_before_rejected` follows: the prev events of an event that is soft-failed or rejected. -/
def prevsIfRejected (eventId : String) : Finset String :=
  if (db.events.lookup eventId).any fun row => !row.outlier && (row.softFailed || row.rejected) then
    (db.eventEdges.filter fun edge => edge.1 = eventId).image Prod.snd
  else ∅

/-- `_get_prevs_before_rejected(event_ids)`; `existing_prevs` is shared by the batches.  No round can add an event that
is not in `event_edges`. -/
def getPrevsBeforeRejected (eventIds : List String) : Finset String :=
  (batchIter 100 eventIds).foldl
    (fun existingPrevs batch => frontier db.prevsIfRejected (db.eventEdges.card + 1) batch.toFinset existingPrevs) ∅

def calculateNewExtremities (eventContexts : List EventContext) (latestEventIds : Finset String) : Finset String :=
  let newEvents := eventContexts.filter isNewEvent
  let prevs := newEvents.flatMap EventContext.prevEventIds
  let result := (latestEventIds ∪ (newEvents.map EventContext.eventId).toFinset) \ prevs.toFinset
  let result := result \ db.getEventsWhichArePrevs result
  result \ db.getPrevsBeforeRejected prevs

/-- `_calculate_new_forward_extremities_and_state_delta(room_id, ev_ctx_rm)`, less the state.  When the state has been
resolved, `_prune_extremities` can drop some of the extremities. -/
def calculateNewForwardExtremities (eventContexts : List EventContext) (pruned : Finset String) :
    Except Exc (Option (Finset String)) :=
  let newLatestEventIds := db.calculateNewExtremities eventContexts db.forwardExtremities
  if newLatestEventIds = db.forwardExtremities then .ok none
  else if newLatestEventIds = ∅ then .error .assertionError
  else if newLatestEventIds \ pruned = ∅ then .error .assertionError
  else .ok (some (newLatestEventIds \ pruned))

/-- `_persist_events_txn` for one event.  An event that is there stays as it is, unless it was an outlier; the edges of
a rejected event are not stored. -/
def storeEvent (e : EventContext) : Db :=
  match db.events.lookup e.eventId with
  | none =>
    { db with
      events := db.events.insert e.eventId ⟨e.outlier, e.rejected, e.softFailed⟩
      eventEdges := if e.rejected then db.eventEdges
        else db.eventEdges ∪ (e.prevEventIds.map fun prev => (e.eventId, prev)).toFinset }
  | some row =>
    if !e.rejected && !e.outlier && row.outlier then
      { db with events := db.events.insert e.eventId { row with outlier := false } }
    else db

def persistEventsTxn (eventContexts : List EventContext) (newForwardExtremities : Option (Finset String)) : Db :=
  let db := (EventContext.filterDuplicates eventContexts).foldl storeEvent db
  match newForwardExtremities with
  | none => db
  | some new => if new = ∅ then db else { db with forwardExtremities := new }

end Db

/-- A chunk of a batch, and what `_prune_extremities` would drop. -/
structure Chunk where
  events : List EventContext
  backfilled : Bool
  pruned : Finset String

/-- A task of the queue of the room: the events, those of them that have been persisted with the same transaction id,
and what would be dropped at each chunk. -/
structure Batch where
  events : List EventContext
  backfilled : Bool
  replacedEvents : Finset String
  pruned : ℕ → Finset String

def Batch.chunks (b : Batch) : List Chunk :=
  (batchIter 100 (b.events.filter fun e => e.eventId ∉ b.replacedEvents)).zipIdx.map fun c =>
    ⟨c.1, b.backfilled, b.pruned c.2⟩

/-- The database, the chunks that have been persisted, the oldest first, and the extremities that have been dropped. -/
structure World where
  db : Db
  log : List (List EventContext)
  pruned : Finset String

namespace World

def empty : World := ⟨⟨∅, ∅, ∅⟩, [], ∅⟩

variable (w : World)

/-- The extremities of the chunk that `_prune_extremities` drops. -/
def dropped (c : Chunk) (newForwardExtremities : Option (Finset String)) : Finset String :=
  match newForwardExtremities with
  | none => ∅
  | some new => w.db.calculateNewExtremities c.events w.db.forwardExtremities \ new

/-- The body of the loop over the chunks. -/
def persistChunk (c : Chunk) : Except Exc World := do
  let new ← if c.backfilled then pure none else w.db.calculateNewForwardExtremities c.events c.pruned
  pure ⟨w.db.persistEventsTxn c.events new, w.log ++ [c.events], w.pruned ∪ w.dropped c new⟩

/-- The loop over the chunks.  An exception ends it; what has been persisted stays. -/
def persistChunks : List Chunk → World → World
  | [], w => w
  | c :: chunks, w =>
    match w.persistChunk c with
    | .ok w' => persistChunks chunks w'
    | .error _ => w

def persistEventBatch (b : Batch) : World := persistChunks b.chunks w

/-- The batches of the queue, one after the other. -/
def run (batches : List Batch) : World := batches.foldl persistEventBatch w

end World

end Synapse.Extremities
