import Mathlib.Data.Finmap
import Synapse.Json
import Synapse.Lib.Watermark

/-!
# Synapse.IdGen.Generator — `MultiWriterIdGenerator`

The stream id generator of `synapse/storage/util/id_generators.py`, over a PostgreSQL sequence.  Ids are kept positive
inside; a negative stream negates them on the way in and out.

* `Generator`: the state of one instance.
* `startFetch`, `endFetch`, `failFetch`: the locked parts of `_load_next_mult_id_txn`.
* `markIdsAsFinished`, `advance`, `addPersistedPosition`: how the positions move.
* `start`: `__init__`, which fills the state from the database.
-/

namespace Synapse.IdGen

open Lib

/-- What the instances of a stream are configured with. -/
structure Config where
  writers : List String
  positive : Bool

def Config.returnFactor (cfg : Config) : ℤ := if cfg.positive then 1 else -1

/-- The fields of `MultiWriterIdGenerator` that change.  The heap `_known_persisted_positions` is a sorted list. -/
structure Generator where
  currentPositions : Finmap fun _ : String => ℤ
  unfinishedIds : Finset ℤ
  inFlightFetches : Multiset ℤ
  finishedIds : Finset ℤ
  persistedUptoPosition : ℤ
  knownPersistedPositions : List ℤ
  maxSeenAllocatedStreamId : ℤ
  maxPositionOfLocalInstance : ℤ

namespace Generator

variable (self : String) (g : Generator)

/-- `self._unfinished_ids or self._in_flight_fetches` -/
def Busy : Prop := g.unfinishedIds ≠ ∅ ∨ g.inFlightFetches ≠ 0

instance : Decidable g.Busy := inferInstanceAs (Decidable (_ ∨ _))

/-! ## The persisted position -/

/-- The positions of the other instances. -/
def otherPositions : Finset ℤ :=
  (g.currentPositions.keys.erase self).image fun name => (g.currentPositions.lookup name).getD 0

def ourCurrentPosition : ℤ := (g.currentPositions.lookup self).getD 0

def minCurr : ℤ :=
  let minOthers := (least (g.otherPositions self)).getD (g.ourCurrentPosition self)
  if g.ourCurrentPosition self ≠ 0 ∧ g.Busy then min minOthers (g.ourCurrentPosition self) else minOthers

/-- The loop over `_known_persisted_positions`, from the persisted position. -/
def skipRun : ℤ → List ℤ → ℤ × List ℤ
  | p, [] => (p, [])
  | p, n :: known => if n ≤ p then skipRun p known else if n = p + 1 then skipRun (p + 1) known else (p, n :: known)

def addPersistedPosition (newId : ℤ) : Generator :=
  let known := g.knownPersistedPositions.orderedInsert (· ≤ ·) newId
  let persisted := max (g.minCurr self) g.persistedUptoPosition
  let localMax := max g.maxPositionOfLocalInstance persisted
  { g with
    maxPositionOfLocalInstance := if g.Busy then localMax else max g.maxSeenAllocatedStreamId localMax
    persistedUptoPosition := (skipRun persisted known).1
    knownPersistedPositions := (skipRun persisted known).2 }

/-! ## Fetching ids -/

/-- The start of `_load_next_mult_id_txn`. -/
def startFetch : Generator := { g with inFlightFetches := g.maxSeenAllocatedStreamId ::ₘ g.inFlightFetches }

/-- The end of `_load_next_mult_id_txn`, for the fetch that started at `currentMax`.  Without any id at all,
`self._unfinished_ids[-1]` raises and the fetch is only taken back. -/
def endFetch (currentMax : ℤ) (streamIds : List ℤ) : Generator :=
  let unfinished := g.unfinishedIds ∪ streamIds.toFinset
  { g with
    unfinishedIds := unfinished
    maxSeenAllocatedStreamId := (greatest unfinished).elim g.maxSeenAllocatedStreamId (max g.maxSeenAllocatedStreamId)
    inFlightFetches := g.inFlightFetches.erase currentMax }

/-- The `finally` of `_load_next_mult_id_txn` when the sequence cannot be read. -/
def failFetch (currentMax : ℤ) : Generator := { g with inFlightFetches := g.inFlightFetches.erase currentMax }

/-! ## Finishing ids -/

/-- `min_unfinished`, the smallest id that may be unfinished. -/
def minUnfinished : Option ℤ :=
  match least g.unfinishedIds, least g.inFlightFetches.toFinset with
  | some u, some f => some (min u (f + 1))
  | none, some f => some (f + 1)
  | some u, none => some u
  | none, none => none

/-- The new own position, and what stays in `_finished_ids`. -/
def newCur : Except Exc (Option ℤ × Finset ℤ) :=
  match g.minUnfinished with
  | some m => pure (greatest (g.finishedIds.filter (· < m)), g.finishedIds.filter (¬ · < m))
  | none =>
    match greatest g.finishedIds with
    | none => throw .valueError
    | some c => pure (some c, ∅)

/-- `if new_cur: ...` -/
def moveTo : Option ℤ → Generator
  | none => g
  | some c =>
    if c = 0 then g
    else
      let curr := g.ourCurrentPosition self
      { g with
        currentPositions := g.currentPositions.insert self (max curr c)
        maxPositionOfLocalInstance := max (max curr c) g.maxPositionOfLocalInstance }

/-- The first two lines of `_mark_ids_as_finished`. -/
def moveToFinished (nextIds : List ℤ) : Generator :=
  { g with
    unfinishedIds := g.unfinishedIds \ nextIds.toFinset
    finishedIds := g.finishedIds ∪ nextIds.toFinset }

/-- `_mark_ids_as_finished(next_ids)`.  When it raises, nothing was finished. -/
def markIdsAsFinished (nextIds : List ℤ) : Except Exc Generator := do
  let g := g.moveToFinished nextIds
  let (new, finished) ← g.newCur
  pure (nextIds.foldl (fun g nextId => g.addPersistedPosition self nextId)
    ({ g with finishedIds := finished }.moveTo self new))

/-! ## Replication and tokens -/

/-- The two assignments of `advance`. -/
def raisePosition (instanceName : String) (newId : ℤ) : Generator :=
  { g with
    currentPositions := g.currentPositions.insert instanceName
      (max newId ((g.currentPositions.lookup instanceName).getD 0))
    maxSeenAllocatedStreamId := max g.maxSeenAllocatedStreamId newId }

def advance (cfg : Config) (instanceName : String) (newId : ℤ) : Generator :=
  let newId := newId * cfg.returnFactor
  (g.raisePosition instanceName newId).addPersistedPosition self newId

/-- `get_persisted_upto_position()`, which `get_current_token()` returns. -/
def getPersistedUptoPosition (cfg : Config) : ℤ := cfg.returnFactor * g.persistedUptoPosition

def getCurrentTokenForWriter (cfg : Config) (instanceName : String) : ℤ :=
  if self = instanceName then cfg.returnFactor * g.maxPositionOfLocalInstance
  else
    let pos := (g.currentPositions.lookup instanceName).getD g.persistedUptoPosition
    cfg.returnFactor * max pos g.persistedUptoPosition

def getMinimalLocalCurrentToken (cfg : Config) : ℤ :=
  cfg.returnFactor * (g.currentPositions.lookup self).getD g.persistedUptoPosition

end Generator

/-! ## Starting an instance -/

/-- What an instance reads when it starts: the `stream_positions` rows of the stream, the rows of each table of the
stream with the instance that wrote them, and the last value of the sequence. -/
structure Database where
  streamPositions : Finmap fun _ : String => ℤ
  tables : List (List (String × ℤ))
  lastValue : ℤ

/-- The state before `_load_current_ids`. -/
def Generator.fresh : Generator where
  currentPositions := ∅
  unfinishedIds := ∅
  inFlightFetches := 0
  finishedIds := ∅
  persistedUptoPosition := 1
  knownPersistedPositions := []
  maxSeenAllocatedStreamId := 1
  maxPositionOfLocalInstance := 1

section Start

variable (cfg : Config) (self : String) (db : Database)

/-- The entry of `stream_positions` for a configured writer; entries of other instances are left out. -/
def addStoredPosition (d : Finmap fun _ : String => ℤ) (writer : String) : Finmap fun _ : String => ℤ :=
  match db.streamPositions.lookup writer with
  | some streamId => d.insert writer (streamId * cfg.returnFactor)
  | none => d

/-- The positions loaded from `stream_positions` and the sequence. -/
def loadedPositions : Finmap fun _ : String => ℤ :=
  let positions := cfg.writers.foldl (addStoredPosition cfg db) ∅
  if self ∈ cfg.writers then positions.insert self db.lastValue else positions

/-- `min(self._current_positions.values(), default=None)` -/
def minStreamId (positions : Finmap fun _ : String => ℤ) : Option ℤ :=
  least (positions.keys.image fun name => (positions.lookup name).getD 0)

/-- `GREATEST(COALESCE(MAX(id), 1), 1)`, with `-MIN(id)` for a negative stream. -/
def maxOfTable (table : List (String × ℤ)) : ℤ :=
  max ((greatest (table.map fun row => cfg.returnFactor * row.2).toFinset).getD 1) 1

/-- `rows`: the rows from `min_stream_id` on, by stream id. -/
def laterRows (minStreamId : ℤ) : List (String × ℤ) :=
  (db.tables.flatten.filter fun row => minStreamId ≤ cfg.returnFactor * row.2).insertionSort (·.2 ≤ ·.2)

/-- The loop over `rows`. -/
def addRow (g : Generator) (row : String × ℤ) : Generator :=
  let streamId := cfg.returnFactor * row.2
  let g := g.addPersistedPosition self streamId
  if row.1 = self then { g with currentPositions := g.currentPositions.insert row.1 streamId } else g

/-- `self._current_positions.setdefault(writer, self._persisted_upto_position)` -/
def setdefaultPosition (g : Generator) (writer : String) : Generator :=
  if writer ∈ g.currentPositions then g
  else { g with currentPositions := g.currentPositions.insert writer g.persistedUptoPosition }

def loadCurrentIds : Generator :=
  let g := { Generator.fresh with currentPositions := loadedPositions cfg self db }
  let g := match minStreamId g.currentPositions with
    | none => { g with persistedUptoPosition := db.tables.foldl (fun m table => max m (maxOfTable cfg table)) 1 }
    | some m => (laterRows cfg db m).foldl (addRow cfg self) { g with persistedUptoPosition := m }
  cfg.writers.foldl setdefaultPosition g

/-- `__init__`, once the sequence was found consistent with the tables. -/
def start : Generator :=
  let g := loadCurrentIds cfg self db
  let positions := g.currentPositions.keys.image fun name => (g.currentPositions.lookup name).getD 0
  let maxSeen := max ((greatest positions).getD 1) g.persistedUptoPosition
  let g := { g with maxSeenAllocatedStreamId := maxSeen, maxPositionOfLocalInstance := maxSeen }
  if cfg.writers = [] then
    { g with currentPositions := g.currentPositions.insert self g.persistedUptoPosition }
  else g

end Start

end Synapse.IdGen
