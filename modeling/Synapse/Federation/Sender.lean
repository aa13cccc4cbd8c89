import Mathlib.Data.List.Sort
import Synapse.Lib.Table

/-!
# Synapse.Federation.Sender — sending events to one destination

The federation sender for one destination: `_process_event_queue_loop` and `_send_pdu` on one side, the
`PerDestinationQueue` with its transmission and catch-up loops on the other, and between them the tables `destinations`,
`destination_rooms` and `federation_stream_position`.  Code runs until it awaits something, so an action is what happens
between two awaits; a restart loses everything but the tables.  An event is given by its stream ordering.

* `PerDestinationQueue`: the queue, `sendPdu`, `startCatchingUp`.
* `Loop`: where the transmission loop awaits something.
* `World`, `Action`, `step`: the state, what can happen, and what it does; `Step`: the same, case by case.
-/

namespace Synapse.Federation

open Lib

/-- The `events` table: which stream orderings are events for the sender to handle, and their rooms. -/
structure Events where
  persisted : ℕ → Bool
  room : ℕ → String

/-! ## The queue of the destination -/

structure PerDestinationQueue where
  catchingUp : Bool
  catchupLastSkipped : ℕ
  /-- The cached `_last_successful_stream_ordering`. -/
  lastSuccessfulStreamOrdering : Option ℕ
  pendingPdus : List ℕ

namespace PerDestinationQueue

def new : PerDestinationQueue := ⟨true, 0, none, []⟩

/-- `send_pdu(pdu)`, but for the attempt to start the loop. -/
def sendPdu (q : PerDestinationQueue) (pdu : ℕ) : PerDestinationQueue :=
  if !q.catchingUp || q.lastSuccessfulStreamOrdering.isNone then { q with pendingPdus := q.pendingPdus ++ [pdu] }
  else { q with catchupLastSkipped := pdu }

def startCatchingUp (q : PerDestinationQueue) : PerDestinationQueue := { q with catchingUp := true, pendingPdus := [] }

end PerDestinationQueue

inductive Loop where
  | idle
  /-- `get_retry_limiter` -/
  | retryLimiter
  /-- `get_destination_last_successful_stream_ordering` -/
  | readLast
  /-- `get_catch_up_room_event_ids(last)`, whose query has not run yet; `first` is `first_catch_up_check`. -/
  | query (first : Bool) (last : ℕ)
  /-- The query has run, and its result is on the way. -/
  | queried (first : Bool) (last : ℕ) (pdus : List ℕ)
  /-- The transaction for an event of `catchup_pdus`, with the events after it. -/
  | catchUp (first : Bool) (last pdu : ℕ) (rest : List ℕ)
  /-- `set_destination_last_successful_stream_ordering(pdu)` of the catch-up. -/
  | recordCatchUp (first : Bool) (pdu : ℕ) (rest : List ℕ)
  /-- `__aenter__`, which looks for EDUs before it takes events off the queue. -/
  | enter
  /-- `send_new_transaction` -/
  | sending (pdus : List ℕ)
  /-- `__aexit__`, after the events have been taken off the queue. -/
  | record (pdus : List ℕ)
  deriving DecidableEq

/-- Whether `NotRetryingDestination` can be raised where the loop is. -/
def Loop.requests : Loop → Bool
  | .retryLimiter | .catchUp .. | .sending _ => true
  | _ => false

/-- The events sent in place of an event of `catchup_pdus`: the event itself if it is a forward extremity or the room has
partial state, else the forward extremities since `last` that the destination may see, if any. -/
def roomCatchupPdus (last pdu : ℕ) (extrems : List ℕ) (partialState : Bool) (visible : List ℕ) : List ℕ :=
  if pdu ∈ extrems then [pdu]
  else if partialState then [pdu]
  else
    let newPdus := (extrems.filter fun p => ¬ p < last).filter (· ∈ visible)
    if newPdus ≠ [] then newPdus else [pdu]

/-! ## The state -/

/-- `handle_room_events` for one room: the events to go; `recorded` says that the first of them is in `destination_rooms`
and waits for `filter_destinations_by_retry_limiter`. -/
structure Handler where
  events : List ℕ
  recorded : Bool

/-- A pass of `_process_event_queue_loop`: the handlers of all rooms run concurrently. -/
structure Batch where
  nextToken : ℕ
  handlers : Table String Handler

/-- What the tables hold for the destination, and what has happened. -/
structure Ledger where
  /-- `destination_rooms` of the destination. -/
  destinationRooms : Table String ℕ
  /-- `destinations.last_successful_stream_ordering` -/
  lastSuccessful : Option ℕ
  /-- The first value of `last_successful_stream_ordering`. -/
  firstRecorded : Option ℕ
  /-- The events that were recorded for the destination. -/
  handed : List ℕ
  /-- The events of successful transactions. -/
  delivered : List ℕ
  /-- The events for which the catch-up has sent forward extremities of their room. -/
  replaced : List ℕ

structure World where
  ledger : Ledger
  /-- `federation_stream_position` of type `events`. -/
  outPos : ℕ
  queue : PerDestinationQueue
  loop : Loop
  batch : Option Batch

/-- A destination to which nothing has been sent. -/
def World.new (outPos : ℕ) : World := ⟨⟨.empty, none, none, [], [], []⟩, outPos, .new, .idle, none⟩

inductive Action where
  /-- Read the events up to a token and start to handle them. -/
  | readEvents (nextToken : ℕ)
  /-- The next event of the room is not for the destination. -/
  | ignore (room : String)
  /-- `store_destination_rooms_entries` for the next event of the room. -/
  | store (room : String)
  /-- The destination is not in backoff: `send_pdu`. -/
  | sendPdu (room : String)
  /-- The destination is in backoff: the event is withheld from the queue. -/
  | withhold (room : String)
  /-- All events have been handled: `update_federation_out_pos`. -/
  | finish
  /-- `attempt_new_transaction` -/
  | attempt
  | retryOk
  | readLast
  | runQuery
  | queryResult
  | catchUpSent (extrems : List ℕ) (partialState : Bool) (visible : List ℕ)
  | recordCatchUp
  /-- EDUs have been looked for; `again` says that `_new_data_to_send` has been set. -/
  | entered (edus again : Bool)
  | sent
  | record
  /-- The loop ends with an exception, which may be a `NotRetryingDestination` with a long retry interval. -/
  | fail (longBackoff : Bool)
  | restart

/-! ## What happens -/

def getCatchUpRoomEventIds (destinationRooms : Table String ℕ) (last : ℕ) : List ℕ :=
  (((destinationRooms.rows.map Prod.snd).filter (last < ·)).insertionSort (· ≤ ·)).take 50

/-- `events_by_room` of the events after a position, up to a token. -/
def eventsByRoom (ev : Events) (pos nextToken : ℕ) : Table String Handler :=
  ((List.range' (pos + 1) (nextToken - pos)).filter ev.persisted).foldl
    (fun t e => t.upsert (ev.room e) fun h => ⟨(h.elim [] (·.events)) ++ [e], false⟩) .empty

namespace Ledger

variable (l : Ledger)

/-- `store_destination_rooms_entries` -/
def store (room : String) (e : ℕ) : Ledger :=
  { l with destinationRooms := l.destinationRooms.upsert room fun _ => e, handed := e :: l.handed }

/-- `set_destination_last_successful_stream_ordering` -/
def setLastSuccessful (s : ℕ) : Ledger :=
  { l with lastSuccessful := some s, firstRecorded := l.firstRecorded.or (some s) }

def deliver (pdus : List ℕ) : Ledger := { l with delivered := l.delivered ++ pdus }

/-- A successful transaction with events in place of one. -/
def replace (pdu : ℕ) (pdus : List ℕ) : Ledger :=
  if pdu ∈ pdus then l.deliver pdus else { l.deliver pdus with replaced := pdu :: l.replaced }

end Ledger

def handlerOf (batch : Option Batch) (room : String) : Option (Batch × Handler) :=
  batch.bind fun b => (b.handlers.find room).map fun h => (b, h)

/-- The batch with the handler of a room replaced. -/
def Batch.setHandler (b : Batch) (room : String) (h : Handler) : Batch :=
  { b with handlers := b.handlers.upsert room fun _ => h }

namespace World

variable (ev : Events)

def step (w : World) : Action → Option World
  | .readEvents nextToken =>
    match w.batch with
    | none => some { w with batch := some ⟨nextToken, eventsByRoom ev w.outPos nextToken⟩ }
    | some _ => none
  | .ignore room =>
    match handlerOf w.batch room with
    | some (b, ⟨_ :: es, false⟩) => some { w with batch := some (b.setHandler room ⟨es, false⟩) }
    | _ => none
  | .store room =>
    match handlerOf w.batch room with
    | some (b, ⟨e :: es, false⟩) => some { w with
        ledger := w.ledger.store (ev.room e) e, batch := some (b.setHandler room ⟨e :: es, true⟩) }
    | _ => none
  | .sendPdu room =>
    match handlerOf w.batch room with
    | some (b, ⟨e :: es, true⟩) => some { w with
        queue := w.queue.sendPdu e, batch := some (b.setHandler room ⟨es, false⟩) }
    | _ => none
  | .withhold room =>
    match handlerOf w.batch room with
    | some (b, ⟨_ :: es, true⟩) => some { w with batch := some (b.setHandler room ⟨es, false⟩) }
    | _ => none
  | .finish =>
    match w.batch with
    | some b =>
      if b.handlers.rows.all fun row => row.2.events.isEmpty then some { w with batch := none, outPos := b.nextToken }
      else none
    | none => none
  | .attempt => if w.loop = .idle then some { w with loop := .retryLimiter } else none
  | .retryOk =>
    if w.loop = .retryLimiter then
      some { w with loop :=
        if w.queue.catchingUp then w.queue.lastSuccessfulStreamOrdering.elim .readLast (.query false) else .enter }
    else none
  | .readLast =>
    if w.loop = .readLast then
      match w.ledger.lastSuccessful with
      | none => some { w with queue := { w.queue with catchingUp := false }, loop := .enter }
      | some s => some { w with queue := { w.queue with lastSuccessfulStreamOrdering := some s }, loop := .query true s }
    else none
  | .runQuery =>
    match w.loop with
    | .query first last => some { w with
        loop := .queried first last (getCatchUpRoomEventIds w.ledger.destinationRooms last) }
    | _ => none
  | .queryResult =>
    match w.loop with
    | .queried first last [] =>
      if w.queue.catchupLastSkipped > last then some { w with loop := .query first last }
      else some { w with queue := { w.queue with catchingUp := false }, loop := .enter }
    | .queried first last (pdu :: rest) => some { w with
        queue := if first then w.queue.startCatchingUp else w.queue, loop := .catchUp first last pdu rest }
    | _ => none
  | .catchUpSent extrems partialState visible =>
    match w.loop with
    | .catchUp first last pdu rest => some { w with
        ledger := w.ledger.replace pdu (roomCatchupPdus last pdu extrems partialState visible),
        queue := { w.queue with lastSuccessfulStreamOrdering := some pdu }, loop := .recordCatchUp first pdu rest }
    | _ => none
  | .recordCatchUp =>
    match w.loop with
    | .recordCatchUp first pdu rest => some { w with
        ledger := w.ledger.setLastSuccessful pdu,
        loop := match rest with
          | [] => .query first pdu
          | next :: rest => .catchUp first pdu next rest }
    | _ => none
  | .entered edus again =>
    if w.loop = .enter then
      let pdus := w.queue.pendingPdus.take 50
      if pdus = [] ∧ edus = false then some { w with loop := if again then .enter else .idle }
      else some { w with loop := .sending pdus }
    else none
  | .sent =>
    match w.loop with
    | .sending pdus => some { w with
        ledger := w.ledger.deliver pdus,
        queue := { w.queue with pendingPdus := w.queue.pendingPdus.drop pdus.length }, loop := .record pdus }
    | _ => none
  | .record =>
    match w.loop with
    | .record pdus => some { w with
        ledger := pdus.getLast?.elim w.ledger w.ledger.setLastSuccessful, loop := .enter }
    | _ => none
  | .fail longBackoff =>
    if w.loop = .idle ∨ (longBackoff = true ∧ w.loop.requests = false) then none
    else some { w with queue := if longBackoff then w.queue.startCatchingUp else w.queue, loop := .idle }
  | .restart => some { w with queue := .new, loop := .idle, batch := none }

def run (w : World) (actions : List Action) : Option World := actions.foldlM (step ev) w

end World

/-- What an action does, case by case: where it can happen, and the state after it. -/
inductive Step (ev : Events) (w : World) : Action → World → Prop
  | readEvents (nextToken : ℕ) (hb : w.batch = none) :
    Step ev w (.readEvents nextToken) { w with batch := some ⟨nextToken, eventsByRoom ev w.outPos nextToken⟩ }
  | ignore {room b e es} (hh : handlerOf w.batch room = some (b, ⟨e :: es, false⟩)) :
    Step ev w (.ignore room) { w with batch := some (b.setHandler room ⟨es, false⟩) }
  | store {room b e es} (hh : handlerOf w.batch room = some (b, ⟨e :: es, false⟩)) :
    Step ev w (.store room) { w with
      ledger := w.ledger.store (ev.room e) e, batch := some (b.setHandler room ⟨e :: es, true⟩) }
  | sendPdu {room b e es} (hh : handlerOf w.batch room = some (b, ⟨e :: es, true⟩)) :
    Step ev w (.sendPdu room) { w with
      queue := w.queue.sendPdu e, batch := some (b.setHandler room ⟨es, false⟩) }
  | withhold {room b e es} (hh : handlerOf w.batch room = some (b, ⟨e :: es, true⟩)) :
    Step ev w (.withhold room) { w with batch := some (b.setHandler room ⟨es, false⟩) }
  | finish {b} (hb : w.batch = some b) (hall : b.handlers.rows.all fun row => row.2.events.isEmpty) :
    Step ev w .finish { w with batch := none, outPos := b.nextToken }
  | attempt : Step ev w .attempt { w with loop := .retryLimiter }
  | retryOk :
    Step ev w .retryOk { w with loop :=
      if w.queue.catchingUp then w.queue.lastSuccessfulStreamOrdering.elim .readLast (.query false) else .enter }
  | nothingRecorded (hlast : w.ledger.lastSuccessful = none) :
    Step ev w .readLast { w with queue := { w.queue with catchingUp := false }, loop := .enter }
  | readLast {s} (hl : w.loop = .readLast) (hlast : w.ledger.lastSuccessful = some s) :
    Step ev w .readLast { w with
      queue := { w.queue with lastSuccessfulStreamOrdering := some s }, loop := .query true s }
  | runQuery {first last} (hl : w.loop = .query first last) :
    Step ev w .runQuery { w with loop := .queried first last (getCatchUpRoomEventIds w.ledger.destinationRooms last) }
  | skipped {first last} (hl : w.loop = .queried first last []) :
    Step ev w .queryResult { w with loop := .query first last }
  | caughtUp {first last} (hl : w.loop = .queried first last []) (hskipped : ¬ w.queue.catchupLastSkipped > last) :
    Step ev w .queryResult { w with queue := { w.queue with catchingUp := false }, loop := .enter }
  | found {first last pdu rest} (hl : w.loop = .queried first last (pdu :: rest)) :
    Step ev w .queryResult { w with
      queue := if first then w.queue.startCatchingUp else w.queue, loop := .catchUp first last pdu rest }
  | catchUpSent {first last pdu rest extrems partialState visible} (hl : w.loop = .catchUp first last pdu rest) :
    Step ev w (.catchUpSent extrems partialState visible) { w with
      ledger := w.ledger.replace pdu (roomCatchupPdus last pdu extrems partialState visible)
      queue := { w.queue with lastSuccessfulStreamOrdering := some pdu }, loop := .recordCatchUp first pdu rest }
  | recordLast {first pdu} (hl : w.loop = .recordCatchUp first pdu []) :
    Step ev w .recordCatchUp { w with ledger := w.ledger.setLastSuccessful pdu, loop := .query first pdu }
  | recordNext {first pdu next rest} (hl : w.loop = .recordCatchUp first pdu (next :: rest)) :
    Step ev w .recordCatchUp { w with
      ledger := w.ledger.setLastSuccessful pdu, loop := .catchUp first pdu next rest }
  | nothingToSend {edus again} (hl : w.loop = .enter) :
    Step ev w (.entered edus again) { w with loop := if again then .enter else .idle }
  | entered {edus again} (hl : w.loop = .enter) :
    Step ev w (.entered edus again) { w with loop := .sending (w.queue.pendingPdus.take 50) }
  | sent {pdus} (hl : w.loop = .sending pdus) :
    Step ev w .sent { w with
      ledger := w.ledger.deliver pdus
      queue := { w.queue with pendingPdus := w.queue.pendingPdus.drop pdus.length }, loop := .record pdus }
  | record {pdus} (hl : w.loop = .record pdus) :
    Step ev w .record { w with ledger := pdus.getLast?.elim w.ledger w.ledger.setLastSuccessful, loop := .enter }
  | fail {longBackoff} :
    Step ev w (.fail longBackoff) { w with
      queue := if longBackoff then w.queue.startCatchingUp else w.queue, loop := .idle }
  | restart : Step ev w .restart { w with queue := .new, loop := .idle, batch := none }

theorem World.step_cases {ev : Events} {w w' : World} {a : Action} (h : w.step ev a = some w') : Step ev w a w' := by
  cases a with
  | readEvents | ignore | store | sendPdu | withhold | runQuery | catchUpSent | sent | record =>
    rw [step] at h
    split at h
    · cases h
      constructor
      assumption
    · cases h
  | recordCatchUp =>
    rw [step] at h
    split at h
    · rename_i rest hl
      cases h
      cases rest with
      | nil => exact .recordLast hl
      | cons => exact .recordNext hl
    · cases h
  | finish | readLast | entered =>
    simp only [step] at h
    split at h
    · split at h <;> cases h <;> constructor <;> assumption
    · cases h
  | attempt | retryOk | fail =>
    rw [step] at h
    split at h <;> cases h
    constructor
  | queryResult =>
    rw [step] at h
    split at h
    · split at h <;> cases h
      · exact .skipped ‹_›
      · exact .caughtUp ‹_› ‹_›
    · cases h
      exact .found ‹_›
    · cases h
  | restart =>
    cases h
    exact .restart

end Synapse.Federation
