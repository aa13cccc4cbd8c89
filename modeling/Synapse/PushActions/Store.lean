import Synapse.Lib.Paging
import Synapse.Lib.Table

/-!
# Synapse.PushActions.Store — push actions, receipts, and their rotation into summaries

The tables and the background jobs of `synapse/storage/databases/main/event_push_actions.py`, and
`_insert_linearized_receipt_txn` of `receipts.py`.

* `State`: `event_push_actions`, `event_push_summary` with its two positions, `receipts_linearized`.
* `insertLinearizedReceipt`: a receipt replaces an older one of its kind.
* `handleNewReceipts`: push actions that have been read are deleted, and the summaries recounted.
* `rotateNotifs`: new push actions are added to the summaries.
* `getUnreadCountsByPos`: the counts of a room, from the summaries and the push actions.
* `Op`, `step`.
-/

namespace Synapse.PushActions

open Lib

/-! ## Tables -/

structure ThreadKey where
  userId : String
  roomId : String
  threadId : String
  deriving DecidableEq, Repr

inductive Kind where
  | notif
  | unread
  | highlight
  deriving DecidableEq, Repr

/-- A row of `event_push_actions`. -/
structure PushAction where
  key : ThreadKey
  streamOrdering : ℤ
  notif : Bool
  unread : Bool
  highlight : Bool
  deriving DecidableEq, Repr

/-- `notif = 1`, `unread = 1`, `highlight = 1` -/
def PushAction.is (a : PushAction) : Kind → Bool
  | .notif => a.notif
  | .unread => a.unread
  | .highlight => a.highlight

structure NotifCounts where
  notifyCount : ℕ
  unreadCount : ℕ
  highlightCount : ℕ
  deriving DecidableEq, Repr

namespace NotifCounts

def of (c : NotifCounts) : Kind → ℕ
  | .notif => c.notifyCount
  | .unread => c.unreadCount
  | .highlight => c.highlightCount

/-- `NotifCounts()` -/
def zero : NotifCounts := ⟨0, 0, 0⟩

/-- `+=` on each count. -/
def plus (c d : NotifCounts) : NotifCounts :=
  ⟨c.notifyCount + d.notifyCount, c.unreadCount + d.unreadCount, c.highlightCount + d.highlightCount⟩

@[simp] theorem of_plus (c d : NotifCounts) (kind : Kind) : (c.plus d).of kind = c.of kind + d.of kind := by
  cases kind <;> rfl

@[simp] theorem of_zero (kind : Kind) : zero.of kind = 0 := by
  cases kind <;> rfl

end NotifCounts

/-- A row of `event_push_summary`, beside its key. -/
structure Summary where
  notifCount : ℕ
  unreadCount : ℕ
  streamOrdering : ℤ
  lastReceiptStreamOrdering : Option ℤ
  deriving DecidableEq, Repr

/-- The counts of a summary.  Highlights are not summarised. -/
def Summary.counts (b : Summary) : NotifCounts := ⟨b.notifCount, b.unreadCount, 0⟩

/-- `m.read` and `m.read.private` -/
inductive ReceiptType where
  | read
  | readPrivate
  deriving DecidableEq, Repr

/-- The unique key of `receipts_linearized`; an unthreaded receipt has no thread. -/
structure ReceiptKey where
  roomId : String
  receiptType : ReceiptType
  userId : String
  threadId : Option String
  deriving DecidableEq, Repr

/-- The receipt is one for the thread, or for all threads of the room. -/
def ReceiptKey.covers (r : ReceiptKey) (key : ThreadKey) : Bool :=
  r.roomId == key.roomId && r.userId == key.userId && r.threadId.all (· == key.threadId)

/-- A row of `receipts_linearized`, beside its key. -/
structure ReceiptRow where
  streamId : ℤ
  eventStreamOrdering : ℤ
  deriving DecidableEq, Repr

structure State where
  /-- `event_push_actions` -/
  actions : List PushAction
  /-- `event_push_summary` -/
  summaries : Table ThreadKey Summary
  /-- `event_push_summary_stream_ordering` -/
  rotatedUpto : ℤ
  /-- `receipts_linearized` -/
  receipts : Table ReceiptKey ReceiptRow
  /-- `event_push_summary_last_receipt_stream_id` -/
  lastReceiptStreamId : ℤ
  /-- `_stream_id_gen.get_current_token()`: events up to here have been persisted. -/
  currentToken : ℤ

def mainTimeline : String := "main"

/-! ## Receipts -/

/-- `_insert_linearized_receipt_txn`, for an event that is known. -/
def insertLinearizedReceipt (s : State) (r : ReceiptKey) (streamId streamOrdering : ℤ) : State :=
  if (s.receipts.find r).any fun old => old.eventStreamOrdering ≥ streamOrdering then s
  else { s with receipts := s.receipts.upsert r fun _ => ⟨streamId, streamOrdering⟩ }

/-- `SELECT COUNT(CASE WHEN notif = 1 …), COUNT(CASE WHEN unread = 1 …), thread_id … GROUP BY thread_id` -/
def groupByThread (rows : List PushAction) (kinds : Kind → Bool) : Table String NotifCounts where
  rows := (rows.map fun a => a.key.threadId).dedup.map fun t =>
    let cnt (kind : Kind) : ℕ := if kinds kind then rows.countP fun a => a.key.threadId == t && a.is kind else 0
    (t, ⟨cnt .notif, cnt .unread, cnt .highlight⟩)
  nodup := by
    rw [List.map_map, show (Prod.fst ∘ _ : String → String) = id from rfl, List.map_id]
    exact List.nodup_dedup _

def notifUnread : Kind → Bool
  | .highlight => false
  | _ => true

/-- `_get_notif_unread_count_for_user_room`.  `changed` is `_events_stream_cache.has_entity_changed`. -/
def getNotifUnreadCountForUserRoom (changed : String → ℤ → Bool) (actions : List PushAction) (roomId userId : String)
    (streamOrdering : ℤ) (maxStreamOrdering : Option ℤ) (threadId : Option String) : Table String NotifCounts :=
  if !changed roomId streamOrdering then .empty
  else if maxStreamOrdering.any (· ≤ streamOrdering) then .empty
  else groupByThread (actions.filter fun a => a.key.userId == userId && a.key.roomId == roomId &&
    streamOrdering < a.streamOrdering && maxStreamOrdering.all (a.streamOrdering ≤ ·) &&
    threadId.all (· == a.key.threadId)) notifUnread

section Receipts

variable (changed : String → ℤ → Bool)

/-- The summary of a thread after a receipt. -/
def recounted (oldRotate streamOrdering : ℤ) (counts : NotifCounts) : Summary :=
  ⟨counts.notifyCount, counts.unreadCount, oldRotate, some streamOrdering⟩

/-- `simple_update_many_txn`: the threads that have counts get them. -/
def updateSummaries (summaries : Table ThreadKey Summary) (roomId userId : String) (oldRotate streamOrdering : ℤ)
    (unreadCounts : Table String NotifCounts) : Table ThreadKey Summary :=
  unreadCounts.rows.foldl (fun summaries row => summaries.update (· == ⟨userId, roomId, row.1⟩)
    fun _ _ => recounted oldRotate streamOrdering row.2) summaries

/-- The push actions that are left when a receipt has been handled. -/
def deleteRead (actions : List PushAction) (r : ReceiptKey) (streamOrdering : ℤ) : List PushAction :=
  actions.filter fun a => !(r.covers a.key && a.streamOrdering ≤ streamOrdering && !a.highlight)

/-- The body of the loop of `_handle_new_receipts_for_notifs_txn`. -/
def handleReceipt (s : State) (r : ReceiptKey) (streamOrdering : ℤ) : State :=
  let actions := deleteRead s.actions r streamOrdering
  let unreadCounts := getNotifUnreadCountForUserRoom changed actions r.roomId r.userId streamOrdering
    (some s.rotatedUpto) r.threadId
  let summaries := match r.threadId with
    | none =>
      updateSummaries (s.summaries.update (fun key => key.userId == r.userId && key.roomId == r.roomId)
        fun _ _ => recounted s.rotatedUpto streamOrdering .zero) r.roomId r.userId s.rotatedUpto streamOrdering unreadCounts
    | some threadId =>
      updateSummaries s.summaries r.roomId r.userId s.rotatedUpto streamOrdering
        (if unreadCounts.rows.isEmpty then Table.empty.upsert threadId fun _ => .zero else unreadCounts)
  { s with actions := actions, summaries := summaries }

/-- `_handle_new_receipts_for_notifs_txn`.  The query has a filter on the user id, and the host is compared again in
the loop. -/
def handleNewReceipts (likeLocal isMine : String → Bool) (maxReceiptsStreamId : ℤ) (limit : ℕ) (s : State) : State :=
  let rows := (orderBy .forwards (fun row => row.2.streamId) (s.receipts.rows.filter fun row =>
    s.lastReceiptStreamId < row.2.streamId && row.2.streamId ≤ maxReceiptsStreamId && likeLocal row.1.userId)).take limit
  let s' := rows.foldl (fun s row =>
    if isMine row.1.userId then handleReceipt changed s row.1 row.2.eventStreamOrdering else s) s
  { s' with lastReceiptStreamId := match rows.getLast? with
      | some row => if limit ≤ rows.length then row.2.streamId else maxReceiptsStreamId
      | none => maxReceiptsStreamId }

end Receipts

/-! ## Rotation -/

section Rotation

variable (s : State) (rotateTo : ℤ) (kind : Kind) (key : ThreadKey)

/-- The push actions that a rotation counts. -/
def inRotation (a : PushAction) : Bool :=
  s.rotatedUpto < a.streamOrdering && a.streamOrdering ≤ rotateTo &&
    ((s.summaries.find a.key).bind (·.lastReceiptStreamOrdering)).all (· < a.streamOrdering)

/-- The push actions of a kind that a rotation counts for a thread. -/
def rotating : List PushAction :=
  s.actions.filter fun a => a.key == key && a.is kind && inRotation s rotateTo a

/-- The threads that one of the two queries of a rotation returns. -/
def rotatedKeys : List ThreadKey :=
  ((s.actions.filter fun a => a.is kind && inRotation s rotateTo a).map PushAction.key).dedup

/-- `coalesce(old.…, 0) + upd.cnt`, and the stream ordering of the row. -/
def rotatedRow : ℕ × ℤ :=
  let rows := rotating s rotateTo kind key
  (((s.summaries.find key).map fun b => b.counts.of kind).getD 0 + rows.length,
    ((rows.map PushAction.streamOrdering).max?).getD 0)

/-- The entries of `summaries`: the query of the unread messages makes one, to which the query of the notifications
adds its count, or makes another. -/
def rotatedSummary (old : Option Summary) : Summary :=
  let last := old.bind (·.lastReceiptStreamOrdering)
  let unread := rotatedRow s rotateTo .unread key
  let notif := rotatedRow s rotateTo .notif key
  if key ∈ rotatedKeys s rotateTo .unread then
    ⟨if key ∈ rotatedKeys s rotateTo .notif then notif.1 else 0, unread.1, unread.2, last⟩
  else ⟨notif.1, 0, notif.2, last⟩

/-- `_rotate_notifs_before_txn` -/
def rotateNotifsBefore : State :=
  let keys := rotatedKeys s rotateTo .unread ++
    (rotatedKeys s rotateTo .notif).filter (· ∉ rotatedKeys s rotateTo .unread)
  { s with
    summaries := s.summaries.upsertMany keys (rotatedSummary s rotateTo)
    rotatedUpto := rotateTo }

end Rotation

/-- The position up to which `_rotate_notifs_txn` rotates. -/
def rotateTo (s : State) (rotateCount : ℕ) : ℤ :=
  let orderings := orderBy .forwards id
    ((s.actions.filter fun a => s.rotatedUpto < a.streamOrdering).map PushAction.streamOrdering)
  match orderings[rotateCount]? with
  | some offset => min offset s.currentToken
  | none => s.currentToken

/-- `_rotate_notifs_txn` -/
def rotateNotifs (s : State) (rotateCount : ℕ) : State := rotateNotifsBefore s (rotateTo s rotateCount)

/-- One transaction of `_remove_old_push_actions_that_have_rotated`. -/
def removeOldPushActions (s : State) (streamOrdering : ℤ) : State :=
  { s with actions := s.actions.filter fun a => !(a.streamOrdering ≤ streamOrdering && !a.highlight) }

/-! ## Counts -/

structure RoomNotifCounts where
  main : NotifCounts
  threads : Table String NotifCounts

namespace RoomNotifCounts

def zero : RoomNotifCounts := ⟨.zero, .empty⟩

def of (c : RoomNotifCounts) (threadId : String) : NotifCounts :=
  if threadId = mainTimeline then c.main else (c.threads.find threadId).getD .zero

/-- `_get_thread(thread_id)`, and its counts increased. -/
def add (c : RoomNotifCounts) (row : String × NotifCounts) : RoomNotifCounts :=
  if row.1 = mainTimeline then { c with main := c.main.plus row.2 }
  else { c with threads := c.threads.upsert row.1 fun old => (old.getD .zero).plus row.2 }

end RoomNotifCounts

section Counts

variable (s : State) (roomId userId : String)

/-- `get_last_unthreaded_receipt_for_user_txn` -/
def lastUnthreadedReceipt : Option ℤ :=
  ((s.receipts.rows.filter fun row => row.1.userId == userId && row.1.roomId == roomId && row.1.threadId.isNone).map
    fun row => row.2.eventStreamOrdering).max?

/-- `COALESCE(threaded_receipt_stream_ordering, …)`: the receipt that counts for a thread. -/
def threadedReceipt (unthreaded : ℤ) (threadId : String) : ℤ :=
  (((s.receipts.rows.filter fun row => row.1.userId == userId && row.1.roomId == roomId &&
    unthreaded < row.2.eventStreamOrdering && row.1.threadId == some threadId).map
      fun row => row.2.eventStreamOrdering).max?).getD unthreaded

/-- The summaries that are taken as up to date. -/
def validSummaries (unthreaded : ℤ) : List (String × Summary) :=
  (s.summaries.rows.filter fun row => row.1.roomId == roomId && row.1.userId == userId &&
    (row.2.lastReceiptStreamOrdering.isNone &&
        decide (threadedReceipt s roomId userId unthreaded row.1.threadId < row.2.streamOrdering) ||
      row.2.lastReceiptStreamOrdering == some (threadedReceipt s roomId userId unthreaded row.1.threadId)) &&
    (row.2.notifCount != 0 || row.2.unreadCount != 0)).map fun row => (row.1.threadId, row.2)

/-- The push actions after the receipt that counts for their thread. -/
def afterReceipt (unthreaded : ℤ) : List PushAction :=
  s.actions.filter fun a => a.key.userId == userId && a.key.roomId == roomId &&
    threadedReceipt s roomId userId unthreaded a.key.threadId < a.streamOrdering

/-- `_get_unread_counts_by_pos_txn`.  `rows` are the rows of the first query, in the order in which the database
returns them.  After the loop over them `counts` still refers to the counts of the last one; those are the counts that
the actions of the main timeline since the last rotation are added to. -/
def getUnreadCountsByPos (changed : String → ℤ → Bool) (rows : List (String × Summary)) (unthreaded : ℤ) :
    RoomNotifCounts :=
  let summarised := rows.map Prod.fst
  let counts := (summarised.getLast?).getD mainTimeline
  let c := (rows.map fun row => (row.1, row.2.counts)).foldl .add .zero
  let c := (groupByThread ((afterReceipt s roomId userId unthreaded).filter PushAction.highlight)
    (· == .highlight)).rows.foldl .add c
  let c := (((getNotifUnreadCountForUserRoom changed s.actions roomId userId s.rotatedUpto none none).rows.filter
    (·.1 ∈ summarised)).map fun row => (if row.1 = mainTimeline then counts else row.1, row.2)).foldl .add c
  (groupByThread ((afterReceipt s roomId userId unthreaded).filter fun a => a.key.threadId ∉ summarised)
    notifUnread).rows.foldl .add c

/-- `_get_unread_counts_by_receipt_txn`.  `joined` is the stream ordering of the user's membership event, which stands
in for an unthreaded receipt. -/
def getUnreadCountsByReceipt (changed : String → ℤ → Bool) (rows : List (String × Summary)) (joined : ℤ) :
    RoomNotifCounts :=
  getUnreadCountsByPos s roomId userId changed rows ((lastUnthreadedReceipt s roomId userId).getD joined)

end Counts

/-! ## Steps -/

inductive Op where
  /-- An event is persisted with a push action. -/
  | pushAction (a : PushAction)
  | receipt (r : ReceiptKey) (streamId streamOrdering : ℤ)
  /-- Events have been persisted up to a position. -/
  | persisted (token : ℤ)
  | handleNewReceipts (changed : String → ℤ → Bool) (maxReceiptsStreamId : ℤ) (limit : ℕ)
  | rotate (rotateCount : ℕ)
  | removeOld (streamOrdering : ℤ)

/-- The host of a server: which users are its own, and the filter of a query that keeps at least those. -/
structure Host where
  isMine : String → Bool
  likeLocal : String → Bool

def step (host : Host) (s : State) : Op → State
  | .pushAction a => { s with actions := s.actions ++ [a] }
  | .receipt r streamId streamOrdering => insertLinearizedReceipt s r streamId streamOrdering
  | .persisted token => { s with currentToken := token }
  | .handleNewReceipts changed maxReceiptsStreamId limit =>
    handleNewReceipts changed host.likeLocal host.isMine maxReceiptsStreamId limit s
  | .rotate rotateCount => rotateNotifs s rotateCount
  | .removeOld streamOrdering => removeOldPushActions s streamOrdering

end Synapse.PushActions
