import Mathlib.Algebra.Order.Ring.Int
import Synapse.Json
import Synapse.Lib.Dict
import Synapse.Lib.RowLocks
import Synapse.Lib.Runs

/-!
# Synapse.Receipts.Linearized — receipts inserted by transactions at read committed

`insert_receipt` and `_insert_linearized_receipt_txn`.  A transaction reads the ordering of the event, then the receipt
that is stored, and then upserts its own.  Each statement sees what has been committed when it runs; an upsert waits for
the transaction that has written the row, and is seen by others once it is committed.

* `isOlder`: the check for a receipt of a later event.
* `Session`, `Action`, `step`: the tables and the transactions, one statement a step.
* `Undisturbed`: the receipt is still the one that was checked when it is replaced.
* `Invariant`, `step_later`: a receipt that is about to be written is later than the one that is stored.
* **`receipt_never_moves_back`**: in undisturbed runs the stored receipt moves to later events only.
* `Overtaken.receipt_moves_back`: a run in which it moves back.
-/

namespace Synapse.Receipts

open Lib Option Function

/-- The unique key of `receipts_linearized`. -/
structure ReceiptKey where
  roomId : String
  receiptType : String
  userId : String
  threadId : Option String
  deriving DecidableEq

/-- The other columns of `receipts_linearized`. -/
structure Receipt where
  streamId : ℕ
  instanceName : String
  eventId : String
  eventStreamOrdering : Option ℤ
  data : JsonDict

/-- A row of `events`. -/
structure EventRow where
  streamOrdering : ℤ
  receivedTs : ℤ

/-- The arguments of `_insert_linearized_receipt_txn`. -/
structure Insertion where
  key : ReceiptKey
  eventId : String
  data : JsonDict
  streamId : ℕ
  instanceName : String

namespace Insertion

variable (i : Insertion)

/-- `int(so) >= stream_ordering` for the stored receipt, where there are orderings to compare -/
def isOlder (res : Option EventRow) (stored : Option ℤ) : Bool :=
  match res with
  | none => false
  | some event => stored.any (event.streamOrdering ≤ ·)

def row (res : Option EventRow) : Receipt :=
  { streamId := i.streamId
    instanceName := i.instanceName
    eventId := i.eventId
    eventStreamOrdering := res.map (·.streamOrdering)
    data := i.data }

/-- What is returned: the `received_ts` of the event. -/
def rxTs (res : Option EventRow) : ℤ := (res.map (·.receivedTs)).getD 0

end Insertion

inductive Phase where
  | selectEvent (i : Insertion)
  | selectReceipts (i : Insertion) (res : Option EventRow)
  /-- `seen` is the ordering of the receipt that was read; for the account only. -/
  | upsert (i : Insertion) (res : Option EventRow) (seen : Option ℤ)
  /-- The transaction has written a row, or ignored an older receipt, and will return `result`. -/
  | commit (i : Insertion) (written : Option Receipt) (result : Option ℤ)

structure Session where
  events : String → Option EventRow
  receipts : ReceiptKey → Option Receipt
  txns : ℕ → Option Phase
  locks : LockTable ℕ ReceiptKey

inductive Action where
  /-- An event is persisted. -/
  | persist (eventId : String) (event : EventRow)
  /-- `insert_receipt` -/
  | insert (txn : ℕ) (key : ReceiptKey) (eventIds : List String) (data : JsonDict) (streamId : ℕ) (instanceName : String)
  | selectEvent (txn : ℕ)
  | selectReceipts (txn : ℕ)
  | upsert (txn : ℕ)
  | commit (txn : ℕ)
  | rollback (txn : ℕ)

namespace Session

variable (s : Session)

def start (events : String → Option EventRow) (receipts : ReceiptKey → Option Receipt) : Session :=
  ⟨events, receipts, fun _ => none, .empty⟩

/-- The ordering of the stored receipt, if it has one. -/
def ordering (key : ReceiptKey) : Option ℤ := (s.receipts key).bind (·.eventStreamOrdering)

def setPhase (txn : ℕ) (p : Phase) : Session := { s with txns := Function.update s.txns txn (some p) }

def finish (txn : ℕ) : Session :=
  { s with txns := Function.update s.txns txn none, locks := s.locks.release txn }

/-- The rows of a transaction are there for the others. -/
def write (key : ReceiptKey) (written : Option Receipt) : Session :=
  { s with receipts := written.elim s.receipts fun row => Function.update s.receipts key (some row) }

/-- Up to the transaction.  Without events there is nothing to insert, and for several of them `_graph_to_linear` raises, as
its query selects from no table.  Only receipts for events that are known are considered here. -/
def insert (txn : ℕ) (key : ReceiptKey) (eventIds : List String) (data : JsonDict) (streamId : ℕ) (instanceName : String) :
    Option Session :=
  match eventIds with
  | [eventId] =>
    if (s.txns txn).isNone ∧ (s.events eventId).isSome then
      some (s.setPhase txn (.selectEvent ⟨key, eventId, data, streamId, instanceName⟩))
    else none
  | [] | _ :: _ :: _ => some s

end Session

def step (s : Session) : Action → Option Session
  | .persist eventId event =>
    if (s.events eventId).isNone then some { s with events := Function.update s.events eventId (some event) } else none
  | .insert txn key eventIds data streamId instanceName => s.insert txn key eventIds data streamId instanceName
  | .selectEvent txn =>
    match s.txns txn with
    | some (.selectEvent i) => some (s.setPhase txn (.selectReceipts i (s.events i.eventId)))
    | _ => none
  | .selectReceipts txn =>
    match s.txns txn with
    | some (.selectReceipts i res) =>
      some (s.setPhase txn (if Insertion.isOlder res (s.ordering i.key) then .commit i none none
        else .upsert i res (s.ordering i.key)))
    | _ => none
  | .upsert txn =>
    match s.txns txn with
    | some (.upsert i res _) =>
      (s.locks.acquire txn i.key .update).map fun locks =>
        { s.setPhase txn (.commit i (some (i.row res)) (some (Insertion.rxTs res))) with locks := locks }
    | _ => none
  | .commit txn =>
    match s.txns txn with
    | some (.commit i written _) => some ((s.write i.key written).finish txn)
    | _ => none
  | .rollback txn => (s.txns txn).map fun _ => s.finish txn

def run (s : Session) (actions : List Action) : Option Session := actions.foldlM step s

/-- **The stored receipt has the ordering that was checked** when it is replaced, as it has if no other transaction commits a
receipt of the same key in between. -/
def Undisturbed (s : Session) : Action → Prop
  | .upsert txn =>
    match s.txns txn with
    | some (.upsert i _ seen) => s.ordering i.key = seen
    | _ => True
  | _ => True

instance (s : Session) (a : Action) : Decidable (Undisturbed s a) := by
  unfold Undisturbed
  split
  · split <;> infer_instance
  · infer_instance

def runUndisturbed (s : Session) (actions : List Action) : Option Session :=
  actions.foldlM (fun s a => if Undisturbed s a then step s a else none) s

/-! ## What is known about the transactions -/

/-- The ordering is after that of the stored receipt. -/
def After (so : ℤ) (stored : Option ℤ) : Prop := ∀ so' ∈ stored, so' < so

/-- The receipt of a row is for an event that is known, and has its ordering. -/
def Accurate (events : String → Option EventRow) (r : Receipt) : Prop :=
  ∃ event, events r.eventId = some event ∧ r.eventStreamOrdering = some event.streamOrdering

theorem Accurate.mono {events events' : String → Option EventRow} {r : Receipt}
    (hgrow : ∀ id event, events id = some event → events' id = some event) (h : Accurate events r) : Accurate events' r := by
  obtain ⟨event, hevent, hso⟩ := h
  exact ⟨event, hgrow _ _ hevent, hso⟩

/-- What a transaction has found out, and what it is about to write. -/
def Phase.Valid (events : String → Option EventRow) (ordering : ReceiptKey → Option ℤ) (locks : LockTable ℕ ReceiptKey)
    (txn : ℕ) : Phase → Prop
  | .selectEvent i => ∃ event, events i.eventId = some event
  | .selectReceipts i res => ∃ event, events i.eventId = some event ∧ res = some event
  | .upsert i res seen => ∃ event, events i.eventId = some event ∧ res = some event ∧ After event.streamOrdering seen
  | .commit i written _ => ∀ row, written = some row → locks.Holds txn i.key .update ∧ Accurate events row ∧
      ∀ so ∈ row.eventStreamOrdering, After so (ordering i.key)

section Valid

variable {events events' : String → Option EventRow} {ordering ordering' : ReceiptKey → Option ℤ}
  {locks locks' : LockTable ℕ ReceiptKey} {txn : ℕ} {p : Phase}

theorem Phase.Valid.mono (h : p.Valid events ordering locks txn)
    (hevents : ∀ id event, events id = some event → events' id = some event)
    (hlocks : ∀ key, locks.Holds txn key .update → locks'.Holds txn key .update ∧ ordering' key = ordering key) :
    p.Valid events' ordering' locks' txn := by
  cases p with
  | selectEvent i =>
    obtain ⟨event, hevent⟩ := h
    exact ⟨event, hevents _ _ hevent⟩
  | selectReceipts | upsert =>
    obtain ⟨event, hevent, hres⟩ := h
    exact ⟨event, hevents _ _ hevent, hres⟩
  | commit i written result =>
    intro row hrow
    obtain ⟨hholds, haccurate, hafter⟩ := h row hrow
    obtain ⟨hholds', hsame⟩ := hlocks i.key hholds
    refine ⟨hholds', haccurate.mono hevents, fun so hso => ?_⟩
    rw [hsame]
    exact hafter so hso

end Valid

/-- **The invariant**: the receipts are accurate, and so is what the transactions know. -/
structure Invariant (s : Session) : Prop where
  accurate : ∀ key r, s.receipts key = some r → Accurate s.events r
  valid : ∀ txn p, s.txns txn = some p → p.Valid s.events s.ordering s.locks txn

/-- The receipts move to later events only. -/
def Later (s s' : Session) : Prop :=
  ∀ key, ∀ r ∈ s.receipts key, ∃ r' ∈ s'.receipts key, ∀ so ∈ r.eventStreamOrdering, ∃ so' ∈ r'.eventStreamOrdering, so ≤ so'

namespace Later

variable {s s' s'' : Session}

theorem of_eq (h : s'.receipts = s.receipts) : Later s s' := by
  intro key r hr
  refine ⟨r, ?_, fun so hso => ⟨so, hso, le_rfl⟩⟩
  rw [h]
  exact hr

theorem trans (h : Later s s') (h' : Later s' s'') : Later s s'' := by
  intro key r hr
  obtain ⟨r', hr', hle⟩ := h key r hr
  obtain ⟨r'', hr'', hle'⟩ := h' key r' hr'
  refine ⟨r'', hr'', fun so hso => ?_⟩
  obtain ⟨so', hso', hsoso'⟩ := hle so hso
  obtain ⟨so'', hso'', hso'so''⟩ := hle' so' hso'
  exact ⟨so'', hso'', hsoso'.trans hso'so''⟩

end Later

section Step

variable {s s' : Session} {txn : ℕ}

variable (h : Invariant s)
include h

theorem Invariant.setPhase {p : Phase} (hp : p.Valid s.events s.ordering s.locks txn) :
    Invariant (s.setPhase txn p) where
  accurate := h.accurate
  valid txn' p' hp' := by
    rcases update_eq_some hp' with ⟨rfl, hnew⟩ | ⟨-, hold⟩
    · cases hnew
      exact hp
    · exact h.valid txn' p' hold

theorem Invariant.persist {eventId : String} (hnew : s.events eventId = none) (event : EventRow) :
    Invariant { s with events := Function.update s.events eventId (some event) } := by
  have hgrow : ∀ id e, s.events id = some e → Function.update s.events eventId (some event) id = some e := by
    intro id e he
    have hne : id ≠ eventId := by
      rintro rfl
      simp [hnew] at he
    rw [update_of_ne hne]
    exact he
  exact ⟨fun key r hr => (h.accurate key r hr).mono hgrow,
    fun txn p hp => (h.valid txn p hp).mono hgrow fun key hholds => ⟨hholds, rfl⟩⟩

theorem Invariant.commit {key : ReceiptKey} {written : Option Receipt}
    (hvalid : ∀ row, written = some row → s.locks.Holds txn key .update ∧ Accurate s.events row ∧
      ∀ so ∈ row.eventStreamOrdering, After so (s.ordering key)) :
    Invariant ((s.write key written).finish txn) ∧ Later s ((s.write key written).finish txn) := by
  -- a row stays, or it is the one that was written
  have hrow : ∀ key', (s.write key written).receipts key' = s.receipts key' ∨
      key' = key ∧ ∃ row, written = some row ∧ (s.write key written).receipts key' = some row := by
    intro key'
    cases written with
    | none => exact .inl rfl
    | some row =>
      by_cases hkey : key' = key
      · subst hkey
        exact .inr ⟨rfl, row, rfl, update_self _ _ _⟩
      · exact .inl (update_of_ne hkey _ _)
  refine ⟨⟨fun key' r hr => ?_, fun txn' p hp => ?_⟩, fun key' r hr => ?_⟩
  · rcases hrow key' with hsame | ⟨-, row, hwritten, hnew⟩
    · exact h.accurate key' r (hsame.symm.trans hr)
    · cases hnew.symm.trans hr
      exact (hvalid _ hwritten).2.1
  · rcases update_eq_some hp with ⟨-, hnone⟩ | ⟨hne, hold⟩
    · cases hnone
    refine (h.valid txn' p hold).mono (fun id event hevent => hevent) fun key' hholds => ?_
    refine ⟨LockTable.release_holds hholds hne, ?_⟩
    show ((s.write key written).receipts key').bind _ = (s.receipts key').bind _
    rcases hrow key' with hsame | ⟨rfl, row, hwritten, -⟩
    · rw [hsame]
    · -- no other transaction has a lock on the row
      exact absurd (LockTable.update_exclusive (hvalid row hwritten).1 hholds) hne
  · rcases hrow key' with hsame | ⟨rfl, row, hwritten, hnew⟩
    · exact ⟨r, hsame.trans hr, fun so hso => ⟨so, hso, le_rfl⟩⟩
    obtain ⟨-, ⟨event, -, hso'⟩, hafter⟩ := hvalid row hwritten
    refine ⟨row, hnew, fun so hso => ⟨event.streamOrdering, hso', (hafter _ hso' so ?_).le⟩⟩
    rw [Session.ordering, mem_def.mp hr]
    exact hso

theorem Invariant.rollback (txn : ℕ) : Invariant (s.finish txn) where
  accurate := h.accurate
  valid txn' p hp := by
    rcases update_eq_some hp with ⟨-, hnone⟩ | ⟨hne, hold⟩
    · cases hnone
    · exact (h.valid txn' p hold).mono (fun id event hevent => hevent) fun key hholds =>
        ⟨LockTable.release_holds hholds hne, rfl⟩

theorem Invariant.upsert {i : Insertion} {res : Option EventRow} {seen : Option ℤ}
    (htxn : s.txns txn = some (.upsert i res seen)) (hsame : s.ordering i.key = seen) {locks : LockTable ℕ ReceiptKey}
    (hlocks : s.locks.acquire txn i.key .update = some locks) :
    Invariant { s.setPhase txn (.commit i (some (i.row res)) (some (Insertion.rxTs res))) with locks := locks } := by
  obtain ⟨hholds, hkeep⟩ := LockTable.acquire_holds hlocks
  obtain ⟨event, hevent, rfl, hafter⟩ := h.valid txn _ htxn
  refine ⟨h.accurate, fun txn' p hp => ?_⟩
  rcases update_eq_some hp with ⟨rfl, hnew⟩ | ⟨-, hold⟩
  · cases hnew
    rintro row hrow
    cases hrow
    refine ⟨hholds, ⟨event, hevent, rfl⟩, fun so hso => ?_⟩
    cases hso
    show After event.streamOrdering (s.ordering i.key)
    rw [hsame]
    exact hafter
  · exact (h.valid txn' p hold).mono (fun id event hevent => hevent) fun key hholds => ⟨hkeep hholds, rfl⟩

theorem Invariant.insert {key : ReceiptKey} {eventIds : List String} {data : JsonDict} {streamId : ℕ}
    {instanceName : String} (hstep : s.insert txn key eventIds data streamId instanceName = some s') :
    Invariant s' ∧ s'.receipts = s.receipts := by
  unfold Session.insert at hstep
  split at hstep
  · obtain ⟨⟨-, hknown⟩, rfl⟩ := ite_some_none_eq_some.mp hstep
    exact ⟨h.setPhase (isSome_iff_exists.mp hknown), rfl⟩
  · cases hstep
    exact ⟨h, rfl⟩
  · cases hstep
    exact ⟨h, rfl⟩

theorem step_later {a : Action} (hund : Undisturbed s a) (hstep : step s a = some s') : Invariant s' ∧ Later s s' := by
  cases a with
  | persist eventId event =>
    obtain ⟨hnew, rfl⟩ := ite_some_none_eq_some.mp hstep
    exact ⟨h.persist (isNone_iff_eq_none.mp hnew) event, .of_eq rfl⟩
  | insert txn key eventIds data streamId instanceName =>
    obtain ⟨hinv, hsame⟩ := h.insert hstep
    exact ⟨hinv, .of_eq hsame⟩
  | selectEvent txn =>
    rw [step] at hstep
    split at hstep
    · rename_i i htxn
      cases hstep
      obtain ⟨event, hevent⟩ := h.valid txn _ htxn
      exact ⟨h.setPhase ⟨event, hevent, hevent⟩, .of_eq rfl⟩
    · cases hstep
  | selectReceipts txn =>
    rw [step] at hstep
    split at hstep
    · rename_i i res htxn
      cases hstep
      obtain ⟨event, hevent, rfl⟩ := h.valid txn _ htxn
      refine ⟨h.setPhase ?_, .of_eq rfl⟩
      split
      · exact nofun
      · rename_i holder
        refine ⟨event, hevent, rfl, fun so' hso' => ?_⟩
        rw [mem_def.mp hso'] at holder
        exact not_le.mp (by simpa [Insertion.isOlder] using holder)
    · cases hstep
  | upsert txn =>
    rw [step] at hstep
    rw [Undisturbed] at hund
    split at hstep
    · rename_i i res seen htxn
      rw [htxn] at hund
      obtain ⟨locks, hlocks, heq⟩ := map_eq_some_iff.mp hstep
      cases heq
      exact ⟨h.upsert htxn hund hlocks, .of_eq rfl⟩
    · cases hstep
  | commit txn =>
    rw [step] at hstep
    split at hstep
    · rename_i i written result htxn
      cases hstep
      exact h.commit (h.valid txn _ htxn)
    · cases hstep
  | rollback txn =>
    obtain ⟨p, -, rfl⟩ := map_eq_some_iff.mp hstep
    exact ⟨h.rollback txn, .of_eq rfl⟩

theorem runUndisturbed_later {actions : List Action} (hrun : runUndisturbed s actions = some s') :
    Invariant s' ∧ Later s s' := by
  refine run_rule (fun s => .of_eq rfl) Later.trans (fun {s a s'} hs ha => ?_) h hrun
  obtain ⟨hund, hstep⟩ := ite_none_right_eq_some.mp ha
  exact step_later hs hund hstep

end Step

/-- **Receipts do not move back.**  Between any two states of a run in which no transaction commits a receipt between the
check and the upsert of another one for the same room, type, user and thread, the stored receipt stays where it is or moves to
an event with a stream ordering that is not lower. -/
theorem receipt_never_moves_back {events : String → Option EventRow} {receipts : ReceiptKey → Option Receipt}
    (haccurate : ∀ key r, receipts key = some r → Accurate events r) {actions actions' : List Action} {s s' : Session}
    (hrun : runUndisturbed (.start events receipts) actions = some s) (hrun' : runUndisturbed s actions' = some s')
    (key : ReceiptKey) {r : Receipt} (hr : s.receipts key = some r) :
    ∃ r' event event', s'.receipts key = some r' ∧ s.events r.eventId = some event ∧ s'.events r'.eventId = some event' ∧
      event.streamOrdering ≤ event'.streamOrdering := by
  have hstart : Invariant (.start events receipts) := ⟨haccurate, nofun⟩
  have hinv := (runUndisturbed_later hstart hrun).1
  obtain ⟨hinv', hlater⟩ := runUndisturbed_later hinv hrun'
  obtain ⟨event, hevent, hso⟩ := hinv.accurate key r hr
  obtain ⟨r', hr', hle⟩ := hlater key r hr
  obtain ⟨event', hevent', hso'⟩ := hinv'.accurate key r' hr'
  obtain ⟨so, hmem, hsoso'⟩ := hle event.streamOrdering hso
  rw [hso', mem_some_iff] at hmem
  exact ⟨r', event, event', hr', hevent, hevent', hmem ▸ hsoso'⟩

/-! ## A receipt between the check and the upsert of another -/

namespace Overtaken

def key : ReceiptKey := ⟨"!room:example.com", "m.read", "@alice:example.com", none⟩

def events : String → Option EventRow
  | "$first" => some ⟨10, 1000⟩
  | "$second" => some ⟨20, 2000⟩
  | _ => none

def first : Action := .insert 1 key ["$first"] [] 1 "master"

def second : Action := .insert 2 key ["$second"] [] 2 "master"

def check (txn : ℕ) : List Action := [.selectEvent txn, .selectReceipts txn]

def write (txn : ℕ) : List Action := [.upsert txn, .commit txn]

/-- The first receipt is checked, but not yet written, while the second is inserted. -/
def interleaved : List Action := [first, second] ++ check 1 ++ check 2 ++ write 2

def serial : List Action := [first] ++ check 1 ++ write 1

def eventId (s : Option Session) : Option String := (s.bind fun s => s.receipts key).map (·.eventId)

def begun : Session := .start events fun _ => none

/-- One after the other, the receipt moves from the first event to the second. -/
theorem receipt_moves_on : ∃ s s' r r' event event', runUndisturbed begun serial = some s ∧
    runUndisturbed s ([second] ++ check 2 ++ write 2) = some s' ∧ s.receipts key = some r ∧ r.eventId = "$first" ∧
    s'.receipts key = some r' ∧ s.events r.eventId = some event ∧ s'.events r'.eventId = some event' ∧
    event.streamOrdering ≤ event'.streamOrdering := by
  let run₁ := runUndisturbed begun serial
  let run₂ := run₁.bind fun s => runUndisturbed s ([second] ++ check 2 ++ write 2)
  have hfirst : eventId run₁ = some "$first" := by decide +kernel
  have hsome : run₂.isSome := by decide +kernel
  obtain ⟨s', hrun₂⟩ := isSome_iff_exists.mp hsome
  obtain ⟨s, hrun, hrun'⟩ := bind_eq_some_iff.mp hrun₂
  have hs : run₁ = some s := hrun
  rw [hs] at hfirst
  obtain ⟨r, hr, hid⟩ := map_eq_some_iff.mp hfirst
  have hempty : ∀ (_ : ReceiptKey) r, (none : Option Receipt) = some r → Accurate events r := fun _ _ h => nomatch h
  obtain ⟨r', event, event', h⟩ := receipt_never_moves_back hempty hrun hrun' key hr
  exact ⟨s, s', r, r', event, event', hrun, hrun', hr, hid, h⟩

/-- The second receipt is stored, and then replaced by the first, which is for an earlier event. -/
theorem receipt_moves_back : eventId (run begun interleaved) = some "$second" ∧
    eventId (run begun (interleaved ++ write 1)) = some "$first" := by decide +kernel

end Overtaken

end Synapse.Receipts
