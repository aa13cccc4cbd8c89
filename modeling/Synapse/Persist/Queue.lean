import Mathlib.Data.List.Basic
import Synapse.Json
import Synapse.Lib.Runs

/-!
# Synapse.Persist.Queue — one task per room at a time

`_EventPeristenceQueue` of `synapse/storage/controllers/persist_events.py`.  Its dict of queues and its set of rooms are
only ever used at one room, so the state is a function from rooms to what they hold there.  Code between two `await`s is
one step; a callback that returns without waiting is one that ends in the step after its start.

* `QueueTask`, `QueueTask.tryMerge`: the tasks, and what `try_merge` makes of two of them.
* `Room.addToQueue`, `Room.handleQueue`: what runs up to the `await` of a caller.
* `Room.complete`: the end of a callback, which wakes the callers that wait for the item.  They may add tasks before the
  loop goes on.
* `Room.resume`: the loop takes the next item, or ends and cleans up.
* `Merges`: what a merged task stands for.
* **`queue_sound`**: one task at a time, each call once and in order, and no idle room with a queue.
-/

namespace Synapse.Persist

open List Lib

/-- `_EventPersistQueueTask`; `ε` are events with their contexts. -/
inductive QueueTask (ε : Type) where
  | persistEvents (eventsAndContexts : List ε) (backfilled : Bool)
  | updateCurrentState

variable {ε ρ : Type}

/-- `self.try_merge(task)`: what `self` is afterwards, if the tasks were merged. -/
def QueueTask.tryMerge : QueueTask ε → QueueTask ε → Option (QueueTask ε)
  | .persistEvents events backfilled, .persistEvents events' backfilled' =>
    if backfilled ≠ backfilled' then none else some (.persistEvents (events ++ events') backfilled)
  | .persistEvents _ _, .updateCurrentState => none
  | .updateCurrentState, .updateCurrentState => some .updateCurrentState
  | .updateCurrentState, .persistEvents _ _ => none

/-- A call of `add_to_queue`, numbered among those for its room. -/
structure Call (ε : Type) where
  number : ℕ
  task : QueueTask ε

/-- `_EventPersistQueueItem`; the calls observe its deferred. -/
structure QueueItem (ε : Type) where
  task : QueueTask ε
  observers : List (Call ε)

/-- Where a run of `handle_queue_loop` is. -/
inductive Loop (ε : Type) where
  /-- It waits for `_per_item_callback`. -/
  | persisting (item : QueueItem ε)
  /-- It wakes the observers of its item. -/
  | waking

def Loop.item : Loop ε → Option (QueueItem ε)
  | .persisting item => some item
  | .waking => none

@[simp] theorem Loop.item_persisting (item : QueueItem ε) : (Loop.persisting item).item = some item := rfl

@[simp] theorem Loop.item_waking : (Loop.waking : Loop ε).item = none := rfl

structure Room (ε ρ : Type) where
  /-- `self._event_persist_queues.get(room_id)` -/
  queue : Option (List (QueueItem ε))
  /-- `room_id in self._currently_persisting_rooms` -/
  currentlyPersisting : Bool
  /-- The runs of `handle_queue_loop`. -/
  loops : List (Loop ε)
  /-- The calls so far. -/
  calls : List (Call ε)
  /-- The items given to the callback so far. -/
  starts : List (QueueItem ε)
  /-- The items whose callback has ended, and how. -/
  finishes : List (QueueItem ε × Except Exc ρ)

namespace Room

def empty : Room ε ρ := ⟨none, false, [], [], [], []⟩

variable (room : Room ε ρ)

/-- The queue, which is empty if there is none. -/
def items : List (QueueItem ε) := room.queue.getD []

/-- The `finally` of `handle_queue_loop`. -/
def leave : Room ε ρ :=
  { room with
    queue := if room.items ≠ [] then some room.items else none
    currentlyPersisting := false }

/-- The loop goes on: `queue.popleft()`, and the callback for the item or the end of the loop. -/
def next : Room ε ρ × Option (Loop ε) :=
  match room.items with
  | item :: rest => ({ room with queue := some rest, starts := room.starts ++ [item] }, some (.persisting item))
  | [] => (room.leave, none)

/-- The room is marked, and the loop gets a queue to drain. -/
def claimed : Room ε ρ := { room with currentlyPersisting := true, queue := some room.items }

def handleQueue : Room ε ρ :=
  if room.currentlyPersisting then room
  else
    let (room, loop) := room.claimed.next
    { room with loops := room.loops ++ loop.toList }

/-- The queue with a call added, in its last item if that takes the task. -/
def enqueue (items : List (QueueItem ε)) (call : Call ε) : List (QueueItem ε) :=
  match items.getLast? with
  | none => items ++ [⟨call.task, [call]⟩]
  | some last =>
    match last.task.tryMerge call.task with
    | some task => items.dropLast ++ [⟨task, last.observers ++ [call]⟩]
    | none => items ++ [⟨call.task, [call]⟩]

/-- A new call is made and its task is put into the queue. -/
def withCall (task : QueueTask ε) : Room ε ρ :=
  { room with
    queue := some (enqueue room.items ⟨room.calls.length, task⟩)
    calls := room.calls ++ [⟨room.calls.length, task⟩] }

/-- `add_to_queue(room_id, task)`, up to its `await`. -/
def addToQueue (task : QueueTask ε) : Room ε ρ := (room.withCall task).handleQueue

/-- The callback of loop `i` returns or raises, and the deferred of its item fires. -/
def complete (i : ℕ) (ret : Except Exc ρ) : Room ε ρ :=
  match room.loops[i]? with
  | some (.persisting item) =>
    { room with loops := room.loops.set i .waking, finishes := room.finishes ++ [(item, ret)] }
  | _ => room

/-- The observers have run, and loop `i` goes on. -/
def resume (i : ℕ) : Room ε ρ :=
  match room.loops[i]? with
  | some .waking =>
    match room.next with
    | (room, some loop) => { room with loops := room.loops.set i loop }
    | (room, none) => { room with loops := room.loops.eraseIdx i }
  | _ => room

end Room

inductive Op (ε ρ : Type) where
  | addToQueue (task : QueueTask ε)
  | complete (i : ℕ) (ret : Except Exc ρ)
  | resume (i : ℕ)

def Op.apply (room : Room ε ρ) : Op ε ρ → Room ε ρ
  | .addToQueue task => room.addToQueue task
  | .complete i ret => room.complete i ret
  | .resume i => room.resume i

/-- `_EventPeristenceQueue`, with its background processes. -/
abbrev State (ε ρ : Type) := String → Room ε ρ

def step (s : State ε ρ) (action : String × Op ε ρ) : State ε ρ :=
  Function.update s action.1 (action.2.apply (s action.1))

def run (s : State ε ρ) (actions : List (String × Op ε ρ)) : State ε ρ := actions.foldl step s

def State.empty : State ε ρ := fun _ => .empty

/-! ## What merged tasks stand for -/

/-- The task does what the tasks do, in their order. -/
def QueueTask.Merges : QueueTask ε → List (QueueTask ε) → Prop
  | .persistEvents events backfilled, tasks =>
    tasks ≠ [] ∧ ∃ batches : List (List ε),
      tasks = batches.map (QueueTask.persistEvents · backfilled) ∧ events = batches.flatten
  | .updateCurrentState, tasks => tasks ≠ [] ∧ ∀ task ∈ tasks, task = .updateCurrentState

theorem QueueTask.merges_self (task : QueueTask ε) : task.Merges [task] := by
  cases task with
  | persistEvents events backfilled => exact ⟨cons_ne_nil _ _, [events], rfl, by simp⟩
  | updateCurrentState => exact ⟨cons_ne_nil _ _, by simp⟩

theorem QueueTask.merges_tryMerge {self task merged : QueueTask ε} {tasks : List (QueueTask ε)} (h : self.Merges tasks)
    (hmerge : self.tryMerge task = some merged) : merged.Merges (tasks ++ [task]) := by
  cases self with
  | persistEvents events backfilled =>
    cases task with
    | persistEvents events' backfilled' =>
      rw [QueueTask.tryMerge] at hmerge
      split at hmerge
      · cases hmerge
      · next hsame =>
        obtain rfl := not_not.mp hsame
        obtain ⟨-, batches, rfl, rfl⟩ := h
        cases hmerge
        exact ⟨by simp, batches ++ [events'], by simp, by simp⟩
    | updateCurrentState => cases hmerge
  | updateCurrentState =>
    cases task with
    | persistEvents events' backfilled' => cases hmerge
    | updateCurrentState =>
      cases hmerge
      exact ⟨by simp, forall_mem_snoc.mpr ⟨h.2, rfl⟩⟩

/-- The item does what its calls ask for. -/
def QueueItem.Sound (item : QueueItem ε) : Prop := item.task.Merges (item.observers.map Call.task)

namespace Room

theorem enqueue_cases (items : List (QueueItem ε)) (call : Call ε) :
    enqueue items call = items ++ [⟨call.task, [call]⟩] ∨ ∃ init last task, items = init ++ [last] ∧
      last.task.tryMerge call.task = some task ∧ enqueue items call = init ++ [⟨task, last.observers ++ [call]⟩] := by
  rw [enqueue]
  split
  · exact .inl rfl
  · next last hlast =>
    split
    · next task htask => exact .inr ⟨_, last, task, (dropLast_append_getLast? last hlast).symm, htask, rfl⟩
    · exact .inl rfl

theorem enqueue_keeps (items : List (QueueItem ε)) (call : Call ε) :
    (enqueue items call).flatMap QueueItem.observers = items.flatMap QueueItem.observers ++ [call] ∧
      enqueue items call ≠ [] ∧ items.length ≤ (enqueue items call).length := by
  rcases enqueue_cases items call with h | ⟨init, last, task, rfl, -, h⟩ <;> simp [h]

variable {items : List (QueueItem ε)}

theorem sound_enqueue (h : ∀ item ∈ items, item.Sound) (call : Call ε) : ∀ item ∈ enqueue items call, item.Sound := by
  intro item hitem
  rcases enqueue_cases items call with heq | ⟨init, last, task, rfl, htask, heq⟩
  · rw [heq] at hitem
    rcases mem_snoc.mp hitem with hitem | rfl
    · exact h item hitem
    · exact QueueTask.merges_self call.task
  rw [heq] at hitem
  rcases mem_snoc.mp hitem with hitem | rfl
  · exact h item (mem_append_left _ hitem)
  have hmerges := QueueTask.merges_tryMerge (h last (by simp)) htask
  show QueueTask.Merges _ (List.map _ _)
  rwa [map_append]

/-! ## What holds in every state -/

/-- **What the queue does for a room.** -/
structure Sound (room : Room ε ρ) : Prop where
  /-- At most one task runs, and the tasks run one after the other. -/
  one_task : (room.loops.filterMap Loop.item).length ≤ 1
  one_by_one : room.starts = room.finishes.map Prod.fst ++ room.loops.filterMap Loop.item
  /-- Each call is in one item, which has started or waits, and the items are in the order of the calls. -/
  numbered : room.calls.map Call.number = List.range room.calls.length
  in_order : (room.starts ++ room.items).flatMap QueueItem.observers = room.calls
  as_part : ∀ item ∈ room.starts ++ room.items, item.Sound
  /-- While there is a queue, there is a loop that works on it. -/
  never_idle : room.items ≠ [] → room.currentlyPersisting = true ∧ room.loops ≠ []

/-- The items that have started or wait are those of the calls. -/
structure Recorded (items : List (QueueItem ε)) (calls : List (Call ε)) : Prop where
  numbered : calls.map Call.number = List.range calls.length
  in_order : items.flatMap QueueItem.observers = calls
  as_part : ∀ item ∈ items, item.Sound

/-- The invariant: the flag and the loops agree. -/
structure Inv (room : Room ε ρ) : Prop where
  recorded : Recorded (room.starts ++ room.items) room.calls
  idle : room.currentlyPersisting = false → room.loops = [] ∧ room.items = []
  /-- The loop drains the queue that the dict has. -/
  busy : room.currentlyPersisting = true → room.queue.isSome ∧ ∃ loop, room.loops = [loop]
  one_by_one : room.starts = room.finishes.map Prod.fst ++ room.loops.filterMap Loop.item

theorem inv_empty : Inv (empty : Room ε ρ) :=
  ⟨⟨rfl, rfl, fun _ h => (by cases h)⟩, fun _ => ⟨rfl, rfl⟩, fun h => (by cases h), rfl⟩

variable {room : Room ε ρ}

theorem Inv.length_loops (h : room.Inv) : room.loops.length ≤ 1 := by
  cases hp : room.currentlyPersisting with
  | false => simp [(h.idle hp).1]
  | true =>
    obtain ⟨-, loop, hloop⟩ := h.busy hp
    simp [hloop]

theorem Inv.sound (h : room.Inv) : room.Sound := by
  refine ⟨(length_filterMap_le _ _).trans h.length_loops, h.one_by_one, h.recorded.numbered,
    h.recorded.in_order, h.recorded.as_part, fun hne => ?_⟩
  cases hp : room.currentlyPersisting with
  | false => exact absurd (h.idle hp).2 hne
  | true =>
    obtain ⟨-, loop, hloop⟩ := h.busy hp
    exact ⟨rfl, by simp [hloop]⟩

theorem Inv.only_loop (h : room.Inv) {i : ℕ} {loop : Loop ε} (hi : room.loops[i]? = some loop) :
    room.currentlyPersisting = true ∧ room.queue.isSome ∧ room.loops = [loop] ∧ i = 0 := by
  cases hp : room.currentlyPersisting with
  | false =>
    rw [(h.idle hp).1] at hi
    cases hi
  | true =>
    obtain ⟨hsome, loop', hloop⟩ := h.busy hp
    rw [hloop] at hi
    obtain ⟨hlt, hget⟩ := List.getElem?_eq_some_iff.mp hi
    obtain rfl : i = 0 := by simpa using hlt
    obtain rfl : loop' = loop := hget
    exact ⟨rfl, hsome, hloop, rfl⟩

theorem next_cons {item : QueueItem ε} {rest : List (QueueItem ε)} (h : room.items = item :: rest) :
    room.next = ({ room with queue := some rest, starts := room.starts ++ [item] }, some (.persisting item)) := by
  rw [next, h]

theorem next_nil (h : room.items = []) :
    room.next = ({ room with queue := none, currentlyPersisting := false }, none) := by
  rw [next]
  simp [leave, h]

theorem handleQueue_busy (hp : room.currentlyPersisting = true) : room.handleQueue = room :=
  if_pos hp

theorem Recorded.enqueue {starts : List (QueueItem ε)} {calls : List (Call ε)}
    (h : Recorded (starts ++ items) calls) (task : QueueTask ε) :
    Recorded (starts ++ enqueue items ⟨calls.length, task⟩) (calls ++ [⟨calls.length, task⟩]) where
  numbered := by
    rw [map_append, h.numbered, length_append, length_singleton, range_succ]
    rfl
  in_order := by
    rw [flatMap_append, (enqueue_keeps _ _).1, ← List.append_assoc, ← flatMap_append, h.in_order]
  as_part := by
    intro item hitem
    rcases mem_append.mp hitem with hitem | hitem
    · exact h.as_part item (mem_append_left _ hitem)
    · exact sound_enqueue (fun item hitem => h.as_part item (mem_append_right _ hitem)) _ item hitem

theorem addToQueue_inv (h : room.Inv) (task : QueueTask ε) : (room.addToQueue task).Inv := by
  have hrecorded := h.recorded.enqueue task
  cases hp : room.currentlyPersisting with
  | true =>
    -- the loop of the room will come to the item
    rw [addToQueue, handleQueue_busy (show (room.withCall task).currentlyPersisting = true from hp)]
    refine ⟨hrecorded, fun hidle => ?_, fun _ => ⟨rfl, (h.busy hp).2⟩, h.one_by_one⟩
    exact absurd (hp.symm.trans hidle) (by decide)
  | false =>
    -- a new loop takes the first item
    obtain ⟨item, rest, hitems⟩ := exists_cons_of_ne_nil (enqueue_keeps room.items ⟨room.calls.length, task⟩).2.1
    have hloops := (h.idle hp).1
    rw [addToQueue, handleQueue, if_neg (by simp [withCall, hp]),
      next_cons (show (room.withCall task).claimed.items = item :: rest from hitems)]
    refine ⟨?_, fun hidle => (by cases hidle),
      fun _ => ⟨rfl, .persisting item, congrArg (· ++ [Loop.persisting item]) hloops⟩, ?_⟩
    · show Recorded (room.starts ++ [item] ++ rest) _
      rw [List.append_assoc, singleton_append, ← hitems]
      exact hrecorded
    have hone := h.one_by_one
    rw [hloops, filterMap_nil, append_nil] at hone
    show room.starts ++ [item] = List.map Prod.fst room.finishes ++ filterMap Loop.item (room.loops ++ _)
    rw [hone, hloops]
    rfl

theorem complete_inv (h : room.Inv) (i : ℕ) (ret : Except Exc ρ) : (room.complete i ret).Inv := by
  rw [complete]
  split
  · next item hi =>
    obtain ⟨hp, hsome, hloops, rfl⟩ := h.only_loop hi
    refine ⟨h.recorded, fun hidle => ?_, fun _ => ⟨hsome, .waking, by simp [hloops]⟩, ?_⟩
    · exact absurd (hp.symm.trans hidle) (by decide)
    · have hone := h.one_by_one
      simpa [hloops, filterMap_cons] using hone
  · exact h

theorem resume_inv (h : room.Inv) (i : ℕ) : (room.resume i).Inv := by
  rw [resume]
  split
  · next hi =>
    obtain ⟨hp, hsome, hloops, rfl⟩ := h.only_loop hi
    have hone := h.one_by_one
    cases hitems : room.items with
    | cons item rest =>
      rw [next_cons hitems]
      refine ⟨?_, fun hidle => ?_, fun _ => ⟨rfl, .persisting item, by simp [hloops]⟩, ?_⟩
      · show Recorded (room.starts ++ [item] ++ rest) _
        rw [List.append_assoc, singleton_append, ← hitems]
        exact h.recorded
      · exact absurd (hp.symm.trans hidle) (by decide)
      · simpa [hloops, filterMap_cons] using hone
    | nil =>
      rw [next_nil hitems]
      refine ⟨?_, fun _ => ⟨by simp [hloops], rfl⟩, fun hbusy => (by cases hbusy),
        by simpa [hloops, filterMap_cons] using hone⟩
      have hrecorded := h.recorded
      rw [hitems] at hrecorded
      exact hrecorded
  · exact h

theorem apply_inv (h : room.Inv) (op : Op ε ρ) : (op.apply room).Inv := by
  cases op with
  | addToQueue task => exact addToQueue_inv h task
  | complete i ret => exact complete_inv h i ret
  | resume i => exact resume_inv h i

theorem foldl_inv (h : room.Inv) (ops : List (Op ε ρ)) : (ops.foldl Op.apply room).Inv :=
  foldlRecOn ops _ h fun _ hr op _ => apply_inv hr op

theorem next_starts (room : Room ε ρ) : room.starts <+: room.next.1.starts := by
  rw [next]
  split
  · exact prefix_append _ _
  · exact prefix_rfl

theorem apply_starts (room : Room ε ρ) (op : Op ε ρ) : room.starts <+: (op.apply room).starts := by
  cases op with
  | addToQueue task =>
    show room.starts <+: (room.withCall task).handleQueue.starts
    rw [handleQueue]
    split
    · exact prefix_rfl
    · exact next_starts (room.withCall task).claimed
  | complete i ret =>
    show room.starts <+: (room.complete i ret).starts
    rw [complete]
    split <;> exact prefix_rfl
  | resume i =>
    have hnext := next_starts room
    show room.starts <+: (room.resume i).starts
    rw [resume]
    split
    · split
      · next hsome => rwa [hsome] at hnext
      · next hnone => rwa [hnone] at hnext
    · exact prefix_rfl

theorem foldl_starts (room : Room ε ρ) (ops : List (Op ε ρ)) : room.starts <+: (ops.foldl Op.apply room).starts :=
  foldlRecOn (motive := (room.starts <+: Room.starts ·)) ops _ prefix_rfl fun r hr op _ => hr.trans (apply_starts r op)

/-! ## Every call comes to its turn -/

/-- The operation is one of a loop of the room. -/
def serves (room : Room ε ρ) : Op ε ρ → Bool
  | .addToQueue _ => false
  | .complete i _ => ((room.loops[i]?).bind Loop.item).isSome
  | .resume i => (room.loops[i]?).any fun loop => loop.item.isNone

def served (room : Room ε ρ) : List (Op ε ρ) → ℕ
  | [] => 0
  | op :: ops => (if room.serves op then 1 else 0) + served (op.apply room) ops

/-- How many it takes until the first items of the queue have started. -/
def turns (room : Room ε ρ) (k : ℕ) : ℕ := 2 * k - (room.loops.filter fun loop => loop.item.isNone).length

variable {k : ℕ}

theorem mem_take_enqueue (hk : k ≤ items.length) (new : Call ε) {call : Call ε}
    (h : call ∈ (items.take k).flatMap QueueItem.observers) :
    call ∈ ((enqueue items new).take k).flatMap QueueItem.observers := by
  rcases enqueue_cases items new with heq | ⟨init, last, task, rfl, -, heq⟩
  · rwa [heq, take_append_of_le_length hk]
  · -- the last item changes, and only by one more call
    rw [heq]
    rcases Nat.lt_or_ge init.length k with hlt | hge
    · rw [take_of_length_le (by simp; omega)] at h ⊢
      simp only [flatMap_append, mem_append, flatMap_singleton] at h ⊢
      exact h.imp id .inl
    · rw [take_append_of_le_length hge] at h ⊢
      exact h

/-- The calls of the items that have started, and of the first `k` that wait. -/
def leading (room : Room ε ρ) (k : ℕ) : List (Call ε) := (room.starts ++ room.items.take k).flatMap QueueItem.observers

/-- A turn brings the first items nearer to their start. -/
structure Nearer (room room' : Room ε ρ) (k turn k' : ℕ) : Prop where
  within : k' ≤ room'.items.length
  turns : room'.turns k' ≤ room.turns k - turn
  leading : ∀ call ∈ room.leading k, call ∈ room'.leading k'

theorem turns_zero (room : Room ε ρ) : room.turns 0 = 0 := Nat.zero_sub _

theorem Nearer.of_zero {room' : Room ε ρ} (turn : ℕ) (h : room.starts <+: room'.starts) :
    Nearer room room' 0 turn 0 := by
  obtain ⟨more, hmore⟩ := h
  refine ⟨Nat.zero_le _, by simp [turns_zero], fun call hcall => ?_⟩
  rw [Room.leading, take_zero, append_nil] at hcall ⊢
  rw [← hmore, flatMap_append]
  exact mem_append_left _ hcall

theorem Nearer.refl (hk : k ≤ room.items.length) : Nearer room room k 0 k :=
  ⟨hk, le_refl _, fun _ h => h⟩

variable (h : room.Inv) (hk : k ≤ room.items.length)
include h hk

theorem addToQueue_nearer (task : QueueTask ε) : ∃ k', Nearer room (room.addToQueue task) k 0 k' := by
  cases hp : room.currentlyPersisting with
  | true =>
    have hbusy : room.addToQueue task = room.withCall task := handleQueue_busy hp
    rw [hbusy]
    refine ⟨k, hk.trans (enqueue_keeps _ _).2.2, le_refl _, fun call hcall => ?_⟩
    rw [leading, flatMap_append, mem_append] at hcall ⊢
    exact hcall.imp id (mem_take_enqueue hk _)
  | false =>
    obtain rfl : k = 0 := by simpa [(h.idle hp).2] using hk
    exact ⟨0, .of_zero 0 (apply_starts room (.addToQueue task))⟩

theorem complete_nearer (i : ℕ) (ret : Except Exc ρ) :
    ∃ k', Nearer room (room.complete i ret) k (if room.serves (.complete i ret) then 1 else 0) k' := by
  refine ⟨k, ?_⟩
  rw [complete]
  split
  · next item hi =>
    obtain ⟨-, -, hloops, rfl⟩ := h.only_loop hi
    refine ⟨hk, ?_, fun _ hcall => hcall⟩
    simp [turns, serves, hloops, filter_cons]
  · next hi =>
    have hserves : room.serves (.complete i ret) = false := by
      rw [serves]
      rcases hget : room.loops[i]? with - | item | -
      · rfl
      · exact absurd hget (hi item)
      · rfl
    rw [hserves]
    exact .refl hk

theorem resume_nearer (i : ℕ) : ∃ k', Nearer room (room.resume i) k (if room.serves (.resume i) then 1 else 0) k' := by
  rw [resume]
  split
  · next hi =>
    obtain ⟨hp, hsome, hloops, rfl⟩ := h.only_loop hi
    cases hitems : room.items with
    | nil =>
      obtain rfl : k = 0 := by simpa [hitems] using hk
      rw [next_nil hitems]
      exact ⟨0, .of_zero _ prefix_rfl⟩
    | cons item rest =>
      rw [next_cons hitems]
      cases k with
      | zero => exact ⟨0, .of_zero _ (prefix_append _ _)⟩
      | succ k =>
        refine ⟨k, ?_, ?_, fun call hcall => ?_⟩
        · rw [hitems] at hk
          exact Nat.le_of_succ_le_succ hk
        · simp [turns, serves, hloops, filter_cons]
          omega
        · rw [leading, hitems] at hcall
          show call ∈ (room.starts ++ [item] ++ rest.take k).flatMap _
          rwa [List.append_assoc, singleton_append]
  · next hi =>
    have hserves : room.serves (.resume i) = false := by
      rw [serves]
      rcases hget : room.loops[i]? with - | item | -
      · rfl
      · rfl
      · exact absurd hget hi
    rw [hserves]
    exact ⟨k, .refl hk⟩

theorem apply_nearer (op : Op ε ρ) : ∃ k', Nearer room (op.apply room) k (if room.serves op then 1 else 0) k' := by
  cases op with
  | addToQueue task => exact addToQueue_nearer h hk task
  | complete i ret => exact complete_nearer h hk i ret
  | resume i => exact resume_nearer h hk i

theorem starts_of_served (ops : List (Op ε ρ))
    (hturns : room.turns k ≤ room.served ops) {call : Call ε} (hcall : call ∈ room.leading k) :
    call ∈ (ops.foldl Op.apply room).starts.flatMap QueueItem.observers := by
  induction ops generalizing room k with
  | nil =>
    have hloops : (room.loops.filter fun loop => loop.item.isNone).length ≤ 1 :=
      (length_filter_le _ _).trans h.length_loops
    obtain rfl : k = 0 := by
      simp only [turns, served] at hturns
      omega
    rwa [leading, take_zero, append_nil] at hcall
  | cons op ops ih =>
    obtain ⟨k', hnear⟩ := apply_nearer h hk op
    have hserved : room.served (op :: ops) = (if room.serves op then 1 else 0) + (op.apply room).served ops := rfl
    have hleft := hnear.turns
    exact ih (apply_inv h op) hnear.within (by omega) (hnear.leading call hcall)

end Room

/-! ## All rooms -/

def opsOf (roomId : String) (actions : List (String × Op ε ρ)) : List (Op ε ρ) :=
  (actions.filter fun action => action.1 = roomId).map Prod.snd

theorem run_apply (s : State ε ρ) (actions : List (String × Op ε ρ)) (roomId : String) :
    run s actions roomId = (opsOf roomId actions).foldl Op.apply (s roomId) := by
  induction actions generalizing s with
  | nil => rfl
  | cons action actions ih =>
    show run (step s action) actions roomId = _
    rw [ih]
    by_cases hroom : action.1 = roomId
    · subst hroom
      simp [opsOf, step]
    · simp [opsOf, step, hroom, Function.update_of_ne (Ne.symm hroom)]

/-- **The queue of each room is sound in every interleaving.**  What has started is not changed any more, and each call
made has started as soon as the loop of its room has taken two turns for each item that was waiting: one ends a callback,
one takes the next item. -/
theorem queue_sound (actions : List (String × Op ε ρ)) (roomId : String) : (run .empty actions roomId).Sound ∧
      (∀ later, (run .empty actions roomId).starts <+: (run .empty (actions ++ later) roomId).starts) ∧
      ∀ later, 2 * (run .empty actions roomId).items.length ≤
          (run .empty actions roomId).served (opsOf roomId later) →
        ∀ call ∈ (run .empty actions roomId).calls,
          call ∈ (run .empty (actions ++ later) roomId).starts.flatMap QueueItem.observers := by
  have hinv : (run .empty actions roomId).Inv := by
    rw [run_apply]
    exact Room.foldl_inv Room.inv_empty _
  have hlater : ∀ later, run .empty (actions ++ later) roomId =
      (opsOf roomId later).foldl Op.apply (run .empty actions roomId) := by
    intro later
    rw [← run_apply]
    exact congrFun (foldl_append ..) roomId
  refine ⟨hinv.sound, fun later => ?_, fun later hserved call hcall => ?_⟩
  · rw [hlater]
    exact Room.foldl_starts _ _
  rw [hlater]
  refine Room.starts_of_served hinv le_rfl _ ((Nat.sub_le _ _).trans hserved) ?_
  rw [Room.leading, take_length, hinv.recorded.in_order]
  exact hcall

end Synapse.Persist
