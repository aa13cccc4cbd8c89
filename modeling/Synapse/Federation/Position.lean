import Mathlib.Data.List.Induction
import Synapse.Federation.Account
import Synapse.Lib.Runs

/-!
# Synapse.Federation.Position — what the last successful stream ordering says

The value recorded for a destination is the stream ordering of the last event of a transaction, or of a room's newest
event when the catch-up has dealt with the room.  An event below it has been delivered, or a later event of its room has,
or the catch-up has sent extremities of the room for it, or the room has a newer event above the value, which the
catch-up comes to by its order of rooms.  Events that overtake each other on the way to the queue, that are handled again,
or that are withheld from a queue that is not about to catch up are left out (`InOrder`).

* `Delivered`, `Answered`, `Above`: what there is to say about an event.
* `Mark`: a value below which nothing is lost.
* `Inv`, `step_inv`: the invariant; a lemma for each kind of action.
* **`position_sound`**: the recorded value is a mark.
-/

namespace Synapse.Federation

open Lib List Option World

/-! ## Keeping the order -/

section Batches

variable (batch : Option Batch) (room : String)

/-- The event that the handler of a room is at. -/
def nextOf : Option ℕ := (handlerOf batch room).bind fun bh => bh.2.events.head?

/-- The events of other rooms that are recorded and have not reached the queue. -/
def waitingElsewhere : List ℕ :=
  batch.elim [] fun b => b.handlers.rows.filterMap fun row =>
    if row.1 ≠ room ∧ row.2.recorded = true then row.2.events.head? else none

/-- The handler of the room has recorded the event and waits for the retry limiter. -/
def WaitingAt (e : ℕ) : Prop := ∃ b es, handlerOf batch room = some (b, ⟨e :: es, true⟩)

def Waiting (e : ℕ) : Prop := ∃ room, WaitingAt batch room e

end Batches

/-- What an action has to satisfy for events to keep their order: none is recorded when a later one has been, none
overtakes another on its way to the queue, and none is withheld unless the queue is about to catch up. -/
def World.InOrder (w : World) : Action → Prop
  | .store room => ∀ e ∈ (nextOf w.batch room).toList, ∀ row ∈ w.ledger.destinationRooms.rows, row.2 ≤ e
  | .sendPdu room => ∀ e ∈ (nextOf w.batch room).toList, ∀ f ∈ waitingElsewhere w.batch room, e ≤ f
  | .withhold room => (∀ e ∈ (nextOf w.batch room).toList, ∀ f ∈ waitingElsewhere w.batch room, e ≤ f) ∧
      w.queue.catchingUp = true ∧ w.ledger.lastSuccessful.isSome = true ∧ (w.loop = .idle ∨ w.loop = .retryLimiter)
  | _ => True

instance (w : World) (a : Action) : Decidable (w.InOrder a) := by
  cases a <;> unfold World.InOrder <;> infer_instance

/-- A run of actions that keep the order. -/
def World.runInOrder (ev : Events) (w : World) (actions : List Action) : Option World :=
  actions.foldlM (fun w a => if w.InOrder a then w.step ev a else none) w

/-! ## Handlers -/

section Handlers

variable {batch : Option Batch} {b : Batch} {room room' : String} {h : Handler} {f : ℕ}

theorem handlerOf_eq_some : handlerOf batch room = some (b, h) ↔ batch = some b ∧ b.handlers.find room = some h := by
  unfold handlerOf
  rcases batch with _ | b'
  · simp
  rw [bind_some]
  constructor
  · intro heq
    obtain ⟨h', hh', heq⟩ := map_eq_some_iff.mp heq
    obtain ⟨rfl, rfl⟩ := Prod.mk.inj heq
    exact ⟨rfl, hh'⟩
  · rintro ⟨heq, hh⟩
    obtain rfl := some.inj heq
    rw [hh]
    rfl

theorem handlerOf_setHandler (b : Batch) (room : String) (h : Handler) (room' : String) :
    handlerOf (some (b.setHandler room h)) room' =
      if room' = room then some (b.setHandler room h, h)
      else (handlerOf (some b) room').map fun bh => (b.setHandler room h, bh.2) := by
  unfold handlerOf
  simp only [bind_some]
  rw [show (b.setHandler room h).handlers = b.handlers.upsert room fun _ => h from rfl, Table.find_upsert]
  split
  · rfl
  · rw [Option.map_map]
    rfl

theorem waitingAt_setHandler (hne : room' ≠ room) :
    WaitingAt (some (b.setHandler room h)) room' f ↔ WaitingAt (some b) room' f := by
  unfold WaitingAt
  rw [handlerOf_setHandler, if_neg hne]
  constructor
  · rintro ⟨_, es, heq⟩
    obtain ⟨⟨b'', h'⟩, hh', heq⟩ := map_eq_some_iff.mp heq
    obtain ⟨-, rfl⟩ := Prod.mk.inj heq
    exact ⟨b'', es, hh'⟩
  · rintro ⟨b'', es, hh'⟩
    rw [hh']
    exact ⟨_, es, rfl⟩

theorem mem_waitingElsewhere (hf : WaitingAt batch room f) (hne : room ≠ room') : f ∈ waitingElsewhere batch room' := by
  obtain ⟨b, es, hh⟩ := hf
  obtain ⟨rfl, hfind⟩ := handlerOf_eq_some.mp hh
  refine mem_filterMap.mpr ⟨(room, ⟨f :: es, true⟩), Table.mem_rows.mpr hfind, ?_⟩
  simp [hne]

theorem nextOf_eq (hh : handlerOf batch room = some (b, h)) : nextOf batch room = h.events.head? := by
  unfold nextOf
  rw [hh]
  rfl

end Handlers

/-! ## The events that wait -/

theorem not_waiting_none (e : ℕ) : ¬ Waiting none e := by
  rintro ⟨room, b, es, hh⟩
  cases hh

theorem find_eventsByRoom (ev : Events) (pos nextToken : ℕ) {room : String} {h : Handler}
    (hh : (eventsByRoom ev pos nextToken).find room = some h) :
    h.recorded = false ∧ ∀ e ∈ h.events, ev.room e = room := by
  unfold eventsByRoom at hh
  generalize (range' (pos + 1) (nextToken - pos)).filter ev.persisted = events at hh
  induction events using reverseRecOn generalizing h with
  | nil => cases hh
  | append_singleton events e ih =>
    rw [foldl_append, foldl_cons, foldl_nil, Table.find_upsert] at hh
    split at hh
    · subst room
      obtain rfl := some.inj hh
      refine ⟨rfl, fun e' he' => ?_⟩
      rcases mem_snoc.mp he' with he' | rfl
      · cases hold : (events.foldl (fun t e => t.upsert (ev.room e) fun h => ⟨(h.elim [] (·.events)) ++ [e], false⟩)
          (.empty : Table String Handler)).find (ev.room e) with
        | none => simp [hold] at he'
        | some h' => exact (ih hold).2 e' (by simpa [hold] using he')
      · rfl
    · exact ih hh

theorem not_waiting_of_unrecorded {b : Batch} (hb : ∀ room h, b.handlers.find room = some h → h.recorded = false)
    (e : ℕ) : ¬ Waiting (some b) e := by
  rintro ⟨room, b', es, hh⟩
  obtain ⟨heq, hh⟩ := handlerOf_eq_some.mp hh
  obtain rfl := some.inj heq
  exact absurd (hb room _ hh) (by simp)

section Changes

variable {batch : Option Batch} {b : Batch} {room : String} {h : Handler} {e f : ℕ} {es : List ℕ}

theorem waiting_iff (hh : handlerOf batch room = some (b, h)) :
    Waiting batch f ↔ (∃ es, h = ⟨f :: es, true⟩) ∨ ∃ room' ≠ room, WaitingAt batch room' f := by
  constructor
  · rintro ⟨room', b', es, hf⟩
    by_cases hroom : room' = room
    · subst hroom
      cases hh.symm.trans hf
      exact .inl ⟨es, rfl⟩
    · exact .inr ⟨room', hroom, b', es, hf⟩
  · rintro (⟨es, rfl⟩ | ⟨room', -, hf⟩)
    · exact ⟨room, b, es, hh⟩
    · exact ⟨room', hf⟩

theorem waiting_setHandler (hh : handlerOf batch room = some (b, h)) {h' : Handler} :
    Waiting (some (b.setHandler room h')) f ↔ (∃ es, h' = ⟨f :: es, true⟩) ∨ ∃ room' ≠ room, WaitingAt batch room' f := by
  obtain ⟨rfl, -⟩ := handlerOf_eq_some.mp hh
  rw [waiting_iff ((handlerOf_setHandler b room h' room).trans (if_pos rfl))]
  exact or_congr_right (exists_congr fun room' => and_congr_right waitingAt_setHandler)

theorem waiting_done (hh : handlerOf batch room = some (b, ⟨e :: es, true⟩)) :
    Waiting batch f ↔ f = e ∨ Waiting (some (b.setHandler room ⟨es, false⟩)) f := by
  rw [waiting_setHandler hh, waiting_iff hh]
  simp [eq_comm]

theorem mem_waitingElsewhere_of_done (hh : handlerOf batch room = some (b, ⟨e :: es, true⟩))
    (hf : Waiting (some (b.setHandler room ⟨es, false⟩)) f) : f ∈ waitingElsewhere batch room := by
  rcases (waiting_setHandler hh).mp hf with ⟨_, heq⟩ | ⟨room', hne, hf⟩
  · cases heq
  · exact mem_waitingElsewhere hf hne

end Changes

/-! ## The invariant -/

/-- Handlers have the events of their rooms. -/
def HandlerRooms (ev : Events) (batch : Option Batch) : Prop :=
  ∀ room b h, handlerOf batch room = some (b, h) → ∀ e ∈ h.events, ev.room e = room

structure Inv (ev : Events) (w : World) : Prop where
  handlers : HandlerRooms ev w.batch
  core : Core ev w.ledger (Waiting w.batch) w.queue w.loop

variable {ev : Events} {w w' : World}

theorem HandlerRooms.setHandler {batch : Option Batch} {b : Batch} {room : String} {h h' : Handler}
    (hr : HandlerRooms ev batch) (hh : handlerOf batch room = some (b, h)) (hsub : h'.events ⊆ h.events) :
    HandlerRooms ev (some (b.setHandler room h')) := by
  intro room' b' h'' hh' e he
  obtain ⟨rfl, -⟩ := handlerOf_eq_some.mp hh
  rw [handlerOf_setHandler] at hh'
  split at hh'
  · obtain ⟨-, rfl⟩ := Prod.mk.inj (some.inj hh')
    subst room'
    exact hr room b h hh e (hsub he)
  · obtain ⟨⟨b'', _⟩, hh'', heq⟩ := map_eq_some_iff.mp hh'
    cases heq
    exact hr room' b'' _ hh'' e he

theorem new_inv (ev : Events) (outPos : ℕ) : Inv ev (new outPos) where
  handlers room b h hh := by cases hh
  core :=
    { rows := ⟨by simp [new], fun _ _ h => (by cases h)⟩
      order := ⟨fun f hf => absurd hf (not_waiting_none f), by simp [new],
        by simp [new, PerDestinationQueue.new], by simp [new, PerDestinationQueue.new],
        by simp [new, PerDestinationQueue.new], .inl rfl, fun f hf => absurd hf (not_waiting_none f)⟩
      marks := ⟨fun _ h => (by cases h), fun _ h => (by cases h), Iff.rfl, by simp [new], by simp [new]⟩
      loop := trivial }

theorem Inv.setBatch (hi : Inv ev w) {batch : Option Batch} (hr : HandlerRooms ev batch)
    (hw : ∀ f, Waiting batch f ↔ Waiting w.batch f) (outPos : ℕ) :
    Inv ev { w with batch := batch, outPos := outPos } where
  handlers := hr
  core := by
    have heq : Waiting batch = Waiting w.batch := funext fun f => propext (hw f)
    exact heq ▸ hi.core

theorem Inv.readEvents (hi : Inv ev w) (hb : w.batch = none) (nextToken : ℕ) :
    Inv ev { w with batch := some ⟨nextToken, eventsByRoom ev w.outPos nextToken⟩ } := by
  refine hi.setBatch ?_ (fun f => ?_) w.outPos
  · intro room b h hh
    obtain ⟨heq, hh⟩ := handlerOf_eq_some.mp hh
    obtain rfl := some.inj heq
    exact (find_eventsByRoom ev _ _ hh).2
  · rw [hb]
    exact iff_of_false (not_waiting_of_unrecorded (fun _ _ hh => (find_eventsByRoom ev _ _ hh).1) f)
      (not_waiting_none f)

theorem Inv.finish (hi : Inv ev w) {b : Batch} (hb : w.batch = some b)
    (hall : b.handlers.rows.all fun row => row.2.events.isEmpty) :
    Inv ev { w with batch := none, outPos := b.nextToken } := by
  refine hi.setBatch (fun _ _ _ hh => by cases hh) (fun f => iff_of_false (not_waiting_none f) ?_) b.nextToken
  rintro ⟨room, b', es, hh⟩
  rw [hb] at hh
  obtain ⟨heq, hh⟩ := handlerOf_eq_some.mp hh
  obtain rfl := some.inj heq
  have := List.all_eq_true.mp hall _ (Table.mem_rows.mpr hh)
  simp at this

section Rooms

variable {b : Batch} {room : String} {e : ℕ} {es : List ℕ}

theorem Inv.store (hi : Inv ev w) (hh : handlerOf w.batch room = some (b, ⟨e :: es, false⟩))
    (hmax : ∀ row ∈ w.ledger.destinationRooms.rows, row.2 ≤ e) :
    Inv ev { w with ledger := w.ledger.store (ev.room e) e, batch := some (b.setHandler room ⟨e :: es, true⟩) } where
  handlers := hi.handlers.setHandler hh (Subset.refl _)
  core := by
    refine hi.core.store ?_ (fun f => by rw [waiting_setHandler hh, waiting_iff hh]; simp [eq_comm]) ?_
    · intro e' he'
      obtain ⟨r, hr, hle⟩ := hi.core.rows.row_le e' he'
      exact hle.trans (hmax _ (Table.mem_rows.mpr hr))
    · -- the room's handler was not waiting
      rintro f ⟨room', b', es', hf⟩ heq
      have hroom : room' = room := by
        rw [← hi.handlers _ _ _ hf f mem_cons_self, heq]
        exact hi.handlers _ _ _ hh e mem_cons_self
      subst room'
      rw [hh] at hf
      cases hf

variable (hh : handlerOf w.batch room = some (b, ⟨e :: es, true⟩))
  (hmin : ∀ f ∈ waitingElsewhere w.batch room, e ≤ f)
include hh hmin

theorem Inv.sendPdu (hi : Inv ev w) :
    Inv ev { w with queue := w.queue.sendPdu e, batch := some (b.setHandler room ⟨es, false⟩) } where
  handlers := hi.handlers.setHandler hh (subset_cons_self ..)
  core := hi.core.sendPdu (fun _ => waiting_done hh) fun f hf => hmin f (mem_waitingElsewhere_of_done hh hf)

theorem Inv.withhold (hi : Inv ev w) (hcu : w.queue.catchingUp = true) (hlast : w.ledger.lastSuccessful ≠ none)
    (hloop : w.loop = .idle ∨ w.loop = .retryLimiter) :
    Inv ev { w with batch := some (b.setHandler room ⟨es, false⟩) } where
  handlers := hi.handlers.setHandler hh (subset_cons_self ..)
  core := hi.core.withhold (fun _ => waiting_done hh) (fun f hf => hmin f (mem_waitingElsewhere_of_done hh hf))
    hcu hlast hloop

end Rooms

theorem Inv.setLoop (hi : Inv ev w) (loop : Loop) (hl : LoopInv ev w.ledger (Waiting w.batch) w.queue loop) :
    Inv ev { w with loop := loop } :=
  ⟨hi.handlers, hi.core.rows, hi.core.order, hi.core.marks, hl⟩

theorem Inv.core_at (hi : Inv ev w) {loop : Loop} (hl : w.loop = loop) :
    Core ev w.ledger (Waiting w.batch) w.queue loop :=
  hl ▸ hi.core

/-! ## Steps and runs -/

theorem step_inv (hi : Inv ev w) {a : Action} (ho : w.InOrder a) (hs : w.step ev a = some w') : Inv ev w' := by
  cases step_cases hs with
  | readEvents nextToken hb => exact hi.readEvents hb nextToken
  | ignore hh =>
    exact hi.setBatch (hi.handlers.setHandler hh (subset_cons_self ..))
      (fun f => by rw [waiting_setHandler hh, waiting_iff hh]; simp) w.outPos
  | store hh => exact hi.store hh (ho _ (by simp [nextOf_eq hh]))
  | sendPdu hh => exact hi.sendPdu hh (ho _ (by simp [nextOf_eq hh]))
  | withhold hh =>
    exact hi.withhold hh (ho.1 _ (by simp [nextOf_eq hh])) ho.2.1 (isSome_iff_ne_none.mp ho.2.2.1) ho.2.2.2
  | finish hb hall => exact hi.finish hb hall
  | attempt => exact hi.setLoop _ trivial
  | retryOk =>
    refine hi.setLoop _ ?_
    split
    · cases hlast : w.queue.lastSuccessfulStreamOrdering with
      | none => trivial
      | some last => exact hlast
    · exact Bool.eq_false_iff.mpr ‹_›
  | nothingRecorded hlast => exact ⟨hi.handlers, hi.core.nothingRecorded hlast⟩
  | readLast _ hlast => exact ⟨hi.handlers, hi.core.readLast hlast⟩
  | runQuery hl => exact ⟨hi.handlers, (hi.core_at hl).runQuery⟩
  | skipped hl => exact hi.setLoop _ (hi.core_at hl).loop.1
  | caughtUp hl hskipped => exact ⟨hi.handlers, (hi.core_at hl).caughtUp hskipped⟩
  | @found first last pdu rest hl =>
    have hloop := (hi.core_at hl).loop
    refine ⟨hi.handlers, ?_⟩
    cases first with
    | true => exact hi.core.startCatchingUp ⟨hloop.1, hloop.2.1⟩
    | false => exact (hi.setLoop (.catchUp false last pdu rest) ⟨hloop.1, hloop.2.1⟩).core
  | catchUpSent hl => exact ⟨hi.handlers, (hi.core_at hl).catchUpSent _⟩
  | recordLast hl => exact ⟨hi.handlers, (hi.core_at hl).recordCatchUp (hi.core_at hl).loop.1⟩
  | recordNext hl => exact ⟨hi.handlers, (hi.core_at hl).recordCatchUp (hi.core_at hl).loop⟩
  | nothingToSend hl =>
    refine hi.setLoop _ ?_
    split
    · exact (hi.core_at hl).loop
    · trivial
  | entered hl => exact hi.setLoop _ ⟨(hi.core_at hl).loop, take_prefix ..⟩
  | sent hl => exact ⟨hi.handlers, (hi.core_at hl).sent⟩
  | record hl => exact ⟨hi.handlers, (hi.core_at hl).record⟩
  | @fail longBackoff =>
    refine ⟨hi.handlers, ?_⟩
    cases longBackoff with
    | true => exact hi.core.startCatchingUp trivial
    | false => exact (hi.setLoop .idle trivial).core
  | restart => exact ⟨fun _ _ _ hh => (by cases hh), hi.core.restart not_waiting_none⟩

theorem run_inv (hi : Inv ev w) {actions : List Action} (hs : w.runInOrder ev actions = some w') : Inv ev w' :=
  guarded_preserves (fun hi ho hs => step_inv hi ho hs) hi hs

/-- **The recorded value.**  In every run in which events keep their order, an event that was recorded for the
destination, counts and is not above the last successful stream ordering has been delivered, itself or as a later event of
its room, or was replaced in the catch-up, or its room has a newer event above the value. -/
theorem position_sound (ev : Events) (pos : ℕ) (actions : List Action) (w : World) (s : ℕ)
    (hrun : (new pos).runInOrder ev actions = some w) (hs : w.ledger.lastSuccessful = some s) :
    ∀ e ∈ w.ledger.handed, Counted w.ledger e → e ≤ s →
      Delivered ev w.ledger e ∨ Replaced ev w.ledger e ∨ Above ev w.ledger e s := by
  intro e he hc _
  have hmark := (run_inv (new_inv ev pos) hrun).core.marks.recorded s hs
  rcases hmark.ok e he hc with (hd | hr) | ha
  · exact .inl hd
  · exact .inr (.inl hr)
  · exact .inr (.inr ha)

namespace Interrupted

/-- Two rooms with two events each. -/
def events : Events := ⟨fun e => e ≤ 4, fun e => if e % 2 = 1 then "a" else "b"⟩

/-- The first event is sent; the transaction for the second fails for long, and the others come in meanwhile.  The
catch-up has then dealt with room `a`, whose newest event comes before that of room `b`. -/
def actions : List Action :=
  [.readEvents 1, .store "a", .sendPdu "a", .attempt, .retryOk, .readLast, .entered false false, .sent, .record,
    .entered false false, .finish,
    .readEvents 4, .store "b", .sendPdu "b", .attempt, .retryOk, .entered false false, .fail true,
    .store "a", .sendPdu "a", .store "b", .sendPdu "b",
    .attempt, .retryOk, .readLast, .runQuery, .queryResult, .catchUpSent [3] false [], .recordCatchUp]

def interrupted : World where
  ledger := ⟨⟨[("a", 3), ("b", 4)], by decide⟩, some 3, some 1, [4, 3, 2, 1], [1, 3], []⟩
  outPos := 1
  queue := ⟨true, 0, some 3, []⟩
  loop := .catchUp true 3 4 []
  batch := some ⟨4, ⟨[("b", ⟨[], false⟩), ("a", ⟨[], false⟩)], by decide⟩⟩

/-- The recorded value is that of the third event, and nothing of room `b` has been delivered. -/
theorem second_not_delivered : ∃ w, (new 0).run events actions = some w ∧ w.ledger.lastSuccessful = some 3 ∧
    2 ∈ w.ledger.handed ∧ Counted w.ledger 2 ∧ 2 ≤ 3 ∧ ¬ Delivered events w.ledger 2 := by
  refine ⟨interrupted, rfl, rfl, by decide, ⟨1, rfl, by decide⟩, by decide, ?_⟩
  rintro ⟨d, hd, hroom, hle⟩
  have hd' : d = 1 ∨ d = 3 := by simpa [interrupted] using hd
  rcases hd' with rfl | rfl
  · omega
  · exact absurd hroom (by decide)

/-- The run keeps the order; what there is to say about the second event is that its room is above the value. -/
theorem second_above : Delivered events interrupted.ledger 2 ∨ Replaced events interrupted.ledger 2 ∨
    Above events interrupted.ledger 2 3 :=
  position_sound events 0 actions interrupted 3 rfl rfl 2 (by decide) ⟨1, rfl, by decide⟩ (by decide)

end Interrupted

end Synapse.Federation
