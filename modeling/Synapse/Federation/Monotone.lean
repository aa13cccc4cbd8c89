import Synapse.Federation.Position

/-!
# Synapse.Federation.Monotone — whether the last successful stream ordering goes back

The value is recorded by `__aexit__` after a transaction with events of the queue, and by the catch-up after each room.
The catch-up starts from a copy in memory, which `__aexit__` does not update.

* `Watched`: the sender with the last event that has been queued; `Increasing`.
* `Fresh`: the copy is not behind the table when a catch-up goes on from it, and events are queued above the table.
* `Outstanding`, `Catching`, `QueueInv`: what is still to be recorded is above what has been.
* **`recorded_monotone`**: in such runs the recorded value never decreases.
* `StaleCopy.recorded_decreases`: a run with events queued in order in which it does.
-/

namespace Synapse.Federation

open Lib List Option PerDestinationQueue

/-! ## Runs in which events are queued in order -/

/-- The event that an action hands to `send_pdu`. -/
def queuedBy (w : World) : Action → Option ℕ
  | .sendPdu room => nextOf w.batch room
  | _ => none

structure Watched where
  world : World
  /-- The event that `send_pdu` was last called with. -/
  lastQueued : Option ℕ

namespace Watched

/-- A queue that is made for whatever the tables hold. -/
def start (ledger : Ledger) (outPos : ℕ) : Watched := ⟨⟨ledger, outPos, .new, .idle, none⟩, none⟩

def step (ev : Events) (s : Watched) (a : Action) : Option Watched :=
  (s.world.step ev a).map fun w => ⟨w, (queuedBy s.world a).or s.lastQueued⟩

/-- `destinations.last_successful_stream_ordering` -/
def recorded (s : Watched) : Option ℕ := s.world.ledger.lastSuccessful

/-- Events are queued in increasing stream order. -/
def Increasing (s : Watched) (a : Action) : Prop := ∀ e ∈ queuedBy s.world a, ∀ q ∈ s.lastQueued, q < e

instance (s : Watched) (a : Action) : Decidable (s.Increasing a) :=
  inferInstanceAs (Decidable (∀ e ∈ queuedBy s.world a, ∀ q ∈ s.lastQueued, q < e))

def runIncreasing (ev : Events) (s : Watched) : List Action → Option Watched :=
  List.foldlM (fun s a => if s.Increasing a then s.step ev a else none) s

end Watched

/-- `send_pdu` puts the event on the queue, and does not skip it. -/
def PerDestinationQueue.takes (q : PerDestinationQueue) : Bool :=
  !q.catchingUp || q.lastSuccessfulStreamOrdering.isNone

/-- **The copy is fresh, and nothing is queued below the table**: when a catch-up goes on from the copy, the copy is not
below the recorded value and no events are left in the queue; an event that is put on the queue is above the value. -/
def Fresh (s : Watched) : Action → Prop
  | .retryOk => s.world.queue.catchingUp = true → ∀ x ∈ s.world.queue.lastSuccessfulStreamOrdering,
      s.world.queue.pendingPdus = [] ∧ ∀ r ∈ s.recorded, r ≤ x
  | .sendPdu room => s.world.queue.takes = true → ∀ e ∈ nextOf s.world.batch room, ∀ r ∈ s.recorded, r < e
  | _ => True

instance (s : Watched) : (a : Action) → Decidable (Fresh s a)
  | .retryOk | .sendPdu _ => inferInstanceAs (Decidable (_ → _))
  | .readEvents _ | .ignore _ | .store _ | .withhold _ | .finish | .attempt | .readLast | .runQuery | .queryResult
  | .catchUpSent .. | .recordCatchUp | .entered .. | .sent | .record | .fail _ | .restart => .isTrue trivial

def Watched.runFresh (ev : Events) (s : Watched) : List Action → Option Watched :=
  List.foldlM (fun s a => if s.Increasing a ∧ Fresh s a then s.step ev a else none) s

/-! ## What is still to be recorded -/

/-- Events of transactions to come: in order, above what is recorded, and queued. -/
structure Outstanding (pdus : List ℕ) (recorded queued : Option ℕ) : Prop where
  sorted : pdus.Pairwise (· < ·)
  above : ∀ e ∈ pdus, ∀ r ∈ recorded, r < e
  queued : ∀ e ∈ pdus, ∃ q ∈ queued, e ≤ q

/-- The catch-up is at `last`, and `todo` is what its last query has found. -/
structure Catching (q : PerDestinationQueue) (recorded : Option ℕ) (first : Bool) (last : ℕ) (todo : List ℕ) : Prop where
  skips : q.takes = false
  atLeast : ∀ r ∈ recorded, r ≤ last
  sorted : (last :: todo).Pairwise (· ≤ ·)
  empty : first = false → q.pendingPdus = []

def LoopOk (q : PerDestinationQueue) (recorded : Option ℕ) : Loop → Prop
  | .readLast => q.catchingUp = true
  | .query first last => Catching q recorded first last []
  | .queried first last pdus => Catching q recorded first last pdus
  | .catchUp first last pdu rest => Catching q recorded first last (pdu :: rest) ∧ q.pendingPdus = []
  | .recordCatchUp first pdu rest => Catching q recorded first pdu rest ∧ q.pendingPdus = []
  | .sending pdus => pdus <+: q.pendingPdus
  | _ => True

/-- The events of a transaction that has been sent and is to be recorded. -/
def Loop.inFlight : Loop → List ℕ
  | .record pdus => pdus
  | _ => []

structure QueueInv (recorded : Option ℕ) (q : PerDestinationQueue) (loop : Loop) (queued : Option ℕ) : Prop where
  outstanding : Outstanding (loop.inFlight ++ q.pendingPdus) recorded queued
  loop : LoopOk q recorded loop

namespace Outstanding

variable {pdus pdus' : List ℕ} {recorded queued : Option ℕ}

theorem nil : Outstanding [] recorded queued := ⟨.nil, nofun, nofun⟩

section

variable (h : Outstanding pdus recorded queued)
include h

theorem sublist (hsub : pdus'.Sublist pdus) : Outstanding pdus' recorded queued where
  sorted := h.sorted.sublist hsub
  above e he := h.above e (hsub.subset he)
  queued e he := h.queued e (hsub.subset he)

theorem push {e : ℕ} (hlater : ∀ q ∈ queued, q < e)
    (habove : ∀ r ∈ recorded, r < e) : Outstanding (pdus ++ [e]) recorded (some e) where
  sorted := by
    refine pairwise_snoc.mpr ⟨h.sorted, fun f hf => ?_⟩
    obtain ⟨q, hq, hle⟩ := h.queued f hf
    exact Nat.lt_of_le_of_lt hle (hlater q hq)
  above := forall_mem_snoc.mpr ⟨h.above, habove⟩
  queued f hf := by
    refine ⟨e, rfl, ?_⟩
    rcases mem_snoc.mp hf with hf | rfl
    · obtain ⟨q, hq, hle⟩ := h.queued f hf
      exact Nat.le_of_lt (Nat.lt_of_le_of_lt hle (hlater q hq))
    · exact Nat.le_refl f

theorem later {e : ℕ} (hlater : ∀ q ∈ queued, q < e) : Outstanding pdus recorded (some e) where
  __ := h
  queued f hf := by
    obtain ⟨q, hq, hle⟩ := h.queued f hf
    exact ⟨e, rfl, Nat.le_of_lt (Nat.lt_of_le_of_lt hle (hlater q hq))⟩

end

/-- **A transaction is recorded.**  Its last event is above what was recorded, and below what comes after it. -/
theorem record (h : Outstanding (pdus ++ pdus') recorded queued) {e : ℕ} (he : pdus.getLast? = some e) :
    (∀ r ∈ recorded, r ≤ e) ∧ Outstanding pdus' (some e) queued := by
  have hmem : e ∈ pdus := mem_of_getLast? he
  obtain ⟨-, hsorted, hcross⟩ := pairwise_append.mp h.sorted
  refine ⟨fun r hr => Nat.le_of_lt (h.above e (mem_append_left _ hmem) r hr), hsorted, ?_, ?_⟩
  · intro f hf r hr
    cases hr
    exact hcross e hmem f hf
  · exact fun f hf => h.queued f (mem_append_right _ hf)

end Outstanding

/-! ## Steps -/

def Ascends (recorded recorded' : Option ℕ) : Prop := ∀ r ∈ recorded, ∃ r' ∈ recorded', r ≤ r'

theorem Ascends.refl (recorded : Option ℕ) : Ascends recorded recorded := fun r hr => ⟨r, hr, Nat.le_refl r⟩

theorem Ascends.trans {r₁ r₂ r₃ : Option ℕ} (h : Ascends r₁ r₂) (h' : Ascends r₂ r₃) : Ascends r₁ r₃ := by
  intro r hr
  obtain ⟨r', hr', hle⟩ := h r hr
  obtain ⟨r'', hr'', hle'⟩ := h' r' hr'
  exact ⟨r'', hr'', Nat.le_trans hle hle'⟩

theorem Ascends.of_le {recorded : Option ℕ} {e : ℕ} (h : ∀ r ∈ recorded, r ≤ e) : Ascends recorded (some e) :=
  fun r hr => ⟨e, rfl, h r hr⟩

namespace QueueInv

variable {recorded queued : Option ℕ} {q : PerDestinationQueue} {loop : Loop} {e : ℕ}

theorem setLoop (h : QueueInv recorded q loop queued) {loop' : Loop} (hflight : loop'.inFlight = [])
    (hloop : LoopOk q recorded loop') : QueueInv recorded q loop' queued where
  outstanding := by
    rw [hflight]
    exact h.outstanding.sublist (sublist_append_right ..)
  loop := hloop

theorem startCatchingUp {loop' : Loop} (hflight : loop'.inFlight = []) (hloop : LoopOk q.startCatchingUp recorded loop') :
    QueueInv recorded q.startCatchingUp loop' queued where
  outstanding := by
    rw [hflight]
    exact .nil
  loop := hloop

section

variable (h : QueueInv recorded q loop queued)
include h

theorem skip (hlater : ∀ x ∈ queued, x < e) : QueueInv recorded { q with catchupLastSkipped := e } loop (some e) where
  outstanding := h.outstanding.later hlater
  loop := by
    have hloop := h.loop
    cases loop with
    | query | queried => exact { hloop with }
    | catchUp | recordCatchUp =>
      obtain ⟨hcatching, hempty⟩ := hloop
      exact ⟨{ hcatching with }, hempty⟩
    | readLast | sending => exact hloop
    | _ => trivial

theorem push (htakes : q.takes = true) (hlater : ∀ x ∈ queued, x < e) (habove : ∀ r ∈ recorded, r < e) :
    QueueInv recorded { q with pendingPdus := q.pendingPdus ++ [e] } loop (some e) where
  outstanding := by
    rw [← List.append_assoc]
    exact h.outstanding.push hlater habove
  loop := by
    have hloop := h.loop
    cases loop with
    | query | queried =>
      have hskips := hloop.skips
      rw [htakes] at hskips
      cases hskips
    | catchUp | recordCatchUp =>
      have hskips := hloop.1.skips
      rw [htakes] at hskips
      cases hskips
    | readLast => exact hloop
    | sending pdus => exact hloop.trans (prefix_append ..)
    | _ => trivial

theorem sendPdu (hlater : ∀ x ∈ queued, x < e)
    (habove : q.takes = true → ∀ r ∈ recorded, r < e) : QueueInv recorded (q.sendPdu e) loop (some e) := by
  unfold PerDestinationQueue.sendPdu
  split
  · exact h.push ‹_› hlater (habove ‹_›)
  · exact h.skip hlater

end

end QueueInv

theorem replace_lastSuccessful (l : Ledger) (pdu : ℕ) (pdus : List ℕ) :
    (l.replace pdu pdus).lastSuccessful = l.lastSuccessful := by
  unfold Ledger.replace
  split <;> rfl

/-- The invariant of the queue, in a state of the sender. -/
def World.QueueInv (w : World) (queued : Option ℕ) : Prop :=
  Federation.QueueInv w.ledger.lastSuccessful w.queue w.loop queued

namespace QueueInv

variable {w : World} {queued : Option ℕ} {first : Bool} {last pdu : ℕ} {pdus rest : List ℕ}

section

variable (h : w.QueueInv queued)
include h

/-- The loop begins: a catch-up goes on from the copy, if there is one. -/
theorem retryOk (hfresh : w.queue.catchingUp = true → ∀ x ∈ w.queue.lastSuccessfulStreamOrdering,
    w.queue.pendingPdus = [] ∧ ∀ r ∈ w.ledger.lastSuccessful, r ≤ x) :
    World.QueueInv { w with loop :=
      if w.queue.catchingUp then w.queue.lastSuccessfulStreamOrdering.elim .readLast (.query false) else .enter } queued := by
  show QueueInv _ _ (if w.queue.catchingUp = true then _ else _) _
  split_ifs with hcatching
  · cases hcopy : w.queue.lastSuccessfulStreamOrdering with
    | none => exact setLoop h rfl hcatching
    | some x =>
      obtain ⟨hempty, hle⟩ := hfresh hcatching x hcopy
      have hskips : w.queue.takes = false := by rw [takes, hcatching, hcopy]; rfl
      exact setLoop h rfl ⟨hskips, hle, pairwise_singleton .., fun _ => hempty⟩
  · exact setLoop h rfl trivial

theorem readLast (hloop : w.loop = .readLast) {r : ℕ} (hr : w.ledger.lastSuccessful = some r) : World.QueueInv { w with
      queue := { w.queue with lastSuccessfulStreamOrdering := some r }, loop := .query true r } queued where
  outstanding := h.outstanding.sublist (sublist_append_right ..)
  loop := by
    have hcatching := hloop ▸ h.loop
    refine ⟨?_, fun r' hr' => ?_, pairwise_singleton .., nofun⟩
    · rw [takes, hcatching]
      rfl
    · cases hr.symm.trans hr'
      exact Nat.le_refl r

theorem runQuery (hloop : w.loop = .query first last) :
    World.QueueInv { w with loop := .queried first last (getCatchUpRoomEventIds w.ledger.destinationRooms last) }
      queued := by
  have hcatching := hloop ▸ h.loop
  refine setLoop h rfl { hcatching with sorted := ?_ }
  exact pairwise_cons.mpr ⟨fun x hx => Nat.le_of_lt (mem_getCatchUp hx).1, sorted_getCatchUp⟩

theorem found (hloop : w.loop = .queried first last (pdu :: rest)) : World.QueueInv { w with
      queue := if first then w.queue.startCatchingUp else w.queue, loop := .catchUp first last pdu rest } queued := by
  have hcatching := hloop ▸ h.loop
  cases first with
  | true =>
    refine startCatchingUp rfl ⟨⟨?_, hcatching.atLeast, hcatching.sorted, nofun⟩, rfl⟩
    have hskips := hcatching.skips
    simp only [takes, Bool.or_eq_false_iff] at hskips
    simp only [PerDestinationQueue.takes, PerDestinationQueue.startCatchingUp, hskips.2]
    rfl
  | false => exact setLoop h rfl ⟨hcatching, hcatching.empty rfl⟩

theorem catchUpSent (hloop : w.loop = .catchUp first last pdu rest) (pdus : List ℕ) : World.QueueInv { w with
      ledger := w.ledger.replace pdu pdus
      queue := { w.queue with lastSuccessfulStreamOrdering := some pdu }
      loop := .recordCatchUp first pdu rest } queued := by
  obtain ⟨hcatching, hempty⟩ : LoopOk w.queue w.ledger.lastSuccessful (.catchUp first last pdu rest) := hloop ▸ h.loop
  obtain ⟨hnext, hsorted⟩ := pairwise_cons.mp hcatching.sorted
  show QueueInv (w.ledger.replace pdu pdus).lastSuccessful _ _ _
  rw [replace_lastSuccessful]
  refine ⟨h.outstanding.sublist (sublist_append_right ..), ⟨?_, fun r hr => ?_, hsorted, fun _ => hempty⟩, hempty⟩
  · have hskips := hcatching.skips
    simp only [takes, Bool.or_eq_false_iff] at hskips
    simp only [takes, hskips.1]
    rfl
  · exact Nat.le_trans (hcatching.atLeast r hr) (hnext pdu mem_cons_self)

theorem recordCatchUp (hloop : w.loop = .recordCatchUp first pdu rest) :
    Catching w.queue (some pdu) first pdu rest ∧ Outstanding w.queue.pendingPdus (some pdu) queued ∧
      w.queue.pendingPdus = [] ∧ Ascends w.ledger.lastSuccessful (some pdu) := by
  obtain ⟨hcatching, hempty⟩ : LoopOk w.queue w.ledger.lastSuccessful (.recordCatchUp first pdu rest) := hloop ▸ h.loop
  refine ⟨{ hcatching with atLeast := fun r hr => ?_ }, ?_, hempty, .of_le hcatching.atLeast⟩
  · cases hr
    exact Nat.le_refl _
  · rw [hempty]
    exact .nil

theorem sent (hloop : w.loop = .sending pdus) : World.QueueInv { w with
      ledger := w.ledger.deliver pdus
      queue := { w.queue with pendingPdus := w.queue.pendingPdus.drop pdus.length }
      loop := .record pdus } queued := by
  have hpre := hloop ▸ h.loop
  refine ⟨?_, trivial⟩
  show Outstanding (pdus ++ w.queue.pendingPdus.drop pdus.length) _ _
  obtain ⟨rest, hrest⟩ := hpre
  rw [← hrest, drop_left, hrest]
  exact h.outstanding.sublist (sublist_append_right ..)

theorem record (hloop : w.loop = .record pdus) :
    World.QueueInv { w with ledger := pdus.getLast?.elim w.ledger w.ledger.setLastSuccessful, loop := .enter } queued ∧
      Ascends w.ledger.lastSuccessful (pdus.getLast?.elim w.ledger w.ledger.setLastSuccessful).lastSuccessful := by
  have hout : Outstanding (pdus ++ w.queue.pendingPdus) w.ledger.lastSuccessful queued := by
    have := h.outstanding
    rwa [hloop] at this
  cases hlast : pdus.getLast? with
  | none => exact ⟨setLoop h rfl trivial, .refl _⟩
  | some e =>
    obtain ⟨hle, hrest⟩ := hout.record hlast
    exact ⟨⟨hrest, trivial⟩, .of_le hle⟩

end

end QueueInv

theorem step_recorded {ev : Events} {s : Watched} {a : Action} {w' : World} (h : s.world.QueueInv s.lastQueued)
    (hinc : s.Increasing a) (hfresh : Fresh s a) (hstep : s.world.step ev a = some w') :
    w'.QueueInv ((queuedBy s.world a).or s.lastQueued) ∧ Ascends s.recorded w'.ledger.lastSuccessful := by
  obtain ⟨w, queued⟩ := s
  cases World.step_cases hstep with
  | readEvents | ignore | store | withhold | finish => exact ⟨h, .refl _⟩
  | @sendPdu room b e es hh =>
    have hqueued : queuedBy w (.sendPdu room) = some e := nextOf_eq hh
    refine ⟨?_, .refl _⟩
    rw [hqueued]
    exact QueueInv.sendPdu h (hinc e hqueued) fun htakes => hfresh htakes e hqueued
  | attempt => exact ⟨QueueInv.setLoop h rfl trivial, .refl _⟩
  | retryOk => exact ⟨QueueInv.retryOk h hfresh, .refl _⟩
  | nothingRecorded | caughtUp => exact ⟨⟨h.outstanding.sublist (sublist_append_right ..), trivial⟩, .refl _⟩
  | readLast hl hlast => exact ⟨QueueInv.readLast h hl hlast, .refl _⟩
  | runQuery hl => exact ⟨QueueInv.runQuery h hl, .refl _⟩
  | @skipped first last hl =>
    have hcatching := hl ▸ h.loop
    exact ⟨QueueInv.setLoop h rfl hcatching, .refl _⟩
  | found hl => exact ⟨QueueInv.found h hl, .refl _⟩
  | catchUpSent hl =>
    refine ⟨QueueInv.catchUpSent h hl _, ?_⟩
    rw [replace_lastSuccessful]
    exact .refl _
  | recordLast hl =>
    obtain ⟨hcatching, hout, -, hascends⟩ := QueueInv.recordCatchUp h hl
    exact ⟨⟨hout, hcatching⟩, hascends⟩
  | recordNext hl =>
    obtain ⟨hcatching, hout, hempty, hascends⟩ := QueueInv.recordCatchUp h hl
    exact ⟨⟨hout, hcatching, hempty⟩, hascends⟩
  | @nothingToSend _ again =>
    refine ⟨?_, .refl _⟩
    cases again with
    | true | false => exact QueueInv.setLoop h rfl trivial
  | entered => exact ⟨QueueInv.setLoop h rfl (List.take_prefix ..), .refl _⟩
  | sent hl => exact ⟨QueueInv.sent h hl, .refl _⟩
  | record hl => exact QueueInv.record h hl
  | @fail longBackoff =>
    refine ⟨?_, .refl _⟩
    cases longBackoff with
    | true => exact QueueInv.startCatchingUp rfl trivial
    | false => exact QueueInv.setLoop h rfl trivial
  | restart => exact ⟨⟨.nil, trivial⟩, .refl _⟩

theorem run_recorded {ev : Events} {s s' : Watched} {actions : List Action} (h : s.world.QueueInv s.lastQueued)
    (hrun : s.runFresh ev actions = some s') : s'.world.QueueInv s'.lastQueued ∧ Ascends s.recorded s'.recorded := by
  refine run_rule (I := fun s : Watched => s.world.QueueInv s.lastQueued) (R := fun s s' => Ascends s.recorded s'.recorded)
    (fun s => .refl s.recorded) (fun h h' => h.trans h') (fun h hstep => ?_) h hrun
  obtain ⟨⟨hinc, hfresh⟩, hstep⟩ := ite_none_right_eq_some.mp hstep
  obtain ⟨w', hw', rfl⟩ := map_eq_some_iff.mp hstep
  exact step_recorded h hinc hfresh hw'

/-- **The recorded value never decreases.**  A queue starts with whatever the tables hold.  If events are queued in
increasing order and above the recorded value, and each catch-up that goes on from the copy finds it not behind the table
and the queue empty, then the value after any part of the run is at most the value later on. -/
theorem recorded_monotone (ev : Events) (ledger : Ledger) (outPos : ℕ) {before after : List Action} {s s' : Watched}
    (hrun : (Watched.start ledger outPos).runFresh ev before = some s) (hrun' : s.runFresh ev after = some s') :
    ∀ r, s.recorded = some r → ∃ r', s'.recorded = some r' ∧ r ≤ r' := by
  obtain ⟨h, -⟩ := run_recorded (s := Watched.start ledger outPos) ⟨.nil, trivial⟩ hrun
  exact (run_recorded h hrun').2

namespace StaleCopy

/-- Events `1`, `4`, `5` in one room, and `2`, `3` in another. -/
def events : Events := ⟨fun e => e ≤ 5, fun e => if e = 2 ∨ e = 3 then "b" else "a"⟩

def begin : Watched := .start ⟨.empty, none, none, [], [], []⟩ 0

/-- An event is read, recorded in `destination_rooms` and queued. -/
def queue (e : ℕ) : List Action := [.readEvents e, .store (events.room e), .sendPdu (events.room e), .finish]

def transmission : List Action := [.entered false false, .sent, .record, .entered false false]

/-- The first event is sent, then there is an outage: the catch-up sends the second one and loads the copy. -/
def outage : List Action :=
  queue 1 ++ ([.attempt, .retryOk, .readLast] : List Action) ++ transmission ++
    queue 2 ++ ([.attempt, .retryOk, .entered false false, .fail true] : List Action) ++
    ([.attempt, .retryOk, .readLast, .runQuery, .queryResult, .catchUpSent [2] false [], .recordCatchUp, .runQuery,
      .queryResult, .entered false false] : List Action)

/-- The third and the fourth event are sent as they come. -/
def sending : List Action :=
  queue 3 ++ ([.attempt, .retryOk] : List Action) ++ transmission ++
    queue 4 ++ ([.attempt, .retryOk] : List Action) ++ transmission

/-- At the fifth event there is another outage.  The catch-up goes on from the copy, which is at the second event. -/
def secondOutage : List Action :=
  queue 5 ++ ([.attempt, .retryOk, .entered false false, .fail true] : List Action) ++
    ([.attempt, .retryOk, .runQuery, .queryResult, .catchUpSent [3] false [], .recordCatchUp] : List Action)

/-- The fourth event is recorded, and then the third. -/
theorem recorded_decreases : ∃ s s', begin.runIncreasing events (outage ++ sending) = some s ∧
    s.runIncreasing events secondOutage = some s' ∧ s.recorded = some 4 ∧ s'.recorded = some 3 :=
  ⟨_, _, rfl, rfl, rfl, rfl⟩

/-- Up to the second outage nothing is wrong. -/
theorem recorded_before : ∃ s s', begin.runFresh events outage = some s ∧ s.runFresh events sending = some s' ∧
    s.recorded = some 2 ∧ ∃ r', s'.recorded = some r' ∧ 2 ≤ r' := by
  obtain ⟨s, hs, hrecorded⟩ : ∃ s, begin.runFresh events outage = some s ∧ s.recorded = some 2 := ⟨_, rfl, rfl⟩
  obtain ⟨s', hs'⟩ : ∃ s', (begin.runFresh events outage).bind (·.runFresh events sending) = some s' := ⟨_, rfl⟩
  rw [hs] at hs'
  exact ⟨s, s', hs, hs', hrecorded, recorded_monotone events _ 0 hs hs' 2 hrecorded⟩

end StaleCopy

end Synapse.Federation
