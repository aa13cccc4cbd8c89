import Mathlib.Data.Finset.Max
import Synapse.Lib.Runs

/-!
# Synapse.AppService.Transactions — the transactions of an application service

`_TransactionController` and `_Recoverer` of `synapse/appservice/scheduler.py`, with the tables they use
(`synapse/storage/databases/main/appservice.py`), for one service: all of it is kept by service id.  The queuer sends one
transaction of a service at a time.  A database call and what runs after it are steps of their own where others may
run in between.

* `SenderPhase`, `HandlerPhase`, `RecovererPhase`: where `send`, `_on_txn_fail` and `retry` wait.
* `senderStep`, `handlerStep`, `recovererStep`, `step`: what they do next; `SenderStep`, `HandlerStep`, `RecovererStep`:
  the same, case by case.
* `Undisturbed`: no send stores its transaction while a recoverer is ending.
* `Inv`, `step_inv`: what is stored is being sent, or is left to a handler or a recoverer.
* **`none_stranded`**: in undisturbed runs, a service that is left alone is up and has nothing stored.
* `Crossing.stranded`: a run in which something is.
-/

namespace Synapse.AppService.Transactions

open Lib Finset Option

/-- `ApplicationServiceState` -/
inductive ServiceState where
  | down
  | up
  deriving DecidableEq

/-- Where `_TransactionController.send` waits. -/
inductive SenderPhase where
  /-- no send is in progress -/
  | idle
  /-- for the state of the service -/
  | reading (hasEvents : Bool)
  /-- for its transaction to be stored -/
  | creating (serviceIsUp : Bool)
  /-- for the service -/
  | sending (id : ℕ)
  /-- for its transaction to be deleted -/
  | completing (id : ℕ)
  deriving DecidableEq

/-- Where `_on_txn_fail` waits. -/
inductive HandlerPhase where
  /-- for the state to be set -/
  | settingDown
  /-- to go on and start a recoverer -/
  | starting
  deriving DecidableEq

/-- Where `_Recoverer.retry` waits. -/
inductive RecovererPhase where
  /-- for the backoff to end -/
  | waiting
  /-- for the oldest transaction -/
  | fetching
  /-- for the service -/
  | sending (id : ℕ)
  /-- for its transaction to be deleted -/
  | completing (id : ℕ)
  /-- to go on after it has found no transaction -/
  | empty
  /-- for the state to be set -/
  | markingUp
  deriving DecidableEq

structure State where
  /-- `application_services_state` -/
  serviceState : Option ServiceState
  /-- `application_services_txns` -/
  txns : Finset ℕ
  /-- The last id taken for this service. -/
  lastId : ℕ
  sender : SenderPhase
  handlers : List HandlerPhase
  recoverers : List RecovererPhase
  /-- `service.id in self.recoverers` -/
  registered : Bool
  /-- The ids of the transactions the service has acknowledged, in order. -/
  acked : List ℕ
  /-- The acknowledged transactions that could not be deleted. -/
  undeleted : Finset ℕ

namespace State

variable (s : State)

/-- A service that is up, or not known to be down, with no transactions. -/
def startUp (serviceState : Option ServiceState) (lastId : ℕ) : State :=
  ⟨serviceState, ∅, lastId, .idle, [], [], false, [], ∅⟩

/-- A service that was down, for which the scheduler is about to start a recoverer. -/
def startDown (txns : Finset ℕ) (lastId : ℕ) : State :=
  ⟨some .down, txns, lastId, .idle, [.starting], [], false, [], ∅⟩

def isServiceUp : Bool := s.serviceState = some .up ∨ s.serviceState = none

theorem isServiceUp_iff : s.isServiceUp = true ↔ s.serviceState ≠ some .down := by
  rcases hs : s.serviceState with _ | _ | _ <;> simp [isServiceUp, hs]

def getOldestUnsentTxn : Option ℕ := if h : s.txns.Nonempty then some (s.txns.min' h) else none

/-- `run_in_background(self._on_txn_fail, service)` at the end of `send`. -/
def onTxnFail : State := { s with sender := .idle, handlers := s.handlers ++ [.settingDown] }

/-- `start_recoverer`, which raises if there is one. -/
def startRecoverer : State :=
  if s.registered then s else { s with registered := true, recoverers := s.recoverers ++ [.waiting] }

end State

inductive SenderAction where
  | send (hasEvents : Bool)
  | read
  | created (id : ℕ)
  | pushed (sent : Bool)
  | completed
  /-- the database call raises -/
  | raised

inductive HandlerAction where
  | markedDown
  | startRecoverer
  | raised

inductive RecovererAction where
  | retry
  | fetched
  | pushed (sent : Bool)
  | completed
  | onRecovered
  | markedUp
  | raised

inductive Action where
  | sender (a : SenderAction)
  | handler (i : ℕ) (a : HandlerAction)
  | recoverer (i : ℕ) (a : RecovererAction)

/-- `_TransactionController.send`.  The sequence of ids is shared by all services. -/
def senderStep (s : State) : SenderPhase → SenderAction → Option State
  | .idle, .send hasEvents => some { s with sender := .reading hasEvents }
  | .reading hasEvents, .read =>
    -- there is no transaction for what is only sent to a service that is up
    if !s.isServiceUp && !hasEvents then some { s with sender := .idle }
    else some { s with sender := .creating s.isServiceUp }
  | .reading _, .raised => some s.onTxnFail
  | .creating serviceIsUp, .created id =>
    if s.lastId < id then
      some { s with
        txns := insert id s.txns
        lastId := id
        sender := if serviceIsUp then .sending id else .idle }
    else none
  | .creating _, .raised => some s.onTxnFail
  | .sending id, .pushed true => some { s with acked := s.acked ++ [id], sender := .completing id }
  | .sending _, .pushed false => some s.onTxnFail
  | .completing id, .completed => some { s with txns := s.txns.erase id, sender := .idle }
  | .completing id, .raised => some { s.onTxnFail with undeleted := insert id s.undeleted }
  | _, _ => none

/-- `_on_txn_fail` -/
def handlerStep (s : State) (i : ℕ) : HandlerPhase → HandlerAction → Option State
  | .settingDown, .markedDown =>
    some { s with serviceState := some .down, handlers := s.handlers.set i .starting }
  | .settingDown, .raised => some { s with handlers := s.handlers.eraseIdx i }
  | .starting, .startRecoverer => some { s with handlers := s.handlers.eraseIdx i }.startRecoverer
  | _, _ => none

/-- `_Recoverer.retry`, `on_recovered` -/
def recovererStep (s : State) (i : ℕ) : RecovererPhase → RecovererAction → Option State
  | .waiting, .retry => some { s with recoverers := s.recoverers.set i .fetching }
  | .fetching, .fetched =>
    let phase := match s.getOldestUnsentTxn with
      | some id => .sending id
      | none => .empty
    some { s with recoverers := s.recoverers.set i phase }
  | .fetching, .raised => some { s with recoverers := s.recoverers.set i .waiting }
  | .sending id, .pushed true =>
    some { s with acked := s.acked ++ [id], recoverers := s.recoverers.set i (.completing id) }
  | .sending _, .pushed false => some { s with recoverers := s.recoverers.set i .waiting }
  | .completing id, .completed =>
    some { s with txns := s.txns.erase id, recoverers := s.recoverers.set i .fetching }
  | .completing id, .raised =>
    some { s with undeleted := insert id s.undeleted, recoverers := s.recoverers.set i .waiting }
  | .empty, .onRecovered =>
    -- `self.recoverers.pop` raises when there is none
    if s.registered then some { s with registered := false, recoverers := s.recoverers.set i .markingUp }
    else some { s with recoverers := s.recoverers.set i .waiting }
  | .markingUp, .markedUp =>
    some { s with serviceState := some .up, recoverers := s.recoverers.eraseIdx i }
  | .markingUp, .raised => some { s with recoverers := s.recoverers.set i .waiting }
  | _, _ => none

def step (s : State) : Action → Option State
  | .sender a => senderStep s s.sender a
  | .handler i a => s.handlers[i]?.bind fun phase => handlerStep s i phase a
  | .recoverer i a => s.recoverers[i]?.bind fun phase => recovererStep s i phase a

def run (s : State) : List Action → Option State := List.foldlM step s

/-! ## The steps, case by case -/

/-- What `senderStep` can do. -/
inductive SenderStep (s : State) : SenderPhase → SenderAction → State → Prop
  | send (hasEvents : Bool) : SenderStep s .idle (.send hasEvents) { s with sender := .reading hasEvents }
  | nothing {hasEvents} : SenderStep s (.reading hasEvents) .read { s with sender := .idle }
  | read {hasEvents} : SenderStep s (.reading hasEvents) .read { s with sender := .creating s.isServiceUp }
  | readRaised {hasEvents} : SenderStep s (.reading hasEvents) .raised s.onTxnFail
  | created {serviceIsUp id} (hid : s.lastId < id) : SenderStep s (.creating serviceIsUp) (.created id)
      { s with txns := insert id s.txns, lastId := id, sender := if serviceIsUp then .sending id else .idle }
  | createRaised {serviceIsUp} : SenderStep s (.creating serviceIsUp) .raised s.onTxnFail
  | pushed {id} : SenderStep s (.sending id) (.pushed true)
      { s with acked := s.acked ++ [id], sender := .completing id }
  | refused {id} : SenderStep s (.sending id) (.pushed false) s.onTxnFail
  | completed {id} : SenderStep s (.completing id) .completed { s with txns := s.txns.erase id, sender := .idle }
  | completeRaised {id} : SenderStep s (.completing id) .raised
      { s.onTxnFail with undeleted := insert id s.undeleted }

variable {s s' : State}

theorem senderStep_cases {p : SenderPhase} {a : SenderAction} (h : senderStep s p a = some s') :
    SenderStep s p a s' := by
  unfold senderStep at h
  split at h
  case h_2 => split_ifs at h <;> cases h <;> constructor
  case h_4 =>
    obtain ⟨hid, rfl⟩ := ite_some_none_eq_some.mp h
    exact .created hid
  all_goals cases h
  all_goals constructor

/-- What `handlerStep` can do. -/
inductive HandlerStep (s : State) (i : ℕ) : HandlerPhase → HandlerAction → State → Prop
  | markedDown : HandlerStep s i .settingDown .markedDown
      { s with serviceState := some .down, handlers := s.handlers.set i .starting }
  | raised : HandlerStep s i .settingDown .raised { s with handlers := s.handlers.eraseIdx i }
  | startRecoverer : HandlerStep s i .starting .startRecoverer
      { s with handlers := s.handlers.eraseIdx i }.startRecoverer

variable {i : ℕ}

theorem handlerStep_cases {p : HandlerPhase} {a : HandlerAction}
    (h : handlerStep s i p a = some s') : HandlerStep s i p a s' := by
  unfold handlerStep at h
  split at h <;> cases h <;> constructor

/-- What `recovererStep` can do. -/
inductive RecovererStep (s : State) (i : ℕ) : RecovererPhase → RecovererAction → State → Prop
  | retry : RecovererStep s i .waiting .retry { s with recoverers := s.recoverers.set i .fetching }
  | found (hne : s.txns.Nonempty) : RecovererStep s i .fetching .fetched
      { s with recoverers := s.recoverers.set i (.sending (s.txns.min' hne)) }
  | noneFound (hempty : s.txns = ∅) : RecovererStep s i .fetching .fetched
      { s with recoverers := s.recoverers.set i .empty }
  | fetchRaised : RecovererStep s i .fetching .raised { s with recoverers := s.recoverers.set i .waiting }
  | pushed {id} : RecovererStep s i (.sending id) (.pushed true)
      { s with acked := s.acked ++ [id], recoverers := s.recoverers.set i (.completing id) }
  | refused {id} : RecovererStep s i (.sending id) (.pushed false)
      { s with recoverers := s.recoverers.set i .waiting }
  | completed {id} : RecovererStep s i (.completing id) .completed
      { s with txns := s.txns.erase id, recoverers := s.recoverers.set i .fetching }
  | completeRaised {id} : RecovererStep s i (.completing id) .raised
      { s with undeleted := insert id s.undeleted, recoverers := s.recoverers.set i .waiting }
  | onRecovered (hreg : s.registered = true) : RecovererStep s i .empty .onRecovered
      { s with registered := false, recoverers := s.recoverers.set i .markingUp }
  | unregistered (hreg : ¬ s.registered = true) : RecovererStep s i .empty .onRecovered
      { s with recoverers := s.recoverers.set i .waiting }
  | markedUp : RecovererStep s i .markingUp .markedUp
      { s with serviceState := some .up, recoverers := s.recoverers.eraseIdx i }
  | markRaised : RecovererStep s i .markingUp .raised { s with recoverers := s.recoverers.set i .waiting }

theorem recovererStep_cases {p : RecovererPhase} {a : RecovererAction}
    (h : recovererStep s i p a = some s') : RecovererStep s i p a s' := by
  unfold recovererStep at h
  split at h
  case h_2 =>
    cases h
    unfold State.getOldestUnsentTxn
    split_ifs with hne
    · exact .found hne
    · exact .noneFound (not_nonempty_iff_eq_empty.mp hne)
  case h_8 =>
    split_ifs at h with hreg
    · cases h
      exact .onRecovered hreg
    · cases h
      exact .unregistered hreg
  all_goals cases h
  all_goals constructor

/-! ## What is stored is taken care of -/

/-- A recoverer that has found nothing left to send, and has not yet marked the service as up. -/
def RecovererPhase.Ending (r : RecovererPhase) : Prop := r = .empty ∨ r = .markingUp

instance (r : RecovererPhase) : Decidable r.Ending := inferInstanceAs (Decidable (_ ∨ _))

/-- The transaction a send has stored and will push or delete. -/
def SenderPhase.owns : SenderPhase → Finset ℕ
  | .sending id => {id}
  | .completing id => {id}
  | _ => ∅

/-- A send is about to store its transaction. -/
def SenderPhase.Creating (p : SenderPhase) : Prop := ∃ serviceIsUp, p = .creating serviceIsUp

instance : (p : SenderPhase) → Decidable p.Creating
  | .creating serviceIsUp => .isTrue ⟨serviceIsUp, rfl⟩
  | .idle | .reading _ | .sending _ | .completing _ => .isFalse (by rintro ⟨_, h⟩; cases h)

/-- **No send stores its transaction while a recoverer is ending**: a send reads the state only while no recoverer is
ending, and a recoverer finds nothing left only while no send is between reading the state and storing.  And a service
can be marked as down. -/
def Undisturbed (s : State) : Action → Prop
  | .sender .read => ∀ r ∈ s.recoverers, ¬ r.Ending
  | .handler _ .raised => False
  | .recoverer _ .fetched => s.txns = ∅ → ¬ s.sender.Creating
  | _ => True

instance (s : State) (a : Action) : Decidable (Undisturbed s a) := by
  unfold Undisturbed
  split <;> infer_instance

def runUndisturbed (s : State) : List Action → Option State :=
  List.foldlM (fun s a => if Undisturbed s a then step s a else none) s

/-- What is stored is being sent, or a handler or a recoverer is there for it. -/
structure Kept (serviceState : Option ServiceState) (txns : Finset ℕ) (sender : SenderPhase)
    (handlers : List HandlerPhase) (recoverers : List RecovererPhase) (registered : Bool) : Prop where
  registered_live : registered = true → ∃ r ∈ recoverers, r ≠ .markingUp
  ending : ∀ r ∈ recoverers, r.Ending → txns = ∅ ∧ ¬ sender.Creating
  settled : handlers ≠ [] ∨ recoverers ≠ [] ∨
    (txns ⊆ sender.owns ∧ sender ≠ .creating false ∧ serviceState ≠ some .down)

def Inv (s : State) : Prop := Kept s.serviceState s.txns s.sender s.handlers s.recoverers s.registered

theorem startUp_inv {serviceState : Option ServiceState} (h : serviceState ≠ some .down) (lastId : ℕ) :
    Inv (.startUp serviceState lastId) :=
  ⟨nofun, nofun, .inr (.inr ⟨empty_subset _, nofun, h⟩)⟩

theorem startDown_inv (txns : Finset ℕ) (lastId : ℕ) : Inv (.startDown txns lastId) :=
  ⟨nofun, nofun, .inl (List.cons_ne_nil _ _)⟩

theorem set_ne_nil {α : Type} {l : List α} {x y : α} (hi : l[i]? = some x) : l.set i y ≠ [] := by
  intro hnil
  rw [List.set_eq_nil_iff] at hnil
  simp [hnil] at hi

section Steps

variable {serviceState : Option ServiceState} {txns : Finset ℕ} {sender : SenderPhase} {handlers : List HandlerPhase}
  {recoverers : List RecovererPhase} {registered : Bool}

variable (h : Kept serviceState txns sender handlers recoverers registered)
include h

theorem Kept.fail : Kept serviceState txns .idle (handlers ++ [.settingDown]) recoverers registered :=
  ⟨h.registered_live, fun r hr hend => ⟨(h.ending r hr hend).1, nofun⟩, .inl (by simp)⟩

theorem Kept.send_on {txns' : Finset ℕ}
    {sender' : SenderPhase} (htxns : txns' ⊆ txns) (howns : txns ⊆ sender.owns → txns' ⊆ sender'.owns)
    (hcreating : ¬ sender'.Creating) : Kept serviceState txns' sender' handlers recoverers registered where
  registered_live := h.registered_live
  ending r hr hend := ⟨subset_empty.mp ((h.ending r hr hend).1 ▸ htxns), hcreating⟩
  settled := h.settled.imp_right (Or.imp_right fun ⟨hsub, _, hup⟩ => ⟨howns hsub, fun hc => hcreating ⟨_, hc⟩, hup⟩)

theorem Kept.retry_on {txns' : Finset ℕ} {i : ℕ} {p q : RecovererPhase} (hi : recoverers[i]? = some p)
    (htxns : txns' ⊆ txns) (hq : q ≠ .markingUp) (hending : q.Ending → txns' = ∅ ∧ ¬ sender.Creating) :
    Kept serviceState txns' sender handlers (recoverers.set i q) registered where
  registered_live _ := ⟨q, List.mem_set (List.getElem?_eq_some_iff.mp hi).1 q, hq⟩
  ending r hr hend := by
    rcases List.mem_or_eq_of_mem_set hr with hr | rfl
    · obtain ⟨hempty, hcreating⟩ := h.ending r hr hend
      exact ⟨subset_empty.mp (hempty ▸ htxns), hcreating⟩
    · exact hending hend
  settled := .inr (.inl (set_ne_nil hi))

end Steps

theorem senderStep_inv (h : Inv s) {a : SenderAction} (hcalm : Undisturbed s (.sender a))
    (hstep : senderStep s s.sender a = some s') : Inv s' := by
  unfold Inv at h ⊢
  generalize s.sender = p at h hstep
  cases senderStep_cases hstep with
  | send | nothing | pushed => exact h.send_on subset_rfl id nofun
  | readRaised | createRaised | refused | completeRaised => exact h.fail
  | read =>
    have hlive := hcalm
    refine ⟨h.registered_live, fun r hr hend => absurd hend (hlive r hr), h.settled.imp_right (Or.imp_right ?_)⟩
    rintro ⟨hsub, _, hup⟩
    exact ⟨hsub, by simp [s.isServiceUp_iff.mpr hup], hup⟩
  | @created serviceIsUp id =>
    refine ⟨h.registered_live, fun r hr hend => absurd ⟨serviceIsUp, rfl⟩ (h.ending r hr hend).2,
      h.settled.imp_right (Or.imp_right ?_)⟩
    rintro ⟨hsub, hdown, hup⟩
    obtain rfl : serviceIsUp = true := by
      by_contra hne
      exact hdown (by rw [Bool.eq_false_iff.mpr hne])
    exact ⟨insert_subset_iff.mpr ⟨mem_singleton_self id, hsub.trans (empty_subset _)⟩, nofun, hup⟩
  | @completed id =>
    refine h.send_on (erase_subset _ _) (fun hsub => ?_) nofun
    exact (erase_subset_erase id hsub).trans (erase_singleton id).subset

theorem handlerStep_inv (h : Inv s) {p : HandlerPhase} (hi : s.handlers[i]? = some p)
    {a : HandlerAction} (hcalm : Undisturbed s (.handler i a)) (hstep : handlerStep s i p a = some s') : Inv s' := by
  cases handlerStep_cases hstep with
  | markedDown => exact ⟨h.registered_live, h.ending, .inl (set_ne_nil hi)⟩
  | raised => exact hcalm.elim
  | startRecoverer =>
    unfold State.startRecoverer
    split_ifs with hreg
    · obtain ⟨r, hr, _⟩ := h.registered_live hreg
      exact ⟨h.registered_live, h.ending, .inr (.inl (List.ne_nil_of_mem hr))⟩
    refine ⟨fun _ => ⟨.waiting, by simp, nofun⟩, forall_mem_snoc.mpr ⟨h.ending, fun hend => ?_⟩, .inr (.inl (by simp))⟩
    exact absurd hend (by decide)

theorem recovererStep_inv (h : Inv s) {p : RecovererPhase} (hi : s.recoverers[i]? = some p)
    {a : RecovererAction} (hcalm : Undisturbed s (.recoverer i a)) (hstep : recovererStep s i p a = some s') :
    Inv s' := by
  cases recovererStep_cases hstep with
  | retry | found | fetchRaised | pushed | refused | completeRaised | unregistered | markRaised =>
    exact h.retry_on hi subset_rfl nofun (by simp [RecovererPhase.Ending])
  | noneFound hempty => exact h.retry_on hi subset_rfl nofun fun _ => ⟨hempty, hcalm hempty⟩
  | completed => exact h.retry_on hi (erase_subset _ _) nofun (by simp [RecovererPhase.Ending])
  | onRecovered =>
    -- the recoverer leaves the table of recoverers
    refine ⟨nofun, fun r hr hend => ?_, .inr (.inl (set_ne_nil hi))⟩
    rcases List.mem_or_eq_of_mem_set hr with hr | rfl
    · exact h.ending r hr hend
    · exact h.ending _ (List.mem_of_getElem? hi) (.inl rfl)
  | markedUp =>
    obtain ⟨hempty, hcreating⟩ := h.ending _ (List.mem_of_getElem? hi) (.inr rfl)
    refine ⟨fun hreg => ?_, fun r hr hend => h.ending r (List.mem_of_mem_eraseIdx hr) hend, .inr (.inr ?_)⟩
    · obtain ⟨r, hr, hne⟩ := h.registered_live hreg
      obtain ⟨j, hj⟩ := List.getElem?_of_mem hr
      refine ⟨r, List.mem_eraseIdx_iff_getElem?.mpr ⟨j, ?_, hj⟩, hne⟩
      rintro rfl
      exact hne (some.inj (hj.symm.trans hi))
    · exact ⟨hempty ▸ empty_subset _, fun hc => hcreating ⟨_, hc⟩, nofun⟩

theorem step_inv (h : Inv s) {a : Action} (hcalm : Undisturbed s a) (hstep : step s a = some s') : Inv s' := by
  cases a with
  | sender a => exact senderStep_inv h hcalm hstep
  | handler i a =>
    obtain ⟨p, hi, hstep⟩ := bind_eq_some_iff.mp hstep
    exact handlerStep_inv h hi hcalm hstep
  | recoverer i a =>
    obtain ⟨p, hi, hstep⟩ := bind_eq_some_iff.mp hstep
    exact recovererStep_inv h hi hcalm hstep

theorem runUndisturbed_inv (h : Inv s) {actions : List Action} (hrun : runUndisturbed s actions = some s') : Inv s' :=
  guarded_preserves (fun hs hcalm hstep => step_inv hs hcalm hstep) h hrun

def State.Starting (s : State) : Prop :=
  (∃ serviceState lastId, serviceState ≠ some .down ∧ s = .startUp serviceState lastId) ∨
    ∃ txns lastId, (∀ id ∈ txns, id ≤ lastId) ∧ s = .startDown txns lastId

/-- The service is left alone: no send, and so no handler of a failed one, and no recoverer is in progress. -/
def State.Alone (s : State) : Prop := s.sender = .idle ∧ s.handlers = [] ∧ s.recoverers = []

/-- **A service that is left alone is up and has no stored transaction**, in every state of an undisturbed run. -/
theorem none_stranded {s s' : State} (hs : s.Starting) (actions : List Action)
    (hrun : runUndisturbed s actions = some s') (halone : s'.Alone) : s'.isServiceUp = true ∧ s'.txns = ∅ := by
  have hstart : Inv s := by
    rcases hs with ⟨serviceState, lastId, hne, rfl⟩ | ⟨txns, lastId, _, rfl⟩
    · exact startUp_inv hne lastId
    · exact startDown_inv txns lastId
  obtain ⟨hsender, hhandlers, hrecoverers⟩ := halone
  rcases (runUndisturbed_inv hstart hrun).settled with hne | hne | ⟨hsub, _, hup⟩
  · exact absurd hhandlers hne
  · exact absurd hrecoverers hne
  · rw [hsender] at hsub
    exact ⟨s'.isServiceUp_iff.mpr hup, subset_empty.mp hsub⟩

namespace Crossing

/-- A transaction fails, and a recoverer is started. -/
def failure : List Action :=
  [.sender (.send true), .sender .read, .sender (.created 1), .sender (.pushed false), .handler 0 .markedDown,
    .handler 0 .startRecoverer, .recoverer 0 .retry, .recoverer 0 .fetched, .recoverer 0 (.pushed true),
    .recoverer 0 .completed]

/-- The recoverer marks the service as up, and the next send reads that. -/
def recovery : List Action :=
  failure ++ [.recoverer 0 .fetched, .recoverer 0 .onRecovered, .recoverer 0 .markedUp, .sender (.send true),
    .sender .read, .sender (.created 2), .sender (.pushed true), .sender .completed]

theorem recovery_none_stranded : ∃ s, runUndisturbed (.startUp none 0) recovery = some s ∧ s.Alone ∧
    s.isServiceUp = true ∧ s.txns = ∅ := by
  refine ⟨_, rfl, ⟨rfl, rfl, rfl⟩, ?_⟩
  exact none_stranded (.inl ⟨none, 0, nofun, rfl⟩) recovery rfl ⟨rfl, rfl, rfl⟩

/-- The recoverer finds nothing left while a send has read that the service is down. -/
def crossing : List Action :=
  failure ++ [.recoverer 0 .fetched, .sender (.send true), .sender .read, .sender (.created 2),
    .recoverer 0 .onRecovered, .recoverer 0 .markedUp]

/-- **The transaction of that send is stranded**: the service is up, and nobody will send it. -/
theorem stranded : ∃ s, run (.startUp none 0) crossing = some s ∧ s.serviceState = some .up ∧ s.Alone ∧ s.txns = {2} :=
  ⟨_, rfl, rfl, ⟨rfl, rfl, rfl⟩, by decide⟩

end Crossing

end Synapse.AppService.Transactions
