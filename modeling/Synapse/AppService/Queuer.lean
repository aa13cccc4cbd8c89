import Mathlib.Data.Finset.Basic

/-!
# Synapse.AppService.Queuer — what is queued for application services

`ApplicationServiceScheduler.enqueue_for_appservice` and `_ServiceQueuer` of `synapse/appservice/scheduler.py`.  Code
between two `await`s is one step.

* `DeviceListUpdates`, `consolidate`: summaries of device-list changes, and how several become one.
* `Data`: what is queued, enqueued or handed over, of all four kinds.
* `State.turn`: a sender takes the next transaction from the queues.
* `step`, `run`: any interleaving of enqueues with the senders.
* `Calm`: no sender takes its next transaction while another service has device-list changes queued.
* `latest`, `mem_consolidate`: in a consolidated summary the latest change or departure of a user wins.
* **`calm_handed_once`**: in calm runs everything is handed over once and in order.
* `Cleared.summary_lost`: a run that is not calm.
-/

namespace Synapse.AppService

open List Function

/-! ## Device lists -/

structure DeviceListUpdates where
  changed : Finset String
  left : Finset String
  deriving DecidableEq

/-- `bool(self.changed or self.left)` -/
def DeviceListUpdates.isTrue (d : DeviceListUpdates) : Bool := d.changed ≠ ∅ ∨ d.left ≠ ∅

def addSummary (d summary : DeviceListUpdates) : DeviceListUpdates where
  changed := (d.changed ∪ summary.changed) \ summary.left
  left := (d.left \ summary.changed) ∪ summary.left

/-- `device_list_summary` -/
def consolidate (summaries : List DeviceListUpdates) : DeviceListUpdates := summaries.foldl addSummary ⟨∅, ∅⟩

/-- What the last summary that mentions the user says: `true` for a change, `false` for a departure. -/
def latest (user : String) (summaries : List DeviceListUpdates) : Option Bool :=
  summaries.foldl
    (fun before d => if user ∈ d.left then some false else if user ∈ d.changed then some true else before) none

/-- **The latest change or departure of a user wins.** -/
theorem mem_consolidate (user : String) (summaries : List DeviceListUpdates) :
    (user ∈ (consolidate summaries).changed ↔ latest user summaries = some true) ∧
      (user ∈ (consolidate summaries).left ↔ latest user summaries = some false) := by
  induction summaries using reverseRecOn with
  | nil => simp [consolidate, latest]
  | append_singleton summaries summary ih =>
    rw [consolidate, latest, foldl_append, foldl_append, ← consolidate, ← latest]
    by_cases hleft : user ∈ summary.left
    · simp [addSummary, hleft]
    · by_cases hchanged : user ∈ summary.changed
      · simp [addSummary, hleft, hchanged]
      · simpa [addSummary, hleft, hchanged] using ih

theorem isTrue_consolidate {summaries : List DeviceListUpdates} (h : ∀ d ∈ summaries, d.isTrue = true)
    (hne : summaries ≠ []) : (consolidate summaries).isTrue = true := by
  -- the last summary mentions a user, and nothing comes after it
  obtain ⟨before, d, rfl⟩ := eq_nil_or_concat' summaries |>.resolve_left hne
  have hd : d.isTrue = true := h d (by simp)
  have hlast : ∃ user, user ∈ d.left ∨ user ∈ d.changed := by
    simp only [DeviceListUpdates.isTrue, decide_eq_true_eq, ne_eq, ← Finset.nonempty_iff_ne_empty] at hd
    rcases hd with ⟨user, hu⟩ | ⟨user, hu⟩
    · exact ⟨user, .inr hu⟩
    · exact ⟨user, .inl hu⟩
  obtain ⟨user, hu⟩ := hlast
  have hc := mem_consolidate user (before ++ [d])
  simp only [DeviceListUpdates.isTrue, decide_eq_true_eq, ne_eq, ← Finset.nonempty_iff_ne_empty]
  by_cases hleft : user ∈ d.left
  · exact .inr ⟨user, hc.2.2 (by simp [latest, hleft])⟩
  · exact .inl ⟨user, hc.1.2 (by simp [latest, hleft, hu.resolve_left hleft])⟩

/-! ## The queues -/

/-- Persistent events, ephemeral events, to-device messages and device-list changes. -/
@[ext] structure Data (ε η τ : Type) where
  events : List ε
  ephemeral : List η
  toDeviceMessages : List τ
  summaries : List DeviceListUpdates

variable {ε η τ : Type}

namespace Data

def empty : Data ε η τ := ⟨[], [], [], []⟩

def append (d d' : Data ε η τ) : Data ε η τ :=
  ⟨d.events ++ d'.events, d.ephemeral ++ d'.ephemeral, d.toDeviceMessages ++ d'.toDeviceMessages,
    d.summaries ++ d'.summaries⟩

@[simp] theorem append_empty (d : Data ε η τ) : d.append empty = d := by
  ext1 <;> exact append_nil _

@[simp] theorem empty_append (d : Data ε η τ) : empty.append d = d := rfl

theorem append_assoc (d d' d'' : Data ε η τ) : (d.append d').append d'' = d.append (d'.append d'') := by
  ext1 <;> exact List.append_assoc _ _ _

def concat (ds : List (Data ε η τ)) : Data ε η τ := ds.foldr append empty

@[simp] theorem concat_nil : concat ([] : List (Data ε η τ)) = empty := rfl

@[simp] theorem concat_singleton (d : Data ε η τ) : concat [d] = d := append_empty d

theorem concat_append_singleton (ds : List (Data ε η τ)) (d : Data ε η τ) :
    concat (ds ++ [d]) = (concat ds).append d := by
  induction ds with
  | nil => exact append_empty d
  | cons d' ds ih =>
    show d'.append (concat (ds ++ [d])) = (d'.append (concat ds)).append d
    rw [ih, append_assoc]

/-- What a transaction takes: at most 100 of each kind, and all summaries. -/
def next (d : Data ε η τ) : Data ε η τ :=
  ⟨d.events.take 100, d.ephemeral.take 100, d.toDeviceMessages.take 100, d.summaries⟩

def rest (d : Data ε η τ) : Data ε η τ :=
  ⟨d.events.drop 100, d.ephemeral.drop 100, d.toDeviceMessages.drop 100, []⟩

@[simp] theorem rest_empty : (empty : Data ε η τ).rest = empty := rfl

theorem next_append_rest (d : Data ε η τ) : d.next.append d.rest = d := by
  ext1
  · exact take_append_drop 100 d.events
  · exact take_append_drop 100 d.ephemeral
  · exact take_append_drop 100 d.toDeviceMessages
  · exact append_nil d.summaries

def deviceListSummary (d : Data ε η τ) : DeviceListUpdates := consolidate d.summaries

def isEmpty (d : Data ε η τ) : Bool :=
  d.events.isEmpty && d.ephemeral.isEmpty && d.toDeviceMessages.isEmpty && !d.deviceListSummary.isTrue

def Telling (d : Data ε η τ) : Prop := ∀ summary ∈ d.summaries, summary.isTrue = true

theorem eq_empty_of_next_isEmpty {d : Data ε η τ} (hd : d.Telling) (h : d.next.isEmpty = true) : d = empty := by
  simp only [isEmpty, next, deviceListSummary, Bool.and_eq_true, Bool.not_eq_true', List.isEmpty_iff,
    take_eq_nil_iff, Nat.reduceEqDiff, false_or] at h
  obtain ⟨⟨⟨hevents, hephemeral⟩, htoDevice⟩, hsummary⟩ := h
  have hsummaries : d.summaries = [] := by
    by_contra hne
    exact absurd (isTrue_consolidate hd hne) (by simp [hsummary])
  ext1
  exacts [hevents, hephemeral, htoDevice, hsummaries]

end Data

/-- Where a run of `_send_request` waits. -/
inductive Sender (ε η τ : Type) where
  /-- for the one-time key counts and fallback keys -/
  | computing (txn : Data ε η τ)
  /-- for the transaction controller -/
  | sending

/-- What a sender has taken and not handed over. -/
def Sender.taken : Sender ε η τ → Data ε η τ
  | .computing txn => txn
  | .sending => .empty

/-- `_ServiceQueuer`, by service id, with its senders and a record of what went in and out. -/
structure State (ε η τ : Type) where
  queued : String → Data ε η τ
  requestsInFlight : Finset String
  senders : String → List (Sender ε η τ)
  enqueued : String → Data ε η τ
  handed : String → List (Data ε η τ)

namespace State

def start : State ε η τ := ⟨fun _ => .empty, ∅, fun _ => [], fun _ => .empty, fun _ => []⟩

variable (extensions : String → Bool) (s : State ε η τ) (service : String)

/-- `txn_ctrl.send(service, …)` is called. -/
def hand (txn : Data ε η τ) : State ε η τ :=
  { s with handed := update s.handed service (s.handed service ++ [txn]) }

/-- The queues after a transaction was taken from them.  The summaries of all services are cleared. -/
def drained : State ε η τ :=
  { s with
    queued := fun x => if x = service then (s.queued x).rest else { s.queued x with summaries := [] } }

/-- A turn of the loop of `_send_request(service)`, up to its next `await`.  `extensions` tells for which services the
key counts are computed. -/
def turn : State ε η τ × Option (Sender ε η τ) :=
  let txn := (s.queued service).next
  let s := s.drained service
  if txn.isEmpty then ({ s with requestsInFlight := s.requestsInFlight.erase service }, none)
  else if extensions service then (s, some (.computing txn))
  else (s.hand service txn, some .sending)

def startBackgroundRequest : State ε η τ :=
  if service ∈ s.requestsInFlight then s
  else
    let (s, sender) := { s with requestsInFlight := insert service s.requestsInFlight }.turn extensions service
    { s with senders := update s.senders service (s.senders service ++ sender.toList) }

def enqueueForAppservice (events : List ε) (ephemeral : List η) (toDeviceMessages : List τ)
    (deviceListSummary : Option DeviceListUpdates) : State ε η τ :=
  let data : Data ε η τ := ⟨events, ephemeral, toDeviceMessages, deviceListSummary.toList.filter (·.isTrue)⟩
  if events.isEmpty && ephemeral.isEmpty && toDeviceMessages.isEmpty && data.summaries.isEmpty then s
  else
    startBackgroundRequest extensions
      { s with
        queued := update s.queued service ((s.queued service).append data)
        enqueued := update s.enqueued service ((s.enqueued service).append data) } service

/-- The counts for sender `i` are there, and it calls the transaction controller. -/
def computed (i : ℕ) : State ε η τ :=
  match (s.senders service)[i]? with
  | some (.computing txn) =>
    { s.hand service txn with senders := update s.senders service ((s.senders service).set i .sending) }
  | _ => s

/-- Computing the counts raises, which ends sender `i`. -/
def computeFailed (i : ℕ) : State ε η τ :=
  match (s.senders service)[i]? with
  | some (.computing _) =>
    { s with
      senders := update s.senders service ((s.senders service).eraseIdx i)
      requestsInFlight := s.requestsInFlight.erase service }
  | _ => s

/-- The transaction controller returns or raises, and sender `i` goes on. -/
def sent (i : ℕ) : State ε η τ :=
  match (s.senders service)[i]? with
  | some .sending =>
    let (s, sender) := s.turn extensions service
    let senders := match sender with
      | some sender => (s.senders service).set i sender
      | none => (s.senders service).eraseIdx i
    { s with senders := update s.senders service senders }
  | _ => s

end State

inductive Action (ε η τ : Type) where
  | enqueue (service : String) (events : List ε) (ephemeral : List η) (toDeviceMessages : List τ)
      (deviceListSummary : Option DeviceListUpdates)
  | computed (service : String) (i : ℕ)
  | computeFailed (service : String) (i : ℕ)
  | sent (service : String) (i : ℕ)

section Runs

variable (extensions : String → Bool)

def step (s : State ε η τ) : Action ε η τ → State ε η τ
  | .enqueue service events ephemeral toDeviceMessages deviceListSummary =>
    s.enqueueForAppservice extensions service events ephemeral toDeviceMessages deviceListSummary
  | .computed service i => s.computed service i
  | .computeFailed service i => s.computeFailed service i
  | .sent service i => s.sent extensions service i

def run (s : State ε η τ) (actions : List (Action ε η τ)) : State ε η τ := actions.foldl (step extensions) s

/-- **No sender takes its next transaction while another service has device-list changes queued**, and the counts can be
computed.  An enqueue that carries nothing starts no sender. -/
def Calm (s : State ε η τ) : Action ε η τ → Prop
  | .enqueue service events ephemeral toDeviceMessages deviceListSummary =>
    events ≠ [] ∨ ephemeral ≠ [] ∨ toDeviceMessages ≠ [] ∨ (∃ summary ∈ deviceListSummary, summary.isTrue) →
      service ∉ s.requestsInFlight → ∀ x, x ≠ service → (s.queued x).summaries = []
  | .computed _ _ => True
  | .computeFailed _ _ => False
  | .sent service _ => ∀ x, x ≠ service → (s.queued x).summaries = []

def CalmRun (s : State ε η τ) : List (Action ε η τ) → Prop
  | [] => True
  | a :: actions => Calm s a ∧ CalmRun (step extensions s a) actions

end Runs

/-! ## Everything is handed over once -/

/-- How a service is served.  What was enqueued is what was handed over, then what the sender has taken, then what is
queued; and there is one sender exactly while the service is in flight, without which nothing is queued. -/
structure Served (queued enqueued : Data ε η τ) (inFlight : Prop) (senders : List (Sender ε η τ))
    (handed : List (Data ε η τ)) : Prop where
  account : ((Data.concat handed).append (Data.concat (senders.map Sender.taken))).append queued = enqueued
  telling : queued.Telling
  sender : (inFlight ∧ ∃ sender, senders = [sender]) ∨ (¬ inFlight ∧ senders = [] ∧ queued = .empty)

def Inv (s : State ε η τ) : Prop :=
  ∀ x, Served (s.queued x) (s.enqueued x) (x ∈ s.requestsInFlight) (s.senders x) (s.handed x)

theorem start_inv : Inv (State.start : State ε η τ) := fun _ =>
  ⟨rfl, by simp [Data.Telling, State.start, Data.empty], .inr ⟨by simp [State.start], rfl, rfl⟩⟩

section Runs

variable (extensions : String → Bool) {s : State ε η τ} {service x : String}

theorem turn_other (hx : x ≠ service) (hcalm : (s.queued x).summaries = []) :
    (s.turn extensions service).1.queued x = s.queued x ∧
      (x ∈ (s.turn extensions service).1.requestsInFlight ↔ x ∈ s.requestsInFlight) ∧
      (s.turn extensions service).1.handed x = s.handed x := by
  have hqueued : (s.drained service).queued x = s.queued x := by
    refine (if_neg hx).trans ?_
    rw [← hcalm]
  unfold State.turn
  simp only []
  split_ifs with hempty hext
  · exact ⟨hqueued, by simp [State.drained, hx], rfl⟩
  · exact ⟨hqueued, Iff.rfl, rfl⟩
  · exact ⟨hqueued, Iff.rfl, update_of_ne hx _ _⟩

theorem turn_served (hflight : service ∈ s.requestsInFlight) (htelling : (s.queued service).Telling)
    (haccount : (Data.concat (s.handed service)).append (s.queued service) = s.enqueued service) :
    let t := s.turn extensions service
    Served (t.1.queued service) (s.enqueued service) (service ∈ t.1.requestsInFlight) t.2.toList
      (t.1.handed service) := by
  have hqueued : (s.drained service).queued service = (s.queued service).rest := if_pos rfl
  have hrest : ((s.queued service).rest).Telling := by simp [Data.Telling, Data.rest]
  unfold State.turn
  simp only []
  split_ifs with hempty hext
  · have hnil := Data.eq_empty_of_next_isEmpty htelling hempty
    refine ⟨?_, hqueued ▸ hrest, .inr ⟨by simp, rfl, by rw [hqueued, hnil]; rfl⟩⟩
    show ((Data.concat (s.handed service)).append (Data.concat [])).append ((s.drained service).queued service) = _
    rw [hqueued, ← haccount, hnil]
    simp
  · refine ⟨?_, hqueued ▸ hrest, .inl ⟨hflight, _, rfl⟩⟩
    show ((Data.concat (s.handed service)).append (Data.concat [(s.queued service).next])).append
      ((s.drained service).queued service) = _
    rw [hqueued, ← haccount, Data.append_assoc, Data.concat_singleton, Data.next_append_rest]
  · refine ⟨?_, hqueued ▸ hrest, .inl ⟨hflight, _, rfl⟩⟩
    show ((Data.concat (update s.handed service (s.handed service ++ [(s.queued service).next]) service)).append
      (Data.concat [Data.empty])).append ((s.drained service).queued service) = _
    rw [hqueued, ← haccount, update_self, Data.concat_append_singleton, Data.concat_singleton,
      Data.append_empty, Data.append_assoc, Data.next_append_rest]

theorem served_other {t : State ε η τ} (hx : x ≠ service) {senders : List (Sender ε η τ)}
    (h : Served (s.queued x) (s.enqueued x) (x ∈ s.requestsInFlight) (s.senders x) (s.handed x))
    (ht : t.queued x = s.queued x ∧ (x ∈ t.requestsInFlight ↔ x ∈ s.requestsInFlight) ∧ t.handed x = s.handed x)
    (henqueued : t.enqueued = s.enqueued) (hsenders : t.senders = s.senders) :
    Served (t.queued x) (t.enqueued x) (x ∈ t.requestsInFlight) (update t.senders service senders x)
      (t.handed x) := by
  rw [update_of_ne hx, ht.1, ht.2.1, ht.2.2, henqueued, hsenders]
  exact h

theorem turn_enqueued (s : State ε η τ) (service : String) :
    (s.turn extensions service).1.enqueued = s.enqueued ∧ (s.turn extensions service).1.senders = s.senders := by
  unfold State.turn
  simp only []
  split_ifs <;> exact ⟨rfl, rfl⟩

theorem startBackgroundRequest_inv
    (hcalm : service ∉ s.requestsInFlight → ∀ x, x ≠ service → (s.queued x).summaries = []) (hother : ∀ x, x ≠ service →
      Served (s.queued x) (s.enqueued x) (x ∈ s.requestsInFlight) (s.senders x) (s.handed x))
    (htelling : (s.queued service).Telling)
    (haccount : ((Data.concat (s.handed service)).append (Data.concat ((s.senders service).map Sender.taken))).append
      (s.queued service) = s.enqueued service)
    (hsender : (service ∈ s.requestsInFlight ∧ ∃ sender, s.senders service = [sender]) ∨
      (service ∉ s.requestsInFlight ∧ s.senders service = [])) :
    Inv (s.startBackgroundRequest extensions service) := by
  intro x
  unfold State.startBackgroundRequest
  split_ifs with hflight
  · by_cases hx : x = service
    · subst hx
      exact ⟨haccount, htelling, .inl ⟨hflight, (hsender.resolve_right fun h => h.1 hflight).2⟩⟩
    · exact hother x hx
  have hnone : s.senders service = [] := (hsender.resolve_left fun h => hflight h.1).2
  have hkept := turn_enqueued extensions { s with requestsInFlight := insert service s.requestsInFlight } service
  by_cases hx : x = service
  · subst hx
    have hturn := turn_served extensions (s := { s with requestsInFlight := insert x s.requestsInFlight })
      (Finset.mem_insert_self x _) htelling (by simpa [hnone] using haccount)
    simp only [update_self]
    rw [hkept.1, hkept.2, hnone]
    exact hturn
  · have hturn := turn_other extensions (s := { s with requestsInFlight := insert service s.requestsInFlight }) hx
      (hcalm hflight x hx)
    refine served_other hx (hother x hx) ⟨hturn.1, hturn.2.1.trans ?_, hturn.2.2⟩ hkept.1 hkept.2
    simp [hx]

theorem enqueueForAppservice_inv (h : Inv s) (events : List ε)
    (ephemeral : List η) (toDeviceMessages : List τ) (deviceListSummary : Option DeviceListUpdates)
    (hcalm : Calm s (.enqueue service events ephemeral toDeviceMessages deviceListSummary)) :
    Inv (s.enqueueForAppservice extensions service events ephemeral toDeviceMessages deviceListSummary) := by
  unfold State.enqueueForAppservice
  simp only []
  split_ifs with hnone
  · exact h
  have hcarries : events ≠ [] ∨ ephemeral ≠ [] ∨ toDeviceMessages ≠ [] ∨ ∃ summary ∈ deviceListSummary, summary.isTrue := by
    simp only [Bool.and_eq_true, List.isEmpty_iff, filter_eq_nil_iff, Option.mem_toList] at hnone
    by_contra hempty
    push Not at hempty
    exact hnone ⟨⟨⟨hempty.1, hempty.2.1⟩, hempty.2.2.1⟩, fun summary hmem => by simpa using hempty.2.2.2 summary hmem⟩
  have hs := h service
  refine startBackgroundRequest_inv extensions (fun hflight x hx => ?_) (fun x hx => ?_) ?_ ?_ ?_
  · simpa only [update_of_ne hx] using hcalm hcarries hflight x hx
  · simpa only [update_of_ne hx] using h x
  · intro summary hmem
    simp only [update_self, Data.append, mem_append, mem_filter] at hmem
    exact hmem.elim (hs.telling summary) fun hnew => hnew.2
  · simp only [update_self]
    rw [← hs.account, Data.append_assoc _ (s.queued service)]
  · exact hs.sender.imp id fun hidle => ⟨hidle.1, hidle.2.1⟩

theorem Served.eq_singleton {queued enqueued : Data ε η τ} {inFlight : Prop} {senders : List (Sender ε η τ)}
    {handed : List (Data ε η τ)} (h : Served queued enqueued inFlight senders handed) {i : ℕ} {sender : Sender ε η τ}
    (hi : senders[i]? = some sender) : inFlight ∧ i = 0 ∧ senders = [sender] := by
  rcases h.sender with ⟨hflight, only, rfl⟩ | ⟨_, rfl, _⟩
  · cases i with
    | zero =>
      obtain rfl : only = sender := by simpa using hi
      exact ⟨hflight, rfl, rfl⟩
    | succ i => simp at hi
  · simp at hi

theorem computed_inv (h : Inv s) (service : String) (i : ℕ) : Inv (s.computed service i) := by
  unfold State.computed
  split
  case h_2 => exact h
  case h_1 txn hi =>
    obtain ⟨hflight, rfl, hsenders⟩ := (h service).eq_singleton hi
    intro x
    by_cases hx : x = service
    · subst hx
      simp only [State.hand, update_self, hsenders]
      refine ⟨?_, (h x).telling, .inl ⟨hflight, .sending, rfl⟩⟩
      have haccount := (h x).account
      rw [hsenders] at haccount
      rw [← haccount, Data.concat_append_singleton]
      simp [Sender.taken]
    · exact served_other (t := s.hand service txn) hx (h x) ⟨rfl, Iff.rfl, update_of_ne hx _ _⟩ rfl rfl

theorem sent_inv (h : Inv s) (i : ℕ)
    (hcalm : ∀ x, x ≠ service → (s.queued x).summaries = []) : Inv (s.sent extensions service i) := by
  unfold State.sent
  split
  case h_2 => exact h
  case h_1 hi =>
    obtain ⟨hflight, rfl, hsenders⟩ := (h service).eq_singleton hi
    have hkept := turn_enqueued extensions s service
    intro x
    by_cases hx : x = service
    · subst hx
      have haccount := (h x).account
      rw [hsenders] at haccount
      have hturn := turn_served extensions hflight (h x).telling (by simpa [Sender.taken] using haccount)
      simp only [update_self]
      rw [hkept.1, hkept.2, hsenders]
      cases hnext : (s.turn extensions x).2 <;> simpa [hnext] using hturn
    · exact served_other hx (h x) (turn_other extensions hx (hcalm x hx)) hkept.1 hkept.2

theorem step_inv (h : Inv s) (a : Action ε η τ) (hcalm : Calm s a) : Inv (step extensions s a) := by
  cases a with
  | enqueue service events ephemeral toDeviceMessages deviceListSummary =>
    exact enqueueForAppservice_inv extensions h events ephemeral toDeviceMessages deviceListSummary hcalm
  | computed service i => exact computed_inv h service i
  | computeFailed service i => exact hcalm.elim
  | sent service i => exact sent_inv extensions h i hcalm

theorem run_inv (h : Inv s) (actions : List (Action ε η τ)) (hcalm : CalmRun extensions s actions) :
    Inv (run extensions s actions) := by
  induction actions generalizing s with
  | nil => exact h
  | cons a actions ih => exact ih (step_inv extensions h a hcalm.1) hcalm.2

/-- What holds for a service in every state: what was enqueued was handed over, once and in order, up to what a sender
has taken and what is queued; there is one sender at most, and without a sender nothing is left; and the sender hands over
what it has taken, and then takes the head of the queues. -/
structure HandedOnce (s : State ε η τ) (x : String) : Prop where
  once_in_order : ((Data.concat (s.handed x)).append (Data.concat ((s.senders x).map Sender.taken))).append
    (s.queued x) = s.enqueued x
  one_sender : (s.senders x).length ≤ 1
  all_handed : s.senders x = [] → Data.concat (s.handed x) = s.enqueued x
  hands_over : ∀ txn, s.senders x = [.computing txn] → (step extensions s (.computed x 0)).handed x = s.handed x ++ [txn]
  takes_next : s.senders x = [.sending] → (step extensions s (.sent x 0)).queued x = (s.queued x).rest

theorem Served.handedOnce (h : Served (s.queued x) (s.enqueued x) (x ∈ s.requestsInFlight) (s.senders x) (s.handed x)) :
    HandedOnce extensions s x where
  once_in_order := h.account
  one_sender := by
    rcases h.sender with ⟨_, sender, hs⟩ | ⟨_, hs, _⟩
    · simp [hs]
    · simp [hs]
  all_handed hs := by
    have hqueued : s.queued x = .empty := by
      rcases h.sender with ⟨_, sender, hs'⟩ | ⟨_, _, hqueued⟩
      · simp [hs] at hs'
      · exact hqueued
    simpa [hs, hqueued] using h.account
  hands_over txn hs := by
    simp [step, State.computed, State.hand, hs]
  takes_next hs := by
    simp only [step, State.sent, hs, getElem?_cons_zero, State.turn]
    split_ifs <;> exact if_pos rfl

/-- **In every state of a calm run, everything enqueued for a service is handed over for that service, once and in
order**, and in the summary of a transaction the latest change or departure of a user wins. -/
theorem calm_handed_once (actions : List (Action ε η τ)) (hcalm : CalmRun extensions State.start actions) (x : String) :
    HandedOnce extensions (run extensions State.start actions) x ∧
      ∀ txn ∈ (run extensions State.start actions).handed x, ∀ user,
        (user ∈ txn.deviceListSummary.changed ↔ latest user txn.summaries = some true) ∧
          (user ∈ txn.deviceListSummary.left ↔ latest user txn.summaries = some false) :=
  ⟨(run_inv extensions start_inv actions hcalm x).handedOnce extensions,
    fun txn _ user => mem_consolidate user txn.summaries⟩

end Runs

def Action.service : Action ε η τ → String
  | .enqueue service _ _ _ _ => service
  | .computed service _ => service
  | .computeFailed service _ => service
  | .sent service _ => service

theorem turn_summaries (extensions : String → Bool) (s : State ε η τ) {service x : String} (hx : x ≠ service) :
    ((s.turn extensions service).1.queued x).summaries = [] := by
  have hdrained : ((s.drained service).queued x).summaries = [] := congrArg Data.summaries (if_neg hx)
  unfold State.turn
  simp only []
  split_ifs <;> exact hdrained

theorem step_summaries {extensions : String → Bool} {s : State ε η τ} (a : Action ε η τ) {x : String}
    (hx : x ≠ a.service) (h : (s.queued x).summaries = []) : ((step extensions s a).queued x).summaries = [] := by
  cases a with
  | enqueue service events ephemeral toDeviceMessages deviceListSummary =>
    have hadded : ∀ queued, (update s.queued service queued x).summaries = [] := fun queued =>
      (congrArg Data.summaries (update_of_ne hx _ _)).trans h
    simp only [step, State.enqueueForAppservice, State.startBackgroundRequest]
    split_ifs
    · exact h
    · exact hadded _
    · exact turn_summaries extensions _ hx
  | computed service i =>
    simp only [step, State.computed]
    split <;> exact h
  | computeFailed service i =>
    simp only [step, State.computeFailed]
    split <;> exact h
  | sent service i =>
    simp only [step, State.sent]
    split
    · exact turn_summaries extensions _ hx
    · exact h

namespace Cleared

/-- Events and a device-list change for one service, sent before the other service has anything. -/
def inTurn : List (Action ℕ ℕ ℕ) :=
  [.enqueue "b" [1] [] [] none, .enqueue "b" [] [] [] (some ⟨{"@user"}, ∅⟩), .sent "b" 0, .enqueue "a" [2] [] [] none,
    .sent "b" 0]

theorem inTurn_calm : CalmRun (fun _ => false) State.start inTurn := by
  refine ⟨fun _ _ x _ => rfl, fun _ hflight => absurd (by decide +kernel) hflight, fun x hx => ?_, fun _ _ x _ => ?_,
    fun x hx => ?_, trivial⟩
  · exact step_summaries _ hx (step_summaries _ hx rfl)
  · by_cases hb : x = "b"
    · subst hb
      rfl
    · exact step_summaries _ hb (step_summaries _ hb (step_summaries _ hb rfl))
  · by_cases ha : x = "a"
    · subst ha
      rfl
    · exact step_summaries _ ha (step_summaries _ hx (step_summaries _ hx (step_summaries _ hx rfl)))

theorem inTurn_handed_once : CalmRun (fun _ => false) State.start inTurn ∧
      HandedOnce (fun _ => false) (run (fun _ => false) State.start inTurn) "b" :=
  ⟨inTurn_calm, (calm_handed_once (fun _ => false) inTurn inTurn_calm "b").1⟩

/-- The other service is sent something while the device-list change is queued. -/
def overlapping : List (Action ℕ ℕ ℕ) :=
  [.enqueue "b" [1] [] [] none, .enqueue "b" [] [] [] (some ⟨{"@user"}, ∅⟩), .enqueue "a" [2] [] [] none, .sent "b" 0,
    .sent "a" 0]

/-- **The device-list change is lost**: no sender is left, nothing is queued, and only the event was handed over. -/
theorem summary_lost : (run (fun _ => false) State.start overlapping).senders "b" = [] ∧
      (run (fun _ => false) State.start overlapping).queued "b" = .empty ∧
      (run (fun _ => false) State.start overlapping).handed "b" = [⟨[1], [], [], []⟩] ∧
      (run (fun _ => false) State.start overlapping).enqueued "b" = ⟨[1], [], [], [⟨{"@user"}, ∅⟩]⟩ := by
  refine ⟨?_, ?_, ?_, ?_⟩ <;> rfl

end Cleared

end Synapse.AppService
