import Synapse.Lib.Runs

/-!
# Synapse.Locks.Store — locks between worker processes

`LockStore.try_acquire_lock` and `Lock` of `synapse/storage/databases/main/lock.py`, for one lock name and key: the
table `worker_locks` and the dicts of a process are kept by them.  A process is its instance id.  Tokens are numbered in
the order in which they get into the table; the clock is shared.  A database call and what runs after it are steps of
their own.

* `AttemptPhase`, `ReleasePhase`: where `_try_acquire_lock` and `release` wait.
* `step`, `run`: what processes do, and time that passes; `AttemptStep`: what attempts do, case by case.
* `Orderly`: a release forgets only its own lock, and a lock is not renewed behind the back of an attempt.
* `Inv`, `step_inv`: a lock that has not been released is in the table, or has timed out.
* **`acquire_exclusive`**: in orderly runs no attempt succeeds while another lock is held.
* `LateRelease.acquired_twice`: a run in which one does.
-/

namespace Synapse.Locks

open Lib List Option Function

def lockTimeoutMs : ℕ := 2 * 60 * 1000

/-- The row of `worker_locks`. -/
structure Row where
  instanceName : ℕ
  token : ℕ
  lastRenewedTs : ℕ

/-- Where the attempt of a process waits, while the key is in `_acquiring_locks`. -/
inductive AttemptPhase where
  /-- there is no attempt -/
  | idle
  /-- for `is_still_valid` of the live lock to read the table -/
  | validating (token : ℕ)
  /-- to go on with what has been read -/
  | validated (lastRenewedTs : Option ℕ)
  /-- for the row to be inserted -/
  | inserting (now : ℕ)
  /-- to go on with the lock -/
  | inserted (token : ℕ)

/-- Where `release` waits. -/
inductive ReleasePhase where
  /-- for the row to be deleted -/
  | deleting
  /-- to go on and forget the lock -/
  | deleted
  deriving DecidableEq

structure LockRecord where
  instanceName : ℕ
  /-- when it was last renewed -/
  renewed : ℕ
  /-- the row has been deleted by `release` -/
  released : Bool
  /-- `_looping_call` is running -/
  looping : Bool
  /-- `_dropped` -/
  dropped : Bool

structure State where
  clock : ℕ
  row : Option Row
  /-- the lock that each process has in `_live_lock_tokens` -/
  live : ℕ → Option ℕ
  attempts : ℕ → AttemptPhase
  /-- the locks by their tokens -/
  locks : List LockRecord
  /-- the calls of `_renew`, with the time each has taken -/
  renewals : List (ℕ × ℕ)
  releases : List (ℕ × ReleasePhase)

def State.start : State := ⟨0, none, fun _ => none, fun _ => .idle, [], [], []⟩

inductive AttemptAction where
  | readValidity
  | resume
  | insert
  | grant
  /-- the database call raises -/
  | raised

inductive Action where
  /-- time passes -/
  | tick (ms : ℕ)
  /-- `try_acquire_lock` of a process -/
  | tryAcquire (p : ℕ)
  | attempt (p : ℕ) (a : AttemptAction)
  /-- `_renew` is called for a lock -/
  | renew (token : ℕ)
  | renewed (token ts : ℕ)
  | renewRaises (token ts : ℕ)
  | release (token : ℕ)
  | delete (token : ℕ)
  | forget (token : ℕ)
  | releaseRaises (token : ℕ)

namespace State

variable (s : State)

def setAttempt (p : ℕ) (phase : AttemptPhase) : State := { s with attempts := update s.attempts p phase }

/-- The rest of `_try_acquire_lock` up to the query, when no live lock is valid. -/
def tryInsert (p : ℕ) : State := s.setAttempt p (.inserting s.clock)

/-- `self._clock.time_msec() - _LOCK_TIMEOUT_MS < last_renewed_ts` -/
def isValidAt (lastRenewedTs : ℕ) : Prop := s.clock < lastRenewedTs + lockTimeoutMs

instance (lastRenewedTs : ℕ) : Decidable (s.isValidAt lastRenewedTs) := inferInstanceAs (Decidable (_ < _))

/-- `INSERT ... ON CONFLICT DO UPDATE ... WHERE ...` changes the table. -/
def canInsert (p now : ℕ) : Prop :=
  ∀ r, s.row = some r → r.lastRenewedTs + lockTimeoutMs < now ∨ r.instanceName = p

instance (p now : ℕ) : Decidable (s.canInsert p now) :=
  match h : s.row with
  | none => .isTrue fun r hr => by rw [h] at hr; cases hr
  | some r =>
    decidable_of_iff (r.lastRenewedTs + lockTimeoutMs < now ∨ r.instanceName = p)
      ⟨fun hr r' hr' => by rw [h] at hr'; cases hr'; exact hr, fun hall => hall r h⟩

/-- The lock object exists: the attempt that has got the token has gone on. -/
def lockObject (token : ℕ) : Option LockRecord :=
  (s.locks[token]?).bind fun lock =>
    match s.attempts lock.instanceName with
    | .inserted t => if t = token then none else some lock
    | _ => some lock

def setLock (token : ℕ) (lock : LockRecord) : State := { s with locks := s.locks.set token lock }

/-- `UPDATE worker_locks SET last_renewed_ts = ? WHERE ... AND token = ?` -/
def write (token ts : ℕ) : State :=
  match s.row, s.locks[token]? with
  | some r, some lock =>
    if r.token = token then
      { s.setLock token { lock with renewed := max lock.renewed ts } with row := some { r with lastRenewedTs := ts } }
    else s
  | _, _ => s

end State

/-- `_try_acquire_lock`, after what it has waited for. -/
def attemptStep (s : State) (p : ℕ) : AttemptPhase → AttemptAction → Option State
  | .validating token, .readValidity =>
    -- `SELECT last_renewed_ts FROM worker_locks WHERE ... AND token = ?`
    some (s.setAttempt p (.validated ((s.row.filter fun r => r.token = token).map Row.lastRenewedTs)))
  | .validated (some ts), .resume => if s.isValidAt ts then some (s.setAttempt p .idle) else some (s.tryInsert p)
  | .validated none, .resume => some (s.tryInsert p)
  | .inserting now, .insert =>
    if s.canInsert p now then
      some { s with
        row := some ⟨p, s.locks.length, now⟩
        locks := s.locks ++ [⟨p, now, false, true, false⟩]
        attempts := update s.attempts p (.inserted s.locks.length) }
    else some (s.setAttempt p .idle)
  | .inserted token, .grant => some { s.setAttempt p .idle with live := update s.live p (some token) }
  | .validating _, .raised | .inserting _, .raised => some (s.setAttempt p .idle)
  | _, _ => none

def step (s : State) : Action → Option State
  | .tick ms => some { s with clock := s.clock + ms }
  | .tryAcquire p =>
    match s.attempts p with
    | .idle =>
      match s.live p with
      | some token => some (s.setAttempt p (.validating token))
      | none => some (s.tryInsert p)
    -- the key is in `_acquiring_locks`
    | _ => some s
  | .attempt p a => attemptStep s p (s.attempts p) a
  | .renew token =>
    (s.lockObject token).bind fun lock =>
      if lock.looping then some { s with renewals := (token, s.clock) :: s.renewals } else none
  | .renewed token ts =>
    if (token, ts) ∈ s.renewals then some { s.write token ts with renewals := s.renewals.erase (token, ts) } else none
  | .renewRaises token ts =>
    if (token, ts) ∈ s.renewals then some { s with renewals := s.renewals.erase (token, ts) } else none
  | .release token =>
    (s.lockObject token).map fun lock =>
      if lock.dropped then s
      else { s.setLock token { lock with looping := false } with releases := (token, .deleting) :: s.releases }
  | .delete token =>
    if (token, .deleting) ∈ s.releases then
      (s.locks[token]?).map fun lock =>
        { s.setLock token { lock with released := true } with
          row := s.row.filter fun r => r.token ≠ token
          releases := (token, .deleted) :: s.releases.erase (token, .deleting) }
    else none
  | .forget token =>
    if (token, .deleted) ∈ s.releases then
      (s.locks[token]?).map fun lock =>
        -- `self._store._live_lock_tokens.pop((self._lock_name, self._lock_key), None)`
        { s.setLock token { lock with dropped := true } with
          live := update s.live lock.instanceName none
          releases := s.releases.erase (token, .deleted) }
    else none
  | .releaseRaises token =>
    if (token, .deleting) ∈ s.releases then some { s with releases := s.releases.erase (token, .deleting) } else none

def run (s : State) : List Action → Option State := List.foldlM step s

/-- What `attemptStep` can do. -/
inductive AttemptStep (s : State) (p : ℕ) : AttemptPhase → AttemptAction → State → Prop
  | readValidity {token} : AttemptStep s p (.validating token) .readValidity
      (s.setAttempt p (.validated ((s.row.filter fun r => r.token = token).map Row.lastRenewedTs)))
  | valid {ts} : AttemptStep s p (.validated (some ts)) .resume (s.setAttempt p .idle)
  | expired {ts} (hvalid : ¬ s.isValidAt ts) : AttemptStep s p (.validated (some ts)) .resume (s.tryInsert p)
  | gone : AttemptStep s p (.validated none) .resume (s.tryInsert p)
  | insert {now} (hcan : s.canInsert p now) : AttemptStep s p (.inserting now) .insert
      { s with
        row := some ⟨p, s.locks.length, now⟩
        locks := s.locks ++ [⟨p, now, false, true, false⟩]
        attempts := update s.attempts p (.inserted s.locks.length) }
  | refused {now} : AttemptStep s p (.inserting now) .insert (s.setAttempt p .idle)
  | grant {token} : AttemptStep s p (.inserted token) .grant
      { s.setAttempt p .idle with live := update s.live p (some token) }
  | validityRaised {token} : AttemptStep s p (.validating token) .raised (s.setAttempt p .idle)
  | insertRaised {now} : AttemptStep s p (.inserting now) .raised (s.setAttempt p .idle)

variable {s s' : State} {p : ℕ} {phase : AttemptPhase}

theorem attemptStep_cases {a : AttemptAction} (h : attemptStep s p phase a = some s') : AttemptStep s p phase a s' := by
  unfold attemptStep at h
  split at h
  case h_2 =>
    split_ifs at h with hvalid
    · cases h
      exact .valid
    · cases h
      exact .expired hvalid
  case h_4 =>
    split_ifs at h with hcan
    · cases h
      exact .insert hcan
    · cases h
      exact .refused
  all_goals cases h
  all_goals constructor

/-! ## What is in the table -/

/-- The attempt has read whether the live lock is valid, and has not inserted its row. -/
def AttemptPhase.Decided : AttemptPhase → Prop
  | .validated _ | .inserting _ => True
  | _ => False

instance (phase : AttemptPhase) : Decidable phase.Decided := by
  unfold AttemptPhase.Decided
  split <;> infer_instance

/-- **A release forgets only its own lock, and a lock is not renewed behind the back of an attempt**: the dict of the
process has that lock or none when a release removes the entry; a renewal is not written while an attempt of the same
process has read the table and not inserted its row, and renewals are written in order. -/
def Orderly (s : State) : Action → Prop
  | .forget token =>
    ∀ lock ∈ s.locks[token]?, ∀ live ∈ s.live lock.instanceName, live = token
  | .renewed token ts =>
    ∀ r ∈ s.row, r.token = token → r.lastRenewedTs ≤ ts ∧ ¬ (s.attempts r.instanceName).Decided
  | _ => True

instance (s : State) (a : Action) : Decidable (Orderly s a) := by
  unfold Orderly
  split <;> infer_instance

def runOrderly (s : State) : List Action → Option State :=
  List.foldlM (fun s a => if Orderly s a then step s a else none) s

/-- What an attempt of process `p` may rely on. -/
structure Attempting (s : State) (p : ℕ) (phase : AttemptPhase) : Prop where
  validating : ∀ token, phase = .validating token → ∀ live ∈ s.live p, live = token
  validated : ∀ ts, phase = .validated ts → ∀ r ∈ s.row, r.instanceName = p → ts = some r.lastRenewedTs
  inserting : ∀ now, phase = .inserting now →
    now ≤ s.clock ∧ ∀ r ∈ s.row, r.instanceName = p → r.lastRenewedTs + lockTimeoutMs ≤ s.clock
  inserted : ∀ token, phase = .inserted token → ∀ r ∈ s.row, r.instanceName = p → r.token = token

theorem Attempting.mono (h : Attempting s p phase) (hlive : ∀ live ∈ s'.live p, live ∈ s.live p)
    (hrow : ∀ r ∈ s'.row, r.instanceName = p → r ∈ s.row) (hclock : s.clock ≤ s'.clock) : Attempting s' p phase where
  validating token hphase live hmem := h.validating token hphase live (hlive live hmem)
  validated ts hphase r hr hp := h.validated ts hphase r (hrow r hr hp) hp
  inserting now hphase := by
    obtain ⟨hnow, hown⟩ := h.inserting now hphase
    exact ⟨Nat.le_trans hnow hclock, fun r hr hp => Nat.le_trans (hown r (hrow r hr hp) hp) hclock⟩
  inserted token hphase r hr hp := h.inserted token hphase r (hrow r hr hp) hp

/-- A lock that has not been released is in the table or has timed out. -/
structure Inv (s : State) : Prop where
  row : ∀ r ∈ s.row, ∃ lock ∈ s.locks[r.token]?, lock.instanceName = r.instanceName ∧ lock.renewed = r.lastRenewedTs ∧
    lock.released = false
  known : ∀ r ∈ s.row, s.live r.instanceName = some r.token ∨ s.attempts r.instanceName = .inserted r.token
  held : ∀ token, ∀ lock ∈ s.locks[token]?, lock.released = false →
    (∃ r ∈ s.row, r.token = token) ∨ lock.renewed + lockTimeoutMs ≤ s.clock
  attempts : ∀ p, Attempting s p (s.attempts p)
  deleted : ∀ token, (token, .deleted) ∈ s.releases → ∃ lock ∈ s.locks[token]?, lock.released = true

theorem start_inv : Inv .start where
  row := nofun
  known := nofun
  held := nofun
  attempts _ := ⟨nofun, nofun, nofun, nofun⟩
  deleted _ h := absurd h not_mem_nil

variable {releases : List (ℕ × ReleasePhase)}

namespace Inv

section

variable (h : Inv s)
include h

theorem setAttempt (hp : ∀ token, s.attempts p ≠ .inserted token)
    (hphase : Attempting s p phase) : Inv (s.setAttempt p phase) where
  __ := h
  known r hr := by
    refine (h.known r hr).imp_right fun hins => ?_
    have hne : r.instanceName ≠ p := fun he => hp r.token (he ▸ hins)
    exact (update_of_ne hne _ _).trans hins
  attempts := (forall_update_iff s.attempts _).mpr ⟨{ hphase with }, fun q _ => { h.attempts q with }⟩

theorem calls (renewals : List (ℕ × ℕ))
    (hreleases : ∀ token, (token, .deleted) ∈ releases → (token, .deleted) ∈ s.releases) :
    Inv { s with renewals := renewals, releases := releases } where
  __ := h
  attempts q := { h.attempts q with }
  deleted token ht := h.deleted token (hreleases token ht)

theorem idle (hp : ∀ token, s.attempts p ≠ .inserted token) : Inv (s.setAttempt p .idle) :=
  h.setAttempt hp ⟨nofun, nofun, nofun, nofun⟩

/-- **What an attempt that can insert its row finds.**  All other locks have been released or have timed out. -/
theorem timed_out {now : ℕ} (hp : s.attempts p = .inserting now) (hcan : s.canInsert p now) {token : ℕ}
    {lock : LockRecord} (hlock : lock ∈ s.locks[token]?) (hrel : lock.released = false) :
    lock.renewed + lockTimeoutMs ≤ s.clock := by
  rcases h.held token lock hlock hrel with ⟨r, hr, rfl⟩ | hout
  · obtain ⟨lock', hlock', -, hrenewed, -⟩ := h.row r hr
    cases mem_unique hlock hlock'
    obtain ⟨hnow, hown⟩ := (h.attempts p).inserting now hp
    rw [hrenewed]
    rcases hcan r hr with hlate | hsame
    · omega
    · exact hown r hr hsame
  · exact hout

theorem token_of_live {r : Row} (hr : r ∈ s.row) (hp : r.instanceName = p)
    (hins : ∀ token, s.attempts p ≠ .inserted token) : s.live p = some r.token := by
  subst hp
  exact (h.known r hr).resolve_right (hins r.token)

theorem insertRow {now : ℕ} (hp : s.attempts p = .inserting now) (hcan : s.canInsert p now) : Inv { s with
      row := some ⟨p, s.locks.length, now⟩
      locks := s.locks ++ [⟨p, now, false, true, false⟩]
      attempts := update s.attempts p (.inserted s.locks.length) } where
  row r hr := by
    cases hr
    exact ⟨_, getElem?_concat_length, rfl, rfl, rfl⟩
  known r hr := by
    cases hr
    exact .inr (update_self ..)
  held token lock hlock hrel := by
    by_cases hlt : token < s.locks.length
    · rw [getElem?_append_left hlt] at hlock
      exact .inr (h.timed_out hp hcan hlock hrel)
    · have hbound := (List.getElem?_eq_some_iff.mp hlock).1
      rw [length_append, length_singleton] at hbound
      exact .inl ⟨_, rfl, show s.locks.length = token by omega⟩
  attempts := by
    refine (forall_update_iff s.attempts _).mpr ⟨⟨nofun, nofun, nofun, fun token htoken r hr _ => ?_⟩, fun q hq => ?_⟩
    · cases htoken
      cases hr
      rfl
    · refine (h.attempts q).mono (fun _ hlive => hlive) (fun r hr he => ?_) (Nat.le_refl _)
      cases hr
      exact absurd he.symm hq
  deleted token hmem := by
    obtain ⟨lock, hlock, hrel⟩ := h.deleted token hmem
    exact ⟨lock, getElem?_append_left (List.getElem?_eq_some_iff.mp hlock).1 ▸ hlock, hrel⟩

theorem grant {token : ℕ} (hp : s.attempts p = .inserted token) :
    Inv { s.setAttempt p .idle with live := update s.live p (some token) } := by
  refine ⟨h.row, fun r hr => ?_, h.held, ?_, h.deleted⟩
  · show update s.live p (some token) r.instanceName = some r.token ∨
      update s.attempts p .idle r.instanceName = .inserted r.token
    by_cases he : r.instanceName = p
    · rw [he, update_self, (h.attempts p).inserted token hp r hr he]
      exact .inl rfl
    · rw [update_of_ne he, update_of_ne he]
      exact h.known r hr
  · refine (forall_update_iff s.attempts _).mpr ⟨⟨nofun, nofun, nofun, nofun⟩, fun q hq => ?_⟩
    refine (h.attempts q).mono (fun live hlive => ?_) (fun _ hr _ => hr) (Nat.le_refl _)
    exact (update_of_ne hq _ _).symm.trans hlive

theorem tryInsert (hp : ∀ token, s.attempts p ≠ .inserted token)
    (hown : ∀ r ∈ s.row, r.instanceName = p → r.lastRenewedTs + lockTimeoutMs ≤ s.clock) : Inv (s.tryInsert p) := by
  refine h.setAttempt hp ⟨nofun, nofun, fun now hnow => ?_, nofun⟩
  cases hnow
  exact ⟨Nat.le_refl _, hown⟩

end

end Inv

theorem attemptStep_inv (h : Inv s) {a : AttemptAction}
    (hstep : attemptStep s p (s.attempts p) a = some s') : Inv s' := by
  have hp := h.attempts p
  generalize hphase : s.attempts p = phase at hstep hp
  cases attemptStep_cases hstep with
  | @readValidity token =>
    -- the live lock is the one in the table, if the row is of this process
    have hins : ∀ token, s.attempts p ≠ .inserted token := by simp [hphase]
    refine h.setAttempt hins ⟨nofun, fun ts hts r hr he => ?_, nofun, nofun⟩
    cases hts
    have htoken := hp.validating token rfl _ (h.token_of_live hr he hins)
    rw [hr]
    simp [htoken]
  | valid | refused | validityRaised | insertRaised => exact h.idle (by simp [hphase])
  | expired hvalid =>
    refine h.tryInsert (by simp [hphase]) fun r hr he => ?_
    have hts := some.inj (hp.validated _ rfl r hr he)
    rw [State.isValidAt, hts, Nat.not_lt] at hvalid
    exact hvalid
  | gone => exact h.tryInsert (by simp [hphase]) fun r hr he => absurd (hp.validated _ rfl r hr he) nofun
  | insert hcan => exact h.insertRow hphase hcan
  | grant => exact h.grant hphase

/-! ## Renewals and releases -/

variable {token : ℕ} {lock : LockRecord}

theorem getElem?_set_lock {locks : List LockRecord} (h : lock ∈ locks[token]?)
    (lock' : LockRecord) (t : ℕ) : (locks.set token lock')[t]? = if t = token then some lock' else locks[t]? := by
  have hlt := (List.getElem?_eq_some_iff.mp h).1
  rw [getElem?_set]
  by_cases ht : t = token
  · rw [if_pos ht, if_pos ht.symm, if_pos hlt]
  · rw [if_neg ht, if_neg fun he => ht he.symm]

theorem Inv.setLock (h : Inv s) {lock' : LockRecord} (hlock : lock ∈ s.locks[token]?)
    (hinstance : lock'.instanceName = lock.instanceName) (hrenewed : lock'.renewed = lock.renewed)
    (hreleased : lock'.released = lock.released) : Inv (s.setLock token lock') where
  row r hr := by
    obtain ⟨l, hl, hi, hn, hrel⟩ := h.row r hr
    show ∃ l ∈ (s.locks.set token lock')[r.token]?, _
    rw [getElem?_set_lock hlock]
    split_ifs with ht
    · rw [ht] at hl
      cases mem_unique hlock hl
      exact ⟨lock', rfl, hinstance.trans hi, hrenewed.trans hn, hreleased.trans hrel⟩
    · exact ⟨l, hl, hi, hn, hrel⟩
  known := h.known
  held t l hl hrel := by
    replace hl : l ∈ (s.locks.set token lock')[t]? := hl
    rw [getElem?_set_lock hlock] at hl
    split_ifs at hl with ht
    · cases hl
      subst ht
      rw [hrenewed]
      exact h.held t lock hlock (hreleased ▸ hrel)
    · exact h.held t l hl hrel
  attempts p := { h.attempts p with }
  deleted t ht := by
    obtain ⟨l, hl, hrel⟩ := h.deleted t ht
    show ∃ l ∈ (s.locks.set token lock')[t]?, _
    rw [getElem?_set_lock hlock]
    split_ifs with he
    · subst he
      cases mem_unique hlock hl
      exact ⟨lock', rfl, hreleased.trans hrel⟩
    · exact ⟨l, hl, hrel⟩

theorem Inv.write (h : Inv s) {ts : ℕ} (horder : Orderly s (.renewed token ts)) : Inv (s.write token ts) := by
  unfold State.write
  split
  next r lock hrow hlock =>
    split_ifs with htoken
    · obtain ⟨hle, hdecided⟩ := horder r hrow htoken
      obtain ⟨l, hl, hinstance, hrenewed, hrel⟩ := h.row r hrow
      rw [htoken] at hl
      cases mem_unique hlock hl
      have hget := getElem?_set_lock hlock { lock with renewed := max lock.renewed ts }
      refine ⟨fun r' hr' => ?_, fun r' hr' => ?_, fun t l hl hfree => ?_, fun p => ?_, fun t ht => ?_⟩
      · cases hr'
        refine ⟨{ lock with renewed := max lock.renewed ts }, ?_, hinstance, ?_, hrel⟩
        · exact (hget r.token).trans (if_pos htoken)
        · rw [hrenewed]
          exact Nat.max_eq_right hle
      · cases hr'
        exact h.known r hrow
      · by_cases ht : t = token
        · exact .inl ⟨_, rfl, htoken.trans ht.symm⟩
        have hold : s.locks[t]? = some l := (if_neg ht).symm.trans ((hget t).symm.trans hl)
        refine .inr ((h.held t l hold hfree).resolve_left ?_)
        rintro ⟨r', hr', rfl⟩
        cases mem_unique hr' hrow
        exact ht htoken
      · have hp := h.attempts p
        refine ⟨hp.validating, fun x hx r' hr' he => ?_, fun now hnow => ⟨(hp.inserting now hnow).1, fun r' hr' he => ?_⟩,
          fun t ht r' hr' he => ?_⟩
        · cases hr'
          subst he
          exact absurd (hx ▸ trivial : (s.attempts r.instanceName).Decided) hdecided
        · cases hr'
          subst he
          exact absurd (hnow ▸ trivial : (s.attempts r.instanceName).Decided) hdecided
        · cases hr'
          exact hp.inserted t ht r hrow he
      · obtain ⟨l', hl', hfree⟩ := h.deleted t ht
        have hne : t ≠ token := by
          rintro rfl
          rw [← mem_unique hlock hl', hrel] at hfree
          cases hfree
        exact ⟨l', (hget t).trans ((if_neg hne).trans hl'), hfree⟩
    · exact h
  next => exact h

theorem Inv.delete (h : Inv s) (hlock : lock ∈ s.locks[token]?)
    (hreleases : ∀ t, (t, .deleted) ∈ releases → t = token ∨ (t, .deleted) ∈ s.releases) :
    Inv { s.setLock token { lock with released := true } with
      row := s.row.filter fun r => r.token ≠ token
      releases := releases } := by
  have hget := getElem?_set_lock hlock { lock with released := true }
  have hrow : ∀ r ∈ s.row.filter (fun r => r.token ≠ token), r ∈ s.row ∧ r.token ≠ token := fun r hr => by
    obtain ⟨hmem, hne⟩ := mem_filter_iff.mp hr
    exact ⟨hmem, of_decide_eq_true hne⟩
  refine ⟨fun r hr => ?_, fun r hr => h.known r (hrow r hr).1, fun t l hl hfree => ?_,
    fun p => (h.attempts p).mono (fun _ hlive => hlive) (fun r hr _ => (hrow r hr).1) (Nat.le_refl _), fun t ht => ?_⟩
  · obtain ⟨l, hl, hkept⟩ := h.row r (hrow r hr).1
    exact ⟨l, (hget r.token).trans ((if_neg (hrow r hr).2).trans hl), hkept⟩
  · by_cases ht : t = token
    · have hsame := some.inj (hl.symm.trans ((hget t).trans (if_pos ht)))
      rw [hsame] at hfree
      cases hfree
    have hold : s.locks[t]? = some l := (if_neg ht).symm.trans ((hget t).symm.trans hl)
    refine (h.held t l hold hfree).imp_left ?_
    rintro ⟨r, hr, rfl⟩
    exact ⟨r, mem_filter_iff.mpr ⟨hr, decide_eq_true ht⟩, rfl⟩
  · by_cases he : t = token
    · exact ⟨_, (hget t).trans (if_pos he), rfl⟩
    · obtain ⟨l, hl, hrel⟩ := h.deleted t ((hreleases t ht).resolve_left he)
      exact ⟨l, (hget t).trans ((if_neg he).trans hl), hrel⟩

theorem Inv.forget (h : Inv s) (hlock : lock ∈ s.locks[token]?)
    (hreleased : lock.released = true) (horder : Orderly s (.forget token)) :
    Inv { s with live := update s.live lock.instanceName none } := by
  refine ⟨h.row, fun r hr => ?_, h.held, fun p => ?_, h.deleted⟩
  · show update s.live lock.instanceName none r.instanceName = some r.token ∨ _
    by_cases he : r.instanceName = lock.instanceName
    · -- the lock in the table has not been released, so it is another one
      refine .inr ((h.known r hr).resolve_left fun hlive => ?_)
      have htoken := horder lock hlock r.token (he ▸ hlive)
      obtain ⟨l, hl, -, -, hrel⟩ := h.row r hr
      rw [htoken] at hl
      cases mem_unique hlock hl
      rw [hreleased] at hrel
      cases hrel
    · rw [update_of_ne he]
      exact h.known r hr
  · refine (h.attempts p).mono (fun live hlive => ?_) (fun _ hr _ => hr) (Nat.le_refl _)
    by_cases he : p = lock.instanceName
    · subst he
      exact absurd ((update_self _ _ s.live).symm.trans hlive) nofun
    · exact (update_of_ne he _ _).symm.trans hlive

theorem lock_of_lockObject (h : s.lockObject token = some lock) : lock ∈ s.locks[token]? := by
  obtain ⟨l, hl, h⟩ := bind_eq_some_iff.mp h
  split at h
  · split_ifs at h
    cases h
    exact hl
  · cases h
    exact hl

theorem step_inv (h : Inv s) {a : Action} (horder : Orderly s a) (hstep : step s a = some s') : Inv s' := by
  cases a with
  | tick ms =>
    cases hstep
    refine ⟨h.row, h.known, fun token lock hlock hrel => ?_, fun p => ?_, h.deleted⟩
    · exact (h.held token lock hlock hrel).imp_right fun hout => Nat.le_trans hout (Nat.le_add_right _ _)
    · exact (h.attempts p).mono (fun _ hlive => hlive) (fun _ hr _ => hr) (Nat.le_add_right _ _)
  | tryAcquire p =>
    rw [step] at hstep
    split at hstep
    next hidle =>
      have hins : ∀ token, s.attempts p ≠ .inserted token := by simp [hidle]
      split at hstep
      next token hlive =>
        cases hstep
        refine h.setAttempt hins ⟨fun t ht live hmem => ?_, nofun, nofun, nofun⟩
        cases ht
        exact mem_unique hmem hlive
      next hlive =>
        -- the process knows of no lock, so no row is of it
        cases hstep
        refine h.tryInsert hins fun r hr he => ?_
        rw [h.token_of_live hr he hins] at hlive
        cases hlive
    next =>
      cases hstep
      exact h
  | attempt p a => exact attemptStep_inv h hstep
  | renew token =>
    obtain ⟨lock, -, hstep⟩ := bind_eq_some_iff.mp hstep
    obtain ⟨-, rfl⟩ := ite_some_none_eq_some.mp hstep
    exact h.calls _ fun _ ht => ht
  | renewed token ts =>
    obtain ⟨-, rfl⟩ := ite_some_none_eq_some.mp hstep
    exact (h.write horder).calls _ fun _ ht => ht
  | renewRaises token ts =>
    obtain ⟨-, rfl⟩ := ite_some_none_eq_some.mp hstep
    exact h.calls _ fun _ ht => ht
  | release token =>
    obtain ⟨lock, hlock, rfl⟩ := map_eq_some_iff.mp hstep
    split_ifs
    · exact h
    have hset : Inv (s.setLock token { lock with looping := false }) :=
      h.setLock (lock_of_lockObject hlock) rfl rfl rfl
    refine hset.calls _ fun t ht => ?_
    rcases mem_cons.mp ht with he | ht
    · cases he
    · exact ht
  | delete token =>
    obtain ⟨-, hstep⟩ := ite_none_right_eq_some.mp hstep
    obtain ⟨lock, hlock, rfl⟩ := map_eq_some_iff.mp hstep
    refine h.delete hlock fun t ht => ?_
    rcases mem_cons.mp ht with he | ht
    · cases he
      exact .inl rfl
    · exact .inr (mem_of_mem_erase ht)
  | forget token =>
    obtain ⟨hmem, hstep⟩ := ite_none_right_eq_some.mp hstep
    obtain ⟨lock, hlock, rfl⟩ := map_eq_some_iff.mp hstep
    obtain ⟨l, hl, hreleased⟩ := h.deleted token hmem
    cases mem_unique hlock hl
    have hforget := h.forget hlock hreleased horder
    have hset : Inv (State.setLock _ token { lock with dropped := true }) := hforget.setLock hlock rfl rfl rfl
    exact hset.calls _ fun t ht => mem_of_mem_erase ht
  | releaseRaises token =>
    obtain ⟨-, rfl⟩ := ite_some_none_eq_some.mp hstep
    exact h.calls _ fun t ht => mem_of_mem_erase ht

/-- A lock that has not been released and was renewed within the timeout. -/
def Held (s : State) (lock : LockRecord) : Prop := lock.released = false ∧ s.clock < lock.renewed + lockTimeoutMs

/-- **Locks are exclusive.**  In runs in which releases forget only their own locks and locks are not renewed behind the
back of an attempt, no attempt gets the lock while a lock that was granted before is held. -/
theorem acquire_exclusive {l : List Action} {s s' : State} (hrun : runOrderly .start l = some s) {p : ℕ}
    (hstep : step s (.attempt p .insert) = some s') (hgot : s'.attempts p = .inserted s.locks.length) :
    ∀ lock ∈ s.locks, ¬ Held s lock := by
  have h : Inv s := guarded_preserves (fun h horder hstep => step_inv h horder hstep) start_inv hrun
  intro lock hlock ⟨hreleased, hrenewed⟩
  obtain ⟨token, htoken⟩ := getElem?_of_mem hlock
  replace hstep : attemptStep s p (s.attempts p) .insert = some s' := hstep
  generalize hphase : s.attempts p = phase at hstep
  cases attemptStep_cases hstep with
  | insert hcan => exact absurd (h.timed_out hphase hcan htoken hreleased) (Nat.not_le.mpr hrenewed)
  | refused => exact absurd ((update_self p _ s.attempts).symm.trans hgot) nofun

namespace LateRelease

/-- Process 0 gets the lock, which times out, and gets it again.  Then it releases the first lock, and so forgets the
second one; its next attempt finds its own row in the table and takes it. -/
def actions : List Action :=
  [.tryAcquire 0, .attempt 0 .insert, .attempt 0 .grant, .tick 120000,
    .tryAcquire 0, .attempt 0 .readValidity, .attempt 0 .resume, .attempt 0 .insert, .attempt 0 .grant,
    .release 0, .delete 0, .forget 0, .tick 1, .tryAcquire 0]

theorem acquired_twice : ∃ s s', run .start actions = some s ∧ step s (.attempt 0 .insert) = some s' ∧
    s'.attempts 0 = .inserted s.locks.length ∧ ∃ lock ∈ s.locks, Held s lock := by
  refine ⟨_, _, rfl, rfl, rfl, ⟨0, 120000, false, true, false⟩, mem_cons_of_mem _ mem_cons_self, rfl, ?_⟩
  decide

/-- The lock of process 0 times out, and process 1 takes it. -/
def inTime : List Action := [.tryAcquire 0, .attempt 0 .insert, .attempt 0 .grant, .tick 120001, .tryAcquire 1]

theorem inTime_exclusive : ∃ s s', runOrderly .start inTime = some s ∧ step s (.attempt 1 .insert) = some s' ∧
    s'.attempts 1 = .inserted s.locks.length ∧ ∀ lock ∈ s.locks, ¬ Held s lock :=
  ⟨_, _, rfl, rfl, rfl, acquire_exclusive (l := inTime) rfl (p := 1) rfl rfl⟩

end LateRelease

end Synapse.Locks
