import Mathlib.Data.Finset.Card
import Mathlib.Data.List.Sort
import Synapse.Lib.Runs

/-!
# Synapse.Tasks.Scheduler — tasks that run in the background

`TaskScheduler` of `synapse/util/task_scheduler.py`, with the table it reads
(`synapse/storage/databases/main/task_scheduler.py`).  A database call and what runs after it are steps of their own, so
others may run in between.

* `getTasks`: the rows that a pass reads.
* `visitRows`: a pass goes on until it launches a task or has no rows left.
* `step`, `run`: passes, tasks that return, and changes of the table, in any order; `PassStep`, `Step`: the same, case by
  case.
* `Bounded`, `step_bounded`: no more than five tasks run, and none runs twice.
* `Undisturbed`: no task that is over leaves the running tasks while a pass still has its row.
* **`undisturbed_never_again`**: in such runs no task is started again when it is over.
* `Stale.started_again`: a run in which one is.
-/

namespace Synapse.Tasks

open Lib List Option

/-! ## The table -/

inductive TaskStatus where
  | scheduled
  | active
  | complete
  | failed
  deriving DecidableEq

def TaskStatus.Final (status : TaskStatus) : Prop := status = .complete ∨ status = .failed

instance (status : TaskStatus) : Decidable status.Final := inferInstanceAs (Decidable (_ ∨ _))

structure ScheduledTask where
  id : String
  action : String
  status : TaskStatus
  timestamp : ℕ
  deriving DecidableEq

def maxConcurrentRunningTasks : ℕ := 5

/-- `get_tasks`: `SELECT * FROM scheduled_tasks WHERE ... ORDER BY timestamp LIMIT ?`, from rows in some order. -/
def getTasks (rows : List ScheduledTask) (status : TaskStatus) (maxTimestamp : Option ℕ) : List ScheduledTask :=
  ((rows.filter fun task => task.status = status ∧ maxTimestamp.all fun now => task.timestamp ≤ now).insertionSort
    fun a b => a.timestamp ≤ b.timestamp).take maxConcurrentRunningTasks

def updateScheduledTask (table : List ScheduledTask) (id : String) (timestamp : ℕ) (status : Option TaskStatus) :
    List ScheduledTask :=
  table.map fun task =>
    if task.id = id then { task with timestamp := timestamp, status := status.getD task.status } else task

/-! ## Passes and tasks -/

/-- Where the pass of `_launch_scheduled_tasks` waits.  `last` tells the scheduled tasks from the active ones. -/
inductive PassPhase where
  /-- for the active tasks -/
  | readingActive
  /-- for the tasks that were to run before `now` -/
  | readingScheduled (now : ℕ)
  /-- to go on with the rows that have been read -/
  | fetched (rows : List ScheduledTask) (last : Bool)
  /-- for a task to be marked as active -/
  | activating (task : ScheduledTask) (rows : List ScheduledTask) (last : Bool)
  /-- to go on and start it -/
  | activated (task : ScheduledTask) (rows : List ScheduledTask) (last : Bool)
  deriving DecidableEq

/-- The rows the pass has still to look at. -/
def PassPhase.rows : PassPhase → List ScheduledTask
  | .readingActive | .readingScheduled _ => []
  | .fetched rows _ | .activating _ rows _ | .activated _ rows _ => rows

def PassPhase.launching : PassPhase → Option String
  | .activating task _ _ | .activated task _ _ => some task.id
  | _ => none

/-- Where the `wrapper` of a task waits. -/
inductive WrapperPhase where
  /-- for the function of the task -/
  | running
  /-- for its status to be stored -/
  | recording (status : TaskStatus)
  /-- to go on and leave the running tasks -/
  | recorded (status : TaskStatus)
  deriving DecidableEq

inductive Entry where
  | started (id : String)
  /-- with the status of a function that raises being `failed` -/
  | returned (id : String) (status : TaskStatus)
  deriving DecidableEq

def Entry.id : Entry → String
  | .started id | .returned id _ => id

structure State where
  /-- `scheduled_tasks` -/
  table : List ScheduledTask
  /-- the names in `_actions` -/
  actions : List String
  /-- `_running_tasks` -/
  runningTasks : Finset String
  /-- the pass, while `_launching_new_tasks` is set -/
  pass : Option PassPhase
  /-- the background processes of tasks -/
  wrappers : List (String × WrapperPhase)
  /-- what the functions have done -/
  log : List Entry
  deriving DecidableEq

/-- A process that has just been started. -/
def State.start (table : List ScheduledTask) : State := ⟨table, [], ∅, none, [], []⟩

inductive Action where
  | registerAction (action : String)
  /-- `schedule_task`, with a new id -/
  | scheduleTask (task : ScheduledTask)
  /-- `update_task` -/
  | updateTask (id : String) (timestamp : ℕ) (status : Option TaskStatus)
  /-- `delete_task`, and `_clean_scheduled_tasks` -/
  | deleteTask (id : String)
  /-- `_launch_scheduled_tasks` -/
  | launch
  /-- the pass reads the table, whose rows are in the order `order` -/
  | read (order : List ScheduledTask)
  | resume (now : ℕ)
  | activate (timestamp : ℕ)
  | startTask (now : ℕ)
  /-- the database call of the pass raises -/
  | passRaises
  | returned (id : String) (status : TaskStatus)
  | record (id : String) (status : TaskStatus) (timestamp : ℕ)
  | recordRaises (id : String) (status : TaskStatus)
  | remove (id : String) (status : TaskStatus)

/-- The loop over the rows, until `_launch_task` waits: the running tasks, and where the pass is then. -/
def visitRows (actions : List String) (now : ℕ) (last : Bool) (running : Finset String) :
    List ScheduledTask → Finset String × Option PassPhase
  | [] => (running, if last then none else some (.readingScheduled now))
  | task :: rows =>
    -- `_launch_task` raises, and the pass ends
    if task.action ∉ actions then (running, none)
    else if maxConcurrentRunningTasks ≤ running.card ∨ task.id ∈ running then visitRows actions now last running rows
    else (insert task.id running, some (.activating task rows last))

/-- The pass goes on with `rows`. -/
def State.goOn (s : State) (now : ℕ) (rows : List ScheduledTask) (last : Bool) : State :=
  let next := visitRows s.actions now last s.runningTasks rows
  { s with runningTasks := next.1, pass := next.2 }

/-- The pass goes on, after what it has waited for. -/
def passStep (s : State) : PassPhase → Action → Option State
  | .readingActive, .read order =>
    if order.Perm s.table then some { s with pass := some (.fetched (getTasks order .active none) false) } else none
  | .readingScheduled now, .read order =>
    if order.Perm s.table then some { s with pass := some (.fetched (getTasks order .scheduled (some now)) true) }
    else none
  | .fetched rows last, .resume now => some (s.goOn now rows last)
  | .activating task rows last, .activate timestamp =>
    some { s with
      table := updateScheduledTask s.table task.id timestamp (some .active)
      pass := some (.activated task rows last) }
  | .activated task rows last, .startTask now =>
    let s : State := { s with wrappers := (task.id, .running) :: s.wrappers, log := s.log ++ [.started task.id] }
    some (s.goOn now rows last)
  | .readingActive, .passRaises | .readingScheduled _, .passRaises | .activating _ _ _, .passRaises =>
    some { s with pass := none }
  | _, _ => none

/-- The `wrapper` of a task goes on from `before` to `after`. -/
def State.move (s : State) (id : String) (before after : WrapperPhase) : Option State :=
  if (id, before) ∈ s.wrappers then some { s with wrappers := (id, after) :: s.wrappers.erase (id, before) } else none

/-- The `wrapper` of a task ends. -/
def State.finish (s : State) (id : String) (before : WrapperPhase) : Option State :=
  if (id, before) ∈ s.wrappers then some { s with wrappers := s.wrappers.erase (id, before) } else none

def step (s : State) : Action → Option State
  | .registerAction action => some { s with actions := action :: s.actions }
  | .scheduleTask task =>
    if task.status = .scheduled ∧ (∀ row ∈ s.table, row.id ≠ task.id) ∧ ∀ e ∈ s.log, e.id ≠ task.id then
      some { s with table := s.table ++ [task] }
    else none
  | .updateTask id timestamp status =>
    -- it raises for the others
    if status = some .complete ∨ status = some .failed then none
    else some { s with table := updateScheduledTask s.table id timestamp status }
  | .deleteTask id => some { s with table := s.table.filter fun task => task.id ≠ id }
  | .launch =>
    if maxConcurrentRunningTasks ≤ s.runningTasks.card ∨ s.pass ≠ none then some s
    else some { s with pass := some .readingActive }
  | .returned id status =>
    (s.move id .running (.recording status)).map fun s => { s with log := s.log ++ [.returned id status] }
  | .record id status timestamp =>
    (s.move id (.recording status) (.recorded status)).map fun s =>
      { s with table := updateScheduledTask s.table id timestamp (some status) }
  | .recordRaises id status => s.finish id (.recording status)
  | .remove id status =>
    (s.finish id (.recorded status)).map fun s => { s with runningTasks := s.runningTasks.erase id }
  | a => s.pass.bind fun phase => passStep s phase a

def run (s : State) : List Action → Option State := List.foldlM step s

/-! ## The steps, case by case -/

/-- What `passStep` can do. -/
inductive PassStep (s : State) : PassPhase → Action → State → Prop
  | readActive {order} (hperm : order.Perm s.table) : PassStep s .readingActive (.read order)
      { s with pass := some (.fetched (getTasks order .active none) false) }
  | readScheduled {now order} (hperm : order.Perm s.table) : PassStep s (.readingScheduled now) (.read order)
      { s with pass := some (.fetched (getTasks order .scheduled (some now)) true) }
  | resume {rows last now} : PassStep s (.fetched rows last) (.resume now) (s.goOn now rows last)
  | activate {task rows last timestamp} : PassStep s (.activating task rows last) (.activate timestamp)
      { s with
        table := updateScheduledTask s.table task.id timestamp (some .active)
        pass := some (.activated task rows last) }
  | startTask {task rows last now} : PassStep s (.activated task rows last) (.startTask now)
      (State.goOn { s with wrappers := (task.id, .running) :: s.wrappers, log := s.log ++ [.started task.id] }
        now rows last)
  | raised {phase} : PassStep s phase .passRaises { s with pass := none }

/-- What `step` can do. -/
inductive Step (s : State) : Action → State → Prop
  | registerAction {action} : Step s (.registerAction action) { s with actions := action :: s.actions }
  | scheduleTask {task} (hnew : ∀ e ∈ s.log, e.id ≠ task.id) : Step s (.scheduleTask task)
      { s with table := s.table ++ [task] }
  | updateTask {id timestamp status} : Step s (.updateTask id timestamp status)
      { s with table := updateScheduledTask s.table id timestamp status }
  | deleteTask {id} : Step s (.deleteTask id) { s with table := s.table.filter fun task => task.id ≠ id }
  | busy : Step s .launch s
  | launch : Step s .launch { s with pass := some .readingActive }
  | returned {id status} (hmem : (id, .running) ∈ s.wrappers) : Step s (.returned id status)
      { s with
        wrappers := (id, .recording status) :: s.wrappers.erase (id, .running)
        log := s.log ++ [.returned id status] }
  | record {id status timestamp} (hmem : (id, .recording status) ∈ s.wrappers) : Step s (.record id status timestamp)
      { s with
        wrappers := (id, .recorded status) :: s.wrappers.erase (id, .recording status)
        table := updateScheduledTask s.table id timestamp (some status) }
  | recordRaises {id status} (hmem : (id, .recording status) ∈ s.wrappers) : Step s (.recordRaises id status)
      { s with wrappers := s.wrappers.erase (id, .recording status) }
  | remove {id status} (hmem : (id, .recorded status) ∈ s.wrappers) : Step s (.remove id status)
      { s with
        wrappers := s.wrappers.erase (id, .recorded status)
        runningTasks := s.runningTasks.erase id }
  | pass {phase a s'} (hphase : s.pass = some phase) (hpass : PassStep s phase a s') : Step s a s'

variable {s s' : State} {phase : PassPhase} {a : Action} {id : String} {before after : WrapperPhase}

theorem finish_cases (h : s.finish id before = some s') :
    (id, before) ∈ s.wrappers ∧ s' = { s with wrappers := s.wrappers.erase (id, before) } := by
  obtain ⟨hmem, h⟩ := ite_none_right_eq_some.mp h
  exact ⟨hmem, (some.inj h).symm⟩

theorem passStep_cases (h : passStep s phase a = some s') : PassStep s phase a s' := by
  unfold passStep at h
  split at h
  case h_1 | h_2 =>
    obtain ⟨hperm, rfl⟩ := ite_some_none_eq_some.mp h
    constructor
    exact hperm
  all_goals cases h
  all_goals constructor

theorem step_cases (h : step s a = some s') : Step s a s' := by
  cases a with
  | registerAction | deleteTask =>
    cases h
    constructor
  | scheduleTask =>
    obtain ⟨⟨-, -, hnew⟩, rfl⟩ := ite_some_none_eq_some.mp h
    exact .scheduleTask hnew
  | updateTask =>
    obtain ⟨-, h⟩ := ite_none_left_eq_some.mp h
    cases h
    exact .updateTask
  | launch =>
    rw [step] at h
    split_ifs at h
    · cases h
      exact .busy
    · cases h
      exact .launch
  | returned | record =>
    obtain ⟨t, ht, rfl⟩ := map_eq_some_iff.mp h
    obtain ⟨hmem, rfl⟩ := ite_some_none_eq_some.mp ht
    constructor
    exact hmem
  | recordRaises =>
    obtain ⟨hmem, rfl⟩ := finish_cases h
    exact .recordRaises hmem
  | remove =>
    obtain ⟨t, ht, rfl⟩ := map_eq_some_iff.mp h
    obtain ⟨hmem, rfl⟩ := finish_cases ht
    exact .remove hmem
  | read | resume | activate | startTask | passRaises =>
    obtain ⟨phase, hphase, h⟩ := bind_eq_some_iff.mp h
    exact .pass hphase (passStep_cases h)

/-! ## What a pass does -/

/-- **A pass goes on**: it launches one of its rows, for which there is room, or it has looked at all of them. -/
theorem visitRows_cases (actions : List String) (now : ℕ) (last : Bool) (running : Finset String)
    (rows : List ScheduledTask) :
    (∃ task rest, task ∈ rows ∧ rest ⊆ rows ∧ running.card < maxConcurrentRunningTasks ∧ task.id ∉ running ∧
      visitRows actions now last running rows = (insert task.id running, some (.activating task rest last))) ∨
    (visitRows actions now last running rows).1 = running ∧
      ∀ phase, (visitRows actions now last running rows).2 = some phase → phase = .readingScheduled now := by
  induction rows with
  | nil =>
    refine .inr ⟨rfl, fun phase hphase => ?_⟩
    rw [visitRows] at hphase
    split_ifs at hphase
    exact (some.inj hphase).symm
  | cons task rows ih =>
    rw [visitRows]
    split_ifs with haction hfull
    · refine ih.imp_left ?_
      rintro ⟨task', rest, hmem, hsub, hgo⟩
      exact ⟨task', rest, mem_cons_of_mem _ hmem, fun x hx => mem_cons_of_mem _ (hsub hx), hgo⟩
    · rw [not_or, not_le] at hfull
      exact .inl ⟨task, rows, mem_cons_self, subset_cons_self _ _, hfull.1, hfull.2, rfl⟩
    · exact .inr ⟨rfl, nofun⟩

variable {task : ScheduledTask}

/-! ## How many tasks run -/

/-- The running tasks count the tasks whose wrappers have not ended, and the one that is being launched. -/
structure Counted (runningTasks : Finset String) (ids : List String) (pass : Option PassPhase) : Prop where
  nodup : ids.Nodup
  running : ∀ id ∈ ids, id ∈ runningTasks
  card : runningTasks.card ≤ maxConcurrentRunningTasks
  launching : ∀ phase, pass = some phase → ∀ id, phase.launching = some id → id ∈ runningTasks ∧ id ∉ ids

namespace Counted

variable {runningTasks : Finset String} {ids : List String} {pass : Option PassPhase}

theorem perm (h : Counted runningTasks ids pass) {ids' : List String} (hperm : ids'.Perm ids) :
    Counted runningTasks ids' pass where
  nodup := hperm.nodup_iff.mpr h.nodup
  running id hid := h.running id (hperm.mem_iff.mp hid)
  card := h.card
  launching phase hphase id hid := by
    obtain ⟨hrun, hnot⟩ := h.launching phase hphase id hid
    exact ⟨hrun, fun hmem => hnot (hperm.mem_iff.mp hmem)⟩

theorem waiting (h : Counted runningTasks ids pass) {pass' : Option PassPhase}
    (hpass : pass'.bind PassPhase.launching = none) : Counted runningTasks ids pass' where
  __ := h
  launching phase hphase id hid := by
    cases hphase
    cases hpass.symm.trans hid

theorem goOn (h : Counted runningTasks ids pass) (actions : List String) (now : ℕ) (rows : List ScheduledTask)
    (last : Bool) : Counted (visitRows actions now last runningTasks rows).1 ids
      (visitRows actions now last runningTasks rows).2 := by
  rcases visitRows_cases actions now last runningTasks rows with
    ⟨task, rest, -, -, hroom, hnot, heq⟩ | ⟨heq, hphase⟩
  · rw [heq]
    refine ⟨h.nodup, fun id hid => Finset.mem_insert_of_mem (h.running id hid), ?_, fun phase hphase id hid => ?_⟩
    · rw [Finset.card_insert_of_notMem hnot]
      omega
    · cases hphase
      cases hid
      exact ⟨Finset.mem_insert_self _ _, fun hmem => hnot (h.running _ hmem)⟩
  · rw [heq]
    exact h.waiting (bind_eq_none_iff.mpr fun phase hp => by rw [hphase phase hp]; rfl)

theorem finish (h : Counted runningTasks (id :: ids) pass) :
    Counted runningTasks ids pass ∧ Counted (runningTasks.erase id) ids pass := by
  obtain ⟨hid, hnodup⟩ := nodup_cons.mp h.nodup
  have hlaunching : ∀ phase, pass = some phase → ∀ x, phase.launching = some x → x ∈ runningTasks ∧ x ≠ id ∧ x ∉ ids := by
    intro phase hphase x hx
    obtain ⟨hrun, hnot⟩ := h.launching phase hphase x hx
    exact ⟨hrun, fun he => hnot (he ▸ mem_cons_self), fun hmem => hnot (mem_cons_of_mem _ hmem)⟩
  refine ⟨⟨hnodup, fun x hx => h.running x (mem_cons_of_mem _ hx), h.card, fun phase hphase x hx => ?_⟩,
    ⟨hnodup, fun x hx => ?_, (Finset.card_erase_le).trans h.card, fun phase hphase x hx => ?_⟩⟩
  · obtain ⟨hrun, -, hnot⟩ := hlaunching phase hphase x hx
    exact ⟨hrun, hnot⟩
  · exact Finset.mem_erase.mpr ⟨fun he => hid (he ▸ hx), h.running x (mem_cons_of_mem _ hx)⟩
  · obtain ⟨hrun, hne, hnot⟩ := hlaunching phase hphase x hx
    exact ⟨Finset.mem_erase.mpr ⟨hne, hrun⟩, hnot⟩

theorem start (h : Counted runningTasks ids (some phase))
    (hid : phase.launching = some id) : Counted runningTasks (id :: ids) none := by
  obtain ⟨hrun, hnot⟩ := h.launching phase rfl id hid
  exact ⟨nodup_cons.mpr ⟨hnot, h.nodup⟩, forall_mem_cons.mpr ⟨hrun, h.running⟩, h.card, nofun⟩

end Counted

/-- The tasks whose functions have been started and whose wrappers have not ended. -/
def State.ids (s : State) : List String := s.wrappers.map Prod.fst

def Bounded (s : State) : Prop := Counted s.runningTasks s.ids s.pass

theorem ids_perm (h : (id, before) ∈ s.wrappers) :
    s.ids.Perm (id :: (s.wrappers.erase (id, before)).map Prod.fst) := (perm_cons_erase h).map Prod.fst

theorem passStep_bounded (h : Bounded s) (hphase : s.pass = some phase)
    (hstep : PassStep s phase a s') : Bounded s' := by
  unfold Bounded at h ⊢
  rw [hphase] at h
  cases hstep with
  | readActive | readScheduled | raised => exact h.waiting rfl
  | resume => exact h.goOn _ _ _ _
  | activate =>
    refine ⟨h.nodup, h.running, h.card, fun phase hp id hid => ?_⟩
    cases hp
    exact h.launching _ rfl id hid
  | startTask => exact (h.start rfl).goOn _ _ _ _

theorem step_bounded (h : Bounded s) (hstep : Step s a s') : Bounded s' := by
  cases hstep with
  | registerAction | scheduleTask | updateTask | deleteTask | busy => exact h
  | launch => exact Counted.waiting h rfl
  | returned hmem | record hmem => exact Counted.perm h (ids_perm hmem).symm
  | recordRaises hmem => exact (Counted.perm h (ids_perm hmem).symm).finish.1
  | remove hmem => exact (Counted.perm h (ids_perm hmem).symm).finish.2
  | pass hphase hpass => exact passStep_bounded h hphase hpass

theorem start_bounded (table : List ScheduledTask) : Bounded (.start table) :=
  ⟨nodup_nil, nofun, Nat.zero_le _, nofun⟩

/-! ## Tasks that are over -/

/-- The function of the task has returned, with a status that no task leaves. -/
def Over (log : List Entry) (id : String) : Prop := ∃ status : TaskStatus, status.Final ∧ .returned id status ∈ log

variable {log : List Entry}

theorem over_concat {e : Entry} :
    Over (log ++ [e]) id ↔ Over log id ∨ ∃ status : TaskStatus, status.Final ∧ .returned id status = e := by
  simp [Over, and_or_left, exists_or]

theorem over_started {id' : String} : Over (log ++ [.started id']) id ↔ Over log id := by
  rw [over_concat]
  simp

instance (log : List Entry) (id : String) : Decidable (Over log id) :=
  decidable_of_iff (.returned id .complete ∈ log ∨ .returned id .failed ∈ log) <| by
    constructor
    · rintro (h | h)
      · exact ⟨.complete, .inl rfl, h⟩
      · exact ⟨.failed, .inr rfl, h⟩
    · rintro ⟨status, rfl | rfl, h⟩
      · exact .inl h
      · exact .inr h

def NeverAgain (log : List Entry) : Prop :=
  log.Pairwise fun e e' => ∀ id status, e = .returned id status → status.Final → e' ≠ .started id

theorem neverAgain_concat {e : Entry} (h : NeverAgain log) (he : ∀ id, e = .started id → ¬ Over log id) :
    NeverAgain (log ++ [e]) := by
  refine pairwise_snoc.mpr ⟨h, fun e₁ he₁ id status hret hfinal hstart => ?_⟩
  exact he id hstart ⟨status, hfinal, hret ▸ he₁⟩

/-- The ids of the rows the pass has still to look at. -/
def State.rowIds (s : State) : List String := (s.pass.elim [] PassPhase.rows).map ScheduledTask.id

/-- **No task that is over leaves the running tasks while the pass still has its row**, and none is given another
status. -/
def Undisturbed (s : State) : Action → Prop
  | .remove id status => status.Final → id ∉ s.rowIds
  | .updateTask id _ (some _) => ¬ Over s.log id
  | _ => True

instance (s : State) (a : Action) : Decidable (Undisturbed s a) := by
  unfold Undisturbed
  split <;> infer_instance

def runUndisturbed (s : State) : List Action → Option State :=
  List.foldlM (fun s a => if Undisturbed s a then step s a else none) s

/-- All rows of the task have a final status. -/
def Closed (table : List ScheduledTask) (id : String) : Prop := ∀ task ∈ table, task.id = id → task.status.Final

/-- The status that the function of the task has returned. -/
def WrapperPhase.status : WrapperPhase → Option TaskStatus
  | .running => none
  | .recording status | .recorded status => some status

/-- A task that is over is kept out by the running tasks, or by its status in the table. -/
structure Inv (s : State) : Prop where
  bounded : Bounded s
  log : NeverAgain s.log
  returned : ∀ w ∈ s.wrappers, Over s.log w.1 ↔ ∃ status, w.2.status = some status ∧ status.Final
  recorded : ∀ w ∈ s.wrappers, ∀ status : TaskStatus, w.2 = .recorded status → status.Final → Closed s.table w.1
  launching : ∀ phase, s.pass = some phase → ∀ id, phase.launching = some id → ¬ Over s.log id
  kept : ∀ id, Over s.log id → id ∈ s.runningTasks ∨ Closed s.table id ∧ id ∉ s.rowIds

theorem closed_update {table : List ScheduledTask} {id' : String} {timestamp : ℕ} {status : Option TaskStatus}
    (h : Closed table id) (hstatus : id' = id → ∀ x, status = some x → x.Final) :
    Closed (updateScheduledTask table id' timestamp status) id := by
  intro task htask hid
  obtain ⟨row, hrow, rfl⟩ := List.mem_map.mp htask
  split_ifs at hid ⊢ with hr
  · rcases status with _ | x
    · exact h row hrow hid
    · exact hstatus (hr ▸ hid) x rfl
  · exact h row hrow hid

namespace Inv

section

variable (h : Inv s)
include h

theorem changeTable {table : List ScheduledTask}
    (htable : ∀ id, Over s.log id → Closed s.table id → Closed table id) : Inv { s with table := table } where
  __ := h
  recorded w hw status hphase hfinal :=
    htable w.1 ((h.returned w hw).mpr ⟨status, by rw [hphase]; rfl, hfinal⟩) (h.recorded w hw status hphase hfinal)
  kept id hid := (h.kept id hid).imp_right fun ⟨hclosed, hrows⟩ => ⟨htable id hid hclosed, hrows⟩

theorem passTo {running : Finset String} {pass : Option PassPhase} (hsub : s.runningTasks ⊆ running)
    (hbounded : Bounded { s with runningTasks := running, pass := pass })
    (hlaunching : ∀ phase, pass = some phase → ∀ id, phase.launching = some id → ¬ Over s.log id)
    (hrows : ∀ phase, pass = some phase → ∀ task ∈ phase.rows, Over s.log task.id → task.id ∈ s.runningTasks) :
    Inv { s with runningTasks := running, pass := pass } where
  __ := h
  bounded := hbounded
  launching := hlaunching
  kept id hid := by
    by_cases hrun : id ∈ s.runningTasks
    · exact .inl (hsub hrun)
    refine .inr ⟨((h.kept id hid).resolve_left hrun).1, fun hmem => ?_⟩
    obtain ⟨task, htask, rfl⟩ := List.mem_map.mp hmem
    cases pass with
    | none => exact absurd htask not_mem_nil
    | some phase => exact hrun (hrows phase rfl task htask hid)

theorem waiting {pass : Option PassPhase} (hpass : pass.bind PassPhase.launching = none)
    (hrows : ∀ phase, pass = some phase → ∀ task ∈ phase.rows, Over s.log task.id → task.id ∈ s.runningTasks) :
    Inv { s with pass := pass } := by
  refine h.passTo (Finset.Subset.refl _) (Counted.waiting h.bounded hpass) (fun phase hphase id hid => ?_) hrows
  cases hphase
  cases hpass.symm.trans hid

theorem rows_running (hphase : s.pass = some phase)
    (htask : task ∈ phase.rows) (hover : Over s.log task.id) : task.id ∈ s.runningTasks := by
  refine (h.kept _ hover).resolve_right fun hnot => hnot.2 ?_
  rw [State.rowIds, hphase]
  exact List.mem_map_of_mem htask

theorem goOn {rows : List ScheduledTask} (hrows : ∀ task ∈ rows, Over s.log task.id → task.id ∈ s.runningTasks)
    (now : ℕ) (last : Bool) : Inv (s.goOn now rows last) := by
  rcases visitRows_cases s.actions now last s.runningTasks rows with
    ⟨task, rest, htask, hrest, -, hnot, heq⟩ | ⟨heq, hphase⟩
  · have hbounded := Counted.goOn h.bounded s.actions now rows last
    rw [State.goOn]
    rw [heq] at hbounded ⊢
    refine h.passTo (Finset.subset_insert _ _) hbounded (fun phase hp id hid => ?_) fun phase hp task' htask' => ?_
    · cases hp
      cases hid
      exact fun hover => hnot (hrows task htask hover)
    · cases hp
      exact hrows task' (hrest htask')
  · rw [State.goOn, heq]
    refine h.waiting (bind_eq_none_iff.mpr fun phase hp => by rw [hphase phase hp]; rfl) fun phase hp task htask => ?_
    rw [hphase phase hp] at htask
    exact absurd htask not_mem_nil

theorem start (hphase : s.pass = some phase) (hid : phase.launching = some task.id) : Inv { s with
      wrappers := (task.id, .running) :: s.wrappers
      log := s.log ++ [.started task.id]
      pass := none } := by
  have hnot := h.launching phase hphase _ hid
  have hbounded := h.bounded
  rw [Bounded, hphase] at hbounded
  refine ⟨hbounded.start hid, neverAgain_concat h.log fun id he => ?_, fun w hw => ?_, fun w hw => ?_, nofun,
    fun id hid => ?_⟩
  · cases he
    exact hnot
  · rw [over_started]
    rcases mem_cons.mp hw with rfl | hw
    · simpa [WrapperPhase.status] using hnot
    · exact h.returned w hw
  · rcases mem_cons.mp hw with rfl | hw
    · nofun
    · exact h.recorded w hw
  · rw [over_started] at hid
    exact (h.kept id hid).imp_right fun ⟨hclosed, _⟩ => ⟨hclosed, not_mem_nil⟩

theorem ne_of_mem_erase {w w' : String × WrapperPhase} (hw : w ∈ s.wrappers) (hw' : w' ∈ s.wrappers.erase w) :
    w'.1 ≠ w.1 := by
  have hnodup := (ids_perm hw).nodup_iff.mp h.bounded.nodup
  have hmem : w'.1 ∈ (s.wrappers.erase w).map Prod.fst := List.mem_map_of_mem hw'
  intro he
  rw [he] at hmem
  exact (nodup_cons.mp hnodup).1 hmem

theorem returnedStep {status : TaskStatus} (hw : (id, .running) ∈ s.wrappers) : Inv { s with
      wrappers := (id, .recording status) :: s.wrappers.erase (id, .running)
      log := s.log ++ [.returned id status] } := by
  have hnot : ¬ Over s.log id := by simp [h.returned _ hw, WrapperPhase.status]
  have hover : ∀ x, x ≠ id → (Over (s.log ++ [.returned id status]) x ↔ Over s.log x) := fun x hx => by
    rw [over_concat]
    simp [hx]
  refine ⟨step_bounded h.bounded (.returned hw), neverAgain_concat h.log nofun, fun w hmem => ?_, fun w hmem => ?_,
    fun phase hphase x hx => ?_, fun x hx => ?_⟩
  · rcases mem_cons.mp hmem with rfl | hmem
    · rw [over_concat]
      simp [hnot, WrapperPhase.status]
    · rw [hover _ (h.ne_of_mem_erase hw hmem)]
      exact h.returned w (mem_of_mem_erase hmem)
  · rcases mem_cons.mp hmem with rfl | hmem
    · nofun
    · exact h.recorded w (mem_of_mem_erase hmem)
  · rw [hover]
    · exact h.launching phase hphase x hx
    · rintro rfl
      exact (h.bounded.launching phase hphase x hx).2 (List.mem_map_of_mem hw)
  · by_cases hne : x = id
    · subst hne
      exact .inl (h.bounded.running x (List.mem_map_of_mem hw))
    · exact h.kept x ((hover x hne).mp hx)

theorem recordStep {status : TaskStatus} {timestamp : ℕ} (hw : (id, .recording status) ∈ s.wrappers) : Inv { s with
      wrappers := (id, .recorded status) :: s.wrappers.erase (id, .recording status)
      table := updateScheduledTask s.table id timestamp (some status) } := by
  have hid : Over s.log id ↔ status.Final := by
    rw [h.returned _ hw]
    simp [WrapperPhase.status]
  have hclosed : ∀ x, Over s.log x → Closed s.table x →
      Closed (updateScheduledTask s.table id timestamp (some status)) x := fun x hx hc =>
    closed_update hc fun he st hst => by
      cases hst
      exact hid.mp (he ▸ hx)
  refine ⟨step_bounded h.bounded (.record hw), h.log, fun w hmem => ?_, fun w hmem st hs hfinal => ?_, h.launching, fun x hx => ?_⟩
  · rcases mem_cons.mp hmem with rfl | hmem
    · exact h.returned (id, .recording status) hw
    · exact h.returned w (mem_of_mem_erase hmem)
  · rcases mem_cons.mp hmem with rfl | hmem
    · cases hs
      intro task htask hrow
      obtain ⟨row, -, rfl⟩ := List.mem_map.mp htask
      split_ifs at hrow ⊢
      · exact hfinal
      · contradiction
    · have hmem := mem_of_mem_erase hmem
      exact hclosed _ ((h.returned w hmem).mpr ⟨st, by rw [hs]; rfl, hfinal⟩) (h.recorded w hmem st hs hfinal)
  · exact (h.kept x hx).imp_right fun ⟨hc, hrows⟩ => ⟨hclosed x hx hc, hrows⟩

theorem finishStep {w : String × WrapperPhase} {runningTasks : Finset String}
    (hrunning : ∀ id ∈ s.runningTasks, id ∈ runningTasks ∨ id = w.1)
    (hid : Over s.log w.1 → w.1 ∈ runningTasks ∨ Closed s.table w.1 ∧ w.1 ∉ s.rowIds)
    (hbounded : Bounded { s with wrappers := s.wrappers.erase w, runningTasks := runningTasks }) :
    Inv { s with wrappers := s.wrappers.erase w, runningTasks := runningTasks } where
  __ := h
  bounded := hbounded
  returned x hx := h.returned x (mem_of_mem_erase hx)
  recorded x hx := h.recorded x (mem_of_mem_erase hx)
  kept x hx := by
    rcases h.kept x hx with hrun | hout
    · rcases hrunning x hrun with hrun | rfl
      · exact .inl hrun
      · exact hid hx
    · exact .inr hout

end

end Inv

theorem passStep_inv (h : Inv s) (hphase : s.pass = some phase) (hstep : PassStep s phase a s') : Inv s' := by
  have hread : ∀ order status maxTimestamp, order.Perm s.table → ¬ status.Final →
      ∀ task ∈ getTasks order status maxTimestamp, Over s.log task.id → task.id ∈ s.runningTasks := by
    intro order status maxTimestamp hperm hstatus task htask hover
    obtain ⟨hmem, htest⟩ := mem_filter.mp ((mem_insertionSort _).mp (mem_of_mem_take htask))
    refine (h.kept _ hover).resolve_right fun hout => hstatus ?_
    rw [← (of_decide_eq_true htest).1]
    exact hout.1 task (hperm.mem_iff.mp hmem) rfl
  have hbounded := passStep_bounded h.bounded hphase hstep
  cases hstep with
  | readActive hperm | readScheduled hperm =>
    refine h.waiting rfl fun _ hp => ?_
    cases hp
    exact hread _ _ _ hperm (by decide)
  | @resume rows last now => exact h.goOn (fun task htask => h.rows_running hphase htask) now last
  | @activate task rows last timestamp =>
    have hnot := h.launching _ hphase task.id rfl
    have htable : Inv { s with table := updateScheduledTask s.table task.id timestamp (some .active) } :=
      h.changeTable fun id hid hclosed => closed_update hclosed fun he => absurd (he ▸ hid) hnot
    refine htable.passTo (Finset.Subset.refl _) hbounded (fun phase hp id hid => ?_) fun phase hp task htask => ?_
    · cases hp
      exact h.launching _ hphase id hid
    · cases hp
      exact h.rows_running hphase htask
  | @startTask task rows last now =>
    refine (h.start hphase rfl).goOn (fun task' htask' hover => ?_) now last
    exact h.rows_running hphase htask' (over_started.mp hover)
  | raised => exact h.waiting rfl nofun

theorem step_inv (h : Inv s) (hguard : Undisturbed s a) (hstep : Step s a s') : Inv s' := by
  have hbounded := step_bounded h.bounded hstep
  cases hstep with
  | registerAction => exact { h with }
  | scheduleTask hnew =>
    -- the id of a new task is of no task that is over
    refine h.changeTable fun id hid hclosed row hrow he => ?_
    rcases mem_snoc.mp hrow with hrow | rfl
    · exact hclosed row hrow he
    · obtain ⟨status, -, hlog⟩ := hid
      exact absurd he.symm (hnew _ hlog)
  | updateTask =>
    refine h.changeTable fun x hx hclosed => closed_update hclosed fun he st hst => ?_
    subst hst
    exact absurd (he ▸ hx) hguard
  | deleteTask => exact h.changeTable fun x _ hclosed row hrow => hclosed row (mem_filter.mp hrow).1
  | busy => exact h
  | launch =>
    refine h.waiting rfl fun _ hp task htask => ?_
    cases hp
    exact absurd htask not_mem_nil
  | returned hmem => exact h.returnedStep hmem
  | record hmem => exact h.recordStep hmem
  | recordRaises hmem =>
    -- the task stays among the running tasks
    exact h.finishStep (fun _ hid => .inl hid) (fun _ => .inl (h.bounded.running _ (List.mem_map_of_mem hmem))) hbounded
  | @remove id status hmem =>
    refine h.finishStep (fun x hx => ?_) (fun hover => .inr ?_) hbounded
    · by_cases hne : x = id
      · exact .inr hne
      · exact .inl (Finset.mem_erase.mpr ⟨hne, hx⟩)
    · obtain ⟨st, hst, hfinal⟩ := (h.returned _ hmem).mp hover
      cases hst
      exact ⟨h.recorded _ hmem status rfl hfinal, hguard hfinal⟩
  | pass hphase hpass => exact passStep_inv h hphase hpass

theorem start_inv (table : List ScheduledTask) : Inv (.start table) :=
  ⟨start_bounded table, Pairwise.nil, nofun, nofun, nofun, fun _ ⟨_, _, h⟩ => absurd h not_mem_nil⟩

/-- The tasks that run are at most five, and different. -/
def RunsFew (s : State) : Prop := s.wrappers.length ≤ maxConcurrentRunningTasks ∧ s.ids.Nodup

theorem Bounded.runsFew (h : Bounded s) : RunsFew s := by
  refine ⟨?_, h.nodup⟩
  have hsub : s.ids.toFinset ⊆ s.runningTasks := fun id hid => h.running id (List.mem_toFinset.mp hid)
  have hcard := Finset.card_le_card hsub
  rw [toFinset_card_of_nodup h.nodup, State.ids, length_map] at hcard
  exact hcard.trans h.card

/-- **What the scheduler runs.**  From any table, in every run no more than five tasks run at a time and none of them runs
twice; and if no task that is over leaves the running tasks while the pass still has its row, or is given another status,
then no task is started again when it is over. -/
theorem undisturbed_never_again (table : List ScheduledTask) (l : List Action) :
    (∀ s, run (.start table) l = some s → RunsFew s) ∧
      ∀ s, runUndisturbed (.start table) l = some s → NeverAgain s.log := by
  refine ⟨fun s hrun => ?_, fun s hrun => ?_⟩
  · exact Bounded.runsFew (run_preserves (fun h hstep => step_bounded h (step_cases hstep)) (start_bounded table) hrun)
  · exact (guarded_preserves (fun h hguard hstep => step_inv h hguard (step_cases hstep)) (start_inv table) hrun).log

namespace Stale

/-- A task that was active when the process stopped. -/
def table : List ScheduledTask := [⟨"task", "shutdown_and_purge_room", .active, 0⟩]

/-- The task is launched.  A later pass reads its row; before the pass goes on, the task returns, its status is stored and
it leaves the running tasks.  The pass then launches it from the row that it has read. -/
def actions : List Action :=
  [.registerAction "shutdown_and_purge_room", .launch, .read table, .resume 1, .activate 1, .startTask 1,
    .read [⟨"task", "shutdown_and_purge_room", .active, 1⟩], .resume 2, .launch,
    .read [⟨"task", "shutdown_and_purge_room", .active, 1⟩], .returned "task" .complete, .record "task" .complete 3,
    .remove "task" .complete, .resume 4, .activate 4, .startTask 4]

theorem started_again : ∃ s, run (.start table) actions = some s ∧
    s.log = [.started "task", .returned "task" .complete, .started "task"] ∧ ¬ NeverAgain s.log := by
  refine ⟨_, rfl, rfl, fun h => ?_⟩
  have hrest := (pairwise_cons.mp (pairwise_cons.mp h).2).1
  exact hrest (.started "task") mem_cons_self "task" .complete rfl (.inl rfl) rfl

/-- The task returns after the pass has gone on. -/
def inTurn : List Action :=
  [.registerAction "shutdown_and_purge_room", .launch, .read table, .resume 1, .activate 1, .startTask 1,
    .read [⟨"task", "shutdown_and_purge_room", .active, 1⟩], .resume 2, .returned "task" .complete,
    .record "task" .complete 3, .remove "task" .complete]

theorem inTurn_never_again : ∃ s, runUndisturbed (.start table) inTurn = some s ∧
    s.log = [.started "task", .returned "task" .complete] ∧ NeverAgain s.log :=
  ⟨_, rfl, rfl, (undisturbed_never_again table inTurn).2 _ rfl⟩

end Stale

end Synapse.Tasks
