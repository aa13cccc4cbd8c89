import Synapse.State.DeletionSafety

/-!
# Synapse.State.Crash — event persisters that crash while groups are deleted

A persister that crashes leaves its marks in `state_groups_persisting`; when it starts again, `_clear_existing_persising`
deletes them.  The rows of `state_groups_pending_deletion` stay as they are.

* `Cluster`: the system of `Synapse.State.Deletion`, and the instances that are down.
* `Unchecked`: a persister does not start again while a deletion has looked up a group that it had marked.
* `step_safeCluster`: the invariant `Safe` is kept by crashes, and by such restarts.
* **`crash_safe`**: in such runs no group is deleted that an accepted event refers to.
* `Restart.used_deleted`: a run in which one is.
-/

namespace Synapse.State

open Lib Finset Option

structure Cluster where
  system : System
  /-- the instances that have crashed and not started again -/
  down : Finset String

def System.dropTasks (s : System) (instanceName : String) : System :=
  { s with tasks := fun room => (s.tasks room).filter fun task => task.instanceName ≠ instanceName }

def System.clearExistingPersising (s : System) (instanceName : String) : System :=
  { s with persisting := s.persisting.filter fun p => p.2 ≠ instanceName }

def Txn.persister : Txn → Option String
  | .markAsPersisting _ instanceName _ => some instanceName
  | _ => none

namespace Cluster

inductive Action where
  | txn (t : Txn)
  /-- the process is gone, between two of its transactions -/
  | crash (instanceName : String)
  | restart (instanceName : String)

def empty : Cluster := ⟨.empty, ∅⟩

def step (engine : Engine) (c : Cluster) : Action → Option Cluster
  | .txn t =>
    if ∀ instanceName ∈ t.persister, instanceName ∉ c.down then
      (c.system.step engine t).map fun s => { c with system := s }
    else none
  | .crash instanceName =>
    if instanceName ∈ c.down then none
    else some ⟨c.system.dropTasks instanceName, insert instanceName c.down⟩
  | .restart instanceName =>
    if instanceName ∈ c.down then some ⟨c.system.clearExistingPersising instanceName, c.down.erase instanceName⟩ else none

def run (engine : Engine) (c : Cluster) : List Action → Option Cluster := List.foldlM (step engine) c

/-- **A persister does not start again while a deletion has looked up a group that it had marked**: a deletion that is
going to delete the group has still to see whether it is referenced. -/
def Unchecked (c : Cluster) : Action → Prop
  | .restart instanceName => ∀ p ∈ c.system.persisting, p.2 = instanceName →
      ∀ d ∈ c.system.deleters, p.1 ∈ d.remaining → p.1 ∈ d.unchecked
  | _ => True

instance (c : Cluster) (a : Action) : Decidable (Unchecked c a) := by
  unfold Unchecked
  split <;> infer_instance

def runUnchecked (engine : Engine) (c : Cluster) : List Action → Option Cluster :=
  List.foldlM (fun c a => if Unchecked c a then step engine c a else none) c

end Cluster

/-! ## Batches -/

section Tasks

variable {s s' : System} {engine : Engine}

theorem tasks_persistEvent {e : EventContext} (h : s.persistEvent e = some s') : s'.tasks = s.tasks := by
  rcases persistEvent_cases h with rfl | ⟨-, rfl | ⟨_, -, -, rfl⟩⟩
  · rfl
  · rfl
  · rfl

theorem tasks_persistEvents (events : List EventContext) : (s.persistEvents events).tasks = s.tasks := by
  unfold System.persistEvents
  rcases hrun : (EventContext.filterDuplicates events).foldlM System.persistEvent s with _ | s'
  · rfl
  · exact (run_rule (R := fun s s' : System => s'.tasks = s.tasks) (fun _ => rfl)
      (fun h h' => h'.trans h) (fun _ he => ⟨trivial, tasks_persistEvent he⟩) trivial hrun).2

theorem tasks_purgeDeleter {d : Deleter} {deleter : ℕ} {order : List ℕ}
    (h : s.purgeDeleter engine d deleter order = some s') : s'.tasks = s.tasks := by
  rw [System.purgeDeleter] at h
  split at h
  · cases h
    rfl
  split at h
  · split at h <;>
    · cases h
      rfl
  · cases h

theorem step_tasks {t : Txn} (h : s.step engine t = some s') {room : String} {task : PersistTask}
    (htask : s'.tasks room = some task) : s.tasks room = some task ∨ t.persister = some task.instanceName := by
  cases t with
  | markAsPersisting room' instanceName events =>
    rw [System.step] at h
    split at h
    · split at h
      · cases h
        exact .inl htask
      split at h
      · cases h
        exact .inl htask
      rename_i hmark
      cases h
      rcases update_eq_some htask with ⟨-, heq⟩ | ⟨-, htask⟩
      · cases heq
        exact .inr rfl
      · obtain ⟨-, rfl⟩ := ite_some_none_eq_some.mp hmark
        exact .inl htask
    · cases h
  | persistEvents room' events =>
    rw [System.step] at h
    split at h
    · cases h
    obtain ⟨-, rfl⟩ := ite_some_none_eq_some.mp h
    rw [tasks_persistEvents] at htask
    exact .inl htask
  | finishPersisting room' error order =>
    rw [System.step] at h
    split at h
    · cases h
    obtain ⟨-, rfl⟩ := ite_some_none_eq_some.mp h
    rcases update_eq_some htask with ⟨-, hnone⟩ | ⟨-, htask⟩
    · cases hnone
    · exact .inl htask
  | purge deleter order =>
    rw [System.step] at h
    split at h
    · cases h
    · obtain ⟨-, h⟩ := ite_none_right_eq_some.mp h
      rw [tasks_purgeDeleter h] at htask
      exact .inl htask
  | tick | insertDeltaGroup | insertFullState | storeStateDeltasForBatched | checkStateGroupsAndBumpDeletion
  | markStateGroupsAsPendingDeletion | fetch | checkReferenced | markStateGroupsAsUsed =>
    rw [System.step] at h
    repeat' split at h
    all_goals first | contradiction | (cases h; exact .inl htask)

end Tasks

/-! ## Crashes and restarts -/

section Crashes

variable {s : System} {instanceName : String}

theorem safe_dropTasks (h : Safe s) (instanceName : String) : Safe (s.dropTasks instanceName) := by
  have hsub : ∀ {room task}, (s.dropTasks instanceName).tasks room = some task → s.tasks room = some task :=
    fun htask => (filter_eq_some_iff.mp htask).1
  exact { h with
    tasks := fun room task htask => h.tasks room task (hsub htask)
    apart := fun room room' task task' htask htask' => h.apart room room' task task' (hsub htask) (hsub htask') }

/-- **A restart keeps the invariant** if the groups that lose their marks are still to be looked up. -/
theorem safe_clearExistingPersising (h : Safe s)
    (hdown : ∀ room task, s.tasks room = some task → task.instanceName ≠ instanceName)
    (hunc : ∀ p ∈ s.persisting, p.2 = instanceName → ∀ d ∈ s.deleters, p.1 ∈ d.remaining → p.1 ∈ d.unchecked) :
    Safe (s.clearExistingPersising instanceName) where
  __ := h
  tasks room task htask := by
    obtain ⟨href, hall⟩ := h.tasks room task htask
    exact ⟨href, fun group hg => ⟨mem_filter.mpr ⟨(hall group hg).1, hdown room task htask⟩, (hall group hg).2⟩⟩
  checked d hd group hg hu hr huse := by
    refine (h.checked d hd group hg hu hr huse).imp_left ?_
    rintro ⟨p, hp, rfl⟩
    refine ⟨p, mem_filter.mpr ⟨hp, fun hname => ?_⟩, rfl⟩
    exact hu (hunc p hp hname d hd (mem_sdiff.mpr ⟨hg, hr⟩))

end Crashes

/-- What holds in every reachable state: the batches are those of instances that are up. -/
structure SafeCluster (c : Cluster) : Prop where
  safe : Safe c.system
  up : ∀ room task, c.system.tasks room = some task → task.instanceName ∉ c.down

theorem safeCluster_empty : SafeCluster .empty := ⟨safe_empty, nofun⟩

section Runs

variable {c c' : Cluster} {engine : Engine}

theorem step_safeCluster (h : SafeCluster c) {a : Cluster.Action} (hunc : Cluster.Unchecked c a)
    (hstep : c.step engine a = some c') : SafeCluster c' ∧ c.system.Keeps c'.system := by
  cases a with
  | txn t =>
    obtain ⟨hup, hstep⟩ := ite_none_right_eq_some.mp hstep
    obtain ⟨s, hs, rfl⟩ := map_eq_some_iff.mp hstep
    obtain ⟨hsafe, hkeep⟩ := step_safe h.safe hs
    refine ⟨⟨hsafe, fun room task htask => ?_⟩, hkeep⟩
    rcases step_tasks hs htask with htask | hname
    · exact h.up room task htask
    · exact hup _ hname
  | crash instanceName =>
    obtain ⟨-, hstep⟩ := ite_none_left_eq_some.mp hstep
    cases hstep
    refine ⟨⟨safe_dropTasks h.safe instanceName, fun room task htask => ?_⟩, fun _ _ hl => hl⟩
    obtain ⟨htask, hname⟩ := filter_eq_some_iff.mp htask
    rw [mem_insert, not_or]
    exact ⟨of_decide_eq_true hname, h.up room task htask⟩
  | restart instanceName =>
    obtain ⟨hdown, rfl⟩ := ite_some_none_eq_some.mp hstep
    refine ⟨⟨safe_clearExistingPersising h.safe (fun room task htask hname => ?_) hunc, fun room task htask hmem => ?_⟩,
      fun _ _ hl => hl⟩
    · exact h.up room task htask (hname ▸ hdown)
    · exact h.up room task htask (mem_of_mem_erase hmem)

theorem run_safeCluster (h : SafeCluster c) {actions : List Cluster.Action}
    (hrun : c.runUnchecked engine actions = some c') : SafeCluster c' ∧ c.system.Keeps c'.system := by
  refine run_rule (R := fun c c' => c.system.Keeps c'.system) (fun _ _ _ hl => hl)
    (fun hkeep hkeep' eventId ref hl => hkeep' eventId ref (hkeep eventId ref hl)) (fun hc hstep => ?_) h hrun
  obtain ⟨hunc, hstep⟩ := ite_none_right_eq_some.mp hstep
  exact step_safeCluster hc hunc hstep

/-- **No group in use is deleted, whatever crashes.**  Take any run, and any run after it, with crashes and restarts
anywhere.  If no persister starts again while a deletion is past its check of a group that the persister had marked, then
a group that a persisted accepted event refers to still exists later. -/
theorem crash_safe (engine : Engine) {actions actions' : List Cluster.Action} {c c' : Cluster}
    (hrun : Cluster.empty.runUnchecked engine actions = some c) (hrun' : c.runUnchecked engine actions' = some c') :
    ∀ eventId ref, c.system.eventToStateGroups.lookup eventId = some ref → ref.accepted = true →
      ref.stateGroup ∈ c'.system.stateGroups := by
  intro eventId ref hl hacc
  have hsafe := (run_safeCluster safeCluster_empty hrun).1
  obtain ⟨hsafe', hkeep⟩ := run_safeCluster hsafe hrun'
  exact hsafe'.safe.used _ ⟨eventId, ref, hkeep eventId ref hl, hacc, rfl⟩

end Runs

/-! ## A restart at the wrong time -/

namespace Restart

def event : EventContext := ⟨"$event", [], false, false, false, some 1, none⟩

/-- A group has been proposed for deletion for long enough, and a deletion takes it up. -/
def proposed : List Cluster.Action :=
  [.txn (.insertFullState "!room" 1 (Finmap.singleton ("m.room.create", "") "$create")),
    .txn (.markStateGroupsAsPendingDeletion [1]), .txn (.tick (delayBeforeDeletionMs + 1)), .txn (.fetch "!room" 0)]

/-- A worker persists an event with the group, and crashes before it can take its mark away. -/
def persisted : List Cluster.Action :=
  [.txn (.markAsPersisting "!room" "worker" [event]), .txn (.persistEvents "!room" [event]), .crash "worker"]

def looksUp : Cluster.Action := .txn (.checkReferenced 0 {1})

/-- The worker starts again, and the deletion goes on. -/
def deletion : List Cluster.Action := [.restart "worker", .txn (.purge 0 [])]

/-- The deletion has looked up the group before the event is persisted: it deletes the group. -/
theorem used_deleted : ∃ c c', Cluster.empty.run .postgres (proposed ++ [looksUp] ++ persisted) = some c ∧
    c.run .postgres deletion = some c' ∧ c.system.eventToStateGroups.lookup "$event" = some ⟨1, true⟩ ∧
    1 ∉ c'.system.stateGroups := by
  have h : ((Cluster.empty.run .postgres (proposed ++ [looksUp] ++ persisted)).bind fun c =>
      (c.run .postgres deletion).map fun c' =>
        decide (c.system.eventToStateGroups.lookup "$event" = some ⟨1, true⟩ ∧ 1 ∉ c'.system.stateGroups)) =
      some true := by decide +kernel
  obtain ⟨c, hc, h⟩ := bind_eq_some_iff.mp h
  obtain ⟨c', hc', h⟩ := map_eq_some_iff.mp h
  obtain ⟨href, hdel⟩ := of_decide_eq_true h
  exact ⟨c, c', hc, hc', href, hdel⟩

/-- The worker starts again, the deletion looks up the group, and leaves it alone. -/
def lookedUpLater : List Cluster.Action := [.restart "worker", looksUp, .txn (.markStateGroupsAsUsed 0), .txn (.purge 0 [])]

theorem used_kept : ∃ c c', Cluster.empty.runUnchecked .postgres (proposed ++ persisted) = some c ∧
    c.runUnchecked .postgres lookedUpLater = some c' ∧
    c.system.eventToStateGroups.lookup "$event" = some ⟨1, true⟩ ∧ 1 ∈ c'.system.stateGroups := by
  have h : ((Cluster.empty.runUnchecked .postgres (proposed ++ persisted)).bind fun c =>
      (c.runUnchecked .postgres lookedUpLater).map fun _ =>
        decide (c.system.eventToStateGroups.lookup "$event" = some ⟨1, true⟩)) = some true := by decide +kernel
  obtain ⟨c, hc, h⟩ := bind_eq_some_iff.mp h
  obtain ⟨c', hc', h⟩ := map_eq_some_iff.mp h
  have href := of_decide_eq_true h
  exact ⟨c, c', hc, hc', href, crash_safe .postgres hc hc' "$event" _ href rfl⟩

end Restart

end Synapse.State
