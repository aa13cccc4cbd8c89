import Synapse.Lib.RowLocks
import Synapse.State.DeletionSafety

/-!
# Synapse.State.Isolation — marking and deleting groups in transactions that overlap

`_mark_state_groups_as_persisting_txn` and `_purge_unreferenced_state_groups` on PostgreSQL, whose transactions are
`REPEATABLE READ`.  A transaction has one snapshot, taken when its first statement begins; all it reads is in the snapshot.
The first statement of both locks rows of `state_groups`, one after the other, and waits for locks that conflict; a row
that has been deleted since the snapshot is an error.  What a transaction writes is there for others when it commits; it
is an error if a row that it writes has been changed since the snapshot.

* `Database`, `Transaction`, `Session`: the committed tables, and the transactions in progress with their locks.
* `step`: statements and commits, in any order.
* `Seen`: when a deletion gets the lock of a group, all marks of the group are in its snapshot.
* `Excluded`, `step_excluded`: a row that is locked is not deleted or marked by another transaction.
* **`marked_exist`**: in such runs no group is deleted while it is marked.
* `WriteSkew.marked_deleted`: a run in which one is.
-/

namespace Synapse.State

open Lib Finset Option

structure Database where
  tables : Tables
  pending : PendingTable
  /-- `state_groups_persisting` -/
  persisting : Finset (ℕ × String)

namespace Database

def empty : Database := ⟨.empty, ⟨∅, 0⟩, ∅⟩

variable (db : Database)

/-- The tables as the functions of the deletion read them. -/
def seenAt (now : ℕ) : System :=
  { System.empty with now := now, state := ⟨db.tables, fun _ => ∅⟩, pending := db.pending, persisting := db.persisting }

/-- `_finish_persisting_txn(txn, state_groups, error)` -/
def finishPersisting (now : ℕ) (instanceName : String) (groups : List ℕ) (error : Bool) : Database :=
  { db with
    persisting := db.persisting.filter fun p => ¬ (p.1 ∈ groups ∧ p.2 = instanceName)
    pending := if error then db.pending.bumpDeletion now groups else db.pending.delete groups.toFinset }

/-- The rows that a deletion writes are those of its snapshot. -/
def sameRows (snapshot : Database) (toDelete remaining : Finset ℕ) : Prop :=
  (∀ group ∈ toDelete, db.pending.rows.lookup group = snapshot.pending.rows.lookup group) ∧
    ∀ group ∈ toDelete ∪ remaining, db.tables.stateGroupEdges group = snapshot.tables.stateGroupEdges group ∧
      db.tables.stateGroupsState group = snapshot.tables.stateGroupsState group

instance (snapshot : Database) (toDelete remaining : Finset ℕ) : Decidable (db.sameRows snapshot toDelete remaining) :=
  inferInstanceAs (Decidable (_ ∧ _))

/-- A deletion commits; `t` is what the tables of its snapshot have become. -/
def purge (snapshot : Database) (t : Tables) (toDelete remaining : Finset ℕ) : Database :=
  { db with
    tables :=
      { lastGroup := db.tables.lastGroup
        stateGroups := db.tables.stateGroups \ (toDelete ∩ snapshot.tables.stateGroups)
        stateGroupEdges := fun group =>
          if group ∈ toDelete ∪ remaining then t.stateGroupEdges group else db.tables.stateGroupEdges group
        stateGroupsState := fun group =>
          if group ∈ toDelete ∪ remaining then t.stateGroupsState group else db.tables.stateGroupsState group }
    pending := db.pending.delete toDelete }

end Database

/-! ## Transactions -/

inductive Job where
  /-- `_mark_state_groups_as_persisting_txn` of an instance -/
  | mark (instanceName : String) (groups : Finset ℕ)
  /-- `_purge_unreferenced_state_groups`, for the groups and sequence numbers of a deleter -/
  | purge (d : Deleter)

namespace Job

/-- The rows that the first statement selects. -/
def groups : Job → Finset ℕ
  | .mark _ groups => groups
  | .purge d => d.remaining

def mode : Job → LockMode
  | .mark _ _ => .keyShare
  | .purge _ => .update

def isPurge : Job → Bool
  | .mark _ _ => false
  | .purge _ => true

end Job

structure Transaction where
  job : Job
  snapshot : Database
  /-- the rows that the first statement has not come to -/
  todo : Finset ℕ

structure Session where
  now : ℕ
  db : Database
  txns : ℕ → Option Transaction
  locks : LockTable ℕ ℕ

namespace Session

inductive Action where
  /-- time passes -/
  | tick (ms : ℕ)
  | storeGroup (stateGroup : ℕ) (ids : StateMap)
  | markStateGroupsAsPendingDeletion (groups : List ℕ)
  | finishPersisting (instanceName : String) (groups : List ℕ) (error : Bool)
  /-- the first statement of a transaction begins -/
  | begin (txn : ℕ) (job : Job)
  /-- and comes to the row of a group -/
  | lock (txn group : ℕ)
  /-- the other statements, and the commit -/
  | commit (txn : ℕ) (order : List ℕ)
  | rollback (txn : ℕ)

def empty : Session := ⟨0, .empty, fun _ => none, .empty⟩

variable (s : Session)

def finish (txn : ℕ) : Session :=
  { s with txns := Function.update s.txns txn none, locks := s.locks.release txn }

def setTodo (txn : ℕ) (tx : Transaction) (todo : Finset ℕ) : Session :=
  { s with txns := Function.update s.txns txn (some { tx with todo := todo }) }

/-- `SELECT id FROM state_groups WHERE ... FOR KEY SHARE` or `FOR UPDATE`, at one row. -/
def lockRow (txn group : ℕ) (tx : Transaction) : Option Session :=
  -- a row that is not in the snapshot is not selected
  if group ∉ tx.snapshot.tables.stateGroups then some (s.setTodo txn tx (tx.todo.erase group))
  -- could not serialize access due to concurrent delete
  else if group ∉ s.db.tables.stateGroups then some (s.finish txn)
  else (s.locks.acquire txn group tx.job.mode).map fun locks =>
    { s.setTodo txn tx (tx.todo.erase group) with locks := locks }

/-- The rest of `_mark_state_groups_as_persisting_txn`. -/
def commitMark (txn : ℕ) (tx : Transaction) (instanceName : String) (groups : Finset ℕ) : Session :=
  -- state groups that have been deleted, or marked by the instance, raise an exception
  if groups ⊆ tx.snapshot.tables.stateGroups ∧ ∀ group ∈ groups, (group, instanceName) ∉ s.db.persisting then
    { s with db := { s.db with
      persisting := s.db.persisting ∪ groups.image fun group => (group, instanceName) } }.finish txn
  else s.finish txn

/-- The rest of `_purge_unreferenced_state_groups`. -/
def commitPurge (txn : ℕ) (tx : Transaction) (d : Deleter) (order : List ℕ) : Option Session :=
  let toDelete := (tx.snapshot.seenAt s.now).getStateGroupsReadyForPotentialDeletion d d.remaining
  let remaining := remainingStateGroups tx.snapshot.tables toDelete
  if toDelete = ∅ then some (s.finish txn)
  else if order.toFinset = remaining then
    match purgeUnreferencedStateGroups tx.snapshot.tables .postgres toDelete order with
    | .ok t =>
      if s.db.sameRows tx.snapshot toDelete remaining then
        some ({ s with db := s.db.purge tx.snapshot t toDelete remaining }.finish txn)
      else some (s.finish txn)
    | .error _ => some (s.finish txn)
  else none

def step : Action → Option Session
  | .tick ms => some { s with now := s.now + ms }
  | .storeGroup stateGroup ids =>
    if s.db.tables.lastGroup < stateGroup then
      some { s with db := { s.db with tables := insertGroup s.db.tables stateGroup none ids } }
    else none
  | .markStateGroupsAsPendingDeletion groups =>
    some { s with db := { s.db with pending := s.db.pending.markStateGroupsAsPendingDeletion s.now groups } }
  | .finishPersisting instanceName groups error =>
    some { s with db := s.db.finishPersisting s.now instanceName groups error }
  | .begin txn job =>
    match s.txns txn with
    | none => some { s with txns := Function.update s.txns txn (some ⟨job, s.db, job.groups⟩) }
    | some _ => none
  | .lock txn group => (s.txns txn).bind fun tx => if group ∈ tx.todo then s.lockRow txn group tx else none
  | .commit txn order =>
    (s.txns txn).bind fun tx =>
      if tx.todo = ∅ then
        match tx.job with
        | .mark instanceName groups => some (s.commitMark txn tx instanceName groups)
        | .purge d => s.commitPurge txn tx d order
      else none
  | .rollback txn => (s.txns txn).map fun _ => s.finish txn

def run : List Action → Option Session := List.foldlM step s

/-- **When a deletion gets the lock of a group, all marks of the group are in its snapshot.** -/
def Seen : Action → Prop
  | .lock txn group => ∀ tx ∈ s.txns txn, tx.job.isPurge = true →
      ∀ p ∈ s.db.persisting, p.1 = group → p ∈ tx.snapshot.persisting
  | _ => True

instance (a : Action) : Decidable (s.Seen a) := by
  unfold Session.Seen
  split <;> infer_instance

def runSeen : List Action → Option Session := List.foldlM (fun s a => if s.Seen a then s.step a else none) s

end Session

/-! ## Locks -/

/-- The first statement has selected the row. -/
def Transaction.Selected (tx : Transaction) (group : ℕ) : Prop :=
  group ∈ tx.job.groups ∧ group ∉ tx.todo ∧ group ∈ tx.snapshot.tables.stateGroups

/-- Rows that are selected are locked and there; a deletion knows all marks of the rows that it has selected. -/
structure Excluded (s : Session) : Prop where
  marked : ∀ p ∈ s.db.persisting, p.1 ∈ s.db.tables.stateGroups
  locked : ∀ {txn tx}, s.txns txn = some tx → ∀ {group}, tx.Selected group →
    s.locks.Holds txn group tx.job.mode ∧ group ∈ s.db.tables.stateGroups
  seen : ∀ {txn tx}, s.txns txn = some tx → tx.job.isPurge = true → ∀ p ∈ s.db.persisting, tx.Selected p.1 →
    p ∈ tx.snapshot.persisting

theorem empty_excluded : Excluded .empty where
  marked := nofun
  locked h := nomatch h
  seen h := nomatch h

theorem Job.mode_of_isPurge {job : Job} (h : job.isPurge = true) : job.mode = .update := by
  cases job with
  | mark instanceName groups => cases h
  | purge d => rfl

namespace Excluded

variable {s : Session} {txn group : ℕ} {tx : Transaction}

theorem selected_once (h : Excluded s) (htx : s.txns txn = some tx) (hpurge : tx.job.isPurge = true)
    (hsel : tx.Selected group) {txn' : ℕ} {tx' : Transaction} (htx' : s.txns txn' = some tx')
    (hsel' : tx'.Selected group) : txn' = txn := by
  have hholds := (h.locked htx hsel).1
  rw [Job.mode_of_isPurge hpurge] at hholds
  exact LockTable.update_exclusive hholds (h.locked htx' hsel').1

theorem setDb (h : Excluded s) {now : ℕ} {db : Database} (hgroups : s.db.tables.stateGroups ⊆ db.tables.stateGroups)
    (hmarks : db.persisting ⊆ s.db.persisting) : Excluded { s with now := now, db := db } where
  marked p hp := hgroups (h.marked p (hmarks hp))
  locked htx _ hsel := ⟨(h.locked htx hsel).1, hgroups (h.locked htx hsel).2⟩
  seen htx hpurge p hp hsel := h.seen htx hpurge p (hmarks hp) hsel

theorem finish (h : Excluded s) (txn : ℕ) : Excluded (s.finish txn) where
  marked := h.marked
  locked htx _ hsel := by
    rcases update_eq_some htx with ⟨-, hnone⟩ | ⟨hne, htx⟩
    · cases hnone
    · exact ⟨LockTable.release_holds (h.locked htx hsel).1 hne, (h.locked htx hsel).2⟩
  seen htx hpurge p hp hsel := by
    rcases update_eq_some htx with ⟨-, hnone⟩ | ⟨-, htx⟩
    · cases hnone
    · exact h.seen htx hpurge p hp hsel

theorem begin (h : Excluded s) (txn : ℕ) (job : Job) :
    Excluded { s with txns := Function.update s.txns txn (some ⟨job, s.db, job.groups⟩) } where
  marked := h.marked
  locked htx _ hsel := by
    rcases update_eq_some htx with ⟨-, heq⟩ | ⟨-, htx⟩
    · cases heq
      exact absurd hsel.1 hsel.2.1
    · exact h.locked htx hsel
  seen htx hpurge p hp hsel := by
    rcases update_eq_some htx with ⟨-, heq⟩ | ⟨-, htx⟩
    · cases heq
      exact absurd hsel.1 hsel.2.1
    · exact h.seen htx hpurge p hp hsel

theorem selected_erase {g : ℕ} (hsel : Transaction.Selected { tx with todo := tx.todo.erase group } g) :
    tx.Selected g ∨ g = group := by
  by_cases hg : g = group
  · exact .inr hg
  · exact .inl ⟨hsel.1, fun hmem => hsel.2.1 (mem_erase.mpr ⟨hg, hmem⟩), hsel.2.2⟩

variable (h : Excluded s) (htx : s.txns txn = some tx)
include h htx

theorem lockRow (hseen : tx.job.isPurge = true →
    ∀ p ∈ s.db.persisting, p.1 = group → p ∈ tx.snapshot.persisting) {s' : Session}
    (hstep : s.lockRow txn group tx = some s') : Excluded s' := by
  unfold Session.lockRow at hstep
  by_cases hvisible : group ∈ tx.snapshot.tables.stateGroups
  · rw [if_neg (not_not.mpr hvisible)] at hstep
    by_cases hthere : group ∈ s.db.tables.stateGroups
    · rw [if_neg (not_not.mpr hthere)] at hstep
      obtain ⟨locks, hlocks, rfl⟩ := map_eq_some_iff.mp hstep
      obtain ⟨hholds, hkeep⟩ := LockTable.acquire_holds hlocks
      refine ⟨h.marked, fun {id tx'} htx' g hsel => ?_, fun {id tx'} htx' hpurge p hp hsel => ?_⟩
      · rcases update_eq_some htx' with ⟨rfl, heq⟩ | ⟨-, htx'⟩
        · cases heq
          rcases selected_erase hsel with hsel | rfl
          · exact ⟨hkeep (h.locked htx hsel).1, (h.locked htx hsel).2⟩
          · exact ⟨hholds, hthere⟩
        · exact ⟨hkeep (h.locked htx' hsel).1, (h.locked htx' hsel).2⟩
      · rcases update_eq_some htx' with ⟨rfl, heq⟩ | ⟨-, htx'⟩
        · cases heq
          rcases selected_erase hsel with hsel | hgroup
          · exact h.seen htx hpurge p hp hsel
          · exact hseen hpurge p hp hgroup
        · exact h.seen htx' hpurge p hp hsel
    · rw [if_pos hthere] at hstep
      cases hstep
      exact h.finish txn
  · -- the row is not selected
    rw [if_pos hvisible] at hstep
    cases hstep
    have hsame : ∀ {g}, Transaction.Selected { tx with todo := tx.todo.erase group } g → tx.Selected g := by
      intro g hsel
      rcases selected_erase hsel with hsel | rfl
      · exact hsel
      · exact absurd hsel.2.2 hvisible
    refine ⟨h.marked, fun {id tx'} htx' g hsel => ?_, fun {id tx'} htx' hpurge p hp hsel => ?_⟩
    · rcases update_eq_some htx' with ⟨rfl, heq⟩ | ⟨-, htx'⟩
      · cases heq
        exact h.locked htx (hsame hsel)
      · exact h.locked htx' hsel
    · rcases update_eq_some htx' with ⟨rfl, heq⟩ | ⟨-, htx'⟩
      · cases heq
        exact h.seen htx hpurge p hp (hsame hsel)
      · exact h.seen htx' hpurge p hp hsel

/-- **Marks.**  The rows of the groups are locked, so no deletion has selected them. -/
theorem commitMark (htodo : tx.todo = ∅) {instanceName : String}
    {groups : Finset ℕ} (hjob : tx.job = .mark instanceName groups) :
    Excluded (s.commitMark txn tx instanceName groups) := by
  unfold Session.commitMark
  split
  · rename_i hok
    have hselected : ∀ group ∈ groups, tx.Selected group := by
      intro group hg
      refine ⟨?_, ?_, hok.1 hg⟩
      · rw [hjob]
        exact hg
      · rw [htodo]
        exact notMem_empty _
    apply finish
    refine ⟨fun p hp => ?_, h.locked, fun {id tx'} htx' hpurge p hp hsel => ?_⟩
    · rcases mem_union.mp hp with hp | hp
      · exact h.marked p hp
      · obtain ⟨group, hg, rfl⟩ := mem_image.mp hp
        exact (h.locked htx (hselected group hg)).2
    rcases mem_union.mp hp with hp | hp
    · exact h.seen htx' hpurge p hp hsel
    obtain ⟨group, hg, rfl⟩ := mem_image.mp hp
    have hsame := h.selected_once htx' hpurge hsel htx (hselected group hg)
    subst hsame
    cases htx.symm.trans htx'
    rw [hjob] at hpurge
    cases hpurge
  · exact h.finish txn

/-- **Deletions.**  The groups that go are locked by nobody else, and have no marks. -/
theorem purge (htodo : tx.todo = ∅) {d : Deleter} (hjob : tx.job = .purge d) {toDelete remaining : Finset ℕ}
    (t : Tables) (hdel : toDelete = (tx.snapshot.seenAt s.now).getStateGroupsReadyForPotentialDeletion d d.remaining) :
    Excluded ({ s with db := s.db.purge tx.snapshot t toDelete remaining }.finish txn) := by
  have hpurge : tx.job.isPurge = true := by
    rw [hjob]
    rfl
  have hselected : ∀ group ∈ toDelete ∩ tx.snapshot.tables.stateGroups, tx.Selected group ∧
      ¬ (tx.snapshot.seenAt s.now).isPersisting group := by
    intro group hg
    obtain ⟨hg, hvisible⟩ := mem_inter.mp hg
    rw [hdel] at hg
    obtain ⟨hrem, hnp, -⟩ := mem_ready hg
    refine ⟨⟨?_, ?_, hvisible⟩, hnp⟩
    · rw [hjob]
      exact hrem
    · rw [htodo]
      exact notMem_empty _
  refine ⟨fun p hp => ?_, fun {id tx'} htx' g hsel => ?_, fun {id tx'} htx' hp' p hp hsel => ?_⟩
  · refine mem_sdiff.mpr ⟨h.marked p hp, fun hg => ?_⟩
    obtain ⟨hsel, hnp⟩ := hselected p.1 hg
    exact hnp ⟨p, h.seen htx hpurge p hp hsel, rfl⟩
  · rcases update_eq_some htx' with ⟨-, hnone⟩ | ⟨hne, htx'⟩
    · cases hnone
    · obtain ⟨hholds, hthere⟩ := h.locked htx' hsel
      refine ⟨LockTable.release_holds hholds hne, mem_sdiff.mpr ⟨hthere, fun hg => hne ?_⟩⟩
      exact h.selected_once htx hpurge (hselected g hg).1 htx' hsel
  · rcases update_eq_some htx' with ⟨-, hnone⟩ | ⟨-, htx'⟩
    · cases hnone
    · exact h.seen htx' hp' p hp hsel

theorem commitPurge (htodo : tx.todo = ∅) {d : Deleter}
    (hjob : tx.job = .purge d) {order : List ℕ} {s' : Session} (hstep : s.commitPurge txn tx d order = some s') :
    Excluded s' := by
  rw [Session.commitPurge] at hstep
  split at hstep
  · cases hstep
    exact h.finish txn
  split at hstep
  · split at hstep
    · split at hstep
      · cases hstep
        exact h.purge htx htodo hjob _ rfl
      · cases hstep
        exact h.finish txn
    · cases hstep
      exact h.finish txn
  · cases hstep

end Excluded

theorem step_excluded {s s' : Session} (h : Excluded s) {a : Session.Action} (hseen : s.Seen a)
    (hstep : s.step a = some s') : Excluded s' := by
  cases a with
  | tick | markStateGroupsAsPendingDeletion =>
    cases hstep
    exact h.setDb (Subset.refl _) (Subset.refl _)
  | storeGroup stateGroup ids =>
    obtain ⟨-, rfl⟩ := ite_some_none_eq_some.mp hstep
    exact h.setDb (subset_insert ..) (Subset.refl _)
  | finishPersisting instanceName groups error =>
    cases hstep
    exact h.setDb (Subset.refl _) (filter_subset ..)
  | begin txn job =>
    rw [Session.step] at hstep
    split at hstep
    · cases hstep
      exact h.begin txn job
    · cases hstep
  | lock txn group =>
    obtain ⟨tx, htx, hstep⟩ := bind_eq_some_iff.mp hstep
    obtain ⟨-, hstep⟩ := ite_none_right_eq_some.mp hstep
    exact h.lockRow htx (hseen tx htx) hstep
  | commit txn order =>
    obtain ⟨tx, htx, hstep⟩ := bind_eq_some_iff.mp hstep
    obtain ⟨htodo, hstep⟩ := ite_none_right_eq_some.mp hstep
    split at hstep
    · cases hstep
      exact h.commitMark htx htodo ‹_›
    · exact h.commitPurge htx htodo ‹_› hstep
  | rollback txn =>
    obtain ⟨-, -, rfl⟩ := map_eq_some_iff.mp hstep
    exact h.finish txn

/-- **No group is deleted while it is marked.**  However the statements of marking and deleting transactions interleave:
if all marks of a group are in the snapshot of a deletion when it gets the lock of the group, then in every state each
group that is marked as being persisted is there. -/
theorem marked_exist {actions : List Session.Action} {s : Session} (hrun : Session.empty.runSeen actions = some s) :
    ∀ group instanceName, (group, instanceName) ∈ s.db.persisting → group ∈ s.db.tables.stateGroups := by
  have h : Excluded s := guarded_preserves (fun h hseen hstep => step_excluded h hseen hstep) empty_excluded hrun
  exact fun group instanceName hp => h.marked _ hp

/-! ## A snapshot from before the mark -/

namespace WriteSkew

def deleter : Deleter := ⟨{1}, fun _ => 1, ∅, ∅, false⟩

/-- A group that has been proposed for deletion for long enough. -/
def proposed : List Session.Action :=
  [.storeGroup 1 ∅, .markStateGroupsAsPendingDeletion [1], .tick delayBeforeDeletionMs]

def marking : Session.Action := .begin 0 (.mark "worker" {1})

def deleting : Session.Action := .begin 1 (.purge deleter)

/-- The deletion takes its snapshot and waits for the lock of the marking transaction, which only locks the row. -/
def waits : List Session.Action :=
  [marking, .lock 0 1, deleting, .commit 0 [], .lock 1 1, .commit 1 []]

/-- The deletion takes its snapshot after the commit. -/
def comesLater : List Session.Action :=
  [marking, .lock 0 1, .commit 0 [], deleting, .lock 1 1, .commit 1 []]

/-- The group is marked, and it is gone. -/
theorem marked_deleted : ∃ s, Session.empty.run (proposed ++ waits) = some s ∧
    (1, "worker") ∈ s.db.persisting ∧ 1 ∉ s.db.tables.stateGroups := by
  have h : ((Session.empty.run (proposed ++ waits)).map fun s =>
      decide ((1, "worker") ∈ s.db.persisting ∧ 1 ∉ s.db.tables.stateGroups)) = some true := by decide +kernel
  obtain ⟨s, hs, h⟩ := map_eq_some_iff.mp h
  exact ⟨s, hs, of_decide_eq_true h⟩

theorem marked_kept : ∃ s, Session.empty.runSeen (proposed ++ comesLater) = some s ∧
    (1, "worker") ∈ s.db.persisting ∧ 1 ∈ s.db.tables.stateGroups := by
  have h : ((Session.empty.runSeen (proposed ++ comesLater)).map fun s =>
      decide ((1, "worker") ∈ s.db.persisting)) = some true := by decide +kernel
  obtain ⟨s, hs, h⟩ := map_eq_some_iff.mp h
  exact ⟨s, hs, of_decide_eq_true h, marked_exist hs 1 "worker" (of_decide_eq_true h)⟩

end WriteSkew

end Synapse.State
