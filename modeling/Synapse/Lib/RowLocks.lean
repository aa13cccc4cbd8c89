import Mathlib.Data.List.Basic

/-!
# Synapse.Lib.RowLocks — the row locks of transactions

* `LockMode`: `FOR KEY SHARE` and `FOR UPDATE`.
* `LockTable`: locks of which no two conflict; `acquire`, which waits, and `release`.
* `acquire_holds`, `release_holds`: who holds what afterwards.
* `update_exclusive`: a row that is locked for update is locked by nobody else.
-/

namespace Synapse.Lib

open List

inductive LockMode where
  | keyShare
  | update
  deriving DecidableEq

/-- Locks for update conflict with all others. -/
def LockMode.conflicts : LockMode → LockMode → Bool
  | .keyShare, .keyShare => false
  | _, _ => true

theorem LockMode.conflicts_comm (m m' : LockMode) : m.conflicts m' = m'.conflicts m := by
  cases m <;> cases m' <;> rfl

structure RowLock (τ ρ : Type) where
  txn : τ
  row : ρ
  mode : LockMode

/-- Locks of different transactions on one row do not conflict. -/
structure LockTable (τ ρ : Type) where
  locks : List (RowLock τ ρ)
  compatible : ∀ l ∈ locks, ∀ l' ∈ locks, l.row = l'.row → l.txn ≠ l'.txn → l.mode.conflicts l'.mode = false

namespace LockTable

variable {τ ρ : Type} [DecidableEq τ]

def empty : LockTable τ ρ := ⟨[], nofun⟩

variable (k : LockTable τ ρ) (t : τ) (r : ρ) (m : LockMode)

def Holds : Prop := ⟨t, r, m⟩ ∈ k.locks

def release : LockTable τ ρ where
  locks := k.locks.filter fun l => l.txn ≠ t
  compatible l hl l' hl' := k.compatible l (List.mem_of_mem_filter hl) l' (List.mem_of_mem_filter hl')

section

variable {k t r m} {t' : τ} {m' : LockMode}

theorem release_holds (h : k.Holds t' r m) (hne : t' ≠ t) : (k.release t).Holds t' r m :=
  mem_filter.mpr ⟨h, decide_eq_true hne⟩

theorem update_exclusive (h : k.Holds t r .update) (h' : k.Holds t' r m') : t' = t := by
  by_contra hne
  have hconflict := k.compatible _ h' _ h rfl hne
  cases m' <;> cases hconflict

end

variable [DecidableEq ρ]

/-- No other transaction has a lock in the way. -/
def CanAcquire : Prop :=
  ∀ l ∈ k.locks, l.row = r → l.txn ≠ t → l.mode.conflicts m = false

instance : Decidable (k.CanAcquire t r m) :=
  inferInstanceAs (Decidable (∀ l ∈ k.locks, l.row = r → l.txn ≠ t → l.mode.conflicts m = false))

/-- Lock a row; `none` while another transaction has it. -/
def acquire : Option (LockTable τ ρ) :=
  if h : k.CanAcquire t r m then
    some ⟨⟨t, r, m⟩ :: k.locks, by
      intro l hl l' hl' hrow htxn
      rcases List.mem_cons.mp hl with rfl | hl
      · rcases List.mem_cons.mp hl' with rfl | hl'
        · exact absurd rfl htxn
        · rw [LockMode.conflicts_comm]
          exact h l' hl' hrow.symm (Ne.symm htxn)
      · rcases List.mem_cons.mp hl' with rfl | hl'
        · exact h l hl hrow htxn
        · exact k.compatible l hl l' hl' hrow htxn⟩
  else none

theorem acquire_holds {k k' : LockTable τ ρ} {t : τ} {r : ρ} {m : LockMode} (h : k.acquire t r m = some k') :
    k'.Holds t r m ∧ ∀ {t' r' m'}, k.Holds t' r' m' → k'.Holds t' r' m' := by
  unfold acquire at h
  split at h
  · cases h
    exact ⟨mem_cons_self, fun h => mem_cons_of_mem _ h⟩
  · cases h

end LockTable

end Synapse.Lib
