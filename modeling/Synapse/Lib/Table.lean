import Mathlib.Algebra.GroupWithZero.Nat
import Mathlib.Data.List.Dedup

/-!
# Synapse.Lib.Table — tables with a unique key

* `Table`: rows with different keys.
* `update`: `UPDATE … WHERE`, on the rows whose key satisfies a condition.
* `find_update`, `find_upsert`, `find_upsertMany`, `find_erase`: what is found at a key afterwards.
-/

namespace Synapse.Lib

open List Option

structure Table (κ β : Type) where
  rows : List (κ × β)
  nodup : (rows.map Prod.fst).Nodup

namespace Table

variable {κ β : Type} [DecidableEq κ]

def empty : Table κ β := ⟨[], List.nodup_nil⟩

def find (t : Table κ β) (k : κ) : Option β := t.rows.lookup k

/-- `UPDATE … WHERE p` -/
def update (t : Table κ β) (p : κ → Bool) (f : κ → β → β) : Table κ β where
  rows := t.rows.map fun row => (row.1, if p row.1 then f row.1 row.2 else row.2)
  nodup := by
    rw [List.map_map]
    exact t.nodup

theorem lookup_map (rows : List (κ × β)) (g : κ → β → β) (k : κ) :
    (rows.map fun row => (row.1, g row.1 row.2)).lookup k = (rows.lookup k).map (g k) := by
  induction rows with
  | nil => rfl
  | cons row rows ih =>
    obtain ⟨k', b⟩ := row
    rw [map_cons, lookup_cons, lookup_cons]
    by_cases hk : k = k'
    · subst hk
      simp
    · have hbeq : (k == k') = false := by simpa using hk
      simp [hbeq, ih]

theorem find_update (t : Table κ β) (p : κ → Bool) (f : κ → β → β) (k : κ) :
    (t.update p f).find k = (t.find k).map fun b => if p k then f k b else b :=
  lookup_map t.rows (fun k b => if p k then f k b else b) k

theorem mem_rows {t : Table κ β} {k : κ} {b : β} : (k, b) ∈ t.rows ↔ t.find k = some b := by
  obtain ⟨rows, hnodup⟩ := t
  show (k, b) ∈ rows ↔ rows.lookup k = some b
  induction rows with
  | nil => simp
  | cons row rows ih =>
    obtain ⟨k', b'⟩ := row
    obtain ⟨hne, hrest⟩ := nodup_cons.mp hnodup
    rw [lookup_cons]
    by_cases hk : k = k'
    · subst hk
      have hnot : (k, b) ∉ rows := fun h => hne (List.mem_map.mpr ⟨(k, b), h, rfl⟩)
      simp [hnot, eq_comm]
    · have hbeq : (k == k') = false := by simpa using hk
      simp [hbeq, hk, ih hrest]

theorem find_isSome {t : Table κ β} {k : κ} : (t.find k).isSome ↔ k ∈ t.rows.map Prod.fst := by
  rw [isSome_iff_exists, List.mem_map]
  constructor
  · rintro ⟨b, hb⟩
    exact ⟨(k, b), mem_rows.mpr hb, rfl⟩
  · rintro ⟨⟨k', b⟩, hmem, rfl⟩
    exact ⟨b, mem_rows.mp hmem⟩

/-- `INSERT … ON CONFLICT DO UPDATE`; `f` makes the new row from the old one. -/
def upsert (t : Table κ β) (k : κ) (f : Option β → β) : Table κ β :=
  if h : k ∈ t.rows.map Prod.fst then t.update (· = k) fun _ b => f (some b)
  else
    { rows := t.rows ++ [(k, f none)]
      nodup := by
        rw [List.map_append, List.map_singleton]
        exact List.Nodup.append t.nodup (List.nodup_singleton k) (by simpa [List.disjoint_singleton] using h) }

theorem find_upsert (t : Table κ β) (k k' : κ) (f : Option β → β) :
    (t.upsert k f).find k' = if k' = k then some (f (t.find k)) else t.find k' := by
  unfold upsert
  by_cases h : k ∈ t.rows.map Prod.fst
  · obtain ⟨b, hb⟩ := isSome_iff_exists.mp (find_isSome.mpr h)
    rw [dif_pos h, find_update]
    by_cases hk : k' = k
    · subst hk
      simp [hb]
    · simp [hk]
  have hnone : t.find k = none := by
    rw [← not_isSome_iff_eq_none, find_isSome]
    exact h
  rw [dif_neg h]
  show (t.rows ++ [(k, f none)]).lookup k' = _
  rw [lookup_append, hnone]
  by_cases hk : k' = k
  · subst hk
    rw [if_pos rfl, show t.rows.lookup k' = none from hnone]
    simp
  · have hbeq : (k' == k) = false := by simpa using hk
    rw [if_neg hk]
    simp [lookup_cons, hbeq, find]

/-- Upserts at some keys, with values that do not depend on each other. -/
def upsertMany (t : Table κ β) (keys : List κ) (f : κ → Option β → β) : Table κ β :=
  keys.foldl (fun t k => t.upsert k (f k)) t

theorem find_upsertMany {keys : List κ} (hkeys : keys.Nodup) (t : Table κ β) (f : κ → Option β → β) (k : κ) :
    (t.upsertMany keys f).find k = if k ∈ keys then some (f k (t.find k)) else t.find k := by
  induction keys generalizing t with
  | nil => simp [upsertMany]
  | cons x xs ih =>
    obtain ⟨hx, hxs⟩ := nodup_cons.mp hkeys
    show ((t.upsert x (f x)).upsertMany xs f).find k = _
    rw [ih hxs, find_upsert]
    by_cases hk : k = x
    · subst hk
      simp [hx]
    · simp [hk]

/-- `DELETE … WHERE key = k` -/
def erase (t : Table κ β) (k : κ) : Table κ β where
  rows := t.rows.filter fun row => row.1 ≠ k
  nodup := t.nodup.sublist (List.filter_sublist.map _)

theorem find_erase (t : Table κ β) (k k' : κ) : (t.erase k).find k' = if k' = k then none else t.find k' := by
  refine Option.ext fun b => ?_
  rw [← mem_rows, show (t.erase k).rows = t.rows.filter fun row => row.1 ≠ k from rfl, mem_filter, mem_rows]
  by_cases hk : k' = k
  · simp [hk]
  · simp [hk]

end Table

end Synapse.Lib
