import Mathlib.Data.Fintype.EquivFin

/-!
# Synapse.Lib.Sparse — functions with a base value and finitely many entries above it

A vector clock that lists only the components that are ahead.

* `Sparse`, `Sparse.value`: the function that a base value and entries above it stand for.
* `mem_entries_iff`: the entries are determined by the function.
* `value_le_iff`, `value_eq_iff`: comparing and equating functions by what is listed, for infinitely many keys.
* `value_of_entries`: a function is encoded by listing where it is above the base.
-/

namespace Synapse.Lib

open List

/-- A base value, and entries above it for some keys. -/
structure Sparse (κ α : Type) [LinearOrder α] where
  base : α
  entries : List (κ × α)
  nodup : (entries.map Prod.fst).Nodup
  above : ∀ e ∈ entries, base < e.2

namespace Sparse

variable {κ α : Type} [DecidableEq κ] [LinearOrder α]

def keys (c : Sparse κ α) : List κ := c.entries.map Prod.fst

def value (c : Sparse κ α) (k : κ) : α := (c.entries.lookup k).getD c.base

variable {c d : Sparse κ α} {k : κ} {v : α}

theorem lookup_eq_some : c.entries.lookup k = some v ↔ (k, v) ∈ c.entries := by
  obtain ⟨base, entries, nodup, above⟩ := c
  show entries.lookup k = some v ↔ (k, v) ∈ entries
  clear above
  induction entries with
  | nil => simp
  | cons e entries ih =>
    obtain ⟨k', v'⟩ := e
    obtain ⟨hne, hrest⟩ := nodup_cons.mp nodup
    rw [lookup_cons]
    by_cases hk : k = k'
    · subst hk
      have hnot : (k, v) ∉ entries := fun h => hne (mem_map.mpr ⟨(k, v), h, rfl⟩)
      simp [hnot, eq_comm]
    · have hbeq : (k == k') = false := by simpa using hk
      simp [hbeq, hk, ih hrest]

theorem value_of_mem (h : (k, v) ∈ c.entries) : c.value k = v := by
  rw [value, lookup_eq_some.mpr h]
  rfl

theorem value_of_notMem (h : k ∉ c.keys) : c.value k = c.base := by
  have hnone : c.entries.lookup k = none := by
    rw [Option.eq_none_iff_forall_ne_some]
    intro v hv
    exact h (mem_map.mpr ⟨(k, v), lookup_eq_some.mp hv, rfl⟩)
  rw [value, hnone]
  rfl

theorem base_le_value (c : Sparse κ α) (k : κ) : c.base ≤ c.value k := by
  by_cases hk : k ∈ c.keys
  · obtain ⟨⟨k, v⟩, hmem, rfl⟩ := mem_map.mp hk
    rw [value_of_mem hmem]
    exact (c.above _ hmem).le
  · rw [value_of_notMem hk]

theorem mem_entries_iff : (k, v) ∈ c.entries ↔ c.value k = v ∧ c.base < v := by
  constructor
  · intro h
    exact ⟨value_of_mem h, c.above _ h⟩
  rintro ⟨hv, hlt⟩
  by_cases hk : k ∈ c.keys
  · obtain ⟨⟨k, v'⟩, hmem, rfl⟩ := mem_map.mp hk
    rw [value_of_mem hmem] at hv
    exact hv ▸ hmem
  · rw [value_of_notMem hk] at hv
    exact absurd hv hlt.ne

theorem value_of_entries {f : κ → α} (hbase : ∀ k, c.base ≤ f k)
    (hentries : ∀ k v, (k, v) ∈ c.entries ↔ f k = v ∧ c.base < v) (k : κ) : c.value k = f k := by
  rcases (hbase k).eq_or_lt with heq | hlt
  · refine (value_of_notMem fun hk => ?_).trans heq
    obtain ⟨⟨k, v⟩, hmem, rfl⟩ := mem_map.mp hk
    obtain ⟨hv, hlt⟩ := (hentries k v).mp hmem
    exact hlt.ne (heq.trans hv)
  · exact value_of_mem ((hentries k (f k)).mpr ⟨rfl, hlt⟩)

section Infinite

variable [Infinite κ]

theorem exists_notMem (c d : Sparse κ α) : ∃ k, k ∉ c.keys ∧ k ∉ d.keys := by
  obtain ⟨k, hk⟩ := Infinite.exists_notMem_finset (c.keys ++ d.keys).toFinset
  rw [mem_toFinset, mem_append, not_or] at hk
  exact ⟨k, hk⟩

theorem value_le_iff : (∀ k, c.value k ≤ d.value k) ↔
    c.base ≤ d.base ∧ ∀ k ∈ c.keys ++ d.keys, c.value k ≤ d.value k := by
  constructor
  · intro h
    obtain ⟨k, hc, hd⟩ := exists_notMem c d
    have hk := h k
    rw [value_of_notMem hc, value_of_notMem hd] at hk
    exact ⟨hk, fun k _ => h k⟩
  rintro ⟨hbase, hlisted⟩ k
  by_cases hk : k ∈ c.keys ++ d.keys
  · exact hlisted k hk
  · rw [mem_append, not_or] at hk
    rw [value_of_notMem hk.1, value_of_notMem hk.2]
    exact hbase

/-- **Equality by what is listed**, in any order. -/
theorem value_eq_iff : (∀ k, c.value k = d.value k) ↔ c.base = d.base ∧ c.entries.Perm d.entries := by
  constructor
  · intro h
    obtain ⟨k, hc, hd⟩ := exists_notMem c d
    have hbase : c.base = d.base := by
      rw [← value_of_notMem hc, ← value_of_notMem hd]
      exact h k
    refine ⟨hbase, (perm_ext_iff_of_nodup c.nodup.of_map d.nodup.of_map).mpr fun e => ?_⟩
    obtain ⟨k, v⟩ := e
    rw [mem_entries_iff, mem_entries_iff, h k, hbase]
  · rintro ⟨hbase, hperm⟩
    refine value_of_entries (fun k => hbase ▸ d.base_le_value k) fun k v => ?_
    rw [hperm.mem_iff, mem_entries_iff, hbase]

end Infinite

end Sparse

end Synapse.Lib
