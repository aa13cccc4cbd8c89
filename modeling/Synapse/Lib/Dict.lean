import Mathlib.Data.Finmap
import Mathlib.Data.List.Sort

/-!
# Synapse.Lib.Dict — finite maps as dicts, sets, sorted lists

Operations of dicts on `Finmap`: `update`, where the entries of the argument win, `restrict`, which keeps the entries of
some keys, and `setItems`, which sets the items of some keys; and the lookups after items have been set or deleted.
`foldl_iff` is the rule of loops that collect, such as unions, and `insert_all` that of what is true of all items.
`SetOrder` is the order in which sets are iterated over, and `insertionSort_eq_of_perm` says when sorting undoes it.
-/

namespace Synapse.Lib

open List Finmap Function

/-- The order in which sets are iterated over, which is arbitrary. -/
structure SetOrder (α : Type) where
  iter : Finset α → List α
  nodup : ∀ s, (iter s).Nodup
  mem : ∀ s x, x ∈ iter s ↔ x ∈ s

/-- A fold of which each step adds what is true of its own element. -/
theorem foldl_iff {σ α : Type} {f : σ → α → σ} {P : σ → Prop} {Q : α → Prop} (h : ∀ s a, P (f s a) ↔ P s ∨ Q a)
    (l : List α) (s : σ) : P (l.foldl f s) ↔ P s ∨ ∃ a ∈ l, Q a := by
  induction l generalizing s with
  | nil => simp
  | cons a l ih => rw [foldl_cons, ih, h, or_assoc, exists_mem_cons_iff]

variable {κ β : Type} [DecidableEq κ]

theorem lookup_insert_eq (d : Finmap fun _ : κ => β) (k k' : κ) (b : β) :
    (d.insert k b).lookup k' = if k' = k then some b else d.lookup k' := by
  split_ifs with hk
  · rw [hk, lookup_insert]
  · rw [lookup_insert_of_ne _ hk]

theorem lookup_erase_eq (d : Finmap fun _ : κ => β) (k k' : κ) :
    (d.erase k).lookup k' = if k' = k then none else d.lookup k' := by
  split_ifs with hk
  · rw [hk, lookup_erase]
  · rw [lookup_erase_ne hk]

theorem insert_all {P : κ → β → Prop} {d : Finmap fun _ : κ => β} {k : κ} {b : β}
    (h : ∀ j c, d.lookup j = some c → P j c) (hb : P k b) (j : κ) (c : β) (hj : (d.insert k b).lookup j = some c) :
    P j c := by
  rw [lookup_insert_eq] at hj
  split at hj
  · next hk =>
    cases hj
    exact hk ▸ hb
  · exact h j c hj

theorem update_eq_some {d : κ → Option β} {k k' : κ} {new : Option β} {b : β}
    (h : Function.update d k new k' = some b) : (k' = k ∧ new = some b) ∨ (k' ≠ k ∧ d k' = some b) := by
  by_cases hk : k' = k
  · subst hk
    rw [update_self] at h
    exact .inl ⟨rfl, h⟩
  · rw [update_of_ne hk] at h
    exact .inr ⟨hk, h⟩

/-- `for k in keys: d[k] = b` -/
theorem lookup_foldl_insert (keys : List κ) (b : β) (d : Finmap fun _ : κ => β) (k : κ) :
    (keys.foldl (fun d k => d.insert k b) d).lookup k = if k ∈ keys then some b else d.lookup k := by
  induction keys generalizing d with
  | nil => simp
  | cons x xs ih =>
    rw [foldl_cons, ih, lookup_insert_eq]
    by_cases hxs : k ∈ xs
    · simp [hxs]
    · by_cases hx : k = x <;> simp [hx]

/-- `for k, b in entries: d[k] = b`, for any kind of dict. -/
theorem lookup_foldl_entries {δ : Type} (insert : δ → κ → β → δ) (lookup : δ → κ → Option β)
    (hinsert : ∀ d k b k', lookup (insert d k b) k' = if k' = k then some b else lookup d k')
    {entries : List (Σ _ : κ, β)} (hnd : entries.NodupKeys) (d : δ) (k : κ) :
    lookup (entries.foldl (fun d e => insert d e.1 e.2) d) k = (entries.dlookup k).or (lookup d k) := by
  induction entries generalizing d with
  | nil => simp
  | cons e entries ih =>
    obtain ⟨x, b⟩ := e
    obtain ⟨hx, hnd⟩ := nodupKeys_cons.mp hnd
    rw [foldl_cons, ih hnd, hinsert]
    by_cases hk : k = x
    · subst hk
      rw [dlookup_cons_eq, dlookup_eq_none.mpr hx, if_pos rfl]
      rfl
    · rw [dlookup_cons_ne _ _ hk, if_neg hk]

/-- `for k in keys: v = f(k); if v is not None: d[k] = v` -/
def setItems (f : κ → Option β) (d : Finmap fun _ : κ => β) (keys : List κ) : Finmap fun _ : κ => β :=
  keys.foldl (fun d k => (f k).elim d (d.insert k)) d

theorem lookup_setItems (f : κ → Option β) (d : Finmap fun _ : κ => β) (keys : List κ) (k : κ) :
    (setItems f d keys).lookup k = if k ∈ keys then (f k).or (d.lookup k) else d.lookup k := by
  induction keys generalizing d with
  | nil => rfl
  | cons x xs ih =>
    have hx : ((f x).elim d (d.insert x)).lookup k = if k = x then (f k).or (d.lookup k) else d.lookup k := by
      by_cases hk : k = x
      · subst hk
        cases hfk : f k with
        | none => simp
        | some b => simp
      · rw [if_neg hk]
        cases hfx : f x with
        | none => rfl
        | some b => exact lookup_insert_of_ne _ hk
    rw [setItems, foldl_cons, ← setItems, ih, hx]
    by_cases hk : k = x
    · by_cases hxs : k ∈ xs <;> cases f k <;> simp [hk]
    · simp [hk]

theorem lookup_setItems_of {f : κ → Option β} {keys : List κ} {k : κ} (h : k ∉ keys → f k = none)
    (d : Finmap fun _ : κ => β) : (setItems f d keys).lookup k = (f k).or (d.lookup k) := by
  rw [lookup_setItems]
  split
  · rfl
  · rw [h ‹_›]
    rfl

/-- `d.update(entries)` -/
def update (d entries : Finmap fun _ : κ => β) : Finmap fun _ : κ => β := entries ∪ d

theorem lookup_union (d e : Finmap fun _ : κ => β) (k : κ) : (d ∪ e).lookup k = (d.lookup k <|> e.lookup k) := by
  rcases hk : d.lookup k with _ | b
  · rw [lookup_union_right (lookup_eq_none.mp hk)]
    rfl
  · rw [lookup_union_left (mem_iff.mpr ⟨b, hk⟩), hk]
    rfl

theorem lookup_update (d e : Finmap fun _ : κ => β) (k : κ) : (update d e).lookup k = (e.lookup k <|> d.lookup k) :=
  lookup_union e d k

/-- `{k: v for k, v in d.items() if p(k)}` -/
def restrict (p : κ → Bool) (d : Finmap fun _ : κ => β) : Finmap fun _ : κ => β where
  entries := d.entries.filter fun e => p e.1
  nodupKeys := by
    rw [← Multiset.nodup_keys]
    exact Multiset.nodup_of_le (Multiset.map_le_map (Multiset.filter_le _ _)) (Multiset.nodup_keys.mpr d.nodupKeys)

variable {p : κ → Bool} {d e : Finmap fun _ : κ => β} {k : κ}

theorem lookup_restrict (p : κ → Bool) (d : Finmap fun _ : κ => β) (k : κ) :
    (restrict p d).lookup k = if p k then d.lookup k else none := by
  refine Option.ext fun b => ?_
  rw [Finmap.lookup_eq_some_iff, show (restrict p d).entries = d.entries.filter fun e => p e.1 from rfl,
    Multiset.mem_filter, ← Finmap.lookup_eq_some_iff]
  by_cases hp : p k = true
  · simp [hp]
  · simp [hp]

theorem restrict_union : restrict p (d ∪ e) = restrict p d ∪ restrict p e := by
  refine ext_lookup fun k => ?_
  simp only [lookup_union, lookup_restrict]
  split <;> rfl

/-! ## Sorted lists -/

/-- **Sorting by a key that tells the elements apart** gives one list for all orders. -/
theorem insertionSort_eq_of_perm {α ι : Type} [LinearOrder ι] (key : α → ι) {l l' : List α} (hperm : l.Perm l')
    (hkey : ∀ a ∈ l, ∀ b ∈ l, key a = key b → a = b) :
    l.insertionSort (fun a b => key a ≤ key b) = l'.insertionSort (fun a b => key a ≤ key b) := by
  let r : α → α → Prop := fun a b => key a ≤ key b
  have hperm' : (l.insertionSort r).Perm (l'.insertionSort r) :=
    (perm_insertionSort r l).trans (hperm.trans (perm_insertionSort r l').symm)
  refine Perm.eq_of_pairwise (fun a b ha hb hab hba => ?_) (pairwise_insertionSort r l)
    (pairwise_insertionSort r l') hperm'
  refine hkey a ((mem_insertionSort r).mp ha) b ?_ (le_antisymm hab hba)
  exact hperm.mem_iff.mpr ((mem_insertionSort r).mp hb)

end Synapse.Lib
