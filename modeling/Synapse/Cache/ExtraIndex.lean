import Synapse.Cache.Lru

/-!
# Synapse.Cache.ExtraIndex — invalidation by a second key

The `extra_index` of `LruCache` in `synapse/util/caches/lrucache.py`: a dict from an index key, which `extra_index_cb`
makes of a key and its value, to the set of keys that have it.  No set in it is empty, so it is a relation here.

* `Indexed`, `run_indexed`: the index is that of the current values.
* `KeepsIndexKeys`: no value is overwritten by one with another index key.
* **`invalidate_exact`**: then invalidation by an index key removes exactly the entries that have it.
-/

namespace Synapse.Cache

open List LruCache

structure IndexedCache (K V C I : Type) where
  cache : LruCache K V C
  sizeCallback : V → ℕ
  extraIndexCb : K → V → I
  extraIndex : I → K → Bool

inductive IndexedOp (K V C I : Type) where
  | get (key : K) (callbacks : List C) (updateLastAccess : Bool)
  | set (key : K) (value : V) (callbacks : List C)
  | setDefault (key : K) (value : V)
  | delMulti (p : K → Bool)
  | clear
  | setCacheFactor (factor : ℚ≥0)
  | invalidateOnExtraIndex (indexKey : I)

namespace IndexedCache

variable {K V C I : Type} [DecidableEq K] [DecidableEq I] (c : IndexedCache K V C I)

/-- The key has a value with the index key. -/
def hasIndexKey (i : I) (k : K) : Bool := (c.cache.find k).any fun n => c.extraIndexCb k n.value = i

/-- `delete_node`, for the nodes that are not left: a key leaves the set of the index key of its current value. -/
def deleteNodes (left : LruCache K V C) : IndexedCache K V C I :=
  { c with
    cache := left
    extraIndex := fun i k => c.extraIndex i k && !((left.find k).isNone && c.hasIndexKey i k) }

/-- `cache_invalidate_on_extra_index`: the set of the index key is popped, then the nodes of its keys are deleted. -/
def invalidateOnExtraIndex (indexKey : I) : IndexedCache K V C I :=
  deleteNodes { c with extraIndex := fun i k => i ≠ indexKey && c.extraIndex i k }
    (c.cache.delMulti (c.extraIndex indexKey)).1

/-- The index is that of the current values. -/
def Indexed : Prop := ∀ i k, c.extraIndex i k = c.hasIndexKey i k

variable {c}

namespace Indexed

variable (h : c.Indexed)
include h

theorem delete {left : LruCache K V C} (hsub : ∀ {k n}, left.find k = some n → c.cache.find k = some n) :
    (c.deleteNodes left).Indexed := by
  intro i k
  show (c.extraIndex i k && !((left.find k).isNone && c.hasIndexKey i k)) = (left.find k).any _
  rw [h i k]
  cases hleft : left.find k with
  | none => simp
  | some n => simp [hasIndexKey, hsub hleft, deleteNodes]

theorem delMulti (p : K → Bool) : (c.deleteNodes (c.cache.delMulti p).1).Indexed := by
  refine h.delete fun hn => ?_
  rw [find_delMulti] at hn
  split at hn
  · cases hn
  · exact hn

theorem find_invalidate (i : I) (k : K) : (c.invalidateOnExtraIndex i).cache.find k =
    (c.cache.find k).filter fun n => c.extraIndexCb k n.value ≠ i := by
  refine (find_delMulti _).trans ?_
  rw [h i k, hasIndexKey]
  cases c.cache.find k with
  | none => rfl
  | some n => by_cases hn : c.extraIndexCb k n.value = i <;> simp [Option.filter, hn]

theorem invalidate (i : I) : (c.invalidateOnExtraIndex i).Indexed := by
  intro j k
  have hkept := h.delMulti (c.extraIndex i) j k
  by_cases hj : j = i
  · -- no node with the index key is left
    rw [hasIndexKey, h.find_invalidate]
    cases c.cache.find k <;> simp [invalidateOnExtraIndex, deleteNodes, hj]
  · refine Eq.trans ?_ hkept
    simp [invalidateOnExtraIndex, deleteNodes, hj, hasIndexKey]

end Indexed

variable [DecidableEq C] [BEq V]

/-- `cache_set`.  Only `add_node` writes to the index: a key that is overwritten stays under its old index key. -/
def set (c : IndexedCache K V C I) (key : K) (value : V) (callbacks : List C) : IndexedCache K V C I :=
  let front : LruCache K V C := { c.cache with nodes := c.cache.setNode key value callbacks :: c.cache.others key }
  let index i k := c.extraIndex i k || (c.cache.find key).isNone && k = key && i = c.extraIndexCb key value
  deleteNodes { c with cache := front, extraIndex := index } (front.evict c.sizeCallback).1

def step (c : IndexedCache K V C I) : IndexedOp K V C I → IndexedCache K V C I
  | .get key callbacks updateLastAccess => { c with cache := (c.cache.cacheGet key callbacks updateLastAccess).2 }
  | .set key value callbacks => c.set key value callbacks
  | .setDefault key value => if (c.cache.find key).isSome then c else c.set key value []
  | .delMulti p => c.deleteNodes (c.cache.delMulti p).1
  | .clear => { c with cache := c.cache.clear.1, extraIndex := fun _ _ => false }
  | .setCacheFactor factor => c.deleteNodes (c.cache.setCacheFactor c.sizeCallback factor).1
  | .invalidateOnExtraIndex indexKey => c.invalidateOnExtraIndex indexKey

theorem Indexed.set (h : c.Indexed) {key : K} {value : V} {callbacks : List C}
    (hsame : ∀ n ∈ c.cache.find key, c.extraIndexCb key n.value = c.extraIndexCb key value) :
    (c.set key value callbacks).Indexed := by
  refine delete (fun i k => ?_) find_of_evict
  rw [hasIndexKey, find_setNode]
  dsimp only
  rw [h i k, hasIndexKey]
  by_cases hk : k = key
  · subst hk
    cases hfind : c.cache.find k with
    | none => simp [setNode, Node.addCallbacks, eq_comm]
    | some n => simp [hsame n hfind, setNode, Node.addCallbacks]
  · simp [hk]

/-- No operation overwrites a value by one with another index key. -/
def KeepsIndexKeys : IndexedCache K V C I → List (IndexedOp K V C I) → Prop
  | _, [] => True
  | c, op :: ops => (∀ key value callbacks, op = .set key value callbacks →
      ∀ n ∈ c.cache.find key, c.extraIndexCb key n.value = c.extraIndexCb key value) ∧ KeepsIndexKeys (c.step op) ops

theorem run_indexed {ops : List (IndexedOp K V C I)} (h : c.Indexed) (hops : c.KeepsIndexKeys ops) :
    (ops.foldl step c).Indexed := by
  induction ops generalizing c with
  | nil => exact h
  | cons op ops ih =>
    refine ih ?_ hops.2
    cases op with
    | get key callbacks access =>
      intro i k
      show c.extraIndex i k = ((c.cache.cacheGet key callbacks access).2.find k).any _
      rw [get_find, h i k, hasIndexKey]
      cases c.cache.find k with
      | none => rfl
      | some n =>
        split <;> rfl
    | set key value callbacks => exact h.set (hops.1 _ _ _ rfl)
    | setDefault key value =>
      rw [step]
      split
      · exact h
      · rename_i hnone
        exact h.set fun n hn => absurd (Option.isSome_of_mem hn) hnone
    | delMulti p => exact h.delMulti p
    | clear => exact fun _ _ => rfl
    | setCacheFactor factor => exact h.delete find_of_setCacheFactor
    | invalidateOnExtraIndex i => exact h.invalidate i

def new (maxSize : ℕ) (sizeCallback : V → ℕ) (extraIndexCb : K → V → I) : IndexedCache K V C I :=
  ⟨.empty maxSize, sizeCallback, extraIndexCb, fun _ _ => false⟩

/-- **Invalidation by an index key.**  In a run that overwrites no value by one with another index key, it removes exactly
the entries whose current value has the index key. -/
theorem invalidate_exact {maxSize : ℕ} {sizeCallback : V → ℕ} {extraIndexCb : K → V → I} {ops : List (IndexedOp K V C I)}
    (h : KeepsIndexKeys (new maxSize sizeCallback extraIndexCb) ops) (i : I) (k : K) :
    let c := ops.foldl step (new maxSize sizeCallback extraIndexCb)
    (c.invalidateOnExtraIndex i).cache.find k = (c.cache.find k).filter fun n => c.extraIndexCb k n.value ≠ i :=
  Indexed.find_invalidate (run_indexed (fun _ _ => rfl) h) i k

/-- The key `0` is set twice; the index key is the parity of the value. -/
def twice (value value' : ℕ) : List (IndexedOp ℕ ℕ Empty ℕ) := [.set 0 value [], .set 0 value' []]

def byParity : IndexedCache ℕ ℕ Empty ℕ := new 10 (fun _ => 1) fun _ value => value % 2

theorem invalidate_same_key : (((twice 1 3).foldl step byParity).invalidateOnExtraIndex 1).cache.find 0 = none :=
  @invalidate_exact _ _ _ _ _ _ _ _ 10 _ _ (twice 1 3) ⟨nofun, fun | _, _, _, rfl, _, hn => by cases hn; rfl, trivial⟩ 1 0

/-- The entry of an overwritten key is found under the index key of its old value only. -/
theorem invalidate_overwritten : let c := (twice 1 2).foldl step byParity
    c.cache.find 0 = some ⟨0, 2, []⟩ ∧ (c.invalidateOnExtraIndex 0).cache.find 0 = some ⟨0, 2, []⟩ ∧
      (c.invalidateOnExtraIndex 1).cache.find 0 = none := by
  decide

end IndexedCache

end Synapse.Cache
