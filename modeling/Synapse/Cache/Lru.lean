import Mathlib.Data.Multiset.Bind
import Mathlib.Data.NNRat.Floor
import Synapse.Lib.Dict

/-!
# Synapse.Cache.Lru — the least-recently-used cache

`LruCache` of `synapse/util/caches/lrucache.py`.  Its dict (or tree of dicts) and its linked list are one list of nodes
here, the most recently used first.  Operations return the callbacks they run, as a multiset: the order in which Python
iterates a set is not specified.  `del_multi` takes a predicate on keys, since a `TreeCache` deletes all keys with a
given prefix.

* `find_of_evict`, `find_of_set`, `find_delMulti`, `get_find`: what an operation leaves under a key.
* `evict_find`, `set_find_of_ne`, `set_find_self`, `ran_delMulti`: a callback stays attached to its node or runs.
-/

namespace Synapse.Cache

open List

structure Node (K V C : Type) where
  key : K
  value : V
  callbacks : List C
  deriving DecidableEq

structure LruCache (K V C : Type) where
  originalMaxSize : ℕ
  maxSize : ℕ
  nodes : List (Node K V C)

variable {K V C : Type}

/-- `add_callbacks`, without duplicates. -/
def Node.addCallbacks [DecidableEq C] (n : Node K V C) (callbacks : List C) : Node K V C :=
  { n with callbacks := callbacks.foldl (fun cbs cb => if cb ∈ cbs then cbs else cbs ++ [cb]) n.callbacks }

theorem Node.mem_addCallbacks [DecidableEq C] {n : Node K V C} {callbacks : List C} {cb : C} :
    cb ∈ (n.addCallbacks callbacks).callbacks ↔ cb ∈ n.callbacks ∨ cb ∈ callbacks := by
  have hstep : ∀ (cbs : List C) x, cb ∈ (if x ∈ cbs then cbs else cbs ++ [x]) ↔ cb ∈ cbs ∨ cb = x := by
    intro cbs x
    split
    · next hx => exact ⟨.inl, fun h => h.elim id fun h => h ▸ hx⟩
    · simp
  exact (Lib.foldl_iff (P := (cb ∈ ·)) hstep callbacks n.callbacks).trans (by simp)

namespace LruCache

def empty (maxSize : ℕ) : LruCache K V C := ⟨maxSize, maxSize, []⟩

def callbacksOf (nodes : List (Node K V C)) : Multiset C := (nodes.flatMap Node.callbacks : List C)

theorem mem_callbacksOf {nodes : List (Node K V C)} {cb : C} :
    cb ∈ callbacksOf nodes ↔ ∃ n ∈ nodes, cb ∈ n.callbacks := by
  simp [callbacksOf]

/-! ## Eviction -/

section Evict

variable (size : V → ℕ)

/-- `cache_len`; without a `size_callback` every node counts as one. -/
def len (c : LruCache K V C) : ℕ := (c.nodes.map fun n => size n.value).sum

/-- The loop of `evict`, with fuel: the last node is the oldest. -/
def evictLoop : ℕ → LruCache K V C → LruCache K V C × Multiset C
  | 0, c => (c, 0)
  | fuel + 1, c =>
    if c.maxSize < c.len size then
      match c.nodes.getLast? with
      | none => (c, 0)
      | some node =>
        let r := evictLoop fuel { c with nodes := c.nodes.dropLast }
        (r.1, node.callbacks + r.2)
    else (c, 0)

def evict (c : LruCache K V C) : LruCache K V C × Multiset C := evictLoop size c.nodes.length c

def setCacheFactor (c : LruCache K V C) (factor : ℚ≥0) : LruCache K V C × Multiset C :=
  let newSize := ⌊(c.originalMaxSize : ℚ≥0) * factor⌋₊
  if newSize ≠ c.maxSize then evict size { c with maxSize := newSize } else (c, 0)

variable {size}

/-- The kept nodes are the most recent ones, and the callbacks of the others have run. -/
theorem evictLoop_split (size : V → ℕ) (fuel : ℕ) (c : LruCache K V C) : ∃ dropped,
    c.nodes = (evictLoop size fuel c).1.nodes ++ dropped ∧ (evictLoop size fuel c).2 = callbacksOf dropped.reverse := by
  fun_induction evictLoop size fuel c with
  | case3 fuel c hlt node hlast r ih =>
    obtain ⟨dropped, hsplit, hran⟩ := ih
    refine ⟨dropped ++ [node], ?_, ?_⟩
    · rw [← List.append_assoc, ← hsplit]
      exact (dropLast_append_getLast? node hlast).symm
    · rw [hran]
      simp [callbacksOf]
  | _ => exact ⟨[], by simp, rfl⟩

end Evict

/-! ## The operations -/

section Operations

variable [DecidableEq K]

/-- `cache.get(key)` on the underlying dict. -/
def find (c : LruCache K V C) (key : K) : Option (Node K V C) := c.nodes.find? fun n => n.key = key

def others (c : LruCache K V C) (key : K) : List (Node K V C) := c.nodes.filter fun n => n.key ≠ key

/-- `cache_get`: the value; the node comes to the front and gets the callbacks. -/
def cacheGet [DecidableEq C] (c : LruCache K V C) (key : K) (callbacks : List C) (updateLastAccess : Bool) :
    Option V × LruCache K V C :=
  match c.find key with
  | none => (none, c)
  | some node =>
    let nodes := if updateLastAccess then node.addCallbacks callbacks :: c.others key
      else c.nodes.map fun n => if n.key = key then n.addCallbacks callbacks else n
    (some node.value, { c with nodes := nodes })

/-- `cache_set`: the callbacks of a node run when its value changes. -/
def cacheSet [DecidableEq C] [BEq V] (size : V → ℕ) (c : LruCache K V C) (key : K) (value : V) (callbacks : List C) :
    LruCache K V C × Multiset C :=
  match c.find key with
  | some node =>
    let changed := value != node.value
    let kept := if changed then [] else node.callbacks
    let r := evict size { c with nodes := Node.addCallbacks ⟨key, value, kept⟩ callbacks :: c.others key }
    (r.1, (if changed then (node.callbacks : Multiset C) else 0) + r.2)
  | none => evict size { c with nodes := Node.addCallbacks ⟨key, value, []⟩ callbacks :: c.nodes }

/-- `cache_del_multi`, for the keys below a key of the tree; `cache_pop` and the expiry of old entries delete one key. -/
def delMulti (c : LruCache K V C) (p : K → Bool) : LruCache K V C × Multiset C :=
  ({ c with nodes := c.nodes.filter fun n => !p n.key }, callbacksOf (c.nodes.filter fun n => p n.key))

/-- `cache_clear` -/
def clear (c : LruCache K V C) : LruCache K V C × Multiset C := ({ c with nodes := [] }, callbacksOf c.nodes)

variable {c : LruCache K V C} {key k : K} {n : Node K V C} {size : V → ℕ} {cb : C}

theorem key_of_find (h : c.find key = some n) : n.key = key := by
  simpa using find?_some h

theorem find_front {node : Node K V C} {s t : ℕ} (c : LruCache K V C) (k : K) (hk : node.key = key) :
    find ⟨s, t, node :: c.others key⟩ k = if k = key then some node else c.find k := by
  unfold find others
  rw [find?_cons]
  split_ifs with h
  · rw [decide_eq_true (hk.trans h.symm)]
  rw [decide_eq_false (fun h' => h (h'.symm.trans hk)), find?_filter]
  refine congrArg (find? · _) (funext fun x => ?_)
  by_cases hx : x.key = k
  · simp [hx, h]
  · simp [hx]

theorem others_of_find_none (h : c.find key = none) : c.others key = c.nodes := by
  refine filter_eq_self.mpr fun n hn => ?_
  simpa using find?_eq_none.mp h n hn

theorem find_of_evict (h : (c.evict size).1.find k = some n) : c.find k = some n := by
  obtain ⟨dropped, hsplit, -⟩ := evictLoop_split size c.nodes.length c
  unfold find at h ⊢
  rw [hsplit, find?_append, show find? _ (evictLoop size c.nodes.length c).1.nodes = _ from h]
  rfl

theorem find_of_setCacheFactor {factor : ℚ≥0} (h : (c.setCacheFactor size factor).1.find k = some n) :
    c.find k = some n := by
  unfold setCacheFactor at h
  dsimp only at h
  split at h
  · have hfind := find_of_evict h
    exact hfind
  · exact h

theorem evict_find (size : V → ℕ) (h : c.find k = some n) :
    (c.evict size).1.find k = some n ∨ ∀ cb ∈ n.callbacks, cb ∈ (c.evict size).2 := by
  obtain ⟨dropped, hsplit, hran⟩ := evictLoop_split size c.nodes.length c
  unfold find at h
  rw [hsplit, find?_append] at h
  cases hkept : (evictLoop size c.nodes.length c).1.nodes.find? (fun n => n.key = k) with
  | some m =>
    rw [hkept] at h
    exact .inl (hkept.trans h)
  | none =>
    rw [hkept, Option.none_or] at h
    refine .inr fun cb hcb => ?_
    rw [show (c.evict size).2 = callbacksOf dropped.reverse from hran, mem_callbacksOf]
    exact ⟨n, mem_reverse.mpr (mem_of_find?_eq_some h), hcb⟩

theorem setCacheFactor_find (size : V → ℕ) (factor : ℚ≥0) (h : c.find k = some n) :
    (c.setCacheFactor size factor).1.find k = some n ∨ ∀ cb ∈ n.callbacks, cb ∈ (c.setCacheFactor size factor).2 := by
  unfold setCacheFactor
  dsimp only
  split
  · exact evict_find size h
  · exact .inl h

theorem find_delMulti (p : K → Bool) : (c.delMulti p).1.find k = if p k then none else c.find k := by
  unfold delMulti find
  rw [find?_filter]
  split_ifs with hp
  · rw [find?_eq_none]
    rintro n -
    by_cases hn : n.key = k <;> simp [hn, hp]
  refine congrArg (find? · _) (funext fun x => ?_)
  by_cases hx : x.key = k
  · simp [hx, hp]
  · simp [hx]

theorem ran_delMulti {p : K → Bool} (hp : p k = true) (h : c.find k = some n) (hcb : cb ∈ n.callbacks) :
    cb ∈ (c.delMulti p).2 := by
  refine mem_callbacksOf.mpr ⟨n, mem_filter.mpr ⟨mem_of_find?_eq_some h, ?_⟩, hcb⟩
  rwa [key_of_find h]

theorem ran_clear (h : c.find k = some n) (hcb : cb ∈ n.callbacks) : cb ∈ c.clear.2 :=
  mem_callbacksOf.mpr ⟨n, mem_of_find?_eq_some h, hcb⟩

section Get

variable [DecidableEq C] {callbacks : List C} {access : Bool}

theorem get_eq : (c.cacheGet key callbacks access).1 = (c.find key).map Node.value := by
  unfold cacheGet
  cases c.find key <;> rfl

theorem get_find : (c.cacheGet key callbacks access).2.find k =
    (c.find k).map fun n => if k = key then n.addCallbacks callbacks else n := by
  unfold cacheGet
  cases hfind : c.find key with
  | none =>
    by_cases hk : k = key
    · simp [hk, hfind]
    · simp [hk]
  | some node =>
    cases access with
    | true =>
      dsimp only
      rw [if_pos rfl, find_front c k (by simpa [Node.addCallbacks] using key_of_find hfind)]
      by_cases hk : k = key
      · rw [if_pos hk, hk, hfind]
        simp
      · simp [hk]
    | false =>
      dsimp only
      rw [if_neg Bool.false_ne_true]
      unfold find
      rw [find?_map]
      have hpred : (fun n : Node K V C => decide (n.key = k)) ∘
          (fun n => if n.key = key then n.addCallbacks callbacks else n) = fun n => decide (n.key = k) := by
        funext n
        by_cases hn : n.key = key <;> simp [hn, Node.addCallbacks]
      rw [hpred]
      cases hk : c.nodes.find? (fun n => decide (n.key = k)) with
      | none => rfl
      | some n =>
        have : n.key = k := by simpa using find?_some hk
        simp [this]

end Get

section Set

variable [DecidableEq C] [BEq V] {value : V} {callbacks : List C}

/-- The callbacks that a key keeps when it is set, and those that run before the eviction. -/
def keptBySet (c : LruCache K V C) (key : K) (value : V) : List C × Multiset C :=
  match c.find key with
  | some node => if value != node.value then ([], node.callbacks) else (node.callbacks, 0)
  | none => ([], 0)

/-- The node that a `set` makes. -/
def setNode (c : LruCache K V C) (key : K) (value : V) (callbacks : List C) : Node K V C :=
  Node.addCallbacks ⟨key, value, (c.keptBySet key value).1⟩ callbacks

theorem cacheSet_eq : c.cacheSet size key value callbacks =
    (let r := evict size { c with nodes := c.setNode key value callbacks :: c.others key }
     (r.1, (c.keptBySet key value).2 + r.2)) := by
  unfold cacheSet setNode keptBySet
  cases hfind : c.find key with
  | none => simp [others_of_find_none hfind]
  | some node => by_cases hv : (value != node.value) = true <;> simp [hv]

theorem find_setNode (c : LruCache K V C) (key : K) (value : V) (callbacks : List C) (k : K) :
    find { c with nodes := c.setNode key value callbacks :: c.others key } k =
    if k = key then some (c.setNode key value callbacks) else c.find k := find_front c k rfl

theorem find_of_set (h : (c.cacheSet size key value callbacks).1.find k = some n) :
    k = key ∧ n.value = value ∨ k ≠ key ∧ c.find k = some n := by
  rw [cacheSet_eq] at h
  have hfront := find_of_evict h
  rw [find_setNode] at hfront
  split_ifs at hfront with hk
  · cases hfront
    exact .inl ⟨hk, rfl⟩
  · exact .inr ⟨hk, hfront⟩

theorem set_find_of_ne (hk : k ≠ key) (h : c.find k = some n) :
    (c.cacheSet size key value callbacks).1.find k = some n ∨
      ∀ cb ∈ n.callbacks, cb ∈ (c.cacheSet size key value callbacks).2 := by
  rw [cacheSet_eq]
  refine (evict_find size ((find_setNode c key value callbacks k).trans ((if_neg hk).trans h))).imp_right fun hran cb hcb => ?_
  exact Multiset.mem_add.mpr (.inr (hran cb hcb))

theorem set_attached (size : V → ℕ) (c : LruCache K V C) (key : K) (value : V) (callbacks : List C)
    (hcb : cb ∈ callbacks ∨ cb ∈ (c.keptBySet key value).1) :
    (∃ n, (c.cacheSet size key value callbacks).1.find key = some n ∧ n.value = value ∧ cb ∈ n.callbacks) ∨
      cb ∈ (c.cacheSet size key value callbacks).2 := by
  rw [cacheSet_eq]
  have hmem : cb ∈ (c.setNode key value callbacks).callbacks := Node.mem_addCallbacks.mpr hcb.symm
  rcases evict_find size ((find_setNode c key value callbacks key).trans (if_pos rfl)) with h | h
  · exact .inl ⟨_, h, rfl, hmem⟩
  · exact .inr (Multiset.mem_add.mpr (.inr (h cb hmem)))

theorem set_find_self (h : c.find key = some n) (hcb : cb ∈ n.callbacks) :
    cb ∈ (c.cacheSet size key value callbacks).2 ∨ ((value == n.value) = true ∧
      ∃ m, (c.cacheSet size key value callbacks).1.find key = some m ∧ m.value = value ∧ cb ∈ m.callbacks) := by
  cases hv : value == n.value with
  | false =>
    left
    rw [cacheSet_eq]
    refine Multiset.mem_add.mpr (.inl ?_)
    simpa [keptBySet, h, bne, hv] using hcb
  | true =>
    have hkept : cb ∈ (c.keptBySet key value).1 := by simpa [keptBySet, h, bne, hv] using hcb
    exact (set_attached size c key value callbacks (.inr hkept)).symm.imp_right fun h => ⟨rfl, h⟩

end Set

end Operations

end LruCache

end Synapse.Cache
