import Synapse.Lib.Dict
import Synapse.Cache.Lru

/-!
# Synapse.Cache.Deferred — a cache of lookups in progress

`DeferredCache` of `synapse/util/caches/deferred_cache.py`: an `LruCache` of results and a dict of pending lookups.
Keys are tuples.  A cache backed by a `TreeCache` is invalidated by a prefix of its keys; one backed by a dict is the
case of tuples of length one.

Entries are compared by identity, so they live on a heap and the pending dict holds their addresses.  An address also
names the lookup: it is `next` when the lookup starts.  Results carry the lookup that they came from (`Tagged`), which
the `==` of the source does not see.

* `CacheEntry`: `CacheEntrySingle` and `CacheMultipleEntries`.
* `Op`, `step`, `run`: everything that can happen, in any order; results and failures arrive as operations.
-/

namespace Synapse.Cache

open List Option

/-- A result and the lookup that it came from. -/
structure Tagged (V : Type) where
  value : V
  lookup : ℕ
  deriving DecidableEq

instance {V : Type} [DecidableEq V] : BEq (Tagged V) := ⟨fun a b => a.value = b.value⟩

/-- A pending lookup of one key, or of several; sets of callbacks are lists. -/
inductive CacheEntry (κ C : Type) where
  | single (key : List κ) (callbacks : List C)
  | multiple (callbacks : Finmap fun _ : List κ => List C) (globalCallbacks : List C)

namespace CacheEntry

variable {κ C : Type} [DecidableEq κ] [DecidableEq C]

def addInvalidationCallback (entry : CacheEntry κ C) (key : List κ) : Option C → CacheEntry κ C
  | none => entry
  | some cb => match entry with
    | single k callbacks => single k (callbacks.insert cb)
    | multiple callbacks globalCallbacks =>
      multiple (callbacks.insert key (((callbacks.lookup key).getD []).insert cb)) globalCallbacks

def getInvalidationCallbacks (entry : CacheEntry κ C) (key : List κ) : List C :=
  match entry with
  | single _ callbacks => callbacks
  | multiple callbacks globalCallbacks => (callbacks.lookup key).getD [] ∪ globalCallbacks

variable {entry : CacheEntry κ C} {key k : List κ} {callback : Option C} {cb : C}

theorem mem_add_of_mem (h : cb ∈ entry.getInvalidationCallbacks k) :
    cb ∈ (entry.addInvalidationCallback key callback).getInvalidationCallbacks k := by
  cases callback with
  | none => exact h
  | some c =>
    cases entry with
    | single key' callbacks => exact mem_insert_of_mem h
    | multiple callbacks globalCallbacks =>
      simp only [addInvalidationCallback, getInvalidationCallbacks, Lib.lookup_insert_eq] at h ⊢
      by_cases hk : k = key
      · subst hk
        simp only [mem_union_iff] at h ⊢
        exact h.imp_left mem_insert_of_mem
      · rwa [if_neg hk]

theorem mem_add_self : cb ∈ (entry.addInvalidationCallback key (some cb)).getInvalidationCallbacks key := by
  cases entry with
  | single key' callbacks => exact mem_insert_self
  | multiple callbacks globalCallbacks =>
    simp only [addInvalidationCallback, getInvalidationCallbacks, Lib.lookup_insert_eq, if_pos, mem_union_iff,
      getD_some]
    exact .inl mem_insert_self

end CacheEntry

structure DeferredCache (κ V C : Type) where
  cache : LruCache (List κ) (Tagged V) C
  pending : Finmap fun _ : List κ => ℕ
  heap : ℕ → CacheEntry κ C
  next : ℕ

/-- Where a caller gets its answer from: a result, or the deferred of a pending lookup. -/
inductive Found (V : Type) where
  | value (result : Tagged V)
  | deferred (entry : ℕ)

/-- The lookup that the answer comes from. -/
def Found.lookup {V : Type} : Found V → ℕ
  | value result => result.lookup
  | deferred entry => entry

/-- What can happen to a deferred cache.  `complete`, `fail`, `completeBulk` and `errorBulk` are the ends of lookups,
`expire` is the expiry of old entries. -/
inductive Op (κ V C : Type) where
  | get (key : List κ) (callback : Option C)
  | getBulk (keys : List (List κ)) (callback : Option C)
  | getImmediate (key : List κ)
  | set (key : List κ) (callback : Option C)
  | startBulkInput (keys : List (List κ)) (callback : Option C)
  | complete (entry : ℕ) (value : V)
  | fail (entry : ℕ)
  | completeBulk (entry : ℕ) (result : List (List κ × V))
  | errorBulk (entry : ℕ) (keys : List (List κ))
  | prefill (key : List κ) (value : V) (callback : Option C)
  | invalidate (key : List κ)
  | invalidateAll
  | expire (key : List κ)
  | setCacheFactor (factor : ℚ≥0)

/-- The state after an operation, the callbacks that it ran, and the answers that it gave. -/
structure Effect (κ V C : Type) where
  state : DeferredCache κ V C
  ran : Multiset C := 0
  found : List (List κ × Found V) := []

def Effect.andThen {κ V C : Type} (e : Effect κ V C) (f : DeferredCache κ V C → Effect κ V C) : Effect κ V C :=
  let r := f e.state
  { state := r.state, ran := e.ran + r.ran, found := e.found ++ r.found }

namespace DeferredCache

variable {κ V C : Type} [DecidableEq κ] [DecidableEq V] [DecidableEq C] (s : DeferredCache κ V C)

/-- A new cache; the heap holds nothing yet. -/
def new (maxEntries : ℕ) : DeferredCache κ V C where
  cache := .empty maxEntries
  pending := ∅
  heap _ := .single [] []
  next := 0

/-- The entry of a lookup gets a callback. -/
def addCallback (entry : ℕ) (key : List κ) (callback : Option C) : DeferredCache κ V C :=
  { s with heap := Function.update s.heap entry ((s.heap entry).addInvalidationCallback key callback) }

/-- `get`: the pending lookups come first; a `KeyError` is an answer that is not given. -/
def get (key : List κ) (callback : Option C) : Effect κ V C :=
  match s.pending.lookup key with
  | some entry => { state := s.addCallback entry key callback, found := [(key, .deferred entry)] }
  | none =>
    let r := s.cache.cacheGet key callback.toList true
    { state := { s with cache := r.2 }, found := r.1.toList.map fun v => (key, .value v) }

/-- One round of `get_bulk`: the results come first. -/
def getBulkKey (callback : Option C) (acc : Effect κ V C) (key : List κ) : Effect κ V C :=
  let s := acc.state
  let r := s.cache.cacheGet key callback.toList true
  match r.1 with
  | some v => { acc with state := { s with cache := r.2 }, found := acc.found ++ [(key, .value v)] }
  | none => match s.pending.lookup key with
    | some entry => { acc with state := s.addCallback entry key callback, found := acc.found ++ [(key, .deferred entry)] }
    | none => acc

def getBulk (keys : List (List κ)) (callback : Option C) : Effect κ V C :=
  keys.foldl (getBulkKey callback) { state := s }

def getImmediate (key : List κ) : Effect κ V C :=
  let r := s.cache.cacheGet key [] true
  { state := { s with cache := r.2 }, found := r.1.toList.map fun v => (key, .value v) }

/-- `set`: the entry of a pending lookup of the key is popped. -/
def set (key : List κ) (callback : Option C) : Effect κ V C :=
  { state :=
      { s with
        pending := (s.pending.erase key).insert key s.next
        heap := Function.update s.heap s.next ((CacheEntry.single key []).addInvalidationCallback key callback)
        next := s.next + 1 } }

def startBulkInput (keys : List (List κ)) (callback : Option C) : Effect κ V C :=
  { state :=
      { s with
        pending := keys.foldl (fun pending key => pending.insert key s.next) s.pending
        heap := Function.update s.heap s.next (.multiple ∅ callback.toList)
        next := s.next + 1 } }

section Size

variable (size : Tagged V → ℕ) (s : DeferredCache κ V C)

/-- `_completed_callback`: only an entry that is still the pending one of its key reaches the results. -/
def completedCallback (value : V) (entry : ℕ) (key : List κ) : Effect κ V C :=
  if s.pending.lookup key = some entry then
    let r := s.cache.cacheSet size key ⟨value, entry⟩ ((s.heap entry).getInvalidationCallbacks key)
    { state := { s with cache := r.1, pending := s.pending.erase key }, ran := r.2 }
  else { state := s }

def errorCallback (entry : ℕ) (key : List κ) : Effect κ V C :=
  if s.pending.lookup key = some entry then
    { state := { s with pending := s.pending.erase key }
      ran := ((s.heap entry).getInvalidationCallbacks key : List C) }
  else { state := s }

/-- The deferred of a single entry fires. -/
def complete (entry : ℕ) (value : V) : Effect κ V C :=
  match s.heap entry with
  | .single key _ => s.completedCallback size value entry key
  | .multiple .. => { state := s }

/-- The deferred of a single entry fails. -/
def fail (entry : ℕ) : Effect κ V C :=
  match s.heap entry with
  | .single key _ => s.errorCallback entry key
  | .multiple .. => { state := s }

def completeBulk (entry : ℕ) (result : List (List κ × V)) : Effect κ V C :=
  result.foldl (fun acc kv => acc.andThen fun s => s.completedCallback size kv.2 entry kv.1) { state := s }

def errorBulk (entry : ℕ) (keys : List (List κ)) : Effect κ V C :=
  keys.foldl (fun acc key => acc.andThen fun s => s.errorCallback entry key) { state := s }

/-- `prefill`: the value counts as looked up at this moment. -/
def prefill (key : List κ) (value : V) (callback : Option C) : Effect κ V C :=
  let r := s.cache.cacheSet size key ⟨value, s.next⟩ callback.toList
  { state := { s with cache := r.1, pending := s.pending.erase key, next := s.next + 1 }, ran := r.2 }

/-- The callbacks of the entries of some pending keys, asked for under the key `asked` of each. -/
def pendingCallbacks (p : List κ → Bool) (asked : List κ → List κ) : Multiset C :=
  (Lib.restrict p s.pending).entries.bind fun e => ((s.heap e.2).getInvalidationCallbacks (asked e.1) : Multiset C)

/-- `invalidate`: every entry below the key is asked for the callbacks of that key. -/
def invalidate (key : List κ) : Effect κ V C :=
  let r := s.cache.delMulti key.isPrefixOf
  { state := { s with cache := r.1, pending := Lib.restrict (fun k => !key.isPrefixOf k) s.pending }
    ran := r.2 + s.pendingCallbacks key.isPrefixOf fun _ => key }

def invalidateAll : Effect κ V C :=
  let r := s.cache.clear
  { state := { s with cache := r.1, pending := ∅ }, ran := r.2 + s.pendingCallbacks (fun _ => true) fun k => k }

/-- `drop_from_cache` of a node that has not been read recently. -/
def expire (key : List κ) : Effect κ V C :=
  let r := s.cache.delMulti (· = key)
  { state := { s with cache := r.1 }, ran := r.2 }

/-- `set_cache_factor` of the results. -/
def setCacheFactor (factor : ℚ≥0) : Effect κ V C :=
  let r := s.cache.setCacheFactor size factor
  { state := { s with cache := r.1 }, ran := r.2 }

def step : Op κ V C → Effect κ V C
  | .get key callback => s.get key callback
  | .getBulk keys callback => s.getBulk keys callback
  | .getImmediate key => s.getImmediate key
  | .set key callback => s.set key callback
  | .startBulkInput keys callback => s.startBulkInput keys callback
  | .complete entry value => s.complete size entry value
  | .fail entry => s.fail entry
  | .completeBulk entry result => s.completeBulk size entry result
  | .errorBulk entry keys => s.errorBulk entry keys
  | .prefill key value callback => s.prefill size key value callback
  | .invalidate key => s.invalidate key
  | .invalidateAll => s.invalidateAll
  | .expire key => s.expire key
  | .setCacheFactor factor => s.setCacheFactor size factor

/-- The state after a sequence of operations. -/
def run (ops : List (Op κ V C)) : DeferredCache κ V C :=
  ops.foldl (fun s op => (s.step size op).state) s

end Size

end DeferredCache

end Synapse.Cache
