import Synapse.Lib.Dict
import Synapse.Lib.Outcome
import Synapse.Lib.Runs
import Synapse.Cache.Lru
import Synapse.Json

/-!
# Synapse.Cache.Dictionary — partially cached dictionaries

`DictionaryCache` of `synapse/util/caches/dictionary_cache.py`, and the protocol its users follow: a read takes the
sequence number, then queries the database, then updates the cache under that number; a write is followed by an
invalidation.

* `DictionaryCache.get`, `update`, `invalidate`: the cache.
* `World`, `DictOp`, `run`: reads, writes, invalidations, lookups and evictions in any order.
* `since`: something was true of a dictionary at a moment since the last invalidation of its key.
* `dictionary_cache_sound`: every answer of the cache was true at such a moment.
-/

namespace Synapse.Cache

open List Lib

variable {K D V : Type}

/-- The second half of a cache key: a key of the dictionary, or `_FullCacheKey.KEY`. -/
inductive Slot (D : Type) where
  | dictKey (dictKey : D)
  | full
  deriving DecidableEq

/-- What is cached: `_PerKeyValue`, with `none` for the sentinel, or a full dict. -/
inductive Item (D V : Type) where
  | perKey (value : Option V)
  | full (dict : Finmap fun _ : D => V)

/-- The order in which the items of a dict are iterated. -/
structure Iteration (D : Type) where
  order : Finset D → List D
  mem_order : ∀ s d, d ∈ order s ↔ d ∈ s

/-- `size_callback=len` -/
def Item.len : Item D V → ℕ
  | perKey _ => 1
  | full dict => dict.keys.card

/-- `_PerKeyValue` objects are compared by identity; nothing depends on the comparison, as there are no callbacks. -/
instance : BEq (Item D V) := ⟨fun _ _ => false⟩

structure DictionaryCache (K D V : Type) where
  cache : LruCache (K × Slot D) (Item D V) Empty
  sequence : ℕ

structure DictionaryEntry (D V : Type) where
  full : Bool
  knownAbsent : Finset D
  value : Finmap fun _ : D => V

namespace DictionaryCache

variable [DecidableEq K] [DecidableEq D] (c : DictionaryCache K D V) (key : K)

def new (maxEntries : ℕ) : DictionaryCache K D V := ⟨.empty maxEntries, 0⟩

def getFullDict : Except Exc (DictionaryEntry D V × DictionaryCache K D V) :=
  let r := c.cache.cacheGet (key, .full) [] true
  let c := { c with cache := r.2 }
  match r.1 with
  | some (.full dict) => pure (⟨true, ∅, dict⟩, c)
  | some (.perKey _) => throw .assertionError
  | none => pure (⟨false, ∅, ∅⟩, c)

/-- The variables of the loop over `dict_keys`. -/
structure Scan (K D V : Type) where
  cache : LruCache (K × Slot D) (Item D V) Empty
  values : Finmap fun _ : D => V
  knownAbsent : Finset D
  missing : List D

/-- The body of the loop over `dict_keys`. -/
def scanKey (s : Scan K D V) (dictKey : D) : Except Exc (Scan K D V) :=
  let r := s.cache.cacheGet (key, .dictKey dictKey) [] true
  match r.1 with
  | none => pure { s with cache := r.2, missing := s.missing ++ [dictKey] }
  | some (.full _) => throw .assertionError
  | some (.perKey none) => pure { s with cache := r.2, knownAbsent := insert dictKey s.knownAbsent }
  | some (.perKey (some v)) => pure { s with cache := r.2, values := s.values.insert dictKey v }

/-- The body of the loop over the missing keys: each is taken from the full dict and cached. -/
def fillKey (entry : Finmap fun _ : D => V)
    (s : LruCache (K × Slot D) (Item D V) Empty × Finmap fun _ : D => V) (dictKey : D) :
    LruCache (K × Slot D) (Item D V) Empty × Finmap fun _ : D => V :=
  let value := entry.lookup dictKey
  ((s.1.cacheSet Item.len (key, .dictKey dictKey) (.perKey value) []).1,
    value.elim s.2 fun v => s.2.insert dictKey v)

/-- `get` after the loop over `dict_keys`. -/
def finishGet (s : Scan K D V) : Except Exc (DictionaryEntry D V × DictionaryCache K D V) :=
  if s.missing = [] then pure (⟨false, s.knownAbsent, s.values⟩, { c with cache := s.cache })
  else
    let r := s.cache.cacheGet (key, .full) [] false
    match r.1 with
    | none => pure (⟨false, s.knownAbsent, s.values⟩, { c with cache := r.2 })
    | some (.perKey _) => throw .assertionError
    | some (.full entry) =>
      let t := s.missing.foldl (fillKey key entry) (r.2, s.values)
      pure (⟨true, ∅, t.2⟩, { c with cache := t.1 })

def get (dictKeys : Option (List D)) : Except Exc (DictionaryEntry D V × DictionaryCache K D V) :=
  match dictKeys with
  | none => c.getFullDict key
  | some dictKeys => do
    let s ← dictKeys.foldlM (scanKey key) ⟨c.cache, ∅, ∅, []⟩
    c.finishGet key s

def invalidate : DictionaryCache K D V where
  sequence := c.sequence + 1
  cache := (c.cache.delMulti fun k => k.1 = key).1

def invalidateAll : DictionaryCache K D V where
  sequence := c.sequence + 1
  cache := c.cache.clear.1

/-- Cache what is known of one key of a dictionary. -/
def putKey (value : D → Option V) (cache : LruCache (K × Slot D) (Item D V) Empty) (dictKey : D) :
    LruCache (K × Slot D) (Item D V) Empty :=
  (cache.cacheSet Item.len (key, .dictKey dictKey) (.perKey (value dictKey)) []).1

/-- `_update_subset`: the loop over `value.items()`, then the one over `fetched_keys`. -/
def updateSubset (iter : Iteration D) (c : DictionaryCache K D V) (key : K) (value : Finmap fun _ : D => V)
    (fetchedKeys : List D) : DictionaryCache K D V :=
  let present := iter.order value.keys
  let absent := fetchedKeys.filter fun dictKey => (value.lookup dictKey).isNone
  { c with cache := absent.foldl (putKey key value.lookup) (present.foldl (putKey key value.lookup) c.cache) }

/-- `update`: only under the current sequence number. -/
def update (iter : Iteration D) (c : DictionaryCache K D V) (sequence : ℕ) (key : K) (value : Finmap fun _ : D => V)
    (fetchedKeys : Option (List D)) : DictionaryCache K D V :=
  if c.sequence = sequence then
    match fetchedKeys with
    | none => { c with cache := (c.cache.cacheSet Item.len (key, .full) (.full value) []).1 }
    | some fetchedKeys => c.updateSubset iter key value fetchedKeys
  else c

end DictionaryCache

/-! ## What the cache says -/

section Says

variable [DecidableEq K] [DecidableEq D]

/-- What a cached item says about the dictionary. -/
def Item.Says : Slot D → Item D V → (Finmap fun _ : D => V) → Prop
  | .dictKey d, .perKey value, dict => dict.lookup d = value
  | .full, .full dict', dict => dict = dict'
  | _, _, _ => False

/-- For each key, the dictionaries that it has had over some period. -/
abbrev Period (K D V : Type) := K → Set (Finmap fun _ : D => V)

/-- Everything that is cached was true at some moment of the period. -/
def CacheSound (M : Period K D V) (cache : LruCache (K × Slot D) (Item D V) Empty) : Prop :=
  ∀ key slot n, cache.find (key, slot) = some n → ∃ dict ∈ M key, n.value.Says slot dict

/-- An answer of the cache was true: every value, every known absence, every absence that the full flag implies, and
the whole dict when it was asked for. -/
structure EntrySound (M : Period K D V) (key : K) (dictKeys : Option (List D)) (entry : DictionaryEntry D V) : Prop where
  value : ∀ d v, entry.value.lookup d = some v → ∃ dict ∈ M key, dict.lookup d = some v
  knownAbsent : ∀ d ∈ entry.knownAbsent, ∃ dict ∈ M key, dict.lookup d = none
  full : entry.full = true → ∀ d, (∀ ks, dictKeys = some ks → d ∈ ks) → entry.value.lookup d = none →
    ∃ dict ∈ M key, dict.lookup d = none
  whole : entry.full = true → dictKeys = none → entry.value ∈ M key

variable {M : Period K D V} {cache : LruCache (K × Slot D) (Item D V) Empty} {key : K} {slot : Slot D}

variable (h : CacheSound M cache)
include h

theorem CacheSound.cacheGet (k : K × Slot D) (access : Bool) : CacheSound M (cache.cacheGet k [] access).2 := by
  intro key slot n hn
  rw [LruCache.get_find] at hn
  obtain ⟨m, hm, rfl⟩ := Option.map_eq_some_iff.mp hn
  have hsound := h key slot m hm
  split <;> exact hsound

theorem CacheSound.of_cacheGet {access : Bool} {item : Item D V}
    (hget : (cache.cacheGet (key, slot) [] access).1 = some item) : ∃ dict ∈ M key, item.Says slot dict := by
  rw [LruCache.get_eq] at hget
  obtain ⟨n, hn, rfl⟩ := Option.map_eq_some_iff.mp hget
  exact h key slot n hn

theorem CacheSound.cacheSet {item : Item D V} (hitem : ∃ dict ∈ M key, item.Says slot dict) :
    CacheSound M (cache.cacheSet Item.len (key, slot) item []).1 := by
  intro key' slot' n hn
  rcases LruCache.find_of_set hn with ⟨hk, hv⟩ | ⟨-, hn⟩
  · obtain ⟨rfl, rfl⟩ := Prod.mk.inj hk
    rwa [hv]
  · exact h key' slot' n hn

theorem CacheSound.mono {M' : Period K D V} (hM : ∀ key, M key ⊆ M' key) : CacheSound M' cache := fun key slot n hn =>
  let ⟨dict, hdict, hmeans⟩ := h key slot n hn
  ⟨dict, hM key hdict, hmeans⟩

theorem CacheSound.of_find {cache' : LruCache (K × Slot D) (Item D V) Empty}
    (hfind : ∀ k n, cache'.find k = some n → cache.find k = some n) : CacheSound M cache' :=
  fun key slot n hn => h key slot n (hfind _ n hn)

theorem CacheSound.putKeys {value : D → Option V} {ds : List D}
    (hds : ∀ d ∈ ds, ∃ dict ∈ M key, dict.lookup d = value d) :
    CacheSound M (ds.foldl (DictionaryCache.putKey key value) cache) := by
  exact foldlRecOn ds _ h fun cache hc d hd => hc.cacheSet (hds d hd)

end Says

/-! ## Lookups -/

namespace DictionaryCache

variable [DecidableEq K] [DecidableEq D] {M : Period K D V} {c : DictionaryCache K D V} {key : K}

theorem getFullDict_sound (h : CacheSound M c.cache) : ∃ entry c', c.getFullDict key = .ok (entry, c') ∧
    c'.sequence = c.sequence ∧ CacheSound M c'.cache ∧ EntrySound M key none entry := by
  unfold getFullDict
  dsimp only
  have hcache := h.cacheGet (key, .full) true
  cases hget : (c.cache.cacheGet (key, .full) [] true).1 with
  | none => exact ⟨_, _, rfl, rfl, hcache, nofun, nofun, nofun, nofun⟩
  | some item =>
    obtain ⟨dict, hdict, hmeans⟩ := h.of_cacheGet hget
    cases item with
    | perKey value => exact hmeans.elim
    | full dict' =>
      cases hmeans
      exact ⟨_, _, rfl, rfl, hcache, fun d v hd => ⟨dict, hdict, hd⟩, nofun, fun _ d _ hd => ⟨dict, hdict, hd⟩,
        fun _ _ => hdict⟩

/-- What the loop over `dict_keys` has established for the keys `seen`. -/
structure ScanInv (M : Period K D V) (key : K) (seen : List D) (s : Scan K D V) : Prop where
  cache : CacheSound M s.cache
  values : ∀ d v, s.values.lookup d = some v → ∃ dict ∈ M key, dict.lookup d = some v
  knownAbsent : ∀ d ∈ s.knownAbsent, ∃ dict ∈ M key, dict.lookup d = none
  seen : ∀ d ∈ seen, s.values.lookup d = none → d ∈ s.knownAbsent ∨ d ∈ s.missing

theorem scanKey_inv {seen : List D} {s : Scan K D V} (h : ScanInv M key seen s) (d : D) :
    ∃ s', scanKey key s d = .ok s' ∧ ScanInv M key (seen ++ [d]) s' := by
  have hcache := h.cache.cacheGet (key, .dictKey d) true
  unfold scanKey
  dsimp only
  cases hget : (s.cache.cacheGet (key, .dictKey d) [] true).1 with
  | none =>
    refine ⟨_, rfl, hcache, h.values, h.knownAbsent, fun d' hd' hnone => ?_⟩
    rcases mem_append.mp hd' with hd' | hd'
    · exact (h.seen d' hd' hnone).imp_right (mem_append_left [d])
    · exact .inr (mem_append_right _ hd')
  | some item =>
    obtain ⟨dict, hdict, hmeans⟩ := h.cache.of_cacheGet hget
    cases item with
    | full dict' => exact hmeans.elim
    | perKey value =>
      cases value with
      | none =>
        refine ⟨_, rfl, hcache, h.values, (Finset.forall_mem_insert _ _ _).mpr ⟨⟨dict, hdict, hmeans⟩, h.knownAbsent⟩,
          fun d' hd' hnone => ?_⟩
        rcases mem_snoc.mp hd' with hd' | rfl
        · exact (h.seen d' hd' hnone).imp_left Finset.mem_insert_of_mem
        · exact .inl (Finset.mem_insert_self d' _)
      | some v =>
        refine ⟨_, rfl, hcache, insert_all h.values ⟨dict, hdict, hmeans⟩, h.knownAbsent, fun d' hd' hnone => ?_⟩
        rw [lookup_insert_eq] at hnone
        split at hnone
        · cases hnone
        rename_i hne
        exact h.seen d' ((mem_snoc.mp hd').resolve_right hne) hnone

theorem scan_inv (h : CacheSound M c.cache) (key : K) (ks : List D) :
    ∃ s, ks.foldlM (scanKey key) ⟨c.cache, ∅, ∅, []⟩ = .ok s ∧ ScanInv M key ks s := by
  refine foldlM_total (ScanInv M key) ⟨h, nofun, nofun, nofun⟩ fun seen d _ s _ hs => scanKey_inv hs d

theorem fill_inv {entry : Finmap fun _ : D => V} (hentry : entry ∈ M key) (missing : List D)
    {s : LruCache (K × Slot D) (Item D V) Empty × Finmap fun _ : D => V} (hcache : CacheSound M s.1)
    (hvalues : ∀ d v, s.2.lookup d = some v → ∃ dict ∈ M key, dict.lookup d = some v) :
    CacheSound M (missing.foldl (fillKey key entry) s).1 ∧
      (∀ d v, (missing.foldl (fillKey key entry) s).2.lookup d = some v → ∃ dict ∈ M key, dict.lookup d = some v) ∧
      ∀ d, (missing.foldl (fillKey key entry) s).2.lookup d = none →
        s.2.lookup d = none ∧ (d ∈ missing → entry.lookup d = none) := by
  have hitems : (missing.foldl (fillKey key entry) s).2 = Lib.setItems entry.lookup s.2 missing :=
    (foldl_hom Prod.snd fun _ _ => rfl).symm
  refine ⟨foldlRecOn missing (fillKey key entry) (motive := fun s => CacheSound M s.1) hcache ?_, fun d v hd => ?_,
    fun d hd => ?_⟩
  · exact fun _ hs _ _ => hs.cacheSet ⟨entry, hentry, rfl⟩
  · rw [hitems, lookup_setItems] at hd
    split at hd
    · rcases Option.or_eq_some_iff.mp hd with hd | ⟨-, hd⟩
      · exact ⟨entry, hentry, hd⟩
      · exact hvalues d v hd
    · exact hvalues d v hd
  · rw [hitems, lookup_setItems] at hd
    split at hd
    · obtain ⟨hnone, hold⟩ := Option.or_eq_none_iff.mp hd
      exact ⟨hold, fun _ => hnone⟩
    · exact ⟨hd, fun hmem => absurd hmem ‹_›⟩

theorem finishGet_sound (c : DictionaryCache K D V) {ks : List D} {s : Scan K D V} (h : ScanInv M key ks s) :
    ∃ entry c', c.finishGet key s = .ok (entry, c') ∧ c'.sequence = c.sequence ∧ CacheSound M c'.cache ∧
      EntrySound M key (some ks) entry := by
  unfold finishGet
  by_cases hmissing : s.missing = []
  · exact ⟨_, _, if_pos hmissing, rfl, h.cache, h.values, h.knownAbsent, nofun, nofun⟩
  rw [if_neg hmissing]
  dsimp only
  have hcache := h.cache.cacheGet (key, .full) false
  cases hget : (s.cache.cacheGet (key, .full) [] false).1 with
  | none => exact ⟨_, _, rfl, rfl, hcache, h.values, h.knownAbsent, nofun, nofun⟩
  | some item =>
    obtain ⟨dict, hdict, hmeans⟩ := h.cache.of_cacheGet hget
    cases item with
    | perKey value => exact hmeans.elim
    | full entry =>
      cases hmeans
      obtain ⟨h₁, h₂, h₃⟩ := fill_inv hdict s.missing (s := (_, s.values)) hcache h.values
      refine ⟨_, _, rfl, rfl, h₁, h₂, nofun, fun _ d hd hnone => ?_, nofun⟩
      obtain ⟨hval, hfull⟩ := h₃ d hnone
      rcases h.seen d (hd ks rfl) hval with habs | hmiss
      · exact h.knownAbsent d habs
      · exact ⟨dict, hdict, hfull hmiss⟩

/-- **One lookup.**  If everything in the cache was true at some moment of a period, then a lookup raises nothing, what
it answers was true at some moments of the period, and the cache stays so. -/
theorem get_sound (h : CacheSound M c.cache) (key : K) (dictKeys : Option (List D)) : ∃ entry c',
    c.get key dictKeys = .ok (entry, c') ∧ c'.sequence = c.sequence ∧ CacheSound M c'.cache ∧
      EntrySound M key dictKeys entry := by
  cases dictKeys with
  | none => exact getFullDict_sound h
  | some ks =>
    obtain ⟨s, hs, hinv⟩ := scan_inv h key ks
    obtain ⟨entry, c', hfinish, hrest⟩ := c.finishGet_sound hinv
    refine ⟨entry, c', ?_, hrest⟩
    change (ks.foldlM (scanKey key) ⟨c.cache, ∅, ∅, []⟩ >>= c.finishGet key) = _
    rw [hs]
    exact hfinish

end DictionaryCache

/-! ## The protocol -/

/-- What a query of a read found: the key, the dict and the keys that were asked for. -/
structure QueryResult (K D V : Type) where
  key : K
  value : Finmap fun _ : D => V
  fetchedKeys : Option (List D)

/-- A read: the sequence number that it took, and the results of its queries. -/
structure Read (K D V : Type) where
  sequence : ℕ
  results : List (QueryResult K D V)

structure World (K D V : Type) where
  cache : DictionaryCache K D V
  db : K → Finmap fun _ : D => V
  reads : List (Read K D V)

inductive DictOp (K D V : Type) where
  /-- A read takes the sequence number. -/
  | startRead
  /-- A read queries the database: for the whole dict, or for `fetchedKeys` (the result may hold `others` too). -/
  | query (read : ℕ) (key : K) (fetchedKeys : Option (List D)) (others : List D)
  /-- A read updates the cache with one of its results. -/
  | update (read result : ℕ)
  | write (key : K) (dict : Finmap fun _ : D => V)
  | invalidate (key : K)
  | invalidateAll
  | get (key : K) (dictKeys : Option (List D))
  | expire (key : K) (slot : Slot D)
  | setCacheFactor (factor : ℚ≥0)

def DictOp.Invalidates (key : K) : DictOp K D V → Prop
  | invalidate key' => key' = key
  | invalidateAll => True
  | _ => False

namespace World

variable [DecidableEq K] [DecidableEq D]

def new (maxEntries : ℕ) (db : K → Finmap fun _ : D => V) : World K D V := ⟨.new maxEntries, db, []⟩

def queryValue (dict : Finmap fun _ : D => V) (others : List D) : Option (List D) → Finmap fun _ : D => V
  | none => dict
  | some fetchedKeys => Lib.restrict (fun d => d ∈ fetchedKeys || d ∈ others) dict

/-- A result of a read, with the sequence number of the read. -/
def result? (w : World K D V) (read result : ℕ) : Option (ℕ × QueryResult K D V) := do
  let r ← w.reads[read]?
  let q ← r.results[result]?
  some (r.sequence, q)

variable (iter : Iteration D)

/-- An operation; one that names a read or a result that does not exist does nothing. -/
def step (w : World K D V) : DictOp K D V → Except Exc (World K D V)
  | .startRead => pure { w with reads := w.reads ++ [⟨w.cache.sequence, []⟩] }
  | .query read key fetchedKeys others =>
    let result : QueryResult K D V := ⟨key, queryValue (w.db key) others fetchedKeys, fetchedKeys⟩
    pure { w with reads := w.reads.modify read fun r => { r with results := r.results ++ [result] } }
  | .update read result => match w.result? read result with
    | none => pure w
    | some (sequence, q) => pure { w with cache := w.cache.update iter sequence q.key q.value q.fetchedKeys }
  | .write key dict => pure { w with db := Function.update w.db key dict }
  | .invalidate key => pure { w with cache := w.cache.invalidate key }
  | .invalidateAll => pure { w with cache := w.cache.invalidateAll }
  | .get key dictKeys => do
    let r ← w.cache.get key dictKeys
    pure { w with cache := r.2 }
  | .expire key slot => pure { w with cache := { w.cache with cache := (w.cache.cache.delMulti (· = (key, slot))).1 } }
  | .setCacheFactor factor =>
    pure { w with cache := { w.cache with cache := (w.cache.cache.setCacheFactor Item.len factor).1 } }

def run (w : World K D V) (ops : List (DictOp K D V)) : Except Exc (World K D V) := ops.foldlM (step iter) w

/-- The dictionaries that the key has had since its last invalidation in `ops`, that one's moment included. -/
def since (start : World K D V) (ops : List (DictOp K D V)) : Period K D V := fun key =>
  {dict | ∃ before after w, ops = before ++ after ∧ (∀ op ∈ after, ¬ op.Invalidates key) ∧
    start.run iter before = .ok w ∧ w.db key = dict}

/-- What a query result says about the dictionary. -/
def Says (q : QueryResult K D V) (dict : Finmap fun _ : D => V) : Prop :=
  match q.fetchedKeys with
  | none => dict = q.value
  | some fetchedKeys => (∀ d v, q.value.lookup d = some v → dict.lookup d = some v) ∧
      ∀ d ∈ fetchedKeys, q.value.lookup d = none → dict.lookup d = none

omit [DecidableEq K] in
theorem says_queryValue (dict : Finmap fun _ : D => V) (key : K) (others : List D) (fetchedKeys : Option (List D)) :
    Says ⟨key, queryValue dict others fetchedKeys, fetchedKeys⟩ dict := by
  cases fetchedKeys with
  | none => rfl
  | some ks =>
    refine ⟨fun d v hd => ?_, fun d hd hnone => ?_⟩
    · simp only [queryValue, lookup_restrict] at hd
      split at hd
      · exact hd
      · cases hd
    · simpa [queryValue, lookup_restrict, hd] using hnone

/-- What holds after the operations `ops`. -/
structure Inv (start : World K D V) (ops : List (DictOp K D V)) (w : World K D V) : Prop where
  run : start.run iter ops = .ok w
  cached : CacheSound (since iter start ops) w.cache.cache
  sequence : ∀ r ∈ w.reads, r.sequence ≤ w.cache.sequence
  /-- The results of a read under the current sequence number were true since the last invalidation. -/
  results : ∀ r ∈ w.reads, r.sequence = w.cache.sequence → ∀ q ∈ r.results,
    ∃ dict ∈ since iter start ops q.key, Says q dict

variable {iter} {start w w' : World K D V} {ops : List (DictOp K D V)} {op : DictOp K D V} {key : K}

theorem mem_since_now (hrun : start.run iter ops = .ok w) (key : K) : w.db key ∈ since iter start ops key :=
  ⟨ops, [], w, (append_nil _).symm, nofun, hrun, rfl⟩

theorem since_snoc (hop : ¬ op.Invalidates key) : since iter start ops key ⊆ since iter start (ops ++ [op]) key := by
  rintro dict ⟨before, after, w, rfl, hafter, hrun, hdict⟩
  exact ⟨before, after ++ [op], w, List.append_assoc _ _ _, forall_mem_snoc.mpr ⟨hafter, hop⟩, hrun, hdict⟩

theorem Inv.run_snoc (h : Inv iter start ops w) {op : DictOp K D V} (hstep : w.step iter op = .ok w') :
    start.run iter (ops ++ [op]) = .ok w' := by
  unfold World.run
  rw [foldlM_append, show ops.foldlM (step iter) start = .ok w from h.run]
  exact (bind_pure (w.step iter op)).trans hstep

theorem Inv.keep (h : Inv iter start ops w) (op : DictOp K D V) (hop : ∀ key, ¬ op.Invalidates key) :
    CacheSound (since iter start (ops ++ [op])) w.cache.cache ∧
      ∀ r ∈ w.reads, r.sequence = w.cache.sequence → ∀ q ∈ r.results,
        ∃ dict ∈ since iter start (ops ++ [op]) q.key, Says q dict := by
  refine ⟨h.cached.mono fun key => since_snoc (hop key), fun r hr hseq q hq => ?_⟩
  obtain ⟨dict, hdict, hmeans⟩ := h.results r hr hseq q hq
  exact ⟨dict, since_snoc (hop q.key) hdict, hmeans⟩

theorem Inv.outdated (h : Inv iter start ops w) {r : Read K D V} (hr : r ∈ w.reads) :
    r.sequence ≠ w.cache.sequence + 1 := by
  have := h.sequence r hr
  omega

theorem sound_update (iter : Iteration D) {M : Period K D V} {c : DictionaryCache K D V} (h : CacheSound M c.cache)
    (sequence : ℕ) {q : QueryResult K D V} (hq : sequence = c.sequence → ∃ dict ∈ M q.key, Says q dict) :
    CacheSound M (c.update iter sequence q.key q.value q.fetchedKeys).cache ∧
      (c.update iter sequence q.key q.value q.fetchedKeys).sequence = c.sequence := by
  unfold DictionaryCache.update
  by_cases hseq : c.sequence = sequence
  · obtain ⟨dict, hdict, hmeans⟩ := hq hseq.symm
    rw [if_pos hseq]
    unfold Says at hmeans
    cases hf : q.fetchedKeys with
    | none =>
      rw [hf] at hmeans
      exact ⟨h.cacheSet ⟨dict, hdict, hmeans⟩, rfl⟩
    | some ks =>
      rw [hf] at hmeans
      refine ⟨(h.putKeys fun d hd => ?_).putKeys fun d hd => ?_, rfl⟩
      · obtain ⟨v, hv⟩ := Finmap.mem_iff.mp (Finmap.mem_keys.mp ((iter.mem_order _ d).mp hd))
        exact ⟨dict, hdict, (hmeans.1 d v hv).trans hv.symm⟩
      · obtain ⟨hmem, hnone⟩ := mem_filter.mp hd
        rw [Option.isNone_iff_eq_none] at hnone
        exact ⟨dict, hdict, (hmeans.2 d hmem hnone).trans hnone.symm⟩
  · rw [if_neg hseq]
    exact ⟨h, rfl⟩

theorem mem_of_mem_modify {α : Type} {f : α → α} {l : List α} {i : ℕ} {x : α} (h : x ∈ l.modify i f) :
    x ∈ l ∨ ∃ y ∈ l, x = f y := by
  obtain ⟨j, hj⟩ := mem_iff_getElem?.mp h
  rw [getElem?_modify] at hj
  obtain ⟨y, hy, rfl⟩ := Option.map_eq_some_iff.mp hj
  have hmem := mem_of_getElem? hy
  split
  · exact .inr ⟨y, hmem, rfl⟩
  · exact .inl hmem

theorem step_inv (h : Inv iter start ops w) (op : DictOp K D V) :
    ∃ w', w.step iter op = .ok w' ∧ Inv iter start (ops ++ [op]) w' := by
  cases op with
  | startRead =>
    obtain ⟨hcached, hresults⟩ := h.keep .startRead fun _ => id
    refine ⟨_, rfl, h.run_snoc rfl, hcached, forall_mem_snoc.mpr ⟨h.sequence, le_rfl⟩, fun r hr hseq q hq => ?_⟩
    rcases mem_snoc.mp hr with hr | rfl
    · exact hresults r hr hseq q hq
    · cases hq
  | query read key fetchedKeys others =>
    obtain ⟨hcached, hresults⟩ := h.keep (.query read key fetchedKeys others) fun _ => id
    have hrun := h.run_snoc (show w.step iter (.query read key fetchedKeys others) = .ok _ from rfl)
    refine ⟨_, rfl, hrun, hcached, fun r hr => ?_, fun r hr hseq q hq => ?_⟩
    · rcases mem_of_mem_modify hr with hr | ⟨r', hr', rfl⟩
      · exact h.sequence r hr
      · exact h.sequence r' hr'
    rcases mem_of_mem_modify hr with hr | ⟨r', hr', rfl⟩
    · exact hresults r hr hseq q hq
    rcases mem_snoc.mp hq with hq | rfl
    · exact hresults r' hr' hseq q hq
    · exact ⟨_, mem_since_now hrun key, says_queryValue (w.db key) key others fetchedKeys⟩
  | update read result =>
    obtain ⟨hcached, hresults⟩ := h.keep (.update read result) fun _ => id
    have hstep : ∃ w', w.step iter (.update read result) = .ok w' ∧ w'.reads = w.reads ∧
        CacheSound (since iter start (ops ++ [.update read result])) w'.cache.cache ∧
        w'.cache.sequence = w.cache.sequence := by
      cases hres : w.result? read result with
      | none => exact ⟨w, by simp only [step, hres]; rfl, rfl, hcached, rfl⟩
      | some p =>
        obtain ⟨r, hr, hres'⟩ := Option.bind_eq_some_iff.mp hres
        obtain ⟨q, hq, hp⟩ := Option.bind_eq_some_iff.mp hres'
        cases hp
        have hupdate := sound_update iter hcached r.sequence fun hseq =>
          hresults r (mem_of_getElem? hr) hseq q (mem_of_getElem? hq)
        exact ⟨{ w with cache := w.cache.update iter r.sequence q.key q.value q.fetchedKeys },
          by simp only [step, hres]; rfl, rfl, hupdate⟩
    obtain ⟨w', hw', hreads, hcached', hseq'⟩ := hstep
    refine ⟨w', hw', h.run_snoc hw', hcached', ?_, ?_⟩
    · rw [hreads, hseq']
      exact h.sequence
    · rw [hreads, hseq']
      exact hresults
  | write key dict =>
    obtain ⟨hcached, hresults⟩ := h.keep (.write key dict) fun _ => id
    exact ⟨_, rfl, h.run_snoc rfl, hcached, h.sequence, hresults⟩
  | invalidate key =>
    refine ⟨_, rfl, h.run_snoc rfl, fun key' slot n hn => ?_, fun r hr => Nat.le_succ_of_le (h.sequence r hr),
      fun r hr hseq => absurd hseq (h.outdated hr)⟩
    simp only [DictionaryCache.invalidate, LruCache.find_delMulti] at hn
    split at hn
    · cases hn
    rename_i hne
    obtain ⟨dict, hdict, hmeans⟩ := h.cached key' slot n hn
    refine ⟨dict, since_snoc (fun hinv => hne (decide_eq_true ?_)) hdict, hmeans⟩
    exact Eq.symm hinv
  | invalidateAll =>
    exact ⟨_, rfl, h.run_snoc rfl, nofun, fun r hr => Nat.le_succ_of_le (h.sequence r hr),
      fun r hr hseq => absurd hseq (h.outdated hr)⟩
  | get key dictKeys =>
    obtain ⟨hcached, hresults⟩ := h.keep (.get key dictKeys) fun _ => id
    obtain ⟨entry, c', hget, hseq, hsound, -⟩ := DictionaryCache.get_sound hcached key dictKeys
    have hstep : w.step iter (.get key dictKeys) = .ok { w with cache := c' } := by
      simp only [step, hget]
      rfl
    refine ⟨_, hstep, h.run_snoc hstep, hsound, ?_, ?_⟩
    · rw [hseq]
      exact h.sequence
    · rw [hseq]
      exact hresults
  | expire key slot =>
    obtain ⟨hcached, hresults⟩ := h.keep (.expire key slot) fun _ => id
    refine ⟨_, rfl, h.run_snoc rfl, hcached.of_find fun k n hn => ?_, h.sequence, hresults⟩
    rw [LruCache.find_delMulti] at hn
    split at hn
    · cases hn
    · exact hn
  | setCacheFactor factor =>
    obtain ⟨hcached, hresults⟩ := h.keep (.setCacheFactor factor) fun _ => id
    exact ⟨_, rfl, h.run_snoc rfl, hcached.of_find fun k n hn => LruCache.find_of_setCacheFactor hn, h.sequence,
      hresults⟩

theorem run_inv (iter : Iteration D) (maxEntries : ℕ) (db : K → Finmap fun _ : D => V) (ops : List (DictOp K D V)) :
    ∃ w, Inv iter (new maxEntries db) ops w := by
  induction ops using reverseRecOn with
  | nil => exact ⟨new maxEntries db, rfl, nofun, nofun, nofun⟩
  | append_singleton ops op ih =>
    obtain ⟨w, hw⟩ := ih
    obtain ⟨w', -, hw'⟩ := step_inv hw op
    exact ⟨w', hw'⟩

/-- **Soundness of the dictionary cache.**  After any run of reads, writes, invalidations, updates under any sequence
number, lookups and evictions, no lookup raises, and what it answers (each value, each known absence, each absence that
the full flag implies, and the whole dict when that is what was asked for) was true of the underlying dictionary at some
moment no earlier than the last invalidation of the key. -/
theorem dictionary_cache_sound (iter : Iteration D) (maxEntries : ℕ) (db : K → Finmap fun _ : D => V)
    (ops : List (DictOp K D V)) :
    ∃ w, (new maxEntries db).run iter ops = .ok w ∧ ∀ key dictKeys, ∃ entry c',
      w.cache.get key dictKeys = .ok (entry, c') ∧ EntrySound (since iter (new maxEntries db) ops) key dictKeys entry := by
  obtain ⟨w, hw⟩ := run_inv iter maxEntries db ops
  refine ⟨w, hw.run, fun key dictKeys => ?_⟩
  obtain ⟨entry, c', hget, -, -, hsound⟩ := DictionaryCache.get_sound hw.cached key dictKeys
  exact ⟨entry, c', hget, hsound⟩

end World

end Synapse.Cache
