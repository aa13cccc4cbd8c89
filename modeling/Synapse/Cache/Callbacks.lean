import Synapse.Cache.Staleness

/-!
# Synapse.Cache.Callbacks — what becomes of invalidation callbacks

Dependent caches register callbacks with the result or the pending lookup that they were computed from.

* `Attached`, `registrations`: where a callback that comes with an operation is registered.
* `Conserved`: an operation runs a callback, or leaves it attached to the same result or lookup, or hands it over from a
  lookup that succeeds to its result.
* `Silent`: the operations that may drop a callback: a pending lookup is replaced, or a pending bulk lookup is invalidated
  through a proper prefix of a key.
* `callbacks_conserved`: no callback is lost in a run without such operations.
-/

namespace Synapse.Cache.DeferredCache

open List Function LruCache

variable {κ V C : Type} [DecidableEq κ] [DecidableEq C]

/-- The callback is registered for the key with the pending lookup of the key. -/
def AttachedPending (s : DeferredCache κ V C) (k : List κ) (e : ℕ) (cb : C) : Prop :=
  s.pending.lookup k = some e ∧ cb ∈ (s.heap e).getInvalidationCallbacks k

/-- The callback is registered with the result of the key. -/
def AttachedStored (s : DeferredCache κ V C) (k : List κ) (cb : C) : Prop :=
  ∃ n, s.cache.find k = some n ∧ cb ∈ n.callbacks

/-- The callback is registered where the answer comes from. -/
def Attached (s : DeferredCache κ V C) (k : List κ) (cb : C) : Found V → Prop
  | .value _ => s.AttachedStored k cb
  | .deferred e => s.AttachedPending k e cb

/-- What becomes of the callbacks: `succeeds e k` says that the lookup `e` succeeds for the key `k`. -/
structure Conserved (succeeds : ℕ → List κ → Prop) (s : DeferredCache κ V C) (r : Effect κ V C) : Prop where
  /-- A callback of a result runs, or the key still has that result and the callback is attached to it. -/
  stored : ∀ k n cb, s.cache.find k = some n → cb ∈ n.callbacks → cb ∈ r.ran ∨
    ∃ n', r.state.cache.find k = some n' ∧ n'.value.value = n.value.value ∧ cb ∈ n'.callbacks
  /-- A callback of a pending lookup runs, or the lookup is still pending and has it, or its result has it. -/
  pending : ∀ k e cb, s.AttachedPending k e cb → cb ∈ r.ran ∨ r.state.AttachedPending k e cb ∨
    succeeds e k ∧ r.state.AttachedStored k cb

variable {r : Effect κ V C}

section Conserved

variable {succeeds : ℕ → List κ → Prop} {s : DeferredCache κ V C}

theorem Conserved.refl : Conserved succeeds s { state := s } :=
  ⟨fun _ n _ hn hcb => .inr ⟨n, hn, rfl, hcb⟩, fun _ _ _ h => .inr (.inl h)⟩

theorem Conserved.andThen {f : DeferredCache κ V C → Effect κ V C} (h : Conserved succeeds s r)
    (hf : ∀ s, Conserved succeeds s (f s)) : Conserved succeeds s (r.andThen f) := by
  have hright {cb : C} (hcb : cb ∈ (f r.state).ran) : cb ∈ (r.andThen f).ran := Multiset.mem_add.mpr (.inr hcb)
  have hleft {cb : C} (hcb : cb ∈ r.ran) : cb ∈ (r.andThen f).ran := Multiset.mem_add.mpr (.inl hcb)
  constructor
  · intro k n cb hn hcb
    rcases h.stored k n cb hn hcb with hran | ⟨n', hn', hv, hcb'⟩
    · exact .inl (hleft hran)
    · rcases (hf r.state).stored k n' cb hn' hcb' with hran | ⟨n'', hn'', hv', hcb''⟩
      · exact .inl (hright hran)
      · exact .inr ⟨n'', hn'', hv'.trans hv, hcb''⟩
  intro k e cb ha
  rcases h.pending k e cb ha with hran | ha' | ⟨hs, n, hn, hcb⟩
  · exact .inl (hleft hran)
  · exact ((hf r.state).pending k e cb ha').imp_left hright
  · rcases (hf r.state).stored k n cb hn hcb with hran | ⟨n', hn', -, hcb'⟩
    · exact .inl (hright hran)
    · exact .inr (.inr ⟨hs, n', hn', hcb'⟩)

theorem Conserved.foldl {α : Type} {f : α → DeferredCache κ V C → Effect κ V C} {xs : List α}
    (hf : ∀ a ∈ xs, ∀ s, Conserved succeeds s (f a s)) (h : Conserved succeeds s r) :
    Conserved succeeds s (xs.foldl (fun acc a => acc.andThen (f a)) r) := by
  exact foldlRecOn (motive := Conserved succeeds s) xs _ h fun r hr a ha => hr.andThen (hf a ha)

end Conserved

/-! ## Lookups -/

section Lookups

variable {s s' : DeferredCache κ V C} {key k : List κ} {callback : Option C} {cb : C}

/-- Nothing is lost by a read: results, pending lookups and their callbacks stay. -/
structure Reads (s s' : DeferredCache κ V C) : Prop where
  find : ∀ k n, s.cache.find k = some n →
    ∃ n', s'.cache.find k = some n' ∧ n'.value = n.value ∧ n.callbacks ⊆ n'.callbacks
  pending : s'.pending = s.pending
  next : s'.next = s.next
  heap : ∀ e k, (s.heap e).getInvalidationCallbacks k ⊆ (s'.heap e).getInvalidationCallbacks k

theorem Reads.refl (s : DeferredCache κ V C) : Reads s s :=
  ⟨fun _ n hn => ⟨n, hn, rfl, Subset.refl _⟩, rfl, rfl, fun _ _ => Subset.refl _⟩

theorem Reads.trans {s'' : DeferredCache κ V C} (h : Reads s s') (h' : Reads s' s'') : Reads s s'' := by
  refine ⟨fun k n hn => ?_, h'.pending.trans h.pending, h'.next.trans h.next,
    fun e k => Subset.trans (h.heap e k) (h'.heap e k)⟩
  obtain ⟨n', hn', hv, hsub⟩ := h.find k n hn
  obtain ⟨n'', hn'', hv', hsub'⟩ := h'.find k n' hn'
  exact ⟨n'', hn'', hv'.trans hv, Subset.trans hsub hsub'⟩

theorem Reads.attached (h : Reads s s') {f : Found V} (ha : s.Attached k cb f) : s'.Attached k cb f := by
  cases f with
  | value v =>
    obtain ⟨n, hn, hcb⟩ := ha
    obtain ⟨n', hn', -, hsub⟩ := h.find k n hn
    exact ⟨n', hn', hsub hcb⟩
  | deferred e => exact ⟨by rw [h.pending]; exact ha.1, h.heap e k ha.2⟩

theorem Reads.conserved {succeeds : ℕ → List κ → Prop} (h : Reads s r.state) : Conserved succeeds s r := by
  refine ⟨fun k n cb hn hcb => ?_, fun k e cb ha => .inr (.inl (h.attached (f := .deferred e) ha))⟩
  obtain ⟨n', hn', hv, hsub⟩ := h.find k n hn
  exact .inr ⟨n', hn', by rw [hv], hsub hcb⟩

theorem reads_addCallback (s : DeferredCache κ V C) (e : ℕ) (key : List κ) (callback : Option C) :
    Reads s (s.addCallback e key callback) := by
  refine ⟨fun _ n hn => ⟨n, hn, rfl, Subset.refl _⟩, rfl, rfl, fun e' k cb hcb => ?_⟩
  unfold addCallback
  dsimp only
  by_cases he : e' = e
  · rw [he] at hcb ⊢
    rw [update_self]
    exact CacheEntry.mem_add_of_mem hcb
  · rwa [update_of_ne he]

theorem attached_addCallback {e : ℕ} (h : s.pending.lookup key = some e) (cb : C) :
    (s.addCallback e key (some cb)).AttachedPending key e cb := by
  refine ⟨h, ?_⟩
  unfold addCallback
  dsimp only
  rw [update_self]
  exact CacheEntry.mem_add_self

theorem reads_cacheGet (s : DeferredCache κ V C) (key : List κ) (callbacks : List C) :
    Reads s { s with cache := (s.cache.cacheGet key callbacks true).2 } := by
  refine ⟨fun k n hn => ?_, rfl, rfl, fun _ _ => Subset.refl _⟩
  refine ⟨_, by rw [get_find, hn]; rfl, ?_, fun cb hcb => ?_⟩
  · split <;> rfl
  · split
    · exact Node.mem_addCallbacks.mpr (.inl hcb)
    · exact hcb

theorem attached_cacheGet {v : Tagged V} (h : (s.cache.cacheGet key [cb] true).1 = some v) :
    AttachedStored { s with cache := (s.cache.cacheGet key [cb] true).2 } key cb := by
  rw [get_eq] at h
  obtain ⟨n, hn, -⟩ := Option.map_eq_some_iff.mp h
  refine ⟨n.addCallbacks [cb], ?_, Node.mem_addCallbacks.mpr (.inr mem_cons_self)⟩
  simp [get_find, hn]

/-- A read keeps everything and registers its callback where the answers come from. -/
structure Registers (s : DeferredCache κ V C) (callback : Option C) (r : Effect κ V C) : Prop where
  reads : Reads s r.state
  registered : ∀ cb, callback = some cb → ∀ k f, (k, f) ∈ r.found → r.state.Attached k cb f

theorem registers_get (s : DeferredCache κ V C) (key : List κ) (callback : Option C) :
    Registers s callback (s.get key callback) := by
  unfold get
  cases hp : s.pending.lookup key with
  | some e =>
    refine ⟨reads_addCallback s e key callback, ?_⟩
    rintro cb rfl k f hf
    obtain ⟨rfl, rfl⟩ := Prod.mk.inj (mem_singleton.mp hf)
    exact attached_addCallback hp cb
  | none =>
    refine ⟨reads_cacheGet s key callback.toList, ?_⟩
    rintro cb rfl k f hf
    obtain ⟨v, hv, hkf⟩ := mem_map.mp hf
    obtain ⟨rfl, rfl⟩ := Prod.mk.inj hkf
    exact attached_cacheGet (Option.mem_toList.mp hv)

theorem registers_getBulkKey {acc : Effect κ V C} (h : Registers s callback acc) (key : List κ) :
    Registers s callback (getBulkKey callback acc key) := by
  -- earlier registrations survive, and the new answer gets its own
  have hfound {s' : DeferredCache κ V C} {f : Found V} (hreads : Reads acc.state s')
      (hnew : ∀ cb, callback = some cb → s'.Attached key cb f) (cb : C) (hcb : callback = some cb) (k : List κ)
      (g : Found V) (hg : (k, g) ∈ acc.found ++ [(key, f)]) : s'.Attached k cb g := by
    rcases mem_append.mp hg with hg | hg
    · exact hreads.attached (h.registered cb hcb k g hg)
    · obtain ⟨rfl, rfl⟩ := Prod.mk.inj (mem_singleton.mp hg)
      exact hnew cb hcb
  unfold getBulkKey
  dsimp only
  cases hv : (acc.state.cache.cacheGet key callback.toList true).1 with
  | some v =>
    have hreads := reads_cacheGet acc.state key callback.toList
    refine ⟨h.reads.trans hreads, hfound hreads ?_⟩
    rintro cb rfl
    exact attached_cacheGet hv
  | none =>
    cases hp : acc.state.pending.lookup key with
    | some e =>
      have hreads := reads_addCallback acc.state e key callback
      refine ⟨h.reads.trans hreads, hfound hreads ?_⟩
      rintro cb rfl
      exact attached_addCallback hp cb
    | none => exact h

theorem registers_getBulk (s : DeferredCache κ V C) (keys : List (List κ)) (callback : Option C) :
    Registers s callback (s.getBulk keys callback) := by
  have hstart : Registers s callback { state := s } := ⟨Reads.refl s, fun _ _ _ _ => nofun⟩
  unfold getBulk
  generalize ({ state := s } : Effect κ V C) = acc at hstart
  induction keys generalizing acc with
  | nil => exact hstart
  | cons key keys ih => exact ih _ (registers_getBulkKey hstart key)

end Lookups

/-! ## The ends of lookups -/

section Ends

omit [DecidableEq κ] [DecidableEq C] in
theorem next_foldl {α : Type} {f : α → DeferredCache κ V C → Effect κ V C} (hf : ∀ a s, (f a s).state.next = s.next)
    (xs : List α) (r : Effect κ V C) : (xs.foldl (fun acc a => acc.andThen (f a)) r).state.next = r.state.next := by
  induction xs generalizing r with
  | nil => rfl
  | cons x xs ih => exact (ih _).trans (hf x r.state)

theorem next_errorCallback (s : DeferredCache κ V C) (e : ℕ) (key : List κ) :
    (s.errorCallback e key).state.next = s.next := by
  unfold errorCallback
  split <;> rfl

variable {s : DeferredCache κ V C} {succeeds : ℕ → List κ → Prop}

theorem conserved_errorCallback (s : DeferredCache κ V C) (e : ℕ) (key : List κ) :
    Conserved succeeds s (s.errorCallback e key) := by
  unfold errorCallback
  split_ifs with hp
  · refine ⟨fun k n cb hn hcb => .inr ⟨n, hn, rfl, hcb⟩, fun k e' cb ha => ?_⟩
    by_cases hk : k = key
    · subst hk
      cases hp.symm.trans ha.1
      exact .inl ha.2
    · exact .inr (.inl ⟨by rw [Lib.lookup_erase_eq, if_neg hk]; exact ha.1, ha.2⟩)
  · exact .refl

variable [DecidableEq V] {size : Tagged V → ℕ}

theorem stored_cacheSet {cache : LruCache (List κ) (Tagged V) C} {key k : List κ} {v : Tagged V} {callbacks : List C}
    {n : Node (List κ) (Tagged V) C} {cb : C} (hn : cache.find k = some n) (hcb : cb ∈ n.callbacks) :
    cb ∈ (cache.cacheSet size key v callbacks).2 ∨ ∃ n', (cache.cacheSet size key v callbacks).1.find k = some n' ∧
      n'.value.value = n.value.value ∧ cb ∈ n'.callbacks := by
  by_cases hk : k = key
  · subst hk
    refine (set_find_self hn hcb).imp_right ?_
    rintro ⟨hv, n', hn', rfl, hcb'⟩
    exact ⟨n', hn', by simpa [BEq.beq] using hv, hcb'⟩
  · rcases set_find_of_ne hk hn with hn' | hran
    · exact .inr ⟨n, hn', rfl, hcb⟩
    · exact .inl (hran cb hcb)

theorem conserved_completedCallback (s : DeferredCache κ V C) (v : V) (e : ℕ) (key : List κ) (hs : succeeds e key) :
    Conserved succeeds s (s.completedCallback size v e key) := by
  unfold completedCallback
  split_ifs with hp
  · refine ⟨fun k n cb hn hcb => stored_cacheSet hn hcb, fun k e' cb ha => ?_⟩
    by_cases hk : k = key
    · subst hk
      cases hp.symm.trans ha.1
      rcases set_attached size s.cache k ⟨v, e⟩ _ (.inl ha.2) with ⟨n, hn, -, hcb⟩ | hran
      · exact .inr (.inr ⟨hs, n, hn, hcb⟩)
      · exact .inl hran
    · exact .inr (.inl ⟨by rw [Lib.lookup_erase_eq, if_neg hk]; exact ha.1, ha.2⟩)
  · exact .refl

end Ends

/-! ## Invalidations -/

section Invalidations

variable {s : DeferredCache κ V C} {p : List κ → Bool} {asked : List κ → List κ} {k : List κ} {e : ℕ} {cb : C}

theorem mem_pendingCallbacks (hp : p k = true) (he : s.pending.lookup k = some e)
    (hcb : cb ∈ (s.heap e).getInvalidationCallbacks (asked k)) : cb ∈ s.pendingCallbacks p asked := by
  have hmem : (Lib.restrict p s.pending).lookup k = some e := by rw [Lib.lookup_restrict, if_pos hp, he]
  exact Multiset.mem_bind.mpr ⟨⟨k, e⟩, Finmap.lookup_eq_some_iff.mp hmem, hcb⟩

theorem ran_invalidate {key : List κ} (hp : key <+: k) (ha : s.AttachedPending k e cb) :
    cb ∈ (s.invalidate key).ran ∨ k ≠ key ∧ ∃ callbacks globalCallbacks,
      s.heap e = .multiple callbacks globalCallbacks ∧ cb ∈ (callbacks.lookup k).getD [] := by
  have hprefix : key.isPrefixOf k = true := isPrefixOf_iff_prefix.mpr hp
  have hran (hcb : cb ∈ (s.heap e).getInvalidationCallbacks key) : cb ∈ (s.invalidate key).ran :=
    Multiset.mem_add.mpr (.inr (mem_pendingCallbacks hprefix ha.1 hcb))
  obtain ⟨-, hcb⟩ := ha
  by_cases hk : k = key
  · exact .inl (hran (hk ▸ hcb))
  cases hentry : s.heap e with
  | single key' callbacks =>
    rw [hentry] at hcb hran
    exact .inl (hran hcb)
  | multiple callbacks globalCallbacks =>
    rw [hentry] at hcb hran
    rcases mem_union_iff.mp hcb with hcb | hcb
    · exact .inr ⟨hk, callbacks, globalCallbacks, rfl, hcb⟩
    · exact .inl (hran (mem_union_iff.mpr (.inr hcb)))

end Invalidations

/-! ## New lookups -/

section New

variable {s : DeferredCache κ V C}

def Numbered (s : DeferredCache κ V C) : Prop := ∀ k, ∀ e ∈ s.lookups k, e < s.next

theorem attached_set (s : DeferredCache κ V C) (key : List κ) (cb : C) :
    (s.set key (some cb)).state.AttachedPending key s.next cb := by
  unfold set
  refine ⟨?_, ?_⟩
  · rw [Lib.lookup_insert_eq, if_pos rfl]
  · dsimp only
    rw [update_self]
    exact CacheEntry.mem_add_self

theorem attached_startBulkInput (s : DeferredCache κ V C) {keys : List (List κ)} (cb : C) {key : List κ}
    (hkey : key ∈ keys) : (s.startBulkInput keys (some cb)).state.AttachedPending key s.next cb := by
  unfold startBulkInput
  refine ⟨?_, ?_⟩
  · rw [Lib.lookup_foldl_insert, if_pos hkey]
  · dsimp only
    rw [update_self]
    exact mem_union_iff.mpr (.inr mem_cons_self)

theorem conserved_newEntry {succeeds : ℕ → List κ → Prop} (hnum : s.Numbered) {entry : CacheEntry κ C}
    (hcache : r.state.cache = s.cache) (hheap : r.state.heap = Function.update s.heap s.next entry)
    (hpending : ∀ k e cb, s.AttachedPending k e cb → r.state.pending.lookup k = s.pending.lookup k) :
    Conserved succeeds s r := by
  refine ⟨fun k n cb hn hcb => .inr ⟨n, by rw [hcache]; exact hn, rfl, hcb⟩, fun k e cb ha => .inr (.inl ⟨?_, ?_⟩)⟩
  · rw [hpending k e cb ha]
    exact ha.1
  · rw [hheap, update_of_ne (Nat.ne_of_lt (hnum k e (.inr ha.1)))]
    exact ha.2

end New

/-! ## Operations -/

variable [DecidableEq V] (size : Tagged V → ℕ)

/-- The pending lookup of the key has a callback. -/
def HasCallback (s : DeferredCache κ V C) (key : List κ) : Prop := ∃ e cb, s.AttachedPending key e cb

/-- The operation replaces a pending lookup that has a callback for the key, or asks a pending bulk lookup that has one of its
own for a key for the callbacks of a proper prefix of it. -/
def Silent (s : DeferredCache κ V C) : Op κ V C → Prop
  | .set key _ | .prefill key _ _ => s.HasCallback key
  | .startBulkInput keys _ => ∃ key ∈ keys, s.HasCallback key
  | .invalidate key => ∃ k e callbacks globalCallbacks cb, key <+: k ∧ k ≠ key ∧ s.pending.lookup k = some e ∧
      s.heap e = .multiple callbacks globalCallbacks ∧ cb ∈ (callbacks.lookup k).getD []
  | _ => False

def Succeeds : Op κ V C → ℕ → List κ → Prop
  | .complete entry _, e, _ => entry = e
  | .completeBulk entry result, e, k => entry = e ∧ k ∈ result.map Prod.fst
  | _, _, _ => False

/-- The callback that comes with an operation, and where it is registered. -/
def registrations (s : DeferredCache κ V C) : Op κ V C → Option C × List (List κ × Found V)
  | .get key callback => (callback, (s.get key callback).found)
  | .getBulk keys callback => (callback, (s.getBulk keys callback).found)
  | .set key callback => (callback, [(key, .deferred s.next)])
  | .startBulkInput keys callback => (callback, keys.map fun key => (key, .deferred s.next))
  | .prefill key value callback => (callback, [(key, .value ⟨value, s.next⟩)])
  | _ => (none, [])

/-- No callback is lost: the one that comes with the operation is registered, or has run already (the new result may
not fit in the cache), and the others are conserved. -/
structure Keeps (s : DeferredCache κ V C) (op : Op κ V C) : Prop where
  registered : ∀ cb, (s.registrations op).1 = some cb → ∀ k f, (k, f) ∈ (s.registrations op).2 →
    (s.step size op).state.Attached k cb f ∨ cb ∈ (s.step size op).ran
  conserved : Conserved (Succeeds op) s (s.step size op)

variable {size} {s : DeferredCache κ V C}

theorem keeps_of_conserved {op : Op κ V C} (hnone : (s.registrations op).1 = none)
    (h : Conserved (Succeeds op) s (s.step size op)) : s.Keeps size op :=
  ⟨fun cb hcb => absurd (hnone.symm.trans hcb) (Option.some_ne_none cb).symm, h⟩

theorem keeps_of_not_silent (hnum : s.Numbered) {op : Op κ V C} (h : ¬ s.Silent op) : s.Keeps size op := by
  cases op with
  | get key callback =>
    have hr := registers_get s key callback
    exact ⟨fun cb hcb k f hf => .inl (hr.registered cb hcb k f hf), hr.reads.conserved⟩
  | getBulk keys callback =>
    have hr := registers_getBulk s keys callback
    exact ⟨fun cb hcb k f hf => .inl (hr.registered cb hcb k f hf), hr.reads.conserved⟩
  | getImmediate key => exact keeps_of_conserved rfl (reads_cacheGet s key []).conserved
  | set key callback =>
    refine ⟨?_, conserved_newEntry hnum rfl rfl fun k e cb ha => ?_⟩
    · rintro cb rfl k f hf
      obtain ⟨rfl, rfl⟩ := Prod.mk.inj (mem_singleton.mp hf)
      exact .inl (attached_set s k cb)
    · have hk : k ≠ key := fun hk => h ⟨e, cb, hk ▸ ha⟩
      simp [step, set, hk]
  | startBulkInput keys callback =>
    refine ⟨?_, conserved_newEntry hnum rfl rfl fun k e cb ha => ?_⟩
    · rintro cb rfl k f hf
      obtain ⟨key, hkey, hkf⟩ := mem_map.mp hf
      obtain ⟨rfl, rfl⟩ := Prod.mk.inj hkf
      exact .inl (attached_startBulkInput s cb hkey)
    · have hk : k ∉ keys := fun hk => h ⟨k, hk, e, cb, ha⟩
      simp [step, startBulkInput, Lib.lookup_foldl_insert, hk]
  | complete entry v =>
    refine keeps_of_conserved rfl ?_
    simp only [step, complete]
    split
    · exact conserved_completedCallback s v entry _ rfl
    · exact .refl
  | fail entry =>
    refine keeps_of_conserved rfl ?_
    simp only [step, fail]
    split
    · exact conserved_errorCallback s entry _
    · exact .refl
  | completeBulk entry result =>
    refine keeps_of_conserved rfl ?_
    have hkey : ∀ kv ∈ result, ∀ s : DeferredCache κ V C, Conserved (Succeeds (.completeBulk entry result : Op κ V C)) s
        (s.completedCallback size kv.2 entry kv.1) := fun kv hkv s =>
      conserved_completedCallback s kv.2 entry kv.1 ⟨rfl, mem_map_of_mem hkv⟩
    exact .foldl hkey .refl
  | errorBulk entry keys => exact keeps_of_conserved rfl (.foldl (fun key _ s => conserved_errorCallback s entry key) .refl)
  | prefill key v callback =>
    refine ⟨?_, fun k n cb hn hcb => stored_cacheSet hn hcb, fun k e cb ha => ?_⟩
    · rintro cb rfl k f hf
      obtain ⟨rfl, rfl⟩ := Prod.mk.inj (mem_singleton.mp hf)
      rcases set_attached size s.cache k ⟨v, s.next⟩ [cb] (.inl mem_cons_self) with ⟨n, hn, -, hcb⟩ | hran
      · exact .inl ⟨n, hn, hcb⟩
      · exact .inr hran
    have hk : k ≠ key := fun hk => h ⟨e, cb, hk ▸ ha⟩
    refine .inr (.inl ⟨?_, ha.2⟩)
    simp only [step, prefill]
    rw [Lib.lookup_erase_eq, if_neg hk]
    exact ha.1
  | invalidate key =>
    refine keeps_of_conserved rfl ⟨fun k n cb hn hcb => ?_, fun k e cb ha => ?_⟩
    · by_cases hp : key.isPrefixOf k = true
      · exact .inl (Multiset.mem_add.mpr (.inl (ran_delMulti hp hn hcb)))
      · exact .inr ⟨n, by simpa [step, invalidate, find_delMulti, hp] using hn, rfl, hcb⟩
    by_cases hp : key <+: k
    · left
      rcases ran_invalidate hp ha with hran | ⟨hk, callbacks, globalCallbacks, hentry, hcb⟩
      · exact hran
      · exact absurd ⟨k, e, callbacks, globalCallbacks, cb, hp, hk, ha.1, hentry, hcb⟩ h
    · have hp' : key.isPrefixOf k = false := by
        rw [Bool.eq_false_iff]
        exact mt isPrefixOf_iff_prefix.mp hp
      exact .inr (.inl ⟨by simpa [step, invalidate, Lib.lookup_restrict, hp'] using ha.1, ha.2⟩)
  | invalidateAll =>
    refine keeps_of_conserved rfl ⟨fun k n cb hn hcb => .inl (Multiset.mem_add.mpr (.inl (ran_clear hn hcb))),
      fun k e cb ha => .inl (Multiset.mem_add.mpr (.inr ?_))⟩
    exact mem_pendingCallbacks rfl ha.1 ha.2
  | expire key =>
    refine keeps_of_conserved rfl ⟨fun k n cb hn hcb => ?_, fun k e cb ha => .inr (.inl ha)⟩
    by_cases hk : k = key
    · exact .inl (ran_delMulti (p := (· = key)) (decide_eq_true hk) hn hcb)
    · exact .inr ⟨n, by simpa [step, expire, find_delMulti, hk] using hn, rfl, hcb⟩
  | setCacheFactor factor =>
    refine keeps_of_conserved rfl ⟨fun k n cb hn hcb => ?_, fun k e cb ha => .inr (.inl ha)⟩
    exact (setCacheFactor_find size factor hn).symm.imp (fun h => h cb hcb) fun h => ⟨n, h, rfl, hcb⟩

/-! ## Runs -/

theorem next_completedCallback (s : DeferredCache κ V C) (v : V) (e : ℕ) (key : List κ) :
    (s.completedCallback size v e key).state.next = s.next := by
  unfold completedCallback
  split <;> rfl

theorem next_step (s : DeferredCache κ V C) (op : Op κ V C) :
    (s.step size op).state.next = s.next + if op.starts then 1 else 0 := by
  cases op with
  | get key callback => exact (registers_get s key callback).reads.next
  | getBulk keys callback => exact (registers_getBulk s keys callback).reads.next
  | complete entry v =>
    simp only [step, complete]
    split
    · exact next_completedCallback s v entry _
    · rfl
  | fail entry =>
    simp only [step, fail]
    split
    · exact next_errorCallback s entry _
    · rfl
  | completeBulk entry result =>
    exact next_foldl (fun kv s => next_completedCallback s kv.2 entry kv.1) result { state := s }
  | errorBulk entry keys => exact next_foldl (fun key s => next_errorCallback s entry key) keys { state := s }
  | _ => rfl

theorem numbered_step (h : s.Numbered) (op : Op κ V C) : (s.step size op).state.Numbered := by
  intro k e he
  rw [next_step]
  rcases (step_lookups s op k).1 he with he | ⟨rfl, hop⟩
  · exact Nat.lt_add_right _ (h k e he)
  · simp [hop]

theorem numbered_run (size : Tagged V → ℕ) (maxEntries : ℕ) (ops : List (Op κ V C)) :
    ((new maxEntries : DeferredCache κ V C).run size ops).Numbered := by
  refine foldlRecOn ops _ (fun k e he => ?_) fun s hs op _ => numbered_step hs op
  rcases he with ⟨n, hn, -⟩ | he
  · cases hn
  · cases he

/-- **Invalidation callbacks.**  Over a run without silent operations, every callback that comes with an operation is registered,
and then runs when what it is registered on is replaced, fails or is removed. -/
theorem callbacks_conserved (size : Tagged V → ℕ) (maxEntries : ℕ) {ops : List (Op κ V C)}
    (h : ∀ before op after, ops = before ++ op :: after → ¬ ((new maxEntries).run size before).Silent op)
    (before : List (Op κ V C)) (op : Op κ V C) (after : List (Op κ V C)) (hops : ops = before ++ op :: after) :
    ((new maxEntries).run size before).Keeps size op :=
  keeps_of_not_silent (numbered_run size maxEntries before) (h before op after hops)

namespace Lost

/-- A second `set` of a key while its lookup is pending, with a callback from an earlier `get`. -/
def replaced : List (Op String ℕ String) :=
  [.set ["k"] none, .get ["k"] (some "dependent"), .set ["k"] none, .complete 0 1, .complete 1 2, .invalidate ["k"]]

/-- A bulk lookup of a tree cache, with a callback for one of its keys, invalidated by a prefix. -/
def prefixed : List (Op String ℕ String) :=
  [.startBulkInput [["room", "user"]] none, .get ["room", "user"] (some "dependent"), .invalidate ["room"],
    .completeBulk 0 [(["room", "user"], 1)]]

/-- A lookup with a callback succeeds before its key is invalidated. -/
def completed : List (Op String ℕ String) :=
  [.set ["k"] none, .get ["k"] (some "dependent"), .complete 0 1, .invalidate ["k"]]

def exec (ops : List (Op String ℕ String)) : DeferredCache String ℕ String := (new 10).run (fun _ => 1) ops

theorem not_silent_completed (before : List (Op String ℕ String)) (op : Op String ℕ String) (after : List (Op String ℕ String))
    (hops : completed = before ++ op :: after) : ¬ (exec before).Silent op := by
  unfold completed at hops
  rcases before with _ | ⟨a, _ | ⟨b, _ | ⟨c, _ | ⟨d, before⟩⟩⟩⟩ <;> simp only [nil_append, cons_append, cons.injEq] at hops
  · obtain ⟨rfl, -⟩ := hops
    rintro ⟨e, cb, he, -⟩
    cases he
  · obtain ⟨-, rfl, -⟩ := hops
    exact id
  · obtain ⟨-, -, rfl, -⟩ := hops
    exact id
  · -- the lookup is not pending any more
    obtain ⟨rfl, rfl, rfl, rfl, -⟩ := hops
    have hpending : (exec [.set ["k"] none, .get ["k"] (some "dependent"), .complete 0 1]).pending = ∅ := by decide +kernel
    rintro ⟨k, e, -, -, -, -, -, he, -⟩
    rw [hpending] at he
    cases he
  · simp at hops

/-- The callbacks that run over a sequence of operations. -/
def ranOver (ops : List (Op String ℕ String)) : Multiset String :=
  let start : Effect String ℕ String := { state := new 10 }
  (ops.foldl (fun acc op => acc.andThen fun s => s.step (fun _ => 1) op) start).ran

theorem callbacks_conserved_completed : "dependent" ∈ ranOver completed ∧
    (exec [.set ["k"] none]).Keeps (fun _ => 1) (.get ["k"] (some "dependent")) ∧
    (exec (completed.take 3)).Keeps (fun _ => 1) (.invalidate ["k"]) := by
  refine ⟨by decide +kernel, ?_, ?_⟩
  · exact callbacks_conserved _ 10 not_silent_completed _ _ [.complete 0 1, .invalidate ["k"]] rfl
  · exact callbacks_conserved _ 10 not_silent_completed _ _ [] rfl

/-- In both runs the callback never runs, although what it was registered on is gone. -/
theorem callbacks_lost : "dependent" ∉ ranOver replaced ∧ "dependent" ∉ ranOver prefixed := by
  decide +kernel

end Lost

end Synapse.Cache.DeferredCache
