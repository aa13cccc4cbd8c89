import Synapse.Cache.Deferred

/-!
# Synapse.Cache.Staleness — no result from before an invalidation

The lookups that a key of a deferred cache can be answered from are those of its stored result and of its pending
entry (`lookups`).

* `step_lookups`: a step adds to them at most the lookup that it starts, and answers come from them.
* `lookups_invalidated`: after an invalidation that covers the key there are none.
* `never_stale`: so whatever happens after an invalidation, what is stored, pending or answered under the key comes
  from a lookup that was started after it.
-/

namespace Synapse.Cache

open List Option LruCache

variable {κ V C : Type}

def Op.starts : Op κ V C → Bool
  | set .. | startBulkInput .. | prefill .. => true
  | _ => false

def Op.Invalidates (k : List κ) : Op κ V C → Prop
  | invalidate key => key <+: k
  | invalidateAll => True
  | _ => False

namespace DeferredCache

variable [DecidableEq κ]

/-- The lookups that the key can be answered from. -/
def lookups (s : DeferredCache κ V C) (k : List κ) : Set ℕ :=
  {e | (∃ n, s.cache.find k = some n ∧ n.value.lookup = e) ∨ s.pending.lookup k = some e}

variable {s : DeferredCache κ V C} {key k : List κ}

theorem lookups_mono {s' : DeferredCache κ V C}
    (hfind : ∀ n', s'.cache.find k = some n' → ∃ n, s.cache.find k = some n ∧ n.value = n'.value)
    (hpending : ∀ e, s'.pending.lookup k = some e → s.pending.lookup k = some e) : s'.lookups k ⊆ s.lookups k := by
  rintro e (⟨n', hn', rfl⟩ | he)
  · obtain ⟨n, hn, hv⟩ := hfind n' hn'
    exact .inl ⟨n, hn, by rw [hv]⟩
  · exact .inr (hpending e he)

/-- The effect answers from the lookups of `s` and leaves no others. -/
structure Within (s : DeferredCache κ V C) (k : List κ) (r : Effect κ V C) : Prop where
  state : r.state.lookups k ⊆ s.lookups k
  found : ∀ f, (k, f) ∈ r.found → f.lookup ∈ s.lookups k

theorem Within.andThen {r : Effect κ V C} {f : DeferredCache κ V C → Effect κ V C} (h : Within s k r)
    (hf : ∀ s, Within s k (f s)) : Within s k (r.andThen f) := by
  refine ⟨(hf r.state).state.trans h.state, fun g hg => ?_⟩
  rcases mem_append.mp hg with hg | hg
  · exact h.found g hg
  · exact h.state ((hf r.state).found g hg)

theorem within_foldl {α : Type} {f : α → DeferredCache κ V C → Effect κ V C} (hf : ∀ a s, Within s k (f a s))
    (xs : List α) {r : Effect κ V C} (h : Within s k r) : Within s k (xs.foldl (fun acc a => acc.andThen (f a)) r) := by
  exact foldlRecOn xs _ h fun r hr a _ => hr.andThen (hf a)

/-! ## One step -/

variable [DecidableEq C] {callback : Option C}

theorem lookups_cacheGet (s : DeferredCache κ V C) (key : List κ) (callbacks : List C) (k : List κ) :
    lookups { s with cache := (s.cache.cacheGet key callbacks true).2 } k ⊆ s.lookups k := by
  refine lookups_mono (fun _ h => ?_) fun _ h => h
  rw [get_find] at h
  obtain ⟨n, hn, rfl⟩ := map_eq_some_iff.mp h
  refine ⟨n, hn, ?_⟩
  split <;> rfl

theorem lookup_of_cacheGet {callbacks : List C} {v : Tagged V}
    (h : (s.cache.cacheGet key callbacks true).1 = some v) : v.lookup ∈ s.lookups key := by
  rw [get_eq] at h
  obtain ⟨n, hn, rfl⟩ := map_eq_some_iff.mp h
  exact .inl ⟨n, hn, rfl⟩

theorem within_get (s : DeferredCache κ V C) (key : List κ) (callback : Option C) (k : List κ) :
    Within s k (s.get key callback) := by
  unfold get
  cases hp : s.pending.lookup key with
  | some e =>
    refine ⟨subset_rfl, fun f hf => ?_⟩
    cases mem_singleton.mp hf
    exact .inr hp
  | none =>
    refine ⟨lookups_cacheGet s key callback.toList k, fun f hf => ?_⟩
    obtain ⟨v, hv, hkf⟩ := List.mem_map.mp hf
    cases hkf
    exact lookup_of_cacheGet (mem_toList.mp hv)

theorem within_getImmediate (s : DeferredCache κ V C) (key k : List κ) : Within s k (s.getImmediate key) := by
  refine ⟨lookups_cacheGet s key [] k, fun f hf => ?_⟩
  obtain ⟨v, hv, hkf⟩ := List.mem_map.mp hf
  cases hkf
  exact lookup_of_cacheGet (mem_toList.mp hv)

theorem within_getBulkKey {acc : Effect κ V C} (h : ∀ k, Within s k acc) (key k : List κ) :
    Within s k (getBulkKey callback acc key) := by
  have hfound {f f' : Found V} (hf : (k, f) ∈ acc.found ++ [(key, f')]) (hf' : f'.lookup ∈ acc.state.lookups key) :
      f.lookup ∈ s.lookups k := by
    rcases mem_append.mp hf with hf | hf
    · exact (h k).found f hf
    · obtain ⟨hk, hff⟩ := Prod.mk.inj (mem_singleton.mp hf)
      rw [hk, hff]
      exact (h key).state hf'
  unfold getBulkKey
  dsimp only
  cases hv : (acc.state.cache.cacheGet key callback.toList true).1 with
  | some v =>
    refine ⟨(lookups_cacheGet acc.state key callback.toList k).trans (h k).state, fun f hf => ?_⟩
    exact hfound hf (lookup_of_cacheGet hv)
  | none =>
    cases hp : acc.state.pending.lookup key with
    | some e => exact ⟨(h k).state, fun f hf => hfound hf (.inr hp)⟩
    | none => exact h k

theorem within_getBulk (s : DeferredCache κ V C) (keys : List (List κ)) (callback : Option C) (k : List κ) :
    Within s k (s.getBulk keys callback) := by
  unfold getBulk
  have hstart : ∀ k, Within s k { state := s } := fun k => ⟨subset_rfl, nofun⟩
  generalize ({ state := s } : Effect κ V C) = acc at hstart
  induction keys generalizing acc with
  | nil => exact hstart k
  | cons key keys ih => exact ih _ fun k => within_getBulkKey hstart key k

theorem within_errorCallback (s : DeferredCache κ V C) (e : ℕ) (key k : List κ) :
    Within s k (s.errorCallback e key) := by
  unfold errorCallback
  split
  · refine ⟨lookups_mono (fun n hn => ⟨n, hn, rfl⟩) fun e' he' => ?_, fun _ hf => absurd hf not_mem_nil⟩
    simp only [Lib.lookup_erase_eq] at he'
    split at he'
    · cases he'
    · exact he'
  · exact ⟨subset_rfl, fun _ hf => absurd hf not_mem_nil⟩

variable [DecidableEq V] {size : Tagged V → ℕ}

theorem within_completedCallback (s : DeferredCache κ V C) (v : V) (e : ℕ) (key k : List κ) :
    Within s k (s.completedCallback size v e key) := by
  unfold completedCallback
  by_cases hp : s.pending.lookup key = some e
  · rw [if_pos hp]
    refine ⟨?_, nofun⟩
    rintro e' (⟨n, hn, rfl⟩ | he')
    · rcases find_of_set hn with ⟨rfl, hv⟩ | ⟨-, hn⟩
      · rw [hv]
        exact .inr hp
      · exact .inl ⟨n, hn, rfl⟩
    · simp only [Lib.lookup_erase_eq] at he'
      split at he'
      · cases he'
      · exact .inr he'
  · rw [if_neg hp]
    exact ⟨subset_rfl, nofun⟩

theorem step_lookups (s : DeferredCache κ V C) (op : Op κ V C) (k : List κ) :
    (s.step size op).state.lookups k ⊆ s.lookups k ∪ {e | e = s.next ∧ op.starts = true} ∧
      ∀ f, (k, f) ∈ (s.step size op).found → f.lookup ∈ s.lookups k := by
  have hwithin {r : Effect κ V C} (h : Within s k r) :
      r.state.lookups k ⊆ s.lookups k ∪ {e | e = s.next ∧ op.starts = true} ∧
        ∀ f, (k, f) ∈ r.found → f.lookup ∈ s.lookups k := ⟨h.state.trans Set.subset_union_left, h.found⟩
  have hrefl : Within s k { state := s } := ⟨subset_rfl, nofun⟩
  cases op with
  | get key callback => exact hwithin (within_get s key callback k)
  | getBulk keys callback => exact hwithin (within_getBulk s keys callback k)
  | getImmediate key => exact hwithin (within_getImmediate s key k)
  | set key callback =>
    refine ⟨?_, nofun⟩
    rintro e (⟨n, hn, rfl⟩ | he)
    · exact .inl (.inl ⟨n, hn, rfl⟩)
    simp only [step, set, Lib.lookup_insert_eq, Lib.lookup_erase_eq] at he
    split at he
    · cases he
      exact .inr ⟨rfl, rfl⟩
    · exact .inl (.inr he)
  | startBulkInput keys callback =>
    refine ⟨?_, nofun⟩
    rintro e (⟨n, hn, rfl⟩ | he)
    · exact .inl (.inl ⟨n, hn, rfl⟩)
    simp only [step, startBulkInput, Lib.lookup_foldl_insert] at he
    split at he
    · cases he
      exact .inr ⟨rfl, rfl⟩
    · exact .inl (.inr he)
  | complete e v =>
    refine hwithin ?_
    simp only [step, complete]
    split
    · exact within_completedCallback s v e _ k
    · exact hrefl
  | fail e =>
    refine hwithin ?_
    simp only [step, fail]
    split
    · exact within_errorCallback s e _ k
    · exact hrefl
  | completeBulk e result =>
    have hkey (kv : List κ × V) (s : DeferredCache κ V C) : Within s k (s.completedCallback size kv.2 e kv.1) :=
      within_completedCallback s kv.2 e kv.1 k
    exact hwithin (within_foldl hkey result hrefl)
  | errorBulk e keys => exact hwithin (within_foldl (fun key s => within_errorCallback s e key k) keys hrefl)
  | prefill key v callback =>
    refine ⟨?_, nofun⟩
    rintro e (⟨n, hn, rfl⟩ | he)
    · rcases find_of_set hn with ⟨-, hv⟩ | ⟨-, hn⟩
      · exact .inr ⟨by rw [hv], rfl⟩
      · exact .inl (.inl ⟨n, hn, rfl⟩)
    simp only [step, prefill, Lib.lookup_erase_eq] at he
    split at he
    · cases he
    · exact .inl (.inr he)
  | invalidate key =>
    refine hwithin ⟨lookups_mono (fun n hn => ?_) fun e he => ?_, nofun⟩
    · simp only [step, invalidate, find_delMulti] at hn
      split at hn
      · cases hn
      · exact ⟨n, hn, rfl⟩
    · simp only [step, invalidate, Lib.lookup_restrict] at he
      split at he
      · exact he
      · cases he
  | invalidateAll => exact hwithin ⟨lookups_mono nofun nofun, nofun⟩
  | expire key =>
    refine hwithin ⟨lookups_mono (fun n hn => ?_) fun _ h => h, nofun⟩
    simp only [step, expire, find_delMulti] at hn
    split at hn
    · cases hn
    · exact ⟨n, hn, rfl⟩
  | setCacheFactor factor =>
    exact hwithin ⟨lookups_mono (fun n hn => ⟨n, find_of_setCacheFactor hn, rfl⟩) fun _ h => h, nofun⟩

/-! ## Runs -/

theorem lookups_invalidated {op : Op κ V C} (h : op.Invalidates k) : (s.step size op).state.lookups k = ∅ := by
  refine Set.eq_empty_of_forall_notMem ?_
  cases op with
  | invalidate key =>
    have hp : key.isPrefixOf k = true := isPrefixOf_iff_prefix.mpr h
    rintro e (⟨n, hn, -⟩ | he)
    · simp [step, invalidate, find_delMulti, hp] at hn
    · simp [step, invalidate, Lib.lookup_restrict, hp] at he
  | invalidateAll =>
    rintro e (⟨n, hn, -⟩ | he)
    · cases hn
    · cases he
  | _ => exact h.elim

variable (size) in
/-- The lookups that are started by the operations `ops` from the state `s`. -/
def startedIn (s : DeferredCache κ V C) (ops : List (Op κ V C)) : Set ℕ :=
  {e | ∃ before op after, ops = before ++ op :: after ∧ op.starts = true ∧ (s.run size before).next = e}

theorem run_lookups (size : Tagged V → ℕ) (s : DeferredCache κ V C) (ops : List (Op κ V C)) (k : List κ) :
    (s.run size ops).lookups k ⊆ s.lookups k ∪ s.startedIn size ops := by
  induction ops using reverseRecOn with
  | nil => exact Set.subset_union_left
  | append_singleton ops op ih =>
    have hrun : s.run size (ops ++ [op]) = ((s.run size ops).step size op).state := by
      rw [run, foldl_append]
      rfl
    rw [hrun]
    intro e he
    rcases (step_lookups (s.run size ops) op k).1 he with he | ⟨rfl, hop⟩
    · rcases ih he with he | ⟨before, op', after, rfl, hop', hnext⟩
      · exact .inl he
      · exact .inr ⟨before, op', after ++ [op], by simp, hop', hnext⟩
    · exact .inr ⟨ops, op, [], rfl, hop, rfl⟩

/-- **No stale results.**  Take any run and an invalidation in it that covers a key, by the key, by a prefix of it or of
the whole cache.  Whatever happens afterwards, the result stored for the key, the pending lookup of the key and every
answer given for it come from a lookup that was started after the invalidation. -/
theorem never_stale (size : Tagged V → ℕ) (maxEntries : ℕ) (before after : List (Op κ V C)) (op : Op κ V C)
    (k : List κ) (hop : op.Invalidates k) :
    let invalidated := (new maxEntries : DeferredCache κ V C).run size (before ++ [op])
    let s := invalidated.run size after
    (∀ n, s.cache.find k = some n → n.value.lookup ∈ invalidated.startedIn size after) ∧
      (∀ e, s.pending.lookup k = some e → e ∈ invalidated.startedIn size after) ∧
      ∀ later f, (k, f) ∈ (s.step size later).found → f.lookup ∈ invalidated.startedIn size after := by
  intro invalidated s
  have hempty : invalidated.lookups k = ∅ := by
    change ((new maxEntries : DeferredCache κ V C).run size (before ++ [op])).lookups k = ∅
    rw [run, foldl_append]
    exact lookups_invalidated hop
  have hstarted : s.lookups k ⊆ invalidated.startedIn size after := by
    have hrun := run_lookups size invalidated after k
    rwa [hempty, Set.empty_union] at hrun
  exact ⟨fun n hn => hstarted (.inl ⟨n, hn, rfl⟩), fun e he => hstarted (.inr he),
    fun later f hf => hstarted ((step_lookups s later k).2 f hf)⟩

namespace Race

/-- A bulk lookup of two keys is in progress when the prefix of one of them is invalidated; its result then arrives. -/
def before : List (Op String ℕ Unit) := [.startBulkInput [["a", "x"], ["b", "x"]] none]

def after : List (Op String ℕ Unit) := [.completeBulk 0 [(["a", "x"], 1), (["b", "x"], 2)]]

theorem never_stale_race : (Op.invalidate ["a"] : Op String ℕ Unit).Invalidates ["a", "x"] ∧
    (let invalidated := (new 10 : DeferredCache String ℕ Unit).run (fun _ => 1) (before ++ [.invalidate ["a"]])
     let s := invalidated.run (fun _ => 1) after
     (∀ n, s.cache.find ["a", "x"] = some n → n.value.lookup ∈ invalidated.startedIn (fun _ => 1) after) ∧
       (∀ e, s.pending.lookup ["a", "x"] = some e → e ∈ invalidated.startedIn (fun _ => 1) after) ∧
       ∀ later f, (["a", "x"], f) ∈ (s.step (fun _ => 1) later).found →
         f.lookup ∈ invalidated.startedIn (fun _ => 1) after) :=
  have hop : (Op.invalidate ["a"] : Op String ℕ Unit).Invalidates ["a", "x"] := ⟨["x"], rfl⟩
  ⟨hop, never_stale (fun _ => 1) 10 before after (.invalidate ["a"]) ["a", "x"] hop⟩

end Race

end DeferredCache

end Synapse.Cache
