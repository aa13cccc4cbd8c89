import Mathlib.Data.Finset.Sort
import Mathlib.Data.NNRat.Floor
import Synapse.Lib.Dict
import Synapse.Lib.Outcome
import Synapse.Json

/-!
# Synapse.Cache.StreamChange — which entities have changed since a position

`StreamChangeCache` of `synapse/util/caches/stream_change_cache.py`: the latest change of each entity, at most
`max_size` positions of them, and `earliest_known_stream_pos`, below which nothing is known.

* `entityHasChanged`, `allEntitiesChanged`, `setCacheFactor`: the operations; `Op`, `run`.
* `Inv`: the two dicts agree, and every reported change is either still there or not above the earliest position.
* `InOrder`: every whole-stream change is reported at or above all positions reported before it.
* `sound_iff`: the cache is sound throughout a run if and only if the run is in order.
* **`run_within_size`**: in any run nothing is raised, and there are at most `max_size` positions.
* **`exact_of_reports`**: without whole-stream changes it is exact as well, and the queries agree.
-/

namespace Synapse.Cache

open Finset Lib

/-- `EntityType`. -/
abbrev Entity := String

structure StreamChangeCache where
  originalMaxSize : ℕ
  maxSize : ℕ
  /-- From a position to the entities whose latest change was there. -/
  cache : Finmap fun _ : ℤ => Finset Entity
  entityToKey : Finmap fun _ : Entity => ℤ
  earliestKnownStreamPos : ℤ

namespace StreamChangeCache

/-- A new cache, before `prefilled_cache` is reported to it. -/
def new (currentStreamPos : ℤ) (maxSize : ℕ) : StreamChangeCache where
  originalMaxSize := maxSize
  maxSize := maxSize
  cache := ∅
  entityToKey := ∅
  earliestKnownStreamPos := currentStreamPos

variable (c : StreamChangeCache) (entity : Entity) (streamPos : ℤ)

def entitiesAt (k : ℤ) : Finset Entity := (c.cache.lookup k).getD ∅

/-! ## Changes -/

/-- One round of the loop of `_evict`: `popitem(0)` takes the earliest position. -/
def evictOldest : StreamChangeCache :=
  if h : c.cache.keys.Nonempty then
    let k := c.cache.keys.min' h
    { c with
      cache := c.cache.erase k
      entityToKey := restrict (fun e => e ∉ c.entitiesAt k) c.entityToKey
      earliestKnownStreamPos := max k c.earliestKnownStreamPos }
  else c

/-- The loop of `_evict`, with fuel. -/
def evictLoop : ℕ → StreamChangeCache → StreamChangeCache
  | 0, c => c
  | fuel + 1, c => if c.maxSize < c.cache.keys.card then evictLoop fuel c.evictOldest else c

/-- `_evict`: each round drops a position, so there are at most as many rounds as positions. -/
def evict : StreamChangeCache := evictLoop c.cache.keys.card c

def setCacheFactor (factor : ℚ≥0) : StreamChangeCache :=
  let newSize := ⌊(c.originalMaxSize : ℚ≥0) * factor⌋₊
  if newSize ≠ c.maxSize then evict { c with maxSize := newSize } else c

/-- Take an entity out of the set of its old position, which is deleted when it becomes empty. -/
def forget (oldPos : ℤ) : Except Exc StreamChangeCache :=
  match c.cache.lookup oldPos with
  | none => throw (.keyError (.int oldPos))
  | some e =>
    if entity ∈ e then
      pure { c with cache := if e.erase entity = ∅ then c.cache.erase oldPos else c.cache.insert oldPos (e.erase entity) }
    else throw (.keyError (.str entity))

def record : StreamChangeCache :=
  { c with
    cache := c.cache.insert streamPos (insert entity (c.entitiesAt streamPos))
    entityToKey := c.entityToKey.insert entity streamPos }

def entityHasChanged : Except Exc StreamChangeCache :=
  if streamPos ≤ c.earliestKnownStreamPos then pure c
  else match c.entityToKey.lookup entity with
    | none => pure (c.record entity streamPos).evict
    | some oldPos =>
      if streamPos ≤ oldPos then pure c
      else do
        let c ← c.forget entity oldPos
        pure (c.record entity streamPos).evict

def allEntitiesChanged : StreamChangeCache :=
  { c with cache := ∅, entityToKey := ∅, earliestKnownStreamPos := streamPos }

/-! ## Queries -/

def hasEntityChanged : Bool :=
  if streamPos < c.earliestKnownStreamPos then true
  else match c.entityToKey.lookup entity with
    | none => false
    | some latest => streamPos < latest

/-- `get_all_entities_changed`: the sets that are concatenated, in the order of their positions. -/
def getAllEntitiesChanged : Option (List (Finset Entity)) :=
  if streamPos < c.earliestKnownStreamPos then none
  else some (((c.cache.keys.filter (streamPos < ·)).sort (· ≤ ·)).map c.entitiesAt)

def hasAnyEntityChanged : Bool :=
  if streamPos < c.earliestKnownStreamPos then true
  else if h : c.cache.keys.Nonempty then streamPos < c.cache.keys.max' h
  else false

def getEntitiesChanged (entities : Finset Entity) (streamPos perfFactor : ℤ) : Finset Entity :=
  if h : c.cache.keys.Nonempty then
    if streamPos < c.earliestKnownStreamPos then entities
    else if c.cache.keys.max' h - streamPos > perfFactor * entities.card then
      entities.filter fun e => streamPos < (c.entityToKey.lookup e).getD (-1)
    else match c.getAllEntitiesChanged streamPos with
      | some changed => entities.filter fun e => changed.any (e ∈ ·)
      | none => entities
  else entities

/-- Some query says that the entity has not changed after the position. -/
inductive ReportsUnchanged (c : StreamChangeCache) (entity : Entity) (streamPos : ℤ) : Prop where
  | entity (h : c.hasEntityChanged entity streamPos = false)
  | any (h : c.hasAnyEntityChanged streamPos = false)
  | all (changed : List (Finset Entity)) (h : c.getAllEntitiesChanged streamPos = some changed)
      (hnot : ∀ s ∈ changed, entity ∉ s)
  | subset (entities : Finset Entity) (perfFactor : ℤ) (hin : entity ∈ entities)
      (hnot : entity ∉ c.getEntitiesChanged entities streamPos perfFactor)

end StreamChangeCache

/-! ## Runs -/

open StreamChangeCache

/-- What happens to a stream change cache.  Entries of `prefilled_cache` are reports at the beginning. -/
inductive ChangeOp where
  | entityHasChanged (entity : Entity) (streamPos : ℤ)
  | allEntitiesChanged (streamPos : ℤ)
  | setCacheFactor (factor : ℚ≥0)

def StreamChangeCache.step (c : StreamChangeCache) : ChangeOp → Except Exc StreamChangeCache
  | .entityHasChanged entity streamPos => c.entityHasChanged entity streamPos
  | .allEntitiesChanged streamPos => pure (c.allEntitiesChanged streamPos)
  | .setCacheFactor factor => pure (c.setCacheFactor factor)

def StreamChangeCache.run (c : StreamChangeCache) (ops : List ChangeOp) : Except Exc StreamChangeCache :=
  ops.foldlM StreamChangeCache.step c

/-- A change of the entity, or of every entity, was reported at the position. -/
def Reported (ops : List ChangeOp) (entity : Entity) (q : ℤ) : Prop :=
  .entityHasChanged entity q ∈ ops ∨ .allEntitiesChanged q ∈ ops

/-- Every whole-stream change is reported at or above all positions reported before it. -/
def InOrder (ops : List ChangeOp) : Prop :=
  ∀ before q after, ops = before ++ .allEntitiesChanged q :: after → ∀ entity r, Reported before entity r → r ≤ q

def StreamChangeCache.Sound (c : StreamChangeCache) (ops : List ChangeOp) : Prop :=
  ∀ entity p q, c.ReportsUnchanged entity p → Reported ops entity q → q ≤ p

/-! ## The invariant -/

def StreamChangeCache.Synced (c : StreamChangeCache) : Prop :=
  ∀ k e, e ∈ c.entitiesAt k ↔ c.entityToKey.lookup e = some k

/-- The change at `q` is covered: the entity is known to have changed at or after it, or nothing is known below it. -/
def StreamChangeCache.Covers (c : StreamChangeCache) (entity : Entity) (q : ℤ) : Prop :=
  q ≤ c.earliestKnownStreamPos ∨ ∃ k, c.entityToKey.lookup entity = some k ∧ q ≤ k

/-- What holds of the cache after the operations `ops`. -/
structure StreamChangeCache.Inv (c : StreamChangeCache) (ops : List ChangeOp) : Prop where
  synced : c.Synced
  covers : ∀ entity q, Reported ops entity q → c.Covers entity q

section Evict

variable {c : StreamChangeCache}

theorem synced_evictOldest (h : c.Synced) : c.evictOldest.Synced := by
  unfold evictOldest
  split_ifs with hne
  · intro k e
    have hmin := h (c.cache.keys.min' hne) e
    change e ∈ ((c.cache.erase (c.cache.keys.min' hne)).lookup k).getD ∅ ↔
      (restrict (fun e => e ∉ c.entitiesAt (c.cache.keys.min' hne)) c.entityToKey).lookup e = some k
    rw [lookup_restrict, lookup_erase_eq]
    by_cases hkm : k = c.cache.keys.min' hne
    · subst hkm
      by_cases he : e ∈ c.entitiesAt (c.cache.keys.min' hne)
      · simp [he]
      · simp [he, mt hmin.mpr he]
    rw [if_neg hkm]
    refine (h k e).trans ?_
    by_cases he : e ∈ c.entitiesAt (c.cache.keys.min' hne)
    · simp [he, hmin.mp he, Ne.symm hkm]
    · simp [he]
  · exact h

theorem covers_evictOldest (hs : c.Synced) {entity : Entity} {q : ℤ} (h : c.Covers entity q) :
    c.evictOldest.Covers entity q := by
  unfold evictOldest
  split_ifs with hne
  · rcases h with h | ⟨k, hk, hq⟩
    · exact .inl (le_trans h (le_max_right _ _))
    by_cases hmin : k = c.cache.keys.min' hne
    · exact .inl (le_trans (hmin ▸ hq) (le_max_left _ _))
    refine .inr ⟨k, ?_, hq⟩
    have hnot : entity ∉ c.entitiesAt (c.cache.keys.min' hne) := by
      rw [hs, hk]
      simpa using hmin
    rw [lookup_restrict, if_pos (decide_eq_true hnot), hk]
  · exact h

theorem inv_evictLoop {ops : List ChangeOp} (fuel : ℕ) (h : c.Inv ops) : (evictLoop fuel c).Inv ops := by
  fun_induction evictLoop fuel c with
  | case1 c => exact h
  | case2 fuel c hgt ih =>
    exact ih ⟨synced_evictOldest h.synced, fun e q hq => covers_evictOldest h.synced (h.covers e q hq)⟩
  | case3 fuel c hle => exact h

theorem lookup_evict {e : Entity} {k : ℤ} (h : c.evict.entityToKey.lookup e = some k) :
    c.entityToKey.lookup e = some k := by
  unfold evict at h
  generalize c.cache.keys.card = fuel at h
  fun_induction evictLoop fuel c with
  | case1 c => exact h
  | case2 fuel c hgt ih =>
    have hold := ih h
    unfold evictOldest at hold
    split at hold
    · rw [lookup_restrict] at hold
      split at hold
      · exact hold
      · cases hold
    · exact hold
  | case3 fuel c hle => exact h

theorem card_evictOldest (hne : c.cache.keys.Nonempty) :
    c.evictOldest.cache.keys.card + 1 = c.cache.keys.card ∧ c.evictOldest.maxSize = c.maxSize := by
  unfold evictOldest
  rw [dif_pos hne]
  refine ⟨?_, rfl⟩
  rw [Finmap.keys_erase, card_erase_of_mem (min'_mem _ hne)]
  have := hne.card_pos
  omega

/-- The fuel is enough: the loop ends with the cache within its size. -/
theorem card_evict (c : StreamChangeCache) : c.evict.cache.keys.card ≤ c.evict.maxSize := by
  unfold evict
  generalize hfuel : c.cache.keys.card = fuel
  replace hfuel := hfuel.le
  fun_induction evictLoop fuel c with
  | case1 c => omega
  | case2 fuel c hgt ih =>
    have hpos : c.cache.keys.Nonempty := card_pos.mp (by omega)
    exact ih (by have := (card_evictOldest hpos).1; omega)
  | case3 fuel c hle => omega

end Evict

variable {e : Entity}

section Step

variable {c c' : StreamChangeCache} {ops : List ChangeOp} {entity : Entity} {pos : ℤ}

theorem synced_record (hs : ∀ k e, e ≠ entity → (e ∈ c.entitiesAt k ↔ c.entityToKey.lookup e = some k))
    (hout : ∀ k, entity ∉ c.entitiesAt k) : (c.record entity pos).Synced := by
  intro k e
  have hat : (c.record entity pos).entitiesAt k =
      if k = pos then insert entity (c.entitiesAt pos) else c.entitiesAt k := by
    unfold entitiesAt record
    rw [lookup_insert_eq]
    split <;> rfl
  have hkey : (c.record entity pos).entityToKey.lookup e =
      if e = entity then some pos else c.entityToKey.lookup e := lookup_insert_eq _ _ _ _
  rw [hat, hkey]
  by_cases he : e = entity
  · rw [if_pos he, he]
    by_cases hk : k = pos
    · simp [hk]
    · rw [if_neg hk]
      simp [hout, Ne.symm hk]
  · rw [if_neg he, ← hs k e he]
    by_cases hk : k = pos
    · simp [hk, he]
    · rw [if_neg hk]

theorem covers_record (hold : ∀ k, c.entityToKey.lookup entity = some k → k ≤ pos) {q : ℤ}
    (h : c.Covers e q ∨ e = entity ∧ q ≤ pos) : (c.record entity pos).Covers e q := by
  have hkey : (c.record entity pos).entityToKey.lookup e =
      if e = entity then some pos else c.entityToKey.lookup e := lookup_insert_eq _ _ _ _
  unfold Covers
  rw [hkey]
  rcases h with (h | ⟨k, hk, hq⟩) | ⟨rfl, hq⟩
  · exact .inl h
  · right
    by_cases he : e = entity
    · exact ⟨pos, if_pos he, le_trans hq (hold k (he ▸ hk))⟩
    · exact ⟨k, (if_neg he).trans hk, hq⟩
  · exact .inr ⟨pos, if_pos rfl, hq⟩

theorem forget_ok (hs : c.Synced) {old : ℤ} (hold : c.entityToKey.lookup entity = some old) :
    ∃ c', c.forget entity old = .ok c' ∧ c'.entityToKey = c.entityToKey ∧
      c'.earliestKnownStreamPos = c.earliestKnownStreamPos ∧
      (∀ k e, e ∈ c'.entitiesAt k ↔ e ∈ c.entitiesAt k ∧ e ≠ entity) := by
  have hmem : entity ∈ c.entitiesAt old := (hs old entity).mpr hold
  unfold forget
  cases hl : c.cache.lookup old with
  | none => simp [entitiesAt, hl] at hmem
  | some set =>
    have hin : entity ∈ set := by simpa [entitiesAt, hl] using hmem
    dsimp only
    rw [if_pos hin]
    refine ⟨_, rfl, rfl, rfl, fun k e => ?_⟩
    have hother : k ≠ old → e ∈ c.entitiesAt k → e ≠ entity := by
      rintro hk he rfl
      exact hk (by simpa [hold] using ((hs k e).mp he).symm)
    simp only [entitiesAt]
    by_cases hk : k = old
    · subst hk
      by_cases hempty : set.erase entity = ∅
      · have : e ∈ set ∧ e ≠ entity ↔ False := by
          rw [← notMem_empty e |> iff_false_intro, ← hempty, mem_erase, and_comm]
        simp [hempty, hl, this]
      · simp [hempty, hl, and_comm]
    have hsame : ((if set.erase entity = ∅ then c.cache.erase old
        else c.cache.insert old (set.erase entity)).lookup k) = c.cache.lookup k := by
      split
      · rw [lookup_erase_eq, if_neg hk]
      · rw [lookup_insert_eq, if_neg hk]
    rw [hsame]
    exact ⟨fun he => ⟨he, hother hk he⟩, And.left⟩

theorem reported_snoc {op : ChangeOp} {q : ℤ} : Reported (ops ++ [op]) e q ↔
    Reported ops e q ∨ op = .entityHasChanged e q ∨ op = .allEntitiesChanged q := by
  unfold Reported
  simp only [List.mem_append, List.mem_singleton, eq_comm]
  tauto

/-- A report changes nothing if it is covered already.  Otherwise the entity moves from its old position to the new one. -/
theorem entityHasChanged_ok (hs : c.Synced) (entity : Entity) (pos : ℤ) : ∃ c', c.entityHasChanged entity pos = .ok c' ∧
    (c' = c ∧ c.Covers entity pos ∨
      ∃ c₁ : StreamChangeCache, c' = (c₁.record entity pos).evict ∧ c₁.entityToKey = c.entityToKey ∧
        c₁.earliestKnownStreamPos = c.earliestKnownStreamPos ∧
        (∀ k e, e ∈ c₁.entitiesAt k ↔ e ∈ c.entitiesAt k ∧ e ≠ entity) ∧
        ∀ k, c.entityToKey.lookup entity = some k → k ≤ pos) := by
  unfold entityHasChanged
  split_ifs with hearly
  · exact ⟨c, rfl, .inl ⟨rfl, .inl hearly⟩⟩
  cases hold : c.entityToKey.lookup entity with
  | none =>
    refine ⟨_, rfl, .inr ⟨c, rfl, rfl, rfl, fun k e => ⟨fun he => ⟨he, ?_⟩, And.left⟩, by simp⟩⟩
    rintro rfl
    rw [hs, hold] at he
    cases he
  | some old =>
    dsimp only
    split_ifs with hle
    · exact ⟨c, rfl, .inl ⟨rfl, .inr ⟨old, hold, hle⟩⟩⟩
    obtain ⟨c₁, hc₁, hkeys, hearliest, hat⟩ := forget_ok hs hold
    rw [hc₁]
    refine ⟨_, rfl, .inr ⟨c₁, rfl, hkeys, hearliest, hat, fun k hk => ?_⟩⟩
    cases hk
    omega

theorem inv_entityHasChanged (h : c.Inv ops) (entity : Entity) (pos : ℤ) :
    ∃ c', c.entityHasChanged entity pos = .ok c' ∧ c'.Inv (ops ++ [.entityHasChanged entity pos]) ∧
      ∀ e k, c'.entityToKey.lookup e = some k → c.entityToKey.lookup e = some k ∨ e = entity ∧ k = pos := by
  have hrep {e : Entity} {q : ℤ} (hq : Reported (ops ++ [.entityHasChanged entity pos]) e q) :
      c.Covers e q ∨ e = entity ∧ q = pos := by
    rcases reported_snoc.mp hq with hq | hq | hq
    · exact .inl (h.covers e q hq)
    · cases hq
      exact .inr ⟨rfl, rfl⟩
    · cases hq
  obtain ⟨c', hc', ⟨rfl, hcovers⟩ | ⟨c₁, rfl, hkeys, hearliest, hat, hold⟩⟩ := entityHasChanged_ok h.synced entity pos
  · refine ⟨c', hc', ⟨h.synced, fun e q hq => (hrep hq).elim id ?_⟩, fun _ _ => .inl⟩
    rintro ⟨rfl, rfl⟩
    exact hcovers
  refine ⟨_, hc', inv_evictLoop _ ⟨synced_record (fun k e he => ?_) (fun k => ?_), fun e q hq => ?_⟩, fun e k hk => ?_⟩
  · rw [hat, hkeys, ← h.synced]
    exact and_iff_left he
  · simp [hat]
  · refine covers_record (hkeys ▸ hold) ((hrep hq).imp ?_ fun hq => ⟨hq.1, hq.2.le⟩)
    unfold Covers
    rw [hkeys, hearliest]
    exact id
  have hk := lookup_evict hk
  rw [record, lookup_insert_eq, hkeys] at hk
  split at hk
  · next he => exact .inr ⟨he, (Option.some.inj hk).symm⟩
  · exact .inl hk

theorem inv_allEntitiesChanged (c : StreamChangeCache) (hord : ∀ e r, Reported ops e r → r ≤ pos) :
    (c.allEntitiesChanged pos).Inv (ops ++ [.allEntitiesChanged pos]) := by
  refine ⟨fun k e => by simp [allEntitiesChanged, entitiesAt], fun e q hq => .inl ?_⟩
  rcases reported_snoc.mp hq with hq | hq | hq
  · exact hord e q hq
  · cases hq
  · cases hq
    exact le_rfl

theorem inv_setCacheFactor (h : c.Inv ops) (factor : ℚ≥0) :
    (c.setCacheFactor factor).Inv (ops ++ [.setCacheFactor factor]) := by
  have hops : c.Inv (ops ++ [.setCacheFactor factor]) := by
    refine ⟨h.synced, fun e q hq => ?_⟩
    rcases reported_snoc.mp hq with hq | hq | hq
    · exact h.covers e q hq
    · cases hq
    · cases hq
  unfold setCacheFactor
  dsimp only
  split
  · exact inv_evictLoop _ ⟨hops.synced, hops.covers⟩
  · exact hops

end Step

/-! ## Soundness -/

variable {c : StreamChangeCache} {ops : List ChangeOp}

theorem mem_cache_keys (hs : c.Synced) {k : ℤ} (h : c.entityToKey.lookup e = some k) : k ∈ c.cache.keys := by
  have hmem := (hs k e).mpr h
  rw [Finmap.mem_keys, Finmap.mem_iff]
  cases hl : c.cache.lookup k with
  | none => simp [entitiesAt, hl] at hmem
  | some set => exact ⟨set, rfl⟩

section Queries

variable {p : ℤ}

theorem hasEntityChanged_iff : c.hasEntityChanged e p = true ↔
    p < c.earliestKnownStreamPos ∨ ∃ k, c.entityToKey.lookup e = some k ∧ p < k := by
  unfold hasEntityChanged
  split
  · simp [*]
  · cases hk : c.entityToKey.lookup e <;> simp [*]

variable (hs : c.Synced)
include hs

theorem mem_getAllEntitiesChanged {changed : List (Finset Entity)} (h : c.getAllEntitiesChanged p = some changed) :
    (∃ s ∈ changed, e ∈ s) ↔ c.hasEntityChanged e p = true := by
  unfold getAllEntitiesChanged at h
  split at h
  · cases h
  next hearly =>
    cases h
    simp only [List.mem_map, exists_exists_and_eq_and, mem_sort, mem_filter, hs _ _, hasEntityChanged_iff, hearly, false_or]
    exact ⟨fun ⟨k, ⟨_, hpk⟩, hk⟩ => ⟨k, hk, hpk⟩, fun ⟨k, hk, hpk⟩ => ⟨k, ⟨mem_cache_keys hs hk, hpk⟩, hk⟩⟩

/-- Both strategies of the set query come to the single query. -/
theorem mem_getEntitiesChanged (hp : -1 ≤ p ∨ c.hasEntityChanged e p = true) {entities : Finset Entity} {perfFactor : ℤ} :
    e ∈ c.getEntitiesChanged entities p perfFactor ↔
      e ∈ entities ∧ (c.cache.keys.Nonempty → c.hasEntityChanged e p = true) := by
  unfold getEntitiesChanged
  split
  next hne =>
    simp only [hne, forall_true_left]
    split
    · next hearly => simp [hasEntityChanged_iff, hearly]
    next hearly =>
    split
    · rw [mem_filter]
      refine and_congr_right fun _ => ?_
      rw [hasEntityChanged_iff] at hp ⊢
      cases hk : c.entityToKey.lookup e <;> simp_all
      omega
    cases hall : c.getAllEntitiesChanged p with
    | none => simp [getAllEntitiesChanged, hearly] at hall
    | some changed => simp [← mem_getAllEntitiesChanged hs hall]
  · simp [*]

theorem le_of_reportsUnchanged {q : ℤ} (hun : c.ReportsUnchanged e p) (hq : c.Covers e q) : q ≤ p := by
  by_contra hlt
  have hchanged : c.hasEntityChanged e p = true := hasEntityChanged_iff.mpr
    (hq.imp (not_le.mp hlt).trans_le fun ⟨k, hk, hle⟩ => ⟨k, hk, (not_le.mp hlt).trans_le hle⟩)
  cases hun with
  | entity h => simp [hchanged] at h
  | any h =>
    unfold hasAnyEntityChanged at h
    rcases hasEntityChanged_iff.mp hchanged with hearly | ⟨k, hk, hpk⟩
    · simp [hearly] at h
    have hmem := mem_cache_keys hs hk
    have := le_max' _ k hmem
    split at h
    · cases h
    · rw [dif_pos ⟨k, hmem⟩, decide_eq_false_iff_not] at h
      omega
  | all changed h hnot =>
    obtain ⟨s, hmem, he⟩ := (mem_getAllEntitiesChanged hs h).mpr hchanged
    exact hnot s hmem he
  | subset entities perfFactor hin hnot =>
    exact hnot ((mem_getEntitiesChanged hs (.inr hchanged)).mpr ⟨hin, fun _ => hchanged⟩)

end Queries

theorem StreamChangeCache.Inv.sound (h : c.Inv ops) : c.Sound ops :=
  fun e _ q hun hq => le_of_reportsUnchanged h.synced hun (h.covers e q hq)

theorem inv_new (currentStreamPos : ℤ) (maxSize : ℕ) : (new currentStreamPos maxSize).Inv [] :=
  ⟨fun k e => by simp [new, entitiesAt], fun e q hq => by simp [Reported] at hq⟩

theorem InOrder.of_append {before after : List ChangeOp} (h : InOrder (before ++ after)) : InOrder before := by
  rintro l q r rfl
  exact h l q (r ++ after) (by simp)

theorem run_inv (currentStreamPos : ℤ) (maxSize : ℕ) (hord : InOrder ops) :
    ∃ c, (new currentStreamPos maxSize).run ops = .ok c ∧ c.Inv ops ∧
      ∀ e k, c.entityToKey.lookup e = some k → .entityHasChanged e k ∈ ops := by
  induction ops using List.reverseRecOn with
  | nil => exact ⟨_, rfl, inv_new currentStreamPos maxSize, fun e k hk => by cases hk⟩
  | append_singleton ops op ih =>
    obtain ⟨c, hrun, hinv, hreported⟩ := ih hord.of_append
    have hstep : ∃ c', c.step op = .ok c' ∧ c'.Inv (ops ++ [op]) ∧
        ∀ e k, c'.entityToKey.lookup e = some k → c.entityToKey.lookup e = some k ∨ op = .entityHasChanged e k := by
      cases op with
      | entityHasChanged entity pos =>
        obtain ⟨c', hc', hinv', hkeys⟩ := inv_entityHasChanged hinv entity pos
        exact ⟨c', hc', hinv', fun e k hk => (hkeys e k hk).imp_right fun ⟨he, hk⟩ => by rw [he, hk]⟩
      | allEntitiesChanged pos =>
        exact ⟨_, rfl, inv_allEntitiesChanged c fun e r hr => hord ops pos [] rfl e r hr, fun e k hk => by cases hk⟩
      | setCacheFactor factor =>
        refine ⟨_, rfl, inv_setCacheFactor hinv factor, fun e k hk => .inl ?_⟩
        unfold setCacheFactor at hk
        dsimp only at hk
        split at hk
        · exact (lookup_evict hk :)
        · exact hk
    obtain ⟨c', hc', hinv', hkeys⟩ := hstep
    refine ⟨c', ?_, hinv', fun e k hk => ?_⟩
    · unfold StreamChangeCache.run at hrun ⊢
      rw [List.foldlM_append, hrun]
      exact (bind_pure (c.step op)).trans hc'
    · rcases hkeys e k hk with hk | rfl
      · exact List.mem_append_left _ (hreported e k hk)
      · simp

/-- Right after a whole-stream change every query at its position says "unchanged". -/
theorem reportsUnchanged_allEntitiesChanged (c : StreamChangeCache) (entity : Entity) (q : ℤ) :
    (c.allEntitiesChanged q).ReportsUnchanged entity q :=
  .entity (by simp [hasEntityChanged, allEntitiesChanged])

/-- **Soundness of the stream change cache.**  Over a run of reports and resizes, no query ever denies a change that
was reported, if and only if each whole-stream change comes at or above every position reported before it. -/
theorem sound_iff (currentStreamPos : ℤ) (maxSize : ℕ) (ops : List ChangeOp) : (∀ before after, ops = before ++ after →
      ∃ c, (new currentStreamPos maxSize).run before = .ok c ∧ c.Sound before) ↔ InOrder ops := by
  constructor
  · intro h before q after hops entity r hr
    obtain ⟨c', hrun, hsound⟩ := h (before ++ [.allEntitiesChanged q]) after (by simp [hops])
    unfold StreamChangeCache.run at hrun
    rw [List.foldlM_append] at hrun
    obtain ⟨c, -, hstep⟩ := exc_bind_ok hrun
    cases hstep
    exact hsound entity q r (reportsUnchanged_allEntitiesChanged c entity q) (reported_snoc.mpr (.inl hr))
  · rintro hord before after rfl
    obtain ⟨c, hrun, hinv, -⟩ := run_inv currentStreamPos maxSize hord.of_append
    exact ⟨c, hrun, hinv.sound⟩

/-- A whole-stream change at 5 after a change of a user at 10: the user is reported unchanged since 7. -/
theorem late_reset_unsound : ∃ c, (new 0 10000).run [.entityHasChanged "@alice:hs" 10, .allEntitiesChanged 5] = .ok c ∧
      c.hasEntityChanged "@alice:hs" 7 = false :=
  ⟨_, rfl, by decide⟩

/-! ## Size -/

theorem step_within_size (hs : c.Synced) (hle : c.cache.keys.card ≤ c.maxSize) (op : ChangeOp) :
    ∃ c', c.step op = .ok c' ∧ c'.Synced ∧ c'.cache.keys.card ≤ c'.maxSize := by
  have hinv : c.Inv [] := ⟨hs, fun e q hq => by simp [Reported] at hq⟩
  cases op with
  | entityHasChanged entity pos =>
    obtain ⟨c', hc', hinv', -⟩ := inv_entityHasChanged hinv entity pos
    refine ⟨c', hc', hinv'.synced, ?_⟩
    obtain ⟨c'', hc'', hchange⟩ := entityHasChanged_ok hs entity pos
    cases hc'.symm.trans hc''
    rcases hchange with ⟨rfl, -⟩ | ⟨c₁, rfl, -⟩
    · exact hle
    · exact card_evict _
  | allEntitiesChanged pos =>
    have hreset : (c.allEntitiesChanged pos).Inv ([] ++ [.allEntitiesChanged pos]) :=
      inv_allEntitiesChanged c fun e r hr => by simp [Reported] at hr
    exact ⟨_, rfl, hreset.synced, by simp [allEntitiesChanged]⟩
  | setCacheFactor factor =>
    refine ⟨_, rfl, (inv_setCacheFactor hinv factor).synced, ?_⟩
    unfold setCacheFactor
    dsimp only
    split
    · exact card_evict _
    · exact hle

/-- **The cache stays within its size**, and no operation of a run raises: also where whole-stream changes come out of
order, the dicts agree, so that an entity is found where it is to be taken out. -/
theorem run_within_size (currentStreamPos : ℤ) (maxSize : ℕ) (ops : List ChangeOp) :
    ∃ c, (new currentStreamPos maxSize).run ops = .ok c ∧ c.Synced ∧ c.cache.keys.card ≤ c.maxSize :=
  foldlM_total (fun _ (c : StreamChangeCache) => c.Synced ∧ c.cache.keys.card ≤ c.maxSize)
    ⟨(inv_new currentStreamPos maxSize).synced, Nat.zero_le _⟩ fun _ op _ _ _ h => step_within_size h.1 h.2 op

/-! ## Exactness -/

/-- **Exactness of the stream change cache.**  After a run of reports of single entities, in any order, and resizes, the
dicts agree, an entity counts as changed exactly if the position is below the earliest one or the entity was reported
above it, and the set query says the same for each entity, unless the cache is empty: then it returns all of them. -/
theorem exact_of_reports (currentStreamPos : ℤ) (maxSize : ℕ) (ops : List ChangeOp) (hops : ∀ q, .allEntitiesChanged q ∉ ops) :
    ∃ c, (new currentStreamPos maxSize).run ops = .ok c ∧ c.Synced ∧
      (∀ e p, c.hasEntityChanged e p = true ↔
        p < c.earliestKnownStreamPos ∨ ∃ q, .entityHasChanged e q ∈ ops ∧ p < q) ∧
      ∀ entities p perfFactor, -1 ≤ p → c.getEntitiesChanged entities p perfFactor =
        if c.cache.keys.Nonempty then entities.filter (c.hasEntityChanged · p) else entities := by
  have hord : InOrder ops := fun before q after h => absurd (by simp [h]) (hops q)
  obtain ⟨c, hrun, hinv, hreported⟩ := run_inv currentStreamPos maxSize hord
  refine ⟨c, hrun, hinv.synced, fun e p => ⟨fun h => ?_, ?_⟩, fun entities p perfFactor hp => ?_⟩
  · exact (hasEntityChanged_iff.mp h).imp_right fun ⟨k, hk, hpk⟩ => ⟨k, hreported e k hk, hpk⟩
  · rintro (h | ⟨q, hq, hpq⟩)
    · exact hasEntityChanged_iff.mpr (.inl h)
    · by_contra hnot
      exact hpq.not_ge (hinv.sound e p q (.entity (by simpa using hnot)) (.inl hq))
  · ext e
    rw [mem_getEntitiesChanged hinv.synced (.inl hp)]
    split <;> simp [*]

/-- A change of another user at 100, in a cache that starts at -10: the two strategies differ about an unknown user since -5.
From an empty cache the set query returns every entity. -/
theorem strategies_differ : (∃ c, (new (-10) 10000).run [.entityHasChanged "@bob:hs" 100] = .ok c ∧
      c.hasEntityChanged "@alice:hs" (-5) = false ∧ c.getEntitiesChanged {"@alice:hs"} (-5) 1 = {"@alice:hs"}) ∧
    (new 0 10000).hasEntityChanged "@alice:hs" 5 = false ∧ (new 0 10000).getEntitiesChanged {"@alice:hs"} 5 1 = {"@alice:hs"} :=
  ⟨⟨_, rfl, by decide⟩, by decide⟩

/-- The second report evicts the first one, from a cache for one position. -/
theorem exact_after_report : ∃ c, (new 0 1).run [.entityHasChanged "@bob:hs" 100, .entityHasChanged "@carol:hs" 200] = .ok c ∧
    c.hasEntityChanged "@bob:hs" 99 = true ∧ c.hasEntityChanged "@bob:hs" 100 = false ∧
    c.getEntitiesChanged {"@bob:hs", "@carol:hs"} 100 1 = {"@carol:hs"} := by
  obtain ⟨c, hrun, -, hexact, hset⟩ := exact_of_reports 0 1
    [.entityHasChanged "@bob:hs" 100, .entityHasChanged "@carol:hs" 200] (by simp)
  have hearliest : c.earliestKnownStreamPos = 100 ∧ c.cache.keys.Nonempty := by
    cases hrun
    decide
  have hbob : c.hasEntityChanged "@bob:hs" 100 = false := by
    simp [Bool.eq_false_iff, hexact, hearliest.1]
  have hcarol : c.hasEntityChanged "@carol:hs" 100 = true := (hexact _ _).mpr (.inr ⟨200, by simp⟩)
  refine ⟨c, hrun, (hexact _ _).mpr (.inl (by omega)), hbob, ?_⟩
  rw [hset _ 100 1 (by decide), if_pos hearliest.2, filter_insert, filter_singleton, hbob, hcarol]
  rfl

end Synapse.Cache
