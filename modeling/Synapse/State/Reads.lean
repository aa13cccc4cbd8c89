import Mathlib.Data.List.TakeWhile
import Synapse.Lib.Rounds
import Synapse.Lib.Runs
import Synapse.State.Groups

/-!
# Synapse.State.Reads — reading a group gives what it was created with

* `sqliteState_eq`, `postgresState_eq`: both readers find them, but PostgreSQL has no answer for the empty filter.
* `step_inv`, `run_inv`: every operation keeps the invariant.
* `getStateForGroups`: a read, which asks no engine for the empty filter.
* `read_created`: after any run, for every surviving group and every filter.
-/

namespace Synapse.State

open Lib List Option Finmap

/-- The tables, and the state map that each group was created with. -/
structure World where
  tables : Tables
  created : ℕ → StateMap

/-- The tables stand for the created maps. -/
structure Inv (w : World) : Prop where
  represents : Delta.Represents w.tables.store w.tables.stateGroups w.created
  bounds : ∀ g ∈ w.tables.stateGroups, 0 < g ∧ g ≤ w.tables.lastGroup

/-- `_get_state_groups_from_groups`, which reads the groups in chunks. -/
def getStateGroupsFromGroups (t : Tables) (f : StateFilter) (engine : Engine) (groups : List ℕ) :
    Except Exc (List (ℕ × StateMap)) := do
  let chunks ← (batchIter 100 groups).mapM (getStateGroupsFromGroupsTxn t f engine)
  pure chunks.flatten

/-- `got_all` of `_get_state_for_group_using_cache`, where the cache holds nothing of the group. -/
def gotAll (f : StateFilter) : Bool := !f.isFull && !f.hasWildcards && f.concreteTypes.isEmpty

/-- `_get_state_for_groups`, where the two caches hold nothing of the groups. -/
def getStateForGroups (t : Tables) (f : StateFilter) (engine : Engine) (groups : List ℕ) :
    Except Exc (List (ℕ × StateMap)) :=
  if gotAll f.memberFilter && gotAll f.nonMemberFilter then pure (groups.map fun g => (g, ∅))
  else do
    let groupToStateDict ← getStateGroupsFromGroups t f.returnExpanded engine groups
    pure (groupToStateDict.map fun p => (p.1, f.filterState p.2))

section Readers

variable {w : World} {f : StateFilter} {g : ℕ}

theorem Inv.takeWhile_chain (h : Inv w) (hg : g ∈ w.tables.stateGroups) :
    (Delta.chain w.tables.store g).takeWhile (· ≠ 0) = Delta.chain w.tables.store g := by
  refine takeWhile_eq_self_iff.mpr fun x hx => ?_
  have := (h.bounds x ((Delta.chain_sortedGT h.represents g hg).2 x hx).2).1
  simpa using by omega

theorem stop_complete {results : StateMap} (hadm : ∀ k ∈ results, f.admits k = true)
    (hstop : f.maxEntriesReturned = some results.keys.card) (k : StateKey) (hk : f.admits k = true) : k ∈ results := by
  unfold StateFilter.maxEntriesReturned at hstop
  by_cases hw : f.hasWildcards = true
  · rw [if_pos hw] at hstop
    cases hstop
  rw [if_neg hw, some.injEq] at hstop
  have hw := Bool.eq_false_iff.mpr hw
  have hsub : results.keys ⊆ f.concreteTypes.toFinset := fun k hk =>
    List.mem_toFinset.mpr ((StateFilter.mem_concreteTypes hw).mpr (hadm k (Finmap.mem_keys.mp hk)))
  have hcard : f.concreteTypes.toFinset.card ≤ results.keys.card := by
    rw [toFinset_card_of_nodup StateFilter.nodup_concreteTypes, hstop]
  rw [← Finmap.mem_keys, Finset.eq_of_subset_of_card_le hsub hcard, List.mem_toFinset]
  exact (StateFilter.mem_concreteTypes hw).mpr hk

theorem holds_eq_admits (f : StateFilter) : f.makeSqlFilterClause.holds = f.admits :=
  funext fun _ => StateFilter.makeSqlFilterClause_holds

theorem sqliteState_eq (h : Inv w) (hg : g ∈ w.tables.stateGroups) (f : StateFilter) :
    sqliteState w.tables f g = f.filterState (w.created g) := by
  unfold sqliteState
  rw [h.takeWhile_chain hg, holds_eq_admits, Delta.walk_eq_collect f.admits ?_ ∅ (fun k hk => absurd hk notMem_empty),
    Delta.collect_chain h.represents f.admits g hg, StateFilter.filterState_eq]
  exact fun results hadm hstop k hk => stop_complete hadm (of_decide_eq_true hstop) k hk

theorem selectDistinct_eq (h : Inv w) (hg : g ∈ w.tables.stateGroups) (p : StateKey → Bool) :
    selectDistinct w.tables g p = restrict p (w.created g) := by
  unfold selectDistinct
  rw [Delta.insertionSort_chain h.represents hg]
  exact Delta.collect_chain h.represents p g hg

theorem foldl_update_restrict {ι : Type} (m : StateMap) (holds : ι → StateKey → Bool) (l : List ι) (p : StateKey → Bool) :
    l.foldl (fun results c => update results (restrict (holds c) m)) (restrict p m) =
      restrict (fun k => p k || l.any fun c => holds c k) m := by
  induction l generalizing p with
  | nil => simp
  | cons c l ih =>
    rw [foldl_cons, show update (restrict p m) (restrict (holds c) m) = restrict (fun k => p k || holds c k) m from ?_,
      ih]
    · simp [Bool.or_assoc]
    · refine ext_lookup fun k => ?_
      rw [lookup_update, lookup_restrict, lookup_restrict, lookup_restrict]
      rcases holds c k <;> rcases p k <;> rcases m.lookup k <;> rfl

theorem conds_isEmpty_iff (ho : f.includeOthers = false) : f.conds.isEmpty = true ↔ f.IsEmpty := by
  rw [List.isEmpty_iff]
  constructor
  · intro h
    refine ⟨ho, eq_nil_iff_forall_not_mem.mpr ?_⟩
    rintro ⟨t, keys⟩ hp
    have hne : keys ≠ some [] := StateFilter.ne_nil_of_mem_types ho hp
    have hnil := flatMap_eq_nil_iff.mp h _ hp
    rcases keys with _ | keys
    · cases hnil
    · exact hne (congrArg some (map_eq_nil_iff.mp hnil))
  · rintro ⟨-, h⟩
    simp [StateFilter.conds, h]

/-- **The query reads what the group was created with**, unless the filter is empty. -/
theorem postgresState_eq (h : Inv w) (hg : g ∈ w.tables.stateGroups) (f : StateFilter) :
    postgresState w.tables f g = if f.IsEmpty then throw .programmingError else .ok (f.filterState (w.created g)) := by
  unfold postgresState
  simp only
  by_cases hempty : f.IsEmpty
  · have hconds := (conds_isEmpty_iff hempty.1).mpr hempty
    have hfull : f.isFull = false := by simp [StateFilter.isFull, hempty.1]
    rw [if_pos hempty, if_pos ⟨by simp [hempty.1, hfull], by rw [List.isEmpty_iff.mp hconds]; decide⟩, if_pos hconds]
  rw [if_neg hempty]
  split
  · rename_i hopt
    have ho : f.includeOthers = false := by simpa using (Bool.and_eq_true_iff.mp hopt.1).1
    rw [if_neg (fun hc => hempty ((conds_isEmpty_iff ho).mp hc))]
    simp only [selectDistinct_eq h hg]
    have hfold := foldl_update_restrict (w.created g) StateFilter.Cond.holds f.conds fun _ => false
    rw [show restrict (fun _ => false) (w.created g) = ∅ from
      ext_lookup fun k => by rw [lookup_restrict]; rfl] at hfold
    rw [hfold, StateFilter.filterState_eq]
    refine congrArg Except.ok (congrArg (restrict · _) (funext fun k => ?_))
    rw [Bool.false_or, Bool.eq_iff_iff, StateFilter.any_conds, StateFilter.admits_iff]
    simp [ho]
  · rw [selectDistinct_eq h hg, holds_eq_admits, StateFilter.filterState_eq]
    rfl

theorem not_isEmpty_all : ¬ StateFilter.all.IsEmpty := by decide

theorem filterState_all (m : StateMap) : StateFilter.all.filterState m = m := by
  rw [StateFilter.filterState, if_pos (by decide)]

theorem filterState_of_isEmpty (hempty : f.IsEmpty) (m : StateMap) : f.filterState m = ∅ := by
  refine ext_lookup fun k => ?_
  rw [StateFilter.filterState_eq, lookup_restrict, StateFilter.admits, hempty.2, lookup_nil, hempty.1]
  rfl

theorem filterState_returnExpanded (f : StateFilter) (m : StateMap) :
    f.filterState (f.returnExpanded.filterState m) = f.filterState m := by
  refine ext_lookup fun k => ?_
  simp only [StateFilter.filterState_eq, lookup_restrict]
  by_cases hk : f.admits k = true
  · rw [if_pos ((StateFilter.returnExpanded_covers f).1 k hk)]
  · rw [if_neg hk, if_neg hk]

theorem gotAll_iff : gotAll f = true ↔ f.IsEmpty := by
  simp only [gotAll, Bool.and_eq_true, Bool.not_eq_true', List.isEmpty_iff]
  constructor
  · rintro ⟨⟨-, hwild⟩, hconcrete⟩
    have ho : f.includeOthers = false := (Bool.or_eq_false_iff.mp hwild).1
    refine ⟨ho, eq_nil_iff_forall_not_mem.mpr ?_⟩
    rintro ⟨t, keys⟩ hp
    have hnil := flatMap_eq_nil_iff.mp hconcrete _ hp
    cases keys with
    | none => exact any_eq_false.mp (Bool.or_eq_false_iff.mp hwild).2 _ hp (by simp)
    | some keys => exact StateFilter.ne_nil_of_mem_types ho hp (congrArg some (map_eq_nil_iff.mp hnil))
  · rintro ⟨ho, htypes⟩
    simp [StateFilter.isFull, StateFilter.hasWildcards, StateFilter.concreteTypes, ho, htypes]

theorem gotAll_split : (gotAll f.memberFilter && gotAll f.nonMemberFilter) = true ↔ f.IsEmpty := by
  rw [Bool.and_eq_true, gotAll_iff, gotAll_iff, StateFilter.isEmpty_split]

theorem stateForGroup_all (h : Inv w) (hg : g ∈ w.tables.stateGroups) (engine : Engine) :
    stateForGroup w.tables .all engine g = .ok (w.created g) := by
  rcases engine
  · show Except.ok (sqliteState w.tables .all g) = _
    rw [sqliteState_eq h hg, filterState_all]
  · show postgresState w.tables .all g = _
    rw [postgresState_eq h hg, if_neg not_isEmpty_all, filterState_all]

end Readers

/-! ## Operations -/

section Operations

variable {w : World} {id : ℕ}

section Fresh

variable (h : Inv w) (hid : w.tables.lastGroup < id)
include h hid

theorem Inv.fresh : id ∉ w.tables.stateGroups := fun hmem => by
  have := (h.bounds id hmem).2
  omega

theorem Inv.bounds_insert : ∀ g ∈ insert id w.tables.stateGroups, 0 < g ∧ g ≤ id := by
  intro g hg
  rcases Finset.mem_insert.mp hg with rfl | hg
  · omega
  · have := h.bounds g hg
    omega

theorem inv_addFull (m : StateMap) : Inv ⟨insertGroup w.tables id none m, Function.update w.created id m⟩ :=
  ⟨h.represents.addFull (h.fresh hid), h.bounds_insert hid⟩

theorem inv_addDelta {prev : ℕ} (hprev : prev ∈ w.tables.stateGroups) (delta : StateMap) :
    Inv ⟨insertGroup w.tables id (some prev) delta, Function.update w.created id (update (w.created prev) delta)⟩ :=
  ⟨h.represents.addDelta (h.fresh hid) hprev ((h.bounds prev hprev).2.trans_lt hid), h.bounds_insert hid⟩

end Fresh

theorem inv_deDelta (h : Inv w) {sg : ℕ} (hsg : sg ∈ w.tables.stateGroups) (engine : Engine) :
    ∃ t, deDelta engine w.tables sg = .ok t ∧ Inv ⟨t, w.created⟩ ∧ t.stateGroups = w.tables.stateGroups ∧
      t.stateGroupEdges = Function.update w.tables.stateGroupEdges sg none := by
  unfold deDelta
  rw [stateForGroup_all h hsg]
  exact ⟨_, rfl, ⟨h.represents.flatten sg, h.bounds⟩, rfl, rfl⟩

theorem inv_foldlM_deDelta (h : Inv w) (engine : Engine) (order : List ℕ) (horder : ∀ sg ∈ order, sg ∈ w.tables.stateGroups) :
    ∃ t, order.foldlM (deDelta engine) w.tables = .ok t ∧ Inv ⟨t, w.created⟩ ∧
      t.stateGroups = w.tables.stateGroups ∧
      ∀ sg, t.stateGroupEdges sg = if sg ∈ order then none else w.tables.stateGroupEdges sg := by
  induction order generalizing w with
  | nil => exact ⟨w.tables, rfl, h, rfl, by simp⟩
  | cons sg order ih =>
    obtain ⟨t₁, ht₁, hinv₁, hgroups₁, hedges₁⟩ := inv_deDelta h (horder sg mem_cons_self) engine
    obtain ⟨t, ht, hinv, hgroups, hedges⟩ := ih hinv₁ fun sg' hsg' => by
      rw [hgroups₁]
      exact horder sg' (mem_cons_of_mem sg hsg')
    refine ⟨t, ?_, hinv, hgroups.trans hgroups₁, fun sg' => ?_⟩
    · rw [foldlM_cons, ht₁]
      exact ht
    rw [hedges, hedges₁]
    by_cases hsg : sg' = sg
    · subst hsg
      simp
    · simp [hsg]

theorem inv_purge (h : Inv w) (engine : Engine) {toDelete : Finset ℕ} {order : List ℕ}
    (horder : order.toFinset = remainingStateGroups w.tables toDelete) :
    ∃ t, purgeUnreferencedStateGroups w.tables engine toDelete order = .ok t ∧ Inv ⟨t, w.created⟩ ∧
      t.stateGroups = w.tables.stateGroups \ toDelete := by
  have hmem : ∀ sg, sg ∈ order ↔ sg ∈ remainingStateGroups w.tables toDelete := fun sg => by
    rw [← horder, List.mem_toFinset]
  obtain ⟨t, ht, hinv, hgroups, hedges⟩ := inv_foldlM_deDelta h engine order fun sg hsg =>
    (Finset.mem_filter.mp ((hmem sg).mp hsg)).1
  refine ⟨deleteGroups t toDelete, by rw [purgeUnreferencedStateGroups, ht]; rfl, ⟨?_, ?_⟩, by rw [deleteGroups, hgroups]⟩
  · refine hinv.represents.keep Finset.sdiff_subset (fun sg hsg prev hprev => ?_) fun sg hsg => ?_
    · obtain ⟨hsg, hnot⟩ := Finset.mem_sdiff.mp hsg
      refine Finset.mem_sdiff.mpr ⟨(hinv.represents.delta sg hsg prev hprev).1, fun hdel => ?_⟩
      -- a group on a deleted one was de-delta'd, and has no edge
      have hedge : w.tables.stateGroupEdges sg = some prev ∧ sg ∉ order := by
        have := hedges sg
        rw [show t.stateGroupEdges sg = some prev from hprev] at this
        split at this
        · cases this
        · rename_i hno
          exact ⟨this.symm, hno⟩
      refine hedge.2 ((hmem sg).mpr (Finset.mem_filter.mpr ⟨hgroups ▸ hsg, hnot, ?_⟩))
      rw [hedge.1]
      simpa using hdel
    · have hnot := (Finset.mem_sdiff.mp hsg).2
      exact ⟨if_neg hnot, if_neg hnot⟩
  · exact fun sg hsg => hinv.bounds sg (Finset.mem_sdiff.mp hsg).1

/-- The map that the group of an event of a batch is created with. -/
def createdContext (created : ℕ → StateMap) (context : BatchContext) : ℕ → StateMap :=
  match context.stateDeltaDueToEvent with
  | none => created
  | some delta => Function.update created context.stateGroupAfterEvent
      (update (created context.stateGroupBeforeEvent) (Finmap.singleton delta.1 delta.2))

theorem inv_batch (h : Inv w) (events : List (Option (StateKey × String))) (ids : List ℕ) {prev : ℕ}
    (hprev : prev ∈ w.tables.stateGroups) (hids : (w.tables.lastGroup :: ids).Pairwise (· < ·)) :
    Inv ⟨(batchContexts prev events ids).foldl insertContext w.tables,
      (batchContexts prev events ids).foldl createdContext w.created⟩ := by
  induction events generalizing w prev ids with
  | nil => exact h
  | cons event events ih =>
    rcases event with _ | delta
    · exact ih h ids hprev hids
    rcases ids with _ | ⟨id, ids⟩
    · exact h
    · obtain ⟨hhead, htail⟩ := pairwise_cons.mp hids
      have hid := hhead id mem_cons_self
      exact ih (inv_addDelta h hid hprev (singleton delta.1 delta.2)) ids (Finset.mem_insert_self _ _) htail

end Operations

/-! ## Runs -/

/-- The operations.  Numbers of new groups come from the sequence. -/
inductive Action where
  | storeStateGroup (stateGroup : ℕ) (prevGroup : Option ℕ) (deltaIds currentStateIds : Option StateMap)
  | storeStateDeltasForBatched (stateGroups : List ℕ) (prevGroup : ℕ) (events : List (Option (StateKey × String)))
  | purgeUnreferencedStateGroups (toDelete : Finset ℕ) (order : List ℕ)

namespace World

/-- The map that a new group is created with. -/
def createdWith (w : World) : Option ℕ → Option StateMap → Option StateMap → StateMap
  | none, _, current => current.getD ∅
  | some prev, delta, _ => update (w.created prev) (delta.getD ∅)

/-- The caller gives the state as well as the delta only if they agree. -/
def Agrees (w : World) : Option ℕ → Option StateMap → Option StateMap → Prop
  | some prev, some delta, some current => current = update (w.created prev) delta
  | _, _, _ => True

instance (w : World) (prev : Option ℕ) (delta current : Option StateMap) : Decidable (w.Agrees prev delta current) := by
  unfold Agrees
  split <;> infer_instance

/-- The tables after an operation; one that raises changes nothing. -/
def commit (w : World) (created : ℕ → StateMap) : Except Exc Tables → World
  | .ok t => ⟨t, created⟩
  | .error _ => w

/-- One operation, if its arguments are in order. -/
def step (engine : Engine) (w : World) : Action → Option World
  | .storeStateGroup stateGroup prevGroup deltaIds currentStateIds =>
    if w.tables.lastGroup < stateGroup ∧ w.Agrees prevGroup deltaIds currentStateIds then
      some (w.commit (Function.update w.created stateGroup (w.createdWith prevGroup deltaIds currentStateIds))
        (storeStateGroup w.tables engine stateGroup prevGroup deltaIds currentStateIds))
    else none
  | .storeStateDeltasForBatched stateGroups prevGroup events =>
    if (w.tables.lastGroup :: stateGroups).Pairwise (· < ·) ∧ stateGroups.length = (events.filter Option.isSome).length then
      some (w.commit ((batchContexts prevGroup events stateGroups).foldl createdContext w.created)
        (do pure (← storeStateDeltasForBatched w.tables stateGroups prevGroup events).1))
    else none
  | .purgeUnreferencedStateGroups toDelete order =>
    if order.toFinset = remainingStateGroups w.tables toDelete then
      some (w.commit w.created (purgeUnreferencedStateGroups w.tables engine toDelete order))
    else none

def run (engine : Engine) (w : World) : List Action → Option World := List.foldlM (step engine) w

def empty : World := ⟨.empty, fun _ => ∅⟩

end World

section Runs

variable {w w' : World} {engine : Engine}

theorem inv_empty : Inv World.empty :=
  ⟨⟨fun _ hg => absurd hg (Finset.notMem_empty _), fun _ hg => absurd hg (Finset.notMem_empty _)⟩,
    fun _ hg => absurd hg (Finset.notMem_empty _)⟩

theorem inv_storeStateGroup (h : Inv w) {id : ℕ} (hid : w.tables.lastGroup < id) (prev : Option ℕ)
    (delta current : Option StateMap) (hagree : w.Agrees prev delta current) :
    Inv (w.commit (Function.update w.created id (w.createdWith prev delta current))
      (storeStateGroup w.tables engine id prev delta current)) := by
  rcases prev with _ | prev
  · rcases current with _ | current
    · exact h
    · exact inv_addFull h hid current
  rcases delta with _ | delta
  · exact h
  have hstore : storeStateGroup w.tables engine id (some prev) (some delta) current =
      insertDeltaGroupTxn w.tables engine id prev delta >>= deltaOrFullState w.tables engine id prev delta current := rfl
  rw [hstore, insertDeltaGroupTxn]
  by_cases hprev : prev ∈ w.tables.stateGroups
  · rw [if_neg (not_not.mpr hprev)]
    by_cases hhops : maxStateDeltaHops ≤ countStateGroupHopsTxn w.tables engine prev
    · -- too many hops: the state is stored in full
      have hstate : currentState w.tables engine prev delta current = .ok (update (w.created prev) delta) := by
        rcases current with _ | current
        · rw [currentState, stateForGroup_all h hprev]
          rfl
        · rw [show current = update (w.created prev) delta from hagree]
          rfl
      have hfull : deltaOrFullState w.tables engine id prev delta current none =
          .ok (insertGroup w.tables id none (update (w.created prev) delta)) := by
        rw [deltaOrFullState, hstate]
        rfl
      rw [if_pos hhops, show (pure none : Except Exc (Option Tables)) >>= deltaOrFullState w.tables engine id prev delta
        current = _ from hfull]
      exact inv_addFull h hid _
    · rw [if_neg hhops]
      exact inv_addDelta h hid hprev delta
  · rw [if_pos hprev]
    exact h

theorem step_inv (h : Inv w) {a : Action} (hstep : w.step engine a = some w') : Inv w' := by
  rcases a with ⟨id, prev, delta, current⟩ | ⟨ids, prev, events⟩ | ⟨toDelete, order⟩ <;>
    simp only [World.step, ite_none_right_eq_some, some.injEq] at hstep <;> obtain ⟨hguard, rfl⟩ := hstep
  · exact inv_storeStateGroup h hguard.1 prev delta current hguard.2
  · unfold storeStateDeltasForBatched
    by_cases hprev : prev ∈ w.tables.stateGroups
    · rw [if_neg (not_not.mpr hprev)]
      exact inv_batch h events ids hprev hguard.1
    · rw [if_pos hprev]
      exact h
  · obtain ⟨t, ht, hinv, -⟩ := inv_purge h engine hguard
    rw [ht]
    exact hinv

theorem run_inv (h : Inv w) {acts : List Action} (hrun : w.run engine acts = some w') : Inv w' :=
  run_preserves (fun hw hstep => step_inv hw hstep) h hrun

theorem mapM_eq_ok {α β : Type} {f : α → Except Exc β} {g : α → β} {l : List α} (h : ∀ a ∈ l, f a = .ok (g a)) :
    l.mapM f = .ok (l.map g) := by
  induction l with
  | nil => rfl
  | cons a l ih =>
    rw [mapM_cons, h a mem_cons_self, ih fun a' ha' => h a' (mem_cons_of_mem a ha')]
    rfl

variable {t : Tables} {f : StateFilter} {groups : List ℕ} {state : ℕ → StateMap}

theorem getStateGroups_eq (h : ∀ g ∈ groups, stateForGroup t f engine g = .ok (state g)) :
    getStateGroupsFromGroupsTxn t f engine groups = .ok (groups.map fun g => (g, state g)) :=
  mapM_eq_ok fun g hg => by
    rw [h g hg]
    rfl

theorem getStateGroupsFromGroups_eq (h : ∀ g ∈ groups, stateForGroup t f engine g = .ok (state g)) :
    getStateGroupsFromGroups t f engine groups = .ok (groups.map fun g => (g, state g)) := by
  have hchunks := mapM_eq_ok (f := getStateGroupsFromGroupsTxn t f engine) fun chunk hchunk =>
    getStateGroups_eq fun g hg => h g ((exists_mem_batchIter (by decide : 0 < 100)).mp ⟨chunk, hchunk, hg⟩)
  rw [getStateGroupsFromGroups, hchunks]
  show Except.ok _ = _
  rw [← map_flatten, flatten_batchIter (by decide)]

theorem getStateGroups_error {g : ℕ} {e : Exc}
    (h : stateForGroup t f engine g = .error e) : getStateGroupsFromGroupsTxn t f engine (g :: groups) = .error e := by
  unfold getStateGroupsFromGroupsTxn
  rw [mapM_cons, h]
  rfl

/-- **Reading gives what the groups were created with.** After any run, on either engine, both engines read from
surviving groups exactly the state maps they were created with, filtered.  The transaction itself fails on PostgreSQL for
the empty filter, for which it is not called. -/
theorem read_created (engine : Engine) (acts : List Action) (w : World) (hrun : World.empty.run engine acts = some w)
    (g : ℕ) (groups : List ℕ) (hgroups : ∀ g' ∈ g :: groups, g' ∈ w.tables.stateGroups) (f : StateFilter) :
    (∀ reader, getStateForGroups w.tables f reader (g :: groups) =
        .ok ((g :: groups).map fun g => (g, f.filterState (w.created g)))) ∧
      getStateGroupsFromGroupsTxn w.tables f .sqlite (g :: groups) =
        .ok ((g :: groups).map fun g => (g, f.filterState (w.created g))) ∧
      (getStateGroupsFromGroupsTxn w.tables f .postgres (g :: groups) =
          .ok ((g :: groups).map fun g => (g, f.filterState (w.created g))) ↔ ¬ f.IsEmpty) := by
  have hinv := run_inv inv_empty hrun
  have hread : ∀ reader f, ¬ f.IsEmpty → ∀ g' ∈ g :: groups,
      stateForGroup w.tables f reader g' = .ok (f.filterState (w.created g')) := by
    intro reader f hne g' hg'
    cases reader with
    | sqlite => exact congrArg Except.ok (sqliteState_eq hinv (hgroups g' hg') f)
    | postgres =>
      show postgresState w.tables f g' = _
      rw [postgresState_eq hinv (hgroups g' hg'), if_neg hne]
  refine ⟨fun reader => ?_, getStateGroups_eq fun g' hg' => congrArg Except.ok (sqliteState_eq hinv (hgroups g' hg') f),
    fun h hempty => ?_, fun hne => getStateGroups_eq (hread .postgres f hne)⟩
  · unfold getStateForGroups
    by_cases hempty : f.IsEmpty
    · rw [if_pos (gotAll_split.mpr hempty)]
      refine congrArg Except.ok (map_congr_left fun g' _ => ?_)
      rw [filterState_of_isEmpty hempty]
    · rw [if_neg (mt gotAll_split.mp hempty),
        getStateGroupsFromGroups_eq (hread reader _ (mt StateFilter.isEmpty_returnExpanded hempty))]
      show Except.ok _ = _
      rw [List.map_map]
      exact congrArg Except.ok (map_congr_left fun g' _ => congrArg (g', ·) (filterState_returnExpanded f _))
  · have herr : stateForGroup w.tables f .postgres g = .error .programmingError := by
      show postgresState w.tables f g = _
      rw [postgresState_eq hinv (hgroups g mem_cons_self), if_pos hempty]
      rfl
    rw [getStateGroups_error herr] at h
    cases h

end Runs

namespace Purged

/-- A full group, a delta on it and a batch on the delta; then the first two groups are purged. -/
def acts : List Action :=
  [.storeStateGroup 1 none none
      (some ((Finmap.singleton ("m.room.create", "") "$create").insert ("m.room.topic", "") "$topic1")),
    .storeStateGroup 2 (some 1) (some (Finmap.singleton ("m.room.topic", "") "$topic2")) none,
    .storeStateDeltasForBatched [3, 4] 2 [some (("m.room.name", ""), "$name"), none, some (("m.room.topic", ""), "$topic3")],
    .purgeUnreferencedStateGroups {1, 2} [3]]

/-- What both engines answer about the last group, for all state and for none. -/
theorem read_created_purged : ∃ w, World.empty.run .postgres acts = some w ∧ ∀ reader,
    getStateForGroups w.tables .all reader [4] = .ok [(4, w.created 4)] ∧
      getStateForGroups w.tables .none reader [4] = .ok [(4, ∅)] := by
  have h : (World.empty.run .postgres acts).map (fun w => decide (4 ∈ w.tables.stateGroups)) = some true := by
    decide +kernel
  obtain ⟨w, hw, h⟩ := map_eq_some_iff.mp h
  have hg : ∀ g ∈ [4], g ∈ w.tables.stateGroups := by simpa using h
  have hall := (read_created .postgres acts w hw 4 [] hg .all).1
  have hnone := (read_created .postgres acts w hw 4 [] hg .none).1
  simp only [filterState_all] at hall
  simp only [filterState_of_isEmpty (show StateFilter.none.IsEmpty by decide)] at hnone
  exact ⟨w, hw, fun reader => ⟨hall reader, hnone reader⟩⟩

end Purged

end Synapse.State
