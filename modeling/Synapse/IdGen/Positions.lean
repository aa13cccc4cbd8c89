import Synapse.IdGen.Generator
import Synapse.Lib.Dict

/-!
# Synapse.IdGen.Positions — the positions are watermarks

What one instance's bookkeeping guarantees, against the ledger of the ids that all instances hold.

* `Sound`: every position kept for an instance is a watermark of that instance; the persisted position is one of the
  instance itself, and of all instances when the writers are configured.
* `addPersistedPosition_sound`, `moveTo_sound`, `advance_sound`: the updates keep it.
* `start_sound`: it holds at the start.
-/

namespace Synapse.IdGen

open Lib List Option Finmap Generator Finset

/-- The instance may take ids from the stream. -/
def Config.MayWrite (cfg : Config) (name : String) : Prop := cfg.writers = [] ∨ name ∈ cfg.writers

instance (cfg : Config) (name : String) : Decidable (cfg.MayWrite name) := inferInstanceAs (Decidable (_ ∨ _))

/-- The numbers that the instance's persisted position can be. -/
structure Persisted (cfg : Config) (L : Ledger String) (name : String) (p : ℤ) : Prop where
  settled : L.Settled p
  own : L.ClearOf name p
  all : cfg.writers ≠ [] → L.Clear p

/-- The numbers that can be reported as a position of the instance. -/
structure Reported (L : Ledger String) (name : String) (p : ℤ) : Prop where
  settled : L.Settled p
  own : L.ClearOf name p

/-- The state of an instance agrees with the ledger. -/
structure Sound (cfg : Config) (L : Ledger String) (name : String) (g : Generator) : Prop where
  positions : ∀ j p, g.currentPositions.lookup j = some p → Reported L j p
  seen_le : g.maxSeenAllocatedStreamId ≤ L.last
  seen : ∀ j, j ≠ name → g.maxSeenAllocatedStreamId ∉ L.held j
  localMax : Reported L name g.maxPositionOfLocalInstance
  localMax_pos : 1 ≤ g.maxPositionOfLocalInstance
  persisted : Persisted cfg L name g.persistedUptoPosition
  one_le : 1 ≤ g.persistedUptoPosition
  known : ∀ n ∈ g.knownPersistedPositions, L.Settled n
  finished : ∀ n ∈ g.finishedIds, L.Settled n

/-- The instance has a position for each configured writer, and one of its own to start from. -/
structure Named (cfg : Config) (name : String) (g : Generator) : Prop where
  writers : ∀ w ∈ cfg.writers, w ∈ g.currentPositions
  own : cfg.MayWrite name → ∃ p, g.currentPositions.lookup name = some p ∧ 1 ≤ p

/-- The instance knows of every id it holds, or of a fetch that started below it; other instances that hold ids have
a position. -/
structure Covers (cfg : Config) (L : Ledger String) (name : String) (g : Generator) : Prop where
  held : ∀ n ∈ L.held name, n ∈ g.unfinishedIds ∨ ∃ f ∈ g.inFlightFetches, f < n
  own : g.Busy → ∃ p, g.currentPositions.lookup name = some p ∧ 1 ≤ p
  others : cfg.writers ≠ [] → ∀ j, j ∉ g.currentPositions → L.held j = ∅

variable {name : String}

theorem Covers.idle {cfg : Config} {L : Ledger String} {g : Generator} (h : Covers cfg L name g)
    (hbusy : ¬ g.Busy) : L.held name = ∅ := by
  unfold Generator.Busy at hbusy
  rw [not_or, not_not, not_not] at hbusy
  refine Set.eq_empty_of_forall_notMem fun n hn => ?_
  rcases h.held n hn with hn | ⟨f, hf, -⟩
  · simp [hbusy.1] at hn
  · simp [hbusy.2] at hf

section Mono

variable {cfg : Config} {L L' : Ledger String} {self : String} {p q : ℤ}

theorem Persisted.mono (h : Persisted cfg L self p) (hL : L.Grows L') : Persisted cfg L' self p :=
  ⟨h.settled.mono hL, h.own.mono hL, fun hw j => (h.all hw j).mono hL⟩

theorem Reported.mono (h : Reported L self p) (hL : L.Grows L') : Reported L' self p :=
  ⟨h.settled.mono hL, h.own.mono hL⟩

theorem Reported.max (hp : Reported L self p) (hq : Reported L self q) : Reported L self (max p q) :=
  ⟨hp.settled.max hq.settled, hp.own.max hq.own⟩

theorem Persisted.reported (h : Persisted cfg L self p) : Reported L self p := ⟨h.settled, h.own⟩

theorem Persisted.succ (h : Persisted cfg L self p) (hs : L.Settled (p + 1)) : Persisted cfg L self (p + 1) :=
  ⟨hs, h.own.succ hs, fun hw j => (h.all hw j).succ hs⟩

theorem Sound.mono {g : Generator} (h : Sound cfg L self g) (hL : L.Grows L') : Sound cfg L' self g where
  __ := h
  positions j p hp := (h.positions j p hp).mono hL
  seen_le := h.seen_le.trans hL.last
  seen j hj hn := by
    rcases hL.held j _ hn with hn | hn
    · exact h.seen j hj hn
    · have := h.seen_le
      omega
  localMax := h.localMax.mono hL
  persisted := h.persisted.mono hL
  known n hn := (h.known n hn).mono hL
  finished n hn := (h.finished n hn).mono hL

end Mono

section Writers

variable {cfg : Config} {L : Ledger String} {self : String} {g : Generator}

/-! ## `_add_persisted_position` -/

theorem minCurr_le_other {j : String} {p : ℤ} (hj : j ≠ self) (h : g.currentPositions.lookup j = some p) :
    g.minCurr self ≤ p := by
  have hmem : p ∈ g.otherPositions self := by
    refine mem_image.mpr ⟨j, mem_erase.mpr ⟨hj, ?_⟩, by rw [h]; rfl⟩
    exact Finmap.mem_keys.mpr (mem_iff.mpr ⟨p, h⟩)
  have hleast : (least (g.otherPositions self)).getD (g.ourCurrentPosition self) ≤ p := by
    rcases hm : least (g.otherPositions self) with _ | m
    · rw [least_eq_none.mp hm] at hmem
      simp at hmem
    · exact least_le hm hmem
  unfold minCurr
  split
  · exact (min_le_left _ _).trans hleast
  · exact hleast

theorem minCurr_le_own {p : ℤ} (hbusy : g.Busy) (h : g.currentPositions.lookup self = some p) (hp : p ≠ 0) :
    g.minCurr self ≤ p := by
  have hours : g.ourCurrentPosition self = p := by simp [ourCurrentPosition, h]
  unfold minCurr
  rw [hours, if_pos ⟨hp, hbusy⟩]
  exact min_le_right _ _

theorem minCurr_cases : (∃ j, g.currentPositions.lookup j = some (g.minCurr self)) ∨ g.minCurr self = 0 := by
  have hours : (∃ j, g.currentPositions.lookup j = some (g.ourCurrentPosition self)) ∨ g.ourCurrentPosition self = 0 := by
    rcases h : g.currentPositions.lookup self with _ | p
    · simp [ourCurrentPosition, h]
    · left
      exact ⟨self, by simp [ourCurrentPosition, h]⟩
  have hothers : (∃ j, g.currentPositions.lookup j =
      some ((least (g.otherPositions self)).getD (g.ourCurrentPosition self))) ∨
        (least (g.otherPositions self)).getD (g.ourCurrentPosition self) = 0 := by
    rcases hm : least (g.otherPositions self) with _ | m
    · exact hours
    obtain ⟨j, hj, hjm⟩ := mem_image.mp (least_mem hm)
    obtain ⟨p, hp⟩ := mem_iff.mp (Finmap.mem_keys.mp (mem_of_mem_erase hj))
    left
    refine ⟨j, ?_⟩
    rw [hp] at hjm ⊢
    exact congrArg some hjm
  unfold minCurr
  split
  · rcases min_choice ((least (g.otherPositions self)).getD (g.ourCurrentPosition self)) (g.ourCurrentPosition self)
      with h | h <;> rw [h]
    · exact hothers
    · exact hours
  · exact hothers

theorem skipRun_inv {P Q : ℤ → Prop} (hsucc : ∀ p, P p → Q (p + 1) → P (p + 1)) (known : List ℤ) (p : ℤ) (hp : P p)
    (hk : ∀ n ∈ known, Q n) :
    (P (skipRun p known).1 ∧ p ≤ (skipRun p known).1) ∧ ∀ n ∈ (skipRun p known).2, Q n := by
  fun_induction skipRun p known with
  | case1 p => exact ⟨⟨hp, le_rfl⟩, hk⟩
  | case2 p n known hle ih => exact ih hp fun m hm => hk m (mem_cons_of_mem n hm)
  | case3 p known hle ih =>
    obtain ⟨hn, hrest⟩ := forall_mem_cons.mp hk
    obtain ⟨⟨hP, hge⟩, hQ⟩ := ih (hsucc p hp hn) hrest
    exact ⟨⟨hP, by omega⟩, hQ⟩
  | case4 p n known hle hne => exact ⟨⟨hp, le_rfl⟩, hk⟩

theorem persisted_max_minCurr (h : Sound cfg L self g) (hc : Covers cfg L self g) :
    Persisted cfg L self (max (g.minCurr self) g.persistedUptoPosition) := by
  rcases le_total (g.minCurr self) g.persistedUptoPosition with hle | hle
  · rw [max_eq_right hle]
    exact h.persisted
  rw [max_eq_left hle]
  have hsettled : L.Settled (g.minCurr self) := by
    rcases @minCurr_cases self g with ⟨j, hj⟩ | h0
    · exact (h.positions j _ hj).settled
    · have := h.one_le
      omega
  have hown : L.ClearOf self (g.minCurr self) := by
    by_cases hbusy : g.Busy
    · obtain ⟨p, hp, hp0⟩ := hc.own hbusy
      exact (h.positions self p hp).own.le (minCurr_le_own hbusy hp (by omega))
    · exact Ledger.clearOf_of_empty (hc.idle hbusy) hsettled.1
  refine ⟨hsettled, hown, fun hw j => ?_⟩
  by_cases hj : j = self
  · exact hj ▸ hown
  by_cases hmem : j ∈ g.currentPositions
  · obtain ⟨p, hp⟩ := mem_iff.mp hmem
    exact (h.positions j p hp).own.le (minCurr_le_other hj hp)
  · exact Ledger.clearOf_of_empty (hc.others hw j hmem) hsettled.1

theorem addPersistedPosition_sound (h : Sound cfg L self g) (hc : Covers cfg L self g) {newId : ℤ}
    (hnew : L.Settled newId) : Sound cfg L self (g.addPersistedPosition self newId) := by
  have hstart := persisted_max_minCurr h hc
  have hknown : ∀ n ∈ g.knownPersistedPositions.orderedInsert (· ≤ ·) newId, L.Settled n := by
    intro n hn
    rcases mem_orderedInsert _ |>.mp hn with rfl | hn
    · exact hnew
    · exact h.known n hn
  obtain ⟨⟨hP, hge⟩, hQ⟩ := skipRun_inv
    (fun p hp hs => hp.succ hs) _ _ hstart hknown
  have hlocal := h.localMax.max hstart.reported
  have hpos : 1 ≤ (g.addPersistedPosition self newId).maxPositionOfLocalInstance := by
    have := h.localMax_pos
    show 1 ≤ if g.Busy then _ else _
    split <;> simp [this]
  refine ⟨h.positions, h.seen_le, h.seen, ?_, hpos, hP, ?_, hQ, h.finished⟩
  · show Reported L self (if g.Busy then _ else _)
    split_ifs with hbusy
    · exact hlocal
    -- with nothing in flight, the highest id seen is settled
    have hempty := hc.idle hbusy
    refine Reported.max ⟨⟨h.seen_le, fun j hn => ?_⟩, Ledger.clearOf_of_empty hempty h.seen_le⟩ hlocal
    by_cases hj : j = self
    · rw [hj, hempty] at hn
      exact hn
    · exact h.seen j hj hn
  · have := h.one_le
    exact (this.trans (le_max_right _ _)).trans hge

theorem addPersistedPosition_covers (hc : Covers cfg L self g) (newId : ℤ) :
    Covers cfg L self (g.addPersistedPosition self newId) := { hc with }

theorem foldl_addPersistedPosition_sound (h : Sound cfg L self g) (hc : Covers cfg L self g) (ids : List ℤ)
    (hids : ∀ n ∈ ids, L.Settled n) : Sound cfg L self (ids.foldl (fun g n => g.addPersistedPosition self n) g) := by
  induction ids generalizing g with
  | nil => exact h
  | cons n ids ih =>
    exact ih (addPersistedPosition_sound h hc (hids n mem_cons_self)) (addPersistedPosition_covers hc n)
      fun m hm => hids m (mem_cons_of_mem n hm)

theorem foldl_addPersistedPosition_eq (self : String) (g : Generator) (ids : List ℤ) :
    let g' := ids.foldl (fun g n => g.addPersistedPosition self n) g
    g'.currentPositions = g.currentPositions ∧ g'.unfinishedIds = g.unfinishedIds ∧
      g'.inFlightFetches = g.inFlightFetches ∧ g'.finishedIds = g.finishedIds ∧
      g'.maxSeenAllocatedStreamId = g.maxSeenAllocatedStreamId := by
  induction ids generalizing g with
  | nil => exact ⟨rfl, rfl, rfl, rfl, rfl⟩
  | cons n ids ih => exact ih (g.addPersistedPosition self n)

/-! ## `_mark_ids_as_finished` -/

/-- Nothing is in work, or the smallest id that may be unfinished is one, or it is next to a fetch. -/
theorem minUnfinished_cases (g : Generator) : g.minUnfinished = none ∧ ¬ g.Busy ∨ ∃ m, g.minUnfinished = some m ∧
    (m ∈ g.unfinishedIds ∨ ∃ f ∈ g.inFlightFetches, m = f + 1) ∧
    (∀ u ∈ g.unfinishedIds, m ≤ u) ∧ ∀ f ∈ g.inFlightFetches, m ≤ f + 1 := by
  have hflight : ∀ {f}, least g.inFlightFetches.toFinset = some f → f ∈ g.inFlightFetches ∧ ∀ f' ∈ g.inFlightFetches, f ≤ f' :=
    fun hf => ⟨Multiset.mem_toFinset.mp (least_mem hf), fun f' hf' => least_le hf (Multiset.mem_toFinset.mpr hf')⟩
  unfold minUnfinished Busy
  rcases hu : least g.unfinishedIds with _ | u <;> rcases hf : least g.inFlightFetches.toFinset with _ | f
  · rw [least_eq_none, Multiset.toFinset_eq_empty] at hf
    exact .inl ⟨rfl, not_or.mpr ⟨not_not.mpr (least_eq_none.mp hu), not_not.mpr hf⟩⟩
  · obtain ⟨hmem, hle⟩ := hflight hf
    refine .inr ⟨_, rfl, .inr ⟨f, hmem, rfl⟩, fun u hu' => ?_, fun f' hf' => by have := hle f' hf'; omega⟩
    rw [least_eq_none.mp hu] at hu'
    exact absurd hu' (notMem_empty _)
  · rw [least_eq_none, Multiset.toFinset_eq_empty] at hf
    rw [hf]
    exact .inr ⟨u, rfl, .inl (least_mem hu), fun _ hu' => least_le hu hu', fun _ hf' => absurd hf' (Multiset.notMem_zero _)⟩
  · obtain ⟨hmem, hle⟩ := hflight hf
    refine .inr ⟨_, rfl, ?_, fun u' hu' => min_le_of_left_le (least_le hu hu'), fun f' hf' => ?_⟩
    · rcases min_choice u (f + 1) with hmin | hmin <;> rw [hmin]
      · exact .inl (least_mem hu)
      · exact .inr ⟨f, hmem, rfl⟩
    · have := hle f' hf'
      omega

theorem reported_of_newCur (hfin : ∀ n ∈ g.finishedIds, L.Settled n) (hc : Covers cfg L self g) {new : Option ℤ}
    {finished : Finset ℤ} (h : g.newCur = .ok (new, finished)) :
    finished ⊆ g.finishedIds ∧ ∀ c, new = some c → Reported L self c := by
  unfold newCur at h
  rcases minUnfinished_cases g with ⟨hm, hidle⟩ | ⟨m, hm, -, hu, hf⟩
  · rw [hm] at h
    rcases hg : greatest g.finishedIds with _ | c
    · rw [hg] at h
      cases h
    rw [hg] at h
    cases h
    refine ⟨empty_subset _, fun c' hc' => ?_⟩
    cases hc'
    have hs := hfin c (greatest_mem hg)
    exact ⟨hs, Ledger.clearOf_of_empty (hc.idle hidle) hs.1⟩
  · rw [hm] at h
    cases h
    refine ⟨filter_subset _ _, fun c hcur => ?_⟩
    obtain ⟨hmem, hlt⟩ := mem_filter.mp (greatest_mem hcur)
    refine ⟨hfin c hmem, (hfin c hmem).1, fun n hn => ?_⟩
    rcases hc.held n hn with hn | ⟨f, hmemf, hfn⟩
    · exact hlt.trans_le (hu n hn)
    · have := hf f hmemf
      omega

theorem moveTo_sound (h : Sound cfg L self g) {q : ℤ} (hq : g.currentPositions.lookup self = some q) {new : Option ℤ}
    (hnew : ∀ c, new = some c → Reported L self c) : Sound cfg L self (g.moveTo self new) := by
  rcases new with _ | c
  · exact h
  unfold moveTo
  simp only
  split_ifs with h0
  · exact h
  rw [show g.ourCurrentPosition self = q by simp [ourCurrentPosition, hq]]
  have hmax := (h.positions self q hq).max (hnew c rfl)
  exact { h with
    positions := insert_all h.positions hmax
    localMax := hmax.max h.localMax
    localMax_pos := h.localMax_pos.trans (le_max_right _ _) }

theorem moveTo_inWork (self : String) (g : Generator) (new : Option ℤ) : let g' := g.moveTo self new
    g'.unfinishedIds = g.unfinishedIds ∧ g'.inFlightFetches = g.inFlightFetches ∧ g'.finishedIds = g.finishedIds ∧
      g'.maxSeenAllocatedStreamId = g.maxSeenAllocatedStreamId := by
  rcases new with _ | c
  · exact ⟨rfl, rfl, rfl, rfl⟩
  unfold moveTo
  simp only
  split <;> exact ⟨rfl, rfl, rfl, rfl⟩

theorem moveTo_named (h : Named cfg self g) (new : Option ℤ) : Named cfg self (g.moveTo self new) := by
  rcases new with _ | c
  · exact h
  unfold moveTo
  simp only
  split_ifs with h0
  · exact h
  refine ⟨fun w hw => mem_insert.mpr (.inr (h.writers w hw)), fun hmay => ?_⟩
  obtain ⟨p, hp, hp1⟩ := h.own hmay
  refine ⟨_, lookup_insert _, ?_⟩
  rw [show g.ourCurrentPosition self = p by simp [ourCurrentPosition, hp]]
  exact hp1.trans (le_max_left _ _)

theorem Covers.of_named (hn : Named cfg self g) (hmay : g.Busy → cfg.MayWrite self)
    (hheld : ∀ n ∈ L.held self, n ∈ g.unfinishedIds ∨ ∃ f ∈ g.inFlightFetches, f < n)
    (hothers : ∀ j, ¬ cfg.MayWrite j → L.held j = ∅) : Covers cfg L self g where
  held := hheld
  own hb := hn.own (hmay hb)
  others hw j hj := hothers j fun hmay => hj (hn.writers j (hmay.resolve_left hw))

theorem markIdsAsFinished_inWork {nextIds : List ℤ} {g' : Generator} (hg : g.markIdsAsFinished self nextIds = .ok g') :
    g'.unfinishedIds = g.unfinishedIds \ nextIds.toFinset ∧ g'.inFlightFetches = g.inFlightFetches := by
  obtain ⟨⟨new, finished⟩, -, hg⟩ := exc_bind_ok hg
  cases hg
  obtain ⟨hu, hf, -⟩ := moveTo_inWork self { g.moveToFinished nextIds with finishedIds := finished } new
  obtain ⟨-, hu', hf', -⟩ := foldl_addPersistedPosition_eq self
    ({ g.moveToFinished nextIds with finishedIds := finished }.moveTo self new) nextIds
  exact ⟨hu'.trans hu, hf'.trans hf⟩

/-- **Finishing ids keeps the positions sound**, against the ledger where they are let go. -/
theorem markIdsAsFinished_sound (h : Sound cfg L self g) (hn : Named cfg self g) (hmay : cfg.MayWrite self)
    {nextIds : List ℤ} (hids : ∀ n ∈ nextIds, L.Settled n)
    (hheld : ∀ n ∈ L.held self, n ∈ g.unfinishedIds \ nextIds.toFinset ∨ ∃ f ∈ g.inFlightFetches, f < n)
    (hothers : ∀ j, ¬ cfg.MayWrite j → L.held j = ∅) {g' : Generator} (hg : g.markIdsAsFinished self nextIds = .ok g') :
    Sound cfg L self g' ∧ Named cfg self g' := by
  obtain ⟨⟨new, finished⟩, hcur, hg⟩ := exc_bind_ok hg
  cases hg
  have hfin : ∀ n ∈ (g.moveToFinished nextIds).finishedIds, L.Settled n := by
    intro n hn
    rcases mem_union.mp hn with hn | hn
    · exact h.finished n hn
    · exact hids n (List.mem_toFinset.mp hn)
  have hn1 : Named cfg self (g.moveToFinished nextIds) := ⟨hn.writers, hn.own⟩
  obtain ⟨hsub, hnew⟩ := reported_of_newCur hfin (Covers.of_named hn1 (fun _ => hmay) hheld hothers) hcur
  -- the state when the ids are recorded
  have hs2 : Sound cfg L self { g.moveToFinished nextIds with finishedIds := finished } :=
    { h with finished := fun n hn => hfin n (hsub hn) }
  have hn2 : Named cfg self { g.moveToFinished nextIds with finishedIds := finished } := ⟨hn.writers, hn.own⟩
  obtain ⟨q, hq, -⟩ := hn2.own hmay
  have hs3 := moveTo_sound hs2 hq hnew
  have hn3 := moveTo_named hn2 new
  obtain ⟨hu3, hf3, -⟩ := moveTo_inWork self { g.moveToFinished nextIds with finishedIds := finished } new
  have hc3 := Covers.of_named hn3 (fun _ => hmay) (by rw [hu3, hf3]; exact hheld) hothers
  have hpos := (foldl_addPersistedPosition_eq self
    ({ g.moveToFinished nextIds with finishedIds := finished }.moveTo self new) nextIds).1
  refine ⟨foldl_addPersistedPosition_sound hs3 hc3 nextIds hids, ⟨?_, ?_⟩⟩
  · rw [hpos]
    exact hn3.writers
  · rw [hpos]
    exact hn3.own

/-! ## `advance` -/

theorem mul_returnFactor (cfg : Config) (p : ℤ) : cfg.returnFactor * p * cfg.returnFactor = p := by
  unfold Config.returnFactor
  split <;> omega

theorem advance_sound (h : Sound cfg L self g) (hc : Covers cfg L self g) {token : ℤ}
    (hr : Reported L name (token * cfg.returnFactor)) (hne : name ≠ self) (h1 : 1 ≤ token * cfg.returnFactor) :
    Sound cfg L self (g.advance self cfg name token) := by
  have hq : Reported L name (max (token * cfg.returnFactor) ((g.currentPositions.lookup name).getD 0)) := by
    rcases hl : g.currentPositions.lookup name with _ | p
    · rwa [getD_none, max_eq_left (by omega)]
    · exact hr.max (h.positions name p hl)
  have hraised : Sound cfg L self (g.raisePosition name (token * cfg.returnFactor)) := by
    refine { h with
      positions := insert_all h.positions hq
      seen_le := max_le h.seen_le hr.settled.1
      seen := fun j hj hmem => ?_ }
    rcases max_choice g.maxSeenAllocatedStreamId (token * cfg.returnFactor) with hmax | hmax
    · exact h.seen j hj (hmax ▸ hmem)
    · exact hr.settled.2 j (hmax ▸ hmem)
  refine addPersistedPosition_sound hraised ⟨hc.held, fun hb => ?_, fun hw j hj => ?_⟩ hr.settled
  · obtain ⟨p, hp, hp1⟩ := hc.own hb
    exact ⟨p, (lookup_insert_of_ne _ hne.symm).trans hp, hp1⟩
  · exact hc.others hw j fun hmem => hj (mem_insert.mpr (.inr hmem))

theorem advance_named (hn : Named cfg self g) (hne : name ≠ self) (token : ℤ) :
    Named cfg self (g.advance self cfg name token) where
  writers w hw := mem_insert.mpr (.inr (hn.writers w hw))
  own hmay := by
    obtain ⟨p, hp, hp1⟩ := hn.own hmay
    exact ⟨p, (lookup_insert_of_ne _ hne.symm).trans hp, hp1⟩

end Writers

/-! ## The start -/

/-- What `check_consistency` and earlier runs leave in the database: the sequence has started, and it is not behind the
stored positions and rows. -/
structure Database.Consistent (cfg : Config) (db : Database) : Prop where
  one_le : 1 ≤ db.lastValue
  positions : ∀ name p, db.streamPositions.lookup name = some p →
    1 ≤ p * cfg.returnFactor ∧ p * cfg.returnFactor ≤ db.lastValue
  rows : ∀ table ∈ db.tables, ∀ row ∈ table, cfg.returnFactor * row.2 ≤ db.lastValue

/-- No id is held when the instances start. -/
def Database.ledger (db : Database) : Ledger String := ⟨db.lastValue, fun _ => ∅⟩

section Start

variable {cfg : Config} {self : String} {db : Database} {g : Generator}

theorem reported_of_le {p : ℤ} (h : p ≤ db.lastValue) : Reported db.ledger name p :=
  ⟨⟨h, fun _ => Set.notMem_empty p⟩, h, fun _ hn => absurd hn (Set.notMem_empty _)⟩

theorem persisted_of_le {p : ℤ} (h : p ≤ db.lastValue) : Persisted cfg db.ledger self p :=
  ⟨(reported_of_le h : Reported _ self p).settled, (reported_of_le h).own, fun _ _ => (reported_of_le h).own⟩

/-- Every position is a number that the sequence has passed. -/
def Passed (db : Database) (d : Finmap fun _ : String => ℤ) : Prop :=
  ∀ j p, d.lookup j = some p → 1 ≤ p ∧ p ≤ db.lastValue

/-- The state while it is loaded: nothing is in work, and every position is a number that the sequence has passed. -/
structure Loading (cfg : Config) (db : Database) (name : String) (g : Generator) : Prop where
  sound : Sound cfg db.ledger name g
  unfinished : g.unfinishedIds = ∅
  inFlight : g.inFlightFetches = 0
  passed : Passed db g.currentPositions
  own : name ∈ cfg.writers → name ∈ g.currentPositions

section

variable (h : Loading cfg db self g)
include h

theorem Loading.covers : Covers cfg db.ledger self g where
  held _ hn := absurd hn (Set.notMem_empty _)
  own hb := (hb.elim (· h.unfinished) (· h.inFlight)).elim
  others _ _ _ := rfl

theorem Loading.insert (name : String) {q : ℤ} (h1 : 1 ≤ q) (hq : q ≤ db.lastValue) :
    Loading cfg db self { g with currentPositions := g.currentPositions.insert name q } where
  __ := h
  sound := { h.sound with positions := insert_all h.sound.positions (reported_of_le hq) }
  passed := insert_all h.passed ⟨h1, hq⟩
  own hw := mem_insert.mpr (.inr (h.own hw))

theorem Loading.withPersisted {q : ℤ} (h1 : 1 ≤ q) (hq : q ≤ db.lastValue) :
    Loading cfg db self { g with persistedUptoPosition := q } where
  __ := h
  sound := { h.sound with persisted := persisted_of_le hq, one_le := h1 }

theorem Loading.addRow {row : String × ℤ} (h1 : 1 ≤ cfg.returnFactor * row.2)
    (hr : cfg.returnFactor * row.2 ≤ db.lastValue) : Loading cfg db self (addRow cfg self g row) := by
  have hadd := { h with sound := addPersistedPosition_sound h.sound h.covers (reported_of_le hr : Reported _ self _).settled }
  unfold IdGen.addRow
  simp only
  split
  · exact hadd.insert row.1 h1 hr
  · exact hadd

end

theorem loadedPositions_passed (hdb : db.Consistent cfg) : Passed db (loadedPositions cfg self db) := by
  have hstored : Passed db (cfg.writers.foldl (addStoredPosition cfg db) ∅) := by
    refine foldlRecOn cfg.writers (addStoredPosition cfg db) (by simp [Passed]) ?_
    intro d hd w _
    unfold addStoredPosition
    rcases hw : db.streamPositions.lookup w with _ | q
    · exact hd
    · exact insert_all hd (hdb.positions w q hw)
  unfold loadedPositions
  split
  · exact insert_all hstored ⟨hdb.one_le, le_rfl⟩
  · exact hstored

theorem maxOfTable_le (hdb : db.Consistent cfg) {table : List (String × ℤ)} (ht : table ∈ db.tables) :
    maxOfTable cfg table ≤ db.lastValue := by
  refine max_le (greatest_getD_le hdb.one_le fun x hx => ?_) hdb.one_le
  obtain ⟨row, hrow, rfl⟩ := List.mem_map.mp (List.mem_toFinset.mp hx)
  exact hdb.rows table ht row hrow

theorem mem_setdefaultPosition (g : Generator) (writer w : String) :
    w ∈ (setdefaultPosition g writer).currentPositions ↔ w ∈ g.currentPositions ∨ w = writer := by
  unfold setdefaultPosition
  split
  · next hmem => exact ⟨.inl, fun h => h.elim id fun h => h ▸ hmem⟩
  · exact mem_insert.trans or_comm

theorem Loading.setdefaultPositions (h : Loading cfg db self g) (ws : List String) :
    Loading cfg db self (ws.foldl setdefaultPosition g) ∧ ∀ w ∈ ws, w ∈ (ws.foldl setdefaultPosition g).currentPositions := by
  refine ⟨foldlRecOn ws _ h fun g hg w _ => ?_, fun w hw => ?_⟩
  · unfold setdefaultPosition
    split
    · exact hg
    · exact hg.insert w hg.sound.one_le hg.sound.persisted.settled.1
  · exact (foldl_iff (P := (w ∈ ·.currentPositions)) (mem_setdefaultPosition · · w) ws g).mpr (.inr ⟨w, hw, rfl⟩)

theorem loading_fresh (hdb : db.Consistent cfg) :
    Loading cfg db self { fresh with currentPositions := loadedPositions cfg self db } where
  sound := {
    positions := fun j p hp => reported_of_le (loadedPositions_passed hdb j p hp).2
    seen_le := hdb.one_le
    seen := fun _ _ => Set.notMem_empty _
    localMax := reported_of_le hdb.one_le
    localMax_pos := le_rfl
    persisted := persisted_of_le hdb.one_le
    one_le := le_rfl
    known := by simp [fresh]
    finished := by simp [fresh] }
  unfinished := rfl
  inFlight := rfl
  passed := loadedPositions_passed hdb
  own hw := by
    unfold loadedPositions
    rw [if_pos hw]
    exact mem_insert.mpr (.inl rfl)

theorem loading_loadCurrentIds (hdb : db.Consistent cfg) :
    Loading cfg db self (loadCurrentIds cfg self db) ∧ ∀ w ∈ cfg.writers, w ∈ (loadCurrentIds cfg self db).currentPositions := by
  have hfresh := @loading_fresh cfg self db hdb
  unfold loadCurrentIds
  simp only
  rcases hm : minStreamId (loadedPositions cfg self db) with _ | m
  · obtain ⟨h1, hle⟩ := foldlRecOn (motive := fun m => 1 ≤ m ∧ m ≤ db.lastValue) db.tables
      (fun m table => max m (maxOfTable cfg table)) ⟨le_rfl, hdb.one_le⟩
      fun m ⟨h1, hm⟩ t ht => ⟨h1.trans (le_max_left _ _), max_le hm (maxOfTable_le hdb ht)⟩
    exact (hfresh.withPersisted h1 hle).setdefaultPositions cfg.writers
  obtain ⟨j, hj, hjm⟩ := mem_image.mp (least_mem hm)
  obtain ⟨p, hp⟩ := mem_iff.mp (Finmap.mem_keys.mp hj)
  rw [hp, getD_some] at hjm
  obtain ⟨h1, hle⟩ := loadedPositions_passed hdb j p hp
  rw [hjm] at h1 hle
  have hrows : Loading cfg db self ((laterRows cfg db m).foldl (addRow cfg self) { fresh with
      currentPositions := loadedPositions cfg self db, persistedUptoPosition := m }) := by
    refine foldlRecOn _ (addRow cfg self) (hfresh.withPersisted h1 hle) ?_
    intro g hg row hrow
    rw [laterRows, mem_insertionSort, mem_filter, mem_flatten] at hrow
    obtain ⟨⟨table, ht, hrow⟩, hge⟩ := hrow
    exact hg.addRow (h1.trans (of_decide_eq_true hge)) (hdb.rows table ht row hrow)
  exact hrows.setdefaultPositions cfg.writers

theorem greatest_passed (h : Passed db d) (h1 : 1 ≤ db.lastValue) :
    (greatest (d.keys.image fun name => (d.lookup name).getD 0)).getD 1 ≤ db.lastValue := by
  refine greatest_getD_le h1 fun x hx => ?_
  obtain ⟨j, hj, rfl⟩ := mem_image.mp hx
  obtain ⟨p, hp⟩ := mem_iff.mp (Finmap.mem_keys.mp hj)
  rw [hp]
  exact (h j p hp).2

theorem start_loading (hdb : db.Consistent cfg) :
    Loading cfg db self (start cfg self db) ∧ 1 ≤ (start cfg self db).maxSeenAllocatedStreamId ∧
      (start cfg self db).maxPositionOfLocalInstance = (start cfg self db).maxSeenAllocatedStreamId ∧
      (∀ w ∈ cfg.writers, w ∈ (start cfg self db).currentPositions) ∧
      (cfg.writers = [] → self ∈ (start cfg self db).currentPositions) := by
  obtain ⟨hl, hwriters⟩ := @loading_loadCurrentIds cfg self db hdb
  set g := loadCurrentIds cfg self db with hg
  set maxSeen := max ((greatest (g.currentPositions.keys.image fun name => (g.currentPositions.lookup name).getD 0)).getD 1)
    g.persistedUptoPosition with hmax
  have hle : maxSeen ≤ db.lastValue := max_le (greatest_passed hl.passed hdb.one_le) hl.sound.persisted.settled.1
  have h1 : 1 ≤ maxSeen := hl.sound.one_le.trans (le_max_right _ _)
  have hseen : Loading cfg db self { g with maxSeenAllocatedStreamId := maxSeen, maxPositionOfLocalInstance := maxSeen } :=
    { hl with sound := { hl.sound with
        seen_le := hle
        seen := fun _ _ => Set.notMem_empty _
        localMax := reported_of_le hle
        localMax_pos := h1 } }
  unfold start
  split_ifs with hw
  · exact ⟨hseen.insert self hl.sound.one_le hl.sound.persisted.settled.1, h1, rfl, by simp [hw],
      fun _ => mem_insert.mpr (.inl rfl)⟩
  · exact ⟨hseen, h1, rfl, hwriters, fun hnil => absurd hnil hw⟩

theorem start_sound (hdb : db.Consistent cfg) :
    Sound cfg db.ledger self (start cfg self db) ∧ Named cfg self (start cfg self db) ∧
      (start cfg self db).unfinishedIds = ∅ ∧ (start cfg self db).inFlightFetches = 0 := by
  obtain ⟨hl, -, -, hwriters, hnone⟩ := @start_loading cfg self db hdb
  refine ⟨hl.sound, ⟨hwriters, fun hmay => ?_⟩, hl.unfinished, hl.inFlight⟩
  have hmem := hmay.elim hnone hl.own
  obtain ⟨p, hp⟩ := mem_iff.mp hmem
  exact ⟨p, hp, (hl.passed self p hp).1⟩

end Start

end Synapse.IdGen
