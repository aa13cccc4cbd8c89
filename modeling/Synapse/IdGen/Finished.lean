import Synapse.IdGen.Cluster
import Synapse.IdGen.Monotone

/-!
# Synapse.IdGen.Finished — finished ids and the own position

An instance's own position is behind the ids it has finished as long as an id below them may be unfinished.  A fetch
counts as such an id from where it started, so ids that are finished while it is in flight may stay ahead of the own
position after it is over.

* `World.Ordered`: no id is finished while a fetch that started below it is in flight.
* `Finished`: then a finished id is ahead of the own position only if a smaller one is unfinished.
* `step_finished`: the transitions keep it.
* `step_grows`: the transitions move no position of an instance backwards, and lose no id.
-/

namespace Synapse.IdGen

open Lib Finset Option List

/-- **No id is finished while a fetch that started below it is in flight.** -/
def World.Ordered (w : World) : Action → Prop
  | .finish name ids => ∀ n ∈ ids, ∀ f ∈ (w.instances name).gen.inFlightFetches, n ≤ f
  | _ => True

instance (w : World) (a : Action) : Decidable (w.Ordered a) := by
  unfold World.Ordered
  split <;> infer_instance

/-- Where the finished ids of an instance are. -/
structure Finished (cfg : Config) (name : String) (x : Instance) : Prop where
  own : cfg.MayWrite name → ∃ p, x.gen.currentPositions.lookup name = some p ∧
    p ≤ x.gen.maxPositionOfLocalInstance ∧
    ∀ r ∈ x.rows, r ≤ p ∨ r ∈ x.gen.finishedIds ∧ ∃ u ∈ x.gen.unfinishedIds, u < r
  rows : ¬ cfg.MayWrite name → x.rows = ∅
  kept : x.gen.finishedIds ⊆ x.rows
  floors : ∀ r ∈ x.gen.finishedIds, ∀ f ∈ x.gen.inFlightFetches, r ≤ f
  unfinished_le : ∀ r ∈ x.gen.unfinishedIds, r ≤ x.gen.maxSeenAllocatedStreamId
  finished_le : ∀ r ∈ x.gen.finishedIds, r ≤ x.gen.maxSeenAllocatedStreamId

section NewCur

variable {g : Generator} {self : String}

theorem newCur_cases {new : Option ℤ} {finished : Finset ℤ} (h : g.newCur = .ok (new, finished)) :
    finished ⊆ g.finishedIds ∧ ∀ r ∈ g.finishedIds, (∃ c, new = some c ∧ r ≤ c) ∨
      r ∈ finished ∧ ((∃ u ∈ g.unfinishedIds, u ≤ r) ∨ ∃ f ∈ g.inFlightFetches, f < r) := by
  unfold Generator.newCur at h
  rcases minUnfinished_cases g with ⟨hm, -⟩ | ⟨m, hm, hmin, -⟩
  · rw [hm] at h
    rcases hg : greatest g.finishedIds with _ | c
    · rw [hg] at h
      cases h
    · rw [hg] at h
      cases h
      exact ⟨empty_subset _, fun r hr => .inl ⟨c, rfl, le_greatest hg hr⟩⟩
  · rw [hm] at h
    cases h
    refine ⟨filter_subset _ _, fun r hr => ?_⟩
    by_cases hlt : r < m
    · have hmem : r ∈ g.finishedIds.filter (· < m) := mem_filter.mpr ⟨hr, hlt⟩
      obtain ⟨c, hc, hle⟩ := exists_greatest hmem
      exact .inl ⟨c, hc, hle⟩
    refine .inr ⟨mem_filter.mpr ⟨hr, hlt⟩, ?_⟩
    rcases hmin with hu | ⟨f, hf, rfl⟩
    · exact .inl ⟨m, hu, not_lt.mp hlt⟩
    · exact .inr ⟨f, hf, by omega⟩

theorem moveTo_own {p : ℤ} (hp : g.currentPositions.lookup self = some p) (hle : p ≤ g.maxPositionOfLocalInstance)
    (new : Option ℤ) :
    ∃ p', (g.moveTo self new).currentPositions.lookup self = some p' ∧ p ≤ p' ∧
      p' ≤ (g.moveTo self new).maxPositionOfLocalInstance ∧ ∀ c, new = some c → c ≠ 0 → c ≤ p' := by
  cases new with
  | none => exact ⟨p, hp, le_rfl, hle, fun c hc => (by cases hc)⟩
  | some c =>
    have hcurr : g.ourCurrentPosition self = p := by
      rw [Generator.ourCurrentPosition, hp, getD_some]
    rw [Generator.moveTo]
    split
    · next hzero =>
      refine ⟨p, hp, le_rfl, hle, fun c' hc' hne => ?_⟩
      obtain rfl := some.inj hc'
      exact absurd hzero hne
    refine ⟨max p c, ?_, le_max_left _ _, ?_, fun c' hc' _ => ?_⟩
    · rw [hcurr, Finmap.lookup_insert]
    · rw [hcurr]
      exact le_max_left _ _
    · obtain rfl := some.inj hc'
      exact le_max_right _ _

end NewCur

/-! ## The transitions -/

section Finished

variable {cfg : Config} {name : String} {x : Instance}

variable (h : Finished cfg name x)
include h

theorem Finished.withFetches {g : Generator} {fetches : List Fetch} (hpos : g.currentPositions = x.gen.currentPositions)
    (hmax : g.maxPositionOfLocalInstance = x.gen.maxPositionOfLocalInstance)
    (hfinished : g.finishedIds = x.gen.finishedIds) (hsub : x.gen.unfinishedIds ⊆ g.unfinishedIds)
    (hseen : x.gen.maxSeenAllocatedStreamId ≤ g.maxSeenAllocatedStreamId)
    (hflight : ∀ f ∈ g.inFlightFetches, f ∈ x.gen.inFlightFetches ∨ f = x.gen.maxSeenAllocatedStreamId)
    (hle : ∀ r ∈ g.unfinishedIds, r ≤ g.maxSeenAllocatedStreamId) :
    Finished cfg name { x with gen := g, fetches := fetches } where
  own hw := by
    obtain ⟨p, hp, hpm, hrows⟩ := h.own hw
    refine ⟨p, hpos ▸ hp, hmax ▸ hpm, fun r hr => (hrows r hr).imp id ?_⟩
    rintro ⟨hr, u, hu, hlt⟩
    exact ⟨hfinished ▸ hr, u, hsub hu, hlt⟩
  rows := h.rows
  kept := hfinished ▸ h.kept
  floors r hr f hf := by
    rw [hfinished] at hr
    rcases hflight f hf with hf | rfl
    · exact h.floors r hr f hf
    · exact h.finished_le r hr
  unfinished_le := hle
  finished_le r hr := (h.finished_le r (hfinished ▸ hr)).trans hseen

theorem Finished.startFetch (fetches : List Fetch) :
    Finished cfg name { x with gen := x.gen.startFetch, fetches := fetches } :=
  h.withFetches rfl rfl rfl (Subset.refl _) le_rfl (fun _ hf => (Multiset.mem_cons.mp hf).symm) h.unfinished_le

theorem Finished.endFetch (currentMax : ℤ) (streamIds : List ℤ) (fetches : List Fetch) :
    Finished cfg name { x with gen := x.gen.endFetch currentMax streamIds, fetches := fetches } := by
  refine h.withFetches rfl rfl rfl subset_union_left (endFetch_behind x.gen currentMax streamIds).seen
    (fun _ hf => .inl (Multiset.mem_of_mem_erase hf)) fun r hr => ?_
  obtain ⟨m, hm, hle⟩ := exists_greatest hr
  show r ≤ Option.elim (greatest (x.gen.unfinishedIds ∪ streamIds.toFinset)) _ _
  rw [show greatest (x.gen.unfinishedIds ∪ streamIds.toFinset) = some m from hm]
  exact hle.trans (le_max_right _ _)

theorem Finished.failFetch (currentMax : ℤ) (fetches : List Fetch) :
    Finished cfg name { x with gen := x.gen.failFetch currentMax, fetches := fetches } :=
  h.withFetches rfl rfl rfl (Subset.refl _) le_rfl (fun _ hf => .inl (Multiset.mem_of_mem_erase hf))
    h.unfinished_le

/-- **Ids that are finished in order** are passed by the own position, or a smaller one is unfinished. -/
theorem Finished.finish (hw : cfg.MayWrite name) {ids : List ℤ}
    (hids : ∀ n ∈ ids, n ∈ x.gen.unfinishedIds) (hordered : ∀ n ∈ ids, ∀ f ∈ x.gen.inFlightFetches, n ≤ f)
    (hsettled : ∀ r ∈ x.gen.finishedIds, r ∉ x.gen.unfinishedIds) (hone : ∀ r ∈ x.gen.finishedIds ∪ ids.toFinset, 1 ≤ r)
    {g : Generator} (hg : x.gen.markIdsAsFinished name ids = .ok g) :
    Finished cfg name { x with gen := g, rows := x.rows ∪ ids.toFinset } := by
  obtain ⟨hu, hf⟩ := markIdsAsFinished_inWork hg
  obtain ⟨⟨new, finished⟩, hcur, hg⟩ := exc_bind_ok hg
  cases hg
  obtain ⟨p, hp, hpm, hrows⟩ := h.own hw
  obtain ⟨hsub, hcases⟩ := newCur_cases hcur
  obtain ⟨p', hp', hpp', hpm', hnew⟩ :=
    @moveTo_own { x.gen.moveToFinished ids with finishedIds := finished } name p hp hpm new
  set g₁ := Generator.moveTo name { x.gen.moveToFinished ids with finishedIds := finished } new with hg₁
  obtain ⟨-, -, hkept, hseen⟩ := moveTo_inWork name { x.gen.moveToFinished ids with finishedIds := finished } new
  obtain ⟨hpos, -, -, hkept', hseen'⟩ := foldl_addPersistedPosition_eq name g₁ ids
  have hbehind := foldl_addPersistedPosition_behind name ids g₁
  -- nothing that is finished is above a fetch in flight
  have hfloor : ∀ r ∈ x.gen.finishedIds ∪ ids.toFinset, ∀ f ∈ x.gen.inFlightFetches, r ≤ f := by
    intro r hr f hf
    rcases mem_union.mp hr with hr | hr
    · exact h.floors r hr f hf
    · exact hordered r (mem_toFinset.mp hr) f hf
  have hwhere : ∀ r ∈ x.gen.finishedIds ∪ ids.toFinset,
      r ≤ p' ∨ r ∈ finished ∧ ∃ u ∈ x.gen.unfinishedIds \ ids.toFinset, u < r := by
    intro r hr
    rcases hcases r hr with ⟨c, hc, hle⟩ | ⟨hmem, ⟨u, hu, hle⟩ | ⟨f, hf, hlt⟩⟩
    · have h1 := hone r hr
      exact .inl (hle.trans (hnew c hc (by omega)))
    · refine .inr ⟨hmem, u, hu, lt_of_le_of_ne hle ?_⟩
      rintro rfl
      obtain ⟨hun, hnot⟩ := mem_sdiff.mp hu
      rcases mem_union.mp hr with hr | hr
      · exact hsettled u hr hun
      · exact hnot hr
    · exact absurd (hfloor r hr f hf) (not_le.mpr hlt)
  have hkept'' := hkept'.trans hkept
  have hseen'' := hseen'.trans hseen
  refine ⟨fun _ => ⟨p', hpos ▸ hp', hpm'.trans hbehind.localMax, fun r hr => ?_⟩, fun hn => absurd hw hn,
    fun r hr => ?_, fun r hr f hfl => ?_, fun r hr => ?_, fun r hr => ?_⟩
  · rw [hkept'', hu]
    rcases mem_union.mp hr with hr | hr
    · rcases hrows r hr with hle | ⟨hmem, -⟩
      · exact .inl (hle.trans hpp')
      · exact hwhere r (mem_union_left _ hmem)
    · exact hwhere r (mem_union_right _ hr)
  · rw [hkept''] at hr
    exact union_subset_union_left h.kept (hsub hr)
  · rw [hkept''] at hr
    rw [hf] at hfl
    exact hfloor r (hsub hr) f hfl
  · rw [hu] at hr
    rw [hseen'']
    exact h.unfinished_le r (mem_sdiff.mp hr).1
  · rw [hkept''] at hr
    rw [hseen'']
    rcases mem_union.mp (hsub hr) with hr | hr
    · exact h.finished_le r hr
    · exact h.unfinished_le r (hids r (mem_toFinset.mp hr))

theorem Finished.advance {sender : String} (hne : sender ≠ name) (token : ℤ) :
    Finished cfg name { x with gen := x.gen.advance name cfg sender token } where
  __ := h
  own hw := by
    obtain ⟨p, hp, hpm, hrows⟩ := h.own hw
    refine ⟨p, ?_, hpm.trans (advance_behind cfg x.gen name sender token).localMax, hrows⟩
    exact (Finmap.lookup_insert_of_ne _ hne.symm).trans hp
  unfinished_le r hr := (h.unfinished_le r hr).trans (advance_behind cfg x.gen name sender token).seen
  finished_le r hr := (h.finished_le r hr).trans (advance_behind cfg x.gen name sender token).seen

end Finished

section Steps

variable {cfg : Config} {w w' : World}

theorem forall_set {P : String → Instance → Prop} (h : ∀ j, P j (w.instances j)) {name : String} {x : Instance}
    (hx : P name x) : ∀ j, P j ((w.set name x).instances j) :=
  (Function.forall_update_iff w.instances P).mpr ⟨hx, fun j _ => h j⟩

theorem step_finished (hinv : Inv cfg w) (h : ∀ j, Finished cfg j (w.instances j)) {a : Action} (ha : w.Ordered a)
    (hstep : w.step cfg a = some w') : ∀ j, Finished cfg j (w'.instances j) := by
  cases World.step_cases hstep with
  | @change name _ _ hx =>
    refine forall_set h ?_
    cases hx with
    | startFetch => exact (h name).startFetch _
    | endFetch => exact (h name).endFetch _ _ _
    | failFetch => exact (h name).failFetch _ _
    | finish hw hids hg =>
      have hl := hinv.instances name
      refine (h name).finish hw hids ha (fun r hr hu => ?_) (fun r hr => ?_) hg
      · exact (hl.sound.finished r hr).2 name (mem_coe.mpr (mem_held.mpr (.inl hu)))
      · rcases mem_union.mp hr with hr | hr
        · exact (hl.rows r ((h name).kept hr)).2
        · exact (hinv.held name r (mem_held.mpr (.inl (hids r (mem_toFinset.mp hr))))).1
    | @receive _ token _ hne => exact (h name).advance hne token
  | @allocate name =>
    have hx := h name
    exact forall_set h { hx with }
  | notFinished | sendPosition | sendRow => exact h

/-- Rows stay, and ids stay unfinished until their rows are there; no position of the instance moves backwards. -/
structure Instance.Grows (x y : Instance) : Prop where
  behind : Behind x.gen y.gen
  kept : ∀ {id}, id ∈ x.gen.unfinishedIds ∨ id ∈ x.rows → id ∈ y.gen.unfinishedIds ∨ id ∈ y.rows

theorem step_grows {a : Action} (hstep : w.step cfg a = some w') (j : String) :
    (w.instances j).Grows (w'.instances j) := by
  have hrefl : ∀ x : Instance, x.Grows x := fun x => ⟨.refl _, id⟩
  cases World.step_cases hstep with
  | @change name _ _ hx =>
    refine forall_set (fun j => hrefl _) ?_ j
    cases hx with
    | startFetch => exact ⟨apply_behind cfg name _ .startFetch, id⟩
    | endFetch => exact ⟨endFetch_behind _ _ _, (·.imp_left (mem_union_left _))⟩
    | failFetch => exact ⟨apply_behind cfg name _ (.failFetch _), id⟩
    | @finish ids _ _ _ hg =>
      refine ⟨markIdsAsFinished_behind hg, fun {n} hn => ?_⟩
      rw [(markIdsAsFinished_inWork hg).1, mem_sdiff, mem_union]
      by_cases hin : n ∈ ids.toFinset
      · exact .inr (.inr hin)
      · exact hn.imp (⟨·, hin⟩) .inl
    | receive => exact ⟨advance_behind cfg _ _ _ _, id⟩
  | allocate =>
    refine forall_set (fun j => hrefl _) ?_ j
    exact ⟨.refl _, id⟩
  | notFinished | sendPosition | sendRow => exact hrefl _

end Steps

/-! ## The start -/

section Start

variable (cfg : Config) (self : String) (db : Database)

theorem loadCurrentIds_finishedIds : (loadCurrentIds cfg self db).finishedIds = ∅ := by
  have hset : ∀ (ws : List String) (g : Generator), g.finishedIds = ∅ →
      (ws.foldl setdefaultPosition g).finishedIds = ∅ := by
    intro ws g hg
    refine foldlRecOn ws setdefaultPosition (motive := fun g => g.finishedIds = ∅) hg fun g hg writer _ => ?_
    rw [setdefaultPosition]
    split <;> exact hg
  unfold loadCurrentIds
  dsimp only
  split
  · exact hset _ _ rfl
  · refine hset _ _ (foldlRecOn _ (addRow cfg self) (motive := fun g => g.finishedIds = ∅) rfl fun g hg row _ => ?_)
    rw [addRow]
    split <;> exact hg

theorem start_finishedIds : (start cfg self db).finishedIds = ∅ := by
  rw [start]
  split <;> exact loadCurrentIds_finishedIds cfg self db

theorem le_greatest_lookup {d : Finmap fun _ : String => ℤ} {name : String} {p : ℤ} (hp : d.lookup name = some p) :
    p ≤ (greatest (d.keys.image fun name => (d.lookup name).getD 0)).getD 1 := by
  have hmem : p ∈ d.keys.image fun name => (d.lookup name).getD 0 := by
    refine mem_image.mpr ⟨name, Finmap.mem_keys.mpr (Finmap.mem_iff.mpr ⟨p, hp⟩), ?_⟩
    rw [hp, getD_some]
  obtain ⟨m, hm, hle⟩ := exists_greatest hmem
  rw [hm]
  exact hle

theorem start_positions_le {name : String} {p : ℤ} (hp : (start cfg self db).currentPositions.lookup name = some p) :
    p ≤ (start cfg self db).maxPositionOfLocalInstance := by
  rw [start] at hp ⊢
  split at hp
  · next hw =>
    rw [if_pos hw]
    exact insert_all (P := fun _ p => p ≤ max _ _) (fun _ _ hp => (le_greatest_lookup hp).trans (le_max_left _ _))
      (le_max_right _ _) name p hp
  · next hw =>
    rw [if_neg hw]
    exact (le_greatest_lookup hp).trans (le_max_left _ _)

variable {cfg db} in
theorem start_finished (hdb : db.Consistent cfg) : Finished cfg self ((World.start cfg db).instances self) := by
  obtain ⟨-, hnamed, hu, -⟩ := @start_sound cfg self db hdb
  have hfinished : ((World.start cfg db).instances self).gen.finishedIds = ∅ := start_finishedIds cfg self db
  refine ⟨fun hw => ?_, fun _ => rfl, ?_, fun r hr => ?_, fun r hr => ?_, fun r hr => ?_⟩
  · obtain ⟨p, hp, -⟩ := hnamed.own hw
    exact ⟨p, hp, start_positions_le cfg self db hp, fun r hr => absurd hr (notMem_empty r)⟩
  · rw [hfinished]
    exact empty_subset _
  · rw [hfinished] at hr
    exact absurd hr (notMem_empty r)
  · change r ∈ (start cfg self db).unfinishedIds at hr
    rw [hu] at hr
    exact absurd hr (notMem_empty r)
  · rw [hfinished] at hr
    exact absurd hr (notMem_empty r)

end Start

end Synapse.IdGen
