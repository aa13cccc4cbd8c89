import Synapse.IdGen.Positions
import Synapse.Lib.Runs

/-!
# Synapse.IdGen.Cluster — the instances of a stream together

Instances that share one sequence: each fetches ids, finishes them, and tells the others its position.  Between the
steps anything can happen elsewhere; messages are delayed, repeated and reordered.

* `step`: every transition; `run`: any interleaving of them.
* `Inv`, `step_inv`, `run_inv`: what holds in every reachable state.
* `positions_safe`: no position passes an id that is in work or still to come.
* `ids_unique`: no id is given out twice.
-/

namespace Synapse.IdGen

open Lib List Function

/-- A call of `_load_next_mult_id_txn` in progress: its `current_max`, the number of ids it asked for, and the ids that
the sequence gave so far. -/
structure Fetch where
  currentMax : ℤ
  n : ℕ
  streamIds : List ℤ
  deriving DecidableEq

/-- A running instance: its generator, its fetches in progress, and the ids under which it has persisted rows. -/
structure Instance where
  gen : Generator
  fetches : List Fetch
  rows : Finset ℤ

/-- The ids that are allocated to the instance and unfinished. -/
def Instance.held (x : Instance) : Finset ℤ := x.gen.unfinishedIds ∪ (x.fetches.flatMap Fetch.streamIds).toFinset

/-- The instances of a stream, the last value of the sequence, and the positions sent over replication. -/
structure World where
  lastValue : ℤ
  instances : String → Instance
  sent : List (String × ℤ)

inductive Action where
  /-- an instance asks for `n` ids -/
  | startFetch (name : String) (n : ℕ)
  /-- the sequence gives an id to a fetch -/
  | allocate (name : String) (fetch : Fetch) (id : ℤ)
  /-- the fetch has its ids -/
  | endFetch (name : String) (fetch : Fetch)
  /-- the fetch raises, and its ids are lost -/
  | failFetch (name : String) (fetch : Fetch)
  /-- ids are finished, in any order -/
  | finish (name : String) (ids : List ℤ)
  /-- an instance sends its position -/
  | sendPosition (name : String)
  /-- an instance sends a row that it has persisted -/
  | sendRow (name : String) (id : ℤ)
  /-- an instance receives a position of another one -/
  | receive (name sender : String) (token : ℤ)

namespace World

variable (cfg : Config) (w : World)

/-- All instances, started from one database. -/
def start (db : Database) : World where
  lastValue := db.lastValue
  instances name := ⟨IdGen.start cfg name db, [], ∅⟩
  sent := []

def set (name : String) (x : Instance) : World := { w with instances := Function.update w.instances name x }

def ledger : Ledger String := ⟨w.lastValue, fun name => (w.instances name).held⟩

def step : Action → Option World
  | .startFetch name n =>
    let x := w.instances name
    -- "Tried to allocate stream ID on non-writer"
    if cfg.MayWrite name then
      some (w.set name { x with
        gen := x.gen.startFetch
        fetches := ⟨x.gen.maxSeenAllocatedStreamId, n, []⟩ :: x.fetches })
    else none
  | .allocate name f id =>
    let x := w.instances name
    if f ∈ x.fetches ∧ f.streamIds.length < f.n ∧ w.lastValue < id then
      some ({ w with lastValue := id }.set name { x with
        fetches := { f with streamIds := f.streamIds ++ [id] } :: x.fetches.erase f })
    else none
  | .endFetch name f =>
    let x := w.instances name
    if f ∈ x.fetches ∧ f.streamIds.length = f.n then
      some (w.set name { x with gen := x.gen.endFetch f.currentMax f.streamIds, fetches := x.fetches.erase f })
    else none
  | .failFetch name f =>
    let x := w.instances name
    if f ∈ x.fetches then
      some (w.set name { x with gen := x.gen.failFetch f.currentMax, fetches := x.fetches.erase f })
    else none
  | .finish name ids =>
    let x := w.instances name
    if cfg.MayWrite name ∧ ∀ n ∈ ids, n ∈ x.gen.unfinishedIds then
      match x.gen.markIdsAsFinished name ids with
      | .ok g => some (w.set name { x with gen := g, rows := x.rows ∪ ids.toFinset })
      | .error _ => some w
    else none
  | .sendPosition name =>
    if cfg.MayWrite name then
      some { w with sent := (name, (w.instances name).gen.getCurrentTokenForWriter name cfg name) :: w.sent }
    else none
  | .sendRow name id =>
    let x := w.instances name
    if id ∈ x.rows ∧ id ≤ x.gen.maxPositionOfLocalInstance then
      some { w with sent := (name, cfg.returnFactor * id) :: w.sent }
    else none
  | .receive name sender token =>
    let x := w.instances name
    if (sender, token) ∈ w.sent ∧ sender ≠ name then
      some (w.set name { x with gen := x.gen.advance name cfg sender token })
    else none

/-- A run: transitions one after the other. -/
def run : List Action → Option World := List.foldlM (step cfg) w

end World

/-- What a transition makes of an instance. -/
inductive Change (cfg : Config) (w : World) (name : String) (x : Instance) : Action → Instance → Prop
  | startFetch {n} (hw : cfg.MayWrite name) : Change cfg w name x (.startFetch name n) { x with
      gen := x.gen.startFetch
      fetches := ⟨x.gen.maxSeenAllocatedStreamId, n, []⟩ :: x.fetches }
  | endFetch {f} (hf : f ∈ x.fetches) : Change cfg w name x (.endFetch name f) { x with
      gen := x.gen.endFetch f.currentMax f.streamIds, fetches := x.fetches.erase f }
  | failFetch {f} (hf : f ∈ x.fetches) : Change cfg w name x (.failFetch name f) { x with
      gen := x.gen.failFetch f.currentMax, fetches := x.fetches.erase f }
  | finish {ids g} (hw : cfg.MayWrite name) (hids : ∀ n ∈ ids, n ∈ x.gen.unfinishedIds)
      (hg : x.gen.markIdsAsFinished name ids = .ok g) :
    Change cfg w name x (.finish name ids) { x with gen := g, rows := x.rows ∪ ids.toFinset }
  | receive {sender token} (hm : (sender, token) ∈ w.sent) (hne : sender ≠ name) :
    Change cfg w name x (.receive name sender token) { x with gen := x.gen.advance name cfg sender token }

/-- What a transition does, case by case. -/
inductive Step (cfg : Config) (w : World) : Action → World → Prop
  | change {name a x} (hx : Change cfg w name (w.instances name) a x) : Step cfg w a (w.set name x)
  | allocate {name f id} (hf : f ∈ (w.instances name).fetches) (hid : w.lastValue < id) :
    Step cfg w (.allocate name f id) ({ w with lastValue := id }.set name { w.instances name with
      fetches := { f with streamIds := f.streamIds ++ [id] } :: (w.instances name).fetches.erase f })
  | notFinished {name ids} : Step cfg w (.finish name ids) w
  | sendPosition {name} : Step cfg w (.sendPosition name)
      { w with sent := (name, (w.instances name).gen.getCurrentTokenForWriter name cfg name) :: w.sent }
  | sendRow {name id} (hid : id ∈ (w.instances name).rows)
      (hle : id ≤ (w.instances name).gen.maxPositionOfLocalInstance) :
    Step cfg w (.sendRow name id) { w with sent := (name, cfg.returnFactor * id) :: w.sent }

theorem World.step_cases {cfg : Config} {w w' : World} {a : Action} (h : w.step cfg a = some w') : Step cfg w a w' := by
  cases a <;> obtain ⟨hguard, h⟩ := Option.ite_none_right_eq_some.mp h
  case finish => split at h <;> cases h; exacts [.change (.finish hguard.1 hguard.2 ‹_›), .notFinished]
  all_goals cases h
  case startFetch => exact .change (.startFetch hguard)
  case allocate => exact .allocate hguard.1 hguard.2.2
  case endFetch => exact .change (.endFetch hguard.1)
  case failFetch => exact .change (.failFetch hguard)
  case sendPosition => exact .sendPosition
  case sendRow => exact .sendRow hguard.1 hguard.2
  case receive => exact .change (.receive hguard.1 hguard.2)

/-! ## The invariant -/

structure Local (cfg : Config) (L : Ledger String) (name : String) (x : Instance) : Prop where
  sound : Sound cfg L name x.gen
  named : Named cfg name x.gen
  floors : x.gen.inFlightFetches = (x.fetches.map Fetch.currentMax : Multiset ℤ)
  floor_le : ∀ f ∈ x.fetches, f.currentMax ≤ L.last
  above : ∀ f ∈ x.fetches, ∀ n ∈ f.streamIds, f.currentMax < n
  apart : ∀ f ∈ x.fetches, ∀ n ∈ f.streamIds, n ∉ x.gen.unfinishedIds
  disjoint : x.fetches.Pairwise fun f f' => ∀ n ∈ f.streamIds, n ∉ f'.streamIds
  rows : ∀ n ∈ x.rows, L.Settled n ∧ 1 ≤ n
  writer : ¬ cfg.MayWrite name → x.fetches = [] ∧ x.gen.unfinishedIds = ∅

structure Inv (cfg : Config) (w : World) : Prop where
  instances : ∀ name, Local cfg w.ledger name (w.instances name)
  held : ∀ name, ∀ n ∈ (w.instances name).held, 1 ≤ n ∧ n ≤ w.lastValue
  once : ∀ i j n, n ∈ (w.instances i).held → n ∈ (w.instances j).held → i = j
  sent : ∀ m ∈ w.sent, Reported w.ledger m.1 (m.2 * cfg.returnFactor) ∧ 1 ≤ m.2 * cfg.returnFactor
  one_le : 1 ≤ w.lastValue

section Preserved

variable {cfg : Config} {w : World} {name : String} {x : Instance}

theorem mem_held {n : ℤ} : n ∈ x.held ↔ n ∈ x.gen.unfinishedIds ∨ ∃ f ∈ x.fetches, n ∈ f.streamIds := by
  unfold Instance.held
  rw [Finset.mem_union, mem_toFinset, mem_flatMap]

variable {L : Ledger String}

theorem Local.mono {L' : Ledger String} (h : Local cfg L name x) (hL : L.Grows L') : Local cfg L' name x where
  __ := h
  sound := h.sound.mono hL
  floor_le f hf := (h.floor_le f hf).trans hL.last
  rows n hn := ⟨(h.rows n hn).1.mono hL, (h.rows n hn).2⟩

theorem Local.held_empty (h : Local cfg L name x) (hw : ¬ cfg.MayWrite name) : x.held = ∅ := by
  obtain ⟨hf, hu⟩ := h.writer hw
  simp [Instance.held, hf, hu]

theorem Local.started_below (h : Local cfg L name x) {n : ℤ} (hn : ∃ f ∈ x.fetches, n ∈ f.streamIds) :
    ∃ f ∈ x.gen.inFlightFetches, f < n := by
  obtain ⟨f, hf, hmem⟩ := hn
  refine ⟨f.currentMax, ?_, h.above f hf n hmem⟩
  rw [h.floors, Multiset.mem_coe]
  exact mem_map_of_mem hf

theorem Inv.not_writer (h : Inv cfg w) (j : String) (hj : ¬ cfg.MayWrite j) : w.ledger.held j = ∅ := by
  show ((w.instances j).held : Set ℤ) = ∅
  rw [(h.instances j).held_empty hj, Finset.coe_empty]

theorem Inv.covers (h : Inv cfg w) (name : String) : Covers cfg w.ledger name (w.instances name).gen := by
  have hl := h.instances name
  refine .of_named hl.named (fun hb => ?_) (fun n hn => (mem_held.mp hn).imp id hl.started_below) h.not_writer
  by_contra hw
  obtain ⟨hf, hu⟩ := hl.writer hw
  rcases hb with hb | hb
  · exact hb hu
  · exact hb (by rw [hl.floors, hf]; rfl)

/-- **A change of one instance keeps the invariant**, if what it holds afterwards it held before or just drew. -/
theorem Inv.update (h : Inv cfg w) {last : ℤ} (hlast : w.lastValue ≤ last)
    (hheld : ∀ n ∈ x.held, n ∈ (w.instances name).held ∨ w.lastValue < n ∧ n ≤ last)
    (hlocal : w.ledger.Grows ({ w with lastValue := last }.set name x).ledger →
      Local cfg ({ w with lastValue := last }.set name x).ledger name x) :
    Inv cfg ({ w with lastValue := last }.set name x) := by
  set w' := { w with lastValue := last }.set name x
  have hself : w'.instances name = x := update_self ..
  have hother : ∀ j, j ≠ name → w'.instances j = w.instances j := fun j hj => update_of_ne hj ..
  have hback : ∀ j, ∀ n ∈ (w'.instances j).held,
      n ∈ (w.instances j).held ∨ j = name ∧ w.lastValue < n ∧ n ≤ last := by
    intro j n hn
    by_cases hj : j = name
    · subst hj
      rw [hself] at hn
      exact (hheld n hn).imp id (⟨rfl, ·⟩)
    · rw [hother j hj] at hn
      exact .inl hn
  have hgrow : w.ledger.Grows w'.ledger :=
    ⟨hlast, fun j n hn => (hback j n hn).imp id (·.2.1)⟩
  refine ⟨fun j => ?_, fun j n hn => ?_, fun i j n hi hj => ?_, fun m hm => ?_, h.one_le.trans hlast⟩
  · by_cases hj : j = name
    · subst hj
      rw [hself]
      exact hlocal hgrow
    · rw [hother j hj]
      exact (h.instances j).mono hgrow
  · rcases hback j n hn with hn | ⟨-, hlt, hle⟩
    · exact ⟨(h.held j n hn).1, (h.held j n hn).2.trans hlast⟩
    · have := h.one_le
      exact ⟨by omega, hle⟩
  · -- a number just drawn is above everything held before
    rcases hback i n hi with hi | ⟨hi, hlt, -⟩ <;> rcases hback j n hj with hj | ⟨hj, hlt', -⟩
    · exact h.once i j n hi hj
    · have := (h.held i n hi).2
      omega
    · have := (h.held j n hj).2
      omega
    · exact hi.trans hj.symm
  · exact ⟨(h.sent m hm).1.mono hgrow, (h.sent m hm).2⟩

theorem Inv.set (h : Inv cfg w) (hheld : ∀ n ∈ x.held, n ∈ (w.instances name).held)
    (hlocal : w.ledger.Grows (w.set name x).ledger → Local cfg (w.set name x).ledger name x) : Inv cfg (w.set name x) :=
  h.update le_rfl (fun n hn => .inl (hheld n hn)) hlocal

theorem held_set_of_ne {j : String} (hj : j ≠ name) : (w.set name x).ledger.held j = w.ledger.held j :=
  congrArg (fun x : Instance => (x.held : Set ℤ)) (update_of_ne hj ..)

theorem Sound.withInFlight {g : Generator} (h : Sound cfg L name g) (m : Multiset ℤ) :
    Sound cfg L name { g with inFlightFetches := m } :=
  { h with }

/-! ### The fetches -/

theorem inv_startFetch (h : Inv cfg w) (hw : cfg.MayWrite name) (n : ℕ) : Inv cfg (w.set name { w.instances name with
      gen := (w.instances name).gen.startFetch
      fetches := ⟨(w.instances name).gen.maxSeenAllocatedStreamId, n, []⟩ :: (w.instances name).fetches }) := by
  have hl := h.instances name
  refine h.set (fun m hm => ?_) fun hgrow => ?_
  · rw [mem_held] at hm ⊢
    simpa [Generator.startFetch] using hm
  have hl' := hl.mono hgrow
  refine ⟨hl'.sound.withInFlight _, ⟨hl'.named.writers, hl'.named.own⟩, ?_, ?_, ?_, ?_, ?_, hl'.rows, fun hn => absurd hw hn⟩
  · show _ ::ₘ (w.instances name).gen.inFlightFetches = _
    rw [hl.floors]
    rfl
  · exact forall_mem_cons.mpr ⟨hl'.sound.seen_le, hl'.floor_le⟩
  · exact forall_mem_cons.mpr ⟨by simp, hl'.above⟩
  · exact forall_mem_cons.mpr ⟨by simp, hl'.apart⟩
  · exact pairwise_cons.mpr ⟨by simp, hl'.disjoint⟩

variable {f : Fetch}

theorem Local.fetch (h : Local cfg L name x) (hf : f ∈ x.fetches) :
    x.gen.inFlightFetches = f.currentMax ::ₘ ((x.fetches.erase f).map Fetch.currentMax : Multiset ℤ) ∧
      (∀ f' ∈ x.fetches.erase f, ∀ n ∈ f.streamIds, n ∉ f'.streamIds) ∧
      (x.fetches.erase f).Pairwise fun f f' => ∀ n ∈ f.streamIds, n ∉ f'.streamIds := by
  have hperm := perm_cons_erase hf
  have hpair := (hperm.pairwise_iff fun {a b} hab n hn hn' => hab n hn' hn).mp h.disjoint
  obtain ⟨hhead, htail⟩ := pairwise_cons.mp hpair
  refine ⟨?_, hhead, htail⟩
  rw [h.floors]
  exact Multiset.coe_eq_coe.mpr (hperm.map Fetch.currentMax)

theorem Local.mayWrite (h : Local cfg L name x) (hf : f ∈ x.fetches) : cfg.MayWrite name := by
  by_contra hw
  rw [(h.writer hw).1] at hf
  exact not_mem_nil hf

theorem Local.failFetch (h : Local cfg L name x) (hf : f ∈ x.fetches) :
    Local cfg L name { x with gen := x.gen.failFetch f.currentMax, fetches := x.fetches.erase f } where
  __ := h
  sound := h.sound.withInFlight _
  named := ⟨h.named.writers, h.named.own⟩
  floors := by rw [Generator.failFetch, (h.fetch hf).1, Multiset.erase_cons_head]
  floor_le f' hf' := h.floor_le f' (mem_of_mem_erase hf')
  above f' hf' := h.above f' (mem_of_mem_erase hf')
  apart f' hf' := h.apart f' (mem_of_mem_erase hf')
  disjoint := (h.fetch hf).2.2
  writer hw := absurd (h.mayWrite hf) hw

theorem inv_allocate (h : Inv cfg w) (hf : f ∈ (w.instances name).fetches) {id : ℤ} (hid : w.lastValue < id) :
    Inv cfg ({ w with lastValue := id }.set name { w.instances name with
      fetches := { f with streamIds := f.streamIds ++ [id] } :: (w.instances name).fetches.erase f }) := by
  have hl := h.instances name
  obtain ⟨hfloors, hhead, -⟩ := hl.fetch hf
  -- the id is new to everyone
  have hnew : id ∉ (w.instances name).held := fun hn => by
    have := (h.held name id hn).2
    omega
  refine h.update hid.le (fun m hm => ?_) fun hgrow => ?_
  · rcases mem_held.mp hm with hm | ⟨f', hf', hm⟩
    · exact .inl (mem_held.mpr (.inl hm))
    rcases mem_cons.mp hf' with rfl | hf'
    · rcases mem_snoc.mp hm with hm | rfl
      · exact .inl (mem_held.mpr (.inr ⟨f, hf, hm⟩))
      · exact .inr ⟨hid, le_rfl⟩
    · exact .inl (mem_held.mpr (.inr ⟨f', mem_of_mem_erase hf', hm⟩))
  · have hl' := hl.mono hgrow
    have hrest := hl'.failFetch hf
    refine { hrest with
      sound := hl'.sound
      named := hl'.named
      floors := hfloors
      floor_le := forall_mem_cons.mpr ⟨hl'.floor_le f hf, hrest.floor_le⟩
      above := forall_mem_cons.mpr ⟨fun n hn => ?_, hrest.above⟩
      apart := forall_mem_cons.mpr ⟨fun n hn => ?_, hrest.apart⟩
      disjoint := pairwise_cons.mpr ⟨fun f' hf' n hn hn' => ?_, hrest.disjoint⟩
      writer := fun hw => absurd (hl.mayWrite hf) hw }
    · rcases mem_snoc.mp hn with hn | rfl
      · exact hl.above f hf n hn
      · exact (hl.floor_le f hf).trans_lt hid
    · rcases mem_snoc.mp hn with hn | rfl
      · exact hl.apart f hf n hn
      · exact fun hu => hnew (mem_held.mpr (.inl hu))
    · rcases mem_snoc.mp hn with hn | rfl
      · exact hhead f' hf' n hn hn'
      · exact hnew (mem_held.mpr (.inr ⟨f', mem_of_mem_erase hf', hn'⟩))

theorem inv_endFetch (h : Inv cfg w) (hf : f ∈ (w.instances name).fetches) : Inv cfg (w.set name { w.instances name with
      gen := (w.instances name).gen.endFetch f.currentMax f.streamIds
      fetches := (w.instances name).fetches.erase f }) := by
  have hl := h.instances name
  have hunfinished : ∀ n ∈ (w.instances name).gen.unfinishedIds ∪ f.streamIds.toFinset, n ∈ (w.instances name).held := by
    intro n hn
    rcases Finset.mem_union.mp hn with hn | hn
    · exact mem_held.mpr (.inl hn)
    · exact mem_held.mpr (.inr ⟨f, hf, mem_toFinset.mp hn⟩)
  refine h.set (fun m hm => ?_) fun hgrow => ?_
  · rcases mem_held.mp hm with hm | ⟨f', hf', hm⟩
    · exact hunfinished m hm
    · exact mem_held.mpr (.inr ⟨f', mem_of_mem_erase hf', hm⟩)
  have hrest := (hl.mono hgrow).failFetch hf
  have hs := hrest.sound
  refine { hrest with
    sound := { hs with seen_le := ?_, seen := fun j hj hn => ?_ }
    named := ⟨hrest.named.writers, hrest.named.own⟩
    apart := fun f' hf' n hn hu => ?_
    writer := fun hw => absurd (hl.mayWrite hf) hw }
  · show Option.elim _ _ _ ≤ w.lastValue
    rcases hg : greatest ((w.instances name).gen.unfinishedIds ∪ f.streamIds.toFinset) with _ | m
    · exact hl.sound.seen_le
    · exact max_le hl.sound.seen_le (h.held name m (hunfinished m (greatest_mem hg))).2
  · rw [held_set_of_ne hj] at hn
    change Option.elim _ _ _ ∈ _ at hn
    rcases hg : greatest ((w.instances name).gen.unfinishedIds ∪ f.streamIds.toFinset) with _ | m
    · rw [hg] at hn
      exact hl.sound.seen j hj hn
    rw [hg, Option.elim_some] at hn
    rcases max_choice (w.instances name).gen.maxSeenAllocatedStreamId m with hmax | hmax <;> rw [hmax] at hn
    · exact hl.sound.seen j hj hn
    · exact hj (h.once j name m hn (hunfinished m (greatest_mem hg)))
  · rcases Finset.mem_union.mp hu with hu | hu
    · exact hrest.apart f' hf' n hn hu
    · exact (hl.fetch hf).2.1 f' hf' n (mem_toFinset.mp hu) hn

theorem inv_failFetch (h : Inv cfg w) (hf : f ∈ (w.instances name).fetches) :
    Inv cfg (w.set name { w.instances name with
      gen := (w.instances name).gen.failFetch f.currentMax
      fetches := (w.instances name).fetches.erase f }) := by
  refine h.set (fun m hm => ?_) fun hgrow => ((h.instances name).mono hgrow).failFetch hf
  rcases mem_held.mp hm with hm | ⟨f', hf', hm⟩
  · exact mem_held.mpr (.inl hm)
  · exact mem_held.mpr (.inr ⟨f', mem_of_mem_erase hf', hm⟩)

/-! ### Finished ids and positions -/

theorem inv_finish (h : Inv cfg w) (hw : cfg.MayWrite name) {ids : List ℤ}
    (hids : ∀ n ∈ ids, n ∈ (w.instances name).gen.unfinishedIds) {g : Generator}
    (hg : (w.instances name).gen.markIdsAsFinished name ids = .ok g) :
    Inv cfg (w.set name { w.instances name with gen := g, rows := (w.instances name).rows ∪ ids.toFinset }) := by
  have hl := h.instances name
  obtain ⟨hu, hf⟩ := markIdsAsFinished_inWork hg
  set x : Instance := { w.instances name with gen := g, rows := (w.instances name).rows ∪ ids.toFinset } with hx
  have hheld : ∀ n ∈ x.held, n ∈ (w.instances name).held := by
    intro n hn
    refine mem_held.mpr ((mem_held.mp hn).imp (fun hn => ?_) id)
    rw [hx, hu] at hn
    exact (Finset.mem_sdiff.mp hn).1
  refine h.set hheld fun hgrow => ?_
  have hl' := hl.mono hgrow
  have hself : (w.set name x).ledger.held name = (x.held : Set ℤ) :=
    congrArg (fun x : Instance => (x.held : Set ℤ)) (update_self ..)
  -- the finished ids are held by nobody any more
  have hsettled : ∀ n ∈ ids, (w.set name x).ledger.Settled n := by
    intro n hn
    have hmem : n ∈ (w.instances name).held := mem_held.mpr (.inl (hids n hn))
    refine ⟨(h.held name n hmem).2, fun j hj => ?_⟩
    by_cases hjn : j = name
    · rw [hjn, hself] at hj
      rcases mem_held.mp (Finset.mem_coe.mp hj) with hj | ⟨f, hfm, hj⟩
      · rw [hx, hu, Finset.mem_sdiff] at hj
        exact hj.2 (mem_toFinset.mpr hn)
      · exact hl.apart f hfm n hj (hids n hn)
    · rcases hgrow.held j n hj with hj | hj
      · exact hjn (h.once j name n hj hmem)
      · exact absurd hj (not_lt.mpr (h.held name n hmem).2)
  have hcovered : ∀ n ∈ (w.set name x).ledger.held name, n ∈ (w.instances name).gen.unfinishedIds \ ids.toFinset ∨
      ∃ f ∈ (w.instances name).gen.inFlightFetches, f < n := by
    intro n hn
    rw [hself] at hn
    exact (mem_held.mp (Finset.mem_coe.mp hn)).imp (hu ▸ ·) hl.started_below
  have hothers : ∀ j, ¬ cfg.MayWrite j → (w.set name x).ledger.held j = ∅ := by
    intro j hj
    exact (held_set_of_ne (by rintro rfl; exact hj hw)).trans (h.not_writer j hj)
  obtain ⟨hs, hn⟩ := markIdsAsFinished_sound hl'.sound hl'.named hw hsettled hcovered hothers hg
  refine ⟨hs, hn, hf.trans hl.floors, hl'.floor_le, hl'.above, fun f hfm n hn hun => ?_, hl'.disjoint, fun n hn => ?_,
    fun hnw => absurd hw hnw⟩
  · rw [hx, hu] at hun
    exact hl.apart f hfm n hn (Finset.mem_sdiff.mp hun).1
  rcases Finset.mem_union.mp hn with hn | hn
  · exact hl'.rows n hn
  · have hn := mem_toFinset.mp hn
    exact ⟨hsettled n hn, (h.held name n (mem_held.mpr (.inl (hids n hn)))).1⟩

theorem inv_send (h : Inv cfg w) {token : ℤ} (hr : Reported w.ledger name (token * cfg.returnFactor))
    (h1 : 1 ≤ token * cfg.returnFactor) : Inv cfg { w with sent := (name, token) :: w.sent } :=
  { h with sent := forall_mem_cons.mpr ⟨⟨hr, h1⟩, h.sent⟩ }

theorem inv_receive (h : Inv cfg w) {sender : String} {token : ℤ} (hm : (sender, token) ∈ w.sent) (hne : sender ≠ name) :
    Inv cfg (w.set name { w.instances name with gen := (w.instances name).gen.advance name cfg sender token }) := by
  have hl := h.instances name
  obtain ⟨hr, h1⟩ := h.sent _ hm
  have hs := advance_sound hl.sound (h.covers name) hr hne h1
  have hn := advance_named hl.named hne token
  -- the ids in work are the same, and so is the ledger
  refine h.set (fun n hn => hn) fun hgrow => ?_
  exact { hl with sound := hs.mono hgrow, named := hn, rows := (hl.mono hgrow).rows }

end Preserved

/-! ## Steps and runs -/

section Runs

variable {cfg : Config} {w w' : World}

theorem step_inv (h : Inv cfg w) {a : Action} (hstep : w.step cfg a = some w') : Inv cfg w' := by
  cases World.step_cases hstep with
  | change hx =>
    cases hx with
    | startFetch hw => exact inv_startFetch h hw _
    | endFetch hf => exact inv_endFetch h hf
    | failFetch hf => exact inv_failFetch h hf
    | finish hw hids hg => exact inv_finish h hw hids hg
    | receive hm hne => exact inv_receive h hm hne
  | allocate hf hid => exact inv_allocate h hf hid
  | notFinished => exact h
  | @sendPosition name =>
    have hl := (h.instances name).sound
    refine inv_send h ?_ ?_ <;> rw [Generator.getCurrentTokenForWriter, if_pos rfl, mul_returnFactor]
    · exact hl.localMax
    · exact hl.localMax_pos
  | @sendRow name id hid hle =>
    have hl := h.instances name
    obtain ⟨hs, h1⟩ := hl.rows id hid
    refine inv_send h ?_ ?_ <;> rw [mul_returnFactor]
    · exact ⟨hs, hl.sound.localMax.own.le hle⟩
    · exact h1

theorem run_inv (h : Inv cfg w) {acts : List Action} (hrun : w.run cfg acts = some w') : Inv cfg w' :=
  run_preserves (fun hw hstep => step_inv hw hstep) h hrun

theorem inv_start {db : Database} (hdb : db.Consistent cfg) : Inv cfg (World.start cfg db) := by
  have hheld : ∀ name, ((World.start cfg db).instances name).held = ∅ := by
    intro name
    obtain ⟨-, -, hu, -⟩ := @start_sound cfg name db hdb
    show (start cfg name db).unfinishedIds ∪ ∅ = ∅
    rw [hu, Finset.union_empty]
  have hledger : (World.start cfg db).ledger = db.ledger := by
    unfold World.ledger Database.ledger
    simp only [hheld, Finset.coe_empty]
    rfl
  refine ⟨fun name => ?_, fun name n hn => ?_, fun i j n hn => ?_, fun _ hm => absurd hm not_mem_nil, hdb.one_le⟩
  · obtain ⟨hs, hn, hu, hf⟩ := @start_sound cfg name db hdb
    rw [hledger]
    exact ⟨hs, hn, hf, by simp [World.start], by simp [World.start], by simp [World.start], .nil, by simp [World.start],
      fun _ => ⟨rfl, hu⟩⟩
  · simp [hheld] at hn
  · simp [hheld] at hn

theorem step_lastValue {a : Action} (hstep : w.step cfg a = some w') : w.lastValue ≤ w'.lastValue := by
  cases World.step_cases hstep with
  | allocate _ hid => exact hid.le
  | _ => exact le_rfl

theorem run_lastValue {acts : List Action} (hrun : w.run cfg acts = some w') : w.lastValue ≤ w'.lastValue := by
  exact (run_rule (R := fun w w' : World => w.lastValue ≤ w'.lastValue) (fun _ => le_rfl)
    le_trans (fun _ hstep => ⟨trivial, step_lastValue hstep⟩) trivial hrun).2

end Runs

/-! ## The positions are safe -/

/-- The token is before the id, in the direction of the stream. -/
def Config.Before (cfg : Config) (token id : ℤ) : Prop := cfg.returnFactor * token < cfg.returnFactor * id

/-- The id can be allocated in some later state. -/
def World.WillAllocate (cfg : Config) (w : World) (id : ℤ) : Prop :=
  ∃ acts w₁ name f w₂, w.run cfg acts = some w₁ ∧ w₁.step cfg (.allocate name f id) = some w₂

theorem before_returned (cfg : Config) {p n : ℤ} : cfg.Before (cfg.returnFactor * p) (cfg.returnFactor * n) ↔ p < n := by
  unfold Config.Before Config.returnFactor
  split <;> omega

theorem World.WillAllocate.lt {cfg : Config} {w : World} {id : ℤ} (h : w.WillAllocate cfg id) : w.lastValue < id := by
  obtain ⟨acts, w₁, name, f, w₂, hrun, hstep⟩ := h
  simp only [World.step, Option.ite_none_right_eq_some] at hstep
  exact (run_lastValue hrun).trans_lt hstep.1.2.2

/-- **Positions are safe.** In every reachable state, the persisted token of an instance is before every id that is to
be allocated, before every id that the instance itself holds, and, if the writers are configured, before every id that
any instance holds.  The positions that an instance reports of itself are before every id it holds or is to be
allocated. -/
theorem positions_safe (cfg : Config) (db : Database) (hdb : db.Consistent cfg) (acts : List Action) (w : World)
    (hrun : (World.start cfg db).run cfg acts = some w) (i : String) :
    (∀ j, cfg.writers ≠ [] ∨ i = j → ∀ n ∈ (w.instances j).held,
      cfg.Before ((w.instances i).gen.getPersistedUptoPosition cfg) (cfg.returnFactor * n)) ∧
    (∀ n, w.WillAllocate cfg n →
      cfg.Before ((w.instances i).gen.getPersistedUptoPosition cfg) (cfg.returnFactor * n)) ∧
    (cfg.MayWrite i → ∀ n, n ∈ (w.instances i).held ∨ w.WillAllocate cfg n →
      cfg.Before ((w.instances i).gen.getCurrentTokenForWriter i cfg i) (cfg.returnFactor * n) ∧
      cfg.Before ((w.instances i).gen.getMinimalLocalCurrentToken i cfg) (cfg.returnFactor * n)) := by
  have hinv := run_inv (inv_start hdb) hrun
  have hs := (hinv.instances i).sound
  have hclear : ∀ {p}, w.ledger.ClearOf i p → ∀ n, n ∈ (w.instances i).held ∨ w.WillAllocate cfg n → p < n := by
    rintro p hp n (hn | hn)
    · exact hp.2 n hn
    · exact hp.1.trans_lt hn.lt
  refine ⟨fun j hj n hn => (before_returned cfg).mpr ?_, fun n hn => (before_returned cfg).mpr ?_, fun hw n hn => ⟨?_, ?_⟩⟩
  · rcases hj with hw | rfl
    · exact (hs.persisted.all hw j).2 n hn
    · exact hs.persisted.own.2 n hn
  · exact hclear hs.persisted.own n (.inr hn)
  · rw [Generator.getCurrentTokenForWriter, if_pos rfl, before_returned]
    exact hclear hs.localMax.own n hn
  · obtain ⟨p, hp, -⟩ := (hinv.instances i).named.own hw
    rw [Generator.getMinimalLocalCurrentToken, hp, Option.getD_some, before_returned]
    exact hclear (hs.positions i p hp).own n hn

/-- **Ids are given out once.**  In every run an id in work belongs to one instance, no instance has persisted a row under
it, and the ids to come are above all ids in work and all ids of rows. -/
theorem ids_unique (cfg : Config) (db : Database) (hdb : db.Consistent cfg) (acts : List Action) (w : World)
    (hrun : (World.start cfg db).run cfg acts = some w) :
    (∀ i j n, n ∈ (w.instances i).held → n ∈ (w.instances j).held → i = j) ∧
    (∀ i j, ∀ n ∈ (w.instances i).rows, n ∉ (w.instances j).held) ∧
    ∀ i n, n ∈ (w.instances i).held ∨ n ∈ (w.instances i).rows → ∀ m, w.WillAllocate cfg m → n < m := by
  have hinv := run_inv (inv_start hdb) hrun
  refine ⟨hinv.once, fun i j n hn => ((hinv.instances i).rows n hn).1.2 j, fun i n hn m hm => ?_⟩
  refine lt_of_le_of_lt ?_ hm.lt
  rcases hn with hn | hn
  · exact (hinv.held i n hn).2
  · exact ((hinv.instances i).rows n hn).1.1

namespace TwoWriters

/-- A new stream: the first id will be 2. -/
def db : Database := ⟨∅, [], 1⟩

/-- The instance `b` has taken 2 and is at work on it; `a` has taken and finished 3. -/
def overtake : List Action :=
  [.startFetch "b" 1, .allocate "b" ⟨1, 1, []⟩ 2, .endFetch "b" ⟨1, 1, [2]⟩,
    .startFetch "a" 1, .allocate "a" ⟨1, 1, []⟩ 3, .endFetch "a" ⟨1, 1, [3]⟩, .finish "a" [3]]

theorem consistent (cfg : Config) : db.Consistent cfg := ⟨le_rfl, by simp [db], by simp [db]⟩

/-- Without configured writers, `a` does not know of `b`, and its token passes the id that `b` holds. -/
theorem implicit_writer_overtaken :
    ∃ w, (World.start ⟨[], true⟩ db).run ⟨[], true⟩ overtake = some w ∧ 2 ∈ (w.instances "b").held ∧
      (w.instances "a").gen.getPersistedUptoPosition ⟨[], true⟩ = 3 := by
  have h : ((World.start ⟨[], true⟩ db).run ⟨[], true⟩ overtake).map (fun w => (decide (2 ∈ (w.instances "b").held),
      (w.instances "a").gen.getPersistedUptoPosition ⟨[], true⟩)) = some (true, 3) := by decide +kernel
  obtain ⟨w, hw, h⟩ := Option.map_eq_some_iff.mp h
  obtain ⟨h2, h3⟩ := Prod.mk.inj h
  exact ⟨w, hw, of_decide_eq_true h2, h3⟩

/-- With both configured, the token of `a` stays before it. -/
theorem positions_safe_overtake :
    ∃ w, (World.start ⟨["a", "b"], true⟩ db).run ⟨["a", "b"], true⟩ overtake = some w ∧ 2 ∈ (w.instances "b").held ∧
      Config.Before ⟨["a", "b"], true⟩ ((w.instances "a").gen.getPersistedUptoPosition ⟨["a", "b"], true⟩) (1 * 2) := by
  have h : ((World.start ⟨["a", "b"], true⟩ db).run ⟨["a", "b"], true⟩ overtake).map
      (fun w => decide (2 ∈ (w.instances "b").held)) = some true := by decide +kernel
  obtain ⟨w, hw, h⟩ := Option.map_eq_some_iff.mp h
  exact ⟨w, hw, of_decide_eq_true h, (positions_safe _ db (consistent _) overtake w hw "a").1 "b" (.inl (by simp)) 2
    (of_decide_eq_true h)⟩

theorem overtake_unique : ∃ w, (World.start ⟨["a", "b"], true⟩ db).run ⟨["a", "b"], true⟩ overtake = some w ∧
    2 ∈ (w.instances "b").held ∧ 2 ∉ (w.instances "a").held := by
  have h : ((World.start ⟨["a", "b"], true⟩ db).run ⟨["a", "b"], true⟩ overtake).map
      (fun w => decide (2 ∈ (w.instances "b").held)) = some true := by decide +kernel
  obtain ⟨w, hw, h⟩ := Option.map_eq_some_iff.mp h
  have hb := of_decide_eq_true h
  exact ⟨w, hw, hb, fun ha => absurd ((ids_unique _ db (consistent _) overtake w hw).1 "a" "b" 2 ha hb) (by decide)⟩

end TwoWriters

end Synapse.IdGen
