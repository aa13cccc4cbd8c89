import Mathlib.Algebra.Order.Ring.Abs
import Synapse.IdGen.Positions

/-!
# Synapse.IdGen.Monotone — positions do not move backwards

Each locked part of a generator, with any arguments, in any order.

* `Call`, `Call.apply`: the locked parts that change the state; `calls`: any interleaving of them.
* `apply_behind`, `calls_behind`: a call leaves no position ahead of what it becomes.
* `Onwards`: what the tokens that a generator returns do.
* **`positions_onwards`**: they move in the direction of the stream, and in absolute value.
-/

namespace Synapse.IdGen

open Option Finmap Generator

/-- `get_positions()`, at a name. -/
def Generator.getPositions (g : Generator) (cfg : Config) (name : String) : Option ℤ :=
  (g.currentPositions.lookup name).map fun i => cfg.returnFactor * i

inductive Call where
  | startFetch
  | endFetch (currentMax : ℤ) (streamIds : List ℤ)
  | failFetch (currentMax : ℤ)
  | markIdsAsFinished (nextIds : List ℤ)
  | advance (instanceName : String) (newId : ℤ)

section Calls

variable (cfg : Config) (self : String)

def Call.apply (g : Generator) : Call → Generator
  | .startFetch => g.startFetch
  | .endFetch currentMax streamIds => g.endFetch currentMax streamIds
  | .failFetch currentMax => g.failFetch currentMax
  | .markIdsAsFinished nextIds =>
    match g.markIdsAsFinished self nextIds with
    | .ok g => g
    | .error _ => g
  | .advance instanceName newId => g.advance self cfg instanceName newId

def calls (g : Generator) : List Call → Generator := List.foldl (Call.apply cfg self) g

end Calls

/-- No position of `g` is ahead of the one of `g'`. -/
structure Behind (g g' : Generator) : Prop where
  persisted : g.persistedUptoPosition ≤ g'.persistedUptoPosition
  localMax : g.maxPositionOfLocalInstance ≤ g'.maxPositionOfLocalInstance
  seen : g.maxSeenAllocatedStreamId ≤ g'.maxSeenAllocatedStreamId
  positions : ∀ name p, g.currentPositions.lookup name = some p →
    ∃ p', g'.currentPositions.lookup name = some p' ∧ p ≤ p'

section Behind

variable {g g' g'' : Generator} {self : String}

theorem Behind.refl (g : Generator) : Behind g g := ⟨le_rfl, le_rfl, le_rfl, fun _ p hp => ⟨p, hp, le_rfl⟩⟩

theorem Behind.trans (h : Behind g g') (h' : Behind g' g'') : Behind g g'' where
  persisted := h.persisted.trans h'.persisted
  localMax := h.localMax.trans h'.localMax
  seen := h.seen.trans h'.seen
  positions name p hp := by
    obtain ⟨p', hp', hle⟩ := h.positions name p hp
    obtain ⟨p'', hp'', hle'⟩ := h'.positions name p' hp'
    exact ⟨p'', hp'', hle.trans hle'⟩

theorem positions_raised {d : Finmap fun _ : String => ℤ} (name : String) (q : ℤ) {j : String} {p : ℤ}
    (hp : d.lookup j = some p) :
    ∃ p', (d.insert name (max q ((d.lookup name).getD 0))).lookup j = some p' ∧ p ≤ p' := by
  by_cases hj : j = name
  · subst hj
    refine ⟨_, lookup_insert _, ?_⟩
    rw [hp]
    exact le_max_right _ _
  · exact ⟨p, (lookup_insert_of_ne _ hj).trans hp, le_rfl⟩

theorem le_skipRun (known : List ℤ) (p : ℤ) : p ≤ (skipRun p known).1 :=
  (skipRun_inv (P := fun _ => True) (fun _ _ _ => trivial) known p trivial fun _ _ => trivial).1.2

theorem addPersistedPosition_behind (g : Generator) (self : String) (newId : ℤ) :
    Behind g (g.addPersistedPosition self newId) where
  persisted := (le_max_right _ _).trans (le_skipRun _ _)
  localMax := by
    show _ ≤ if g.Busy then _ else _
    split
    · exact le_max_left _ _
    · exact (le_max_left _ _).trans (le_max_right _ _)
  seen := le_rfl
  positions _ p hp := ⟨p, hp, le_rfl⟩

theorem foldl_addPersistedPosition_behind (self : String) (nextIds : List ℤ) (g : Generator) :
    Behind g (nextIds.foldl (fun g nextId => g.addPersistedPosition self nextId) g) :=
  List.foldlRecOn nextIds _ (.refl g) fun g' h n _ => h.trans (addPersistedPosition_behind g' self n)

theorem moveTo_behind (g : Generator) (self : String) (new : Option ℤ) : Behind g (g.moveTo self new) := by
  cases new with
  | none => exact .refl g
  | some c =>
    rw [moveTo]
    split
    · exact .refl g
    refine ⟨le_rfl, le_max_right _ _, le_rfl, fun name p hp => ?_⟩
    dsimp only [ourCurrentPosition]
    rw [max_comm]
    exact positions_raised self c hp

theorem markIdsAsFinished_behind {nextIds : List ℤ} (h : g.markIdsAsFinished self nextIds = .ok g') : Behind g g' := by
  obtain ⟨⟨new, finished⟩, -, h⟩ := exc_bind_ok h
  cases h
  have hfinished : Behind g { g.moveToFinished nextIds with finishedIds := finished } :=
    ⟨le_rfl, le_rfl, le_rfl, fun _ p hp => ⟨p, hp, le_rfl⟩⟩
  exact (hfinished.trans (moveTo_behind _ self new)).trans (foldl_addPersistedPosition_behind self nextIds _)

theorem advance_behind (cfg : Config) (g : Generator) (self instanceName : String) (newId : ℤ) :
    Behind g (g.advance self cfg instanceName newId) := by
  refine .trans ?_ (addPersistedPosition_behind _ self _)
  exact ⟨le_rfl, le_rfl, le_max_left _ _, fun name p hp => positions_raised instanceName _ hp⟩

theorem endFetch_behind (g : Generator) (currentMax : ℤ) (streamIds : List ℤ) :
    Behind g (g.endFetch currentMax streamIds) := by
  refine ⟨le_rfl, le_rfl, ?_, fun _ p hp => ⟨p, hp, le_rfl⟩⟩
  show _ ≤ Option.elim _ _ _
  rcases Lib.greatest (g.unfinishedIds ∪ streamIds.toFinset) with - | m
  · exact le_rfl
  · exact le_max_left _ _

theorem apply_behind (cfg : Config) (self : String) (g : Generator) (call : Call) :
    Behind g (call.apply cfg self g) := by
  cases call with
  | startFetch | failFetch => exact ⟨le_rfl, le_rfl, le_rfl, fun _ p hp => ⟨p, hp, le_rfl⟩⟩
  | endFetch currentMax streamIds => exact endFetch_behind g currentMax streamIds
  | markIdsAsFinished nextIds =>
    show Behind g (match g.markIdsAsFinished self nextIds with | .ok g => g | .error _ => g)
    split
    · next g' hok => exact markIdsAsFinished_behind hok
    · exact .refl g
  | advance instanceName newId => exact advance_behind cfg g self instanceName newId

theorem calls_behind (cfg : Config) (self : String) (cs : List Call) (g : Generator) :
    Behind g (calls cfg self g cs) := by
  induction cs generalizing g with
  | nil => exact .refl g
  | cons call cs ih => exact (apply_behind cfg self g call).trans (ih _)

end Behind

/-! ## Positions are not negative -/

/-- The positions inside, which a negative stream negates. -/
structure NonNeg (g : Generator) : Prop where
  persisted : 0 ≤ g.persistedUptoPosition
  localMax : 0 ≤ g.maxPositionOfLocalInstance
  seen : 0 ≤ g.maxSeenAllocatedStreamId
  positions : ∀ name p, g.currentPositions.lookup name = some p → 0 ≤ p

section NonNeg

variable {g g' : Generator} {self : String}

theorem NonNeg.of_behind (h : NonNeg g) (hb : Behind g g')
    (hpos : ∀ name p, g'.currentPositions.lookup name = some p → 0 ≤ p) : NonNeg g' :=
  ⟨h.persisted.trans hb.persisted, h.localMax.trans hb.localMax, h.seen.trans hb.seen, hpos⟩

theorem nonneg_raised {d : Finmap fun _ : String => ℤ} (h : ∀ name p, d.lookup name = some p → 0 ≤ p) (name : String)
    (q : ℤ) {j : String} {p : ℤ} (hp : (d.insert name (max q ((d.lookup name).getD 0))).lookup j = some p) : 0 ≤ p := by
  refine Lib.insert_all h (le_trans ?_ (le_max_right _ _)) j p hp
  rcases hd : d.lookup name with - | p
  · exact le_rfl
  · exact h name p hd

theorem moveTo_nonneg (h : ∀ name p, g.currentPositions.lookup name = some p → 0 ≤ p) (new : Option ℤ) :
    ∀ name p, (g.moveTo self new).currentPositions.lookup name = some p → 0 ≤ p := by
  intro name p hp
  cases new with
  | none => exact h name p hp
  | some c =>
    rw [moveTo] at hp
    split at hp
    · exact h name p hp
    · dsimp only [ourCurrentPosition] at hp
      rw [max_comm] at hp
      exact nonneg_raised h self c hp

theorem apply_nonneg (cfg : Config) (self : String) (h : NonNeg g) (call : Call) : NonNeg (call.apply cfg self g) := by
  refine h.of_behind (apply_behind cfg self g call) ?_
  cases call with
  | startFetch | endFetch | failFetch => exact h.positions
  | markIdsAsFinished nextIds =>
    show ∀ name p, (match g.markIdsAsFinished self nextIds with | .ok g => g | .error _ => g).currentPositions.lookup
      name = some p → 0 ≤ p
    split
    · next g' hok =>
      obtain ⟨⟨new, finished⟩, -, hok⟩ := exc_bind_ok hok
      cases hok
      rw [(foldl_addPersistedPosition_eq self _ nextIds).1]
      exact @moveTo_nonneg { g.moveToFinished nextIds with finishedIds := finished } self h.positions new
    · exact h.positions
  | advance instanceName newId => exact fun name p hp => nonneg_raised h.positions instanceName _ hp

theorem calls_nonneg (cfg : Config) (self : String) (cs : List Call) (h : NonNeg g) : NonNeg (calls cfg self g cs) := by
  induction cs generalizing g with
  | nil => exact h
  | cons call cs ih => exact ih (apply_nonneg cfg self h call)

theorem start_nonneg {cfg : Config} {db : Database} (hdb : db.Consistent cfg) (self : String) :
    NonNeg (start cfg self db) := by
  obtain ⟨hl, hseen, -, -, -⟩ := @start_loading cfg self db hdb
  have hpersisted := hl.sound.one_le
  have hlocal := hl.sound.localMax_pos
  refine ⟨by omega, by omega, by omega, fun name p hp => ?_⟩
  have := (hl.passed name p hp).1
  omega

end NonNeg

/-! ## The tokens -/

/-- The tokens that the generator returns move on, by the relation. -/
structure Onwards (le : ℤ → ℤ → Prop) (cfg : Config) (self : String) (g g' : Generator) : Prop where
  persisted : le (g.getPersistedUptoPosition cfg) (g'.getPersistedUptoPosition cfg)
  writer : ∀ name, le (g.getCurrentTokenForWriter self cfg name) (g'.getCurrentTokenForWriter self cfg name)
  listed : ∀ name token, g.getPositions cfg name = some token →
    ∃ token', g'.getPositions cfg name = some token' ∧ le token token'
  localMax : le (cfg.returnFactor * g.maxPositionOfLocalInstance) (cfg.returnFactor * g'.maxPositionOfLocalInstance)
  seen : le (cfg.returnFactor * g.maxSeenAllocatedStreamId) (cfg.returnFactor * g'.maxSeenAllocatedStreamId)

section Onwards

variable {g g' : Generator} {cfg : Config} {self : String}

theorem Behind.other (h : Behind g g') (name : String) :
    max ((g.currentPositions.lookup name).getD g.persistedUptoPosition) g.persistedUptoPosition ≤
      max ((g'.currentPositions.lookup name).getD g'.persistedUptoPosition) g'.persistedUptoPosition := by
  refine max_le ?_ (h.persisted.trans (le_max_right _ _))
  rcases hp : g.currentPositions.lookup name with - | p
  · exact h.persisted.trans (le_max_right _ _)
  · obtain ⟨p', hp', hle⟩ := h.positions name p hp
    rw [hp']
    exact hle.trans (le_max_left _ _)

/-- It is enough that the relation follows from the order of the positions inside. -/
theorem Behind.onwards {le : ℤ → ℤ → Prop} {P : ℤ → Prop} (h : Behind g g')
    (hle : ∀ p p', P p → p ≤ p' → le (cfg.returnFactor * p) (cfg.returnFactor * p'))
    (hpersisted : P g.persistedUptoPosition) (hlocal : P g.maxPositionOfLocalInstance)
    (hseen : P g.maxSeenAllocatedStreamId)
    (hpos : ∀ name p, g.currentPositions.lookup name = some p → P p) : Onwards le cfg self g g' where
  persisted := hle _ _ hpersisted h.persisted
  writer name := by
    rw [getCurrentTokenForWriter, getCurrentTokenForWriter]
    split
    · exact hle _ _ hlocal h.localMax
    refine hle _ _ ?_ (h.other name)
    rcases max_choice ((g.currentPositions.lookup name).getD g.persistedUptoPosition) g.persistedUptoPosition with
      hmax | hmax
    · rw [hmax]
      rcases hp : g.currentPositions.lookup name with - | p
      · exact hpersisted
      · exact hpos name p hp
    · rw [hmax]
      exact hpersisted
  listed name token htoken := by
    obtain ⟨p, hp, rfl⟩ := map_eq_some_iff.mp htoken
    obtain ⟨p', hp', hpp'⟩ := h.positions name p hp
    exact ⟨_, by rw [getPositions, hp']; rfl, hle p p' (hpos name p hp) hpp'⟩
  localMax := hle _ _ hlocal h.localMax
  seen := hle _ _ hseen h.seen

theorem returnFactor_mul_mul (p : ℤ) : cfg.returnFactor * (cfg.returnFactor * p) = p := by
  rw [mul_comm, mul_returnFactor]

theorem abs_returnFactor_mul {p : ℤ} (h : 0 ≤ p) : |cfg.returnFactor * p| = p := by
  unfold Config.returnFactor
  split
  · rw [one_mul, abs_of_nonneg h]
  · rw [neg_one_mul, abs_neg, abs_of_nonneg h]

/-- **Positions do not move backwards.**  Whatever happens to a generator after it has started, the tokens it returns
move in the direction of the stream.  If the database has positions of that direction to start from, they grow in
absolute value. -/
theorem positions_onwards (cfg : Config) (self : String) (db : Database) (before after : List Call) :
    Onwards (fun t t' => cfg.returnFactor * t ≤ cfg.returnFactor * t') cfg self
        (calls cfg self (start cfg self db) before) (calls cfg self (start cfg self db) (before ++ after)) ∧
      (db.Consistent cfg → Onwards (fun t t' => |t| ≤ |t'|) cfg self
        (calls cfg self (start cfg self db) before) (calls cfg self (start cfg self db) (before ++ after))) := by
  have happend : calls cfg self (start cfg self db) (before ++ after) =
      calls cfg self (calls cfg self (start cfg self db) before) after := List.foldl_append ..
  have hbehind := calls_behind cfg self after (calls cfg self (start cfg self db) before)
  rw [happend]
  refine ⟨hbehind.onwards (fun p p' _ hle => ?_) trivial trivial trivial fun _ _ _ => trivial,
    fun hdb => ?_⟩
  · rwa [returnFactor_mul_mul, returnFactor_mul_mul]
  have hnonneg := calls_nonneg cfg self before (start_nonneg hdb self)
  refine hbehind.onwards (fun p p' hp hle => ?_) hnonneg.persisted hnonneg.localMax
    hnonneg.seen hnonneg.positions
  rwa [abs_returnFactor_mul hp, abs_returnFactor_mul (hp.trans hle)]

end Onwards

end Synapse.IdGen
