import Mathlib.Data.Finset.Sort
import Synapse.IdGen.Finished

/-!
# Synapse.Replication.Updates — the rows that a replication stream returns

`Stream.get_updates` of `synapse/replication/tcp/streams/_base.py`, on the instances of a stream with a multi-writer id
generator.  Tokens are positive here: the backfill stream negates those of its generator.

* `Stream`: a stream object, with the rows that its fetches have returned.
* `System.step`: the instances, the rows they write, and their fetches, which wait for the update function.
* `System.Ordered`: ids are finished in order.
* `Account`: what each fetch returned, in any run; `Complete`: what it must have returned, in ordered runs.
* **`ordered_fetched_once`**: in ordered runs every finished row is returned exactly once.
* **`returned_at_most_once`**: in any run no row is returned twice.
* `Overtaken.row_lost`: a run in which one is not.
-/

namespace Synapse.Replication

open Lib IdGen Finset Option Function

/-- A `Stream` on one instance. -/
structure Stream where
  lastToken : ℤ
  /-- The range that a call of `get_updates` has asked the update function for. -/
  query : Option (ℤ × ℤ)
  /-- The ids of the rows that each call has returned. -/
  returned : List (List ℤ)

/-- How many times the fetches have returned a row. -/
def Stream.timesReturned (x : Stream) (id : ℤ) : ℕ := x.returned.flatten.count id

abbrev ascending {α : Type} [LinearOrder α] (s : Finset α) : List α := s.sort (· ≤ ·)

/-- The instances of a stream, the ids of the rows each has written, and their stream objects. -/
structure System where
  world : World
  written : String → Finset ℤ
  streams : String → Stream

inductive Action where
  /-- something happens to the id generators -/
  | world (a : IdGen.Action)
  /-- an instance writes a row under an id it holds -/
  | write (name : String) (id : ℤ)
  /-- `get_updates()`, up to the update function -/
  | getUpdates (name : String)
  /-- the update function returns the rows up to a token -/
  | updated (name : String) (upto : ℤ)
  /-- the update function raises -/
  | failed (name : String)

namespace System

variable (cfg : Config) (s : System) (name : String)

def currentToken : ℤ := cfg.returnFactor * (s.world.instances name).gen.getCurrentTokenForWriter name cfg name

def minimalLocalCurrentToken : ℤ :=
  cfg.returnFactor * (s.world.instances name).gen.getMinimalLocalCurrentToken name cfg

/-- Each instance constructs its stream when it has started. -/
def start (db : Database) : System where
  world := World.start cfg db
  written _ := ∅
  streams name :=
    ⟨cfg.returnFactor * (IdGen.start cfg name db).getCurrentTokenForWriter name cfg name, none, []⟩

def setStream (x : Stream) : System := { s with streams := Function.update s.streams name x }

/-- The rows of the instance with ids in a range. -/
def rowsBetween (from_ upto : ℤ) : List ℤ := ascending ((s.written name).filter fun id => from_ < id ∧ id ≤ upto)

/-- One transition, if it is possible.  The calls of `get_updates` do not overlap. -/
def step : Action → Option System
  | .world a => (s.world.step cfg a).map fun w => { s with world := w }
  | .write name id =>
    if id ∈ (s.world.instances name).gen.unfinishedIds then
      some { s with written := Function.update s.written name (insert id (s.written name)) }
    else none
  | .getUpdates name =>
    let x := s.streams name
    let currentToken := s.currentToken cfg name
    if x.query = none then
      if s.minimalLocalCurrentToken cfg name ≤ x.lastToken ∨ x.lastToken = currentToken then
        some (s.setStream name ⟨currentToken, none, x.returned ++ [[]]⟩)
      else some (s.setStream name { x with query := some (x.lastToken, currentToken) })
    else none
  | .updated name upto =>
    let x := s.streams name
    match x.query with
    | some (fromToken, uptoToken) =>
      -- the rows may be limited, and the token is then that of the last one
      if fromToken ≤ upto ∧ upto ≤ uptoToken then
        some (s.setStream name ⟨upto, none, x.returned ++ [s.rowsBetween name fromToken upto]⟩)
      else none
    | none => none
  | .failed name =>
    let x := s.streams name
    if x.query ≠ none then some (s.setStream name { x with query := none }) else none

/-- `get_updates()` where the update function returns all rows at once. -/
def fetch : Option System := do
  let s ← s.step cfg (.getUpdates name)
  match (s.streams name).query with
  | some (_, uptoToken) => s.step cfg (.updated name uptoToken)
  | none => pure s

/-- A run: transitions one after the other. -/
def run : List Action → Option System := List.foldlM (step cfg) s

/-- **Ids are finished in order**: none while a fetch of ids that started below it is in flight. -/
def Ordered : Action → Prop
  | .world a => s.world.Ordered a
  | _ => True

instance (a : Action) : Decidable (s.Ordered a) := by
  unfold System.Ordered
  split <;> infer_instance

def runOrdered : List Action → Option System := List.foldlM (fun s a => if s.Ordered a then s.step cfg a else none) s

theorem currentToken_eq : s.currentToken cfg name = (s.world.instances name).gen.maxPositionOfLocalInstance := by
  rw [currentToken, Generator.getCurrentTokenForWriter, if_pos rfl, returnFactor_mul_mul]

end System

/-- What a transition does, case by case. -/
inductive Step (cfg : Config) (s : System) : Action → System → Prop
  | world {a w} (hw : s.world.step cfg a = some w) : Step cfg s (.world a) { s with world := w }
  | write {name id} (hid : id ∈ (s.world.instances name).gen.unfinishedIds) :
    Step cfg s (.write name id) { s with written := Function.update s.written name (insert id (s.written name)) }
  | skip {name} (hskip : s.minimalLocalCurrentToken cfg name ≤ (s.streams name).lastToken ∨
      (s.streams name).lastToken = s.currentToken cfg name) :
    Step cfg s (.getUpdates name) (s.setStream name ⟨s.currentToken cfg name, none, (s.streams name).returned ++ [[]]⟩)
  | ask {name} : Step cfg s (.getUpdates name) (s.setStream name
      { s.streams name with query := some ((s.streams name).lastToken, s.currentToken cfg name) })
  | answer {name fromToken uptoToken upto} (hquery : (s.streams name).query = some (fromToken, uptoToken))
      (hfrom : fromToken ≤ upto) (hupto : upto ≤ uptoToken) : Step cfg s (.updated name upto)
        (s.setStream name ⟨upto, none, (s.streams name).returned ++ [s.rowsBetween name fromToken upto]⟩)
  | fail {name} : Step cfg s (.failed name) (s.setStream name { s.streams name with query := none })

variable {a : Action}

theorem step_cases {cfg : Config} {s s' : System} (h : s.step cfg a = some s') : Step cfg s a s' := by
  cases a with
  | world a =>
    obtain ⟨w, hw, rfl⟩ := map_eq_some_iff.mp h
    exact .world hw
  | write name id =>
    obtain ⟨hid, rfl⟩ := ite_some_none_eq_some.mp h
    exact .write hid
  | getUpdates name =>
    obtain ⟨-, h⟩ := ite_none_right_eq_some.mp h
    split at h <;> cases h
    · exact .skip ‹_›
    · exact .ask
  | updated name upto =>
    rw [System.step] at h
    split at h
    · obtain ⟨⟨hfrom, hupto⟩, rfl⟩ := ite_some_none_eq_some.mp h
      exact .answer ‹_› hfrom hupto
    · cases h
  | failed name =>
    obtain ⟨-, rfl⟩ := ite_some_none_eq_some.mp h
    exact .fail

/-! ## In any run -/

/-- What the fetches of an instance have returned. -/
structure Account (x : Instance) (written : Finset ℤ) (stream : Stream) : Prop where
  known : ∀ id ∈ written, id ∈ x.gen.unfinishedIds ∨ id ∈ x.rows
  last_le : stream.lastToken ≤ x.gen.maxPositionOfLocalInstance
  query : ∀ q, stream.query = some q → q.1 = stream.lastToken ∧ q.2 ≤ x.gen.maxPositionOfLocalInstance
  /-- A row is returned once, when the position passes it. -/
  once : ∀ id, stream.timesReturned id ≤ if id ∈ written ∧ id ≤ stream.lastToken then 1 else 0

structure Inv (cfg : Config) (s : System) : Prop where
  world : IdGen.Inv cfg s.world
  account : ∀ name, Account (s.world.instances name) (s.written name) (s.streams name)

section Account

variable {x : Instance} {written : Finset ℤ} {stream : Stream}

section

variable (h : Account x written stream)
include h

theorem Account.write {id : ℤ} (hid : id ∈ x.gen.unfinishedIds)
    (hlt : x.gen.maxPositionOfLocalInstance < id) : Account x (insert id written) stream where
  __ := h
  known n hn := by
    rcases mem_insert.mp hn with rfl | hn
    · exact .inl hid
    · exact h.known n hn
  once n := by
    refine (h.once n).trans (le_of_eq (if_congr ?_ rfl rfl))
    rw [mem_insert]
    refine ⟨fun hn => ⟨.inr hn.1, hn.2⟩, fun hn => ⟨hn.1.resolve_left ?_, hn.2⟩⟩
    rintro rfl
    exact absurd hn.2 (not_le.mpr (h.last_le.trans_lt hlt))

theorem Account.skip : Account x written ⟨x.gen.maxPositionOfLocalInstance, none, stream.returned ++ [[]]⟩ where
  known := h.known
  last_le := le_rfl
  query q hq := by cases hq
  once id := by
    have hcount : Stream.timesReturned ⟨x.gen.maxPositionOfLocalInstance, none, stream.returned ++ [[]]⟩ id =
        stream.timesReturned id := by
      simp [Stream.timesReturned]
    rw [hcount]
    refine (h.once id).trans ?_
    split
    · next hpassed => rw [if_pos ⟨hpassed.1, hpassed.2.trans h.last_le⟩]
    · exact Nat.zero_le _

theorem Account.ask :
    Account x written { stream with query := some (stream.lastToken, x.gen.maxPositionOfLocalInstance) } where
  __ := h
  query q hq := by
    cases hq
    exact ⟨rfl, le_rfl⟩

theorem Account.fail : Account x written { stream with query := none } where
  __ := h
  query q hq := by cases hq

end

theorem timesReturned_answer (upto : ℤ) (id : ℤ) : Stream.timesReturned ⟨upto, none, stream.returned ++
        [ascending (written.filter fun id => stream.lastToken < id ∧ id ≤ upto)]⟩ id =
      stream.timesReturned id + if id ∈ written ∧ stream.lastToken < id ∧ id ≤ upto then 1 else 0 := by
  rw [Stream.timesReturned, List.flatten_append, List.flatten_singleton, List.count_append]
  congr 1
  have hmem : id ∈ ascending (written.filter fun id => stream.lastToken < id ∧ id ≤ upto) ↔
      id ∈ written ∧ stream.lastToken < id ∧ id ≤ upto := by
    rw [mem_sort, mem_filter]
  split
  · next hin => exact List.count_eq_one_of_mem (sort_nodup ..) (hmem.mpr hin)
  · next hout => exact List.count_eq_zero.mpr fun hin => hout (hmem.mp hin)

theorem Account.answer (h : Account x written stream) {upto : ℤ} (hle : stream.lastToken ≤ upto)
    (hupto : upto ≤ x.gen.maxPositionOfLocalInstance) :
    Account x written ⟨upto, none, stream.returned ++
      [ascending (written.filter fun id => stream.lastToken < id ∧ id ≤ upto)]⟩ where
  known := h.known
  last_le := hupto
  query q hq := by cases hq
  once id := by
    have honce := h.once id
    rw [timesReturned_answer]
    by_cases hid : id ∈ written
    · simp only [hid, true_and] at honce ⊢
      split_ifs at honce ⊢ <;> omega
    · simpa only [hid, false_and, if_false, add_zero] using honce

end Account

section Steps

variable {cfg : Config} {s s' : System} {name : String}

theorem currentToken_lt (h : IdGen.Inv cfg s.world) {id : ℤ} (hid : id ∈ (s.world.instances name).gen.unfinishedIds) :
    (s.world.instances name).gen.maxPositionOfLocalInstance < id :=
  (h.instances name).sound.localMax.own.2 id (mem_coe.mpr (mem_held.mpr (.inl hid)))

theorem forall_setStream {P : String → Stream → Prop} (h : ∀ j, P j (s.streams j)) {stream : Stream}
    (hstream : P name stream) : ∀ j, P j ((s.setStream name stream).streams j) :=
  (forall_update_iff s.streams P).mpr ⟨hstream, fun j _ => h j⟩

theorem Inv.setStream (h : Inv cfg s) {stream : Stream}
    (hstream : Account (s.world.instances name) (s.written name) stream) : Inv cfg (s.setStream name stream) :=
  ⟨h.world, forall_setStream h.account hstream⟩

theorem step_inv (h : Inv cfg s) (hstep : Step cfg s a s') : Inv cfg s' := by
  cases hstep with
  | world hw =>
    refine ⟨IdGen.step_inv h.world hw, fun j => ?_⟩
    have hj := h.account j
    have hle := (step_grows hw j).behind.localMax
    exact ⟨fun id hid => (step_grows hw j).kept (hj.known id hid), hj.last_le.trans hle,
      fun q hq => ⟨(hj.query q hq).1, (hj.query q hq).2.trans hle⟩, hj.once⟩
  | write hid =>
    refine ⟨h.world, (forall_update_iff s.written fun j written =>
      Account (s.world.instances j) written (s.streams j)).mpr ⟨?_, fun j _ => h.account j⟩⟩
    exact (h.account _).write hid (currentToken_lt h.world hid)
  | skip =>
    rw [System.currentToken_eq]
    exact h.setStream (h.account _).skip
  | ask =>
    rw [System.currentToken_eq]
    exact h.setStream (h.account _).ask
  | answer hquery hfrom hupto =>
    obtain ⟨rfl, hle⟩ := (h.account _).query _ hquery
    exact h.setStream ((h.account _).answer hfrom (hupto.trans hle))
  | fail => exact h.setStream (h.account _).fail

/-- The position has not moved backwards, and what it had passed has not been returned any more. -/
structure Stream.Passed (x y : Stream) : Prop where
  le : x.lastToken ≤ y.lastToken
  same : ∀ id ≤ x.lastToken, y.timesReturned id = x.timesReturned id

theorem Stream.Passed.refl (x : Stream) : x.Passed x := ⟨le_rfl, fun _ _ => rfl⟩

theorem step_passed (h : Inv cfg s) (hstep : Step cfg s a s') (j : String) : (s.streams j).Passed (s'.streams j) := by
  have hset : ∀ {name stream}, (s.streams name).Passed stream →
      (s.streams j).Passed ((s.setStream name stream).streams j) :=
    fun hname => forall_setStream (P := fun j => (s.streams j).Passed) (fun j => .refl _) hname j
  cases hstep with
  | world | write => exact .refl _
  | skip =>
    refine hset ⟨?_, fun id _ => by simp [Stream.timesReturned]⟩
    rw [System.currentToken_eq]
    exact (h.account _).last_le
  | ask | fail => exact hset ⟨le_rfl, fun _ _ => rfl⟩
  | answer hquery hfrom hupto =>
    obtain ⟨rfl, -⟩ := (h.account _).query _ hquery
    refine hset ⟨hfrom, fun id hid => ?_⟩
    rw [System.rowsBetween, timesReturned_answer, if_neg fun hin => not_le.mpr hin.2.1 hid, add_zero]

/-! ## In ordered runs -/

/-- The rows that the position has passed have been returned. -/
def Complete (written : Finset ℤ) (stream : Stream) : Prop :=
  ∀ id ∈ written, id ≤ stream.lastToken → 1 ≤ stream.timesReturned id

theorem le_own_of_le_currentToken (h : Inv cfg s) (hfinished : Finished cfg name (s.world.instances name)) {id : ℤ}
    (hid : id ∈ s.written name) (hle : id ≤ (s.world.instances name).gen.maxPositionOfLocalInstance) :
    id ≤ s.minimalLocalCurrentToken cfg name := by
  have hnot : ∀ u ∈ (s.world.instances name).gen.unfinishedIds, id < u :=
    fun u hu => hle.trans_lt (currentToken_lt h.world hu)
  have hrow : id ∈ (s.world.instances name).rows :=
    ((h.account name).known id hid).resolve_left fun hu => lt_irrefl id (hnot id hu)
  have hw : cfg.MayWrite name := by
    by_contra hw
    rw [hfinished.rows hw] at hrow
    exact notMem_empty id hrow
  obtain ⟨p, hp, -, hrows⟩ := hfinished.own hw
  rw [System.minimalLocalCurrentToken, Generator.getMinimalLocalCurrentToken, returnFactor_mul_mul, hp]
  refine (hrows id hrow).resolve_right ?_
  rintro ⟨-, u, hu, hlt⟩
  exact lt_asymm hlt (hnot u hu)

theorem step_complete (hinv : Inv cfg s) (hfinished : ∀ j, Finished cfg j (s.world.instances j))
    (h : ∀ j, Complete (s.written j) (s.streams j)) (hstep : Step cfg s a s') :
    ∀ j, Complete (s'.written j) (s'.streams j) := by
  cases hstep with
  | world => exact h
  | write hid =>
    refine (forall_update_iff s.written fun j written => Complete written (s.streams j)).mpr
      ⟨fun n hn hle => ?_, fun j _ => h j⟩
    rcases mem_insert.mp hn with rfl | hn
    · have hlt := (hinv.account _).last_le.trans_lt (currentToken_lt hinv.world hid)
      exact absurd hle (not_le.mpr hlt)
    · exact h _ n hn hle
  | @skip name hskip =>
    refine forall_setStream h fun id hid hle => ?_
    rw [System.currentToken_eq] at hskip hle
    have hpassed : id ≤ (s.streams name).lastToken := by
      rcases hskip with hminimal | hlast
      · exact (le_own_of_le_currentToken hinv (hfinished name) hid hle).trans hminimal
      · exact hlast ▸ hle
    have hreturned := h name id hid hpassed
    simpa [Stream.timesReturned] using hreturned
  | @ask name | @fail name => exact forall_setStream h (h name)
  | @answer name _ _ _ hquery hfrom hupto =>
    obtain ⟨rfl, -⟩ := (hinv.account name).query _ hquery
    refine forall_setStream h fun id hid hle => ?_
    rw [System.rowsBetween, timesReturned_answer]
    by_cases hpassed : id ≤ (s.streams name).lastToken
    · exact (h name id hid hpassed).trans (Nat.le_add_right _ _)
    · rw [if_pos ⟨hid, not_le.mp hpassed, hle⟩]
      exact Nat.le_add_left _ _

/-! ## Runs -/

/-- **The position never moves backwards**, and what it has passed is not returned any more. -/
theorem run_passed (h : Inv cfg s) {acts : List Action} (hrun : s.run cfg acts = some s') :
    Inv cfg s' ∧ ∀ j, (s.streams j).Passed (s'.streams j) := by
  refine run_rule (fun _ _ => .refl _)
    (fun hfirst hlater j => ?_)
    (fun hinv hstep => ⟨step_inv hinv (step_cases hstep), step_passed hinv (step_cases hstep)⟩) h hrun
  obtain ⟨hle, hsame⟩ := hfirst j
  exact ⟨hle.trans (hlater j).le, fun id hid => ((hlater j).same id (hid.trans hle)).trans (hsame id hid)⟩

/-- What holds in the states of ordered runs. -/
structure OrderedInv (cfg : Config) (s : System) : Prop where
  inv : Inv cfg s
  finished : ∀ j, Finished cfg j (s.world.instances j)
  complete : ∀ j, Complete (s.written j) (s.streams j)

theorem step_orderedInv (h : OrderedInv cfg s) (ha : s.Ordered a) (hstep : s.step cfg a = some s') :
    OrderedInv cfg s' := by
  have hcases := step_cases hstep
  refine ⟨step_inv h.inv hcases, ?_, step_complete h.inv h.finished h.complete hcases⟩
  cases hcases with
  | world hw => exact step_finished h.inv.world h.finished ha hw
  | _ => exact h.finished

theorem runOrdered_inv (h : OrderedInv cfg s) {acts : List Action} (hrun : s.runOrdered cfg acts = some s') :
    OrderedInv cfg s' :=
  guarded_preserves step_orderedInv h hrun

theorem start_orderedInv {db : Database} (hdb : db.Consistent cfg) : OrderedInv cfg (System.start cfg db) where
  inv := by
    refine ⟨inv_start hdb, fun name => ⟨fun id hid => absurd hid (notMem_empty id), ?_, fun q hq => ?_, ?_⟩⟩
    · exact le_of_eq ((System.start cfg db).currentToken_eq cfg name)
    · cases hq
    · exact fun id => Nat.zero_le _
  finished name := start_finished name hdb
  complete _ id hid := absurd hid (notMem_empty id)

/-- **Every finished row is returned exactly once**, once no smaller id of the instance is in work. -/
structure FetchedOnce (cfg : Config) (s : System) (name : String) : Prop where
  at_most : ∀ id, (s.streams name).timesReturned id ≤ 1
  /-- The position passes no finished row without returning it. -/
  passed : ∀ id ∈ s.written name, id ∈ (s.world.instances name).rows → id ≤ (s.streams name).lastToken →
    (s.streams name).timesReturned id = 1
  /-- The next fetch returns the rows that wait. -/
  next : (s.streams name).query = none → ∃ s', s.fetch cfg name = some s' ∧
    ∀ id ∈ s.written name, id ∈ (s.world.instances name).rows → (∀ u ∈ (s.world.instances name).held, id < u) →
      (s'.streams name).timesReturned id = 1

theorem OrderedInv.at_most (h : OrderedInv cfg s) (name : String) (id : ℤ) : (s.streams name).timesReturned id ≤ 1 := by
  refine ((h.inv.account name).once id).trans ?_
  split
  · exact le_rfl
  · exact Nat.zero_le _

theorem OrderedInv.le_currentToken (h : OrderedInv cfg s) {name : String} {id : ℤ}
    (hid : id ∈ (s.world.instances name).rows) (hheld : ∀ u ∈ (s.world.instances name).held, id < u) :
    id ≤ s.currentToken cfg name := by
  have hw : cfg.MayWrite name := by
    by_contra hw
    rw [(h.finished name).rows hw] at hid
    exact notMem_empty id hid
  obtain ⟨p, -, hpm, hrows⟩ := (h.finished name).own hw
  rw [System.currentToken_eq]
  refine ((hrows id hid).resolve_right ?_).trans hpm
  rintro ⟨-, u, hu, hlt⟩
  exact lt_asymm hlt (hheld u (mem_held.mpr (.inl hu)))

theorem OrderedInv.fetch (h : OrderedInv cfg s) {name : String} (hquery : (s.streams name).query = none) :
    ∃ s', s.fetch cfg name = some s' ∧ OrderedInv cfg s' ∧ s'.written = s.written ∧
      (s'.streams name).lastToken = s.currentToken cfg name := by
  set token := s.currentToken cfg name with htoken
  have hself : ∀ (s : System) (stream : Stream), (s.setStream name stream).streams name = stream :=
    fun s stream => update_self ..
  have hordered : s.Ordered (.getUpdates name) := trivial
  by_cases hskip : s.minimalLocalCurrentToken cfg name ≤ (s.streams name).lastToken ∨
      (s.streams name).lastToken = token
  · have hstep : s.step cfg (.getUpdates name) =
        some (s.setStream name ⟨token, none, (s.streams name).returned ++ [[]]⟩) := by
      rw [System.step]
      rw [if_pos hquery, if_pos hskip]
    refine ⟨_, ?_, step_orderedInv h hordered hstep, rfl, congrArg Stream.lastToken (hself ..)⟩
    rw [System.fetch, hstep]
    simp only [bind_eq_bind, bind_some, hself]
    rfl
  · have hstep : s.step cfg (.getUpdates name) = some (s.setStream name
        { s.streams name with query := some ((s.streams name).lastToken, token) }) := by
      rw [System.step]
      rw [if_pos hquery, if_neg hskip]
    have h₁ := step_orderedInv h hordered hstep
    set s₁ := s.setStream name
      { s.streams name with query := some ((s.streams name).lastToken, token) } with hs₁
    have hquery₁ : (s₁.streams name).query = some ((s.streams name).lastToken, token) :=
      congrArg Stream.query (hself ..)
    have hle : (s.streams name).lastToken ≤ token := by
      rw [htoken, System.currentToken_eq]
      exact (h.inv.account name).last_le
    have hstep₁ : s₁.step cfg (.updated name token) = some (s₁.setStream name
        ⟨token, none, (s₁.streams name).returned ++
          [s₁.rowsBetween name (s.streams name).lastToken token]⟩) := by
      simp only [System.step, hquery₁]
      rw [if_pos ⟨hle, le_rfl⟩]
    have hordered₁ : s₁.Ordered (.updated name token) := trivial
    refine ⟨_, ?_, step_orderedInv h₁ hordered₁ hstep₁, rfl, congrArg Stream.lastToken (hself ..)⟩
    rw [System.fetch, hstep]
    simp only [bind_eq_bind, bind_some, hquery₁]
    exact hstep₁

theorem OrderedInv.fetchedOnce (h : OrderedInv cfg s) (name : String) : FetchedOnce cfg s name := by
  have hpassed : ∀ {s : System}, OrderedInv cfg s → ∀ id ∈ s.written name, id ≤ (s.streams name).lastToken →
      (s.streams name).timesReturned id = 1 :=
    fun h id hid hle => le_antisymm (h.at_most name id) (h.complete name id hid hle)
  refine ⟨h.at_most name, fun id hid _ hle => hpassed h id hid hle, fun hquery => ?_⟩
  obtain ⟨s', hfetch, h', hwritten, hlast⟩ := h.fetch hquery
  refine ⟨s', hfetch, fun id hid hrow hheld => hpassed h' id (hwritten ▸ hid) ?_⟩
  rw [hlast]
  exact h.le_currentToken hrow hheld

/-- **Ids that are finished in order are fetched exactly once.**  In every run where no id is finished while a fetch of
ids that started below it is in flight, every finished row is returned exactly once; in any run the position never moves
backwards. -/
theorem ordered_fetched_once (cfg : Config) (db : Database) (hdb : db.Consistent cfg) (acts : List Action) (s : System)
    (hrun : (System.start cfg db).runOrdered cfg acts = some s) (name : String) :
    FetchedOnce cfg s name ∧
      ∀ more s', s.run cfg more = some s' → (s.streams name).lastToken ≤ (s'.streams name).lastToken := by
  have h := runOrdered_inv (start_orderedInv hdb) hrun
  exact ⟨h.fetchedOnce name, fun more s' hmore => ((run_passed h.inv hmore).2 name).le⟩

/-- **No row is returned twice.**  In every run, whatever the order in which ids are finished, a row is returned once at
most, it has been written and the position has passed it, and what the position has passed is not returned later on. -/
theorem returned_at_most_once (cfg : Config) (db : Database) (hdb : db.Consistent cfg) (acts : List Action) (s : System)
    (hrun : (System.start cfg db).run cfg acts = some s) (name : String) (id : ℤ) :
    (s.streams name).timesReturned id ≤ 1 ∧
    (0 < (s.streams name).timesReturned id → id ∈ s.written name ∧ id ≤ (s.streams name).lastToken) ∧
    ∀ more s', s.run cfg more = some s' → id ≤ (s.streams name).lastToken →
      (s'.streams name).timesReturned id = (s.streams name).timesReturned id := by
  have h := (run_passed (start_orderedInv hdb).inv hrun).1
  have honce := (h.account name).once id
  refine ⟨?_, fun hpos => ?_, fun more s' hmore hle => ((run_passed h hmore).2 name).same id hle⟩
  · split at honce <;> omega
  · by_contra hnot
    rw [if_neg hnot] at honce
    omega

end Steps

/-! ## A row that is lost -/

namespace Overtaken

def cfg : Config := ⟨["a", "b"], true⟩

/-- The instance `a` starts two fetches of ids.  One gets 2, and the row written under it is finished while the other
is in flight, so the own position stays at 1.  The other gets 3.  A position of `b` moves the own token to 2, and a fetch
of updates follows it there without asking for rows. -/
def overtaken : List Action :=
  [.world (.startFetch "a" 1), .world (.startFetch "a" 1), .world (.allocate "a" ⟨1, 1, []⟩ 2),
    .world (.endFetch "a" ⟨1, 1, [2]⟩), .write "a" 2, .world (.finish "a" [2]),
    .world (.allocate "a" ⟨1, 1, []⟩ 3), .world (.endFetch "a" ⟨1, 1, [3]⟩),
    .world (.sendPosition "b"), .world (.receive "a" "b" 1), .getUpdates "a",
    .write "a" 3, .world (.finish "a" [3]), .getUpdates "a", .updated "a" 3]

/-- **A finished row that no fetch returns**, whatever comes later. -/
theorem row_lost : ∃ s, (System.start cfg TwoWriters.db).run cfg overtaken = some s ∧ 2 ∈ s.written "a" ∧
    2 ∈ (s.world.instances "a").rows ∧ (s.world.instances "a").held = ∅ ∧
    ∀ more s', s.run cfg more = some s' → (s'.streams "a").timesReturned 2 = 0 := by
  have h : ((System.start cfg TwoWriters.db).run cfg overtaken).map (fun s => (decide (2 ∈ s.written "a"),
      decide (2 ∈ (s.world.instances "a").rows), decide ((s.world.instances "a").held = ∅),
      decide (2 ≤ (s.streams "a").lastToken), (s.streams "a").timesReturned 2)) = some (true, true, true, true, 0) := by
    decide +kernel
  obtain ⟨s, hs, h⟩ := map_eq_some_iff.mp h
  simp only [Prod.mk.injEq, decide_eq_true_eq] at h
  obtain ⟨hwritten, hrow, hheld, hlast, htimes⟩ := h
  have hinv := (run_passed (start_orderedInv (TwoWriters.consistent cfg)).inv hs).1
  exact ⟨s, hs, hwritten, hrow, hheld, fun more s' hmore => (((run_passed hinv hmore).2 "a").same 2 hlast).trans htimes⟩

theorem overtaken_at_most_once : ∃ s, (System.start cfg TwoWriters.db).run cfg overtaken = some s ∧
    (s.streams "a").timesReturned 3 ≤ 1 := by
  obtain ⟨s, hs⟩ := isSome_iff_exists.mp
    (show ((System.start cfg TwoWriters.db).run cfg overtaken).isSome = true by decide +kernel)
  exact ⟨s, hs, (returned_at_most_once cfg _ (TwoWriters.consistent cfg) overtaken s hs "a" 3).1⟩

/-- The same writes, where the first fetch is over before the row is finished. -/
def inOrder : List Action :=
  [.world (.startFetch "a" 1), .world (.startFetch "a" 1), .world (.allocate "a" ⟨1, 1, []⟩ 2),
    .world (.endFetch "a" ⟨1, 1, [2]⟩), .write "a" 2, .world (.allocate "a" ⟨1, 1, []⟩ 3),
    .world (.endFetch "a" ⟨1, 1, [3]⟩), .write "a" 3, .world (.finish "a" [3]), .world (.finish "a" [2]),
    .getUpdates "a", .updated "a" 3]

theorem inOrder_fetched : ∃ s, (System.start cfg TwoWriters.db).runOrdered cfg inOrder = some s ∧
    (s.streams "a").timesReturned 2 = 1 ∧ (s.streams "a").timesReturned 3 = 1 := by
  have h : ((System.start cfg TwoWriters.db).runOrdered cfg inOrder).map (fun s =>
      (decide (∀ id ∈ ([2, 3] : List ℤ), id ∈ s.written "a" ∧ id ∈ (s.world.instances "a").rows),
        (s.streams "a").lastToken)) =
      some (true, 3) := by
    decide +kernel
  obtain ⟨s, hs, h⟩ := map_eq_some_iff.mp h
  simp only [Prod.mk.injEq, decide_eq_true_eq] at h
  obtain ⟨hrows, hlast⟩ := h
  have hpassed := (ordered_fetched_once cfg TwoWriters.db (TwoWriters.consistent cfg) inOrder s hs "a").1.passed
  exact ⟨s, hs, hpassed 2 (hrows 2 (by simp)).1 (hrows 2 (by simp)).2 (by omega),
    hpassed 3 (hrows 3 (by simp)).1 (hrows 3 (by simp)).2 (by omega)⟩

end Overtaken

end Synapse.Replication
