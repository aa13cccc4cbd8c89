import Mathlib.Data.Int.Notation
import Synapse.Lib.Numbered
import Synapse.Lib.Runs

/-!
# Synapse.Async.Linearizer — limiting concurrent access by a key

`Linearizer` of `synapse/util/async_helpers.py`.  A call of `queue(key)` waits for a deferred when the key is in use;
`next_def.callback(None)` runs the waiting call at once, up to its `sleep(0)`.  Calls are numbered in the order in which
they arrive at their key.

* `Slot`: what there is for one key, with the entries that have been made for it.
* `acquireLock`, `releaseLock`: the source's functions; `step`: a call arrives, goes on, is cancelled or ends.
* `Serves`, `Inv`, `step_inv`: the entry counts the holders and has the waiters in order, and there are no waiters while
  there is room.
* **`linearizer_fair`**: at most `maxCount` holders, first come first served, no waiting while there is room, and an entry
  exactly while it is in use.
* `NoRoom.entry_stays`: without room for any holder an entry can stay behind.
-/

namespace Synapse.Async.Linearizer

open Lib List Function

/-- What a call of `queue` is at. -/
inductive Phase where
  /-- for its deferred -/
  | waiting
  /-- it has the lock, and is in `sleep(0)` -/
  | sleeping
  | holding
  | ended
  deriving DecidableEq

def Phase.holds : Phase → Bool
  | .sleeping | .holding => true
  | _ => false

structure Call where
  entry : ℕ
  phase : Phase

/-- `_LinearizerEntry` -/
structure Entry where
  count : ℤ
  deferreds : List ℕ

structure Slot where
  /-- `key_to_defer.get(key)` -/
  entry : Option ℕ
  /-- the entries that have been made -/
  entries : ℕ → Entry
  made : ℕ
  calls : List Call
  /-- the calls that got the lock, in that order -/
  granted : List ℕ

namespace Slot

def new : Slot := ⟨none, fun _ => ⟨0, []⟩, 0, [], []⟩

variable (s : Slot)

def setEntry (e : ℕ) (entry : Entry) : Slot := { s with entries := Function.update s.entries e entry }

def setPhase (i : ℕ) (t : Call) (phase : Phase) : Slot := { s with calls := s.calls.set i { t with phase := phase } }

/-- `self.key_to_defer.setdefault(key, _LinearizerEntry(0, collections.OrderedDict()))` -/
def setdefault : Slot × ℕ :=
  match s.entry with
  | some e => (s, e)
  | none => ({ s.setEntry s.made ⟨0, []⟩ with entry := some s.made, made := s.made + 1 }, s.made)

/-- `_acquire_lock`, up to where it waits. -/
def acquireLock (maxCount : ℕ) : Slot :=
  let (s, e) := s.setdefault
  let entry := s.entries e
  if entry.count < maxCount then
    { s.setEntry e { entry with count := entry.count + 1 } with
      calls := s.calls ++ [⟨e, .holding⟩], granted := s.granted ++ [s.calls.length] }
  else
    { s.setEntry e { entry with deferreds := entry.deferreds ++ [s.calls.length] } with
      calls := s.calls ++ [⟨e, .waiting⟩] }

/-- The deferred of a call is called back: the call goes on to `sleep(0)`. -/
def wake (i : ℕ) : Slot :=
  match s.calls[i]? with
  | some t =>
    { (s.setEntry t.entry { s.entries t.entry with count := (s.entries t.entry).count + 1 }).setPhase i t .sleeping with
      granted := s.granted ++ [i] }
  | none => s

def releaseLock (e : ℕ) : Slot :=
  let count := (s.entries e).count - 1
  match (s.entries e).deferreds with
  | next :: rest => (s.setEntry e ⟨count, rest⟩).wake next
  | [] =>
    let s := s.setEntry e ⟨count, []⟩
    if count = 0 then { s with entry := none } else s

end Slot

inductive Action where
  /-- `queue(key)` is entered -/
  | arrive
  /-- `sleep(0)` is over -/
  | resume (i : ℕ)
  | cancel (i : ℕ)
  /-- the body is over -/
  | leave (i : ℕ)

def step (maxCount : ℕ) (s : Slot) : Action → Option Slot
  | .arrive => some (s.acquireLock maxCount)
  | .resume i =>
    match s.calls[i]? with
    | some ⟨e, .sleeping⟩ => some (s.setPhase i ⟨e, .sleeping⟩ .holding)
    | _ => none
  | .cancel i =>
    match s.calls[i]? with
    | some ⟨e, .waiting⟩ =>
      some ((s.setEntry e { s.entries e with deferreds := (s.entries e).deferreds.erase i }).setPhase i ⟨e, .waiting⟩ .ended)
    | some ⟨e, .sleeping⟩ => some ((s.setPhase i ⟨e, .sleeping⟩ .ended).releaseLock e)
    | _ => none
  | .leave i =>
    match s.calls[i]? with
    | some ⟨e, .holding⟩ => some ((s.setPhase i ⟨e, .holding⟩ .ended).releaseLock e)
    | _ => none

/-- Any interleaving of calls for any keys. -/
def run {κ : Type} [DecidableEq κ] (maxCount : ℕ) (l : κ → Slot) : List (κ × Action) → Option (κ → Slot) :=
  List.foldlM (keyedStep (step maxCount)) l

/-! ## What the entry says -/

def holders (calls : List Call) : ℕ := calls.countP fun t => t.phase.holds

def Waits (calls : List Call) (i : ℕ) : Prop := ∃ t : Call, calls[i]? = some t ∧ t.phase = .waiting

/-- The entry is that of all calls, counts the holders and has the waiters in order. -/
structure Counts (calls : List Call) (e : ℕ) (entry : Entry) : Prop where
  own : ∀ {i : ℕ} {t : Call}, calls[i]? = some t → t.phase ≠ .ended → t.entry = e
  count : entry.count = holders calls
  queue : ∀ i, i ∈ entry.deferreds ↔ Waits calls i
  sorted : entry.deferreds.Pairwise (· < ·)

/-- Nobody waits while there is room. -/
structure Serves (maxCount : ℕ) (calls : List Call) (e : ℕ) (entry : Entry) : Prop extends Counts calls e entry where
  atMost : holders calls ≤ maxCount
  full : entry.deferreds ≠ [] → maxCount ≤ holders calls

structure Fair (calls : List Call) (granted : List ℕ) : Prop where
  /-- no call has overtaken one that waits -/
  order : ∀ {i : ℕ}, Waits calls i → ∀ j ∈ granted, j < i
  sorted : granted.Pairwise (· < ·)
  known : ∀ j ∈ granted, j < calls.length

structure Inv (maxCount : ℕ) (s : Slot) : Prop where
  unused : s.entry = none → ∀ t ∈ s.calls, t.phase = .ended
  serves : ∀ {e : ℕ}, s.entry = some e → Serves maxCount s.calls e (s.entries e)
  alive : 0 < maxCount → s.entry ≠ none → 0 < holders s.calls
  fair : Fair s.calls s.granted

theorem new_inv (maxCount : ℕ) : Inv maxCount .new where
  unused _ := nofun
  serves h := nomatch h
  alive _ h := absurd rfl h
  fair := by
    refine ⟨?_, .nil, nofun⟩
    rintro i ⟨t, ht, -⟩
    cases ht

variable {maxCount : ℕ} {s : Slot}

theorem Inv.of_serves {e : ℕ} {entry : Entry} (hentry : s.entry = some e)
    (hread : s.entries e = entry) (hserves : Serves maxCount s.calls e entry)
    (halive : 0 < maxCount → 0 < holders s.calls) (hfair : Fair s.calls s.granted) : Inv maxCount s where
  unused hnone := nomatch hentry.symm.trans hnone
  serves he := by
    cases hentry.symm.trans he
    rw [hread]
    exact hserves
  alive hpos _ := halive hpos
  fair := hfair

variable {j : ℕ}

section Calls

variable {calls : List Call} {granted : List ℕ} {i : ℕ} {t : Call} {phase : Phase}

theorem holders_set (hi : calls[i]? = some t) (phase : Phase) :
    holders (calls.set i { t with phase := phase }) + (if t.phase.holds then 1 else 0) =
      holders calls + (if phase.holds then 1 else 0) :=
  countP_set_add hi _

theorem Waits.lt (h : Waits calls j) : j < calls.length := by
  obtain ⟨t, ht, -⟩ := h
  exact (List.getElem?_eq_some_iff.mp ht).1

theorem waits_set (hphase : phase ≠ .waiting) :
    Waits (calls.set i { t with phase := phase }) j ↔ j ≠ i ∧ Waits calls j := by
  constructor
  · rintro ⟨u, hu, hwaiting⟩
    rcases getElem?_set_cases hu with ⟨-, rfl⟩ | ⟨hne, hu⟩
    · exact absurd hwaiting hphase
    · exact ⟨hne, u, hu, hwaiting⟩
  · rintro ⟨hne, u, hu, hwaiting⟩
    exact ⟨u, (getElem?_set_ne (Ne.symm hne)).trans hu, hwaiting⟩

theorem not_waits (hi : calls[i]? = some t) (hphase : t.phase ≠ .waiting) : ¬ Waits calls i := by
  rintro ⟨u, hu, hwaiting⟩
  cases hi.symm.trans hu
  exact hphase hwaiting

theorem Fair.set (h : Fair calls granted) (hphase : phase ≠ .waiting) :
    Fair (calls.set i { t with phase := phase }) granted where
  order hw := h.order ((waits_set hphase).mp hw).2
  sorted := h.sorted
  known j hj := by
    rw [length_set]
    exact h.known j hj

theorem ended_of_holders (hzero : holders calls = 0) (hwaits : ∀ i, ¬ Waits calls i) : ∀ t ∈ calls, t.phase = .ended := by
  intro t ht
  have hholds := countP_eq_zero.mp hzero t ht
  obtain ⟨i, hi⟩ := mem_iff_getElem?.mp ht
  cases hphase : t.phase with
  | waiting => exact absurd ⟨t, hi, hphase⟩ (hwaits i)
  | sleeping | holding =>
    rw [hphase] at hholds
    exact absurd rfl hholds
  | ended => rfl

theorem holders_of_ended (h : ∀ t ∈ calls, t.phase = .ended) : holders calls = 0 := by
  refine countP_eq_zero.mpr fun t ht hholds => ?_
  rw [h t ht] at hholds
  cases hholds

theorem not_waits_of_ended (h : ∀ t ∈ calls, t.phase = .ended) (i : ℕ) : ¬ Waits calls i := by
  rintro ⟨t, ht, hwaiting⟩
  have hended := h t (mem_of_getElem? ht)
  rw [hwaiting] at hended
  cases hended

end Calls

/-! ## Arriving -/

section Arriving

variable {calls : List Call} {granted : List ℕ} {e : ℕ} {entry : Entry} {phase : Phase}

theorem setdefault_serves {s : Slot} (h : Inv maxCount s) : ∃ s' e, s.setdefault = (s', e) ∧ s'.entry = some e ∧
    Serves maxCount s'.calls e (s'.entries e) ∧ Fair s'.calls s'.granted := by
  unfold Slot.setdefault
  split
  · rename_i e he
    exact ⟨s, e, rfl, he, h.serves he, h.fair⟩
  rename_i he
  have hended := h.unused he
  have hzero := holders_of_ended hended
  refine ⟨_, _, rfl, rfl, ?_, h.fair⟩
  show Serves _ _ _ (Function.update s.entries s.made ⟨0, []⟩ s.made)
  rw [update_self]
  refine ⟨⟨fun hi hne => absurd (hended _ (mem_of_getElem? hi)) hne, ?_, fun i => ?_, .nil⟩, ?_, nofun⟩
  · exact congrArg Nat.cast hzero.symm
  · exact ⟨nofun, fun hw => absurd hw (not_waits_of_ended hended i)⟩
  · exact Nat.le_trans (Nat.le_of_eq hzero) (Nat.zero_le _)

theorem holders_concat (phase : Phase) :
    holders (calls ++ [⟨e, phase⟩]) = holders calls + if phase.holds then 1 else 0 := by
  unfold holders
  rw [countP_append, countP_singleton]

theorem waits_concat : Waits (calls ++ [⟨e, phase⟩]) j ↔ Waits calls j ∨ (j = calls.length ∧ phase = .waiting) := by
  constructor
  · rintro ⟨t, ht, hphase⟩
    rcases getElem?_concat_cases ht with ht | ⟨hj, rfl⟩
    · exact .inl ⟨t, ht, hphase⟩
    · exact .inr ⟨hj, hphase⟩
  · rintro (⟨t, ht, hphase⟩ | ⟨rfl, rfl⟩)
    · exact ⟨t, getElem?_concat_of_some ht, hphase⟩
    · exact ⟨_, getElem?_concat_length, rfl⟩

theorem Counts.own_concat (h : Counts calls e entry) {i : ℕ} {t : Call}
    (ht : (calls ++ [⟨e, phase⟩])[i]? = some t) (hne : t.phase ≠ .ended) : t.entry = e := by
  rcases getElem?_concat_cases ht with ht | ⟨-, rfl⟩
  · exact h.own ht hne
  · rfl

theorem Serves.none_waits (h : Serves maxCount calls e entry) (hroom : entry.count < maxCount) (i : ℕ) :
    ¬ Waits calls i := by
  intro hw
  have hfull := h.full (ne_nil_of_mem ((h.queue i).mpr hw))
  have hcount := h.count
  omega

theorem Serves.enter (h : Serves maxCount calls e entry) (hroom : entry.count < maxCount) :
    Serves maxCount (calls ++ [⟨e, .holding⟩]) e { entry with count := entry.count + 1 } := by
  have hholders : holders (calls ++ [⟨e, .holding⟩]) = holders calls + 1 := holders_concat .holding
  have hcount := h.count
  refine ⟨⟨h.own_concat, ?_, fun i => ?_, h.sorted⟩, ?_, fun hne => ?_⟩
  · push_cast
    omega
  · rw [h.queue, waits_concat]
    exact ⟨.inl, fun hw => hw.resolve_right fun hlast => nomatch hlast.2⟩
  · omega
  · have hfull := h.full hne
    omega

theorem Serves.wait (h : Serves maxCount calls e entry) (hroom : ¬ entry.count < maxCount) :
    Serves maxCount (calls ++ [⟨e, .waiting⟩]) e { entry with deferreds := entry.deferreds ++ [calls.length] } := by
  have hholders : holders (calls ++ [⟨e, .waiting⟩]) = holders calls := holders_concat .waiting
  have hcount := h.count
  refine ⟨⟨h.own_concat, ?_, fun i => ?_, ?_⟩, ?_, fun _ => ?_⟩
  · rw [hholders]
    exact h.count
  · rw [mem_snoc, h.queue, waits_concat]
    exact or_congr_right (and_iff_left rfl).symm
  · exact pairwise_snoc.mpr ⟨h.sorted, fun a ha => ((h.queue a).mp ha).lt⟩
  · rw [hholders]
    exact h.atMost
  · omega

/-- The call that arrives is the last one, and gets the lock where nobody waits. -/
theorem Fair.enter (h : Fair calls granted) (hnone : ∀ i, ¬ Waits calls i) :
    Fair (calls ++ [⟨e, .holding⟩]) (granted ++ [calls.length]) where
  order hw := by
    rcases waits_concat.mp hw with hw | ⟨-, hwaiting⟩
    · exact absurd hw (hnone _)
    · cases hwaiting
  sorted := pairwise_snoc.mpr ⟨h.sorted, h.known⟩
  known j hj := by
    rw [length_append]
    rcases mem_snoc.mp hj with hj | rfl
    · exact Nat.lt_succ_of_lt (h.known j hj)
    · exact Nat.lt_succ_self _

theorem Fair.wait (h : Fair calls granted) : Fair (calls ++ [⟨e, .waiting⟩]) granted where
  order hw j hj := by
    rcases waits_concat.mp hw with hw | ⟨rfl, -⟩
    · exact h.order hw j hj
    · exact h.known j hj
  sorted := h.sorted
  known j hj := by
    rw [length_append]
    exact Nat.lt_add_right _ (h.known j hj)

theorem acquireLock_inv {s : Slot} (h : Inv maxCount s) : Inv maxCount (s.acquireLock maxCount) := by
  obtain ⟨s, e, hs, hentry, hserves, hfair⟩ := setdefault_serves h
  unfold Slot.acquireLock
  rw [hs]
  have hcount := hserves.count
  by_cases hroom : (s.entries e).count < maxCount
  · simp only [if_pos hroom]
    refine .of_serves hentry (update_self ..) (hserves.enter hroom) (fun _ => ?_)
      (hfair.enter (hserves.none_waits hroom))
    rw [holders_concat]
    exact Nat.succ_pos _
  simp only [if_neg hroom]
  refine .of_serves hentry (update_self ..) (hserves.wait hroom) (fun hpos => ?_) hfair.wait
  rw [holders_concat]
  have : 0 < holders s.calls := by omega
  exact Nat.lt_add_right _ this

end Arriving

/-! ## Leaving -/

section Leaving

variable {calls : List Call} {granted : List ℕ} {i e : ℕ} {t : Call} {entry : Entry} {phase : Phase}

theorem Inv.entry_eq (h : Inv maxCount s) (hi : s.calls[i]? = some t) (hne : t.phase ≠ .ended) :
    s.entry = some t.entry := by
  cases hentry : s.entry with
  | none => exact absurd (h.unused hentry t (mem_of_getElem? hi)) hne
  | some e => rw [(h.serves hentry).own hi hne]

theorem Phase.ended_ne : Phase.ended ≠ .waiting := nofun

theorem Phase.sleeping_ne : Phase.sleeping ≠ .waiting := nofun

theorem Phase.holds_ne {phase : Phase} (h : phase.holds = true) : phase ≠ .ended ∧ phase ≠ .waiting := by
  cases phase with
  | sleeping | holding => exact ⟨nofun, nofun⟩
  | waiting | ended => cases h

theorem Counts.own_set (h : Counts calls e entry) (hi : calls[i]? = some t) (hne : t.phase ≠ .ended)
    {u : Call} (hu : (calls.set i { t with phase := phase })[j]? = some u) (hu' : u.phase ≠ .ended) : u.entry = e := by
  rcases getElem?_set_cases hu with ⟨-, rfl⟩ | ⟨-, hu⟩
  · show t.entry = e
    exact h.own hi hne
  · exact h.own hu hu'

theorem waits_set_of_holds (hi : calls[i]? = some t) (hold : t.phase.holds = true) (hphase : phase ≠ .waiting) :
    Waits (calls.set i { t with phase := phase }) j ↔ Waits calls j := by
  rw [waits_set hphase]
  refine and_iff_right_of_imp fun hw hj => ?_
  subst hj
  exact not_waits hi (Phase.holds_ne hold).2 hw

section Counts

variable (h : Counts calls e entry) (hi : calls[i]? = some t)
include h hi

theorem Counts.resume (hold : t.phase.holds = true)
    (phase : Phase) (hphase : phase.holds = true) : Counts (calls.set i { t with phase := phase }) e entry ∧
      holders (calls.set i { t with phase := phase }) = holders calls := by
  have hsame : holders (calls.set i { t with phase := phase }) = holders calls := by
    have hset := holders_set hi phase
    rw [hold, hphase] at hset
    exact Nat.add_right_cancel hset
  refine ⟨⟨h.own_set hi (Phase.holds_ne hold).1, ?_, fun j => ?_, h.sorted⟩, hsame⟩
  · rw [hsame]
    exact h.count
  · rw [waits_set_of_holds hi hold (Phase.holds_ne hphase).2]
    exact h.queue j

theorem Counts.release (hold : t.phase.holds = true) :
    Counts (calls.set i { t with phase := .ended }) e ⟨entry.count - 1, entry.deferreds⟩ ∧
      holders (calls.set i { t with phase := .ended }) + 1 = holders calls := by
  have hless : holders (calls.set i { t with phase := .ended }) + 1 = holders calls := by
    have hset := holders_set hi .ended
    rwa [hold] at hset
  refine ⟨⟨h.own_set hi (Phase.holds_ne hold).1, ?_, fun j => ?_, h.sorted⟩, hless⟩
  · have hcount := h.count
    show entry.count - 1 = _
    omega
  · rw [waits_set_of_holds hi hold Phase.ended_ne]
    exact h.queue j

theorem Counts.cancel (hwaiting : t.phase = .waiting) :
    Counts (calls.set i { t with phase := .ended }) e ⟨entry.count, entry.deferreds.erase i⟩ ∧
      holders (calls.set i { t with phase := .ended }) = holders calls := by
  have hsame : holders (calls.set i { t with phase := .ended }) = holders calls := by
    have hset := holders_set hi .ended
    rwa [hwaiting] at hset
  have hnodup : entry.deferreds.Nodup := h.sorted.imp Nat.ne_of_lt
  refine ⟨⟨h.own_set hi (by rw [hwaiting]; exact nofun), ?_, fun j => ?_, ?_⟩, hsame⟩
  · rw [hsame]
    exact h.count
  · rw [hnodup.mem_erase_iff, waits_set Phase.ended_ne, h.queue]
  · exact h.sorted.sublist (erase_sublist ..)

end Counts

variable {next : ℕ} {rest : List ℕ}

theorem Counts.wake {c : ℤ} (h : Counts calls e ⟨c, next :: rest⟩) :
    ∃ t, calls[next]? = some t ∧ t.entry = e ∧ Counts (calls.set next { t with phase := .sleeping }) e ⟨c + 1, rest⟩ ∧
      holders (calls.set next { t with phase := .sleeping }) = holders calls + 1 := by
  obtain ⟨t, ht, hwaiting⟩ := (h.queue next).mp mem_cons_self
  have hmore : holders (calls.set next { t with phase := .sleeping }) = holders calls + 1 := by
    have hset := holders_set ht .sleeping
    rwa [hwaiting] at hset
  have hne : t.phase ≠ .ended := by rw [hwaiting]; exact nofun
  obtain ⟨hfirst, hsorted⟩ := pairwise_cons.mp h.sorted
  refine ⟨t, ht, h.own ht hne, ⟨h.own_set ht hne, ?_, fun j => ?_, hsorted⟩, hmore⟩
  · have hcount : c = holders calls := h.count
    rw [hmore, hcount]
    rfl
  rw [waits_set Phase.sleeping_ne, ← h.queue, mem_cons]
  constructor
  · exact fun hj => ⟨Nat.ne_of_gt (hfirst j hj), .inr hj⟩
  · rintro ⟨hne, hj | hj⟩
    · exact absurd hj hne
    · exact hj

/-- It is the first of those that wait, and comes after all that have had the lock. -/
theorem Fair.wake {c : ℤ} (h : Fair calls granted) (hc : Counts calls e ⟨c, next :: rest⟩) :
    Fair (calls.set next { t with phase := .sleeping }) (granted ++ [next]) where
  order hw j hj := by
    obtain ⟨hne, hw'⟩ := (waits_set Phase.sleeping_ne).mp hw
    rcases mem_snoc.mp hj with hj | rfl
    · exact h.order hw' j hj
    · have hmem := (mem_cons.mp ((hc.queue _).mpr hw')).resolve_left hne
      exact (pairwise_cons.mp hc.sorted).1 _ hmem
  sorted := pairwise_snoc.mpr ⟨h.sorted, h.order ((hc.queue next).mp mem_cons_self)⟩
  known := by
    rw [length_set]
    exact forall_mem_snoc.mpr ⟨h.known, ((hc.queue next).mp mem_cons_self).lt⟩

theorem releaseLock_cons (hentry : s.entry = some e) (hdeferreds : (s.entries e).deferreds = next :: rest)
    (h : Counts s.calls e ⟨(s.entries e).count - 1, next :: rest⟩) (hroom : holders s.calls + 1 = maxCount)
    (hfair : Fair s.calls s.granted) : Inv maxCount (s.releaseLock e) := by
  obtain ⟨u, hu, hue, hwoken, hmore⟩ := h.wake
  have hrelease : s.releaseLock e = (s.setEntry e ⟨(s.entries e).count - 1, rest⟩).wake next := by
    simp only [Slot.releaseLock, hdeferreds]
  have hcalls : (s.setEntry e ⟨(s.entries e).count - 1, rest⟩).calls[next]? = some u := hu
  simp only [hrelease, Slot.wake, hcalls, hue]
  refine .of_serves hentry ?_ ⟨hwoken, ?_, fun _ => ?_⟩ (fun _ => ?_) (hfair.wake h)
  · simp [Slot.setPhase, Slot.setEntry]
  · exact Nat.le_of_eq (hmore.trans hroom)
  · exact Nat.le_of_eq (hmore.trans hroom).symm
  · show 0 < holders (s.calls.set next { u with phase := .sleeping })
    rw [hmore]
    exact Nat.succ_pos _

theorem releaseLock_nil (hentry : s.entry = some e) (hdeferreds : (s.entries e).deferreds = [])
    (h : Counts s.calls e ⟨(s.entries e).count - 1, []⟩) (hroom : holders s.calls + 1 ≤ maxCount)
    (hfair : Fair s.calls s.granted) : Inv maxCount (s.releaseLock e) := by
  have hcount : (s.entries e).count - 1 = holders s.calls := h.count
  have hnone : ∀ i, ¬ Waits s.calls i := fun i hw => nomatch (h.queue i).mpr hw
  by_cases hzero : (s.entries e).count - 1 = 0
  · have hrelease : s.releaseLock e = { s.setEntry e ⟨(s.entries e).count - 1, []⟩ with entry := none } := by
      simp only [Slot.releaseLock, hdeferreds, if_pos hzero]
    rw [hrelease]
    have hended := ended_of_holders (by omega) hnone
    exact ⟨fun _ => hended, nofun, fun _ h => absurd rfl h, hfair⟩
  have hrelease : s.releaseLock e = s.setEntry e ⟨(s.entries e).count - 1, []⟩ := by
    simp only [Slot.releaseLock, hdeferreds, if_neg hzero]
  rw [hrelease]
  refine .of_serves hentry (update_self ..) ⟨h, ?_, absurd rfl⟩ (fun _ => ?_) hfair
  · exact Nat.le_of_succ_le hroom
  · show 0 < holders s.calls
    omega

theorem releaseLock_inv (h : Inv maxCount s) (hi : s.calls[i]? = some t) (hold : t.phase.holds = true) :
    Inv maxCount ((s.setPhase i t .ended).releaseLock t.entry) := by
  have hentry := h.entry_eq hi (Phase.holds_ne hold).1
  have hserves := h.serves hentry
  obtain ⟨hcounts, hless⟩ := hserves.release hi hold
  have hatMost := hserves.atMost
  have hfair : Fair (s.calls.set i { t with phase := .ended }) s.granted := h.fair.set Phase.ended_ne
  cases hdeferreds : (s.entries t.entry).deferreds with
  | cons next rest =>
    rw [hdeferreds] at hcounts
    have hfull := hserves.full (by rw [hdeferreds]; exact nofun)
    exact releaseLock_cons hentry hdeferreds hcounts (hless.trans (Nat.le_antisymm hatMost hfull)) hfair
  | nil =>
    rw [hdeferreds] at hcounts
    exact releaseLock_nil hentry hdeferreds hcounts (Nat.le_trans (Nat.le_of_eq hless) hatMost) hfair

theorem Inv.same {s' : Slot} (h : Inv maxCount s) (hentry : s.entry = some e) (hentry' : s'.entry = some e)
    (hread : s'.entries e = entry) (hcounts : Counts s'.calls e entry) (hsame : holders s'.calls = holders s.calls)
    (hwaits : entry.deferreds ≠ [] → (s.entries e).deferreds ≠ []) (hfair : Fair s'.calls s'.granted) :
    Inv maxCount s' := by
  have hserves := h.serves hentry
  refine .of_serves hentry' hread ⟨hcounts, ?_, fun hsome => ?_⟩ (fun hpos => ?_) hfair <;> rw [hsame]
  · exact hserves.atMost
  · exact hserves.full (hwaits hsome)
  · exact h.alive hpos (by rw [hentry]; exact nofun)

theorem cancel_inv (h : Inv maxCount s) (hi : s.calls[i]? = some t) (hwaiting : t.phase = .waiting) :
    Inv maxCount ((s.setEntry t.entry
      { s.entries t.entry with deferreds := (s.entries t.entry).deferreds.erase i }).setPhase i t .ended) := by
  have hentry := h.entry_eq hi (by rw [hwaiting]; exact nofun)
  obtain ⟨hcounts, hsame⟩ := (h.serves hentry).cancel hi hwaiting
  refine h.same hentry hentry (update_self ..) hcounts hsame (fun hsome hnil => hsome ?_)
    (h.fair.set Phase.ended_ne)
  simp [hnil]

theorem resume_inv (h : Inv maxCount s) (hi : s.calls[i]? = some t) (hold : t.phase.holds = true) :
    Inv maxCount (s.setPhase i t .holding) := by
  have hentry := h.entry_eq hi (Phase.holds_ne hold).1
  obtain ⟨hcounts, hsame⟩ := (h.serves hentry).resume hi hold .holding rfl
  exact h.same hentry hentry rfl hcounts hsame id (h.fair.set nofun)

end Leaving

/-! ## Every run -/

theorem step_inv {s' : Slot} {a : Action} (h : Inv maxCount s)
    (hstep : step maxCount s a = some s') : Inv maxCount s' := by
  cases a with
  | arrive =>
    cases hstep
    exact acquireLock_inv h
  | resume i =>
    rw [step] at hstep
    split at hstep
    · rename_i hi
      cases hstep
      exact resume_inv h hi rfl
    · cases hstep
  | cancel i =>
    rw [step] at hstep
    split at hstep
    · rename_i hi
      cases hstep
      exact cancel_inv h hi rfl
    · rename_i hi
      cases hstep
      exact releaseLock_inv h hi rfl
    · cases hstep
  | leave i =>
    rw [step] at hstep
    split at hstep
    · rename_i hi
      cases hstep
      exact releaseLock_inv h hi rfl
    · cases hstep

theorem Inv.atMost (h : Inv maxCount s) : holders s.calls ≤ maxCount := by
  cases hentry : s.entry with
  | none =>
    rw [holders_of_ended (h.unused hentry)]
    exact Nat.zero_le _
  | some e => exact (h.serves hentry).atMost

theorem Inv.full {i : ℕ} (h : Inv maxCount s) (hw : Waits s.calls i) : holders s.calls = maxCount := by
  cases hentry : s.entry with
  | none => exact absurd hw (not_waits_of_ended (h.unused hentry) i)
  | some e =>
    have hserves := h.serves hentry
    exact Nat.le_antisymm hserves.atMost (hserves.full (ne_nil_of_mem ((hserves.queue i).mpr hw)))

/-- **The linearizer in every run**: no more than `maxCount` holders, in the order of arrival, nobody waits while there
is room, and an entry exactly while it is in use. -/
theorem linearizer_fair {κ : Type} [DecidableEq κ] {maxCount : ℕ} {l : κ → Slot} {actions : List (κ × Action)}
    (hrun : run maxCount (fun _ => .new) actions = some l) (key : κ) :
    holders (l key).calls ≤ maxCount ∧
    (l key).granted.Pairwise (· < ·) ∧
    (∀ i, Waits (l key).calls i → (∀ j ∈ (l key).granted, j < i) ∧ holders (l key).calls = maxCount) ∧
    (0 < maxCount → ((l key).entry.isSome ↔ ∃ t ∈ (l key).calls, t.phase ≠ .ended)) := by
  have h : Inv maxCount (l key) := keyed_preserves step_inv (fun _ => new_inv maxCount) hrun key
  refine ⟨h.atMost, h.fair.sorted, fun i hw => ⟨h.fair.order hw, h.full hw⟩, fun hpos => ⟨fun hsome => ?_, ?_⟩⟩
  · have hholders := h.alive hpos (Option.isSome_iff_ne_none.mp hsome)
    obtain ⟨t, ht, hholds⟩ := countP_pos_iff.mp hholders
    exact ⟨t, ht, (Phase.holds_ne hholds).1⟩
  rintro ⟨t, ht, hne⟩
  obtain ⟨i, hi⟩ := mem_iff_getElem?.mp ht
  rw [h.entry_eq hi hne]
  rfl

/-- The second call waits, gets the lock from the first one and is cancelled before it goes on. -/
theorem handed_over : ∃ l : Bool → Slot,
    run 1 (fun _ => .new) [(true, .arrive), (true, .arrive), (true, .leave 0), (true, .cancel 1)] = some l ∧
      (l true).granted = [0, 1] ∧ ((l true).entry.isSome ↔ ∃ t ∈ (l true).calls, t.phase ≠ .ended) := by
  obtain ⟨l, hrun, hgranted⟩ : ∃ l : Bool → Slot,
      run 1 (fun _ => .new) [(true, .arrive), (true, .arrive), (true, .leave 0), (true, .cancel 1)] = some l ∧
        (l true).granted = [0, 1] := ⟨_, rfl, rfl⟩
  exact ⟨l, hrun, hgranted, (linearizer_fair hrun true).2.2.2 Nat.one_pos⟩

/-- With a maximum count of 0 a waiter makes the entry, and leaves it behind when it is cancelled. -/
theorem NoRoom.entry_stays : ∃ l : Unit → Slot, run 0 (fun _ => .new) [((), .arrive), ((), .cancel 0)] = some l ∧
    (l ()).entry.isSome ∧ ∀ t ∈ (l ()).calls, t.phase = .ended := by
  refine ⟨_, rfl, rfl, ?_⟩
  intro t ht
  cases mem_singleton.mp ht
  rfl

end Synapse.Async.Linearizer
