import Mathlib.Data.Finset.Basic
import Synapse.Lib.Numbered
import Synapse.Lib.Runs

/-!
# Synapse.Async.ReadWriteLock — readers and writers of a key

`ReadWriteLock` of `synapse/util/async_helpers.py`.  A call publishes a deferred that it calls back when it releases the
lock, and waits for deferreds that calls before it have published.  The calls of a key are numbered in the order of their
arrival, and the number of a call stands for its deferred.

* `read`, `write`: up to where a call waits or enters the body; `Call.next`: how a call goes on.
* `step`: what `new_defer.callback` runs may come at any time before the call takes itself out of the books.
* `Ordered`: a call that is past its wait has nothing open before it that it conflicts with.
* `Books`: every open call is found through the readers and the writer of the key.
* **`read_write_exclusive`**: a writer has the key for itself, and the books are empty when all calls have ended.
* **`never_deadlocked`**: as long as a call has not ended, some call can go on.
-/

namespace Synapse.Async.ReadWriteLock

open Lib Finset Option

inductive Kind where
  | reader
  | writer
  deriving DecidableEq

inductive Phase where
  | waiting
  /-- in the body -/
  | holding
  /-- in `finally`, with its deferred called back -/
  | releasing
  | ended
  deriving DecidableEq

/-- `new_defer` has been called back. -/
def Phase.resolved : Phase → Bool
  | .releasing | .ended => true
  | _ => false

structure Call where
  kind : Kind
  toWaitOn : Finset ℕ
  /-- to be raised after the wait (`delay_cancellation`) -/
  cancelled : Bool
  phase : Phase

inductive Event where
  /-- the wait is over -/
  | resume
  | cancel
  /-- the body is over -/
  | leave
  /-- `finally` is over -/
  | finish

/-- How a call goes on.  A reader that is cancelled goes to `finally` at once, a writer when its wait is over. -/
def Call.next (t : Call) (ready : Bool) : Event → Option Call
  | .resume =>
    if t.phase = .waiting ∧ ready then some { t with phase := if t.cancelled then .releasing else .holding } else none
  | .cancel =>
    if t.phase = .waiting then
      match t.kind with
      | .reader => some { t with phase := .releasing }
      | .writer => some { t with cancelled := true }
    else none
  | .leave => if t.phase = .holding then some { t with phase := .releasing } else none
  | .finish => if t.phase = .releasing then some { t with phase := .ended } else none

structure Slot where
  /-- `key_to_current_readers.get(key)` -/
  currentReaders : Option (Finset ℕ)
  /-- `key_to_current_writer.get(key)` -/
  currentWriter : Option ℕ
  calls : List Call

namespace Slot

def new : Slot := ⟨none, none, []⟩

variable (s : Slot)

/-- `key_to_current_readers.get(key, set())` -/
def readers : Finset ℕ := s.currentReaders.getD ∅

/-- `read`, up to where it waits for the latest writer; without one it enters the body. -/
def read : Slot :=
  { s with
    currentReaders := some (insert s.calls.length s.readers)
    calls := s.calls ++ [match s.currentWriter with
      | some currWriter => ⟨.reader, {currWriter}, false, .waiting⟩
      | none => ⟨.reader, ∅, false, .holding⟩] }

/-- `write`, up to where it waits for the latest readers and the latest writer. -/
def write : Slot :=
  let toWaitOn := match s.currentWriter with
    | some currWriter => insert currWriter s.readers
    | none => s.readers
  { currentReaders := s.currentReaders.map fun _ => ∅
    currentWriter := some s.calls.length
    calls := s.calls ++ [⟨.writer, toWaitOn, false, .waiting⟩] }

/-- All that a call waits for has been called back. -/
def ready (t : Call) : Bool := decide (∀ j ∈ t.toWaitOn, s.calls[j]?.any (·.phase.resolved) = true)

/-- The end of `finally`. -/
def discard (i : ℕ) : Kind → Slot
  | .reader => { s with currentReaders := s.currentReaders.map fun readers => readers.erase i }
  | .writer => if s.currentWriter = some i then { s with currentWriter := none } else s

end Slot

inductive Action where
  | read
  | write
  | go (i : ℕ) (event : Event)

def step (s : Slot) : Action → Option Slot
  | .read => some s.read
  | .write => some s.write
  | .go i event =>
    match s.calls[i]? with
    | none => none
    | some t => (t.next (s.ready t) event).map fun t' =>
        let s := if t'.phase = .ended then s.discard i t.kind else s
        { s with calls := s.calls.set i t' }

/-- Any interleaving of calls for any keys. -/
def run {κ : Type} [DecidableEq κ] (l : κ → Slot) : List (κ × Action) → Option (κ → Slot) :=
  List.foldlM (keyedStep step) l

/-! ## What one call does -/

/-- The call has got what it waited for: it is in the body, or it is a writer that has been there. -/
def Call.passed (t : Call) : Bool := t.phase = .holding ∨ (t.kind = .writer ∧ t.phase.resolved)

structure Advances (t : Call) (ready : Bool) (t' : Call) : Prop where
  kind : t'.kind = t.kind
  toWaitOn : t'.toWaitOn = t.toWaitOn
  resolved : t.phase.resolved = true → t'.phase.resolved = true
  waiting : t'.phase = .waiting → t.phase = .waiting
  passed : t'.passed = true → t.passed = true ∨ (t.phase = .waiting ∧ ready = true)
  ended : t'.phase = .ended → t.phase = .releasing

theorem Call.next_advances {t t' : Call} {ready : Bool} {event : Event} (h : t.next ready event = some t') :
    Advances t ready t' := by
  obtain ⟨kind, toWaitOn, cancelled, phase⟩ := t
  cases event with
  | resume =>
    obtain ⟨⟨hphase, hready⟩, h⟩ := ite_none_right_eq_some.mp h
    cases hphase
    cases h
    refine ⟨rfl, rfl, nofun, fun _ => rfl, fun _ => .inr ⟨rfl, hready⟩, fun hended => ?_⟩
    cases cancelled <;> cases hended
  | cancel =>
    obtain ⟨hphase, h⟩ := ite_none_right_eq_some.mp h
    cases hphase
    cases kind with
    | reader | writer =>
      cases h
      exact ⟨rfl, rfl, nofun, fun _ => rfl, nofun, nofun⟩
  | leave =>
    obtain ⟨hphase, h⟩ := ite_none_right_eq_some.mp h
    cases hphase
    cases h
    exact ⟨rfl, rfl, nofun, nofun, fun _ => .inl rfl, nofun⟩
  | finish =>
    obtain ⟨hphase, h⟩ := ite_none_right_eq_some.mp h
    cases hphase
    cases h
    refine ⟨rfl, rfl, fun _ => rfl, nofun, fun hpassed => .inl ?_, fun _ => rfl⟩
    cases kind with
    | reader => cases hpassed
    | writer => rfl

/-! ## The order of the calls -/

def Conflict (k l : Kind) : Prop := k = .writer ∨ l = .writer

theorem Conflict.writer {k : Kind} (h : Conflict k .reader) : k = .writer := h.resolve_right nofun

def IsWriter (calls : List Call) (i : ℕ) : Prop := ∃ t : Call, calls[i]? = some t ∧ t.kind = .writer

/-- All that is before `i` and conflicts with it is over. -/
def Clear (calls : List Call) (i : ℕ) (kind : Kind) : Prop :=
  ∀ (j : ℕ) (u : Call), calls[j]? = some u → j < i → Conflict kind u.kind → u.phase.resolved = true

/-- It is over, or waited for: what is before a writer has been waited for by that one. -/
def Covered (calls : List Call) (i : ℕ) (kind : Kind) (toWaitOn : Finset ℕ) : Prop :=
  ∀ (j : ℕ) (u : Call), calls[j]? = some u → j < i → Conflict kind u.kind →
    u.phase.resolved = true ∨ j ∈ toWaitOn ∨ ∃ w ∈ toWaitOn, IsWriter calls w ∧ j < w

structure Ordered (calls : List Call) : Prop where
  passed : ∀ {i : ℕ} {t : Call}, calls[i]? = some t → t.passed = true → Clear calls i t.kind
  waiting : ∀ {i : ℕ} {t : Call}, calls[i]? = some t → t.phase = .waiting → Covered calls i t.kind t.toWaitOn

section Order

variable {calls : List Call} {i k : ℕ} {t t' new : Call} {ready : Bool} {kind : Kind} {toWaitOn : Finset ℕ}

theorem Call.passed_of_writer (hkind : t.kind = .writer) (hresolved : t.phase.resolved = true) : t.passed = true :=
  decide_eq_true (.inr ⟨hkind, hresolved⟩)

theorem Ordered.clear (h : Ordered calls) (hi : calls[i]? = some t) (hwaiting : t.phase = .waiting)
    (hready : ∀ j ∈ t.toWaitOn, calls[j]?.any (·.phase.resolved) = true) : Clear calls i t.kind := by
  have hresolved : ∀ {j : ℕ} {u : Call}, j ∈ t.toWaitOn → calls[j]? = some u → u.phase.resolved = true := by
    intro j u hj hu
    have hany := hready j hj
    rw [hu] at hany
    exact hany
  intro j u hu hlt hconflict
  rcases h.waiting hi hwaiting j u hu hlt hconflict with hover | hj | ⟨w, hw, ⟨v, hv, hkind⟩, hjw⟩
  · exact hover
  · exact hresolved hj hu
  · exact h.passed hv (Call.passed_of_writer hkind (hresolved hw hv)) j u hu hjw (.inl hkind)

theorem Ordered.not_both {j : ℕ} {u : Call} (h : Ordered calls) (hi : calls[i]? = some t) (hj : calls[j]? = some u)
    (hlt : j < i) (hconflict : Conflict t.kind u.kind) (ht : t.phase = .holding) (hu : u.phase = .holding) : False := by
  have hover := h.passed hi (decide_eq_true (.inl ht)) j u hj hlt hconflict
  rw [hu] at hover
  cases hover

section Advances

variable (ha : Advances t ready t') (hi : calls[i]? = some t)
include ha hi

theorem Advances.isWriter_set (h : IsWriter calls k) : IsWriter (calls.set i t') k := by
  obtain ⟨u, hu, hkind⟩ := h
  by_cases hk : i = k
  · subst hk
    cases hi.symm.trans hu
    exact ⟨t', getElem?_set_of_some hi t', ha.kind.trans hkind⟩
  · exact ⟨u, (List.getElem?_set_ne hk).trans hu, hkind⟩

theorem Advances.clear_set (h : Clear calls k kind) : Clear (calls.set i t') k kind := by
  intro j u hu hlt hconflict
  rcases getElem?_set_cases hu with ⟨rfl, rfl⟩ | ⟨-, hu⟩
  · rw [ha.kind] at hconflict
    exact ha.resolved (h j t hi hlt hconflict)
  · exact h j u hu hlt hconflict

theorem Advances.covered_set (h : Covered calls k kind toWaitOn) : Covered (calls.set i t') k kind toWaitOn := by
  have hlater : ∀ {j : ℕ}, (∃ w ∈ toWaitOn, IsWriter calls w ∧ j < w) →
      ∃ w ∈ toWaitOn, IsWriter (calls.set i t') w ∧ j < w := by
    rintro j ⟨w, hw, hwriter, hjw⟩
    exact ⟨w, hw, ha.isWriter_set hi hwriter, hjw⟩
  intro j u hu hlt hconflict
  rcases getElem?_set_cases hu with ⟨rfl, rfl⟩ | ⟨-, hu⟩
  · rw [ha.kind] at hconflict
    exact (h j t hi hlt hconflict).imp ha.resolved (Or.imp_right hlater)
  · exact (h j u hu hlt hconflict).imp_right (Or.imp_right hlater)

end Advances

theorem Ordered.set (h : Ordered calls) (hi : calls[i]? = some t) (ha : Advances t ready t')
    (hready : ready = true → ∀ j ∈ t.toWaitOn, calls[j]?.any (·.phase.resolved) = true) : Ordered (calls.set i t') where
  passed hu hpassed := by
    rcases getElem?_set_cases hu with ⟨rfl, rfl⟩ | ⟨-, hu⟩
    · rw [ha.kind]
      refine ha.clear_set hi ?_
      rcases ha.passed hpassed with hpassed | ⟨hwaiting, hyes⟩
      · exact h.passed hi hpassed
      · exact h.clear hi hwaiting (hready hyes)
    · exact ha.clear_set hi (h.passed hu hpassed)
  waiting hu hwaiting := by
    rcases getElem?_set_cases hu with ⟨rfl, rfl⟩ | ⟨-, hu⟩
    · rw [ha.kind, ha.toWaitOn]
      exact ha.covered_set hi (h.waiting hi (ha.waiting hwaiting))
    · exact ha.covered_set hi (h.waiting hu hwaiting)

theorem getElem?_before {j : ℕ} {u : Call} (hk : k ≤ calls.length) (hu : (calls ++ [new])[j]? = some u) (hlt : j < k) :
    calls[j]? = some u := by
  rcases getElem?_concat_cases hu with hu | ⟨rfl, -⟩
  · exact hu
  · exact absurd hk (Nat.not_le_of_lt hlt)

theorem Clear.concat (h : Clear calls k kind) (hk : k ≤ calls.length) : Clear (calls ++ [new]) k kind :=
  fun j u hu hlt hconflict => h j u (getElem?_before hk hu hlt) hlt hconflict

theorem Covered.concat (h : Covered calls k kind toWaitOn) (hk : k ≤ calls.length) :
    Covered (calls ++ [new]) k kind toWaitOn := by
  intro j u hu hlt hconflict
  refine (h j u (getElem?_before hk hu hlt) hlt hconflict).imp_right (Or.imp_right ?_)
  rintro ⟨w, hw, ⟨v, hv, hkind⟩, hjw⟩
  exact ⟨w, hw, ⟨v, getElem?_concat_of_some hv, hkind⟩, hjw⟩

theorem Ordered.concat (h : Ordered calls) (hpassed : new.passed = true → Clear calls calls.length new.kind)
    (hwaiting : new.phase = .waiting → Covered calls calls.length new.kind new.toWaitOn) : Ordered (calls ++ [new]) where
  passed hu hp := by
    rcases getElem?_concat_cases hu with hu | ⟨rfl, rfl⟩
    · exact (h.passed hu hp).concat (Nat.le_of_lt (List.getElem?_eq_some_iff.mp hu).1)
    · exact (hpassed hp).concat (Nat.le_refl _)
  waiting hu hw := by
    rcases getElem?_concat_cases hu with hu | ⟨rfl, rfl⟩
    · exact (h.waiting hu hw).concat (Nat.le_of_lt (List.getElem?_eq_some_iff.mp hu).1)
    · exact (hwaiting hw).concat (Nat.le_refl _)

end Order

/-! ## The books -/

/-- The readers and the writer of the key have not ended, and every open call is one of them or before the writer. -/
structure Books (calls : List Call) (readers : Finset ℕ) (writer : Option ℕ) : Prop where
  reader : ∀ j ∈ readers, ∃ t : Call, calls[j]? = some t ∧ t.kind = .reader ∧ t.phase ≠ .ended
  current : ∀ {w : ℕ}, writer = some w → ∃ t : Call, calls[w]? = some t ∧ t.kind = .writer ∧ t.phase ≠ .ended
  found : ∀ {j : ℕ} {t : Call}, calls[j]? = some t →
    t.phase.resolved = true ∨ (t.kind = .reader ∧ j ∈ readers) ∨ ∃ w, writer = some w ∧ j ≤ w

section Books

variable {calls : List Call} {readers : Finset ℕ} {writer : Option ℕ} {i : ℕ} {t t' new : Call} {ready : Bool}

/-- **Who waits for the writer**, and as a writer also for the readers, waits for all that it has to. -/
theorem Books.covered (h : Books calls readers writer) {kind : Kind} {toWaitOn : Finset ℕ}
    (hreaders : kind = .writer → readers ⊆ toWaitOn) (hwriter : ∀ {w : ℕ}, writer = some w → w ∈ toWaitOn) :
    Covered calls i kind toWaitOn := by
  intro j u hu hlt hconflict
  rcases h.found hu with hover | ⟨hkind, hj⟩ | ⟨w, hw, hle⟩
  · exact .inl hover
  · rw [hkind] at hconflict
    exact .inr (.inl (hreaders hconflict.writer hj))
  obtain ⟨v, hv, hkind, -⟩ := h.current hw
  refine .inr ((Nat.lt_or_eq_of_le hle).symm.imp (fun hj => ?_) fun hj => ?_)
  · rw [hj]
    exact hwriter hw
  · exact ⟨w, hwriter hw, ⟨v, hv, hkind⟩, hj⟩

theorem Books.clear (h : Books calls readers none) : Clear calls i .reader := by
  intro j u hu hlt hconflict
  rcases h.found hu with hover | ⟨hkind, -⟩ | ⟨w, hw, -⟩
  · exact hover
  · rw [hkind] at hconflict
    cases hconflict.writer
  · cases hw

theorem Books.concat_reader (h : Books calls readers writer) (hkind : new.kind = .reader) (hphase : new.phase ≠ .ended) :
    Books (calls ++ [new]) (insert calls.length readers) writer where
  reader j hj := by
    rcases mem_insert.mp hj with rfl | hj
    · exact ⟨new, List.getElem?_concat_length, hkind, hphase⟩
    · obtain ⟨t, ht, hopen⟩ := h.reader j hj
      exact ⟨t, getElem?_concat_of_some ht, hopen⟩
  current hw := by
    obtain ⟨t, ht, hopen⟩ := h.current hw
    exact ⟨t, getElem?_concat_of_some ht, hopen⟩
  found ht := by
    rcases getElem?_concat_cases ht with ht | ⟨rfl, rfl⟩
    · exact (h.found ht).imp_right (Or.imp_left (And.imp_right mem_insert_of_mem))
    · exact .inr (.inl ⟨hkind, mem_insert_self ..⟩)

theorem Books.concat_writer (hkind : new.kind = .writer) (hphase : new.phase ≠ .ended) :
    Books (calls ++ [new]) ∅ (some calls.length) where
  reader j hj := absurd hj (notMem_empty j)
  current hw := by
    cases hw
    exact ⟨new, List.getElem?_concat_length, hkind, hphase⟩
  found ht := by
    have hlt := (List.getElem?_eq_some_iff.mp ht).1
    rw [List.length_append, List.length_singleton] at hlt
    exact .inr (.inr ⟨_, rfl, Nat.le_of_lt_succ hlt⟩)

theorem Books.set (h : Books calls readers writer) (hi : calls[i]? = some t) (ha : Advances t ready t')
    (hended : t'.phase = .ended → i ∉ readers ∧ writer ≠ some i) : Books (calls.set i t') readers writer := by
  -- an open call of the books stays one
  have hopen : ∀ {j : ℕ} {k : Kind}, (i = j → t'.phase ≠ .ended) →
      (∃ u : Call, calls[j]? = some u ∧ u.kind = k ∧ u.phase ≠ .ended) →
      ∃ u : Call, (calls.set i t')[j]? = some u ∧ u.kind = k ∧ u.phase ≠ .ended := by
    rintro j k hne ⟨u, hu, hkind, hphase⟩
    by_cases hj : i = j
    · subst hj
      cases hi.symm.trans hu
      exact ⟨t', getElem?_set_of_some hi t', ha.kind.trans hkind, hne rfl⟩
    · exact ⟨u, (List.getElem?_set_ne hj).trans hu, hkind, hphase⟩
  refine ⟨fun j hj => hopen ?_ (h.reader j hj), fun hw => hopen ?_ (h.current hw), fun {j u} hu => ?_⟩
  · rintro rfl hphase
    exact (hended hphase).1 hj
  · rintro rfl hphase
    exact (hended hphase).2 hw
  rcases getElem?_set_cases hu with ⟨rfl, rfl⟩ | ⟨-, hu⟩
  · rw [ha.kind]
    exact (h.found hi).imp_left ha.resolved
  · exact h.found hu

theorem Books.erase (h : Books calls readers writer) (hi : calls[i]? = some t) (hresolved : t.phase.resolved = true) :
    Books calls (readers.erase i) writer where
  reader j hj := h.reader j (mem_of_mem_erase hj)
  current := h.current
  found {j u} hu := by
    by_cases hj : j = i
    · subst hj
      cases hi.symm.trans hu
      exact .inl hresolved
    · exact (h.found hu).imp_right (Or.imp_left (And.imp_right (mem_erase.mpr ⟨hj, ·⟩)))

theorem Books.pop (h : Books calls readers (some i)) (ho : Ordered calls) (hi : calls[i]? = some t)
    (hkind : t.kind = .writer) (hresolved : t.phase.resolved = true) : Books calls readers none where
  reader := h.reader
  current hw := nomatch hw
  found {j u} hu := by
    rcases h.found hu with hover | hj | ⟨w, hw, hle⟩
    · exact .inl hover
    · exact .inr (.inl hj)
    cases hw
    rcases Nat.lt_or_eq_of_le hle with hlt | rfl
    · exact .inl (ho.passed hi (Call.passed_of_writer hkind hresolved) j u hu hlt (.inl hkind))
    · cases hi.symm.trans hu
      exact .inl hresolved

end Books

/-! ## Every run -/

structure Inv (s : Slot) : Prop where
  ordered : Ordered s.calls
  books : Books s.calls s.readers s.currentWriter

theorem new_inv : Inv .new := by
  refine ⟨⟨?_, ?_⟩, ⟨?_, nofun, ?_⟩⟩
  · intro i t ht
    cases ht
  · intro i t ht
    cases ht
  · exact fun j hj => absurd hj (notMem_empty j)
  · intro i t ht
    cases ht

theorem read_inv {s : Slot} (h : Inv s) : Inv s.read := by
  have hbooks := h.books
  cases hwriter : s.currentWriter with
  | none =>
    have hread : s.read.calls = s.calls ++ [⟨.reader, ∅, false, .holding⟩] := by simp only [Slot.read, hwriter]
    rw [hwriter] at hbooks
    refine ⟨?_, ?_⟩ <;> rw [hread]
    · exact h.ordered.concat (fun _ => hbooks.clear) nofun
    · exact h.books.concat_reader rfl nofun
  | some w =>
    have hread : s.read.calls = s.calls ++ [⟨.reader, {w}, false, .waiting⟩] := by simp only [Slot.read, hwriter]
    rw [hwriter] at hbooks
    refine ⟨?_, ?_⟩ <;> rw [hread]
    · refine h.ordered.concat nofun fun _ => hbooks.covered nofun fun hw => ?_
      cases hw
      exact mem_singleton_self w
    · exact h.books.concat_reader rfl nofun

theorem write_inv {s : Slot} (h : Inv s) : Inv s.write := by
  have hreaders : s.write.readers = ∅ := by
    simp only [Slot.write, Slot.readers]
    cases s.currentReaders <;> rfl
  refine ⟨h.ordered.concat nofun fun _ => h.books.covered (fun _ => ?_) fun {w} hw => ?_, ?_⟩
  · split
    · exact subset_insert ..
    · exact Subset.refl _
  · rw [hw]
    exact mem_insert_self ..
  · rw [hreaders]
    exact .concat_writer rfl nofun

theorem discard_books {s : Slot} {i : ℕ} {t : Call} (h : Inv s) (hi : s.calls[i]? = some t)
    (hresolved : t.phase.resolved = true) :
    (s.discard i t.kind).calls = s.calls ∧
      Books s.calls (s.discard i t.kind).readers (s.discard i t.kind).currentWriter ∧
      i ∉ (s.discard i t.kind).readers ∧ (s.discard i t.kind).currentWriter ≠ some i := by
  cases hkind : t.kind with
  | reader =>
    have hreaders : (s.discard i .reader).readers = s.readers.erase i := by
      simp only [Slot.discard, Slot.readers]
      cases s.currentReaders with
      | none => exact (erase_empty i).symm
      | some readers => rfl
    rw [hreaders]
    refine ⟨rfl, h.books.erase hi hresolved, notMem_erase i _, fun hw => ?_⟩
    obtain ⟨u, hu, hkind', -⟩ := h.books.current hw
    cases hi.symm.trans hu
    cases hkind.symm.trans hkind'
  | writer =>
    have hreader : i ∉ s.readers := by
      intro hmem
      obtain ⟨u, hu, hkind', -⟩ := h.books.reader i hmem
      cases hi.symm.trans hu
      cases hkind.symm.trans hkind'
    by_cases hw : s.currentWriter = some i
    · have hbooks := h.books
      rw [hw] at hbooks
      simp only [Slot.discard, if_pos hw]
      exact ⟨trivial, hbooks.pop h.ordered hi hkind hresolved, hreader, nofun⟩
    · simp only [Slot.discard, if_neg hw]
      exact ⟨trivial, h.books, hreader, hw⟩

theorem step_inv {s s' : Slot} {a : Action} (h : Inv s) (hstep : step s a = some s') : Inv s' := by
  cases a with
  | read =>
    cases hstep
    exact read_inv h
  | write =>
    cases hstep
    exact write_inv h
  | go i event =>
    cases hi : s.calls[i]? with
    | none =>
      simp only [step, hi] at hstep
      cases hstep
    | some t =>
      simp only [step, hi] at hstep
      obtain ⟨t', ht', rfl⟩ := map_eq_some_iff.mp hstep
      have ha := Call.next_advances ht'
      have hordered : Ordered (s.calls.set i t') := h.ordered.set hi ha of_decide_eq_true
      by_cases hended : t'.phase = .ended
      · obtain ⟨hcalls, hbooks, hout⟩ := discard_books h hi (by rw [ha.ended hended]; rfl)
        simp only [if_pos hended, hcalls]
        exact ⟨hordered, hbooks.set hi ha fun _ => hout⟩
      · rw [if_neg hended]
        exact ⟨hordered, h.books.set hi ha fun h => absurd h hended⟩

/-- **The lock in every run**: while a writer is in the body nobody else is, and when all calls of a key have ended there
are no readers and no writer for it (what stays of `key_to_current_readers` is an empty set). -/
theorem read_write_exclusive {κ : Type} [DecidableEq κ] {l : κ → Slot} {actions : List (κ × Action)}
    (hrun : run (fun _ => .new) actions = some l) (key : κ) :
    (∀ {i j : ℕ} {t u : Call}, (l key).calls[i]? = some t → (l key).calls[j]? = some u → i ≠ j →
      t.kind = .writer → t.phase = .holding → u.phase ≠ .holding) ∧
    ((∀ t ∈ (l key).calls, t.phase = .ended) → (l key).readers = ∅ ∧ (l key).currentWriter = none) := by
  have h : Inv (l key) := keyed_preserves step_inv (fun _ => new_inv) hrun key
  refine ⟨fun {i j t u} hi hj hne hkind ht hu => ?_, fun hended => ⟨?_, ?_⟩⟩
  · rcases Nat.lt_or_gt_of_ne hne with hlt | hlt
    · exact h.ordered.not_both hj hi hlt (.inr hkind) hu ht
    · exact h.ordered.not_both hi hj hlt (.inl hkind) ht hu
  · refine eq_empty_of_forall_notMem fun j hj => ?_
    obtain ⟨t, ht, -, hopen⟩ := h.books.reader j hj
    exact hopen (hended t (List.mem_of_getElem? ht))
  · refine eq_none_iff_forall_ne_some.mpr fun w hw => ?_
    obtain ⟨t, ht, -, hopen⟩ := h.books.current hw
    exact hopen (hended t (List.mem_of_getElem? ht))

/-! ## No deadlock -/

/-- A call can go on without being cancelled. -/
def GoesOn (s : Slot) : Prop := ∃ i event, event ≠ .cancel ∧ (step s (.go i event)).isSome = true

/-- Calls wait for calls that came before them. -/
def WaitsBack (calls : List Call) : Prop := ∀ (i : ℕ) (t : Call), calls[i]? = some t → ∀ j ∈ t.toWaitOn, j < i

theorem WaitsBack.concat {calls : List Call} {new : Call} (h : WaitsBack calls)
    (hnew : ∀ j ∈ new.toWaitOn, j < calls.length) : WaitsBack (calls ++ [new]) := by
  intro i t ht
  rcases getElem?_concat_cases ht with ht | ⟨rfl, rfl⟩
  · exact h i t ht
  · exact hnew

theorem step_waitsBack {s s' : Slot} {a : Action} (h : Inv s) (hback : WaitsBack s.calls) (hstep : step s a = some s') :
    WaitsBack s'.calls := by
  have hwriter : ∀ w, s.currentWriter = some w → w < s.calls.length := by
    intro w hw
    obtain ⟨t, ht, -⟩ := h.books.current hw
    exact (List.getElem?_eq_some_iff.mp ht).1
  cases a with
  | read =>
    cases hstep
    refine hback.concat fun j hj => ?_
    split at hj
    · next hw => exact hwriter j (by rw [hw, mem_singleton.mp hj])
    · exact absurd hj (notMem_empty j)
  | write =>
    cases hstep
    have hreader : ∀ j ∈ s.readers, j < s.calls.length := by
      intro j hj
      obtain ⟨t, ht, -⟩ := h.books.reader j hj
      exact (List.getElem?_eq_some_iff.mp ht).1
    refine hback.concat fun j hj => ?_
    split at hj
    · next hw => exact (mem_insert.mp hj).elim (fun hj => hwriter j (by rw [hw, hj])) (hreader j)
    · exact hreader j hj
  | go i event =>
    cases hi : s.calls[i]? with
    | none =>
      simp only [step, hi] at hstep
      cases hstep
    | some t =>
      simp only [step, hi] at hstep
      obtain ⟨t', ht', rfl⟩ := map_eq_some_iff.mp hstep
      have hcalls : (if t'.phase = .ended then s.discard i t.kind else s).calls = s.calls := by
        cases t.kind <;> simp only [Slot.discard] <;> split_ifs <;> rfl
      simp only [hcalls]
      intro k u hu
      rcases getElem?_set_cases hu with ⟨rfl, rfl⟩ | ⟨-, hu⟩
      · rw [(Call.next_advances ht').toWaitOn]
        exact hback _ t hi
      · exact hback k u hu

/-- **The lock has no deadlock.**  In every run, as long as a call of the key has not ended, some call can go on, and need
not be cancelled for it. -/
theorem never_deadlocked {κ : Type} [DecidableEq κ] {l : κ → Slot} {actions : List (κ × Action)}
    (hrun : run (fun _ => .new) actions = some l) (key : κ) (hopen : ∃ t ∈ (l key).calls, t.phase ≠ .ended) :
    GoesOn (l key) := by
  have h := keyed_preserves (I := fun s => Inv s ∧ WaitsBack s.calls)
    (fun hs ha => ⟨step_inv hs.1 ha, step_waitsBack hs.1 hs.2 ha⟩) (fun _ => ⟨new_inv, fun i t ht => by cases ht⟩) hrun key
  obtain ⟨t, hmem, hphase⟩ := hopen
  obtain ⟨i, hi⟩ := List.mem_iff_getElem?.mp hmem
  clear hmem
  -- a call that is not ready waits for one that came earlier
  induction i using Nat.strong_induction_on generalizing t with
  | _ i ih =>
    have hgo : ∀ event, event ≠ .cancel → (t.next ((l key).ready t) event).isSome = true → GoesOn (l key) := by
      intro event hevent hnext
      refine ⟨i, event, hevent, ?_⟩
      simp only [step, hi, isSome_map]
      exact hnext
    cases ht : t.phase with
    | waiting =>
      by_cases hready : (l key).ready t = true
      · exact hgo .resume nofun (by simp [Call.next, ht, hready])
      have hblocked : ∃ j ∈ t.toWaitOn, ¬ (l key).calls[j]?.any (·.phase.resolved) = true := by
        by_contra hnone
        push Not at hnone
        exact hready (decide_eq_true hnone)
      obtain ⟨j, hj, hany⟩ := hblocked
      have hlt := h.2 i t hi j hj
      have hu := List.getElem?_eq_getElem (hlt.trans (List.getElem?_eq_some_iff.mp hi).1)
      refine ih j hlt _ (fun hended => hany ?_) hu
      rw [hu, any_some, hended]
      rfl
    | holding => exact hgo .leave nofun (by simp [Call.next, ht])
    | releasing => exact hgo .finish nofun (by simp [Call.next, ht])
    | ended => exact absurd ht hphase

/-- A reader and a second writer wait for a writer, and both are cancelled: the reader ends, and the second writer ends
after the first one. -/
def cancelledWaiters : List (Unit × Action) :=
  [.write, .go 0 .resume, .read, .write, .go 1 .cancel, .go 1 .finish, .go 2 .cancel,
    .go 0 .leave, .go 2 .resume, .go 2 .finish, .go 0 .finish].map ((), ·)

theorem exclusive_cancelled : ∃ l : Unit → Slot, run (fun _ => .new) cancelledWaiters = some l ∧
    (l ()).readers = ∅ ∧ (l ()).currentWriter = none := by
  have hends : (run (fun _ => .new) cancelledWaiters).map (fun l => decide (∀ t ∈ (l ()).calls, t.phase = .ended)) =
      some true := by decide +kernel
  obtain ⟨l, hrun, hended⟩ := map_eq_some_iff.mp hends
  exact ⟨l, hrun, (read_write_exclusive hrun ()).2 (of_decide_eq_true hended)⟩

/-- While both wait, the writer in the body can leave it. -/
theorem goes_on_while_waiting : ∃ l : Unit → Slot, run (fun _ => .new) (cancelledWaiters.take 4) = some l ∧ GoesOn (l ()) := by
  have hopen : (run (fun _ => .new) (cancelledWaiters.take 4)).map (fun l => decide (∃ t ∈ (l ()).calls, t.phase ≠ .ended)) =
      some true := by decide +kernel
  obtain ⟨l, hrun, hl⟩ := map_eq_some_iff.mp hopen
  exact ⟨l, hrun, never_deadlocked hrun () (of_decide_eq_true hl)⟩

end Synapse.Async.ReadWriteLock
