import Mathlib.Data.Finset.Max
import Mathlib.Order.Interval.Finset.Defs
import Mathlib.Algebra.Order.Group.Int

/-!
# Synapse.Lib.Watermark — numbers drawn from a growing counter

Owners draw numbers from one counter, hold them for a while and let them go.  A watermark of an owner is a number below
everything that the owner holds or will draw.

* `Ledger.Grows`: what drawing and letting go do to a ledger.
* `Ledger.ClearOf`, `Ledger.Clear`: watermarks of one owner and of all; they stay watermarks (`ClearOf.mono`).
* `Ledger.Settled`: numbers that are let go for good; a watermark moves over them (`ClearOf.succ`).
* `least`, `greatest`: the ends of a finite set.
-/

namespace Synapse.Lib

open Finset

/-! ## Ends of a finite set -/

section Ends

variable {α : Type} [LinearOrder α] {s : Finset α} {a : α}

def least (s : Finset α) : Option α := s.min

def greatest (s : Finset α) : Option α := s.max

theorem least_mem (h : least s = some a) : a ∈ s := mem_of_min h

theorem least_le (h : least s = some a) {b : α} (hb : b ∈ s) : a ≤ b := min_le_of_eq hb h

theorem least_eq_none : least s = none ↔ s = ∅ := Finset.min_eq_top

theorem greatest_mem (h : greatest s = some a) : a ∈ s := mem_of_max h

theorem greatest_getD_le {d b : α} (hd : d ≤ b) (h : ∀ x ∈ s, x ≤ b) : (greatest s).getD d ≤ b := by
  rcases hg : greatest s with _ | m
  · exact hd
  · exact h m (greatest_mem hg)

theorem le_greatest (h : greatest s = some a) {b : α} (hb : b ∈ s) : b ≤ a := le_max_of_eq hb h

theorem exists_greatest (ha : a ∈ s) : ∃ m, greatest s = some m ∧ a ≤ m := by
  obtain ⟨m, hm⟩ := max_of_mem ha
  exact ⟨m, hm, le_greatest hm ha⟩

end Ends

/-! ## Ledgers -/

/-- The last number drawn, and the numbers each owner holds. -/
structure Ledger (ι : Type) where
  last : ℤ
  held : ι → Set ℤ

namespace Ledger

variable {ι : Type} (L : Ledger ι)

/-- `p` is below everything that the owner holds or will draw. -/
def ClearOf (i : ι) (p : ℤ) : Prop := p ≤ L.last ∧ ∀ n ∈ L.held i, p < n

/-- `p` is below everything that anyone holds or will draw. -/
def Clear (p : ℤ) : Prop := ∀ i, L.ClearOf i p

/-- `p` is drawn or passed over, and nobody holds it. -/
def Settled (p : ℤ) : Prop := p ≤ L.last ∧ ∀ i, p ∉ L.held i

/-- `L'` is `L` after some numbers were drawn and some let go. -/
structure Grows (L L' : Ledger ι) : Prop where
  last : L.last ≤ L'.last
  held : ∀ i, ∀ n ∈ L'.held i, n ∈ L.held i ∨ L.last < n

variable {L} {L' : Ledger ι} {i : ι} {p q : ℤ}

theorem ClearOf.mono (hp : L.ClearOf i p) (h : L.Grows L') : L'.ClearOf i p := by
  refine ⟨hp.1.trans h.last, fun n hn => ?_⟩
  rcases h.held i n hn with hn | hn
  · exact hp.2 n hn
  · exact hp.1.trans_lt hn

theorem Settled.mono (hp : L.Settled p) (h : L.Grows L') : L'.Settled p := by
  refine ⟨hp.1.trans h.last, fun i hn => ?_⟩
  rcases h.held i p hn with hn | hn
  · exact hp.2 i hn
  · exact absurd hp.1 (not_le.mpr hn)

theorem ClearOf.le (hp : L.ClearOf i p) (h : q ≤ p) : L.ClearOf i q :=
  ⟨h.trans hp.1, fun n hn => h.trans_lt (hp.2 n hn)⟩

/-- An owner that holds nothing has every drawn number for a watermark. -/
theorem clearOf_of_empty (h : L.held i = ∅) (hp : p ≤ L.last) : L.ClearOf i p :=
  ⟨hp, fun n hn => by simp [h] at hn⟩

theorem ClearOf.succ (hp : L.ClearOf i p) (h : L.Settled (p + 1)) : L.ClearOf i (p + 1) := by
  refine ⟨h.1, fun n hn => ?_⟩
  have hlt := hp.2 n hn
  have hne : n ≠ p + 1 := fun e => h.2 i (e ▸ hn)
  omega

theorem ClearOf.max (hp : L.ClearOf i p) (hq : L.ClearOf i q) : L.ClearOf i (max p q) := by
  rcases max_choice p q with h | h <;> rwa [h]

theorem Settled.max (hp : L.Settled p) (hq : L.Settled q) : L.Settled (max p q) := by
  rcases max_choice p q with h | h <;> rwa [h]

end Ledger

end Synapse.Lib
