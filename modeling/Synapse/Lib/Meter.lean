import Mathlib.Algebra.Order.Field.Basic
import Mathlib.Tactic.Linarith
import Mathlib.Tactic.Ring

/-!
# Synapse.Lib.Meter — a leaky bucket as a meter

* `Meter`: a level at some time, which leaks at a constant rate until it is zero.
* `Meter.offer`: an amount is admitted if there is room for it.
* `Meter.admitted`: how much of a list of offers is admitted in a window of time.
* **`Meter.admitted_le`**: at most the capacity, and what leaks in the window.
-/

namespace Synapse.Lib

open List

variable {𝕜 : Type} [Field 𝕜] [LinearOrder 𝕜]

/-- A level, and the time it was measured. -/
structure Meter (𝕜 : Type) where
  level : 𝕜
  since : 𝕜

namespace Meter

section Definitions

variable (rate burst : 𝕜)

def levelAt (m : Meter 𝕜) (now : 𝕜) : 𝕜 := max 0 (m.level - (now - m.since) * rate)

/-- Is there room for `n`? -/
def offer (m : Meter 𝕜) (now n : 𝕜) : Bool × Meter 𝕜 :=
  if m.levelAt rate now > burst - n then (false, ⟨m.levelAt rate now, now⟩) else (true, ⟨m.levelAt rate now + n, now⟩)

/-- What is admitted from `first` to `last`, of offers with their times. -/
def admitted (first last : 𝕜) : Meter 𝕜 → List (𝕜 × 𝕜) → 𝕜
  | _, [] => 0
  | m, (now, n) :: offers =>
    (if (m.offer rate burst now n).1 ∧ first ≤ now ∧ now ≤ last then n else 0) +
      admitted first last (m.offer rate burst now n).2 offers

end Definitions

variable {rate burst first last : 𝕜} {m : Meter 𝕜}

theorem levelAt_nonneg (rate : 𝕜) (m : Meter 𝕜) (now : 𝕜) : 0 ≤ m.levelAt rate now := le_max_left _ _

theorem le_levelAt (rate : 𝕜) (m : Meter 𝕜) (now : 𝕜) : m.level - (now - m.since) * rate ≤ m.levelAt rate now := le_max_right _ _

variable {now : 𝕜}

theorem offer_congr {m' : Meter 𝕜} (h : m.levelAt rate now = m'.levelAt rate now) {n : 𝕜} :
    m.offer rate burst now n = m'.offer rate burst now n := by
  unfold offer
  rw [h]

variable {offers : List (𝕜 × 𝕜)}

theorem admitted_past (hpast : ∀ o ∈ offers, last < o.1) : admitted rate burst first last m offers = 0 := by
  induction offers generalizing m with
  | nil => rfl
  | cons o offers ih =>
    obtain ⟨now, n⟩ := o
    have hnow : ¬ now ≤ last := not_le.mpr (hpast (now, n) mem_cons_self)
    rw [admitted, ih fun o ho => hpast o (mem_cons_of_mem _ ho), if_neg fun h => hnow h.2.2, add_zero]

variable [IsStrictOrderedRing 𝕜]

variable (hrate : 0 ≤ rate) (hburst : 0 ≤ burst) (hlevel : m.level ≤ burst)
include hrate hburst hlevel

theorem levelAt_le_burst (hnow : m.since ≤ now) : m.levelAt rate now ≤ burst := by
  have hleak : 0 ≤ (now - m.since) * rate := mul_nonneg (sub_nonneg.mpr hnow) hrate
  exact max_le hburst (by linarith)

/-- What an offer does: the level goes up by what is admitted, and stays within the capacity. -/
theorem offer_spec (hnow : m.since ≤ now)
    (n : 𝕜) : (m.offer rate burst now n).2.since = now ∧ (m.offer rate burst now n).2.level ≤ burst ∧
      (m.offer rate burst now n).2.level = m.levelAt rate now + if (m.offer rate burst now n).1 then n else 0 := by
  have hle := levelAt_le_burst hrate hburst hlevel hnow
  unfold offer
  by_cases hfull : m.levelAt rate now > burst - n
  · rw [if_pos hfull]
    exact ⟨rfl, hle, by simp⟩
  · rw [if_neg hfull]
    exact ⟨rfl, by linarith, by simp⟩

/-- From a time in the window, there is room for what the level leaves, and for what leaks. -/
theorem admitted_le_of_since
    (hfirst : first ≤ m.since) (hlast : m.since ≤ last) (hsorted : ((m.since :: offers.map Prod.fst).Pairwise (· ≤ ·))) :
    admitted rate burst first last m offers ≤ burst - m.level + rate * (last - m.since) := by
  induction offers generalizing m with
  | nil =>
    have hleak := mul_nonneg hrate (sub_nonneg.mpr hlast)
    rw [admitted]
    linarith
  | cons o offers ih =>
    obtain ⟨now, n⟩ := o
    obtain ⟨hsince, hrest⟩ := pairwise_cons.mp hsorted
    have hnow : m.since ≤ now := hsince now mem_cons_self
    by_cases hpast : last < now
    · have hall : ∀ o ∈ (now, n) :: offers, last < o.1 := forall_mem_cons.mpr ⟨hpast, fun o ho =>
        hpast.trans_le ((pairwise_cons.mp hrest).1 o.1 (mem_map_of_mem ho))⟩
      have hleak := mul_nonneg hrate (sub_nonneg.mpr hlast)
      rw [admitted_past hall]
      linarith
    · have hin : now ≤ last := not_lt.mp hpast
      obtain ⟨hsince', hlevel', hadded⟩ := offer_spec hrate hburst hlevel hnow n
      have hih := ih hlevel' (by rw [hsince']; exact hfirst.trans hnow) (by rw [hsince']; exact hin)
        (by rw [hsince']; exact hrest)
      have hleft := le_levelAt rate m now
      have hcount : (if (m.offer rate burst now n).1 ∧ first ≤ now ∧ now ≤ last then n else 0) =
          if (m.offer rate burst now n).1 then n else 0 :=
        if_congr (and_iff_left ⟨hfirst.trans hnow, hin⟩) rfl rfl
      rw [admitted, hcount]
      rw [hsince', hadded] at hih
      linarith

/-- **The bound of a meter**, for offers in the order of their times. -/
theorem admitted_le (hwindow : first ≤ last) (hsorted : (m.since :: offers.map Prod.fst).Pairwise (· ≤ ·)) :
    admitted rate burst first last m offers ≤ burst + rate * (last - first) := by
  have hspan := mul_nonneg hrate (sub_nonneg.mpr hwindow)
  induction offers generalizing m with
  | nil =>
    rw [admitted]
    linarith
  | cons o offers ih =>
    obtain ⟨now, n⟩ := o
    obtain ⟨hsince, hrest⟩ := pairwise_cons.mp hsorted
    have hnow : m.since ≤ now := hsince now mem_cons_self
    obtain ⟨hsince', hlevel', hadded⟩ := offer_spec hrate hburst hlevel hnow n
    have hrest' : ((m.offer rate burst now n).2.since :: offers.map Prod.fst).Pairwise (· ≤ ·) := by
      rw [hsince']
      exact hrest
    rw [admitted]
    by_cases hin : first ≤ now ∧ now ≤ last
    · -- the first offer in the window
      have hfirst := hsince'.symm ▸ hin.1
      have hlast := hsince'.symm ▸ hin.2
      have hbound := admitted_le_of_since hrate hburst hlevel' hfirst hlast hrest'
      have hcount : (if (m.offer rate burst now n).1 ∧ first ≤ now ∧ now ≤ last then n else 0) =
          if (m.offer rate burst now n).1 then n else 0 := if_congr (and_iff_left hin) rfl rfl
      have hnonneg := levelAt_nonneg rate m now
      have hleak := mul_le_mul_of_nonneg_left (sub_le_sub_left hin.1 last) hrate
      rw [hsince', hadded] at hbound
      linarith
    · rw [if_neg fun h => hin h.2, zero_add]
      exact ih hlevel' hrest'

end Meter

end Synapse.Lib
