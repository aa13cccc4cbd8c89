import Mathlib.Data.List.Basic

/-!
# Synapse.Lib.Numbered — lists whose places are ids

A list that grows at its end and whose elements are replaced in place, so that the place of an element names it.

* `getElem?_concat_cases`, `getElem?_set_cases`: what is at a place after a change.
* `countP_set_add`: how a count changes.
* `countP_le_one`: a property that two places do not share.
-/

namespace Synapse.Lib

open List Option

variable {α : Type} {l : List α} {x y : α} {i j : ℕ}

theorem getElem?_concat_of_some (h : l[i]? = some x) : (l ++ [y])[i]? = some x := by
  rw [getElem?_append_left (List.getElem?_eq_some_iff.mp h).1, h]

theorem getElem?_concat_cases (h : (l ++ [y])[i]? = some x) : l[i]? = some x ∨ (i = l.length ∧ x = y) := by
  rcases Nat.lt_or_ge i l.length with hlt | hge
  · rw [getElem?_append_left hlt] at h
    exact .inl h
  have hi : i = l.length := by
    have hlen := (List.getElem?_eq_some_iff.mp h).1
    rw [length_append, length_singleton] at hlen
    omega
  subst hi
  rw [getElem?_concat_length] at h
  exact .inr ⟨rfl, (some.inj h).symm⟩

theorem getElem?_set_cases (h : (l.set i y)[j]? = some x) : (j = i ∧ x = y) ∨ (j ≠ i ∧ l[j]? = some x) := by
  rw [getElem?_set] at h
  by_cases hij : i = j
  · subst hij
    rw [if_pos rfl] at h
    split at h
    · exact .inl ⟨rfl, (some.inj h).symm⟩
    · cases h
  · rw [if_neg hij] at h
    exact .inr ⟨Ne.symm hij, h⟩

theorem getElem?_set_of_some (h : l[i]? = some x) (y : α) : (l.set i y)[i]? = some y := by
  rw [getElem?_set_self (List.getElem?_eq_some_iff.mp h).1]

theorem countP_set_add {p : α → Bool} (h : l[i]? = some x) (y : α) :
    (l.set i y).countP p + (if p x then 1 else 0) = l.countP p + (if p y then 1 else 0) := by
  obtain ⟨hlt, hx⟩ := List.getElem?_eq_some_iff.mp h
  rw [countP_set hlt, hx]
  have hpos : (if p x then 1 else 0) ≤ l.countP p := by
    split
    · exact countP_pos_iff.mpr ⟨x, mem_of_getElem? h, ‹_›⟩
    · exact Nat.zero_le _
  omega

theorem countP_le_one {p : α → Bool}
    (h : ∀ {i j : ℕ} {x y : α}, l[i]? = some x → l[j]? = some y → p x = true → p y = true → i = j) : l.countP p ≤ 1 := by
  induction l with
  | nil => exact Nat.zero_le 1
  | cons a l ih =>
    by_cases ha : p a = true
    · have hrest : l.countP p = 0 := by
        refine countP_eq_zero.mpr fun y hy hpy => ?_
        obtain ⟨j, hj⟩ := mem_iff_getElem?.mp hy
        have hzero : 0 = j + 1 := h rfl (getElem?_cons_succ.trans hj) ha hpy
        omega
      have hone : (a :: l).countP p = 1 := by rw [countP_cons_of_pos ha, hrest]
      exact Nat.le_of_eq hone
    · rw [countP_cons_of_neg ha]
      refine ih fun hx hy hpx hpy => ?_
      have := h (getElem?_cons_succ.trans hx) (getElem?_cons_succ.trans hy) hpx hpy
      omega

end Synapse.Lib
