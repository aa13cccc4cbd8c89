import Mathlib.Data.Finset.Card
import Mathlib.Data.Finset.Union
import Mathlib.Tactic.Ring

/-!
# Synapse.Lib.Rounds — batches, and searches that go a round at a time

* `batchIter`: a list in batches of a given size; `exists_mem_batchIter`, `flatten_batchIter`.
* `frontier`: a search of a graph where each round takes the successors of the last one that have not been seen.
* `mem_frontier`: with a bound on what can be seen as fuel, it finds what can be reached, and nothing else.
* `mem_foldl_frontier`: searches from one batch after the other, with the set of what has been seen shared.
* `popSearch`, `mem_popSearch`: a search that takes one element at a time.
-/

namespace Synapse.Lib

open Relation Finset

variable {α : Type}

/-! ## Batches -/

/-- The elements at `i * size`, `i * size + 1`, ..., for each `i`. -/
def batchIter (size : ℕ) (l : List α) : List (List α) :=
  (List.range ((l.length + size - 1) / size)).map fun i => (l.drop (i * size)).take size

theorem flatten_take_batches (size : ℕ) (l : List α) (n : ℕ) :
    ((List.range n).map fun i => (l.drop (i * size)).take size).flatten = l.take (n * size) := by
  induction n with
  | zero => simp
  | succ n ih =>
    rw [List.range_succ, List.map_append, List.flatten_append, ih, List.map_singleton, List.flatten_singleton,
      Nat.succ_mul, List.take_add]

theorem flatten_batchIter {size : ℕ} (hsize : 0 < size) (l : List α) : (batchIter size l).flatten = l := by
  rw [batchIter, flatten_take_batches]
  apply List.take_of_length_le
  have h : (l.length + size - 1) / size * size + (l.length + size - 1) % size = l.length + size - 1 := by
    rw [mul_comm]
    exact Nat.div_add_mod _ _
  have hmod := Nat.mod_lt (l.length + size - 1) hsize
  omega

theorem exists_mem_batchIter {size : ℕ} (hsize : 0 < size) {l : List α} {x : α} :
    (∃ batch ∈ batchIter size l, x ∈ batch) ↔ x ∈ l := by
  rw [← List.mem_flatten, flatten_batchIter hsize]

/-! ## Searches -/

variable [DecidableEq α] (succ : α → Finset α)

/-- `while todo: todo = successors(todo) - seen; seen |= todo`, as a function of fuel. -/
def frontier : ℕ → Finset α → Finset α → Finset α
  | 0, _, seen => seen
  | fuel + 1, todo, seen =>
    if todo = ∅ then seen else frontier fuel (todo.biUnion succ \ seen) (seen ∪ todo.biUnion succ)

def Step (a b : α) : Prop := b ∈ succ a

variable {succ} {seen todo : Finset α} {y : α}

/-- From a set that is closed but for some elements, what is reached is in the set or reached from those. -/
theorem reached_of_closed (hclosed : ∀ x ∈ seen, x ∉ todo → succ x ⊆ seen) {x : α}
    (hx : x ∈ seen) (hxy : TransGen (Step succ) x y) : y ∈ seen ∨ ∃ z ∈ todo, TransGen (Step succ) z y := by
  induction hxy using TransGen.head_induction_on with
  | single h =>
    rename_i x
    by_cases ht : x ∈ todo
    · exact .inr ⟨x, ht, .single h⟩
    · exact .inl (hclosed x hx ht h)
  | head h hrest ih =>
    rename_i x z
    by_cases ht : x ∈ todo
    · exact .inr ⟨x, ht, .head h hrest⟩
    · exact ih (hclosed x hx ht h)

theorem closed_round (hclosed : ∀ x ∈ seen, x ∉ todo → succ x ⊆ seen) :
    ∀ x ∈ seen ∪ todo.biUnion succ, x ∉ todo.biUnion succ \ seen → succ x ⊆ seen ∪ todo.biUnion succ := by
  intro x hx hnew
  have hseen : x ∈ seen := by
    rcases mem_union.mp hx with hx | hx
    · exact hx
    · by_contra hns
      exact hnew (mem_sdiff.mpr ⟨hx, hns⟩)
  by_cases ht : x ∈ todo
  · exact (subset_biUnion_of_mem succ ht).trans subset_union_right
  · exact (hclosed x hseen ht).trans subset_union_left

variable {bound : Finset α}

theorem card_round (hbound : ∀ x, succ x ⊆ bound) (hnew : todo.biUnion succ \ seen ≠ ∅) :
    (bound \ (seen ∪ todo.biUnion succ)).card < (bound \ seen).card := by
  obtain ⟨x, hx⟩ := nonempty_iff_ne_empty.mpr hnew
  obtain ⟨hx, hns⟩ := mem_sdiff.mp hx
  obtain ⟨z, -, hz⟩ := mem_biUnion.mp hx
  refine card_lt_card ((ssubset_iff_of_subset ?_).mpr ⟨x, ?_, ?_⟩)
  · exact sdiff_subset_sdiff (Subset.refl _) subset_union_left
  · exact mem_sdiff.mpr ⟨hbound z hz, hns⟩
  · exact fun h => (mem_sdiff.mp h).2 (mem_union_right _ hx)

variable {fuel : ℕ}

theorem mem_frontier (hbound : ∀ x, succ x ⊆ bound)
    (hclosed : ∀ x ∈ seen, x ∉ todo → succ x ⊆ seen) (hfuel : todo = ∅ ∨ (bound \ seen).card < fuel) :
    y ∈ frontier succ fuel todo seen ↔ y ∈ seen ∨ ∃ x ∈ todo, TransGen (Step succ) x y := by
  induction fuel generalizing todo seen with
  | zero =>
    obtain rfl : todo = ∅ := hfuel.resolve_right (Nat.not_lt_zero _)
    simp [frontier]
  | succ fuel ih =>
    rw [frontier]
    by_cases hempty : todo = ∅
    · rw [if_pos hempty]
      simp [hempty]
    rw [if_neg hempty]
    have hfuel' : todo.biUnion succ \ seen = ∅ ∨ (bound \ (seen ∪ todo.biUnion succ)).card < fuel := by
      by_cases hnew : todo.biUnion succ \ seen = ∅
      · exact .inl hnew
      · have hlt := card_round hbound hnew
        have hfuel := hfuel.resolve_left hempty
        exact .inr (by omega)
    rw [ih (closed_round hclosed) hfuel']
    constructor
    · rintro (hy | ⟨x, hx, hxy⟩)
      · rcases mem_union.mp hy with hy | hy
        · exact .inl hy
        · obtain ⟨x, hx, hxy⟩ := mem_biUnion.mp hy
          exact .inr ⟨x, hx, .single hxy⟩
      · obtain ⟨z, hz, hzx⟩ := mem_biUnion.mp (mem_sdiff.mp hx).1
        exact .inr ⟨z, hz, .head hzx hxy⟩
    · rintro (hy | ⟨x, hx, hxy⟩)
      · exact .inl (mem_union_left _ hy)
      obtain ⟨z, hxz, hzy⟩ := TransGen.head'_iff.mp hxy
      have hz : z ∈ seen ∪ todo.biUnion succ := mem_union_right _ (mem_biUnion.mpr ⟨x, hx, hxz⟩)
      rcases reflTransGen_iff_eq_or_transGen.mp hzy with rfl | hzy
      · exact .inl hz
      · exact reached_of_closed (closed_round hclosed) hz hzy

theorem mem_foldl_frontier (hbound : ∀ x, succ x ⊆ bound) (hfuel : bound.card < fuel)
    (batches : List (List α)) (hclosed : ∀ x ∈ seen, succ x ⊆ seen) :
    y ∈ batches.foldl (fun seen batch => frontier succ fuel batch.toFinset seen) seen ↔
      y ∈ seen ∨ ∃ batch ∈ batches, ∃ x ∈ batch, TransGen (Step succ) x y := by
  induction batches generalizing seen with
  | nil => simp
  | cons batch batches ih =>
    have hmem : ∀ y, y ∈ frontier succ fuel batch.toFinset seen ↔
        y ∈ seen ∨ ∃ x ∈ batch.toFinset, TransGen (Step succ) x y := fun y =>
      mem_frontier hbound (fun x hx _ => hclosed x hx)
        (.inr ((card_le_card sdiff_subset).trans_lt hfuel))
    rw [List.foldl_cons, ih, hmem]
    · simp only [List.mem_toFinset, List.mem_cons, exists_eq_or_imp, or_assoc]
    intro x hx z hz
    rw [hmem] at hx ⊢
    rcases hx with hx | ⟨w, hw, hwx⟩
    · exact .inl (hclosed x hx hz)
    · exact .inr ⟨w, hw, .tail hwx hz⟩

/-! ## One element at a time -/

/-- `while todo: x = todo.pop(); seen.add(x); todo.update(successors(x) - seen)`, as a function of fuel. -/
def popSearch (pop : Finset α → List α) (succ : α → Finset α) : ℕ → Finset α → Finset α → Finset α
  | 0, _, seen => seen
  | fuel + 1, todo, seen =>
    match pop todo with
    | [] => seen
    | x :: _ => popSearch pop succ fuel (todo.erase x ∪ succ x \ insert x seen) (insert x seen)

/-- What is to be done has not been seen, and what was seen leads to what was seen or is to be done. -/
structure Searching (succ : α → Finset α) (bound todo seen : Finset α) : Prop where
  unseen : todo ⊆ bound \ seen
  closed : ∀ x ∈ seen, succ x ⊆ seen ∪ todo

namespace Searching

variable {bound todo seen : Finset α} {x y : α}

variable (h : Searching succ bound todo seen)
include h

theorem pop (hbound : succ x ⊆ bound) :
    Searching succ bound (todo.erase x ∪ succ x \ insert x seen) (insert x seen) where
  unseen z hz := by
    rcases mem_union.mp hz with hz | hz
    · obtain ⟨hne, hz⟩ := mem_erase.mp hz
      obtain ⟨hzb, hzs⟩ := mem_sdiff.mp (h.unseen hz)
      exact mem_sdiff.mpr ⟨hzb, by simp [hne, hzs]⟩
    · obtain ⟨hz, hzs⟩ := mem_sdiff.mp hz
      exact mem_sdiff.mpr ⟨hbound hz, hzs⟩
  closed w hw z hz := by
    by_cases hzs : z ∈ insert x seen
    · exact mem_union_left _ hzs
    refine mem_union_right _ ?_
    rcases mem_insert.mp hw with rfl | hw
    · exact mem_union_right _ (mem_sdiff.mpr ⟨hz, hzs⟩)
    have hzt : z ∈ todo := (mem_union.mp (h.closed w hw hz)).resolve_left
      fun hmem => hzs (mem_insert_of_mem hmem)
    refine mem_union_left _ (mem_erase.mpr ⟨?_, hzt⟩)
    rintro rfl
    exact hzs (mem_insert_self z seen)

theorem leave (hx : x ∈ seen) (hpath : ReflTransGen (Step succ) x y) :
    y ∈ seen ∨ ∃ z ∈ todo, ReflTransGen (Step succ) z y := by
  induction hpath using ReflTransGen.head_induction_on with
  | refl => exact .inl hx
  | head hstep hrest ih =>
    rcases mem_union.mp (h.closed _ hx hstep) with hz | hz
    · exact ih hz
    · exact .inr ⟨_, hz, hrest⟩

theorem card_lt (hx : x ∈ todo) : (bound \ insert x seen).card < (bound \ seen).card := by
  refine card_lt_card ((ssubset_iff_of_subset ?_).mpr ⟨x, h.unseen hx, ?_⟩)
  · exact sdiff_subset_sdiff subset_rfl (subset_insert x seen)
  · exact fun hmem => (mem_sdiff.mp hmem).2 (mem_insert_self x seen)

theorem found_pop (hbound : succ x ⊆ bound) (hx : x ∈ todo) :
    (y ∈ insert x seen ∨ ∃ z ∈ todo.erase x ∪ succ x \ insert x seen, ReflTransGen (Step succ) z y) ↔
      y ∈ seen ∨ ∃ z ∈ todo, ReflTransGen (Step succ) z y := by
  constructor
  · rintro (hy | ⟨z, hz, hzy⟩)
    · rcases mem_insert.mp hy with rfl | hy
      · exact .inr ⟨y, hx, .refl⟩
      · exact .inl hy
    · rcases mem_union.mp hz with hz | hz
      · exact .inr ⟨z, (mem_erase.mp hz).2, hzy⟩
      · exact .inr ⟨x, hx, .head (mem_sdiff.mp hz).1 hzy⟩
  · rintro (hy | ⟨z, hz, hzy⟩)
    · exact .inl (mem_insert_of_mem hy)
    · by_cases hzx : z = x
      · exact (h.pop hbound).leave (hzx ▸ mem_insert_self x seen) hzy
      · exact .inr ⟨z, mem_union_left _ (mem_erase.mpr ⟨hzx, hz⟩), hzy⟩

end Searching

/-- **The search is exact**: it finds what is reached from the elements it starts with. -/
theorem mem_popSearch {pop : Finset α → List α} (hpop : ∀ s x, x ∈ pop s ↔ x ∈ s) (hbound : ∀ x, succ x ⊆ bound)
    (h : Searching succ bound todo seen) (hfuel : (bound \ seen).card ≤ fuel) :
    y ∈ popSearch pop succ fuel todo seen ↔ y ∈ seen ∨ ∃ x ∈ todo, ReflTransGen (Step succ) x y := by
  induction fuel generalizing todo seen with
  | zero =>
    have hnone : bound \ seen = ∅ := card_eq_zero.mp (Nat.le_zero.mp hfuel)
    have hempty : todo = ∅ := subset_empty.mp (hnone ▸ h.unseen)
    simp [popSearch, hempty]
  | succ fuel ih =>
    rw [popSearch]
    cases hhead : pop todo with
    | nil =>
      have hempty : todo = ∅ := eq_empty_iff_forall_notMem.mpr fun x hx => by
        rw [← hpop, hhead] at hx
        cases hx
      simp [hempty]
    | cons x rest =>
      have hx : x ∈ todo := (hpop todo x).mp (by rw [hhead]; exact List.mem_cons_self)
      have hlt := h.card_lt hx
      rw [ih (h.pop (hbound x)) (by omega), h.found_pop (hbound x) hx]

end Synapse.Lib
