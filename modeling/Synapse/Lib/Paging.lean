import Mathlib.Data.List.Sort
import Synapse.Lib.Outcome

/-!
# Synapse.Lib.Paging — reading an ordered table page by page

* `Direction.before`, `orderBy`: rows by a key, ascending or descending (`ORDER BY`).
* `filter_before_eq`: what lies beyond a row of an ordered list is the rest of the list.
* `readAll`: pages are read until one is empty, each with the cursor that came with the page before it.
* `readAll_ok`: the rule of the run.  `rem k` is what a reader at `k` still has to get, `left k` bounds the pages.
-/

namespace Synapse.Lib

open List

/-! ## Ordered rows -/

inductive Direction where
  | forwards
  | backwards
  deriving DecidableEq, Repr

namespace Direction

variable {P : Type} [LinearOrder P]

/-- `a` comes before `b` in this direction. -/
def before : Direction → P → P → Prop
  | forwards, a, b => a < b
  | backwards, a, b => b < a

/-- A cursor points behind the row it is made from, forwards: the rows from `a` on. -/
def pastStart : Direction → P → P → Prop
  | forwards, a, p => a < p
  | backwards, a, p => p ≤ a

/-- The rows up to the cursor `b`. -/
def upToEnd : Direction → P → P → Prop
  | forwards, b, p => p ≤ b
  | backwards, b, p => b < p

/-- `a` does not come after `b`. -/
def le : Direction → P → P → Prop
  | forwards, a, b => a ≤ b
  | backwards, a, b => b ≤ a

instance (dir : Direction) (a b : P) : Decidable (dir.before a b) := by
  unfold before
  split <;> infer_instance

instance (dir : Direction) (a b : P) : Decidable (dir.pastStart a b) := by
  unfold pastStart
  split <;> infer_instance

instance (dir : Direction) (a b : P) : Decidable (dir.upToEnd a b) := by
  unfold upToEnd
  split <;> infer_instance

instance (dir : Direction) (a b : P) : Decidable (dir.le a b) := by
  unfold le
  split <;> infer_instance

variable {dir : Direction} {a b c : P}

theorem before_iff : dir.before a b ↔ dir.le a b ∧ a ≠ b := by
  cases dir
  · exact lt_iff_le_and_ne
  · exact lt_iff_le_and_ne.trans (and_congr_right fun _ => ne_comm)

theorem not_before_of_before (h : dir.before a b) : ¬ dir.before b a := by
  cases dir <;> exact lt_asymm h

theorem before_irrefl (a : P) : ¬ dir.before a a := by
  cases dir <;> exact lt_irrefl a

theorem pastStart_of_before (hb : dir.pastStart a b) (hc : dir.before b c) : dir.pastStart a c := by
  cases dir
  · exact lt_trans hb hc
  · exact (lt_of_lt_of_le hc hb).le

end Direction

section OrderBy

variable {P α : Type} [LinearOrder P] (dir : Direction) (key : α → P)

/-- `ORDER BY key`, in a direction. -/
def orderBy (rows : List α) : List α := rows.insertionSort fun a b => dir.le (key a) (key b)

variable {dir key} {rows : List α}

theorem mem_orderBy {a : α} : a ∈ orderBy dir key rows ↔ a ∈ rows :=
  mem_insertionSort _

theorem perm_orderBy (rows : List α) : (orderBy dir key rows).Perm rows :=
  perm_insertionSort _ rows

theorem pairwise_le_orderBy (rows : List α) : (orderBy dir key rows).Pairwise fun a b => dir.le (key a) (key b) := by
  have : Std.Total fun a b : α => dir.le (key a) (key b) := ⟨fun a b => by
    cases dir
    · exact le_total (key a) (key b)
    · exact le_total (key b) (key a)⟩
  have : IsTrans α fun a b => dir.le (key a) (key b) := ⟨fun a b c hab hbc => by
    cases dir
    · exact le_trans hab hbc
    · exact le_trans hbc hab⟩
  exact pairwise_insertionSort _ rows

theorem pairwise_orderBy (hkeys : (rows.map key).Nodup) :
    (orderBy dir key rows).Pairwise fun a b => dir.before (key a) (key b) := by
  have hne : (orderBy dir key rows).Pairwise fun a b => key a ≠ key b := by
    have hnodup : ((orderBy dir key rows).map key).Nodup := ((perm_orderBy rows).map key).nodup_iff.mpr hkeys
    exact pairwise_map.mp hnodup
  refine ((pairwise_le_orderBy rows).and hne).imp fun h => ?_
  exact Direction.before_iff.mpr h

theorem orderBy_filter (hkeys : (rows.map key).Nodup) (p : α → Bool) :
    orderBy dir key (rows.filter p) = (orderBy dir key rows).filter p := by
  have hsub : ((rows.filter p).map key).Nodup := hkeys.sublist (filter_sublist.map key)
  have hperm : (orderBy dir key (rows.filter p)).Perm ((orderBy dir key rows).filter p) :=
    (perm_orderBy _).trans ((perm_orderBy rows).filter p).symm
  refine Perm.eq_of_pairwise (fun a b _ _ hab hba => ?_) (pairwise_orderBy hsub)
    ((pairwise_orderBy hkeys).filter p) hperm
  exact absurd hba (Direction.not_before_of_before hab)

theorem filter_before_eq {seen rest : List α} {x : α}
    (h : (seen ++ x :: rest).Pairwise fun a b => dir.before (key a) (key b)) :
    (seen ++ x :: rest).filter (fun a => dir.before (key x) (key a)) = rest := by
  obtain ⟨-, hrest, hseen⟩ := pairwise_append.mp h
  have h₁ : seen.filter (fun a => dir.before (key x) (key a)) = [] := by
    refine filter_eq_nil_iff.mpr fun a ha hxa => ?_
    exact Direction.not_before_of_before (hseen a ha x (by simp)) (of_decide_eq_true hxa)
  have h₂ : rest.filter (fun a => dir.before (key x) (key a)) = rest := by
    refine filter_eq_self.mpr fun a ha => ?_
    exact decide_eq_true ((pairwise_cons.mp hrest).1 a ha)
  rw [filter_append, h₁, filter_cons_of_neg (by simp [Direction.before_irrefl]), h₂, nil_append]

end OrderBy

/-! ## Pages -/

variable {κ α ε : Type}

/-- The rows of a page, and the cursor that is returned with them. -/
structure Page (κ α : Type) where
  rows : List α
  next : κ

/-- The rows of all pages up to the first empty one, and the cursor of that one. -/
def readAll (page : κ → Except ε (Page κ α)) : ℕ → κ → Except (Halt ε) (List α × κ)
  | 0, _ => .error .outOfFuel
  | fuel + 1, k =>
    match page k with
    | .error e => .error (.raised e)
    | .ok p =>
      if p.rows.isEmpty then .ok ([], k)
      else (readAll page fuel p.next).map fun rest => (p.rows ++ rest.1, rest.2)

def Ends (page : κ → Except ε (Page κ α)) (k : κ) : Prop := ∃ p, page k = .ok p ∧ p.rows = []

variable {page : κ → Except ε (Page κ α)} {k : κ}

theorem readAll_of_ends (h : Ends page k) (fuel : ℕ) : readAll page (fuel + 1) k = .ok ([], k) := by
  obtain ⟨p, hp, hnil⟩ := h
  simp [readAll, hp, hnil]

theorem readAll_succ {p : Page κ α} (hp : page k = .ok p) (hne : p.rows ≠ []) (fuel : ℕ) :
    readAll page (fuel + 1) k = (readAll page fuel p.next).map fun rest => (p.rows ++ rest.1, rest.2) := by
  have hempty : p.rows.isEmpty = false := by simpa using hne
  simp [readAll, hp, hempty]

/-- **The rule of a run.**  Every page at a cursor in `Inv` takes its rows (those in `keep`) off what remains. -/
theorem readAll_ok (Inv : κ → Prop) (rem : κ → List α) (keep : α → Bool) (left : κ → ℕ)
    (hpage : ∀ k, Inv k → ∃ p, page k = .ok p ∧
      (p.rows ≠ [] → Inv p.next ∧ left p.next < left k ∧ rem k = p.rows.filter keep ++ rem p.next))
    {fuel : ℕ} (hk : Inv k) (hfuel : left k < fuel) :
    ∃ rows last, readAll page fuel k = .ok (rows, last) ∧ rem k = rows.filter keep ++ rem last ∧ Inv last ∧
      Ends page last := by
  induction fuel generalizing k with
  | zero => omega
  | succ fuel ih =>
    obtain ⟨p, hp, hnext⟩ := hpage k hk
    by_cases hne : p.rows = []
    · exact ⟨[], k, readAll_of_ends ⟨p, hp, hne⟩ fuel, by simp, hk, p, hp, hne⟩
    obtain ⟨hinv, hleft, hrem⟩ := hnext hne
    obtain ⟨rows, last, hread, hrest, hlast, hends⟩ := ih hinv (by omega)
    refine ⟨p.rows ++ rows, last, ?_, ?_, hlast, hends⟩
    · rw [readAll_succ hp hne, hread]
      rfl
    · rw [hrem, hrest, filter_append, List.append_assoc]

end Synapse.Lib
