import Mathlib.Algebra.GroupWithZero.Nat
import Mathlib.Algebra.Order.BigOperators.Group.List
import Mathlib.Algebra.Order.Group.Nat
import Mathlib.Order.WellFoundedSet
import Synapse.Lib.Outcome

/-!
# Synapse.Lib.Worklist — loops over a stack of work

`while stack: x = stack.pop(); ...; stack.append(y)`, as a function of fuel.

* `worklist_total`: the rule of such a loop, with an invariant of the stack and the state and a cost of each entry.
* `exists_cost`: in a finite graph without cycles there is a cost under which an entry pays for what it pushes.
-/

namespace Synapse.Lib

open List

variable {ε α σ : Type}

/-- Pop an entry, visit it, push what the visit returns; the head of the list is the top of the stack. -/
def worklist {m : Type → Type} [Monad m] (stop : m σ) (visit : α → σ → m (σ × List α)) : ℕ → List α → σ → m σ
  | _, [], s => pure s
  | 0, _ :: _, _ => stop
  | fuel + 1, x :: stack, s => do
    let (s, pushed) ← visit x s
    worklist stop visit fuel (pushed.reverse ++ stack) s

theorem worklist_total {stop : Except ε σ} {visit : α → σ → Except ε (σ × List α)} (Inv : List α → σ → Prop)
    (cost : α → ℕ) (hstep : ∀ x stack s, Inv (x :: stack) s → ∃ s' pushed, visit x s = .ok (s', pushed) ∧
      Inv (pushed.reverse ++ stack) s' ∧ (pushed.map cost).sum < cost x)
    (fuel : ℕ) (stack : List α) (s : σ) (hs : Inv stack s) (hfuel : (stack.map cost).sum ≤ fuel) :
    ∃ s', worklist stop visit fuel stack s = .ok s' ∧ Inv [] s' := by
  fun_induction worklist stop visit fuel stack s with
  | case1 _ s => exact ⟨s, rfl, hs⟩
  | case2 x stack s =>
    -- the entry on top costs at least one
    obtain ⟨_, _, -, -, hcost⟩ := hstep x stack s hs
    simp only [map_cons, sum_cons] at hfuel
    omega
  | case3 fuel x stack s ih =>
    obtain ⟨s', pushed, hvisit, hs', hcost⟩ := hstep x stack s hs
    obtain ⟨s'', hrun, hs''⟩ := ih s' pushed hs' (by
      simp only [map_cons, sum_cons, map_append, sum_append, map_reverse, sum_reverse] at hfuel ⊢
      omega)
    exact ⟨s'', by rw [hvisit]; exact hrun, hs''⟩

/-! ## Costs -/

variable {succ : α → List α}

section

variable {dom : Set α} (hfin : dom.Finite) (hdom : ∀ x, ∀ y ∈ succ x, x ∈ dom)
  (hacyclic : ∀ x, ¬ Relation.TransGen (fun a b => b ∈ succ a) x x)
include hfin hdom hacyclic

/-- A finite graph without cycles is well-founded: only the nodes in `dom` have successors. -/
theorem wf_of_acyclic : WellFounded fun y x => y ∈ succ x := by
  let below : α → α → Prop := fun y x => Relation.TransGen (fun a b => b ∈ succ a) x y
  have : IsStrictOrder α below :=
    { irrefl := hacyclic, trans := fun _ _ _ hab hbc => Relation.TransGen.trans hbc hab }
  have hacc : ∀ x ∈ dom, Acc (fun y x => y ∈ succ x) x := by
    intro x hx
    refine (hfin.wellFoundedOn (r := below)).induction hx fun x hx ih => Acc.intro x fun y hy => ?_
    by_cases hyd : y ∈ dom
    · exact ih y hyd (.single hy)
    · exact Acc.intro y fun z hz => absurd (hdom y z hz) hyd
  refine ⟨fun x => ?_⟩
  by_cases hx : x ∈ dom
  · exact hacc x hx
  · exact Acc.intro x fun y hy => absurd (hdom x y hy) hx

theorem exists_cost : ∃ cost : α → ℕ, ∀ x, ((succ x).map cost).sum < cost x := by
  have wf := wf_of_acyclic hfin hdom hacyclic
  let cost : α → ℕ := wf.fix fun x rec => 1 + ((succ x).attach.map fun y => rec y.1 y.2).sum
  have hcost : ∀ x, cost x = 1 + ((succ x).map cost).sum := by
    intro x
    have := wf.fix_eq (fun x rec => 1 + ((succ x).attach.map fun y => rec y.1 y.2).sum) x
    rw [show cost x = _ from this]
    simp [cost]
  exact ⟨cost, fun x => by rw [hcost]; omega⟩

end

theorem cost_lt_of_mem {cost : α → ℕ} (hcost : ∀ x, ((succ x).map cost).sum < cost x) {x y : α}
    (hy : y ∈ succ x) : cost y < cost x :=
  lt_of_le_of_lt (le_sum_of_mem (mem_map_of_mem hy)) (hcost x)

end Synapse.Lib
