import Mathlib.Data.List.Basic

/-!
# Synapse.Lib.Runs — runs of a partial step function

A run is a list of actions, folded with a step that is `none` where an action is not possible.

* `run_rule`: what one step preserves, and how it relates the states before and after it, holds of a whole run;
  `run_rule_mem`, where the step has to do with the actions of this run only.
* `run_preserves`: the same for an invariant alone.
* `guarded_preserves`: for runs whose steps all meet a condition.
* `keyedStep`, `keyed_preserves`: one machine for each key, of which a step is a step of one.
* `mem_snoc`, `forall_mem_snoc`, `pairwise_snoc`: logs, which grow at the end.
-/

namespace Synapse.Lib

open List Option Function

variable {σ α : Type} {f : σ → α → Option σ} {I : σ → Prop} {l : List α} {s s' : σ}

section

variable {R : σ → σ → Prop} (hrefl : ∀ s, R s s) (htrans : ∀ {s t u}, R s t → R t u → R s u)
include hrefl htrans

theorem run_rule_mem (hstep : ∀ {s a s'}, a ∈ l → I s → f s a = some s' → I s' ∧ R s s') (h : I s)
    (hrun : l.foldlM f s = some s') : I s' ∧ R s s' := by
  induction l generalizing s with
  | nil =>
    cases hrun
    exact ⟨h, hrefl _⟩
  | cons a l ih =>
    rw [foldlM_cons, bind_eq_bind, bind_eq_some_iff] at hrun
    obtain ⟨t, ha, hrun⟩ := hrun
    obtain ⟨ht, hst⟩ := hstep mem_cons_self h ha
    obtain ⟨hs', hts'⟩ := ih (fun hmem => hstep (mem_cons_of_mem _ hmem)) ht hrun
    exact ⟨hs', htrans hst hts'⟩

theorem run_rule (hstep : ∀ {s a s'}, I s → f s a = some s' → I s' ∧ R s s') (h : I s)
    (hrun : l.foldlM f s = some s') : I s' ∧ R s s' :=
  run_rule_mem hrefl htrans (fun _ => hstep) h hrun

end

theorem run_preserves (hstep : ∀ {s a s'}, I s → f s a = some s' → I s') (h : I s)
    (hrun : l.foldlM f s = some s') : I s' :=
  (run_rule (fun _ => trivial) (fun _ _ => trivial)
    (fun hs ha => ⟨hstep hs ha, trivial⟩) h hrun).1

theorem guarded_preserves {G : σ → α → Prop} [∀ s a, Decidable (G s a)]
    (hstep : ∀ {s a s'}, I s → G s a → f s a = some s' → I s') (h : I s)
    (hrun : l.foldlM (fun s a => if G s a then f s a else none) s = some s') : I s' := by
  refine run_preserves (fun hs ha => ?_) h hrun
  obtain ⟨hguard, ha⟩ := ite_none_right_eq_some.mp ha
  exact hstep hs hguard ha

section Keyed

variable {κ : Type} [DecidableEq κ]

def keyedStep (f : σ → α → Option σ) (m : κ → σ) (a : κ × α) : Option (κ → σ) :=
  (f (m a.1) a.2).map (Function.update m a.1)

theorem keyed_preserves (hstep : ∀ {s a s'}, I s → f s a = some s' → I s') {m m' : κ → σ} (h : ∀ key, I (m key))
    {l : List (κ × α)} (hrun : l.foldlM (keyedStep f) m = some m') : ∀ key, I (m' key) := by
  refine run_preserves (I := fun m => ∀ key, I (m key)) (fun {m a m'} hm ha key => ?_) h hrun
  obtain ⟨s, hs, rfl⟩ := map_eq_some_iff.mp ha
  exact (forall_update_iff m fun _ => I).mpr ⟨hstep (hm _) hs, fun key _ => hm key⟩ key

end Keyed

section Snoc

variable {x y : α}

theorem mem_snoc : x ∈ l ++ [y] ↔ x ∈ l ∨ x = y := by
  rw [mem_append, mem_singleton]

theorem forall_mem_snoc {P : α → Prop} : (∀ x ∈ l ++ [y], P x) ↔ (∀ x ∈ l, P x) ∧ P y := by
  rw [forall_mem_append, forall_mem_singleton]

theorem pairwise_snoc {R : α → α → Prop} : (l ++ [y]).Pairwise R ↔ l.Pairwise R ∧ ∀ x ∈ l, R x y := by
  simp [pairwise_append]

end Snoc

end Synapse.Lib
