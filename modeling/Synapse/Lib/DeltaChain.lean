import Synapse.Lib.Dict

/-!
# Synapse.Lib.DeltaChain — versions stored as deltas

Versions of a map are numbered.  A version is stored in full, or as the entries in which it differs from an earlier
version, its parent.

* `Represents`: what the stored entries stand for.
* `chain`: a version and its ancestors; along it the numbers fall (`chain_sortedGT`).
* `collect_chain`: taking for each key the entry nearest to the version gives the version.
* `walk_eq_collect`: a walk may stop once it has every entry it looks for.
* `Represents.addFull`, `addDelta`, `flatten`, `remove`: the changes of a store that keep what it stands for.
-/

namespace Synapse.Lib.Delta

open List Option Finmap Function

variable {κ β : Type} [DecidableEq κ]

/-- The parents of the versions, and their own entries. -/
structure Store (κ β : Type) where
  parent : ℕ → Option ℕ
  own : ℕ → Finmap fun _ : κ => β

/-- The store holds the versions `alive`, and they stand for the maps `val`. -/
structure Represents (s : Store κ β) (alive : Finset ℕ) (val : ℕ → Finmap fun _ : κ => β) : Prop where
  full : ∀ g ∈ alive, s.parent g = none → val g = s.own g
  delta : ∀ g ∈ alive, ∀ p, s.parent g = some p → p ∈ alive ∧ p < g ∧ val g = update (val p) (s.own g)

/-! ## Reading -/

/-- `fuel` steps from a version through the parents. -/
def ancestors (s : Store κ β) : ℕ → ℕ → List ℕ
  | 0, g => [g]
  | fuel + 1, g => g :: (s.parent g).elim [] (ancestors s fuel)

/-- A version and its ancestors.  Numbers fall along the parents, so there are at most `g` of them. -/
def chain (s : Store κ β) (g : ℕ) : List ℕ := ancestors s g g

/-- For each key the first entry along some versions. -/
def collect (s : Store κ β) (p : κ → Bool) (acc : Finmap fun _ : κ => β) (l : List ℕ) : Finmap fun _ : κ => β :=
  l.foldl (fun acc g => acc ∪ restrict p (s.own g)) acc

def walk (s : Store κ β) (p : κ → Bool) (stop : Finmap (fun _ : κ => β) → Bool) :
    Finmap (fun _ : κ => β) → List ℕ → Finmap fun _ : κ => β
  | acc, [] => acc
  | acc, g :: l =>
    let acc := acc ∪ restrict p (s.own g)
    if stop acc then acc else walk s p stop acc l

variable {s : Store κ β} {alive : Finset ℕ} {val : ℕ → Finmap fun _ : κ => β} {g : ℕ}

theorem ancestors_eq (h : Represents s alive val) {fuel fuel' : ℕ} (hg : g ∈ alive) (hf : g ≤ fuel) (hf' : g ≤ fuel') :
    ancestors s fuel g = ancestors s fuel' g := by
  induction fuel generalizing g fuel' with
  | zero =>
    have hg0 : g = 0 := by omega
    have hnone : s.parent g = none := by
      rcases hp : s.parent g with _ | p
      · rfl
      · have := (h.delta g hg p hp).2.1
        omega
    rcases fuel' with _ | fuel'
    · rfl
    · simp [ancestors, hnone]
  | succ fuel ih =>
    rcases hp : s.parent g with _ | p
    · rcases fuel' with _ | fuel' <;> simp [ancestors, hp]
    obtain ⟨hpa, hlt, -⟩ := h.delta g hg p hp
    rcases fuel' with _ | fuel'
    · omega
    · simp only [ancestors, hp, elim_some]
      rw [ih hpa (by omega) (show p ≤ fuel' by omega)]

omit [DecidableEq κ] in
theorem chain_full (hp : s.parent g = none) : chain s g = [g] := by
  unfold chain
  rcases g with _ | g <;> simp [ancestors, hp]

theorem chain_delta (h : Represents s alive val) (hg : g ∈ alive) {p : ℕ} (hp : s.parent g = some p) :
    chain s g = g :: chain s p := by
  obtain ⟨hpa, hlt, -⟩ := h.delta g hg p hp
  unfold chain
  rcases g with _ | g
  · omega
  · simp only [ancestors, hp, elim_some]
    rw [ancestors_eq h hpa (show p ≤ g by omega) le_rfl]

theorem Represents.induction (h : Represents s alive val) {P : ℕ → Prop} (hfull : ∀ g ∈ alive, s.parent g = none → P g)
    (hdelta : ∀ g ∈ alive, ∀ p, s.parent g = some p → p ∈ alive → P p → P g) : ∀ g ∈ alive, P g := by
  intro g
  induction g using Nat.strongRecOn with
  | ind g ih =>
    intro hg
    rcases hp : s.parent g with _ | p
    · exact hfull g hg hp
    · obtain ⟨hpa, hlt, -⟩ := h.delta g hg p hp
      exact hdelta g hg p hp hpa (ih p hlt hpa)

theorem collect_acc (p : κ → Bool) (acc : Finmap fun _ : κ => β) (l : List ℕ) :
    collect s p acc l = acc ∪ collect s p ∅ l := by
  induction l generalizing acc with
  | nil => exact union_empty.symm
  | cons g l ih =>
    show collect s p (acc ∪ restrict p (s.own g)) l = acc ∪ collect s p (∅ ∪ restrict p (s.own g)) l
    rw [ih, ih (∅ ∪ _), empty_union, union_assoc]

theorem collect_chain (h : Represents s alive val) (p : κ → Bool) :
    ∀ g ∈ alive, collect s p ∅ (chain s g) = restrict p (val g) := by
  refine h.induction (fun g hg hp => ?_) fun g hg q hq hqa ih => ?_
  · rw [chain_full hp, h.full g hg hp]
    exact empty_union
  · rw [chain_delta h hg hq, (h.delta g hg q hq).2.2]
    show collect s p (∅ ∪ restrict p (s.own g)) (chain s q) = _
    rw [collect_acc, ih, empty_union, update, restrict_union]

theorem lookup_collect_none {p : κ → Bool} {k : κ} (hp : ¬ p k = true) (l : List ℕ) :
    (collect s p ∅ l).lookup k = none := by
  induction l with
  | nil => rfl
  | cons g l ih =>
    show (collect s p (∅ ∪ restrict p (s.own g)) l).lookup k = none
    rw [collect_acc, lookup_union, ih, empty_union, lookup_restrict, if_neg hp]
    rfl

/-- **A walk that stops when nothing can be added gives the same.** -/
theorem walk_eq_collect (p : κ → Bool) {stop : Finmap (fun _ : κ => β) → Bool}
    (hstop : ∀ acc, (∀ k ∈ acc, p k = true) → stop acc = true → ∀ k, p k = true → k ∈ acc)
    (acc : Finmap fun _ : κ => β) (hacc : ∀ k ∈ acc, p k = true) (l : List ℕ) :
    walk s p stop acc l = collect s p acc l := by
  induction l generalizing acc with
  | nil => rfl
  | cons g l ih =>
    have hacc' : ∀ k ∈ acc ∪ restrict p (s.own g), p k = true := by
      intro k hk
      rcases mem_union.mp hk with hk | hk
      · exact hacc k hk
      · obtain ⟨b, hb⟩ := mem_iff.mp hk
        by_contra hp
        simp [lookup_restrict, hp] at hb
    show (if stop _ then _ else _) = collect s p (acc ∪ restrict p (s.own g)) l
    by_cases hs : stop (acc ∪ restrict p (s.own g)) = true
    · -- everything wanted is there, so the rest of the versions adds nothing
      rw [if_pos hs, collect_acc]
      refine ext_lookup fun k => ?_
      rw [lookup_union (acc ∪ _)]
      rcases hk : (acc ∪ restrict p (s.own g)).lookup k with _ | b
      · have hnot : ¬ p k = true := fun hp => lookup_eq_none.mp hk (hstop _ hacc' hs k hp)
        rw [lookup_collect_none hnot]
        rfl
      · rfl
    · rw [if_neg hs]
      exact ih _ hacc'

theorem chain_sortedGT (h : Represents s alive val) :
    ∀ g ∈ alive, (chain s g).Pairwise (· > ·) ∧ ∀ x ∈ chain s g, x ≤ g ∧ x ∈ alive := by
  refine h.induction (fun g hg hp => ?_) fun g hg q hq hqa ih => ?_
  · rw [chain_full hp]
    exact ⟨pairwise_singleton _ _, by simpa using hg⟩
  obtain ⟨-, hlt, -⟩ := h.delta g hg q hq
  rw [chain_delta h hg hq]
  refine ⟨pairwise_cons.mpr ⟨fun x hx => ?_, ih.1⟩, forall_mem_cons.mpr ⟨⟨le_rfl, hg⟩, fun x hx => ?_⟩⟩
  · have := (ih.2 x hx).1
    omega
  · have := ih.2 x hx
    exact ⟨by omega, this.2⟩

/-- Taking the entry of the highest version gives the same as taking the nearest one. -/
theorem insertionSort_chain (h : Represents s alive val) (hg : g ∈ alive) :
    (chain s g).insertionSort (· ≥ ·) = chain s g :=
  (((chain_sortedGT h g hg).1).imp fun hab => le_of_lt hab).insertionSort_eq

/-! ## Writing -/

section Write

variable {m : Finmap fun _ : κ => β}

def Store.put (s : Store κ β) (g : ℕ) (parent : Option ℕ) (m : Finmap fun _ : κ => β) : Store κ β :=
  ⟨Function.update s.parent g parent, Function.update s.own g m⟩

variable (h : Represents s alive val)
include h

/-- Versions that are left out must not be parents of versions that stay. -/
theorem Represents.keep {s' : Store κ β} {alive' : Finset ℕ} (hsub : alive' ⊆ alive)
    (hclosed : ∀ g ∈ alive', ∀ p, s.parent g = some p → p ∈ alive')
    (hs : ∀ g ∈ alive', s'.parent g = s.parent g ∧ s'.own g = s.own g) : Represents s' alive' val where
  full g hg hp := by
    rw [(hs g hg).1] at hp
    rw [(hs g hg).2, h.full g (hsub hg) hp]
  delta g hg p hp := by
    rw [(hs g hg).1] at hp
    obtain ⟨-, hlt, hval⟩ := h.delta g (hsub hg) p hp
    exact ⟨hclosed g hg p hp, hlt, by rw [(hs g hg).2, hval]⟩

theorem Represents.put_other (hg : g ∉ alive) (parent : Option ℕ) (m v : Finmap fun _ : κ => β)
    (hfull : parent = none → v = m) (hdelta : ∀ p, parent = some p → p ∈ alive ∧ p < g ∧ v = update (val p) m) :
    Represents (s.put g parent m) (insert g alive) (Function.update val g v) := by
  have hval : ∀ x ∈ alive, Function.update val g v x = val x := by
    intro x hx
    have hne : x ≠ g := fun e => hg (e ▸ hx)
    exact update_of_ne hne v val
  refine ⟨fun x hx hp => ?_, fun x hx p hp => ?_⟩
  · by_cases hxg : x = g
    · subst hxg
      simp only [Store.put, update_self] at hp ⊢
      exact hfull hp
    · simp only [Store.put, update_of_ne hxg] at hp ⊢
      exact h.full x ((Finset.mem_insert.mp hx).resolve_left hxg) hp
  by_cases hxg : x = g
  · subst hxg
    simp only [Store.put, update_self] at hp ⊢
    obtain ⟨hpa, hlt, hv⟩ := hdelta p hp
    exact ⟨Finset.mem_insert_of_mem hpa, hlt, by rw [hval p hpa, hv]⟩
  · simp only [Store.put, update_of_ne hxg] at hp ⊢
    obtain ⟨hpa, hlt, hv⟩ := h.delta x ((Finset.mem_insert.mp hx).resolve_left hxg) p hp
    exact ⟨Finset.mem_insert_of_mem hpa, hlt, by rw [hval p hpa, hv]⟩

theorem Represents.addFull (hg : g ∉ alive) : Represents (s.put g none m) (insert g alive) (Function.update val g m) :=
  h.put_other hg none m m (fun _ => rfl) (by simp)

theorem Represents.addDelta (hg : g ∉ alive) {p : ℕ} (hp : p ∈ alive) (hlt : p < g) :
    Represents (s.put g (some p) m) (insert g alive) (Function.update val g (update (val p) m)) :=
  h.put_other hg (some p) m _ (by simp) fun _ hq => some.inj hq ▸ ⟨hp, hlt, rfl⟩

theorem Represents.flatten (g : ℕ) : Represents (s.put g none (val g)) alive val := by
  refine ⟨fun x hx hp => ?_, fun x hx p hp => ?_⟩
  · by_cases hxg : x = g
    · subst hxg
      simp [Store.put]
    · simp only [Store.put, update_of_ne hxg] at hp ⊢
      exact h.full x hx hp
  · by_cases hxg : x = g
    · subst hxg
      simp [Store.put] at hp
    · simp only [Store.put, update_of_ne hxg] at hp ⊢
      exact h.delta x hx p hp

end Write

end Synapse.Lib.Delta
