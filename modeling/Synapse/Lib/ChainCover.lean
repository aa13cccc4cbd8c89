import Mathlib.Data.Set.Finite.List
import Mathlib.Order.WellFoundedSet
import Mathlib.Tactic.Ring

/-!
# Synapse.Lib.ChainCover — chain covers of a graph

The nodes of a directed graph are put on numbered chains, at positions 1, 2, ...; from a position every lower one of its
chain can be reached, and links lead from one chain to another.

* `Exact`: positions are unique and without gaps, and reachability is that of the graph.
* `Cover`: what is easy to keep, link by link; `Cover.exact`: it is enough.
* `reach_of_reduced`: links to nodes that other successors reach can be left out.
* `Maxima`, `Maxima.reach_iff`: how far up each chain is reached from some positions tells all that is reached.
-/

namespace Synapse.Lib.Chain

open Relation Option

abbrev Pos := ℕ × ℕ

structure Link where
  src : Pos
  target : Pos
  deriving DecidableEq

/-! ## Reachability -/

section Reach

variable (links : Set Link)

/-- Down the chain, or along a link that starts at or below the position. -/
def Move (p q : Pos) : Prop :=
  (p.1 = q.1 ∧ q.2 ≤ p.2) ∨ ∃ l ∈ links, l.src.1 = p.1 ∧ l.src.2 ≤ p.2 ∧ l.target = q

/-- A position can be reached from another. -/
def Reach : Pos → Pos → Prop := ReflTransGen (Move links)

variable {links} {links' : Set Link} {p q r : Pos}

theorem Reach.mono (hsub : links ⊆ links') (h : Reach links p q) : Reach links' p q :=
  ReflTransGen.mono (fun _ _ hm => hm.imp id fun ⟨l, hl, hm⟩ => ⟨l, hsub hl, hm⟩) _ _ h

theorem Reach.trans (h : Reach links p q) (h' : Reach links q r) : Reach links p r := ReflTransGen.trans h h'

theorem Reach.down (hchain : p.1 = q.1) (hseq : q.2 ≤ p.2) : Reach links p q := .single (.inl ⟨hchain, hseq⟩)

theorem Reach.link {l : Link} (hl : l ∈ links) (hchain : l.src.1 = p.1) (hseq : l.src.2 ≤ p.2) :
    Reach links p l.target := .single (.inr ⟨l, hl, hchain, hseq, rfl⟩)

end Reach

/-- `m` tells how far up each chain is reached from the positions of `S`. -/
structure Maxima (links : Set Link) (S : Set Pos) (m : ℕ → Option ℕ) : Prop where
  start : ∀ p ∈ S, ∃ s, m p.1 = some s ∧ p.2 ≤ s
  closed : ∀ l ∈ links, ∀ s, m l.src.1 = some s → l.src.2 ≤ s → ∃ s', m l.target.1 = some s' ∧ l.target.2 ≤ s'
  sound : ∀ c s, m c = some s → ∃ p ∈ S, Reach links p (c, s)

theorem Maxima.reach_iff {links : Set Link} {S : Set Pos} {m : ℕ → Option ℕ} (h : Maxima links S m) (q : Pos) :
    (∃ p ∈ S, Reach links p q) ↔ ∃ s, m q.1 = some s ∧ q.2 ≤ s := by
  constructor
  · rintro ⟨p, hp, hreach⟩
    induction hreach with
    | refl => exact h.start p hp
    | tail _ hmove ih =>
      obtain ⟨s, hs, hle⟩ := ih
      rcases hmove with ⟨hchain, hseq⟩ | ⟨l, hl, hchain, hseq, rfl⟩
      · exact ⟨s, hchain ▸ hs, hseq.trans hle⟩
      · exact h.closed l hl s (hchain ▸ hs) (hseq.trans hle)
  · rintro ⟨s, hs, hle⟩
    obtain ⟨p, hp, hreach⟩ := h.sound q.1 s hs
    exact ⟨p, hp, hreach.trans (.down rfl hle)⟩

/-! ## Covers -/

variable {α : Type} (succ : α → List α) (pos : α → Option Pos) (links : Set Link)

def Edge (a b : α) : Prop := b ∈ succ a

/-- The sequence numbers of a chain are 1, 2, ..., and each node of it has an edge to the one before it. -/
def Contiguous : Prop :=
  ∀ a p, pos a = some p → p.2 = 1 ∨ (1 < p.2 ∧ ∃ b ∈ succ a, pos b = some (p.1, p.2 - 1))

/-- **An exact chain cover** of the nodes that have a position. -/
structure Exact : Prop where
  unique : ∀ a b p, pos a = some p → pos b = some p → a = b
  contiguous : Contiguous succ pos
  closed : ∀ a b, (pos a).isSome → b ∈ succ a → (pos b).isSome
  reach : ∀ a b p q, pos a = some p → pos b = some q → (Reach links p q ↔ ReflTransGen (Edge succ) a b)

/-- Every link is an edge, and every edge of a node is covered. -/
structure Cover : Prop where
  unique : ∀ a b p, pos a = some p → pos b = some p → a = b
  contiguous : Contiguous succ pos
  sound : ∀ l ∈ links, ∃ a, ∃ b ∈ succ a, pos a = some l.src ∧ pos b = some l.target
  covered : ∀ a p, pos a = some p → ∀ b ∈ succ a, ∃ q, pos b = some q ∧ Reach links p q

section Soundness

variable {succ pos links}

theorem seq_pos (h : Contiguous succ pos) {a : α} {p : Pos} (ha : pos a = some p) : 1 ≤ p.2 := by
  rcases h a p ha with hone | ⟨hlt, -⟩
  · omega
  · omega

theorem descend (h : Contiguous succ pos) {a : α} {c s s' : ℕ} (ha : pos a = some (c, s)) (hpos : 1 ≤ s') (hle : s' ≤ s) :
    ∃ b, pos b = some (c, s') ∧ ReflTransGen (Edge succ) a b := by
  induction s generalizing a with
  | zero => omega
  | succ s ih =>
    by_cases heq : s' = s + 1
    · exact ⟨a, heq ▸ ha, .refl⟩
    rcases h a _ ha with hone | ⟨hlt, b, hb, hposb⟩
    · omega
    · obtain ⟨b', hb', hpath⟩ := ih hposb (by omega)
      exact ⟨b', hb', .head hb hpath⟩

variable (hunique : ∀ (a b : α) p, pos a = some p → pos b = some p → a = b) (hcont : Contiguous succ pos)
  (hsound : ∀ l ∈ links, ∃ a, ∃ b ∈ succ a, pos a = some l.src ∧ pos b = some l.target) {p q : Pos}
include hunique hcont hsound

/-- What is reached from a node's position is no position of the graph, or one of a node below it. -/
theorem node_of_reach {a : α} (ha : pos a = some p) (h : Reach links p q) :
    q.2 = 0 ∨ ∃ b, pos b = some q ∧ ReflTransGen (Edge succ) a b := by
  induction h with
  | refl => exact .inr ⟨a, ha, .refl⟩
  | tail hreach hmove ih =>
    rename_i q r
    rcases hmove with ⟨hchain, hseq⟩ | ⟨l, hl, hchain, hseq, rfl⟩
    · by_cases hzero : r.2 = 0
      · exact .inl hzero
      rcases ih with hq | ⟨b, hb, hab⟩
      · omega
      · obtain ⟨b', hb', hpath⟩ := descend hcont hb (by omega : 1 ≤ r.2) hseq
        rw [hchain] at hb'
        exact .inr ⟨b', hb', hab.trans hpath⟩
    · obtain ⟨x, y, hy, hx, hposy⟩ := hsound l hl
      have hone := seq_pos hcont hx
      rcases ih with hq | ⟨b, hb, hab⟩
      · omega
      · -- the link starts at a node of the chain, below this one
        obtain ⟨x', hx', hpath⟩ := descend hcont hb hone hseq
        rw [← hchain] at hx'
        obtain rfl := hunique x' x _ hx' hx
        exact .inr ⟨y, hposy, (hab.trans hpath).tail hy⟩

theorem path_of_reach {a b : α} (ha : pos a = some p) (hb : pos b = some q) (h : Reach links p q) :
    ReflTransGen (Edge succ) a b := by
  rcases node_of_reach hunique hcont hsound ha h with hzero | ⟨b', hb', hpath⟩
  · have := seq_pos hcont hb
    omega
  · obtain rfl := hunique b' b q hb' hb
    exact hpath

end Soundness

variable {succ pos links}

theorem Cover.exact (h : Cover succ pos links) : Exact succ pos links where
  __ := h
  closed a b ha hb := by
    obtain ⟨p, hp⟩ := isSome_iff_exists.mp ha
    obtain ⟨q, hq, -⟩ := h.covered a p hp b hb
    rw [hq]
    rfl
  reach a b p q hp hq := by
    refine ⟨path_of_reach h.unique h.contiguous h.sound hp hq, fun hpath => ?_⟩
    induction hpath generalizing q with
    | refl =>
      obtain rfl : p = q := some.inj (hp.symm.trans hq)
      exact .refl
    | tail hpath hedge ih =>
      rename_i x y
      -- all nodes on the path have a position
      have hx : ∃ r, pos x = some r := by
        clear ih hedge hq
        induction hpath with
        | refl => exact ⟨p, hp⟩
        | tail _ hedge ih =>
          obtain ⟨r, hr⟩ := ih
          obtain ⟨r', hr', -⟩ := h.covered _ r hr _ hedge
          exact ⟨r', hr'⟩
      obtain ⟨r, hr⟩ := hx
      obtain ⟨q', hq', hreach⟩ := h.covered x r hr y hedge
      obtain rfl : q' = q := some.inj (hq'.symm.trans hq)
      exact (ih r hr).trans hreach

/-- **Reduction.**  In a graph without cycles, a successor need not be linked to if another successor reaches it. -/
theorem reach_of_reduced (hacyclic : ∀ a, ¬ TransGen (Edge succ) a a)
    (hunique : ∀ a b p, pos a = some p → pos b = some p → a = b) (hcont : Contiguous succ pos)
    (hsound : ∀ l ∈ links, ∃ a, ∃ b ∈ succ a, pos a = some l.src ∧ pos b = some l.target) {a : α} {p : Pos}
    (hpos : ∀ b ∈ succ a, ∃ q, pos b = some q) (hred : ∀ b ∈ succ a, ∀ q, pos b = some q → Reach links p q ∨
      ∃ c ∈ succ a, c ≠ b ∧ ∃ r, pos c = some r ∧ Reach links r q) :
    ∀ b ∈ succ a, ∃ q, pos b = some q ∧ Reach links p q := by
  -- go up among the successors, which are finitely many
  let above : α → α → Prop := fun c b => TransGen (Edge succ) c b
  have : IsStrictOrder α above := { irrefl := hacyclic, trans := fun _ _ _ => TransGen.trans }
  have hwf : {b | b ∈ succ a}.WellFoundedOn above := (List.finite_toSet (succ a)).wellFoundedOn
  intro b hb
  refine hwf.induction (P := fun b => ∃ q, pos b = some q ∧ Reach links p q) hb fun b hb ih => ?_
  obtain ⟨q, hq⟩ := hpos b hb
  refine ⟨q, hq, ?_⟩
  rcases hred b hb q hq with hreach | ⟨c, hc, hne, r, hr, hreach⟩
  · exact hreach
  have hpath := path_of_reach hunique hcont hsound hr hq hreach
  have habove : above c b := (reflTransGen_iff_eq_or_transGen.mp hpath).resolve_left fun h => hne h.symm
  obtain ⟨r', hr', hpr⟩ := ih c hc habove
  obtain rfl : r' = r := some.inj (hr'.symm.trans hr)
  exact hpr.trans hreach

end Synapse.Lib.Chain
