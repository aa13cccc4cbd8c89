import Synapse.Json
import Synapse.Lib.ChainCover
import Synapse.Lib.Runs

/-!
# Synapse.AuthChain.LinkMap — links between chains in memory

`_LinkMap` of `synapse/storage/databases/main/events.py`.

* `addLink`: `add_link`, which drops a new link that crosses another one.
* `existsPathFrom`: `exists_path_from`, a depth-first search.
* `reach_of_existsPathFrom`: the search finds only paths that there are.
* `search_total`: it ends.
-/

namespace Synapse.AuthChain

open Lib Chain List Function

/-- `_LinkMap.maps`, as a list of links.  There is at most one for a source and a target chain. -/
abbrev LinkMap := List Link

/-- `visited_chains[chain] = max(seq, visited_chains[chain])` -/
def visit (visited : ℕ → ℕ) (p : Pos) : ℕ → ℕ := Function.update visited p.1 (max p.2 (visited p.1))

namespace LinkMap

variable (m : LinkMap)

/-- `current_links[src_seq] = target_seq` -/
def set (src target : Pos) : LinkMap :=
  if m.any fun l => l.src = src ∧ l.target.1 = target.1 then
    m.map fun l => if l.src = src ∧ l.target.1 = target.1 then ⟨src, target⟩ else l
  else m ++ [⟨src, target⟩]

def addLink (src target : Pos) (new : Bool) : Except Exc (Bool × LinkMap) :=
  if src.1 = target.1 then .error .assertionError
  else if new && m.any fun l => l.src.1 = src.1 ∧ l.target.1 = target.1 ∧ l.src.2 ≤ src.2 ∧ target.2 ≤ l.target.2 then
    .ok (false, m)
  else .ok (true, m.set src target)

/-- The links that the search follows from an entry. -/
def following (visited : ℕ → ℕ) (p : Pos) : List Link :=
  m.filter fun l => l.src.1 = p.1 ∧ visit visited p l.target.1 < l.target.2 ∧ l.src.2 ≤ p.2

/-- What the search pushes when it takes an entry; the top of the stack comes first. -/
def pushed (target : Pos) (visited : ℕ → ℕ) (p : Pos) : List Pos :=
  (((m.following visited p).filter fun l => l.target.1 ≠ target.1).map Link.target).reverse

/-- `while search: ...`; `none` when the fuel runs out. -/
def search (target : Pos) : ℕ → List Pos → (ℕ → ℕ) → Option Bool
  | _, [], _ => some false
  | 0, _ :: _, _ => none
  | fuel + 1, p :: stack, visited =>
    if (m.following visited p).any fun l => l.target.1 = target.1 ∧ target.2 ≤ l.target.2 then some true
    else search target fuel (m.pushed target visited p ++ stack) (visit visited p)

def existsPathFrom (src target : Pos) : Bool :=
  if src.1 = target.1 then target.2 ≤ src.2
  else m.search target ((m.length + 1) * (m.length + 1)) [src] (fun _ => 0) = some true

end LinkMap

variable {m : LinkMap} {src target : Pos}

/-! ## Adding links -/

variable {l : Link}

theorem mem_set (h : l ∈ m.set src target) : l ∈ m ∨ l = ⟨src, target⟩ := by
  unfold LinkMap.set at h
  split at h
  · obtain ⟨l', hl', rfl⟩ := mem_map.mp h
    split
    · exact .inr rfl
    · exact .inl hl'
  · exact mem_snoc.mp h

theorem mem_of_addLink {new added : Bool} {m' : LinkMap} (h : m.addLink src target new = .ok (added, m'))
    (hl : l ∈ m') : l ∈ m ∨ l = ⟨src, target⟩ := by
  unfold LinkMap.addLink at h
  split at h
  · cases h
  split at h
  · cases h
    exact .inl hl
  · cases h
    exact mem_set hl

/-! ## The search is sound -/

variable {stack : List Pos} {visited : ℕ → ℕ}

theorem reach_of_search {fuel : ℕ} (hstack : ∀ p ∈ stack, Reach {l | l ∈ m} src p)
    (h : m.search target fuel stack visited = some true) : Reach {l | l ∈ m} src target := by
  have hlink : ∀ {visited p l}, Reach {l | l ∈ m} src p → l ∈ m.following visited p → Reach {l | l ∈ m} src l.target := by
    intro visited p l hp hl
    obtain ⟨hl, hguard⟩ := mem_filter.mp hl
    obtain ⟨hchain, -, hseq⟩ := of_decide_eq_true hguard
    exact hp.trans (.link hl hchain hseq)
  fun_induction LinkMap.search m target fuel stack visited with
  | case1 => cases h
  | case2 => cases h
  | case3 _ p _ _ hfound =>
    obtain ⟨l, hl, hguard⟩ := any_eq_true.mp hfound
    obtain ⟨hchain, hseq⟩ := of_decide_eq_true hguard
    exact (hlink (hstack p mem_cons_self) hl).trans (.down hchain hseq)
  | case4 _ p _ _ _ ih =>
    refine ih (fun q hq => ?_) h
    rcases mem_append.mp hq with hq | hq
    · obtain ⟨l, hl, rfl⟩ := mem_map.mp (mem_reverse.mp hq)
      exact hlink (hstack p mem_cons_self) (mem_filter.mp hl).1
    · exact hstack q (mem_cons_of_mem _ hq)

theorem reach_of_existsPathFrom (h : m.existsPathFrom src target = true) : Reach {l | l ∈ m} src target := by
  unfold LinkMap.existsPathFrom at h
  split at h
  · rename_i hchain
    exact .down hchain (of_decide_eq_true h)
  · refine reach_of_search (fun p hp => ?_) (of_decide_eq_true h)
    rw [mem_singleton.mp hp]
    exact .refl

/-! ## The search ends -/

/-- How many links lead to a position that has not been visited. -/
def unvisited (m : LinkMap) (visited : ℕ → ℕ) : ℕ := m.countP fun l => visited l.target.1 < l.target.2

/-- What is pushed at an entry of the stack has been visited, or is above it. -/
def Explored (m : LinkMap) (target : Pos) (visited : ℕ → ℕ) (above : List Pos) (p : Pos) : Prop :=
  ∀ l ∈ m, l.src.1 = p.1 → l.src.2 ≤ p.2 → l.target.1 ≠ target.1 → l.target.2 ≤ visited l.target.1 ∨ l.target ∈ above

/-- The stack during the search: entries are targets of links, and an entry that has been visited is explored. -/
structure Searching (m : LinkMap) (target : Pos) (stack : List Pos) (visited : ℕ → ℕ) : Prop where
  targets : ∀ p ∈ stack, ∃ l ∈ m, l.target = p
  explored : ∀ above p below, stack = above ++ p :: below → p.2 ≤ visited p.1 → Explored m target visited above p

theorem le_visit (visited : ℕ → ℕ) (p : Pos) (c : ℕ) : visited c ≤ visit visited p c := by
  unfold visit
  by_cases hc : c = p.1
  · rw [hc, update_self]
    omega
  · rw [update_of_ne hc]

theorem le_visit_self (visited : ℕ → ℕ) (p : Pos) : p.2 ≤ visit visited p p.1 := by
  rw [visit, update_self]
  omega

theorem mem_pushed {p q : Pos} : q ∈ m.pushed target visited p ↔
    ∃ l ∈ m, l.src.1 = p.1 ∧ l.src.2 ≤ p.2 ∧ visit visited p l.target.1 < l.target.2 ∧ l.target.1 ≠ target.1 ∧
      l.target = q := by
  simp only [LinkMap.pushed, LinkMap.following, mem_reverse, mem_map, mem_filter, decide_eq_true_eq]
  constructor
  · rintro ⟨l, ⟨⟨hl, hchain, hun, hseq⟩, hne⟩, rfl⟩
    exact ⟨l, hl, hchain, hseq, hun, hne, rfl⟩
  · rintro ⟨l, hl, hchain, hseq, hun, hne, rfl⟩
    exact ⟨l, ⟨⟨hl, hchain, hun, hseq⟩, hne⟩, rfl⟩

/-- Taking an entry keeps the order of the stack: the entries below are explored, if this one is counted as above them. -/
theorem searching_next {p : Pos} (htargets : ∀ q ∈ stack, ∃ l ∈ m, l.target = q)
    (hexplored : ∀ above q below, stack = above ++ q :: below → q.2 ≤ visited q.1 →
      Explored m target visited (p :: above) q) :
    Searching m target (m.pushed target visited p ++ stack) (visit visited p) := by
  have hpushed : ∀ q ∈ m.pushed target visited p, visit visited p q.1 < q.2 := by
    intro q hq
    obtain ⟨l, -, -, -, hun, -, rfl⟩ := mem_pushed.mp hq
    exact hun
  refine ⟨fun q hq => ?_, fun above q below hsplit hle => ?_⟩
  · rcases mem_append.mp hq with hq | hq
    · obtain ⟨l, hl, -, -, -, -, rfl⟩ := mem_pushed.mp hq
      exact ⟨l, hl, rfl⟩
    · exact htargets q hq
  · -- an entry that has just been pushed has not been visited
    obtain ⟨above', rfl, hstack⟩ : ∃ above', above = m.pushed target visited p ++ above' ∧ stack = above' ++ q :: below := by
      rcases append_eq_append_iff.mp hsplit with ⟨above', habove, hstack⟩ | ⟨rest, hpush, hrest⟩
      · exact ⟨above', habove, hstack⟩
      rcases rest with _ | ⟨q', rest⟩
      · exact ⟨[], by simpa using hpush.symm, by simpa using hrest.symm⟩
      · obtain ⟨rfl, -⟩ := cons_eq_cons.mp hrest
        have := hpushed q (hpush ▸ mem_append_right _ mem_cons_self)
        omega
    intro l hl hchain hseq hne
    by_cases hold : q.2 ≤ visited q.1
    · rcases hexplored above' q below hstack hold l hl hchain hseq hne with hv | hmem
      · exact .inl (hv.trans (le_visit visited p _))
      rcases mem_cons.mp hmem with hp | hmem
      · rw [hp]
        exact .inl (le_visit_self visited p)
      · exact .inr (mem_append_right _ hmem)
    · -- the entry has been visited by taking this one, which is at or above it on the same chain
      have hq : q.1 = p.1 := by
        by_contra hq
        rw [visit, update_of_ne hq] at hle
        exact hold hle
      have hqp : q.2 ≤ p.2 := by
        rw [visit, hq, update_self] at hle
        rw [hq] at hold
        omega
      by_cases hv : l.target.2 ≤ visit visited p l.target.1
      · exact .inl hv
      · exact .inr (mem_append_left _ (mem_pushed.mpr
          ⟨l, hl, hchain.trans hq, hseq.trans hqp, Nat.lt_of_not_le hv, hne, rfl⟩))

theorem countP_lt {α : Type} {p q : α → Bool} {l : List α} (h : ∀ x ∈ l, p x = true → q x = true) {x : α} (hx : x ∈ l)
    (hq : q x = true) (hp : p x = false) : l.countP p < l.countP q := by
  obtain ⟨before, after, rfl⟩ := append_of_mem hx
  have hbefore := countP_mono_left fun y hy => h y (mem_append_left _ hy)
  have hafter := countP_mono_left fun y hy =>
    h y (mem_append_right _ (mem_cons_of_mem _ hy))
  simp only [countP_append, countP_cons, hp, hq, if_true, Bool.false_eq_true, if_false]
  omega

theorem unvisited_le (visited : ℕ → ℕ) (p : Pos) : unvisited m (visit visited p) ≤ unvisited m visited := by
  refine countP_mono_left fun l _ h => ?_
  have := le_visit visited p l.target.1
  simp only [decide_eq_true_eq] at h ⊢
  omega

theorem unvisited_lt (hl : l ∈ m) (hun : visited l.target.1 < l.target.2) :
    unvisited m (visit visited l.target) < unvisited m visited := by
  refine countP_lt (fun l' _ h => ?_) hl (decide_eq_true hun) (by simpa using le_visit_self visited l.target)
  exact decide_eq_true ((le_visit visited l.target l'.target.1).trans_lt (of_decide_eq_true h))

theorem length_pushed_le (m : LinkMap) (target : Pos) (visited : ℕ → ℕ) (p : Pos) :
    (m.pushed target visited p).length ≤ m.length := by
  rw [LinkMap.pushed, length_reverse, length_map]
  exact (length_filter_le _ _).trans (length_filter_le _ _)

theorem search_isSome {fuel : ℕ} (h : Searching m target stack visited)
    (hfuel : stack.length + (m.length + 1) * unvisited m visited ≤ fuel) :
    (m.search target fuel stack visited).isSome := by
  fun_induction LinkMap.search m target fuel stack visited with
  | case1 => rfl
  | case2 => simp at hfuel
  | case3 => rfl
  | case4 fuel p stack visited _ ih =>
    have hnext : Searching m target (m.pushed target visited p ++ stack) (visit visited p) :=
      searching_next (fun q hq => h.targets q (mem_cons_of_mem _ hq)) fun above q below hsplit =>
        h.explored (p :: above) q below (by rw [hsplit]; rfl)
    refine ih hnext ?_
    rw [length_append]
    rw [length_cons] at hfuel
    obtain ⟨l, hl, rfl⟩ := h.targets p mem_cons_self
    by_cases hun : visited l.target.1 < l.target.2
    · have hlt := Nat.mul_le_mul_left (m.length + 1) (unvisited_lt hl hun)
      have hlen := length_pushed_le m target visited l.target
      rw [Nat.mul_succ] at hlt
      omega
    · -- everything that it leads to has been visited
      have hnone : m.pushed target visited l.target = [] := by
        refine eq_nil_iff_forall_not_mem.mpr fun q hq => ?_
        obtain ⟨l', hl', hchain, hseq, hun', hne, rfl⟩ := mem_pushed.mp hq
        have hvisit := le_visit visited l.target l'.target.1
        rcases h.explored [] l.target stack rfl (Nat.le_of_not_lt hun) l' hl' hchain hseq hne with hv | hmem
        · omega
        · exact not_mem_nil hmem
      have hle := Nat.mul_le_mul_left (m.length + 1) (unvisited_le (m := m) visited l.target)
      rw [hnone, length_nil]
      omega

/-- **`exists_path_from` returns.** -/
theorem search_total : (m.search target ((m.length + 1) * (m.length + 1)) [src] (fun _ => 0)).isSome := by
  have hfuel : (m.length + 1) * (m.length + 1) = m.length + (m.length + 1) * m.length + 1 := by ring
  rw [hfuel, LinkMap.search]
  split
  · rfl
  refine search_isSome (searching_next (by simp) (by simp)) ?_
  have hun : unvisited m (visit (fun _ => 0) src) ≤ m.length := countP_le_length
  have hmul := Nat.mul_le_mul_left (m.length + 1) hun
  have hlen := length_pushed_le m target (fun _ => 0) src
  rw [append_nil]
  exact Nat.add_le_add hlen hmul

end Synapse.AuthChain
