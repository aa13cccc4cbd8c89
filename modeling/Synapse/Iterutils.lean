import Mathlib.Data.Finmap
import Synapse.Lib.Greedy

/-!
# Synapse.Iterutils — topological iteration

`sorted_topologically` and `sorted_topologically_batched` of `synapse/util/iterutils.py`.  Both count, for each node, the
dependencies within the node set that have not been yielded; the graph may mention other nodes.

* `Needs`: a dependency within the node set; `LeadsToCycle`, `pathLengths`: what can be reached through such.
* `batchedLoop_spec`: the batch of a node is given by the longest path from it.
* **`topological_iteration`**: what the two functions yield.
-/

namespace Synapse.Iterutils

open List Lib Greedy Relation Finset

variable {T : Type} [LinearOrder T] (nodes : List T) (graph : Finmap fun _ : T => List T)

/-- The keys of `{node: 0 for node in nodes}`. -/
def keys : List T := nodes.reverse.dedup.reverse

def edges (x : T) : List T := (graph.lookup x).getD []

def sortedTopologically : List T := kahn (keys nodes) (edges graph)

/-- The body of the loop over a batch, which counts the degrees down and adds to `new_zero_degree`. -/
def countDown (acc : (T → ℕ) × List T) (node : T) : (T → ℕ) × List T :=
  let waiting := nodes.filter fun x => (edges graph x).contains node
  let degree := fun x => if waiting.contains x then acc.1 x - 1 else acc.1 x
  (degree, acc.2 ++ waiting.filter fun x => degree x = 0)

def batchedLoop : ℕ → (T → ℕ) → List T → List (List T)
  | 0, _, _ => []
  | fuel + 1, degree, zeroDegree =>
    if zeroDegree = [] then []
    else
      let r := zeroDegree.foldl (countDown nodes graph) (degree, [])
      zeroDegree :: batchedLoop fuel r.1 r.2

def sortedTopologicallyBatched : List (List T) :=
  let degreeMap := degree (keys nodes) (edges graph)
  batchedLoop (keys nodes) graph (keys nodes).length degreeMap ((keys nodes).filter fun x => degreeMap x = 0)

/-- `x` depends on `y`, which is one of the nodes. -/
def Needs (x y : T) : Prop := y ∈ edges graph x ∧ y ∈ nodes

def LeadsToCycle (x : T) : Prop := ∃ y, ReflTransGen (Needs nodes graph) x y ∧ TransGen (Needs nodes graph) y y

/-- The lengths of the dependency paths from a node. -/
def pathLengths (x : T) : Set ℕ := {n | ∃ l : List T, l.length = n ∧ IsChain (Needs nodes graph) (x :: l)}

variable {nodes graph} {x : T} {n : ℕ}

/-! ## Paths -/

theorem zero_mem_pathLengths (x : T) : 0 ∈ pathLengths nodes graph x := ⟨[], rfl, .singleton x⟩

theorem succ_mem_pathLengths :
    n + 1 ∈ pathLengths nodes graph x ↔ ∃ y, Needs nodes graph x y ∧ n ∈ pathLengths nodes graph y := by
  constructor
  · rintro ⟨l, hlen, hchain⟩
    cases l with
    | nil => cases hlen
    | cons y l =>
      obtain ⟨hy, hchain⟩ := isChain_cons_cons.mp hchain
      exact ⟨y, hy, l, Nat.succ.inj hlen, hchain⟩
  · rintro ⟨y, hy, l, rfl, hchain⟩
    exact ⟨y :: l, rfl, isChain_cons_cons.mpr ⟨hy, hchain⟩⟩

theorem mem_pathLengths_of_le {m : ℕ} (h : n ∈ pathLengths nodes graph x) (hle : m ≤ n) : m ∈ pathLengths nodes graph x := by
  induction m generalizing x n with
  | zero => exact zero_mem_pathLengths x
  | succ m ih =>
    obtain ⟨k, rfl⟩ : ∃ k, n = k + 1 := ⟨n - 1, by omega⟩
    obtain ⟨y, hy, hk⟩ := succ_mem_pathLengths.mp h
    exact succ_mem_pathLengths.mpr ⟨y, hy, ih hk (by omega)⟩

theorem isGreatest_pathLengths : IsGreatest (pathLengths nodes graph x) n ↔
    n ∈ pathLengths nodes graph x ∧ n + 1 ∉ pathLengths nodes graph x := by
  refine and_congr_right fun _ => ⟨fun h hn => ?_, fun h k hk => ?_⟩
  · have := h hn
    omega
  · by_contra hlt
    exact h (mem_pathLengths_of_le hk (by omega))

theorem exists_isGreatest {m : ℕ} (h : IsGreatest (pathLengths nodes graph x) (m + n)) (hx : x ∈ nodes) :
    ∃ y ∈ nodes, IsGreatest (pathLengths nodes graph y) m := by
  induction n generalizing x with
  | zero => exact ⟨x, hx, h⟩
  | succ n ih =>
    obtain ⟨hmem, hnot⟩ := isGreatest_pathLengths.mp h
    obtain ⟨y, hy, hmem⟩ := succ_mem_pathLengths.mp hmem
    exact ih (isGreatest_pathLengths.mpr ⟨hmem, fun h => hnot (succ_mem_pathLengths.mpr ⟨y, hy, h⟩)⟩) hy.2

/-! ## The node set -/

theorem mem_keys : x ∈ keys nodes ↔ x ∈ nodes := by
  simp [keys]

theorem nodup_keys : (keys nodes).Nodup := nodup_reverse.mpr (nodup_dedup _)

theorem mem_waitsFor_keys {y : T} : y ∈ waitsFor (keys nodes) (edges graph) x ↔ Needs nodes graph x y := by
  rw [mem_waitsFor, mem_keys, Needs]

theorem mem_sortedTopologically : x ∈ sortedTopologically nodes graph ↔ x ∈ nodes ∧ ¬ LeadsToCycle nodes graph x := by
  rw [sortedTopologically, mem_kahn_iff nodup_keys, mem_keys]
  simp only [mem_waitsFor_keys]
  rfl

/-- **A node leads to a cycle** exactly if the paths from it have no greatest length. -/
theorem not_leadsToCycle_iff : ¬ LeadsToCycle nodes graph x ↔ ∃ n, IsGreatest (pathLengths nodes graph x) n := by
  have hacc := acc_iff_not_cycle (x := x) fun a b (hb : b ∈ waitsFor (keys nodes) (edges graph) a) =>
    mem_toFinset.mpr (mem_waitsFor.mp hb).2
  simp only [mem_waitsFor_keys] at hacc
  rw [LeadsToCycle, ← hacc]
  clear hacc
  constructor
  · intro h
    suffices hbound : ∃ n, n ∉ pathLengths nodes graph x by
      classical
      obtain ⟨n, hn⟩ : ∃ n, Nat.find hbound = n + 1 := by
        refine Nat.exists_eq_succ_of_ne_zero fun h0 => ?_
        exact Nat.find_spec hbound (h0 ▸ zero_mem_pathLengths x)
      refine ⟨n, isGreatest_pathLengths.mpr ⟨?_, hn ▸ Nat.find_spec hbound⟩⟩
      exact not_not.mp (Nat.find_min hbound (by omega))
    induction h with
    | intro x _ ih =>
      choose! bound hbound using ih
      refine ⟨(waitsFor (keys nodes) (edges graph) x).sup bound + 1, fun hmem => ?_⟩
      obtain ⟨y, hy, hmem⟩ := succ_mem_pathLengths.mp hmem
      exact hbound y hy (mem_pathLengths_of_le hmem (le_sup (mem_waitsFor_keys.mpr hy)))
  · rintro ⟨n, hn⟩
    have hnot := (isGreatest_pathLengths.mp hn).2
    clear hn
    generalize n + 1 = m at hnot
    induction m generalizing x with
    | zero => exact absurd (zero_mem_pathLengths x) hnot
    | succ m ih =>
      exact Acc.intro x fun y hy => ih fun hm => hnot (succ_mem_pathLengths.mpr ⟨y, hy, hm⟩)

/-! ## The batches -/

variable {taken : Finset T} {degree : T → ℕ} {zeroDegree new : List T}

theorem counting_countDown (h : Counting (keys nodes) (edges graph) taken degree (zeroDegree ++ new)) :
    let r := zeroDegree.foldl (countDown (keys nodes) graph) (degree, new)
    Counting (keys nodes) (edges graph) (taken ∪ zeroDegree.toFinset) r.1 r.2 := by
  induction zeroDegree generalizing taken degree new with
  | nil => simpa using h
  | cons node zeroDegree ih =>
    have hnext := h.next (show node ∈ node :: zeroDegree ++ new by simp) nodup_keys
    rw [cons_append, erase_cons_head] at hnext
    rw [toFinset_cons, union_insert, ← insert_union, foldl_cons]
    refine ih ?_
    simp only [contains_eq_mem, decide_eq_true_eq, ← append_assoc]
    exact hnext

section Batch

variable {k : ℕ} (h : Counting (keys nodes) (edges graph) taken degree zeroDegree)
  (htaken : ∀ x, x ∈ taken ↔ x ∈ nodes ∧ k ∉ pathLengths nodes graph x)
include h htaken

theorem mem_zeroDegree : x ∈ zeroDegree ↔ x ∈ nodes ∧ IsGreatest (pathLengths nodes graph x) k := by
  rw [h.mem_heap, mem_available, mem_toFinset, mem_keys, htaken, isGreatest_pathLengths, succ_mem_pathLengths]
  refine and_congr_right fun hx => and_congr (by simp [hx]) ?_
  simp only [subset_iff, mem_waitsFor_keys, htaken, not_exists, not_and]
  exact ⟨fun h y hy => (h hy).2, fun h y hy => ⟨hy.2, h y hy⟩⟩

theorem mem_taken_batch :
    x ∈ taken ∪ zeroDegree.toFinset ↔ x ∈ nodes ∧ k + 1 ∉ pathLengths nodes graph x := by
  rw [mem_union, mem_toFinset, mem_zeroDegree h htaken, htaken, isGreatest_pathLengths]
  constructor
  · rintro (⟨hx, hk⟩ | ⟨hx, -, hk⟩)
    · exact ⟨hx, fun hk' => hk (mem_pathLengths_of_le hk' (by omega))⟩
    · exact ⟨hx, hk⟩
  · rintro ⟨hx, hk⟩
    by_cases hmem : k ∈ pathLengths nodes graph x
    · exact .inr ⟨hx, hmem, hk⟩
    · exact .inl ⟨hx, hmem⟩

theorem not_isGreatest_of_nil (hempty : zeroDegree = []) (hx : x ∈ nodes) (i : ℕ) :
    ¬ IsGreatest (pathLengths nodes graph x) (k + i) := by
  intro hgreatest
  obtain ⟨y, hy, hk⟩ := exists_isGreatest hgreatest hx
  exact not_mem_nil (hempty ▸ (mem_zeroDegree h htaken).mpr ⟨hy, hk⟩)

omit htaken in
theorem card_batch_lt (hne : zeroDegree ≠ []) :
    ((keys nodes).toFinset \ (taken ∪ zeroDegree.toFinset)).card < ((keys nodes).toFinset \ taken).card := by
  obtain ⟨x, hx⟩ := exists_mem_of_ne_nil _ hne
  obtain ⟨hmem, hnot, -⟩ := mem_available.mp ((h.mem_heap x).mp hx)
  refine card_lt_card ((ssubset_iff_of_subset ?_).mpr ⟨x, mem_sdiff.mpr ⟨hmem, hnot⟩, ?_⟩)
  · exact sdiff_subset_sdiff le_rfl subset_union_left
  · simp [hx]

/-- **The batches.**  Before batch `k`, the nodes without a path of length `k` have been yielded. -/
theorem batchedLoop_spec {fuel : ℕ} (hfuel : ((keys nodes).toFinset \ taken).card ≤ fuel) (i : ℕ) :
    ((batchedLoop (keys nodes) graph fuel degree zeroDegree)[i]?.getD []).Nodup ∧
      ∀ x, x ∈ (batchedLoop (keys nodes) graph fuel degree zeroDegree)[i]?.getD [] ↔
        x ∈ nodes ∧ IsGreatest (pathLengths nodes graph x) (k + i) := by
  induction fuel generalizing taken degree zeroDegree k i with
  | zero =>
    have hempty : zeroDegree = [] := by
      by_contra hne
      have hlt := card_batch_lt h hne
      omega
    simpa [batchedLoop] using fun x hx => not_isGreatest_of_nil h htaken hempty hx i
  | succ fuel ih =>
    by_cases hempty : zeroDegree = []
    · simpa [batchedLoop, hempty] using fun x hx => not_isGreatest_of_nil h htaken hempty hx i
    rw [batchedLoop, if_neg hempty]
    cases i with
    | zero => exact ⟨h.nodup, fun x => mem_zeroDegree h htaken⟩
    | succ i =>
      have hnext := counting_countDown (by rwa [append_nil zeroDegree])
      have hlt := card_batch_lt h hempty
      rw [← Nat.add_assoc, Nat.add_right_comm]
      exact ih hnext (fun x => mem_taken_batch h htaken) (by omega) i

end Batch

theorem batched_spec (nodes : List T) (graph : Finmap fun _ : T => List T) (i : ℕ) :
    ((sortedTopologicallyBatched nodes graph)[i]?.getD []).Nodup ∧
      ∀ x, x ∈ (sortedTopologicallyBatched nodes graph)[i]?.getD [] ↔
        x ∈ nodes ∧ IsGreatest (pathLengths nodes graph x) i := by
  have hstart : Counting (keys nodes) (edges graph) ∅ _ _ := counting_start nodup_keys
  have h := batchedLoop_spec (k := 0) hstart (by simp [zero_mem_pathLengths]) (toFinset_card_le _) i
  rwa [Nat.zero_add] at h

/-- **Topological iteration.** -/
theorem topological_iteration (nodes : List T) (graph : Finmap fun _ : T => List T) :
    (sortedTopologically nodes graph).Nodup ∧
      (∀ x, x ∈ sortedTopologically nodes graph ↔ x ∈ nodes ∧ ¬ LeadsToCycle nodes graph x) ∧
      (∀ front x back, sortedTopologically nodes graph = front ++ x :: back → ∀ y, Needs nodes graph x y → y ∈ front) ∧
      (sortedTopologicallyBatched nodes graph).flatten.Perm (sortedTopologically nodes graph) ∧
      ∀ i batch, (sortedTopologicallyBatched nodes graph)[i]? = some batch →
        ∀ x ∈ batch, IsGreatest (pathLengths nodes graph x) i := by
  have hbatch : ∀ i batch, (sortedTopologicallyBatched nodes graph)[i]? = some batch → batch.Nodup ∧
      ∀ x, x ∈ batch ↔ x ∈ nodes ∧ IsGreatest (pathLengths nodes graph x) i := by
    intro i batch hi
    have h := batched_spec nodes graph i
    rwa [hi, Option.getD_some] at h
  have hnodup : (sortedTopologically nodes graph).Nodup := nodup_kahn nodup_keys
  refine ⟨hnodup, fun x => mem_sortedTopologically, ?_, ?_, fun i batch hi x hx => (((hbatch i batch hi).2 x).mp hx).2⟩
  · intro front x back hsplit y hy
    exact kahn_before nodup_keys hsplit hy.1 (mem_keys.mpr hy.2)
  refine (perm_ext_iff_of_nodup ?_ hnodup).mpr fun x => ?_
  · refine nodup_flatten.mpr ⟨fun batch hb => ?_, pairwise_iff_getElem.mpr fun i j hi hj hlt x hxi hxj => ?_⟩
    · obtain ⟨i, hi⟩ := mem_iff_getElem?.mp hb
      exact (hbatch i batch hi).1
    · have hi := ((hbatch i _ (getElem?_eq_getElem hi)).2 x).mp hxi
      have hj := ((hbatch j _ (getElem?_eq_getElem hj)).2 x).mp hxj
      exact hlt.ne (hi.2.unique hj.2)
  · rw [mem_sortedTopologically, not_leadsToCycle_iff, mem_flatten]
    constructor
    · rintro ⟨batch, hb, hx⟩
      obtain ⟨i, hi⟩ := mem_iff_getElem?.mp hb
      obtain ⟨hx, hi⟩ := ((hbatch i batch hi).2 x).mp hx
      exact ⟨hx, i, hi⟩
    · rintro ⟨hx, i, hi⟩
      have hmem := ((batched_spec nodes graph i).2 x).mpr ⟨hx, hi⟩
      cases hb : (sortedTopologicallyBatched nodes graph)[i]? with
      | none => simp [hb] at hmem
      | some batch => exact ⟨batch, mem_of_getElem? hb, by simpa [hb] using hmem⟩

end Synapse.Iterutils
