import Mathlib.Order.WellFoundedSet

/-!
# Synapse.Lib.Greedy — topological orders that take the least available node

Each node needs other nodes.  A node is available once everything it needs is taken, and the order takes the available
node with the least key, until none is left.  With an injective key there is one such order (`Order.unique`), whatever
computes it.

* `kahn`: such an order from the degrees of the nodes and a heap; `mem_kahn`, `nodup_kahn`, `kahn_before`.
* `exists_top`: a finite set of nodes without cycles has one that no other leads to.
-/

namespace Synapse.Lib.Greedy

open Finset Option Relation List

variable {α κ : Type} [DecidableEq α] [LinearOrder κ] (nodes : Finset α) (needs : α → Finset α) (key : α → κ)

def available (taken : Finset α) : Finset α := nodes.filter fun x => x ∉ taken ∧ needs x ⊆ taken

/-- `Order taken l`: after the nodes `taken`, those of `l` are taken one by one and then none is available. -/
inductive Order : Finset α → List α → Prop where
  | stop {taken : Finset α} (h : available nodes needs taken = ∅) : Order taken []
  | next {taken : Finset α} {x : α} {l : List α} (hx : x ∈ available nodes needs taken)
      (hleast : ∀ y ∈ available nodes needs taken, key x ≤ key y) (rest : Order (insert x taken) l) :
      Order taken (x :: l)

variable {nodes needs key} {taken : Finset α} {l l' : List α} {x : α}

theorem mem_available : x ∈ available nodes needs taken ↔ x ∈ nodes ∧ x ∉ taken ∧ needs x ⊆ taken :=
  mem_filter

theorem mem_available_insert (hx : x ∈ available nodes needs taken) (hclosed : ∀ y ∈ taken, needs y ⊆ taken)
    {y : α} : y ∈ available nodes needs (insert x taken) ↔
      (y ∈ available nodes needs taken ∧ y ≠ x) ∨ (y ∈ nodes ∧ x ∈ needs y ∧ needs y ⊆ insert x taken) := by
  obtain ⟨-, hxt, hxn⟩ := mem_available.mp hx
  rw [mem_available, mem_available]
  constructor
  · rintro ⟨hy, hyt, hyn⟩
    rw [mem_insert, not_or] at hyt
    by_cases hxy : x ∈ needs y
    · exact .inr ⟨hy, hxy, hyn⟩
    · exact .inl ⟨⟨hy, hyt.2, (subset_insert_iff_of_notMem hxy).mp hyn⟩, hyt.1⟩
  rintro (⟨⟨hy, hyt, hyn⟩, hne⟩ | ⟨hy, hxy, hyn⟩)
  · exact ⟨hy, by simp [hyt, hne], hyn.trans (subset_insert _ _)⟩
  · -- a node that needs `x` is neither `x` nor taken before it
    refine ⟨hy, ?_, hyn⟩
    rw [mem_insert, not_or]
    exact ⟨fun h => hxt (hxn (h ▸ hxy)), fun h => hxt (hclosed y h hxy)⟩

theorem Order.unique (hkey : Set.InjOn key nodes) (h : Order nodes needs key taken l)
    (h' : Order nodes needs key taken l') : l = l' := by
  induction h generalizing l' with
  | stop hnone =>
    cases h' with
    | stop => rfl
    | next hx => simp [hnone] at hx
  | next hx hleast _ ih =>
    cases h' with
    | stop hnone => simp [hnone] at hx
    | next hx' hleast' rest' =>
      have hxx := hkey (mem_available.mp hx).1 (mem_available.mp hx').1
        (le_antisymm (hleast _ hx') (hleast' _ hx))
      subst hxx
      rw [ih rest']

section Order

variable (h : Order nodes needs key taken l)
include h

theorem Order.mem_nodes (hx : x ∈ l) : x ∈ nodes := by
  induction h with
  | stop => cases hx
  | next hy _ _ ih =>
    rcases mem_cons.mp hx with rfl | hx
    · exact (mem_available.mp hy).1
    · exact ih hx

theorem Order.nodup : l.Nodup ∧ ∀ x ∈ l, x ∉ taken := by
  induction h with
  | stop => exact ⟨nodup_nil, fun x hx => absurd hx not_mem_nil⟩
  | next hx hleast rest ih =>
    rename_i taken x l
    refine ⟨nodup_cons.mpr ⟨fun hmem => ih.2 x hmem (mem_insert_self _ _), ih.1⟩, fun y hy => ?_⟩
    rcases mem_cons.mp hy with rfl | hy
    · exact (mem_available.mp hx).2.1
    · exact fun ht => ih.2 y hy (mem_insert_of_mem ht)

/-- Each node is available when it is taken, and no other node that is has a smaller key. -/
theorem Order.split {front back : List α} (hl : l = front ++ x :: back) :
    x ∈ available nodes needs (taken ∪ front.toFinset) ∧
      ∀ y ∈ available nodes needs (taken ∪ front.toFinset), key x ≤ key y := by
  induction h generalizing front with
  | stop => simp at hl
  | next hx hleast rest ih =>
    rcases front with _ | ⟨w, front⟩
    · obtain ⟨rfl, -⟩ := cons_eq_cons.mp hl
      simpa using ⟨hx, hleast⟩
    · obtain ⟨rfl, htail⟩ := cons_eq_cons.mp hl
      rw [toFinset_cons, union_insert, ← insert_union]
      exact ih htail

theorem Order.exhausted : available nodes needs (taken ∪ l.toFinset) = ∅ := by
  induction h with
  | stop hnone => simpa using hnone
  | next _ _ _ ih =>
    rw [toFinset_cons, union_insert, ← insert_union]
    exact ih

theorem Order.acc (htaken : ∀ y ∈ taken, Acc (fun y x => y ∈ needs x) y) (hx : x ∈ l) :
    Acc (fun y x => y ∈ needs x) x := by
  induction h with
  | stop => cases hx
  | @next _ z _ hz _ _ ih =>
    have hacc : Acc (fun y x => y ∈ needs x) z := .intro z fun y hy => htaken y ((mem_available.mp hz).2.2 hy)
    rcases mem_cons.mp hx with rfl | hx
    · exact hacc
    · exact ih (forall_mem_insert _ _ _ |>.mpr ⟨hacc, htaken⟩) hx

end Order

theorem Order.mem_iff (h : Order nodes needs key ∅ l) (hsub : ∀ x ∈ nodes, needs x ⊆ nodes) :
    x ∈ l ↔ x ∈ nodes ∧ Acc (fun y x => y ∈ needs x) x := by
  refine ⟨fun hx => ⟨h.mem_nodes hx, h.acc (by simp) hx⟩, ?_⟩
  rintro ⟨hx, hacc⟩
  induction hacc with
  | intro x _ ih =>
    by_contra hnot
    have hav : x ∈ available nodes needs (∅ ∪ l.toFinset) := by
      refine mem_available.mpr ⟨hx, by simpa using hnot, fun y hy => ?_⟩
      simpa using ih y hy (hsub x hx hy)
    rw [h.exhausted] at hav
    exact notMem_empty _ hav

/-- Among finitely many nodes, those from which every descent ends are those that do not lead to a cycle. -/
theorem acc_iff_not_cycle (hsub : ∀ x, needs x ⊆ nodes) : Acc (fun y x => y ∈ needs x) x ↔
    ¬ ∃ y, ReflTransGen (fun a b => b ∈ needs a) x y ∧ TransGen (fun a b => b ∈ needs a) y y := by
  constructor
  · rintro hacc ⟨y, hxy, hyy⟩
    have hy : Acc (TransGen fun y x => y ∈ needs x) y := by
      clear hyy
      refine Acc.transGen ?_
      induction hxy with
      | refl => exact hacc
      | tail _ hbc ih => exact ih.inv hbc
    clear hxy
    rw [← transGen_swap] at hyy
    induction hy with
    | intro z _ ih => exact ih z hyy hyy
  intro hnone
  -- the descents from here are a strict order
  let below : α → α → Prop := fun z y =>
    ReflTransGen (fun a b => b ∈ needs a) x y ∧ TransGen (fun a b => b ∈ needs a) y z
  have : IsStrictOrder α below := {
    irrefl := fun y hy => hnone ⟨y, hy⟩
    trans := fun _ _ _ hab hbc => ⟨hbc.1, hbc.2.trans hab.2⟩ }
  have hwf := (insert x nodes).finite_toSet.wellFoundedOn (r := below)
  refine hwf.induction (P := fun y => ReflTransGen (fun a b => b ∈ needs a) x y → Acc (fun y x => y ∈ needs x) y)
    (mem_coe.mpr (mem_insert_self x nodes)) (fun y _ ih hxy => Acc.intro y fun z hz => ?_) .refl
  exact ih z (mem_insert_of_mem (hsub y hz)) ⟨hxy, .single hz⟩ (hxy.tail hz)

/-! ## Priority queues -/

/-- `heapq.heappop` on the items of a heap. -/
def heappop {β : Type} [LinearOrder β] (heap : List β) : Option (β × List β) := heap.min?.map fun x => (x, heap.erase x)

variable {β : Type} {heap : List β}

section

variable [LinearOrder β] {rest : List β} {x : β} (h : heappop heap = some (x, rest))
include h

theorem heappop_some : x ∈ heap ∧ (∀ y ∈ heap, x ≤ y) ∧ rest = heap.erase x := by
  obtain ⟨y, hy, hxy⟩ := map_eq_some_iff.mp h
  cases hxy
  obtain ⟨hmem, hle⟩ := min?_eq_some_iff.mp hy
  exact ⟨hmem, hle, rfl⟩

theorem mem_of_heappop : x ∈ heap ∧ ∀ y ∈ rest, y ∈ heap := by
  obtain ⟨hmem, -, rfl⟩ := heappop_some h
  exact ⟨hmem, fun y hy => mem_of_mem_erase hy⟩

end

theorem heappop_none [LinearOrder β] (h : heappop heap = none) : heap = [] :=
  min?_eq_none_iff.mp (map_eq_none_iff.mp h)

/-! ## Sorting by degrees -/

section Kahn

variable [LinearOrder β] (elements : List β) (graph : β → List β)

/-- Take the least node that waits for no other, and count down the degrees of those that waited for it. -/
def kahnLoop : ℕ → (β → ℕ) → List β → List β
  | 0, _, _ => []
  | fuel + 1, degree, heap =>
    match heappop heap with
    | none => []
    | some (node, rest) =>
      let waiting := elements.filter fun x => node ∈ graph x
      let degree' := fun x => if x ∈ waiting then degree x - 1 else degree x
      node :: kahnLoop fuel degree' (rest ++ waiting.filter fun x => degree' x = 0)

/-- How many of the nodes a node waits for. -/
def degree (x : β) : ℕ := ((graph x).dedup.filter (· ∈ elements)).length

/-- The nodes in topological order, the least first. -/
def kahn : List β :=
  kahnLoop elements graph elements.length (degree elements graph) (elements.filter fun x => degree elements graph x = 0)

def waitsFor (x : β) : Finset β := ((graph x).dedup.filter (· ∈ elements)).toFinset

variable {elements graph} {x : β}

theorem mem_waitsFor {y : β} : y ∈ waitsFor elements graph x ↔ y ∈ graph x ∧ y ∈ elements := by
  simp [waitsFor]

theorem degree_eq (x : β) : degree elements graph x = (waitsFor elements graph x).card :=
  (toFinset_card_of_nodup ((nodup_dedup _).filter _)).symm

/-- The state of the loop: what waits for nothing is in the heap, and the degrees count what is still waited for. -/
structure Counting (elements : List β) (graph : β → List β) (taken : Finset β) (degree : β → ℕ) (heap : List β) : Prop where
  nodup : heap.Nodup
  mem_heap : ∀ x, x ∈ heap ↔ x ∈ available elements.toFinset (waitsFor elements graph) taken
  degree_eq : ∀ x ∈ elements, x ∉ taken → degree x = (waitsFor elements graph x \ taken).card
  closed : ∀ x ∈ taken, waitsFor elements graph x ⊆ taken

theorem Counting.next {taken : Finset β} {degree : β → ℕ} {heap : List β} {node : β}
    (h : Counting elements graph taken degree heap) (hnode : node ∈ heap) (hnd : elements.Nodup) :
    let waiting := elements.filter fun x => node ∈ graph x
    let degree' := fun x => if x ∈ waiting then degree x - 1 else degree x
    Counting elements graph (insert node taken) degree' (heap.erase node ++ waiting.filter fun x => degree' x = 0) := by
  intro waiting degree'
  have hav := (h.mem_heap node).mp hnode
  obtain ⟨hmem, hnt, hneeds⟩ := mem_available.mp hav
  have hmem : node ∈ elements := List.mem_toFinset.mp hmem
  -- a node that waits for this one has not been taken
  have hwaiting : ∀ x, x ∈ waiting ↔ x ∈ elements ∧ node ∈ waitsFor elements graph x := by
    simp [waiting, mem_waitsFor, hmem]
  have huntaken : ∀ x ∈ waiting, x ∉ taken := fun x hx ht => hnt (h.closed x ht ((hwaiting x).mp hx).2)
  have hdegree : ∀ x ∈ elements, x ∉ insert node taken → degree' x = (waitsFor elements graph x \ insert node taken).card := by
    intro x hx hxt
    have hd := h.degree_eq x hx fun ht => hxt (mem_insert_of_mem ht)
    show (if x ∈ waiting then degree x - 1 else degree x) = _
    by_cases hw : x ∈ waiting
    · rw [if_pos hw, sdiff_insert, hd, card_erase_of_mem]
      exact mem_sdiff.mpr ⟨((hwaiting x).mp hw).2, hnt⟩
    · have hnot : node ∉ waitsFor elements graph x := fun hn => hw ((hwaiting x).mpr ⟨hx, hn⟩)
      rw [if_neg hw, hd, sdiff_insert_of_notMem hnot]
  have hzero : ∀ x, x ∈ waiting.filter (fun x => degree' x = 0) ↔
      x ∈ elements ∧ node ∈ waitsFor elements graph x ∧ waitsFor elements graph x ⊆ insert node taken := by
    intro x
    rw [List.mem_filter, hwaiting, and_assoc, decide_eq_true_eq]
    refine and_congr_right fun hx => and_congr_right fun hn => ?_
    have hxt : x ∉ insert node taken := by
      intro ht
      rcases mem_insert.mp ht with rfl | ht
      · exact hnt (hneeds hn)
      · exact huntaken x ((hwaiting x).mpr ⟨hx, hn⟩) ht
    rw [hdegree x hx hxt, card_eq_zero, sdiff_eq_empty_iff_subset]
  have hrest : ∀ x, x ∈ heap.erase node ↔ x ∈ available elements.toFinset (waitsFor elements graph) taken ∧ x ≠ node := by
    intro x
    rw [h.nodup.mem_erase_iff, and_comm, h.mem_heap]
  refine ⟨?_, fun x => ?_, hdegree, fun x hx => ?_⟩
  · refine List.Nodup.append (h.nodup.erase node) ((hnd.filter _).filter _) fun x hx hx' => ?_
    -- what was in the heap did not wait for the node
    exact hnt ((mem_available.mp ((hrest x).mp hx).1).2.2 ((hzero x).mp hx').2.1)
  · rw [List.mem_append, hrest, hzero, mem_available_insert hav h.closed, List.mem_toFinset]
  · rcases mem_insert.mp hx with rfl | hx
    · exact hneeds.trans (subset_insert _ _)
    · exact (h.closed x hx).trans (subset_insert _ _)

theorem counting_start (hnd : elements.Nodup) :
    Counting elements graph ∅ (degree elements graph) (elements.filter fun x => degree elements graph x = 0) := by
  refine ⟨hnd.filter _, fun x => ?_, fun x _ _ => ?_, by simp⟩
  · rw [List.mem_filter, mem_available, degree_eq]
    simp
  · rw [degree_eq, sdiff_empty]

theorem order_kahn (hnd : elements.Nodup) :
    Order elements.toFinset (waitsFor elements graph) id ∅ (kahn elements graph) := by
  suffices hloop : ∀ fuel taken degree heap, Counting elements graph taken degree heap →
      (elements.toFinset \ taken).card ≤ fuel →
      Order elements.toFinset (waitsFor elements graph) id taken (kahnLoop elements graph fuel degree heap) by
    exact hloop _ ∅ _ _ (counting_start hnd) (toFinset_card_le _)
  intro fuel
  induction fuel with
  | zero =>
    intro taken degree heap _ hfuel
    refine .stop (eq_empty_of_forall_notMem fun x hx => ?_)
    obtain ⟨hx, hxt, -⟩ := mem_available.mp hx
    have hall := card_eq_zero.mp (Nat.le_zero.mp hfuel)
    exact notMem_empty x (hall ▸ mem_sdiff.mpr ⟨hx, hxt⟩)
  | succ fuel ih =>
    intro taken degree heap h hfuel
    rw [kahnLoop]
    rcases hpop : heappop heap with _ | ⟨node, rest⟩
    · refine .stop (eq_empty_of_forall_notMem fun x hx => ?_)
      rw [← h.mem_heap, heappop_none hpop] at hx
      exact not_mem_nil hx
    obtain ⟨hnode, hleast, rfl⟩ := heappop_some hpop
    have hav := (h.mem_heap node).mp hnode
    refine .next hav (fun y hy => hleast y ((h.mem_heap y).mpr hy)) (ih _ _ _ (h.next hnode hnd) ?_)
    obtain ⟨hmem, hnt, -⟩ := mem_available.mp hav
    rw [sdiff_insert, card_erase_of_mem (mem_sdiff.mpr ⟨hmem, hnt⟩)]
    omega

theorem nodup_kahn (hnd : elements.Nodup) : (kahn elements graph).Nodup := (order_kahn hnd).nodup.1

theorem kahn_before (hnd : elements.Nodup) {front back : List β} {y : β} (h : kahn elements graph = front ++ x :: back)
    (hy : y ∈ graph x) (hmem : y ∈ elements) : y ∈ front := by
  have hneeds := (mem_available.mp ((order_kahn hnd).split h).1).2.2
  simpa using hneeds (mem_waitsFor.mpr ⟨hy, hmem⟩)

/-- **The nodes that do not lead to a cycle are sorted.** -/
theorem mem_kahn_iff (hnd : elements.Nodup) : x ∈ kahn elements graph ↔ x ∈ elements ∧
    ¬ ∃ y, ReflTransGen (fun a b => b ∈ waitsFor elements graph a) x y ∧
      TransGen (fun a b => b ∈ waitsFor elements graph a) y y := by
  have hsub : ∀ x, waitsFor elements graph x ⊆ elements.toFinset := fun x y hy =>
    List.mem_toFinset.mpr (mem_waitsFor.mp hy).2
  rw [(order_kahn hnd).mem_iff fun x _ => hsub x, acc_iff_not_cycle hsub, List.mem_toFinset]

theorem mem_kahn (hnd : elements.Nodup) (hacyclic : ∀ x, ¬ Relation.TransGen (fun a b => b ∈ graph a) x x) :
    x ∈ kahn elements graph ↔ x ∈ elements := by
  refine (mem_kahn_iff hnd).trans (and_iff_left ?_)
  rintro ⟨y, -, hy⟩
  exact hacyclic y (TransGen.mono (fun a b hb => (mem_waitsFor.mp hb).1) y y hy)

end Kahn

theorem exists_top (succ : α → List α) (hacyclic : ∀ x, ¬ Relation.TransGen (fun a b => b ∈ succ a) x x) {s : Finset α}
    (hs : s.Nonempty) : ∃ x ∈ s, ∀ y ∈ s, x ∉ succ y := by
  let above : α → α → Prop := fun y x => Relation.TransGen (fun a b => b ∈ succ a) y x
  have : IsStrictOrder α above := { irrefl := hacyclic, trans := fun _ _ _ hab hbc => Relation.TransGen.trans hab hbc }
  by_contra hnone
  obtain ⟨x, hx⟩ := hs
  refine (s.finite_toSet.wellFoundedOn (r := above)).induction hx fun x hx ih => hnone ?_
  exact ⟨x, hx, fun y hy hmem => ih y hy (.single hmem)⟩

end Synapse.Lib.Greedy
