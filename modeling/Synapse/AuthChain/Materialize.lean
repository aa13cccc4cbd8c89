import Synapse.AuthChain.Difference

/-!
# Synapse.AuthChain.Materialize — how far up the chains are reached

* `Chains.AtLeast`: a dict of chains has a position, or one above it.
* `materialize_followed`: a traversal settles every chain that it changes, and the chain it starts from.
* `followLinks_settled`: after the pass over the chains of some links, every chain is settled.
* **`follow_maxima`**: after all batches of links, the dict has the maxima of what the state set reaches.
-/

namespace Synapse.AuthChain

open Lib Chain Relation List

namespace Chains

/-- The position, or one above it, is in the dict. -/
def AtLeast (m : Chains) (q : Pos) : Prop := ∃ s, m.lookup q.1 = some s ∧ q.2 ≤ s

def Grows (m m' : Chains) : Prop := ∀ c s, m.lookup c = some s → ∃ s', m'.lookup c = some s' ∧ s ≤ s'

variable {m m' m'' : Chains}

theorem Grows.refl (m : Chains) : Grows m m := fun _ s h => ⟨s, h, le_rfl⟩

theorem Grows.trans (h : Grows m m') (h' : Grows m' m'') : Grows m m'' := by
  intro c s hs
  obtain ⟨s', hs', hle⟩ := h c s hs
  obtain ⟨s'', hs'', hle'⟩ := h' c s' hs'
  exact ⟨s'', hs'', hle.trans hle'⟩

theorem AtLeast.mono {q : Pos} (h : m.AtLeast q) (hgrows : Grows m m') : m'.AtLeast q := by
  obtain ⟨s, hs, hle⟩ := h
  obtain ⟨s', hs', hle'⟩ := hgrows q.1 s hs
  exact ⟨s', hs', hle.trans hle'⟩

theorem Grows.insert {c v : ℕ} (h : m.get c ≤ v) : m.Grows (m.insert c v) := by
  intro c' s hs
  rw [lookup_insert_eq]
  split_ifs with hc
  · rw [get, ← hc, hs] at h
    exact ⟨v, rfl, h⟩
  · exact ⟨s, hs, le_rfl⟩

theorem le_get {q : Pos} (hq : 1 ≤ q.2) : q.2 ≤ m.get q.1 ↔ m.AtLeast q := by
  unfold get AtLeast
  cases m.lookup q.1 with
  | none =>
    simp
    omega
  | some s => simp

end Chains

section Links

variable (links : List Link)

/-- The links of the chain that start at or below its sequence number have been followed. -/
def Settled (m : Chains) (c : ℕ) : Prop := ∀ l ∈ links, l.src.1 = c → m.AtLeast l.src → m.AtLeast l.target

/-- The links whose targets have not been reached. -/
def unmet (m : Chains) : ℕ := links.countP fun l => m.get l.target.1 < l.target.2

variable {links} {m : Chains}

theorem Settled.mono {m' : Chains} {c : ℕ} (h : Settled links m c) (hsame : m'.lookup c = m.lookup c)
    (hgrows : m.Grows m') : Settled links m' c := by
  intro l hl hc hsrc
  refine (h l hl hc ?_).mono hgrows
  obtain ⟨s, hs, hle⟩ := hsrc
  rw [hc, hsame, ← hc] at hs
  exact ⟨s, hs, hle⟩

theorem settled_of_none {c : ℕ} (h : m.lookup c = none) : Settled links m c := by
  rintro l _ rfl ⟨s, hs, _⟩
  cases h.symm.trans hs

/-! ## The links of a chain -/

/-- What following some links at sequence number `s` does to the stack and the dict. -/
structure Visited (s : ℕ) (ls : List Link) (acc acc' : List Pos × Chains) : Prop where
  grows : acc.2.Grows acc'.2
  met : ∀ l ∈ ls, l.src.2 ≤ s → acc'.2.AtLeast l.target
  stack : ∀ q ∈ acc.1, q ∈ acc'.1
  changed : ∀ c, acc'.2.lookup c = acc.2.lookup c ∨
    (∃ v, acc'.2.lookup c = some v ∧ (c, v) ∈ acc'.1) ∧ ∃ l ∈ ls, l.target.1 = c

variable {l : Link}

theorem visitLink_visited (s : ℕ) (hl : 1 ≤ l.target.2) (acc : List Pos × Chains) :
    Visited s [l] acc (visitLink s acc l) := by
  unfold visitLink
  split_ifs with hsrc hget
  · refine ⟨.refl _, fun l' hl' hle => ?_, fun _ hq => hq, fun _ => .inl rfl⟩
    cases mem_singleton.mp hl'
    omega
  · refine ⟨.insert hget.le, fun l' hl' _ => ?_, fun _ hq => mem_cons_of_mem _ hq, fun c => ?_⟩
    · cases mem_singleton.mp hl'
      exact ⟨l.target.2, by simp only [Finmap.lookup_insert], le_rfl⟩
    · rw [lookup_insert_eq]
      split_ifs with hc
      · exact .inr ⟨⟨l.target.2, rfl, by rw [hc]; exact mem_cons_self⟩, l, mem_singleton_self l, hc.symm⟩
      · exact .inl rfl
  · refine ⟨.refl _, fun l' hl' _ => ?_, fun _ hq => hq, fun _ => .inl rfl⟩
    cases mem_singleton.mp hl'
    exact (Chains.le_get hl).mp (not_lt.mp hget)

theorem foldl_visited (s : ℕ) {ls : List Link} (hls : ∀ l ∈ ls, 1 ≤ l.target.2) (acc : List Pos × Chains) :
    Visited s ls acc (ls.foldl (visitLink s) acc) := by
  induction ls generalizing acc with
  | nil => exact ⟨.refl _, fun _ hl => absurd hl not_mem_nil, fun _ hq => hq, fun _ => .inl rfl⟩
  | cons l ls ih =>
    have h := visitLink_visited s (hls l mem_cons_self) acc
    have h' := ih (fun l' hl' => hls l' (mem_cons_of_mem _ hl')) (visitLink s acc l)
    refine ⟨h.grows.trans h'.grows, fun l' hl' hle => ?_, fun q hq => h'.stack q (h.stack q hq), fun c => ?_⟩
    · rcases mem_cons.mp hl' with rfl | hl'
      · exact (h.met l' (mem_singleton_self l') hle).mono h'.grows
      · exact h'.met l' hl' hle
    rcases h'.changed c with hsame | ⟨hnew, l', hl', hc⟩
    · rcases h.changed c with hsame' | ⟨⟨v, hv, hq⟩, l', hl', hc⟩
      · exact .inl (hsame.trans hsame')
      · cases mem_singleton.mp hl'
        exact .inr ⟨⟨v, hsame.trans hv, h'.stack _ hq⟩, l, mem_cons_self, hc⟩
    · exact .inr ⟨hnew, l', mem_cons_of_mem _ hl', hc⟩

theorem unmet_visitLink (s : ℕ) (hl : l ∈ links) (acc : List Pos × Chains) :
    (visitLink s acc l).1.length + unmet links (visitLink s acc l).2 ≤ acc.1.length + unmet links acc.2 := by
  unfold visitLink
  split_ifs with hsrc hget
  · exact le_rfl
  · have hlt : unmet links (acc.2.insert l.target.1 l.target.2) < unmet links acc.2 := by
      refine countP_lt (fun l' _ hl' => ?_) hl ?_ ?_
      · have hl' := of_decide_eq_true hl'
        refine decide_eq_true ?_
        rw [Chains.get, lookup_insert_eq] at hl'
        split_ifs at hl' with hc
        · rw [hc]
          exact hget.trans hl'
        · exact hl'
      · exact decide_eq_true hget
      · simp [Chains.get]
    simp only [length_cons]
    omega
  · exact le_rfl

/-! ## A traversal -/

variable (targets : ∀ l ∈ links, 1 ≤ l.target.2)

/-- While a traversal from chain `c₀` runs: a chain is as it was before, or settled, or its sequence number is on the
stack. -/
structure Traversing (links : List Link) (m₀ : Chains) (c₀ : ℕ) (stack : List Pos) (m : Chains) : Prop where
  grows : m₀.Grows m
  changed : ∀ c, m.lookup c = m₀.lookup c ∨ ∃ l ∈ links, l.target.1 = c
  cases : ∀ c, (m.lookup c = m₀.lookup c ∧ c ≠ c₀) ∨ Settled links m c ∨ ∃ v, m.lookup c = some v ∧ (c, v) ∈ stack

variable {stack : List Pos}

include targets in
theorem Traversing.pop {m₀ : Chains} {c₀ : ℕ} {p : Pos} (h : Traversing links m₀ c₀ (p :: stack) m) :
    let acc := (links.filter fun l => l.src.1 = p.1).foldl (visitLink p.2) (stack, m)
    Traversing links m₀ c₀ acc.1 acc.2 := by
  intro acc
  have hmem : ∀ l ∈ links.filter fun l => l.src.1 = p.1, l ∈ links := fun l hl => (mem_filter.mp hl).1
  have hv : Visited p.2 _ (stack, m) acc := foldl_visited p.2 (fun l hl => targets l (hmem l hl)) (stack, m)
  refine ⟨h.grows.trans hv.grows, fun c => ?_, fun c => ?_⟩
  · rcases hv.changed c with hsame | ⟨_, l, hl, hc⟩
    · rw [hsame]
      exact h.changed c
    · exact .inr ⟨l, hmem l hl, hc⟩
  rcases hv.changed c with hsame | ⟨hnew, _⟩
  · rcases h.cases c with ⟨hold, hne⟩ | hsettled | ⟨v, hlook, hq⟩
    · exact .inl ⟨hsame.trans hold, hne⟩
    · exact .inr (.inl (hsettled.mono hsame hv.grows))
    rcases mem_cons.mp hq with rfl | hq
    · -- the entry that was popped: its links have been followed
      refine .inr (.inl fun l hl hc hsrc => hv.met l (mem_filter.mpr ⟨hl, decide_eq_true hc⟩) ?_)
      obtain ⟨s, hs, hle⟩ := hsrc
      rw [hc, hsame] at hs
      cases hlook.symm.trans hs
      exact hle
    · exact .inr (.inr ⟨v, hsame.trans hlook, hv.stack _ hq⟩)
  · exact .inr (.inr hnew)

include targets in
theorem materializeLoop_traversed {m₀ : Chains} {c₀ : ℕ} {fuel : ℕ}
    (h : Traversing links m₀ c₀ stack m) (hfuel : stack.length + unmet links m ≤ fuel) :
    Traversing links m₀ c₀ [] (materializeLoop links fuel stack m) := by
  fun_induction materializeLoop links fuel stack m with
  | case1 stack =>
    obtain rfl : stack = [] := length_eq_zero_iff.mp (by omega)
    exact h
  | case2 => exact h
  | case3 fuel p stack m acc ih =>
    refine ih (h.pop targets) ?_
    have hle : acc.1.length + unmet links acc.2 ≤ stack.length + unmet links m :=
      foldlRecOn (motive := fun acc' : List Pos × Chains => acc'.1.length + unmet links acc'.2 ≤ stack.length + unmet links m)
        _ _ le_rfl fun acc' h l hl => (unmet_visitLink p.2 (mem_filter.mp hl).1 acc').trans h
    rw [length_cons] at hfuel
    omega

include targets in
theorem materialize_followed {p : Pos} (hp : m.lookup p.1 = some p.2) :
    Traversing links m p.1 [] (materialize p links m) := by
  refine materializeLoop_traversed targets ⟨.refl m, fun _ => .inl rfl, fun c => ?_⟩ ?_
  · by_cases hc : c = p.1
    · exact .inr (.inr ⟨p.2, hc ▸ hp, by rw [hc]; exact mem_singleton_self p⟩)
    · exact .inl ⟨rfl, hc⟩
  · have hle : unmet links m ≤ links.length := countP_le_length
    rw [length_singleton]
    omega

/-! ## What is reached is reached -/

/-- Every position of the dict has the property. -/
def Chains.All (P : Pos → Prop) (m : Chains) : Prop := ∀ c s, m.lookup c = some s → P (c, s)

variable {P : Pos → Prop} (hP : ∀ l ∈ links, ∀ q, P q → l.src.1 = q.1 → l.src.2 ≤ q.2 → P l.target)

theorem visitLink_all {s : ℕ} {acc : List Pos × Chains} (hl : l.src.2 ≤ s → P l.target)
    (hstack : ∀ q ∈ acc.1, P q) (hall : acc.2.All P) :
    (∀ q ∈ (visitLink s acc l).1, P q) ∧ (visitLink s acc l).2.All P := by
  unfold visitLink
  split_ifs with hsrc hget
  · exact ⟨hstack, hall⟩
  · have hnew := hl (not_lt.mp hsrc)
    exact ⟨forall_mem_cons.mpr ⟨hnew, hstack⟩, insert_all hall hnew⟩
  · exact ⟨hstack, hall⟩

include hP in
theorem materializeLoop_all {fuel : ℕ} (hstack : ∀ q ∈ stack, P q) (hall : m.All P) :
    (materializeLoop links fuel stack m).All P := by
  fun_induction materializeLoop links fuel stack m with
  | case1 | case2 => exact hall
  | case3 fuel p stack m acc ih =>
    have hp : P p := hstack p mem_cons_self
    have hacc := foldlRecOn (links.filter fun l => l.src.1 = p.1) (visitLink p.2)
      (motive := fun acc => (∀ q ∈ acc.1, P q) ∧ acc.2.All P)
      (b := (stack, m)) ⟨fun q hq => hstack q (mem_cons_of_mem _ hq), hall⟩ (fun acc h l hl => by
        obtain ⟨hmem, hc⟩ := mem_filter.mp hl
        exact visitLink_all (fun hle => hP l hmem p hp (of_decide_eq_true hc) hle) h.1 h.2)
    exact ih hacc.1 hacc.2

/-! ## The passes over the chains -/

variable {o : DifferenceOrders}

/-- What following the links of some chains does: each of them is settled, and so is every chain that is changed. -/
structure Followed (links : List Link) (m : Chains) (done : List ℕ) (m' : Chains) : Prop where
  grows : m.Grows m'
  changed : ∀ c, m'.lookup c = m.lookup c ∨ ∃ l ∈ links, l.target.1 = c
  settled : ∀ c, Settled links m' c ∨ c ∉ done

include targets in
theorem Followed.step {m' : Chains} {done : List ℕ} (h : Followed links m done m') (chain : ℕ) :
    Followed links m (done ++ [chain]) (followChain links m' chain) := by
  unfold followChain
  cases hlook : m'.lookup chain with
  | none =>
    refine ⟨h.grows, h.changed, fun c => ?_⟩
    by_cases hc : c = chain
    · exact .inl (settled_of_none (hc ▸ hlook))
    · exact (h.settled c).imp_right fun hnot => by simp [hnot, hc]
  | some s =>
    have hm := materialize_followed targets (p := (chain, s)) hlook
    refine ⟨h.grows.trans hm.grows, fun c => ?_, fun c => ?_⟩
    · rcases hm.changed c with hsame | hlink
      · rw [hsame]
        exact h.changed c
      · exact .inr hlink
    rcases hm.cases c with ⟨hsame, hne⟩ | hsettled | ⟨_, _, hnil⟩
    · rcases h.settled c with hsettled | hnot
      · exact .inl (hsettled.mono hsame hm.grows)
      · exact .inr (by simp [hnot, hne])
    · exact .inl hsettled
    · cases hnil

include targets in
theorem followLinks_settled (m : Chains) : m.Grows (followLinks o links m) ∧
      (∀ c, (followLinks o links m).lookup c = m.lookup c ∨ ∃ l ∈ links, l.target.1 = c) ∧
      ∀ c, Settled links (followLinks o links m) c := by
  have hrun : ∀ chains, Followed links m chains (chains.foldl (followChain links) m) := by
    intro chains
    induction chains using reverseRecOn with
    | nil => exact ⟨.refl m, fun _ => .inl rfl, fun _ => .inr not_mem_nil⟩
    | append_singleton chains chain ih =>
      rw [foldl_append]
      exact ih.step targets chain
  have h : Followed links m _ (followLinks o links m) := hrun (o.numbers.iter (links.map fun l => l.src.1).toFinset)
  refine ⟨h.grows, h.changed, fun c => (h.settled c).elim id fun hnot l hl hc => ?_⟩
  refine absurd ?_ hnot
  rw [o.numbers.mem, mem_toFinset]
  exact mem_map.mpr ⟨l, hl, hc⟩

include hP in
theorem followLinks_all (hall : m.All P) : (followLinks o links m).All P := by
  refine foldlRecOn _ (followChain links) hall fun m hm chain _ => ?_
  unfold followChain
  cases hlook : m.lookup chain with
  | none => exact hm
  | some s =>
    refine materializeLoop_all hP (fun q hq => ?_) hm
    cases mem_singleton.mp hq
    exact hm chain s hlook

end Links

/-! ## The batches of links -/

section Rounds

variable {links : List Link} {o : DifferenceOrders} {c : ℕ}

theorem mem_targetChains {d : ℕ} : d ∈ targetChains links c ↔ ∃ l ∈ links, l.src.1 = c ∧ l.target.1 = d := by
  simp [targetChains, and_assoc]

variable {batch : List ℕ}

theorem mem_linkedChains : c ∈ linkedChains links batch ↔
    ∃ x ∈ batch, (∃ l ∈ links, l.src.1 = x) ∧ ReflTransGen (Step (targetChains links)) x c := by
  have hbound : ∀ x, targetChains links x ⊆ (links.map fun l => l.target.1).toFinset := by
    intro x d hd
    obtain ⟨l, hl, _, hd⟩ := mem_targetChains.mp hd
    exact mem_toFinset.mpr (mem_map.mpr ⟨l, hl, hd⟩)
  unfold linkedChains
  rw [mem_frontier hbound (fun x hx hnot => absurd hx hnot) (.inr ?_)]
  · simp only [mem_toFinset, mem_filter, any_eq_true, decide_eq_true_eq]
    constructor
    · rintro (⟨hc, hlink⟩ | ⟨x, ⟨hx, hlink⟩, hpath⟩)
      · exact ⟨c, hc, hlink, .refl⟩
      · exact ⟨x, hx, hlink, hpath.to_reflTransGen⟩
    rintro ⟨x, hx, hlink, hpath⟩
    rcases reflTransGen_iff_eq_or_transGen.mp hpath with rfl | hpath
    · exact .inl ⟨hx, hlink⟩
    · exact .inr ⟨x, ⟨hx, hlink⟩, hpath⟩
  · refine Nat.lt_succ_of_le ((Finset.card_le_card Finset.sdiff_subset).trans ?_)
    exact (toFinset_card_le _).trans (length_map _).le

theorem mem_fetchLinks {l : Link} : l ∈ fetchLinks links batch ↔ l ∈ links ∧ l.src.1 ∈ linkedChains links batch := by
  simp [fetchLinks]

theorem linkedChains_closed {l : Link} (hl : l ∈ fetchLinks links batch) : l.target.1 ∈ linkedChains links batch := by
  obtain ⟨hl, hsrc⟩ := mem_fetchLinks.mp hl
  obtain ⟨x, hx, hlink, hpath⟩ := mem_linkedChains.mp hsrc
  exact mem_linkedChains.mpr ⟨x, hx, hlink, hpath.tail (mem_targetChains.mpr ⟨l, hl, rfl, rfl⟩)⟩

variable {m : Chains}

theorem followLinks_batch (targets : ∀ l ∈ links, 1 ≤ l.target.2) (batch : List ℕ) :
    let m' := followLinks o (o.links (fetchLinks links batch)) m
    m.Grows m' ∧ ∀ c, (Settled links m c ∨ c ∈ batch ∨ c ∈ linkedChains links batch) → Settled links m' c := by
  have hrows := o.links_perm (fetchLinks links batch)
  obtain ⟨hgrows, hchanged, hsettled⟩ := followLinks_settled
    (fun l hl => targets l (mem_fetchLinks.mp (hrows.mem_iff.mp hl)).1) m
  refine ⟨hgrows, fun c hc => ?_⟩
  by_cases hlinked : c ∈ linkedChains links batch
  · exact fun l hl hsrc => hsettled c l (hrows.mem_iff.mpr (mem_fetchLinks.mpr ⟨hl, hsrc ▸ hlinked⟩)) hsrc
  rcases hc with hold | hbatch | hmem
  · rcases hchanged c with hsame | ⟨l, hl, rfl⟩
    · exact hold.mono hsame hgrows
    · exact absurd (linkedChains_closed (hrows.mem_iff.mp hl)) hlinked
  · -- a chain of the batch that has no links
    intro l hl hsrc
    exact absurd (mem_linkedChains.mpr ⟨c, hbatch, ⟨l, hl, hsrc⟩, .refl⟩) hlinked
  · exact absurd hmem hlinked

def followBatches (o : DifferenceOrders) (batches : List (List Link)) (m : Chains) : Chains :=
  batches.foldl (fun m rows => followLinks o (o.links rows) m) m

theorem followBatches_settled (targets : ∀ l ∈ links, 1 ≤ l.target.2) {fuel : ℕ} {chains : List ℕ}
    (hfuel : chains.length ≤ fuel) (h : ∀ c, Settled links m c ∨ c ∈ chains) :
    m.Grows (followBatches o (getChainLinksLoop links fuel chains) m) ∧
      ∀ c, Settled links (followBatches o (getChainLinksLoop links fuel chains) m) c := by
  fun_induction getChainLinksLoop links fuel chains generalizing m with
  | case1 chains =>
    obtain rfl : chains = [] := length_eq_zero_iff.mp (Nat.le_zero.mp hfuel)
    exact ⟨.refl m, fun c => (h c).resolve_right not_mem_nil⟩
  | case2 => exact ⟨.refl m, fun c => (h c).resolve_right not_mem_nil⟩
  | case3 fuel chain chains rows =>
    rename_i ih
    obtain ⟨hgrows, hbatch⟩ := followLinks_batch targets ((chain :: chains).take 1000)
    obtain ⟨hgrows', hsettled⟩ := @ih (followLinks o (o.links rows) m) (by
      refine (length_filter_le _ _).trans ?_
      rw [length_drop]
      omega) fun c => by
      by_cases hrow : ∃ l ∈ rows, l.src.1 = c
      · obtain ⟨l, hl, rfl⟩ := hrow
        exact .inl (hbatch _ (.inr (.inr (mem_fetchLinks.mp hl).2)))
      rcases h c with hsettled | hmem
      · exact .inl (hbatch c (.inl hsettled))
      rw [← take_append_drop 1000 (chain :: chains), mem_append] at hmem
      rcases hmem with htake | hdrop
      · exact .inl (hbatch c (.inr (.inl htake)))
      · exact .inr (mem_filter.mpr ⟨hdrop, decide_eq_true fun l hl hsrc => hrow ⟨l, hl, hsrc⟩⟩)
    exact ⟨hgrows.trans hgrows', hsettled⟩

/-! ## The maxima of a state set -/

variable {t : Tables} {info : ChainInfo} {s : Finset String}

def positionsOf (t : Tables) (s : Finset String) : Set Pos := {p | ∃ id ∈ s, t.pos id = some p}

theorem addToChains_all {p : Pos} {P : Pos → Prop} (h : m.All P) (hp : P p) :
    Chains.All P (m.insert p.1 (max p.2 (m.get p.1))) := by
  refine insert_all h ?_
  cases hlook : m.lookup p.1 with
  | none => simpa [Chains.get, hlook] using hp
  | some v =>
    rw [Chains.get, hlook, Option.getD_some]
    rcases max_choice p.2 v with heq | heq
    · rwa [heq]
    · rw [heq]
      exact h p.1 v hlook

theorem chainsOf_ok (hsub : ∀ id ∈ s, ∃ p, info.chainInfo.lookup id = some p ∧ t.pos id = some p) :
    ∃ m, chainsOf o info s = .ok m ∧ (∀ p ∈ positionsOf t s, m.AtLeast p) ∧ m.All (· ∈ positionsOf t s) := by
  obtain ⟨m, hm, hreached, hall⟩ := foldlM_total (f := addToChains info) (l := o.strings.iter s)
    (fun done m => (∀ id ∈ done, ∀ p, t.pos id = some p → m.AtLeast p) ∧ m.All (· ∈ positionsOf t s))
    (s := (∅ : Chains)) ⟨fun _ hid => absurd hid not_mem_nil, fun c v hv => by simp at hv⟩ (by
      intro done id rest m hsplit hm
      have hid : id ∈ s := (o.strings.mem s id).mp (hsplit ▸ mem_append_right _ mem_cons_self)
      obtain ⟨p, hinfo, hpos⟩ := hsub id hid
      refine ⟨m.insert p.1 (max p.2 (m.get p.1)), by rw [addToChains, hinfo], fun id' hid' q hq => ?_,
        addToChains_all hm.2 ⟨id, hid, hpos⟩⟩
      rcases mem_snoc.mp hid' with hid' | rfl
      · exact (hm.1 id' hid' q hq).mono (.insert (le_max_right _ _))
      · cases hpos.symm.trans hq
        exact ⟨_, Finmap.lookup_insert m, le_max_left _ _⟩)
  refine ⟨m, hm, fun p hp => ?_, hall⟩
  obtain ⟨id, hid, hpos⟩ := hp
  exact hreached id ((o.strings.mem s id).mpr hid) p hpos

theorem follow_maxima (targets : ∀ l ∈ t.eventAuthChainLinks, 1 ≤ l.target.2) {seenChains : Finset ℕ}
    (hstart : ∀ p ∈ positionsOf t s, m.AtLeast p) (hall : m.All (· ∈ positionsOf t s))
    (hseen : ∀ p ∈ positionsOf t s, p.1 ∈ seenChains) :
    Maxima t.links (positionsOf t s)
      (fun c => (followBatches o (getChainLinks t.eventAuthChainLinks (o.numbers.iter seenChains)) m).lookup c) := by
  have hfetch : ∀ c, Settled t.eventAuthChainLinks m c ∨ c ∈ o.numbers.iter seenChains := by
    intro c
    cases hlook : m.lookup c with
    | none => exact .inl (settled_of_none hlook)
    | some v => exact .inr ((o.numbers.mem _ _).mpr (hseen _ (hall c v hlook)))
  obtain ⟨hgrows, hsettled⟩ := followBatches_settled targets le_rfl hfetch
  refine ⟨fun p hp => (hstart p hp).mono hgrows, fun l hl v hv hle => hsettled l.src.1 l hl rfl ⟨v, hv, hle⟩, ?_⟩
  -- nothing is reached but along links
  have hsound : ∀ batches : List (List Link), (∀ rows ∈ batches, ∀ l ∈ rows, l ∈ t.eventAuthChainLinks) →
      (followBatches o batches m).All fun q => ∃ p ∈ positionsOf t s, Reach t.links p q := by
    intro batches hbatches
    refine foldlRecOn batches _ 
      (fun c v hv => ⟨_, hall c v hv, .refl⟩) fun m hm rows hrows => ?_
    refine followLinks_all (fun l hl q hq hchain hseq => ?_) hm
    obtain ⟨p, hp, hreach⟩ := hq
    have hmem : l ∈ t.links := hbatches rows hrows l ((o.links_perm rows).mem_iff.mp hl)
    exact ⟨p, hp, hreach.trans (.link hmem hchain hseq)⟩
  exact hsound _ fun rows hrows l hl => mem_of_mem_getChainLinks hrows hl

end Rounds

end Synapse.AuthChain
