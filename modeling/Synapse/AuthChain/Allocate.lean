import Synapse.AuthChain.Gathering

/-!
# Synapse.AuthChain.Allocate — positions of the events of a batch

* `Indexed`: what is known of the tables between two batches.
* `Allocating`: the positions given so far continue the chains of the table; an event is above its auth events that are on
  its chain.
* `allocateEvent_ok`: the body of the loop over the tree gives an event a position.
* `allocateChainIds_ok`: so does the function, with chain ids for the temporary objects.
-/

namespace Synapse.AuthChain

open Lib Chain Greedy Relation List Option AList

structure Indexed (ev : Events) (t : Tables) : Prop where
  cover : Cover ev.auth t.pos t.links
  between : ∀ l ∈ t.eventAuthChainLinks, l.src.1 ≠ l.target.1
  bound : ∀ id p, t.pos id = some p → p.1 ≤ t.lastChainId
  pending : ∀ id ∈ t.eventAuthChainToCalculate, id ∈ t.stateEvents ∧ t.pos id = none

/-- The events of `nodes` are to get a position: they have none, and their auth events have one or are among them. -/
structure Allocatable (ev : Events) (t : Tables) (c : Calc) (nodes : List String) : Prop where
  nodup : nodes.Nodup
  toCalc : ∀ id ∈ nodes, id ∈ c.eventsToCalc
  closed : ∀ id ∈ nodes, ∀ a ∈ ev.auth id, a ∈ c.chainMap ∨ a ∈ nodes

theorem allocatable_discard {ev : Events} {t : Tables} {c : Calc} (h : Gathered ev t c) (stateEvents : List String) :
    Allocatable ev t c (discard t stateEvents c).1 where
  nodup := (discard_ok h stateEvents).sublist.nodup h.nodup
  toCalc _ hid := (discard_ok h stateEvents).sublist.subset hid
  closed id hid a ha := by
    have hd := discard_ok h stateEvents
    have hkey : id ∈ c.eventToAuthChain := (h.keys id).mp (hd.sublist.subset hid)
    have hmem := (mem_sorted h c.eventToAuthChain.keys_nodup).mpr hkey
    exact hd.auth id hmem hid a ((h.perm_auth hkey).mem_iff.mpr ha)

section Max

variable {t : Tables}

section

variable {id : String} {p : Pos} (hp : t.pos id = some p)
include hp

theorem mem_rows_of_pos : id ∈ t.eventAuthChains.keys.filter fun id => (t.pos id).any fun q => q.1 = p.1 := by
  refine Finset.mem_filter.mpr ⟨Finmap.mem_keys.mpr (Finmap.mem_of_lookup_eq_some hp), ?_⟩
  rw [hp]
  simp

theorem maxSequence_isSome : (t.maxSequence p.1).isSome := by
  unfold Tables.maxSequence
  rw [if_neg (Finset.ne_empty_of_mem (mem_rows_of_pos hp))]
  rfl

theorem le_maxSequence {m : ℕ} (hm : t.maxSequence p.1 = some m) : p.2 ≤ m := by
  unfold Tables.maxSequence at hm
  rw [if_neg (Finset.ne_empty_of_mem (mem_rows_of_pos hp))] at hm
  obtain rfl := some.inj hm
  have := Finset.le_sup (f := fun id => ((t.pos id).map Prod.snd).getD 0) (mem_rows_of_pos hp)
  simpa [hp] using this

end

end Max

/-! ## The loop over the tree -/

section Loop

variable (ev : Events) (t : Tables)

/-- Where an event is, with temporary objects for new chains. -/
def posRef (acc : Allocation) (id : String) : Option (ChainRef × ℕ) :=
  (acc.newChainTuples.lookup id).or ((t.pos id).map fun p => (.existing p.1, p.2))

/-- The loop over the tree, when some events have a position. -/
structure Allocating (existing : List ℕ) (seen : List String) (acc : Allocation) : Prop where
  keys : ∀ id, id ∈ acc.newChainTuples ↔ id ∈ seen
  unique : ∀ a b r, posRef t acc a = some r → posRef t acc b = some r → a = b
  contiguous : ∀ id r, acc.newChainTuples.lookup id = some r →
    r.2 = 1 ∨ (1 < r.2 ∧ ∃ a ∈ ev.auth id, posRef t acc a = some (r.1, r.2 - 1))
  top : ∀ id r m, posRef t acc id = some r → acc.chainToMaxSeqNo r.1 = some m → r.2 ≤ m
  loaded : ∀ chain ∈ existing, (acc.chainToMaxSeqNo (.existing chain)).isSome
  known : ∀ id r, acc.newChainTuples.lookup id = some r → (acc.chainToMaxSeqNo r.1).isSome
  refs : ∀ id r, acc.newChainTuples.lookup id = some r →
    (∃ chain ∈ existing, r.1 = .existing chain) ∨ ∃ i < acc.unallocated, r.1 = .new i
  lower : ∀ id r, acc.newChainTuples.lookup id = some r →
    ∀ a ∈ ev.auth id, ∀ r', posRef t acc a = some r' → r'.1 = r.1 → r'.2 < r.2

variable {ev t} {c : Calc} {nodes seen : List String} {existing : List ℕ} {acc : Allocation} {id a : String}

theorem mem_authEvents (hg : Gathered ev t c) (hid : id ∈ c.eventsToCalc) :
    a ∈ (c.eventToAuthChain.lookup id).getD [] ↔ a ∈ ev.auth id :=
  (hg.perm_auth ((hg.keys id).mp hid)).mem_iff

theorem mem_auth_of_sameType (hg : Gathered ev t c) (hid : id ∈ c.eventsToCalc) (h : sameType c id = some a) :
    a ∈ ev.auth id :=
  (mem_authEvents hg hid).mp (mem_of_find?_eq_some h)

theorem mem_existingChains {chain : ℕ} (hg : Gathered ev t c) (h : chain ∈ existingChains c nodes) :
    ∃ a s, t.pos a = some (chain, s) := by
  obtain ⟨id, -, hchain⟩ := mem_filterMap.mp h
  obtain ⟨p, hp, rfl⟩ := map_eq_some_iff.mp hchain
  obtain ⟨a, -, ha⟩ := bind_eq_some_iff.mp hp
  exact ⟨a, p.2, hg.chainMap a p ha⟩

theorem allocating_start (hix : Indexed ev t) (hg : Gathered ev t c) :
    Allocating ev t (existingChains c nodes) [] ⟨∅, maxSeqNos t (existingChains c nodes), 0⟩ := by
  have hpos : ∀ id r, posRef t ⟨∅, maxSeqNos t (existingChains c nodes), 0⟩ id = some r →
      ∃ p, t.pos id = some p ∧ r = (.existing p.1, p.2) := by
    intro id r hr
    obtain ⟨p, hp, rfl⟩ := map_eq_some_iff.mp hr
    exact ⟨p, hp, rfl⟩
  refine ⟨by simp, ?_, by simp, ?_, ?_, by simp, by simp, by simp⟩
  · intro a b r ha hb
    obtain ⟨p, hp, rfl⟩ := hpos a r ha
    obtain ⟨q, hq, heq⟩ := hpos b _ hb
    obtain ⟨hchain, hseq⟩ := Prod.mk.inj heq
    obtain rfl : p = q := Prod.ext (ChainRef.existing.inj hchain) hseq
    exact hix.cover.unique a b p hp hq
  · intro id r m hr hm
    obtain ⟨p, hp, rfl⟩ := hpos id r hr
    simp only [maxSeqNos] at hm
    split at hm
    · exact le_maxSequence hp hm
    · cases hm
  · intro chain hchain
    obtain ⟨a, s, ha⟩ := mem_existingChains hg hchain
    simp only [maxSeqNos, if_pos hchain]
    exact maxSequence_isSome ha

theorem Allocating.seq_pos (h : Allocating ev t existing seen acc) (hix : Indexed ev t) {r : ChainRef × ℕ}
    (hr : posRef t acc id = some r) : 1 ≤ r.2 := by
  rcases or_eq_some_iff.mp hr with hr | ⟨-, hr⟩
  · rcases h.contiguous id r hr with hone | ⟨hlt, -⟩
    · omega
    · omega
  · obtain ⟨p, hp, rfl⟩ := map_eq_some_iff.mp hr
    exact Chain.seq_pos hix.cover.contiguous hp

def Fresh (t : Tables) (acc : Allocation) (r : ChainRef × ℕ) : Prop :=
  ∀ id r', posRef t acc id = some r' → r'.1 = r.1 → r'.2 < r.2

/-- The state of the loop with the position of one more event. -/
def Allocation.extend (acc : Allocation) (id : String) (r : ChainRef × ℕ) (unallocated : ℕ) : Allocation :=
  ⟨acc.newChainTuples.insert id r, Function.update acc.chainToMaxSeqNo r.1 (some r.2), unallocated⟩

theorem lookup_extend {r : ChainRef × ℕ} {n : ℕ} (x : String) : (acc.extend id r n).newChainTuples.lookup x =
    if x = id then some r else acc.newChainTuples.lookup x :=
  lookup_insert_dict _ _ _ _

theorem posRef_extend {r : ChainRef × ℕ} {n : ℕ} (x : String) : posRef t (acc.extend id r n) x =
    if x = id then some r else posRef t acc x := by
  unfold posRef
  rw [lookup_extend]
  split_ifs <;> rfl

/-- **An event gets a position** above all of a chain, next to an auth event or at the beginning. -/
theorem Allocating.extend (h : Allocating ev t existing seen acc) {r : ChainRef × ℕ} {n : ℕ} (hnew : id ∉ seen)
    (hpos : t.pos id = none) (hfresh : Fresh t acc r) (hbefore : ∀ x ∈ seen ++ [id], id ∉ ev.auth x)
    (hprev : r.2 = 1 ∨ (1 < r.2 ∧ ∃ a ∈ ev.auth id, posRef t acc a = some (r.1, r.2 - 1)))
    (hn : acc.unallocated ≤ n) (href : (∃ chain ∈ existing, r.1 = .existing chain) ∨ ∃ i < n, r.1 = .new i) :
    Allocating ev t existing (seen ++ [id]) (acc.extend id r n) := by
  have hnone : posRef t acc id = none := by
    have hlook : acc.newChainTuples.lookup id = none := by
      rw [lookup_eq_none, h.keys]
      exact hnew
    rw [posRef, hlook, hpos]
    rfl
  have hmax : ∀ ref, (acc.extend id r n).chainToMaxSeqNo ref =
      if ref = r.1 then some r.2 else acc.chainToMaxSeqNo ref := fun ref => Function.update_apply ..
  constructor
  case keys =>
    intro x
    rw [Allocation.extend, mem_insert, h.keys, mem_snoc, or_comm]
  case unique =>
    -- nobody else is at the new position, which is above all of its chain
    intro x y r' hx hy
    rw [posRef_extend] at hx hy
    split_ifs at hx hy with hxid hyid hyid
    · exact hxid.trans hyid.symm
    · cases hx
      exact absurd (hfresh y _ hy rfl) (lt_irrefl _)
    · cases hy
      exact absurd (hfresh x _ hx rfl) (lt_irrefl _)
    · exact h.unique x y r' hx hy
  case contiguous =>
    intro x r' hx
    have hprev' : r'.2 = 1 ∨ (1 < r'.2 ∧ ∃ a ∈ ev.auth x, posRef t acc a = some (r'.1, r'.2 - 1)) := by
      rw [lookup_extend] at hx
      split_ifs at hx with hxid
      · cases hx
        exact hxid ▸ hprev
      · exact h.contiguous x r' hx
    refine hprev'.imp_right fun ⟨hlt, a, ha, hposa⟩ => ⟨hlt, a, ha, ?_⟩
    rw [posRef_extend, if_neg]
    · exact hposa
    · rintro rfl
      cases hnone.symm.trans hposa
  case top =>
    intro x r' m hx hm
    rw [posRef_extend] at hx
    rw [hmax] at hm
    split_ifs at hx hm with hxid heq heq
    · cases hx
      exact (some.inj hm).le
    · cases hx
      exact absurd rfl heq
    · rw [← some.inj hm]
      exact (hfresh x r' hx heq).le
    · exact h.top x r' m hx hm
  case loaded =>
    intro chain hchain
    rw [hmax]
    split
    · rfl
    · exact h.loaded chain hchain
  case known =>
    intro x r' hx
    rw [hmax]
    split_ifs with heq
    · rfl
    rw [lookup_extend] at hx
    split_ifs at hx
    · cases hx
      exact absurd rfl heq
    · exact h.known x r' hx
  case refs =>
    intro x r' hx
    rw [lookup_extend] at hx
    split at hx
    · exact some.inj hx ▸ href
    · exact (h.refs x r' hx).imp_right fun ⟨i, hi, heq⟩ => ⟨i, hi.trans_le hn, heq⟩
  case lower =>
    -- the event is not an auth event of those before it, nor of itself
    intro x r' hx a ha r'' hposa hchain
    rw [lookup_extend] at hx
    rw [posRef_extend] at hposa
    split_ifs at hx hposa with hxid haid haid
    · subst x a
      exact absurd ha (hbefore id (mem_append_right _ mem_cons_self))
    · cases hx
      exact hfresh a r'' hposa hchain
    · have hseen : x ∈ seen := (h.keys x).mp (lookup_isSome.mp (isSome_of_eq_some hx))
      subst a
      exact absurd ha (hbefore x (mem_append_left _ hseen))
    · exact h.lower x r' hx a ha r'' hposa hchain

theorem allocated_ok (hg : Gathered ev t c) (h : Allocating ev t existing seen acc) (ha : a ∈ c.chainMap ∨ a ∈ seen) :
    ∃ r, allocated c acc a = .ok r ∧ posRef t acc a = some r ∧
      (acc.newChainTuples.lookup a = some r ∨ ∃ p, c.chainMap.lookup a = some p ∧ r = (.existing p.1, p.2)) := by
  unfold allocated posRef
  cases hnew : acc.newChainTuples.lookup a with
  | some r => exact ⟨r, rfl, rfl, .inl rfl⟩
  | none =>
    have hmap : a ∈ c.chainMap := ha.resolve_right fun hseen => by
      rw [← h.keys, ← lookup_isSome, hnew] at hseen
      cases hseen
    obtain ⟨p, hp⟩ := isSome_iff_exists.mp (lookup_isSome.mpr hmap)
    refine ⟨(.existing p.1, p.2), ?_, ?_, .inr ⟨p, hp, rfl⟩⟩
    · simp only [getItem, hp]
      rfl
    · rw [hg.chainMap a p hp]
      rfl

structure TreeOrder (ev : Events) (c : Calc) (tree : List String) : Prop where
  nodup : tree.Nodup
  auth : ∀ front id back, tree = front ++ id :: back → ∀ a ∈ ev.auth id, a ∈ c.chainMap ∨ a ∈ front

theorem treeOrder (hg : Gathered ev t c) (hn : Allocatable ev t c nodes) :
    TreeOrder ev c (sortedTopologically nodes c.eventToAuthChain) where
  nodup := nodup_kahn hn.nodup
  auth front id back hsplit a ha := by
    have hid : id ∈ nodes := (mem_sorted hg hn.nodup).mp (hsplit ▸ mem_append_right _ mem_cons_self)
    refine (hn.closed id hid a ha).imp_right fun hmem => ?_
    exact sorted_before hn.nodup hsplit ((mem_authEvents hg (hn.toCalc id hid)).mpr ha) hmem

theorem TreeOrder.notMem {tree rest : List String} (ho : TreeOrder ev c tree) (hsplit : tree = seen ++ id :: rest) :
    id ∉ seen :=
  fun hmem => disjoint_of_nodup_append (hsplit ▸ ho.nodup) hmem mem_cons_self

theorem TreeOrder.not_auth {tree rest : List String} (hg : Gathered ev t c) (ho : TreeOrder ev c tree)
    (hnone : t.pos id = none) (hsplit : tree = seen ++ id :: rest) : ∀ x ∈ seen ++ [id], id ∉ ev.auth x := by
  intro x hx hauth
  rcases mem_append.mp hx with hx | hx
  · obtain ⟨front, back, rfl⟩ := append_of_mem hx
    rw [List.append_assoc, cons_append] at hsplit
    rcases ho.auth front x _ hsplit id hauth with hmap | hmem
    · obtain ⟨p, hp⟩ := isSome_iff_exists.mp (lookup_isSome.mpr hmap)
      rw [hg.chainMap id p hp] at hnone
      cases hnone
    · rw [← cons_append, ← List.append_assoc] at hsplit
      exact ho.notMem hsplit (mem_append_left _ hmem)
  · obtain rfl := mem_singleton.mp hx
    exact ev.acyclic x (.single hauth)

theorem allocateEvent_ok {rest sorted : List String} (hix : Indexed ev t) (hg : Gathered ev t c)
    (hn : Allocatable ev t c nodes) (hs : sortedTopologically nodes c.eventToAuthChain = sorted)
    (hsplit : sorted = seen ++ id :: rest) (h : Allocating ev t (existingChains c sorted) seen acc) :
    ∃ acc', allocateEvent c acc id = .ok acc' ∧ Allocating ev t (existingChains c sorted) (seen ++ [id]) acc' := by
  have ho := treeOrder hg hn
  rw [hs] at ho
  have htree : id ∈ sorted := hsplit ▸ mem_append_right _ mem_cons_self
  have hid : id ∈ nodes := (mem_sorted hg hn.nodup).mp (hs ▸ htree)
  have hnone : t.pos id = none := hg.unindexed id (hn.toCalc id hid)
  have hbefore := ho.not_auth hg hnone hsplit
  have hnotMem := ho.notMem hsplit
  -- a new chain
  have hstart : Allocating ev t (existingChains c sorted) (seen ++ [id]) (acc.put id none) := by
    refine h.extend hnotMem hnone ?_ hbefore (.inl rfl) (Nat.le_succ _)
      (.inr ⟨acc.unallocated, Nat.lt_succ_self _, rfl⟩)
    intro x r' hx hchain
    rcases or_eq_some_iff.mp hx with hx | ⟨-, hx⟩
    · rcases h.refs x r' hx with ⟨chain, -, heq⟩ | ⟨i, hi, heq⟩
      · rw [hchain] at heq
        cases heq
      · rw [hchain] at heq
        have := ChainRef.new.inj heq
        omega
    · obtain ⟨p, -, rfl⟩ := map_eq_some_iff.mp hx
      cases hchain
  unfold allocateEvent continued
  cases hsame : sameType c id with
  | none => exact ⟨_, rfl, hstart⟩
  | some a =>
    have ha : a ∈ ev.auth id := mem_auth_of_sameType hg (hn.toCalc id hid) hsame
    obtain ⟨r, hr, hposa, hfrom⟩ := allocated_ok hg h (ho.auth seen id rest hsplit a ha)
    -- the chain that it continues is among those that were looked up, or has been continued before
    have hchain : (∃ chain ∈ existingChains c sorted, r.1 = .existing chain) ∨
        ∃ i < acc.unallocated, r.1 = .new i := by
      rcases hfrom with hnew | ⟨p, hp, rfl⟩
      · exact h.refs a r hnew
      · refine .inl ⟨p.1, mem_filterMap.mpr ⟨id, htree, ?_⟩, rfl⟩
        rw [hsame, bind_some, hp]
        rfl
    have hmax : (acc.chainToMaxSeqNo r.1).isSome := by
      rcases hfrom with hnew | ⟨p, hp, rfl⟩
      · exact h.known a r hnew
      rcases hchain with ⟨chain, hmem, heq⟩ | ⟨i, -, heq⟩
      · rw [heq]
        exact h.loaded chain hmem
      · cases heq
    obtain ⟨m, hm⟩ := isSome_iff_exists.mp hmax
    have hnext : nextPosition acc r = .ok (if m < r.2 + 1 then some (r.1, r.2 + 1) else none) := by
      rw [nextPosition, hm]
    simp only [hr]
    refine ⟨acc.put id (if m < r.2 + 1 then some (r.1, r.2 + 1) else none), ?_, ?_⟩
    · show (nextPosition acc r).map (acc.put id) = _
      rw [hnext]
      rfl
    split
    · rename_i hlt
      refine h.extend hnotMem hnone ?_ hbefore (.inr ⟨?_, a, ha, hposa⟩) le_rfl hchain
      · intro x r' hx heq
        have := h.top x r' m hx (heq ▸ hm)
        omega
      · have := h.seq_pos hix hposa
        omega
    · exact hstart

end Loop

/-! ## Chain ids for the temporary objects -/

section Ids

variable {ev : Events} {t : Tables} {c : Calc} {o : Orders} {nodes seen : List String} {existing newlyAllocated : List ℕ}
variable {acc : Allocation}

/-- The chain id that a chain has or gets. -/
def chainOf (newlyAllocated : List ℕ) : ChainRef → ℕ
  | .existing chain => chain
  | .new i => newlyAllocated.getD i 0

theorem allocatedPositions_ok (hlen : newlyAllocated.length = acc.unallocated) (h : Allocating ev t existing seen acc) :
    ∃ positions, allocatedPositions existing newlyAllocated acc.newChainTuples = .ok positions ∧
      ∀ id, positions.lookup id =
        (acc.newChainTuples.lookup id).map fun r => (chainOf newlyAllocated r.1, r.2) := by
  refine foldlM_total (fun seen (d : Dict Pos) => ∀ id, d.lookup id =
    (seen.dlookup id).map fun r : ChainRef × ℕ => (chainOf newlyAllocated r.1, r.2)) (fun _ => rfl) ?_
  rintro seen ⟨id, r⟩ rest d hsplit hd
  have hnd := hsplit ▸ acc.newChainTuples.nodupKeys
  have hmem : acc.newChainTuples.lookup id = some r := by
    refine mem_lookup_iff.mpr ?_
    rw [hsplit]
    exact mem_append_right _ mem_cons_self
  have href : allocatedId existing newlyAllocated r.1 = .ok (chainOf newlyAllocated r.1) := by
    rcases h.refs id r hmem with ⟨chain, hchain, hr⟩ | ⟨i, hi, hr⟩
    · rw [hr]
      exact if_pos hchain
    · simp [hr, allocatedId, chainOf, getElem?_eq_getElem (hlen ▸ hi)]
  refine ⟨d.insert id (chainOf newlyAllocated r.1, r.2), ?_, fun x => ?_⟩
  · rw [href]
    rfl
  rw [dlookup_append]
  by_cases hx : x = id
  · subst hx
    have hnone : seen.dlookup x = none := by
      rw [dlookup_eq_none]
      have hx := (nodupKeys_cons.mp (nodupKeys_middle.mp hnd)).1
      rw [List.keys, map_append] at hx
      exact fun hmem => hx (mem_append_left _ hmem)
    rw [hnone]
    simp
  · rw [lookup_insert_ne hx, hd]
    rw [dlookup_cons_ne [] (⟨id, r⟩ : Σ _ : String, ChainRef × ℕ) hx]
    simp

/-- A chain of the table or a temporary object. -/
def RefOk (t : Tables) (n : ℕ) (ref : ChainRef) : Prop :=
  (∃ chain ≤ t.lastChainId, ref = .existing chain) ∨ ∃ i < n, ref = .new i

/-- The chain ids that the sequence gives out. -/
structure NewIds (t : Tables) (n : ℕ) (newlyAllocated : List ℕ) : Prop where
  length : newlyAllocated.length = n
  nodup : newlyAllocated.Nodup
  bound : ∀ chain ∈ newlyAllocated, t.lastChainId < chain ∧ chain ≤ t.lastChainId + n

theorem newIds (t : Tables) (o : Orders) (n : ℕ) :
    NewIds t n (o.numbers ((range n).map fun i => t.lastChainId + 1 + i)) where
  length := by rw [(o.numbers_perm _).length_eq, length_map, length_range]
  nodup := by
    refine (o.numbers_perm _).nodup_iff.mpr (nodup_range.map fun i j hij => ?_)
    omega
  bound chain hchain := by
    obtain ⟨i, hi, rfl⟩ := List.mem_map.mp ((o.numbers_perm _).mem_iff.mp hchain)
    have := mem_range.mp hi
    omega

section NewIds

variable {n : ℕ} {ref ref' : ChainRef} (hids : NewIds t n newlyAllocated)
include hids

theorem NewIds.chainOf_new {i : ℕ} (hi : i < n) : ∃ h : i < newlyAllocated.length,
    chainOf newlyAllocated (.new i) = newlyAllocated[i] := by
  have hlt : i < newlyAllocated.length := hids.length ▸ hi
  exact ⟨hlt, by simp [chainOf, getElem?_eq_getElem hlt]⟩

theorem NewIds.chainOf_le (href : RefOk t n ref) : chainOf newlyAllocated ref ≤ t.lastChainId + n := by
  rcases href with ⟨chain, hle, rfl⟩ | ⟨i, hi, rfl⟩
  · exact hle.trans (Nat.le_add_right _ _)
  · obtain ⟨hlt, heq⟩ := hids.chainOf_new hi
    rw [heq]
    exact (hids.bound _ (getElem_mem hlt)).2

theorem NewIds.chainOf_inj (href : RefOk t n ref) (href' : RefOk t n ref')
    (h : chainOf newlyAllocated ref = chainOf newlyAllocated ref') : ref = ref' := by
  rcases href with ⟨chain, hle, rfl⟩ | ⟨i, hi, rfl⟩
  · rcases href' with ⟨chain', hle', rfl⟩ | ⟨j, hj, rfl⟩
    · exact congrArg _ h
    obtain ⟨hlt, heq⟩ := hids.chainOf_new hj
    have := (hids.bound _ (getElem_mem hlt)).1
    rw [chainOf] at h
    omega
  · obtain ⟨hlt, heq⟩ := hids.chainOf_new hi
    rw [heq] at h
    rcases href' with ⟨chain', hle', rfl⟩ | ⟨j, hj, rfl⟩
    · have := (hids.bound _ (getElem_mem hlt)).1
      rw [chainOf] at h
      omega
    · obtain ⟨hlt', heq'⟩ := hids.chainOf_new hj
      rw [heq'] at h
      rw [hids.nodup.getElem_inj_iff.mp h]

end NewIds

def newPos (t : Tables) (positions : Dict Pos) (id : String) : Option Pos := (positions.lookup id).or (t.pos id)

structure Positions (ev : Events) (t : Tables) (nodes : List String) (positions : Dict Pos) (lastChainId : ℕ) : Prop where
  keys : ∀ id, id ∈ positions ↔ id ∈ nodes
  unique : ∀ a b p, newPos t positions a = some p → newPos t positions b = some p → a = b
  contiguous : ∀ id p, positions.lookup id = some p →
    p.2 = 1 ∨ (1 < p.2 ∧ ∃ a ∈ ev.auth id, newPos t positions a = some (p.1, p.2 - 1))
  bound : ∀ id p, newPos t positions id = some p → p.1 ≤ lastChainId
  lower : ∀ id p, positions.lookup id = some p →
    ∀ a ∈ ev.auth id, ∀ q, newPos t positions a = some q → q.1 = p.1 → q.2 < p.2

section

variable (hix : Indexed ev t) (hexisting : ∀ chain ∈ existing, chain ≤ t.lastChainId)
  (h : Allocating ev t existing seen acc)
include hix hexisting h

theorem Allocating.refOk {id : String} {r : ChainRef × ℕ} (hr : posRef t acc id = some r) :
    RefOk t acc.unallocated r.1 := by
  rcases or_eq_some_iff.mp hr with hr | ⟨-, hr⟩
  · exact (h.refs id r hr).imp_left fun ⟨chain, hmem, heq⟩ => ⟨chain, hexisting chain hmem, heq⟩
  · obtain ⟨p, hp, rfl⟩ := map_eq_some_iff.mp hr
    exact .inl ⟨p.1, hix.bound id p hp, rfl⟩

theorem Allocating.positions (hids : NewIds t acc.unallocated newlyAllocated) {positions : Dict Pos}
    (hlook : ∀ id, positions.lookup id =
      (acc.newChainTuples.lookup id).map fun r => (chainOf newlyAllocated r.1, r.2)) :
    Positions ev t seen positions (t.lastChainId + acc.unallocated) := by
  have hpos : ∀ id, newPos t positions id = (posRef t acc id).map fun r => (chainOf newlyAllocated r.1, r.2) := by
    intro id
    rw [newPos, posRef, hlook]
    cases acc.newChainTuples.lookup id with
    | some r => rfl
    | none =>
      cases t.pos id with
      | some p => rfl
      | none => rfl
  have hof : ∀ id p, newPos t positions id = some p →
      ∃ r, posRef t acc id = some r ∧ p = (chainOf newlyAllocated r.1, r.2) ∧ RefOk t acc.unallocated r.1 := by
    intro id p hp
    rw [hpos] at hp
    obtain ⟨r, hr, rfl⟩ := map_eq_some_iff.mp hp
    exact ⟨r, hr, rfl, h.refOk hix hexisting hr⟩
  have hnew : ∀ id p, positions.lookup id = some p → ∃ r, acc.newChainTuples.lookup id = some r ∧
      p = (chainOf newlyAllocated r.1, r.2) := by
    intro id p hp
    rw [hlook] at hp
    obtain ⟨r, hr, rfl⟩ := map_eq_some_iff.mp hp
    exact ⟨r, hr, rfl⟩
  constructor
  case keys =>
    intro id
    rw [← lookup_isSome, hlook, isSome_map, lookup_isSome, h.keys]
  case unique =>
    intro a b p ha hb
    obtain ⟨r, hr, rfl, hok⟩ := hof a p ha
    obtain ⟨r', hr', heq, hok'⟩ := hof b _ hb
    obtain ⟨hchain, hseq⟩ := Prod.mk.inj heq
    obtain rfl : r = r' := Prod.ext (hids.chainOf_inj hok hok' hchain) hseq
    exact h.unique a b r hr hr'
  case contiguous =>
    intro id p hp
    obtain ⟨r, hr, rfl⟩ := hnew id p hp
    refine (h.contiguous id r hr).imp_right fun ⟨hlt, a, ha, hposa⟩ => ⟨hlt, a, ha, ?_⟩
    rw [hpos, hposa]
    rfl
  case bound =>
    intro id p hp
    obtain ⟨r, -, rfl, hok⟩ := hof id p hp
    exact hids.chainOf_le hok
  case lower =>
    intro id p hp a ha q hq hchain
    obtain ⟨r, hr, rfl⟩ := hnew id p hp
    obtain ⟨r', hr', rfl, hok'⟩ := hof a q hq
    have hposr : posRef t acc id = some r := by
      rw [posRef, hr]
      rfl
    have hok : RefOk t acc.unallocated r.1 := h.refOk hix hexisting hposr
    exact h.lower id r hr a ha r' hr' (hids.chainOf_inj hok' hok hchain)

end

theorem allocateChainIds_ok (hix : Indexed ev t) (hg : Gathered ev t c) (hn : Allocatable ev t c nodes) (o : Orders) :
    ∃ positions last, allocateChainIds t o c nodes = .ok (positions, last) ∧
      Positions ev t nodes positions last ∧ t.lastChainId ≤ last := by
  obtain ⟨acc, hfold, hacc⟩ := foldlM_total
    (Allocating ev t (existingChains c (sortedTopologically nodes c.eventToAuthChain)))
    (allocating_start hix hg) fun _ _ _ _ => allocateEvent_ok hix hg hn rfl
  have hids := newIds t o acc.unallocated
  obtain ⟨positions, hpositions, hlook⟩ := allocatedPositions_ok hids.length hacc
  have hexisting : ∀ chain ∈ existingChains c (sortedTopologically nodes c.eventToAuthChain), chain ≤ t.lastChainId := by
    intro chain hchain
    obtain ⟨a, s, ha⟩ := mem_existingChains hg hchain
    exact hix.bound a _ ha
  have hpos := hacc.positions hix hexisting hids hlook
  refine ⟨positions, t.lastChainId + acc.unallocated, ?_, { hpos with keys := fun id => ?_ }, Nat.le_add_right _ _⟩
  · unfold allocateChainIds
    simp only [hfold]
    show (allocatedPositions _ _ _ >>= _) = _
    rw [hpositions]
    rfl
  · rw [hpos.keys, mem_sorted hg hn.nodup]

end Ids

end Synapse.AuthChain
