import Synapse.AuthChain.Calculate

/-!
# Synapse.AuthChain.Gathering — which events get a position

* `Gathered`: what is known of the dicts while they are filled; `gather_ok`: the loop ends, and keeps it.
* `discard_ok`: the auth events of what is left have a position or get one.
-/

namespace Synapse.AuthChain

open Lib Chain Greedy Relation List AList

/-- The auth events of the events to calculate are those of the events, and `chain_map` is what the table has. -/
structure Gathered (ev : Events) (t : Tables) (c : Calc) : Prop where
  auth : ∀ id auth, c.eventToAuthChain.lookup id = some auth → auth.Perm (ev.auth id)
  keys : ∀ id, id ∈ c.eventsToCalc ↔ id ∈ c.eventToAuthChain
  unindexed : ∀ id ∈ c.eventsToCalc, t.pos id = none
  chainMap : ∀ id p, c.chainMap.lookup id = some p → t.pos id = some p
  nodup : c.eventsToCalc.Nodup

variable {stateEvents : List String}

section Gathered

variable {ev : Events} {t : Tables} {o : Orders} {c : Calc} {id : String}

theorem lookup_insert_dict {β : Type} (d : Dict β) (k k' : String) (b : β) :
    (d.insert k b).lookup k' = if k' = k then some b else d.lookup k' := by
  split_ifs with hk
  · rw [hk, lookup_insert]
  · exact lookup_insert_ne hk

theorem Gathered.add (h : Gathered ev t c) {auth : List String} (hauth : auth.Perm (ev.auth id)) (hpos : t.pos id = none) :
    Gathered ev t (c.add ev id auth) where
  auth id' auth' h' := by
    rw [Calc.add, lookup_insert_dict] at h'
    split_ifs at h' with hid
    · cases h'
      exact hid ▸ hauth
    · exact h.auth id' auth' h'
  keys id' := by
    rw [Calc.add, mem_insert_iff, mem_insert, h.keys]
  unindexed id' h' := by
    rcases mem_insert_iff.mp h' with rfl | h'
    · exact hpos
    · exact h.unindexed id' h'
  chainMap := h.chainMap
  nodup := h.nodup.insert

theorem perm_selectAuth (hid : id ∈ t.stateEvents) : (t.selectAuth ev o id).Perm (ev.auth id) := by
  rw [Tables.selectAuth, if_pos hid]
  exact o.strings_perm _

/-! ## The loop over missing auth events -/

theorem fetchAuthEvent_ok {acc : Calc × List String} (h : Gathered ev t acc.1) (hid : id ∈ t.stateEvents) :
    Gathered ev t (fetchAuthEvent ev t o acc id).1 ∧
      ∀ a ∈ (fetchAuthEvent ev t o acc id).2, a ∈ acc.2 ∨ a ∈ ev.auth id := by
  unfold fetchAuthEvent
  rcases hpos : t.pos id with _ | p
  · refine ⟨h.add (perm_selectAuth hid) hpos, fun a ha => ?_⟩
    rcases mem_union_iff.mp ha with ha | ha
    · exact .inl ha
    · exact .inr ((perm_selectAuth hid).mem_iff.mp (mem_filter.mp ha).1)
  refine ⟨{ h with chainMap := fun id' q hq => ?_ }, fun a ha => .inl ha⟩
  rw [lookup_insert_dict] at hq
  split_ifs at hq with hid'
  · cases hq
    exact hid' ▸ hpos
  · exact h.chainMap id' q hq

/-- The persisted events among the auth events of some events. -/
def authWithin (ev : Events) (t : Tables) (s : Finset String) : Finset String :=
  t.stateEvents.filter fun a => ∃ id ∈ s, a ∈ ev.auth id

theorem authWithin_ssubset {s : Finset String} (hclosed : authWithin ev t s ⊆ s) (hs : s.Nonempty) :
    (authWithin ev t s).card < s.card := by
  obtain ⟨x, hx, htop⟩ := exists_top ev.auth ev.acyclic hs
  refine Finset.card_lt_card ((Finset.ssubset_iff_of_subset hclosed).mpr ⟨x, hx, fun hmem => ?_⟩)
  obtain ⟨id, hid, ha⟩ := (Finset.mem_filter.mp hmem).2
  exact htop id hid ha

theorem authWithin_mono {s s' : Finset String} (h : s ⊆ s') : authWithin ev t s ⊆ authWithin ev t s' := by
  intro a ha
  obtain ⟨hmem, id, hid, ha⟩ := Finset.mem_filter.mp ha
  exact Finset.mem_filter.mpr ⟨hmem, id, h hid, ha⟩

/-- **The loop ends**: what it asks for comes closer to the beginning of the auth graph each time. -/
theorem fetchMissing_ok {fuel : ℕ} {missing : List String} (h : Gathered ev t c) {s : Finset String}
    (hclosed : authWithin ev t s ⊆ s) (hmissing : ∀ a ∈ missing, a ∈ t.stateEvents → a ∈ s)
    (hfuel : missing = [] ∨ s.card < fuel) : ∃ c', fetchMissing ev t o fuel c missing = .ok c' ∧ Gathered ev t c' := by
  fun_induction fetchMissing ev t o fuel c missing generalizing s with
  | case1 _ c => exact ⟨c, rfl, h⟩
  | case2 => exact absurd hfuel (by simp)
  | case3 fuel c a missing _ ih =>
    have hrows : ∀ id ∈ o.strings ((a :: missing).filter (· ∈ t.stateEvents)), id ∈ t.stateEvents ∧ id ∈ s := by
      intro id hid
      obtain ⟨hmem, hst⟩ := mem_filter.mp ((o.strings_perm _).mem_iff.mp hid)
      exact ⟨of_decide_eq_true hst, hmissing id hmem (of_decide_eq_true hst)⟩
    obtain ⟨hg, hnext⟩ := foldlRecOn (o.strings ((a :: missing).filter (· ∈ t.stateEvents))) (fetchAuthEvent ev t o)
      (b := (c, [])) (motive := fun acc => Gathered ev t acc.1 ∧ ∀ x ∈ acc.2, ∃ id ∈ s, x ∈ ev.auth id)
      ⟨h, fun x hx => absurd hx not_mem_nil⟩ fun acc hacc id hid => by
        obtain ⟨hst, hs⟩ := hrows id hid
        obtain ⟨hg, hnew⟩ := fetchAuthEvent_ok hacc.1 hst
        exact ⟨hg, fun x hx => (hnew x hx).elim (hacc.2 x) fun hx => ⟨id, hs, hx⟩⟩
    refine ih hg (authWithin_mono hclosed) (fun x hx hst => Finset.mem_filter.mpr ⟨hst, hnext x hx⟩) ?_
    rcases s.eq_empty_or_nonempty with rfl | hs
    · -- nothing that is asked for has been persisted
      left
      refine eq_nil_iff_forall_not_mem.mpr fun x hx => ?_
      obtain ⟨id, hid, -⟩ := hnext x hx
      exact Finset.notMem_empty id hid
    · have hlt := authWithin_ssubset hclosed hs
      have hfuel := hfuel.resolve_left (cons_ne_nil _ _)
      omega

theorem gather_ok (hpos : ∀ id ∈ stateEvents, t.pos id = none)
    (hpending : ∀ id ∈ t.eventAuthChainToCalculate, id ∈ t.stateEvents ∧ t.pos id = none) :
    ∃ c, gather ev t o stateEvents = .ok c ∧ Gathered ev t c := by
  have hempty : Gathered ev t ⟨∅, ∅, [], ∅⟩ := ⟨by simp, by simp, by simp, by simp, nodup_nil⟩
  have hstart := foldlRecOn stateEvents _ hempty fun c hc id hid => hc.add (.refl _) (hpos id hid)
  refine fetchMissing_ok (foldlRecOn _ _ hstart fun c hc id hid => ?_) (Finset.filter_subset _ _) (fun _ _ h => h)
    (.inr (Nat.lt_succ_self _))
  obtain ⟨hstored, hpos⟩ := hpending id (mem_filter.mp hid).1
  exact hc.add (perm_selectAuth hstored) hpos

end Gathered

/-! ## Discarding -/

section Discard

variable {ev : Events} {t : Tables} {c : Calc}

theorem Gathered.perm_auth (h : Gathered ev t c) {id : String} (hid : id ∈ c.eventToAuthChain) :
    ((c.eventToAuthChain.lookup id).getD []).Perm (ev.auth id) := by
  obtain ⟨auth, hauth⟩ := Option.isSome_iff_exists.mp (lookup_isSome.mpr hid)
  rw [hauth]
  exact h.auth id auth hauth

theorem acyclic_graph (h : Gathered ev t c) (id : String) :
    ¬ TransGen (fun a b => b ∈ (c.eventToAuthChain.lookup a).getD []) id id := by
  refine fun hcycle => ev.acyclic id (TransGen.mono (fun a b hb => ?_) _ _ hcycle)
  by_cases ha : a ∈ c.eventToAuthChain
  · exact (h.perm_auth ha).mem_iff.mp hb
  · rw [lookup_eq_none.mpr ha] at hb
    exact absurd hb not_mem_nil

theorem mem_sorted (h : Gathered ev t c) {nodes : List String} (hnd : nodes.Nodup) {id : String} :
    id ∈ sortedTopologically nodes c.eventToAuthChain ↔ id ∈ nodes := mem_kahn hnd (acyclic_graph h)

theorem sorted_before {graph : Dict (List String)} {nodes front back : List String} {id a : String} (hnd : nodes.Nodup)
    (hsplit : sortedTopologically nodes graph = front ++ id :: back) (ha : a ∈ (graph.lookup id).getD [])
    (hmem : a ∈ nodes) : a ∈ front := kahn_before hnd hsplit ha hmem

/-- What is left of the events to calculate, when some have been looked at. -/
structure Discarding (stateEvents : List String) (t : Tables) (c : Calc) (seen : List String)
    (acc : List String × List String) : Prop where
  sublist : acc.1.Sublist c.eventsToCalc
  rest : ∀ id ∈ c.eventsToCalc, id ∉ seen → id ∈ acc.1
  auth : ∀ id ∈ seen, id ∈ acc.1 → ∀ a ∈ (c.eventToAuthChain.lookup id).getD [], a ∈ c.chainMap ∨ a ∈ acc.1
  rows : ∀ id ∈ acc.2, id ∈ t.eventAuthChainToCalculate ∨ id ∈ stateEvents
  kept : ∀ id ∈ t.eventAuthChainToCalculate, id ∈ acc.2
  discarded : ∀ id ∈ stateEvents, id ∈ c.eventsToCalc → id ∈ acc.1 ∨ id ∈ acc.2

theorem Discarding.next (h : Gathered ev t c) {seen rest : List String} {id : String}
    {acc : List String × List String} (hacc : Discarding stateEvents t c seen acc)
    (hsplit : sortedTopologically c.eventToAuthChain.keys c.eventToAuthChain = seen ++ id :: rest) (hid : id ∉ seen) :
    Discarding stateEvents t c (seen ++ [id]) (discardEvent stateEvents c acc id) := by
  have hnd : acc.1.Nodup := hacc.sublist.nodup h.nodup
  have hnot : ∀ x, x ∉ seen ++ [id] → x ∉ seen ∧ x ≠ id := fun x hx =>
    not_or.mp (mt mem_snoc.mpr hx)
  unfold discardEvent
  split
  · have herase : ∀ x, x ∈ acc.1.erase id ↔ x ≠ id ∧ x ∈ acc.1 := fun x => hnd.mem_erase_iff
    refine ⟨erase_sublist.trans hacc.sublist, fun x hx hns => ?_, fun x hx hmem a ha => ?_, fun x hx => ?_,
      fun x hx => ?_, fun x hx hcalc => ?_⟩
    · obtain ⟨hs, hne⟩ := hnot x hns
      exact (herase x).mpr ⟨hne, hacc.rest x hx hs⟩
    · obtain ⟨hne, hmem⟩ := (herase x).mp hmem
      have hxs : x ∈ seen := (mem_snoc.mp hx).resolve_right hne
      refine (hacc.auth x hxs hmem a ha).imp_right fun hamem => (herase a).mpr ⟨?_, hamem⟩
      -- an event that waits for this one comes after it
      rintro rfl
      obtain ⟨front, back, rfl⟩ := append_of_mem hxs
      have hkey : a ∈ c.eventToAuthChain.keys := (h.keys a).mp (hacc.sublist.subset hamem)
      rw [List.append_assoc] at hsplit
      have hfront := sorted_before c.eventToAuthChain.keys_nodup hsplit ha hkey
      exact hid (mem_append_left _ hfront)
    · split at hx
      · rename_i hbatch
        rcases mem_insert_iff.mp hx with rfl | hx
        · exact .inr hbatch
        · exact hacc.rows x hx
      · exact hacc.rows x hx
    · split
      · exact mem_insert_of_mem (hacc.kept x hx)
      · exact hacc.kept x hx
    · by_cases hne : x = id
      · subst hne
        rw [if_pos hx]
        exact .inr mem_insert_self
      rcases hacc.discarded x hx hcalc with hmem | hmem
      · exact .inl ((herase x).mpr ⟨hne, hmem⟩)
      split
      · exact .inr (mem_insert_of_mem hmem)
      · exact .inr hmem
  · rename_i hguard
    refine { hacc with rest := fun x hx hns => hacc.rest x hx (hnot x hns).1, auth := fun x hx hmem a ha => ?_ }
    rcases mem_snoc.mp hx with hx | rfl
    · exact hacc.auth x hx hmem a ha
    by_contra hneither
    rw [not_or] at hneither
    exact hguard (any_eq_true.mpr ⟨a, ha, decide_eq_true hneither⟩)

theorem discard_ok (h : Gathered ev t c) (stateEvents : List String) :
    Discarding stateEvents t c (sortedTopologically c.eventToAuthChain.keys c.eventToAuthChain) (discard t stateEvents c) := by
  have hnodup : (sortedTopologically c.eventToAuthChain.keys c.eventToAuthChain).Nodup :=
    nodup_kahn c.eventToAuthChain.keys_nodup
  have hrun : ∀ seen rest, sortedTopologically c.eventToAuthChain.keys c.eventToAuthChain = seen ++ rest →
      Discarding stateEvents t c seen
        (seen.foldl (discardEvent stateEvents c) (c.eventsToCalc, t.eventAuthChainToCalculate)) := by
    intro seen
    induction seen using reverseRecOn with
    | nil =>
      exact fun _ _ => ⟨.refl _, fun _ h _ => h, fun _ h => absurd h not_mem_nil, fun _ h => .inl h, fun _ h => h,
        fun _ _ h => .inl h⟩
    | append_singleton seen id ih =>
      intro rest hsplit
      rw [List.append_assoc] at hsplit
      rw [hsplit] at hnodup
      rw [foldl_append]
      exact (ih _ hsplit).next h hsplit fun hmem => disjoint_of_nodup_append hnodup hmem mem_cons_self
  exact hrun _ [] (append_nil _).symm

end Discard

end Synapse.AuthChain
