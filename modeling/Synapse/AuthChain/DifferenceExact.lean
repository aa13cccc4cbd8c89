import Synapse.AuthChain.FixUp
import Synapse.AuthChain.Materialize

/-!
# Synapse.AuthChain.DifferenceExact — the cover index gives the auth chain difference

* `followAll_eq`: every state set is followed on its own, and all chains that are reached are seen.
* `mem_chainDifference`: the events in the gaps.
* `le_get_iff`: a position is reached from a state set exactly if its event is in the auth chain.
* **`getAuthChainDifference_exact`**: the union minus the intersection of the auth chains.
-/

namespace Synapse.AuthChain

open Lib Chain Relation List Finmap

variable {ev : Events} {t : Tables} {o : DifferenceOrders} {roomId : String}

/-! ## The chains of all sets -/

theorem followAll_eq (first : Chains) (rest : List Chains) (seenChains : Finset ℕ)
    (hseen : ∀ m ∈ first :: rest, m.keys ⊆ seenChains) :
    let follow := followBatches o (getChainLinks t.eventAuthChainLinks (o.numbers.iter seenChains))
    ∃ seen, followAll t o first rest seenChains = ((follow first, rest.map follow), seen) ∧
      ∀ m ∈ follow first :: rest.map follow, m.keys ⊆ seen := by
  unfold followAll
  generalize getChainLinks t.eventAuthChainLinks (o.numbers.iter seenChains) = batches
  simp only
  induction batches generalizing first rest seenChains with
  | nil =>
    have hid : followBatches o [] = id := rfl
    rw [hid, map_id]
    exact ⟨seenChains, rfl, hseen⟩
  | cons rows batches ih =>
    obtain ⟨seen, heq, hkeys⟩ := ih (followLinks o (o.links rows) first) (rest.map (followLinks o (o.links rows)))
      ((rest.map (followLinks o (o.links rows))).foldl (fun seen chains => seen ∪ chains.keys)
        (seenChains ∪ (followLinks o (o.links rows) first).keys)) (fun m hm => by
          intro c hc
          rw [foldl_iff (P := (c ∈ ·)) (Q := fun m : Chains => c ∈ m.keys) fun _ _ => Finset.mem_union]
          rcases mem_cons.mp hm with rfl | hm
          · exact .inl (Finset.mem_union_right _ hc)
          · exact .inr ⟨m, hm, hc⟩)
    rw [List.map_map] at heq hkeys
    exact ⟨seen, heq, hkeys⟩

/-! ## The gaps -/

/-- The position is reached from some of the sets, and not from all. -/
def InGap (chains : List Chains) (p : Pos) : Prop :=
  (∃ m ∈ chains, p.2 ≤ m.get p.1) ∧ ¬ ∀ m ∈ chains, p.2 ≤ m.get p.1

variable {info : ChainInfo}

theorem fillGap_spec (hinfo : ∀ p id, info.chainToEvent.lookup p = some id → t.pos id = some p)
    (chain : ℕ) (seqs : List ℕ) (result : Finset String) :
    (∀ id ∈ (fillGap info chain seqs result).1, id ∈ result ∨ ∃ s ∈ seqs, t.pos id = some (chain, s)) ∧
      (∀ id ∈ result, id ∈ (fillGap info chain seqs result).1) ∧
      ((fillGap info chain seqs result).2 = true → ∀ s ∈ seqs, ∃ id ∈ (fillGap info chain seqs result).1,
        t.pos id = some (chain, s)) := by
  fun_induction fillGap info chain seqs result with
  | case1 result => exact ⟨fun id hid => .inl hid, fun id hid => hid, fun _ s hs => absurd hs not_mem_nil⟩
  | case2 | case4 => exact ⟨fun id hid => .inl hid, fun id hid => hid, nofun⟩
  | case3 s seqs result id hlook hempty ih =>
    obtain ⟨hsound, hkept, hfull⟩ := ih
    have hpos := hinfo _ id hlook
    refine ⟨fun x hx => ?_, fun x hx => hkept x (Finset.mem_insert_of_mem hx), fun htrue s' hs' => ?_⟩
    · rcases hsound x hx with hx | ⟨s', hs', hx⟩
      · rcases Finset.mem_insert.mp hx with rfl | hx
        · exact .inr ⟨s, mem_cons_self, hpos⟩
        · exact .inl hx
      · exact .inr ⟨s', mem_cons_of_mem _ hs', hx⟩
    · rcases mem_cons.mp hs' with rfl | hs'
      · exact ⟨id, hkept id (Finset.mem_insert_self _ _), hpos⟩
      · exact hfull htrue s' hs'

theorem mem_selectGap {chain min max : ℕ} {id : String} :
    id ∈ selectGap t chain min max ↔ ∃ s, t.pos id = some (chain, s) ∧ min < s ∧ s ≤ max := by
  rw [selectGap, Finset.mem_filter, Finmap.mem_keys, Finmap.mem_iff]
  constructor
  · rintro ⟨⟨p, hp⟩, hany⟩
    obtain ⟨rfl, hgap⟩ : p.1 = chain ∧ min < p.2 ∧ p.2 ≤ max := by
      rw [show t.pos id = some p from hp] at hany
      exact of_decide_eq_true hany
    exact ⟨p.2, hp, hgap⟩
  · rintro ⟨s, hs, hmin, hmax⟩
    exact ⟨⟨_, hs⟩, by simp [hs, hmin, hmax]⟩

theorem inGap_iff (first : Chains) (rest : List Chains) (c s : ℕ) : InGap (first :: rest) (c, s) ↔
    (rest.map fun chains => chains.get c).foldl min (first.get c) < s ∧
      s ≤ (rest.map fun chains => chains.get c).foldl max (first.get c) := by
  rw [foldl_iff (P := (· < s)) (Q := (· < s)) fun _ _ => min_lt_iff,
    foldl_iff (P := (s ≤ ·)) (Q := (s ≤ ·)) fun _ _ => le_max_iff, InGap, and_comm]
  simp only [not_forall, exists_prop, not_le, exists_mem_cons_iff, mem_map, exists_exists_and_eq_and]

/-- The events that are found so far, and those that will be fetched. -/
def Found (t : Tables) (acc : Finset String × List (ℕ × ℕ × ℕ)) (id : String) : Prop :=
  id ∈ acc.1 ∨ ∃ gap ∈ acc.2, id ∈ selectGap t gap.1 gap.2.1 gap.2.2

theorem found_addGap (hunique : ∀ a b p, t.pos a = some p → t.pos b = some p → a = b)
    (hinfo : ∀ p id, info.chainToEvent.lookup p = some id → t.pos id = some p) (first : Chains) (rest : List Chains)
    (acc : Finset String × List (ℕ × ℕ × ℕ)) (c : ℕ) (id : String) :
    Found t (addGap info first rest acc c) id ↔
      Found t acc id ∨ ∃ s, t.pos id = some (c, s) ∧ InGap (first :: rest) (c, s) := by
  simp only [inGap_iff]
  unfold addGap
  generalize (rest.map fun chains => chains.get c).foldl min (first.get c) = lo
  generalize (rest.map fun chains => chains.get c).foldl max (first.get c) = hi
  simp only
  by_cases hgap : lo < hi
  · rw [if_pos hgap]
    obtain ⟨hsound, hkept, hfull⟩ := fillGap_spec hinfo c (range' (lo + 1) (hi - lo)) acc.1
    have hrange : ∀ s, s ∈ range' (lo + 1) (hi - lo) ↔ lo < s ∧ s ≤ hi := by
      intro s
      rw [mem_range'_1]
      omega
    generalize fillGap info c (range' (lo + 1) (hi - lo)) acc.1 = r at hsound hkept hfull
    simp only [hrange] at hsound hfull
    constructor
    · rintro (hmem | ⟨gap, hgap, hmem⟩)
      · rcases hsound id hmem with hold | ⟨s, hs, hpos⟩
        · exact .inl (.inl hold)
        · exact .inr ⟨s, hpos, hs⟩
      split_ifs at hgap
      · exact .inl (.inr ⟨gap, hgap, hmem⟩)
      rcases mem_snoc.mp hgap with hgap | rfl
      · exact .inl (.inr ⟨gap, hgap, hmem⟩)
      · obtain ⟨s, hpos, hs⟩ := mem_selectGap.mp hmem
        exact .inr ⟨s, hpos, hs⟩
    · rintro ((hold | ⟨gap, hgap, hmem⟩) | ⟨s, hpos, hs⟩)
      · exact .inl (hkept id hold)
      · refine .inr ⟨gap, ?_, hmem⟩
        split_ifs
        · exact hgap
        · exact mem_append_left _ hgap
      cases hfilled : r.2 with
      | true =>
        -- every sequence number of the gap has its event among the known ones
        obtain ⟨id', hmem, hpos'⟩ := hfull hfilled s hs
        cases hunique id id' _ hpos hpos'
        exact .inl hmem
      | false =>
        refine .inr ⟨(c, lo, hi), ?_, mem_selectGap.mpr ⟨s, hpos, hs⟩⟩
        simp
  · rw [if_neg hgap]
    refine (or_iff_left ?_).symm
    rintro ⟨s, _, hlo, hhi⟩
    omega

theorem mem_chainDifference (hunique : ∀ a b p, t.pos a = some p → t.pos b = some p → a = b)
    (hinfo : ∀ p id, info.chainToEvent.lookup p = some id → t.pos id = some p) (first : Chains) (rest : List Chains)
    (seenChains : Finset ℕ) (result : Finset String) (id : String) :
    id ∈ chainDifference t o info first rest seenChains result ↔
      id ∈ result ∨ ∃ p, t.pos id = some p ∧ p.1 ∈ seenChains ∧ InGap (first :: rest) p := by
  unfold chainDifference
  rw [foldl_iff (P := (id ∈ ·)) (Q := fun gap : ℕ × ℕ × ℕ => id ∈ selectGap t gap.1 gap.2.1 gap.2.2)
    fun _ _ => Finset.mem_union]
  change Found t _ id ↔ _
  rw [foldl_iff (P := (Found t · id)) fun acc c => found_addGap hunique hinfo first rest acc c id]
  simp only [Found, o.numbers.mem, not_mem_nil, false_and, exists_false, or_false]
  refine or_congr_right ⟨?_, ?_⟩
  · rintro ⟨c, hc, s, hpos, hgap⟩
    exact ⟨(c, s), hpos, hc, hgap⟩
  · rintro ⟨p, hpos, hc, hgap⟩
    exact ⟨p.1, hc, p.2, hpos, hgap⟩

/-! ## The difference -/

theorem le_get_iff (h : Exact (t.eventAuth ev) t.pos t.links) {s : Finset String} (hs : ∀ a ∈ s, (t.pos a).isSome)
    {m : Chains} (hm : Maxima t.links (positionsOf t s) fun c => m.lookup c) {id : String} {p : Pos}
    (hp : t.pos id = some p) : p.2 ≤ m.get p.1 ↔ InChain ev t s id := by
  rw [Chains.le_get (seq_pos h.contiguous hp), Chains.AtLeast, ← hm.reach_iff]
  constructor
  · rintro ⟨q, ⟨e, he, hq⟩, hreach⟩
    exact ⟨e, he, (h.reach e id q p hq hp).mp hreach⟩
  · rintro ⟨e, he, hpath⟩
    obtain ⟨q, hq⟩ := Option.isSome_iff_exists.mp (hs e he)
    exact ⟨q, ⟨e, he, hq⟩, (h.reach e id q p hq hp).mpr hpath⟩

/-- The dict of chains of a prepared state set. -/
structure ChainsOf (t : Tables) (seenChains : Finset ℕ) (s : Finset String) (m : Chains) : Prop where
  start : ∀ p ∈ positionsOf t s, m.AtLeast p
  all : m.All (· ∈ positionsOf t s)
  seen : ∀ p ∈ positionsOf t s, p.1 ∈ seenChains

theorem chainsOf_prepared {events s : Finset String} (hfetched : Fetched t info events)
    (hsub : s ⊆ events) (hs : ∀ a ∈ s, (t.pos a).isSome) :
    ∃ m, chainsOf o info s = .ok m ∧ ChainsOf t info.seenChains s m := by
  have hfound : ∀ id ∈ s, ∃ p, info.chainInfo.lookup id = some p ∧ t.pos id = some p := fun id hid => by
    obtain ⟨p, hp⟩ := Option.isSome_iff_exists.mp (hs id hid)
    refine ⟨p, ?_, hp⟩
    rw [hfetched.chainInfo, if_pos (hsub hid), hp]
  obtain ⟨m, hm, hstart, hall⟩ := chainsOf_ok hfound
  refine ⟨m, hm, hstart, hall, ?_⟩
  rintro p ⟨id, hid, hp⟩
  exact hfetched.seenChains id (hsub hid) p hp

/-- **The auth chain difference.**  The cover index gives the union minus the intersection of the auth chains of the state
sets, whatever the orders in which sets are iterated and rows come back. -/
theorem getAuthChainDifference_exact (o : DifferenceOrders) {first : Finset String} {rest : List (Finset String)}
    (h : Covered ev t roomId (first :: rest)) :
    ∃ result, getAuthChainDifference ev t o roomId (first :: rest) = .ok result ∧
      ∀ id, id ∈ result ↔ (∃ s ∈ first :: rest, InChain ev t s id) ∧ ¬ ∀ s ∈ first :: rest, InChain ev t s id := by
  obtain ⟨sets, result, info, events, hprepare, hfetched, hsub, hprep⟩ := prepare_ok (o := o) h
  have hsome : ∀ s ∈ sets.1 :: sets.2, ∀ a ∈ s, (t.pos a).isSome := fun s hs => by
    obtain ⟨_, _, hs', _⟩ := forall₂_right hprep.same s hs
    exact hs'
  have hchains : ∀ s ∈ sets.1 :: sets.2, ∃ m, chainsOf o info s = .ok m ∧ ChainsOf t info.seenChains s m := fun s hs =>
    chainsOf_prepared hfetched (hsub s hs) (hsome s hs)
  obtain ⟨m, hm, hfirst⟩ := hchains sets.1 mem_cons_self
  obtain ⟨ms, hms, hrest⟩ := mapM_ok fun s hs => hchains s (mem_cons_of_mem _ hs)
  have hall : Forall₂ (ChainsOf t info.seenChains) (sets.1 :: sets.2) (m :: ms) := .cons hfirst hrest
  obtain ⟨seen, hfollow, hseen⟩ := followAll_eq m ms info.seenChains (by
    intro m' hm' c hc
    obtain ⟨s, _, hs⟩ := forall₂_right hall m' hm'
    obtain ⟨v, hv⟩ := mem_iff.mp (mem_keys.mp hc)
    exact hs.seen _ (hs.all c v hv))
  generalize hdef : followBatches o (getChainLinks t.eventAuthChainLinks (o.numbers.iter info.seenChains)) = follow
    at hfollow hseen
  refine ⟨chainDifference t o info (follow m) (ms.map follow) seen result, ?_, fun id => ?_⟩
  · simp only [getAuthChainDifference, hprepare, hm, hms, hfollow, bind, Except.bind, pure, Except.pure]
  rw [mem_chainDifference h.exact.unique hfetched.chainToEvent, hprep.difference]
  cases hpos : t.pos id with
  | none => simp
  | some p =>
    have hagree : Forall₂ (fun s m => p.2 ≤ m.get p.1 ↔ InChain ev t s id) (first :: rest) ((m :: ms).map follow) := by
      rw [forall₂_map_right_iff, ← hdef]
      refine (forall₂_comp hprep.same hall).imp ?_
      rintro s m ⟨s', ⟨hpositions, hsame⟩, hs'⟩
      rw [← hsame id (hpos ▸ rfl)]
      exact le_get_iff h.exact hpositions (follow_maxima h.targets hs'.start hs'.all hs'.seen) hpos
    obtain ⟨hexists, hforall⟩ := forall₂_quantifiers hagree
    rw [map_cons] at hexists hforall
    have hgap : InGap (follow m :: ms.map follow) p ↔
        (∃ s ∈ first :: rest, InChain ev t s id) ∧ ¬ ∀ s ∈ first :: rest, InChain ev t s id := by
      rw [InGap, hexists, hforall]
    rw [← hgap]
    constructor
    · rintro (⟨hnone, -⟩ | ⟨q, hq, -, hq'⟩)
      · cases hnone
      · cases hq
        exact hq'
    intro hp
    refine .inr ⟨p, rfl, ?_, hp⟩
    -- a chain with an event below its maximum is a key of the dict
    obtain ⟨⟨m', hm', hle⟩, -⟩ := hp
    obtain ⟨v, hv, _⟩ := (Chains.le_get (seq_pos h.exact.contiguous hpos)).mp hle
    exact hseen m' hm' (mem_keys.mpr (mem_iff.mpr ⟨v, hv⟩))

namespace Joining

def event (id : String) : EventData :=
  if id = "$join" then ⟨"!room", "m.room.member", some "@user", ["$power"]⟩
  else if id = "$power" then ⟨"!room", "m.room.power_levels", some "", ["$create"]⟩
  else ⟨"!room", "m.room.create", some "", []⟩

def depth (id : String) : ℕ := if id = "$join" then 2 else if id = "$power" then 1 else 0

theorem depth_lt {a b : String} (h : b ∈ (event a).authEventIds) : depth b < depth a := by
  unfold event at h
  split_ifs at h with hjoin hpower
  · cases mem_singleton.mp h
    subst hjoin
    decide
  · cases mem_singleton.mp h
    subst hpower
    decide
  · exact absurd h not_mem_nil

/-- A room with a join that is to be calculated. -/
def events : Events where
  event := event
  nodup id := by
    unfold event
    split_ifs <;> simp
  acyclic id h := by
    have hlt : TransGen (· > ·) (depth id) (depth id) :=
      h.lift depth fun a b (hedge : b ∈ (event a).authEventIds) => show depth b < depth a from depth_lt hedge
    rw [transGen_eq_self] at hlt
    exact lt_irrefl _ hlt

def tables : Tables where
  stateEvents := {"$create", "$power", "$join"}
  eventAuthChains := ((∅ : Finmap fun _ : String => Pos).insert "$create" (1, 1)).insert "$power" (1, 2)
  eventAuthChainLinks := []
  eventAuthChainToCalculate := ["$join"]
  lastChainId := 1

theorem pos_eq (id : String) :
    tables.pos id = if id = "$power" then some (1, 2) else if id = "$create" then some (1, 1) else none := by
  show lookup id (insert _ _ _) = _
  rw [lookup_insert_eq, lookup_insert_eq, lookup_empty]

theorem pos_cases {id : String} {p : Pos} (h : tables.pos id = some p) :
    id = "$power" ∧ p = (1, 2) ∨ id = "$create" ∧ p = (1, 1) := by
  rw [pos_eq] at h
  split_ifs at h with hpower hcreate
  · cases h
    exact .inl ⟨hpower, rfl⟩
  · cases h
    exact .inr ⟨hcreate, rfl⟩

theorem cover : Cover (tables.eventAuth events) tables.pos tables.links where
  unique a b p ha hb := by
    rcases pos_cases ha with ⟨rfl, rfl⟩ | ⟨rfl, rfl⟩
    · rcases pos_cases hb with ⟨rfl, -⟩ | ⟨-, hp⟩
      · rfl
      · cases hp
    · rcases pos_cases hb with ⟨-, hp⟩ | ⟨rfl, -⟩
      · cases hp
      · rfl
  contiguous a p ha := by
    rcases pos_cases ha with ⟨rfl, rfl⟩ | ⟨rfl, rfl⟩
    · exact .inr ⟨by decide, "$create", by decide, by rw [pos_eq]; rfl⟩
    · exact .inl rfl
  sound _ hl := absurd hl not_mem_nil
  covered a p ha b hb := by
    rcases pos_cases ha with ⟨rfl, rfl⟩ | ⟨rfl, rfl⟩
    · obtain rfl : b = "$create" := mem_singleton.mp hb
      exact ⟨(1, 1), by rw [pos_eq]; rfl, .down rfl (by decide)⟩
    · exact absurd hb not_mem_nil

theorem inChain_cases {s : Finset String} (hs : s ⊆ {"$join", "$create"}) {id : String}
    (h : InChain events tables s id) : id = "$join" ∨ id = "$power" ∨ id = "$create" := by
  obtain ⟨e, he, hpath⟩ := h
  induction hpath with
  | refl =>
    rcases Finset.mem_insert.mp (hs he) with rfl | hmem
    · exact .inl rfl
    · exact .inr (.inr (Finset.mem_singleton.mp hmem))
  | tail _ hedge ih =>
    rcases ih with rfl | rfl | rfl
    · exact .inr (.inl (mem_singleton.mp hedge))
    · exact .inr (.inr (mem_singleton.mp hedge))
    · exact absurd hedge not_mem_nil

theorem covered : Covered events tables "!room" [{"$join"}, {"$create"}] where
  exact := cover.exact
  targets _ hl := absurd hl not_mem_nil
  pending id hid := by
    obtain rfl : id = "$join" := mem_singleton.mp hid
    rfl
  members s hs id hid := by
    rcases mem_pair.mp hs with rfl | rfl
    · exact .inr hid
    · cases Finset.mem_singleton.mp hid
      refine .inl ?_
      rfl
  ancestors s hs id hid := by
    have hsub : s ⊆ {"$join", "$create"} := by
      rcases mem_pair.mp hs with rfl | rfl <;> decide
    rcases inChain_cases hsub hid with rfl | rfl | rfl
    · exact .inr (.inl mem_cons_self)
    · refine .inl ?_
      rfl
    · exact .inr (.inr rfl)

/-- Sets are iterated in some order, and rows come back as they are in the tables. -/
noncomputable def orders : DifferenceOrders where
  strings := ⟨Finset.toList, Finset.nodup_toList, fun _ _ => Finset.mem_toList⟩
  numbers := ⟨Finset.toList, Finset.nodup_toList, fun _ _ => Finset.mem_toList⟩
  rows := id
  rows_perm _ := .refl _
  links := id
  links_perm _ := .refl _

theorem difference_join : ∃ result,
    getAuthChainDifference events tables orders "!room" [{"$join"}, {"$create"}] = .ok result ∧
      "$join" ∈ result ∧ "$power" ∈ result ∧ "$create" ∉ result := by
  obtain ⟨result, hresult, hmem⟩ := getAuthChainDifference_exact orders covered
  have hstep : ReflTransGen (tables.Auth events) "$join" "$power" := .single mem_cons_self
  have hcreate : ∀ id, InChain events tables {"$create"} id → id = "$create" := by
    rintro id ⟨e, he, hpath⟩
    cases Finset.mem_singleton.mp he
    rcases hpath.cases_head with rfl | ⟨b, hedge, -⟩
    · rfl
    · exact absurd hedge not_mem_nil
  refine ⟨result, hresult, (hmem _).mpr ⟨?_, fun h => ?_⟩, (hmem _).mpr ⟨?_, fun h => ?_⟩, fun h => ?_⟩
  · exact ⟨_, mem_cons_self, "$join", Finset.mem_singleton_self _, .refl⟩
  · exact absurd (hcreate _ (h _ (mem_cons_of_mem _ mem_cons_self))) (by decide)
  · exact ⟨_, mem_cons_self, "$join", Finset.mem_singleton_self _, hstep⟩
  · exact absurd (hcreate _ (h _ (mem_cons_of_mem _ mem_cons_self))) (by decide)
  · refine ((hmem _).mp h).2 fun s hs => ?_
    rcases mem_pair.mp hs with rfl | rfl
    · exact ⟨"$join", Finset.mem_singleton_self _, hstep.tail mem_cons_self⟩
    · exact ⟨"$create", Finset.mem_singleton_self _, .refl⟩

end Joining

end Synapse.AuthChain
