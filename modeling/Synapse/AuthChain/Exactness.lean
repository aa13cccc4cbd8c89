import Synapse.AuthChain.Links
import Synapse.Lib.Dict

/-!
# Synapse.AuthChain.Exactness — the chain cover index stays exact

* `Indexed.extend`: positions and links like those of a batch keep the tables indexed.
* `persistBatch_ok`: a batch is persisted, and keeps them so.
* **`run_exact`**: after any batches the index is an exact chain cover of the auth graph.
-/

namespace Synapse.AuthChain

open Lib Chain Greedy Relation List Option AList

variable {ev : Events} {t : Tables} {c : Calc} {nodes stateEvents : List String} {positions : Dict Pos}

/-! ## The tables after a batch -/

theorem lookup_chainMap (positions chainMap : Dict Pos) (id : String) :
    (positions.entries.foldl (fun (d : Dict Pos) r => d.insert r.1 r.2) chainMap).lookup id =
      (positions.lookup id).or (chainMap.lookup id) :=
  lookup_foldl_entries (fun (d : Dict Pos) k b => d.insert k b) (fun d k => d.lookup k)
    (fun d k b k' => lookup_insert_dict d k k' b) positions.nodupKeys chainMap id

theorem pos_persist (events : List String) (new : NewLinks) (id : String) :
    (persist ev t events new).pos id = newPos t new.positions id :=
  lookup_foldl_entries (fun (d : Finmap fun _ => Pos) k b => d.insert k b) (fun d k => d.lookup k)
    (fun d k b k' => lookup_insert_eq d k k' b) new.positions.nodupKeys t.eventAuthChains id

section Extend

variable {last : ℕ} {tree : List String} {m : LinkMap} {links : List Link}
variable (hix : Indexed ev t) (hp : Positions ev t nodes positions last) (hnew : ∀ id ∈ nodes, t.pos id = none)
include hp hnew

theorem newPos_of_pos {id : String} {p : Pos} (h : t.pos id = some p) : newPos t positions id = some p := by
  have hnone : positions.lookup id = none := by
    rw [lookup_eq_none, hp.keys]
    intro hid
    rw [hnew id hid] at h
    cases h
  rw [newPos, hnone, h]
  rfl

include hix

theorem contiguous_newPos : Contiguous ev.auth (newPos t positions) := by
  intro id p h
  rcases or_eq_some_iff.mp h with h | ⟨-, h⟩
  · exact hp.contiguous id p h
  · refine (hix.cover.contiguous id p h).imp_right fun ⟨hlt, b, hb, hposb⟩ => ⟨hlt, b, hb, ?_⟩
    exact newPos_of_pos hp hnew hposb

theorem cover_extend (hknown : ∀ id ∈ nodes, ∀ a ∈ ev.auth id, ∃ q, newPos t positions a = some q)
    (hl : Linking ev (newPos t positions) t.eventAuthChainLinks tree (m, links)) (htree : ∀ id ∈ nodes, id ∈ tree) :
    Cover ev.auth (newPos t positions) {l | l ∈ t.eventAuthChainLinks ∨ l ∈ links} := by
  have hcont := contiguous_newPos hix hp hnew
  have hsound : ∀ l ∈ {l | l ∈ t.eventAuthChainLinks ∨ l ∈ links}, ∃ a, ∃ b ∈ ev.auth a,
      newPos t positions a = some l.src ∧ newPos t positions b = some l.target := by
    rintro l (hstored | hlink)
    · obtain ⟨a, b, hb, hsrc, htarget⟩ := hix.cover.sound l hstored
      exact ⟨a, b, hb, newPos_of_pos hp hnew hsrc, newPos_of_pos hp hnew htarget⟩
    · exact (hl.sound l hlink).2
  refine ⟨hp.unique, hcont, hsound, fun id p hpos => ?_⟩
  rcases or_eq_some_iff.mp hpos with hlook | ⟨-, hold⟩
  · -- a new event: what is not linked to is led to by another auth event
    have hid : id ∈ nodes := (hp.keys id).mp (lookup_isSome.mp (isSome_of_eq_some hlook))
    refine reach_of_reduced ev.acyclic hp.unique hcont hsound (hknown id hid) fun b hb q hq => ?_
    rcases hl.covered id (htree id hid) p hpos b hb q hq with hchain | hlink | ⟨a, ha, hne, r, hr, hreach⟩
    · exact .inl (.down hchain.symm (hp.lower id p hlook b hb q hq hchain).le)
    · exact .inl (Reach.link (l := ⟨p, q⟩) (Or.inr hlink) rfl le_rfl)
    · exact .inr ⟨a, ha, hne, r, hr, hreach⟩
  · intro b hb
    obtain ⟨q, hq, hreach⟩ := hix.cover.covered id p hold b hb
    exact ⟨q, newPos_of_pos hp hnew hq, hreach.mono fun l hmem => .inl hmem⟩

end Extend

theorem indexed_persist {events : List String} {new : NewLinks} (hix : Indexed ev t)
    (hcover : Cover ev.auth (newPos t new.positions) {l | l ∈ t.eventAuthChainLinks ∨ l ∈ new.links})
    (hbetween : ∀ l ∈ new.links, l.src.1 ≠ l.target.1)
    (hbound : ∀ id p, newPos t new.positions id = some p → p.1 ≤ new.lastChainId)
    (hrows : ∀ id ∈ new.toCalculate, id ∈ t.eventAuthChainToCalculate ∨ id ∈ stateEventsOf ev events ∧ t.pos id = none) :
    Indexed ev (persist ev t events new) := by
  have hpos : (persist ev t events new).pos = newPos t new.positions := funext (pos_persist events new)
  have hlinks : (persist ev t events new).links = {l | l ∈ t.eventAuthChainLinks ∨ l ∈ new.links} := by
    ext l
    exact mem_append
  refine ⟨by rwa [hpos, hlinks], forall_mem_append.mpr ⟨hix.between, hbetween⟩, fun id p hp => ?_, fun id hid => ?_⟩
  · rw [hpos] at hp
    exact hbound id p hp
  obtain ⟨hrow, hkey⟩ := mem_filter.mp hid
  have hkeys : id ∉ new.positions.keys := of_decide_eq_true hkey
  have hnone := lookup_eq_none.mpr hkeys
  rw [hpos, newPos, hnone, none_or]
  rcases hrows id hrow with hold | ⟨hstate, hunindexed⟩
  · exact ⟨Finset.mem_union_left _ (hix.pending id hold).1, (hix.pending id hold).2⟩
  · exact ⟨Finset.mem_union_right _ (List.mem_toFinset.mpr hstate), hunindexed⟩

theorem indexed_persist_none {events toCalculate : List String} (hix : Indexed ev t)
    (hrows : ∀ id ∈ toCalculate, id ∈ t.eventAuthChainToCalculate ∨ id ∈ stateEventsOf ev events ∧ t.pos id = none) :
    Indexed ev (persist ev t events ⟨∅, [], toCalculate, t.lastChainId⟩) := by
  have hpos : newPos t ∅ = t.pos := funext fun id => by
    rw [newPos, lookup_empty, none_or]
  refine indexed_persist hix ?_ (by simp) (fun id p hp => ?_) hrows
  · simpa [hpos, Tables.links] using hix.cover
  · exact hix.bound id p hp

/-! ## Batches -/

theorem lookup_newChainMap (hg : Gathered ev t c) (hn : Allocatable ev t c nodes) {last : ℕ}
    (hp : Positions ev t nodes positions last) {id x : String} (hid : id ∈ nodes) (hx : x ∈ id :: ev.auth id) :
    ∃ p, (positions.entries.foldl (fun (d : Dict Pos) r => d.insert r.1 r.2) c.chainMap).lookup x = some p ∧
      newPos t positions x = some p := by
  have hknown : x ∈ c.chainMap ∨ x ∈ nodes := by
    rcases mem_cons.mp hx with rfl | hx
    · exact .inr hid
    · exact hn.closed id hid x hx
  rw [lookup_chainMap, newPos]
  cases hlook : positions.lookup x with
  | some p => exact ⟨p, rfl, rfl⟩
  | none =>
    have hmap : x ∈ c.chainMap := hknown.resolve_right fun hmem => by
      rw [← hp.keys, ← lookup_isSome, hlook] at hmem
      cases hmem
    obtain ⟨p, hpos⟩ := isSome_iff_exists.mp (lookup_isSome.mpr hmap)
    exact ⟨p, hpos, hg.chainMap x p hpos⟩

theorem calculateChainCoverIndex_eq (hgather : gather ev t o stateEvents = .ok c) {nodes rows : List String}
    (hd : discard t stateEvents c = (nodes, rows)) : calculateChainCoverIndex ev t o stateEvents =
      if nodes = [] then .ok ⟨∅, [], rows, t.lastChainId⟩
      else allocateChainIds t o c nodes >>= fun r =>
        calculateLinks o c.eventToAuthChain (r.1.entries.foldl (fun (d : Dict Pos) r => d.insert r.1 r.2) c.chainMap)
          t.eventAuthChainLinks nodes >>= fun links => .ok ⟨r.1, links, rows, r.2⟩ := by
  obtain rfl : (discard t stateEvents c).1 = nodes := congrArg Prod.fst hd
  obtain rfl : (discard t stateEvents c).2 = rows := congrArg Prod.snd hd
  rw [calculateChainCoverIndex, hgather]
  rfl

theorem calculateChainCoverIndex_ok (hix : Indexed ev t) (o : Orders) (events : List String)
    (hstate : ∀ id ∈ stateEvents, id ∈ stateEventsOf ev events ∧ t.pos id = none) :
    ∃ new, calculateChainCoverIndex ev t o stateEvents = .ok new ∧ Indexed ev (persist ev t events new) := by
  obtain ⟨c, hgather, hg⟩ := gather_ok (fun id hid => (hstate id hid).2) hix.pending
  obtain ⟨⟨nodes, rows⟩, hd⟩ : ∃ d, discard t stateEvents c = d := ⟨_, rfl⟩
  have hdiscarded := discard_ok hg stateEvents
  have hn := allocatable_discard hg stateEvents
  rw [hd] at hdiscarded hn
  have hrows : ∀ id ∈ rows, id ∈ t.eventAuthChainToCalculate ∨ id ∈ stateEventsOf ev events ∧ t.pos id = none :=
    fun id hid => (hdiscarded.rows id hid).imp_right (hstate id)
  rw [calculateChainCoverIndex_eq hgather hd]
  by_cases hnil : nodes = []
  · rw [if_pos hnil]
    exact ⟨_, rfl, indexed_persist_none hix hrows⟩
  obtain ⟨positions, last, halloc, hp, hlast⟩ := allocateChainIds_ok hix hg hn o
  have hunindexed : ∀ id ∈ nodes, t.pos id = none := fun id hid => hg.unindexed id (hn.toCalc id hid)
  have hsorted : ∀ id, id ∈ sortedTopologically nodes c.eventToAuthChain ↔ id ∈ nodes := fun id => mem_sorted hg hn.nodup
  have hauth : ∀ id ∈ sortedTopologically nodes c.eventToAuthChain,
      ((c.eventToAuthChain.lookup id).getD []).Perm (ev.auth id) := fun id hid =>
    hg.perm_auth ((hg.keys id).mp (hn.toCalc id ((hsorted id).mp hid)))
  obtain ⟨links, hlinks, m, hl⟩ := calculateLinks_ok (newPos t positions) hix.between hauth
    fun id hid x hx => lookup_newChainMap hg hn hp ((hsorted id).mp hid) hx
  refine ⟨⟨positions, links, rows, last⟩, ?_, ?_⟩
  · rw [if_neg hnil, halloc]
    show (calculateLinks _ _ _ _ _ >>= fun links => _) = _
    rw [hlinks]
    rfl
  refine indexed_persist hix (cover_extend hix hp hunindexed ?_ hl fun id hid => (hsorted id).mpr hid)
    (fun l hmem => (hl.sound l hmem).1) hp.bound hrows
  intro id hid a ha
  obtain ⟨q, -, hq⟩ := lookup_newChainMap hg hn hp hid (mem_cons_of_mem _ ha)
  exact ⟨q, hq⟩

theorem persistBatch_ok (hix : Indexed ev t) (b : Batch) : ∃ t', persistBatch ev t b = .ok t' ∧ Indexed ev t' := by
  unfold persistBatch calculateForEvents
  simp only
  split
  · exact ⟨_, rfl, indexed_persist_none hix fun id hid => .inl hid⟩
  have hstate : ∀ id ∈ (stateEventsOf ev b.events).filter fun id => t.pos id = none,
      id ∈ stateEventsOf ev b.events ∧ t.pos id = none :=
    fun id hid => ⟨(mem_filter.mp hid).1, of_decide_eq_true (mem_filter.mp hid).2⟩
  obtain ⟨new, hnew, hix'⟩ := calculateChainCoverIndex_ok hix b.orders b.events hstate
  rw [hnew]
  exact ⟨_, rfl, hix'⟩

theorem indexed_empty (ev : Events) : Indexed ev .empty where
  cover := ⟨fun _ _ _ h => (by cases h), fun _ _ h => (by cases h), fun _ h => absurd h not_mem_nil,
    fun _ _ h => (by cases h)⟩
  between l hl := absurd hl not_mem_nil
  bound _ _ h := by cases h
  pending _ h := absurd h not_mem_nil

/-- **The index stays exact.**  Whatever batches of events are persisted, one after the other, no batch fails, positions
are unique, those of a chain are contiguous from 1 with each event listing its predecessor as an auth event, and an event
is reached from another exactly if it is that event or in its auth chain. -/
theorem run_exact (ev : Events) (batches : List Batch) :
    ∃ t, run ev .empty batches = .ok t ∧ Exact ev.auth t.pos t.links := by
  obtain ⟨t, hrun, hix⟩ := foldlM_total (fun _ t => Indexed ev t) (indexed_empty ev)
    fun _ b _ _ _ hix => persistBatch_ok hix b
  exact ⟨t, hrun, hix.cover.exact⟩

end Synapse.AuthChain
