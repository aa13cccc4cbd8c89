import Synapse.AuthChain.Difference

/-!
# Synapse.AuthChain.FixUp — state sets with events that have no position

* `Covered`: the index is exact for the events that have a position, and the fix-up reaches those that have none.
* `fetchChainInfo_fetched`: what is fetched.
* `mem_partialAuthChain`: what an event without a position leads to.
* `replaced`: a state set after its events without a position have been replaced.
* **`prepare_ok`**: the new sets have positions and the same auth chains, up to the events without a position.
-/

namespace Synapse.AuthChain

open Lib Chain Relation Finset List

abbrev Tables.Auth (ev : Events) (t : Tables) : String → String → Prop := Edge (t.eventAuth ev)

/-- The reflexive auth chain of a state set. -/
def InChain (ev : Events) (t : Tables) (s : Finset String) (id : String) : Prop :=
  ∃ e ∈ s, ReflTransGen (t.Auth ev) e id

/-- **A room whose index is exact for the indexed events.**  An event of the state sets that has no position is to be
calculated, and so are the events it leads to, unless they have a position or no auth events are stored for them. -/
structure Covered (ev : Events) (t : Tables) (roomId : String) (sets : List (Finset String)) : Prop where
  exact : Exact (t.eventAuth ev) t.pos t.links
  targets : ∀ l ∈ t.eventAuthChainLinks, 1 ≤ l.target.2
  pending : ∀ id ∈ t.pendingIn ev roomId, t.pos id = none
  members : ∀ s ∈ sets, ∀ id ∈ s, (t.pos id).isSome ∨ id ∈ t.pendingIn ev roomId
  ancestors : ∀ s ∈ sets, ∀ id, InChain ev t s id →
    (t.pos id).isSome ∨ id ∈ t.pendingIn ev roomId ∨ t.eventAuth ev id = []

/-! ## Positions that are fetched -/

/-- What is known after the positions of some events have been fetched. -/
structure Fetched (t : Tables) (info : ChainInfo) (events : Finset String) : Prop where
  chainInfo : ∀ id, info.chainInfo.lookup id = if id ∈ events then t.pos id else none
  seenChains : ∀ id ∈ events, ∀ p, t.pos id = some p → p.1 ∈ info.seenChains
  chainToEvent : ∀ p id, info.chainToEvent.lookup p = some id → t.pos id = some p

section Fetch

variable {t : Tables} {info : ChainInfo} {events : Finset String}

theorem fetched_empty : Fetched t .empty ∅ where
  chainInfo id := by simp [ChainInfo.empty]
  seenChains id hid := absurd hid (notMem_empty id)
  chainToEvent p id h := by simp [ChainInfo.empty] at h

theorem Fetched.position (h : Fetched t info events) (id : String) :
    Fetched t (fetchPosition t info id) (insert id events) := by
  unfold fetchPosition
  cases hpos : t.pos id with
  | none =>
    refine ⟨fun id' => ?_, fun id' hid' p hp => ?_, h.chainToEvent⟩
    · rw [h.chainInfo]
      by_cases heq : id' = id
      · simp [heq, hpos]
      · simp [heq]
    · refine h.seenChains id' ((mem_insert.mp hid').resolve_left ?_) p hp
      rintro rfl
      cases hpos.symm.trans hp
  | some q =>
    refine ⟨fun id' => ?_, fun id' hid' p hp => ?_, insert_all h.chainToEvent hpos⟩
    · show (info.chainInfo.insert id q).lookup id' = _
      rw [lookup_insert_eq, h.chainInfo]
      by_cases heq : id' = id
      · simp [heq, hpos]
      · simp [heq]
    · rcases mem_insert.mp hid' with rfl | hid'
      · obtain rfl : q = p := Option.some.inj (hpos.symm.trans hp)
        exact mem_insert_self _ _
      · exact mem_insert_of_mem (h.seenChains id' hid' p hp)

theorem Fetched.positions (h : Fetched t info events) (ids : List String) :
    Fetched t (ids.foldl (fetchPosition t) info) (events ∪ ids.toFinset) := by
  induction ids generalizing info events with
  | nil => simpa using h
  | cons id ids ih =>
    have hset : events ∪ (id :: ids).toFinset = insert id events ∪ ids.toFinset := by
      rw [toFinset_cons, union_insert, insert_union]
    rw [hset]
    exact ih (h.position id)

theorem fetchChainInfo_fetched (o : DifferenceOrders) (h : Fetched t info events) (eventsToFetch : Finset String) :
    Fetched t (fetchChainInfo t o info eventsToFetch) (events ∪ eventsToFetch) := by
  have hall : (o.strings.iter eventsToFetch).toFinset = eventsToFetch := by
    ext id
    rw [mem_toFinset, o.strings.mem]
  unfold fetchChainInfo
  rw [← foldl_flatten, flatten_batchIter (by omega)]
  have := h.positions (o.strings.iter eventsToFetch)
  rwa [hall] at this

end Fetch

/-! ## The pending events -/

section Pending

variable {ev : Events} {t : Tables} {o : DifferenceOrders} {roomId : String}

def PendingInfo.succ (info : PendingInfo) (id : String) : Finset String := (info.eventToAuthIds.lookup id).getD ∅

theorem PendingInfo.add_spec (info : PendingInfo) (row : PendingRow) (id a : String) :
    (id ∈ (info.add row).eventToAuthIds ↔ id ∈ info.eventToAuthIds ∨ row.eventId = id) ∧
      (a ∈ (info.add row).succ id ↔ a ∈ info.succ id ∨ row.eventId = id ∧ row.authId = some a) ∧
      (a ∈ (info.add row).eventsThatHaveChainIndex ↔
        a ∈ info.eventsThatHaveChainIndex ∨ row.authId = some a ∧ row.authIdHasChain = true) := by
  obtain ⟨eventId, authId, hasChain⟩ := row
  have hkeys : ∀ s : Finset String,
      id ∈ info.eventToAuthIds.insert eventId s ↔ id ∈ info.eventToAuthIds ∨ eventId = id := by
    intro s
    rw [Finmap.mem_insert, or_comm, eq_comm]
  cases authId with
  | none =>
    refine ⟨hkeys _, ?_, by simp [add]⟩
    simp only [add, succ]
    by_cases heq : id = eventId
    · subst heq
      simp
    · simp [heq]
  | some authId =>
    refine ⟨hkeys _, ?_, ?_⟩
    · simp only [add, succ]
      by_cases heq : id = eventId
      · subst heq
        simp [or_comm, eq_comm]
      · simp [heq, Ne.symm heq]
    · simp only [add, Option.some.injEq]
      cases hasChain
      · simp
      · simp [or_comm, eq_comm]

theorem exists_selectPending {P : PendingRow → Prop} : (∃ row ∈ selectPending ev t roomId, P row) ↔
    ∃ id ∈ t.pendingIn ev roomId, (t.eventAuth ev id = [] ∧ P ⟨id, none, false⟩) ∨
      ∃ a ∈ t.eventAuth ev id, P ⟨id, some a, (t.pos a).isSome⟩ := by
  have hrows : ∀ id, (∃ row ∈ if t.eventAuth ev id = [] then [⟨id, none, false⟩]
      else (t.eventAuth ev id).map fun a => ⟨id, some a, (t.pos a).isSome⟩, P row) ↔
      (t.eventAuth ev id = [] ∧ P ⟨id, none, false⟩) ∨ ∃ a ∈ t.eventAuth ev id, P ⟨id, some a, (t.pos a).isSome⟩ := by
    intro id
    by_cases hnil : t.eventAuth ev id = []
    · simp [hnil]
    · simp [hnil]
  simp only [selectPending, mem_flatMap, ← hrows]
  constructor
  · rintro ⟨row, ⟨id, hid, hrow⟩, hP⟩
    exact ⟨id, hid, row, hrow, hP⟩
  · rintro ⟨id, hid, row, hrow, hP⟩
    exact ⟨row, ⟨id, hid, hrow⟩, hP⟩

structure PendingKnown (ev : Events) (t : Tables) (roomId : String) (known : Finset String) (info : PendingInfo) :
    Prop where
  keys : ∀ id, id ∈ info.eventToAuthIds ↔ id ∈ t.pendingIn ev roomId
  succ : ∀ id a, a ∈ info.succ id ↔ id ∈ t.pendingIn ev roomId ∧ a ∈ t.eventAuth ev id
  index : ∀ a, a ∈ info.eventsThatHaveChainIndex ↔
    a ∈ known ∨ (t.pos a).isSome ∧ ∃ id ∈ t.pendingIn ev roomId, a ∈ t.eventAuth ev id

theorem pendingKnown (o : DifferenceOrders) (known : Finset String) :
    PendingKnown ev t roomId known ((o.rows (selectPending ev t roomId)).foldl PendingInfo.add ⟨∅, known⟩) := by
  have hrow : ∀ row, row ∈ o.rows (selectPending ev t roomId) ↔ row ∈ selectPending ev t roomId :=
    fun row => (o.rows_perm _).mem_iff
  refine ⟨fun id => ?_, fun id a => ?_, fun a => ?_⟩
  · rw [foldl_iff (P := fun info : PendingInfo => id ∈ info.eventToAuthIds) fun info row => (info.add_spec row id "").1]
    simp only [hrow, exists_selectPending, Finmap.notMem_empty, false_or]
    constructor
    · rintro ⟨_, hid, ⟨-, rfl⟩ | ⟨_, -, rfl⟩⟩
      · exact hid
      · exact hid
    intro hid
    cases hauth : t.eventAuth ev id with
    | nil => exact ⟨id, hid, .inl ⟨hauth, rfl⟩⟩
    | cons a rest => exact ⟨id, hid, .inr ⟨a, by simp [hauth], rfl⟩⟩
  · rw [foldl_iff (P := fun info : PendingInfo => a ∈ info.succ id) fun info row => (info.add_spec row id a).2.1]
    simp only [hrow, exists_selectPending, PendingInfo.succ, Finmap.lookup_empty, Option.getD_none, notMem_empty,
      false_or]
    constructor
    · rintro ⟨_, hid, ⟨-, -, hnone⟩ | ⟨_, hb, rfl, hsome⟩⟩
      · cases hnone
      · cases hsome
        exact ⟨hid, hb⟩
    · rintro ⟨hid, ha⟩
      exact ⟨id, hid, .inr ⟨a, ha, rfl, rfl⟩⟩
  · rw [foldl_iff (P := fun info : PendingInfo => a ∈ info.eventsThatHaveChainIndex)
      fun info row => (info.add_spec row "" a).2.2]
    simp only [hrow, exists_selectPending]
    refine or_congr_right ⟨?_, ?_⟩
    · rintro ⟨id, hid, ⟨-, hnone, -⟩ | ⟨_, hb, hsome, hpos⟩⟩
      · cases hnone
      · cases hsome
        exact ⟨hpos, id, hid, hb⟩
    · rintro ⟨hpos, id, hid, ha⟩
      exact ⟨id, hid, .inr ⟨a, ha, rfl, hpos⟩⟩

variable {info : PendingInfo}

theorem mem_partialAuthChain (id a : String) :
    a ∈ partialAuthChain o info (info.succ id) ↔ TransGen (Step info.succ) id a := by
  have hbound : ∀ x, info.succ x ⊆ info.eventToAuthIds.keys.biUnion info.succ := by
    intro x a ha
    refine mem_biUnion.mpr ⟨x, ?_, ha⟩
    rw [Finmap.mem_keys, Finmap.mem_iff]
    cases hlook : info.eventToAuthIds.lookup x with
    | none => simp [PendingInfo.succ, hlook] at ha
    | some s => exact ⟨s, rfl⟩
  have hsearch : a ∈ partialAuthChain o info (info.succ id) ↔
      a ∈ (∅ : Finset String) ∨ ∃ x ∈ info.succ id, ReflTransGen (Step info.succ) x a :=
    mem_popSearch o.strings.mem hbound ⟨by simpa using hbound id, by simp⟩
      (by rw [sdiff_empty]; exact le_rfl)
  rw [hsearch, TransGen.head'_iff]
  simp [Step]

/-! ## Replacing the events -/

structure Replaces (info : PendingInfo) (e : String × Finset String) : Prop where
  chain : ∀ a, a ∈ e.2 ↔ TransGen (Step info.succ) e.1 a
  unindexed : e.1 ∉ info.eventsThatHaveChainIndex

/-- The event is recorded with all it leads to. -/
def Recorded (info : PendingInfo) (acc : Finset String × Finset String) (e : String) : Prop :=
  e ∈ acc.2 ∧ ∀ a, TransGen (Step info.succ) e a →
    (a ∈ info.eventsThatHaveChainIndex → a ∈ acc.1) ∧ (a ∉ info.eventsThatHaveChainIndex → a ∈ acc.2)

/-- The state set after some events have been replaced. -/
structure Replacing (info : PendingInfo) (s : Finset String) (done : List String) (acc : Finset String × Finset String) :
    Prop where
  kept : ∀ a ∈ s, a ∈ info.eventsThatHaveChainIndex → a ∈ acc.1
  recorded : ∀ e ∈ s, e ∉ info.eventsThatHaveChainIndex → e ∈ acc.1 ∨ Recorded info acc e
  gone : ∀ e ∈ done, e ∉ acc.1
  sound : ∀ a ∈ acc.1, a ∈ s ∨
    a ∈ info.eventsThatHaveChainIndex ∧ ∃ e ∈ s, e ∉ info.eventsThatHaveChainIndex ∧ TransGen (Step info.succ) e a
  unindexed : ∀ a ∈ acc.2, a ∉ info.eventsThatHaveChainIndex ∧
    ∃ e ∈ s, e ∉ info.eventsThatHaveChainIndex ∧ ReflTransGen (Step info.succ) e a

theorem Replacing.step {s : Finset String} {done : List String} {acc : Finset String × Finset String}
    (h : Replacing info s done acc) {e : String × Finset String} (he : Replaces info e)
    (hdone : ∀ e ∈ done, e ∉ info.eventsThatHaveChainIndex) :
    Replacing info s (done ++ [e.1]) (replaceUnindexed info.eventsThatHaveChainIndex acc e) := by
  unfold replaceUnindexed
  by_cases hmem : e.1 ∈ acc.1
  · rw [if_neg (not_not.mpr hmem)]
    have hold : e.1 ∈ s := (h.sound e.1 hmem).resolve_right fun hin => he.unindexed hin.1
    -- what has a position stays or comes, and everything else that leaves is recorded
    have hstay : ∀ a ∈ acc.1, a ∈ info.eventsThatHaveChainIndex →
        a ∈ acc.1.erase e.1 \ e.2 ∪ e.2.filter (· ∈ info.eventsThatHaveChainIndex) := by
      intro a ha hin
      by_cases hchain : a ∈ e.2
      · exact mem_union_right _ (mem_filter.mpr ⟨hchain, hin⟩)
      · have hne : a ≠ e.1 := fun heq => he.unindexed (heq ▸ hin)
        exact mem_union_left _ (mem_sdiff.mpr ⟨mem_erase.mpr ⟨hne, ha⟩, hchain⟩)
    have hnew : Recorded info (acc.1.erase e.1 \ e.2 ∪ e.2.filter (· ∈ info.eventsThatHaveChainIndex),
        insert e.1 acc.2 ∪ e.2.filter (· ∉ info.eventsThatHaveChainIndex)) e.1 := by
      refine ⟨mem_union_left _ (mem_insert_self _ _), fun a ha => ⟨fun hin => ?_, fun hout => ?_⟩⟩
      · exact mem_union_right _ (mem_filter.mpr ⟨(he.chain a).mpr ha, hin⟩)
      · exact mem_union_right _ (mem_filter.mpr ⟨(he.chain a).mpr ha, hout⟩)
    refine ⟨fun a ha hin => hstay a (h.kept a ha hin) hin, fun x hx hout => ?_, fun x hx => ?_, fun a ha => ?_,
      fun a ha => ?_⟩
    · rcases h.recorded x hx hout with hin | ⟨hun, hall⟩
      · by_cases hxe : x = e.1
        · exact .inr (hxe ▸ hnew)
        by_cases hchain : x ∈ e.2
        · have hpath := (he.chain x).mp hchain
          exact .inr ⟨(hnew.2 x hpath).2 hout, fun a ha => hnew.2 a (hpath.trans ha)⟩
        · exact .inl (mem_union_left _ (mem_sdiff.mpr ⟨mem_erase.mpr ⟨hxe, hin⟩, hchain⟩))
      · refine .inr ⟨mem_union_left _ (mem_insert_of_mem hun), fun a ha => ⟨fun hin => ?_, fun hout => ?_⟩⟩
        · exact hstay a ((hall a ha).1 hin) hin
        · exact mem_union_left _ (mem_insert_of_mem ((hall a ha).2 hout))
    · have hout : x ∉ info.eventsThatHaveChainIndex ∧ x ∉ acc.1.erase e.1 := by
        rcases mem_snoc.mp hx with hx | rfl
        · exact ⟨hdone x hx, fun hin => h.gone x hx (mem_of_mem_erase hin)⟩
        · exact ⟨he.unindexed, notMem_erase _ _⟩
      intro hin
      rcases mem_union.mp hin with hin | hin
      · exact hout.2 (mem_sdiff.mp hin).1
      · exact hout.1 (mem_filter.mp hin).2
    · rcases mem_union.mp ha with ha | ha
      · exact h.sound a (mem_of_mem_erase (mem_sdiff.mp ha).1)
      · obtain ⟨hchain, hin⟩ := mem_filter.mp ha
        exact .inr ⟨hin, e.1, hold, he.unindexed, (he.chain a).mp hchain⟩
    · rcases mem_union.mp ha with ha | ha
      · rcases mem_insert.mp ha with rfl | ha
        · exact ⟨he.unindexed, e.1, hold, he.unindexed, .refl⟩
        · exact h.unindexed a ha
      · obtain ⟨hchain, hout⟩ := mem_filter.mp ha
        exact ⟨hout, e.1, hold, he.unindexed, ((he.chain a).mp hchain).to_reflTransGen⟩
  · rw [if_pos hmem]
    exact { h with gone := forall_mem_snoc.mpr ⟨h.gone, hmem⟩ }

theorem replacing_start (s : Finset String) : Replacing info s [] (s, ∅) where
  kept _ ha _ := ha
  recorded _ he _ := .inl he
  gone _ he := absurd he not_mem_nil
  sound _ ha := .inl ha
  unindexed a ha := absurd ha (notMem_empty a)

/-- **A state set after its events have been replaced**: its events with a position, and those with a position that the
others lead to; and the events without a position that it contains or leads to. -/
theorem replaced {chains : List (String × Finset String)} (hchains : ∀ e ∈ chains, Replaces info e) {s : Finset String}
    (hall : ∀ e ∈ s, e ∉ info.eventsThatHaveChainIndex → e ∈ chains.map Prod.fst) :
    let r := chains.foldl (replaceUnindexed info.eventsThatHaveChainIndex) (s, ∅)
    (∀ a, a ∈ r.1 ↔ a ∈ info.eventsThatHaveChainIndex ∧ (a ∈ s ∨
        ∃ e ∈ s, e ∉ info.eventsThatHaveChainIndex ∧ TransGen (Step info.succ) e a)) ∧
      ∀ a, a ∈ r.2 ↔ a ∉ info.eventsThatHaveChainIndex ∧
        ∃ e ∈ s, e ∉ info.eventsThatHaveChainIndex ∧ ReflTransGen (Step info.succ) e a := by
  have h : Replacing info s (chains.map Prod.fst)
      (chains.foldl (replaceUnindexed info.eventsThatHaveChainIndex) (s, ∅)) := by
    clear hall
    induction chains using reverseRecOn with
    | nil => exact replacing_start s
    | append_singleton chains e ih =>
      have hpast : ∀ e ∈ chains, Replaces info e := fun e' he' => hchains e' (mem_append_left _ he')
      rw [map_append, foldl_append]
      refine (ih hpast).step (hchains e (by simp)) fun x hx => ?_
      obtain ⟨e', he', rfl⟩ := mem_map.mp hx
      exact (hpast e' he').unindexed
  have hrec : ∀ e ∈ s, e ∉ info.eventsThatHaveChainIndex →
      Recorded info (chains.foldl (replaceUnindexed info.eventsThatHaveChainIndex) (s, ∅)) e := fun e he hout =>
    (h.recorded e he hout).resolve_left (h.gone e (hall e he hout))
  refine ⟨fun a => ⟨fun ha => ?_, ?_⟩, fun a => ⟨h.unindexed a, ?_⟩⟩
  · rcases h.sound a ha with hs | ⟨hin, hfrom⟩
    · refine ⟨?_, .inl hs⟩
      by_contra hout
      exact h.gone a (hall a hs hout) ha
    · exact ⟨hin, .inr hfrom⟩
  · rintro ⟨hin, hs | ⟨e, he, hout, hpath⟩⟩
    · exact h.kept a hs hin
    · exact ((hrec e he hout).2 a hpath).1 hin
  · rintro ⟨hout, e, he, heout, hpath⟩
    rcases reflTransGen_iff_eq_or_transGen.mp hpath with rfl | hpath
    · exact (hrec a he heout).1
    · exact ((hrec e he heout).2 a hpath).2 hout

end Pending

/-! ## The sets that are left -/

variable {rest : List (Finset String)} {first : Finset String}

theorem mem_unionAll {a : String} : a ∈ unionAll first rest ↔ ∃ s ∈ first :: rest, a ∈ s := by
  rw [exists_mem_cons_iff]
  exact foldl_iff (P := (a ∈ ·)) (Q := (a ∈ ·)) (fun _ _ => mem_union) rest first

theorem mem_interAll {a : String} : a ∈ interAll first rest ↔ ∀ s ∈ first :: rest, a ∈ s := by
  unfold interAll
  induction rest generalizing first with
  | nil => simp
  | cons s rest ih =>
    rw [foldl_cons, ih]
    simp [and_assoc]

section Prepare

variable {ev : Events} {t : Tables} {o : DifferenceOrders} {roomId : String} {s : Finset String} {e a : String}

theorem none_of_chain (h : Exact (t.eventAuth ev) t.pos t.links) (hpath : ReflTransGen (t.Auth ev) e a)
    (ha : t.pos a = none) : t.pos e = none := by
  induction hpath with
  | refl => exact ha
  | @tail b a _ hedge ih =>
    refine ih (Option.eq_none_iff_forall_ne_some.mpr fun p hb => ?_)
    have hsome := h.closed b a (by rw [hb]; rfl) hedge
    rw [ha] at hsome
    cases hsome

/-- The sets have positions, and the same auth chains as before among the events with a position; the result is the
difference among the others. -/
structure Prepared (ev : Events) (t : Tables) (sets sets' : List (Finset String)) (result : Finset String) : Prop where
  same : List.Forall₂ (fun s s' => (∀ a ∈ s', (t.pos a).isSome) ∧
    ∀ a, (t.pos a).isSome → (InChain ev t s' a ↔ InChain ev t s a)) sets sets'
  difference : ∀ a, a ∈ result ↔ t.pos a = none ∧ (∃ s ∈ sets, InChain ev t s a) ∧ ¬ ∀ s ∈ sets, InChain ev t s a

variable {sets : List (Finset String)} {known : Finset String} {info : PendingInfo}

theorem pending_of_edge (h : Covered ev t roomId sets) (hs : s ∈ sets) {b : String} (hb : InChain ev t s b)
    (hnone : t.pos b = none) (hedge : t.Auth ev b a) : b ∈ t.pendingIn ev roomId := by
  rcases h.ancestors s hs b hb with hsome | hpend | hnil
  · rw [hnone] at hsome
    cases hsome
  · exact hpend
  · exact absurd (hnil ▸ hedge : a ∈ []) not_mem_nil

theorem step_of_chain (h : Covered ev t roomId sets) (hinfo : PendingKnown ev t roomId known info) (hs : s ∈ sets)
    (he : e ∈ s) (hpath : ReflTransGen (t.Auth ev) e a) (ha : t.pos a = none) : ReflTransGen (Step info.succ) e a := by
  induction hpath with
  | refl => exact .refl
  | tail hpath hedge ih =>
    rename_i b a
    have hb := none_of_chain h.exact (.single hedge) ha
    exact (ih hb).tail ((hinfo.succ b a).mpr ⟨pending_of_edge h hs ⟨e, he, hpath⟩ hb hedge, hedge⟩)

theorem chain_of_step (hinfo : PendingKnown ev t roomId known info)
    (hpath : ReflTransGen (Step info.succ) e a) : ReflTransGen (t.Auth ev) e a :=
  ReflTransGen.mono (fun b a hstep => ((hinfo.succ b a).mp hstep).2) _ _ hpath

theorem first_indexed (h : Covered ev t roomId sets) (hinfo : PendingKnown ev t roomId known info) (hs : s ∈ sets)
    (he : e ∈ s) (hnone : t.pos e = none) (hpath : ReflTransGen (t.Auth ev) e a) (ha : (t.pos a).isSome) :
    ∃ x, (t.pos x).isSome ∧ TransGen (Step info.succ) e x ∧ ReflTransGen (t.Auth ev) x a := by
  induction hpath with
  | refl =>
    rw [hnone] at ha
    cases ha
  | tail hpath hedge ih =>
    rename_i b a
    cases hb : t.pos b with
    | some p =>
      obtain ⟨x, hx, hex, hxb⟩ := ih (by rw [hb]; rfl)
      exact ⟨x, hx, hex, hxb.tail hedge⟩
    | none =>
      have hstep : Step info.succ b a :=
        (hinfo.succ b a).mpr ⟨pending_of_edge h hs ⟨e, he, hpath⟩ hb hedge, hedge⟩
      exact ⟨a, ha, .tail' (step_of_chain h hinfo hs he hpath hb) hstep, .refl⟩

theorem mem_index (hinfo : PendingKnown ev t roomId known info)
    (hknown : ∀ a, a ∈ known ↔ (t.pos a).isSome ∧ ∃ s ∈ sets, a ∈ s)
    (ha : (∃ s ∈ sets, a ∈ s) ∨ ∃ e, TransGen (Step info.succ) e a) :
    a ∈ info.eventsThatHaveChainIndex ↔ (t.pos a).isSome := by
  rw [hinfo.index, hknown]
  constructor
  · rintro (hsome | hsome)
    · exact hsome.1
    · exact hsome.1
  intro hsome
  rcases ha with hmem | ⟨e, hpath⟩
  · exact .inl ⟨hsome, hmem⟩
  · obtain ⟨b, _, hstep⟩ := TransGen.tail'_iff.mp hpath
    obtain ⟨hpend, hauth⟩ := (hinfo.succ b a).mp hstep
    exact .inr ⟨hsome, b, hpend, hauth⟩

theorem fixed_set (h : Covered ev t roomId sets) (hinfo : PendingKnown ev t roomId known info)
    (hknown : ∀ a, a ∈ known ↔ (t.pos a).isSome ∧ ∃ s ∈ sets, a ∈ s) (hs : s ∈ sets) :
    let r := (partialAuthChains o info sets).foldl (replaceUnindexed info.eventsThatHaveChainIndex) (s, ∅)
    ((∀ a ∈ r.1, (t.pos a).isSome) ∧ ∀ a, (t.pos a).isSome → (InChain ev t r.1 a ↔ InChain ev t s a)) ∧
      ∀ a, a ∈ r.2 ↔ t.pos a = none ∧ InChain ev t s a := by
  have hindex := fun {a} => mem_index (a := a) hinfo hknown
  have hout : ∀ {a}, (∃ s ∈ sets, a ∈ s) ∨ (∃ e, TransGen (Step info.succ) e a) →
      (a ∉ info.eventsThatHaveChainIndex ↔ t.pos a = none) := by
    intro a ha
    rw [hindex ha, Bool.not_eq_true, Option.isSome_eq_false_iff, Option.isNone_iff_eq_none]
  have hchains : ∀ e ∈ partialAuthChains o info sets, Replaces info e := by
    intro e he
    obtain ⟨id, hid, rfl⟩ := mem_map.mp he
    obtain ⟨hkey, hany⟩ := mem_filter.mp hid
    have hpend := (hinfo.keys id).mp (Finmap.mem_keys.mp ((o.strings.mem _ _).mp hkey))
    obtain ⟨s', hs', hmem⟩ := any_eq_true.mp hany
    exact ⟨mem_partialAuthChain id, (hout (.inl ⟨s', hs', of_decide_eq_true hmem⟩)).mpr (h.pending id hpend)⟩
  have hpath : ∀ e ∈ s, ∀ a, ReflTransGen (Step info.succ) e a →
      (a ∉ info.eventsThatHaveChainIndex ↔ t.pos a = none) := by
    intro e he a hpath
    rcases reflTransGen_iff_eq_or_transGen.mp hpath with rfl | hpath
    · exact hout (.inl ⟨s, hs, he⟩)
    · exact hout (.inr ⟨e, hpath⟩)
  have hall : ∀ e ∈ s, e ∉ info.eventsThatHaveChainIndex → e ∈ (partialAuthChains o info sets).map Prod.fst := by
    intro e he hnot
    have hnone := (hout (.inl ⟨s, hs, he⟩)).mp hnot
    have hpend := (h.members s hs e he).resolve_left (by simp [hnone])
    refine mem_map.mpr ⟨_, mem_map.mpr ⟨e, mem_filter.mpr ⟨?_, ?_⟩, rfl⟩, rfl⟩
    · exact (o.strings.mem _ _).mpr (Finmap.mem_keys.mpr ((hinfo.keys e).mpr hpend))
    · exact any_eq_true.mpr ⟨s, hs, decide_eq_true he⟩
  obtain ⟨hleft, hright⟩ := replaced hchains hall
  refine ⟨⟨fun a ha => ?_, fun a ha => ⟨?_, ?_⟩⟩, fun a => ?_⟩
  · obtain ⟨hin, hs' | ⟨e, _, _, hpath⟩⟩ := (hleft a).mp ha
    · exact (hindex (.inl ⟨s, hs, hs'⟩)).mp hin
    · exact (hindex (.inr ⟨e, hpath⟩)).mp hin
  · rintro ⟨x, hx, hxa⟩
    obtain ⟨_, hxs | ⟨e, he, _, hpath⟩⟩ := (hleft x).mp hx
    · exact ⟨x, hxs, hxa⟩
    · exact ⟨e, he, (chain_of_step hinfo hpath.to_reflTransGen).trans hxa⟩
  · rintro ⟨e, he, hea⟩
    cases hpos : t.pos e with
    | some p =>
      refine ⟨e, (hleft e).mpr ⟨(hindex (.inl ⟨s, hs, he⟩)).mpr (by rw [hpos]; rfl), .inl he⟩, hea⟩
    | none =>
      obtain ⟨x, hx, hex, hxa⟩ := first_indexed h hinfo hs he hpos hea ha
      exact ⟨x, (hleft x).mpr ⟨(hindex (.inr ⟨e, hex⟩)).mpr hx, .inr ⟨e, he, (hpath e he e .refl).mpr hpos, hex⟩⟩, hxa⟩
  · rw [hright]
    constructor
    · rintro ⟨hnot, e, he, -, hea⟩
      exact ⟨(hpath e he a hea).mp hnot, e, he, chain_of_step hinfo hea⟩
    · rintro ⟨hnone, e, he, hea⟩
      have hstep := step_of_chain h hinfo hs he hea hnone
      exact ⟨(hpath e he a hstep).mpr hnone, e, he, (hpath e he e .refl).mpr (none_of_chain h.exact hea hnone), hstep⟩

theorem prepared_self (h : Exact (t.eventAuth ev) t.pos t.links) (hall : ∀ s ∈ sets, ∀ a ∈ s, (t.pos a).isSome) :
    Prepared ev t sets sets ∅ where
  same := forall₂_same.mpr fun s hs => ⟨hall s hs, fun _ _ => Iff.rfl⟩
  difference a := by
    refine iff_of_false (notMem_empty a) ?_
    rintro ⟨hnone, ⟨s, hs, e, he, hpath⟩, _⟩
    have hsome := hall s hs e he
    rw [none_of_chain h hpath hnone] at hsome
    cases hsome

theorem fixup_ok (h : Covered ev t roomId (first :: rest))
    (hknown : ∀ a, a ∈ known ↔ (t.pos a).isSome ∧ ∃ s ∈ first :: rest, a ∈ s) {missing : Finset String}
    (hmissing : ∀ a ∈ missing, t.pos a = none ∧ ∃ s ∈ first :: rest, a ∈ s) :
    ∃ sets result, fixupAuthChainDifferenceSets ev t o roomId first rest missing known = .ok (sets, result) ∧
      Prepared ev t (first :: rest) (sets.1 :: sets.2) result := by
  have hinfo : PendingKnown ev t roomId known _ := pendingKnown o known
  unfold fixupAuthChainDifferenceSets
  generalize (o.rows (selectPending ev t roomId)).foldl PendingInfo.add ⟨∅, known⟩ = info at hinfo
  have hpend : missing \ info.eventToAuthIds.keys = ∅ := by
    refine sdiff_eq_empty_iff_subset.mpr fun a ha => ?_
    obtain ⟨hnone, s, hs, hmem⟩ := hmissing a ha
    exact Finmap.mem_keys.mpr ((hinfo.keys a).mpr ((h.members s hs a hmem).resolve_left (by simp [hnone])))
  have hfixed := fun s (hs : s ∈ first :: rest) => fixed_set (o := o) h hinfo hknown hs
  simp only [hpend]
  refine ⟨_, _, rfl, ⟨.cons (hfixed first List.mem_cons_self).1 (List.forall₂_map_right_iff.mpr
    (List.forall₂_same.mpr fun s hs => (hfixed s (List.mem_cons_of_mem _ hs)).1)), fun a => ?_⟩⟩
  rw [mem_sdiff, mem_unionAll, mem_interAll, ← List.map_cons (f := fun s => ((partialAuthChains o info
    (first :: rest)).foldl (replaceUnindexed info.eventsThatHaveChainIndex) (s, ∅)).2)]
  simp only [List.mem_map, exists_exists_and_eq_and, forall_exists_index, and_imp, forall_apply_eq_imp_iff₂]
  constructor
  · rintro ⟨⟨s, hs, hmem⟩, hnot⟩
    obtain ⟨hnone, hin⟩ := ((hfixed s hs).2 a).mp hmem
    exact ⟨hnone, ⟨s, hs, hin⟩, fun hall => hnot fun s' hs' => ((hfixed s' hs').2 a).mpr ⟨hnone, hall s' hs'⟩⟩
  · rintro ⟨hnone, ⟨s, hs, hin⟩, hnot⟩
    exact ⟨⟨s, hs, ((hfixed s hs).2 a).mpr ⟨hnone, hin⟩⟩,
      fun hall => hnot fun s' hs' => (((hfixed s' hs').2 a).mp (hall s' hs')).2⟩

theorem prepare_ok (h : Covered ev t roomId (first :: rest)) :
    ∃ sets result info events, prepare ev t o roomId first rest = .ok (sets, result, info) ∧
      Fetched t info events ∧ (∀ s ∈ sets.1 :: sets.2, s ⊆ events) ∧
      Prepared ev t (first :: rest) (sets.1 :: sets.2) result := by
  obtain ⟨info, hdef⟩ : ∃ info, fetchChainInfo t o .empty (unionAll first rest) = info := ⟨_, rfl⟩
  have hfetched : Fetched t info (unionAll first rest) := by
    have := fetchChainInfo_fetched o (fetched_empty (t := t)) (unionAll first rest)
    rwa [empty_union, hdef] at this
  have hinfo : ∀ a, a ∈ info.chainInfo ↔ (t.pos a).isSome ∧ ∃ s ∈ first :: rest, a ∈ s := by
    intro a
    rw [Finmap.mem_iff, ← Option.isSome_iff_exists, hfetched.chainInfo, ← mem_unionAll]
    by_cases hmem : a ∈ unionAll first rest
    · simp [hmem]
    · simp [hmem]
  by_cases hmissing : (unionAll first rest).filter (· ∉ info.chainInfo) = ∅
  · refine ⟨(first, rest), ∅, info, unionAll first rest, ?_, hfetched, fun s hs a ha => mem_unionAll.mpr ⟨s, hs, ha⟩,
      prepared_self h.exact fun s hs a ha => ?_⟩
    · show (if _ then _ else _) = _
      rw [hdef, if_pos hmissing]
      rfl
    · have hall := filter_eq_empty_iff.mp hmissing (mem_unionAll.mpr ⟨s, hs, ha⟩)
      exact ((hinfo a).mp (not_not.mp hall)).1
  · have hout : ∀ a ∈ (unionAll first rest).filter (· ∉ info.chainInfo),
        t.pos a = none ∧ ∃ s ∈ first :: rest, a ∈ s := by
      intro a ha
      obtain ⟨hmem, hnot⟩ := mem_filter.mp ha
      refine ⟨?_, mem_unionAll.mp hmem⟩
      by_contra hne
      exact hnot ((hinfo a).mpr ⟨Option.isSome_iff_ne_none.mpr hne, mem_unionAll.mp hmem⟩)
    obtain ⟨sets, result, hfix, hprep⟩ := fixup_ok h (fun a => Finmap.mem_keys.trans (hinfo a)) hout
    refine ⟨sets, result, _, _, ?_, fetchChainInfo_fetched o hfetched
      ((unionAll sets.1 sets.2).filter (· ∉ unionAll first rest)), fun s hs a ha => ?_, hprep⟩
    · show (if _ then _ else _) = _
      rw [hdef, if_neg hmissing]
      rw [hfix]
      rfl
    · by_cases hold : a ∈ unionAll first rest
      · exact mem_union_left _ hold
      · exact mem_union_right _ (mem_filter.mpr ⟨mem_unionAll.mpr ⟨s, hs, ha⟩, hold⟩)

end Prepare

end Synapse.AuthChain
