import Mathlib.Algebra.Order.BigOperators.Group.Finset
import Synapse.Lib.Greedy
import Synapse.Lib.Runs
import Synapse.StateRes.Store

/-!
# Synapse.StateRes.PowerSort — `_reverse_topological_power_sort`

The power events of the full conflicted set, with what they reach in it through auth events, in the order in which the
auth rules are applied to them.

* `powerGraph_outcome`: the graph is the one of the reachable events, whatever the order of the searches.
* `lexicographicalTopologicalSort_ok`: the sort takes the least available node at each step.
* `reverseTopologicalPowerSort_outcome`: the outcome of the whole does not depend on any order of iteration.
-/

namespace Synapse.StateRes

open Lib List Option Finmap Greedy EventTypes
open Query hiding pure

/-! ## The graph -/

def isPowerEvent (event : Event) : Except Exc Bool := do
  let stateKey ← event.stateKeyAttr
  if (event.type, stateKey) ∈ [(powerLevels, ""), (joinRules, ""), (create, "")] then
    pure true
  else if event.type = member then do
    let membership ← event.membership
    pure ((membership.eqStr "leave" || membership.eqStr "ban") && event.sender != stateKey)
  else pure false

/-- `graph.setdefault(key, set())` -/
def setdefault (graph : Graph) (key : String) : Graph := if key ∈ graph then graph else graph.insert key ∅

/-- `graph.setdefault(key, set()).add(value)` -/
def addEdge (graph : Graph) (key value : String) : Graph :=
  graph.insert key (insert value ((graph.lookup key).getD ∅))

/-- The inner loop of `_add_event_and_auth_chain_to_graph`: the graph and what is pushed on the stack. -/
def addAuthEdge (fullConflictedSet : Finset String) (eid : String) (acc : Graph × List String) (aid : String) :
    Graph × List String :=
  if aid ∈ fullConflictedSet then
    (addEdge acc.1 eid aid, if aid ∈ acc.1 then acc.2 else acc.2 ++ [aid])
  else acc

/-- The body of its `while` loop. -/
def visitEvent (roomId : String) (fullConflictedSet : Finset String) (eid : String) (graph : Graph) :
    Fetch (Graph × List String) := do
  let event ← getEvent roomId eid
  pure (event.authEventIds.foldl (addAuthEdge fullConflictedSet eid) (setdefault graph eid, []))

def addEventAndAuthChainToGraph (fuel : ℕ) (roomId : String) (fullConflictedSet : Finset String) (graph : Graph)
    (eventId : String) : Fetch Graph :=
  worklist (.halt .outOfFuel) (visitEvent roomId fullConflictedSet) fuel [eventId] graph

/-- An event of the full conflicted set, if `power_events` yields it. -/
def addPowerEvent (fuel : ℕ) (roomId : String) (fullConflictedSet : Finset String) (graph : Graph) (eid : String) :
    Fetch Graph := do
  let event ← eventMapItem eid
  let power ← .lift (isPowerEvent event)
  if power then addEventAndAuthChainToGraph fuel roomId fullConflictedSet graph eid else pure graph

/-- The first loop of `_reverse_topological_power_sort`, over the generator `power_events`. -/
def powerGraph (o : Orders) (fuel : ℕ) (roomId : String) (fullConflictedSet : Finset String) : Fetch Graph :=
  (o.ids .powerEvents fullConflictedSet).foldlM (addPowerEvent fuel roomId fullConflictedSet) ∅

/-! ## The level of a sender -/

/-- `for aid in auth_events: ...; if ev and (ev.type, ev.state_key) == key: ...; break` -/
def findAuthEvent (roomId : String) (key : StateKey) : List String → Fetch (Option (String × Event))
  | [] => pure none
  | aid :: rest => do
    match ← getEvent? roomId aid with
    | none => findAuthEvent roomId key rest
    | some event => do
      let stateKey ← .lift event.stateKeyAttr
      if (event.type, stateKey) = key then pure (some (aid, event)) else findAuthEvent roomId key rest

def getPowerLevelForSender (roomId eventId : String) : Fetch Int := do
  let event ← getEvent roomId eventId
  match ← findAuthEvent roomId (powerLevels, "") event.authEventIds with
  | some (_, pl) => .lift (EventAuth.contentUserLevel pl event.sender)
  | none =>
    match ← findAuthEvent roomId (create, "") event.authEventIds with
    | some (_, create) => pure (if (create.contentGet "creator" .null).eqStr event.sender then 100 else 0)
    | none => pure 0

/-! ## The sort -/

section Kahn

variable {κ : Type} [LinearOrder κ]

/-- The body of the first loop of `lexicographical_topological_sort`: `reverse_graph` and `zero_outdegree`. -/
def sortNode (o : Orders) (graph : Graph) (key : String → Fetch κ) (acc : Graph × List (κ ×ₗ String)) (node : String) :
    Fetch (Graph × List (κ ×ₗ String)) := do
  let edges := (graph.lookup node).getD ∅
  let reverse := (o.ids (.edges node) edges).foldl (fun r edge => addEdge r edge node) (setdefault acc.1 node)
  if edges = ∅ then do
    let k ← key node
    pure (reverse, acc.2 ++ [toLex (k, node)])
  else pure (reverse, acc.2)

/-- The inner loop: `out.discard(node)`, and the parent is queued when nothing is left. -/
def discardEdge (key : String → Fetch κ) (node : String) (acc : Graph × List (κ ×ₗ String)) (parent : String) :
    Fetch (Graph × List (κ ×ₗ String)) := do
  let out ← .lift (item acc.1 parent)
  let outdegree := acc.1.insert parent (out.erase node)
  if out.erase node = ∅ then do
    let k ← key parent
    pure (outdegree, toLex (k, parent) :: acc.2)
  else pure (outdegree, acc.2)

/-- The `while` loop, with what it yields. -/
def sortLoop (o : Orders) (key : String → Fetch κ) (reverse : Graph) :
    ℕ → Graph → List (κ ×ₗ String) → Fetch (List String)
  | fuel, outdegree, heap =>
    match heappop heap with
    | none => pure []
    | some (least, heap) =>
      let node := (ofLex least).2
      match fuel with
      | 0 => .halt .outOfFuel
      | fuel + 1 => do
        let parents ← .lift (item reverse node)
        let (outdegree, heap) ← (o.ids (.parents node) parents).foldlM (discardEdge key node) (outdegree, heap)
        let rest ← sortLoop o key reverse fuel outdegree heap
        pure (node :: rest)

/-- `list(lexicographical_topological_sort(graph, key))` -/
def lexicographicalTopologicalSort (o : Orders) (fuel : ℕ) (graph : Graph) (key : String → Fetch κ) :
    Fetch (List String) := do
  let (reverse, heap) ← (o.ids .nodes graph.keys).foldlM (sortNode o graph key) (∅, [])
  sortLoop o key reverse fuel graph heap

end Kahn

def getPowerOrder (eventToPl : Finmap fun _ : String => Int) (eventId : String) : Fetch (ℤ ×ₗ ℤ ×ₗ String) := do
  let event ← eventMapItem eventId
  let pl ← .lift (item eventToPl eventId)
  pure (toLex (-pl, toLex (event.originServerTs, eventId)))

/-- The part of `_reverse_topological_power_sort` after the graph. -/
def sortGraph (o : Orders) (fuel : ℕ) (roomId : String) (graph : Graph) : Fetch (List String) := do
  let eventToPl ← collect (getPowerLevelForSender roomId) (o.ids .graph graph.keys)
  lexicographicalTopologicalSort o fuel graph (getPowerOrder eventToPl)

def reverseTopologicalPowerSort (o : Orders) (fuel : ℕ) (roomId : String) (fullConflictedSet : Finset String) :
    Fetch (List String) := do
  let graph ← powerGraph o fuel roomId fullConflictedSet
  sortGraph o fuel roomId graph

/-- `_reverse_topological_power_sort` with its argument `event_ids`. -/
def reverseTopologicalPowerSortOf (o : Orders) (fuel : ℕ) (roomId : String) (fullConflictedSet : Finset String)
    (eventIds : List String) : Fetch (List String) := do
  let graph ← eventIds.foldlM (addEventAndAuthChainToGraph fuel roomId fullConflictedSet) ∅
  sortGraph o fuel roomId graph

/-! ## The graph is that of the reachable events -/

section Graph

variable {env : Env} {cost : String → ℕ} {full : Finset String}

/-- The auth events of an event that are in the full conflicted set. -/
def authIn (env : Env) (full : Finset String) (id : String) : Finset String :=
  (env.authIds id).toFinset.filter (· ∈ full)

/-- `b` is reached from `a` through auth events in the full conflicted set. -/
def Reaches (env : Env) (full : Finset String) : String → String → Prop :=
  Relation.ReflTransGen fun a b => b ∈ authIn env full a

theorem mem_authIn {a b : String} : b ∈ authIn env full a ↔ b ∈ env.authIds a ∧ b ∈ full := by
  simp [authIn]

variable {g : Graph} {k y : String}

theorem mem_setdefault : y ∈ setdefault g k ↔ y = k ∨ y ∈ g := by
  unfold setdefault
  split
  · rename_i h
    exact ⟨.inr, fun h' => h'.elim (· ▸ h) id⟩
  · rw [mem_insert]

theorem lookup_setdefault_self : (setdefault g k).lookup k = some ((g.lookup k).getD ∅) := by
  unfold setdefault
  split
  · rename_i h
    obtain ⟨s, hs⟩ := mem_iff.mp h
    rw [hs]
    rfl
  · rename_i h
    rw [lookup_insert, lookup_eq_none.mpr h]
    rfl

theorem lookup_setdefault_of_ne (h : y ≠ k) : (setdefault g k).lookup y = g.lookup y := by
  unfold setdefault
  split
  · rfl
  · exact lookup_insert_of_ne _ h

theorem mem_addEdge {v : String} : y ∈ addEdge g k v ↔ y = k ∨ y ∈ g := mem_insert

/-- The inner loop: only the edges of the event change, and the auth events that are not nodes yet are pushed. -/
theorem foldl_addAuthEdge (full : Finset String) {eid : String} (ids : List String) (hg : eid ∈ g) :
    let r := ids.foldl (addAuthEdge full eid) (g, [])
    (∀ y, y ∈ r.1 ↔ y ∈ g) ∧ (∀ y, y ≠ eid → r.1.lookup y = g.lookup y) ∧
      r.1.lookup eid = some ((g.lookup eid).getD ∅ ∪ ids.toFinset.filter (· ∈ full)) ∧
      r.2 = ids.filter (fun a => a ∈ full ∧ a ∉ g) := by
  induction ids using reverseRecOn with
  | nil =>
    obtain ⟨s, hs⟩ := mem_iff.mp hg
    simp [hs]
  | append_singleton ids aid ih =>
    obtain ⟨h1, h2, h3, h4⟩ := ih
    rw [foldl_append, foldl_cons, foldl_nil, addAuthEdge]
    by_cases haid : aid ∈ full
    · rw [if_pos haid]
      refine ⟨fun y => ?_, fun y hy => (lookup_insert_of_ne _ hy).trans (h2 y hy), ?_, ?_⟩
      · rw [mem_addEdge, h1]
        exact ⟨fun h => h.elim (· ▸ hg) id, .inr⟩
      · simp [addEdge, h3, haid, Finset.filter_insert]
      · by_cases hin : aid ∈ g <;> simp [hin, haid, h1, h4]
    · rw [if_neg haid]
      exact ⟨h1, h2, by simp [h3, haid, Finset.filter_insert], by simp [h4, haid]⟩

/-- The events of the full conflicted set are known, and they are in the room. -/
def AllInRoom (env : Env) (full : Finset String) : Prop :=
  ∀ id ∈ full, ∃ e, env.look id = some e ∧ e.roomId = env.roomId

variable {e : Event}

theorem eval_getEvent {id : String} (he : env.look id = some e) (hroom : e.roomId = env.roomId) :
    eval env.look (getEvent env.roomId id) = .ok e := by
  simp only [getEvent, eval, he, checkRoom, hroom]
  rfl

theorem eval_eventMapItem {id : String} (he : env.look id = some e) : eval env.look (eventMapItem id) = .ok e := by
  simp only [eventMapItem, eval, he]
  rfl

/-- The nodes of the graph have their edges. -/
def Edges (env : Env) (full : Finset String) (g : Graph) : Prop := ∀ y s, g.lookup y = some s → s = authIn env full y

variable {x : String}

def IsPower (env : Env) (id : String) : Prop := ∃ e, env.look id = some e ∧ isPowerEvent e = .ok true

theorem graph_ext {g' : Graph} (hg : Edges env full g) (hg' : Edges env full g') (h : ∀ y, y ∈ g ↔ y ∈ g') :
    g = g' := by
  refine ext_lookup fun y => ?_
  cases hy : g.lookup y with
  | none =>
    have : y ∉ g' := fun h' => (lookup_eq_none.mp hy) ((h y).mpr h')
    rw [lookup_eq_none.mpr this]
  | some s =>
    obtain ⟨s', hs'⟩ := mem_iff.mp ((h y).mp (mem_iff.mpr ⟨s, hy⟩))
    rw [hs', hg y s hy, hg' y s' hs']

theorem Reaches.mem_full (h : Reaches env full x y) (hx : x ∈ full) : y ∈ full := by
  induction h with
  | refl => exact hx
  | tail _ hab _ => exact (mem_authIn.mp hab).2

/-- The graph holds what some events reach. -/
structure Searched (env : Env) (full : Finset String) (starts : List String) (g : Graph) : Prop where
  edges : Edges env full g
  mem : ∀ y, y ∈ g ↔ ∃ p ∈ starts, Reaches env full p y

theorem Searched.empty : Searched env full [] ∅ :=
  ⟨fun y s h => by simp at h, fun y => by simp [notMem_empty]⟩

variable {starts : List String}

theorem Searched.closed (h : Searched env full starts g) {a : String} (hy : y ∈ g)
    (ha : a ∈ authIn env full y) : a ∈ g := by
  obtain ⟨p, hp, hpy⟩ := (h.mem y).mp hy
  exact (h.mem a).mpr ⟨p, hp, hpy.tail ha⟩

theorem Searched.mem_full (h : Searched env full starts g)
    (hstarts : ∀ x ∈ starts, x ∈ full) (hy : y ∈ g) : y ∈ full := by
  obtain ⟨p, hp, hpy⟩ := (h.mem y).mp hy
  exact hpy.mem_full (hstarts p hp)

theorem addPowerEvent_raised (he : env.look x = some e) {err : Exc}
    (hb : isPowerEvent e = .error err) (g : Graph) (fuel : ℕ) :
    outcome (eval env.look (addPowerEvent fuel env.roomId full g x)) = some none := by
  rw [addPowerEvent, eval_bind, eval_eventMapItem he]
  show outcome (eval env.look (lift (isPowerEvent e) >>= _)) = _
  rw [hb]
  rfl

variable {fuel : ℕ} (hcost : env.Pays cost) (hfull : AllInRoom env full)
include hcost hfull

theorem visitEvent_ok (hx : x ∈ full) (hg : Edges env full g) :
    ∃ g' pushed, eval env.look (visitEvent env.roomId full x g) = .ok (g', pushed) ∧ Edges env full g' ∧
      (∀ y, y ∈ g' ↔ y = x ∨ y ∈ g) ∧ (∀ y, y ∈ pushed ↔ y ∈ authIn env full x ∧ y ≠ x ∧ y ∉ g) ∧
      (pushed.map cost).sum < cost x := by
  obtain ⟨e, he, hroom⟩ := hfull x hx
  have hids := Env.authIds_of_look he
  obtain ⟨h1, h2, h3, h4⟩ := foldl_addAuthEdge full e.authEventIds (mem_setdefault.mpr (.inl rfl))
  refine ⟨_, (e.authEventIds.foldl (addAuthEdge full x) (setdefault g x, [])).2, ?_, ?_,
    fun y => (h1 y).trans mem_setdefault, fun y => ?_, ?_⟩
  · rw [visitEvent, eval_bind, eval_getEvent he hroom]
    rfl
  · intro y s hs
    by_cases hy : y = x
    · subst hy
      rw [h3, lookup_setdefault_self] at hs
      have hauth : authIn env full y = e.authEventIds.toFinset.filter (· ∈ full) := by rw [authIn, hids]
      cases hold : g.lookup y with
      | none => simpa [hold, hauth, eq_comm] using hs
      | some s' => simpa [hold, hg y s' hold, hauth, eq_comm] using hs
    · rw [h2 y hy, lookup_setdefault_of_ne hy] at hs
      exact hg y s hs
  · rw [h4, mem_authIn, hids]
    simp [mem_setdefault, and_assoc]
  · rw [h4]
    exact ((filter_sublist.map cost).sum_le_sum fun _ _ => Nat.zero_le _).trans_lt (hids ▸ hcost x)

theorem addEventAndAuthChainToGraph_ok (hx : x ∈ full) (hg : Edges env full g)
    (hclosed : ∀ y ∈ g, ∀ a ∈ authIn env full y, a ∈ g) (hfuel : cost x ≤ fuel) :
    ∃ g', eval env.look (addEventAndAuthChainToGraph fuel env.roomId full g x) = .ok g' ∧ Edges env full g' ∧
      ∀ y, y ∈ g' ↔ y ∈ g ∨ Reaches env full x y := by
  -- what is on the stack is reached from `x`, and what the nodes need is in the graph or on the stack
  let Inv (stack : List String) (g' : Graph) : Prop := Edges env full g' ∧ (∀ y ∈ g, y ∈ g') ∧
    (∀ y ∈ g', y ∈ g ∨ Reaches env full x y) ∧ (∀ y ∈ stack, y ∈ full ∧ Reaches env full x y) ∧
    (∀ y ∈ g', ∀ a ∈ authIn env full y, a ∈ g' ∨ a ∈ stack) ∧ (x ∈ g' ∨ x ∈ stack)
  have hrun : ∃ g', eval env.look (addEventAndAuthChainToGraph fuel env.roomId full g x) = .ok g' ∧ Inv [] g' := by
    rw [addEventAndAuthChainToGraph, eval_worklist]
    refine worklist_total Inv cost (fun z stack g₁ hinv => ?_) fuel [x] g ?_ (by simpa using hfuel)
    · obtain ⟨he, hsub, hreach, hstack, hneed, hroot⟩ := hinv
      obtain ⟨hz, hxz⟩ := hstack z (by simp)
      obtain ⟨g₂, pushed, hvisit, he', hmem, hpushed, hsum⟩ := visitEvent_ok hcost hfull hz he
      refine ⟨g₂, pushed, hvisit, ⟨he', fun y hy => (hmem y).mpr (.inr (hsub y hy)), fun y hy => ?_, fun y hy => ?_,
        fun y hy a ha => ?_, ?_⟩, hsum⟩
      · rcases (hmem y).mp hy with rfl | hy
        · exact .inr hxz
        · exact hreach y hy
      · rcases mem_append.mp hy with hy | hy
        · have hya := ((hpushed y).mp (mem_reverse.mp hy)).1
          exact ⟨(mem_authIn.mp hya).2, hxz.tail hya⟩
        · exact hstack y (by simp [hy])
      · by_cases hag : a ∈ g₂
        · exact .inl hag
        right
        rw [hmem, not_or] at hag
        rcases (hmem y).mp hy with rfl | hy
        · exact mem_append_left _ (mem_reverse.mpr ((hpushed a).mpr ⟨ha, hag.1, hag.2⟩))
        · rcases hneed y hy a ha with h | h
          · exact absurd h hag.2
          · exact mem_append_right _ ((mem_cons.mp h).resolve_left hag.1)
      · rcases hroot with h | h
        · exact .inl ((hmem x).mpr (.inr h))
        · rcases mem_cons.mp h with rfl | h
          · exact .inl ((hmem x).mpr (.inl rfl))
          · exact .inr (mem_append_right _ h)
    · refine ⟨hg, fun y hy => hy, fun y hy => .inl hy, fun y hy => ?_, fun y hy a ha => .inl (hclosed y hy a ha),
        .inr (by simp)⟩
      rw [List.mem_singleton.mp hy]
      exact ⟨hx, .refl⟩
  obtain ⟨g', hrun, he, hsub, hreach, -, hneed, hroot⟩ := hrun
  have hin : ∀ y, Reaches env full x y → y ∈ g' := by
    intro y hxy
    induction hxy with
    | refl => simpa using hroot
    | tail _ hab ih => simpa using hneed _ ih _ hab
  exact ⟨g', hrun, he, fun y => ⟨hreach y, fun h => h.elim (hsub y) (hin y)⟩⟩

theorem Searched.add (h : Searched env full starts g) (hx : x ∈ full) (hfuel : cost x ≤ fuel) :
    ∃ g', eval env.look (addEventAndAuthChainToGraph fuel env.roomId full g x) = .ok g' ∧
      Searched env full (starts ++ [x]) g' := by
  obtain ⟨g', hrun, hg', hmem⟩ := addEventAndAuthChainToGraph_ok hcost hfull hx h.edges (fun y hy a ha => h.closed hy ha)
    hfuel
  refine ⟨g', hrun, hg', fun y => (hmem y).trans ?_⟩
  rw [h.mem]
  simp

open Classical in
theorem addPowerEvent_ok (hx : x ∈ full) (he : env.look x = some e)
    {b : Bool} (hb : isPowerEvent e = .ok b) {seen : List String}
    (h : Searched env full (seen.filter (IsPower env ·)) g) (hfuel : cost x ≤ fuel) :
    ∃ g', eval env.look (addPowerEvent fuel env.roomId full g x) = .ok g' ∧
      Searched env full ((seen ++ [x]).filter (IsPower env ·)) g' := by
  have heval : eval env.look (addPowerEvent fuel env.roomId full g x) =
      if b then eval env.look (addEventAndAuthChainToGraph fuel env.roomId full g x) else .ok g := by
    rw [addPowerEvent, eval_bind, eval_eventMapItem he]
    show eval env.look (lift (isPowerEvent e) >>= _) = _
    rw [hb, eval_bind]
    cases b <;> rfl
  have hpower : IsPower env x ↔ b = true := by simp [IsPower, he, hb]
  cases b with
  | false => exact ⟨g, heval, by simpa [hpower] using h⟩
  | true =>
    rw [heval]
    simpa [hpower] using h.add hcost hfull hx hfuel

/-- **The graph does not depend on the order of the searches.** It has the events of the full conflicted set that a
power event reaches; an event that makes the power event test raise makes every run raise. -/
theorem powerGraph_outcome :
    ∃ v : Option Graph, (∀ g, v = some g → ∃ starts, (∀ x ∈ starts, x ∈ full) ∧ Searched env full starts g) ∧
      ∀ o fuel, (∀ id ∈ full, cost id ≤ fuel) →
        outcome (eval env.look (powerGraph o fuel env.roomId full)) = some v := by
  classical
  have hrun : ∀ o fuel, (∀ id ∈ full, cost id ≤ fuel) →
      (∀ id ∈ full, ∀ e, env.look id = some e → ∃ b, isPowerEvent e = .ok b) →
      ∃ g, eval env.look (powerGraph o fuel env.roomId full) = .ok g ∧
        Searched env full ((o.ids .powerEvents full).filter (IsPower env ·)) g := by
    intro o fuel hfuel htest
    rw [powerGraph, eval_foldlM]
    refine foldlM_total (fun seen g => Searched env full (seen.filter (IsPower env ·)) g) .empty ?_
    intro seen x rest g hl hg
    have hx : x ∈ full := (o.mem_ids _).mp (by rw [hl]; simp)
    obtain ⟨e, he, -⟩ := hfull x hx
    obtain ⟨b, hb⟩ := htest x hx e he
    exact addPowerEvent_ok hcost hfull hx he hb hg (hfuel x hx)
  by_cases htest : ∀ id ∈ full, ∀ e, env.look id = some e → ∃ b, isPowerEvent e = .ok b
  · obtain ⟨g, -, hg⟩ := hrun .ascending (full.sum cost)
      (fun id hid => Finset.single_le_sum (fun _ _ => Nat.zero_le _) hid) htest
    refine ⟨some g, ?_, fun o fuel hfuel => ?_⟩
    · rintro _ ⟨⟩
      exact ⟨_, fun x hx => (Orders.mem_ids _ _).mp (mem_filter.mp hx).1, hg⟩
    · obtain ⟨g', hrun', hg'⟩ := hrun o fuel hfuel htest
      rw [hrun', graph_ext hg'.edges hg.edges fun y => by simp only [hg.mem, hg'.mem, mem_filter, Orders.mem_ids]]
      rfl
  · simp only [not_forall] at htest
    obtain ⟨id, hid, e, he, hbad⟩ := htest
    refine ⟨none, ⟨fun g h => absurd h (by simp), fun o fuel hfuel => ?_⟩⟩
    rw [powerGraph, eval_foldlM]
    refine outcome_foldlM_raised (fun g : Graph => ∃ seen : List String,
      Searched env full (seen.filter (IsPower env ·)) g) ⟨[], .empty⟩ ?_ ((o.mem_ids _).mpr hid) ?_
    · rintro g ⟨seen, hg⟩ x hx
      have hx := (o.mem_ids _).mp hx
      obtain ⟨e, he, -⟩ := hfull x hx
      cases hb : isPowerEvent e with
      | ok b =>
        obtain ⟨g', hrun, hg'⟩ := addPowerEvent_ok hcost hfull hx he hb hg (hfuel x hx)
        exact .inl ⟨g', hrun, _, hg'⟩
      | error err => exact .inr (addPowerEvent_raised he hb g fuel)
    · intro g _
      cases hb : isPowerEvent e with
      | ok b => exact absurd ⟨b, hb⟩ hbad
      | error err => exact addPowerEvent_raised he hb g fuel

end Graph

/-! ## Levels are found in every run -/

section Levels

variable {look : String → Option Event} {stop : Prop} {keys : Set String} {roomId : String}

theorem ensures_findAuthEvent (key : StateKey) (ids : List String) :
    (findAuthEvent roomId key ids).Ensures look stop keys fun r => ∀ p ∈ r, p.1 ∈ ids ∧ look p.1 = some p.2 := by
  induction ids with
  | nil => exact ensures_pure nofun
  | cons aid rest ih =>
    have hrest := ih.mono fun r hr p hp => (hr p hp).imp_left (mem_cons_of_mem aid)
    refine (ensures_getEvent? roomId aid).bind fun found hfound => ?_
    cases found with
    | none => exact hrest
    | some event =>
      refine (ensures_lift fun _ => id).bind fun stateKey _ => ?_
      split
      · refine ensures_pure ?_
        rintro _ ⟨⟩
        exact ⟨mem_cons_self, hfound event rfl⟩
      · exact hrest

theorem ensures_getPowerLevelForSender (id : String) :
    (getPowerLevelForSender roomId id).Ensures look stop keys fun _ => True := by
  refine (ensures_getEvent roomId id).bind fun event _ => (ensures_findAuthEvent _ _).bind fun found _ => ?_
  cases found with
  | some pl => exact ensures_lift fun _ _ => trivial
  | none =>
    refine (ensures_findAuthEvent _ _).bind fun found _ => ?_
    cases found <;> exact ensures_pure trivial

end Levels

/-! ## The sort takes the least available node -/

section Kahn

variable {κ : Type} {look : String → Option Event} {g : Graph} {key : String → Fetch κ} {kf : String → κ}

def needs (g : Graph) (x : String) : Finset String := (g.lookup x).getD ∅

def heapKey (kf : String → κ) (x : String) : κ ×ₗ String := toLex (kf x, x)

theorem heapKey_injective (kf : String → κ) : Function.Injective (heapKey kf) := fun _ _ h =>
  (Prod.mk.inj (toLex.injective h)).2

theorem needs_setdefault (g : Graph) (k y : String) : needs (setdefault g k) y = needs g y := by
  by_cases hy : y = k
  · subst hy
    simp [needs, lookup_setdefault_self]
  · simp only [needs, lookup_setdefault_of_ne hy]

theorem foldl_addEdge (node : String) (edges : List String) (r : Graph) (y : String) :
    (∀ p, p ∈ needs (edges.foldl (fun r edge => addEdge r edge node) r) y ↔ p ∈ needs r y ∨ (p = node ∧ y ∈ edges)) ∧
      (y ∈ edges.foldl (fun r edge => addEdge r edge node) r ↔ y ∈ r ∨ y ∈ edges) := by
  refine ⟨fun p => ?_, ?_⟩
  · rw [foldl_iff (P := fun r => p ∈ needs r y) (Q := fun edge => p = node ∧ y = edge) fun r edge => ?_]
    · simp [and_comm]
    by_cases hy : y = edge
    · subst hy
      simp [needs, addEdge, or_comm]
    · simp [needs, addEdge, hy]
  · rw [foldl_iff (P := (y ∈ ·)) (Q := (y = ·)) fun r edge => mem_addEdge.trans or_comm]
    simp

/-- The state of the `while` loop, after the nodes `taken` were yielded. -/
structure SortInv (g : Graph) (kf : String → κ) (taken : Finset String) (out : Graph) (heap : List (κ ×ₗ String)) :
    Prop where
  closed : ∀ y ∈ taken, needs g y ⊆ taken
  out : ∀ x ∈ g, out.lookup x = some (needs g x \ taken)
  nodup : heap.Nodup
  heap : ∀ p, p ∈ heap ↔ ∃ x ∈ available g.keys (needs g) taken, p = heapKey kf x

variable {taken : Finset String} {out : Graph}

variable {node : String} {parents : List String} (hkey : ∀ x ∈ g, eval look (key x) = .ok (kf x))
include hkey

theorem foldlM_sortNode (o : Orders) :
    ∃ reverse, eval look ((o.ids .nodes g.keys).foldlM (sortNode o g key) (∅, [])) =
        .ok (reverse, ((o.ids .nodes g.keys).filter (needs g · = ∅)).map (heapKey kf)) ∧
      ∀ y ∈ g, ∃ parents, reverse.lookup y = some parents ∧ ∀ p, p ∈ parents ↔ p ∈ g ∧ y ∈ needs g p := by
  have hrun : ∃ r, eval look ((o.ids .nodes g.keys).foldlM (sortNode o g key) (∅, [])) = .ok r ∧
      r.2 = ((o.ids .nodes g.keys).filter (needs g · = ∅)).map (heapKey kf) ∧ (∀ y ∈ o.ids .nodes g.keys, y ∈ r.1) ∧
      ∀ y p, p ∈ needs r.1 y ↔ p ∈ o.ids .nodes g.keys ∧ y ∈ needs g p := by
    rw [eval_foldlM]
    refine foldlM_total (fun seen (r : Graph × List (κ ×ₗ String)) =>
      r.2 = (seen.filter (needs g · = ∅)).map (heapKey kf) ∧ (∀ y ∈ seen, y ∈ r.1) ∧
      ∀ y p, p ∈ needs r.1 y ↔ p ∈ seen ∧ y ∈ needs g p) (by simp [needs]) ?_
    intro seen x rest r hl ⟨hheap, hin, hpar⟩
    have hx : x ∈ g := Finmap.mem_keys.mp ((o.mem_ids _).mp (by rw [hl]; simp))
    have hrev := foldl_addEdge x (o.ids (.edges x) (needs g x)) (setdefault r.1 x)
    have hin' : ∀ y ∈ seen ++ [x], y ∈ (o.ids (.edges x) (needs g x)).foldl (fun r edge => addEdge r edge x)
        (setdefault r.1 x) := by
      intro y hy
      rw [(hrev y).2, mem_setdefault]
      rcases mem_snoc.mp hy with hy | hy
      · exact .inl (.inr (hin y hy))
      · exact .inl (.inl hy)
    have hpar' : ∀ y p, p ∈ needs ((o.ids (.edges x) (needs g x)).foldl (fun r edge => addEdge r edge x)
        (setdefault r.1 x)) y ↔ p ∈ seen ++ [x] ∧ y ∈ needs g p := by
      intro y p
      rw [(hrev y).1, needs_setdefault, hpar, Orders.mem_ids, mem_snoc, or_and_right]
      exact or_congr_right ⟨fun ⟨hp, h⟩ => ⟨hp, hp ▸ h⟩, fun ⟨hp, h⟩ => ⟨hp, hp ▸ h⟩⟩
    show ∃ s', eval look (if needs g x = ∅ then _ else _) = _ ∧ _
    by_cases hedges : needs g x = ∅
    · refine ⟨(_, r.2 ++ [heapKey kf x]), ?_, by simp [hheap, hedges], hin', hpar'⟩
      rw [if_pos hedges, eval_bind, hkey x hx]
      rfl
    · refine ⟨(_, r.2), ?_, by simp [hheap, hedges], hin', hpar'⟩
      rw [if_neg hedges]
      rfl
  obtain ⟨⟨reverse, heap⟩, hrun, hheap, hin, hpar⟩ := hrun
  refine ⟨reverse, hheap ▸ hrun, fun y hy => ?_⟩
  obtain ⟨parents, hparents⟩ := mem_iff.mp (hin y ((o.mem_ids _).mpr (Finmap.mem_keys.mpr hy)))
  refine ⟨parents, hparents, fun p => ?_⟩
  have := hpar y p
  rwa [needs, hparents, getD_some, Orders.mem_ids, Finmap.mem_keys] at this

theorem foldlM_discardEdge (hout : ∀ x ∈ g, out.lookup x = some (needs g x \ taken)) (heap : List (κ ×ₗ String))
    (hpn : parents.Nodup) (hparents : ∀ p ∈ parents, p ∈ g) :
    ∃ r, eval look (parents.foldlM (discardEdge key node) (out, heap)) = .ok r ∧
      (∀ x ∈ g, r.1.lookup x = some (needs g x \ if x ∈ parents then insert node taken else taken)) ∧
      r.2 = ((parents.filter (needs g · ⊆ insert node taken)).map (heapKey kf)).reverse ++ heap := by
  rw [eval_foldlM]
  refine foldlM_total (fun seen (r : Graph × List (κ ×ₗ String)) =>
    (∀ x ∈ g, r.1.lookup x = some (needs g x \ if x ∈ seen then insert node taken else taken)) ∧
    r.2 = ((seen.filter (needs g · ⊆ insert node taken)).map (heapKey kf)).reverse ++ heap) ⟨by simpa using hout, rfl⟩ ?_
  intro seen x rest r hl ⟨hr, hheap⟩
  have hx : x ∈ g := hparents x (by simp [hl])
  have hxs : x ∉ seen := by
    rw [hl, nodup_append] at hpn
    exact fun h => hpn.2.2 x h x (by simp) rfl
  have hlook : r.1.lookup x = some (needs g x \ taken) := by rw [hr x hx, if_neg hxs]
  have herase : (needs g x \ taken).erase node = needs g x \ insert node taken := by
    ext y
    simp only [Finset.mem_erase, Finset.mem_sdiff, Finset.mem_insert]
    tauto
  have hout' : ∀ y ∈ g, (r.1.insert x (needs g x \ insert node taken)).lookup y =
      some (needs g y \ if y ∈ seen ++ [x] then insert node taken else taken) := by
    intro y hy
    by_cases hyx : y = x
    · subst hyx
      simp
    · rw [lookup_insert_of_ne _ hyx, hr y hy]
      simp [hyx]
  rw [discardEdge, item_ok.mpr hlook, eval_bind, eval_lift_ok]
  show ∃ s', eval look (if (needs g x \ taken).erase node = ∅ then _ else _) = _ ∧ _
  rw [herase]
  by_cases hsub : needs g x ⊆ insert node taken
  · refine ⟨(_, heapKey kf x :: r.2), ?_, hout', by simp [hheap, hsub]⟩
    rw [if_pos (Finset.sdiff_eq_empty_iff_subset.mpr hsub), eval_bind, hkey x hx]
    rfl
  · refine ⟨(_, r.2), ?_, hout', by simp [hheap, hsub]⟩
    rw [if_neg (mt Finset.sdiff_eq_empty_iff_subset.mp hsub)]
    rfl

theorem sortStep_ok {heap : List (κ ×ₗ String)} [DecidableEq (κ ×ₗ String)] (hinv : SortInv g kf taken out heap)
    (hnode : node ∈ available g.keys (needs g) taken) (hpn : parents.Nodup)
    (hparents : ∀ p, p ∈ parents ↔ p ∈ g ∧ node ∈ needs g p) :
    ∃ out' heap', eval look (parents.foldlM (discardEdge key node) (out, heap.erase (heapKey kf node))) =
      .ok (out', heap') ∧ SortInv g kf (insert node taken) out' heap' := by
  obtain ⟨-, htaken, hneeds⟩ := mem_available.mp hnode
  obtain ⟨⟨out', heap'⟩, hrun, hout', rfl⟩ := foldlM_discardEdge hkey hinv.out (heap.erase (heapKey kf node)) hpn
    fun p hp => ((hparents p).mp hp).1
  refine ⟨out', _, hrun, ⟨fun y hy => ?_, fun x hx => ?_, ?_, fun p => ?_⟩⟩
  · rcases Finset.mem_insert.mp hy with rfl | hy
    · exact hneeds.trans (Finset.subset_insert _ _)
    · exact (hinv.closed y hy).trans (Finset.subset_insert _ _)
  · rw [hout' x hx]
    by_cases hp : x ∈ parents
    · rw [if_pos hp]
    · -- the node is not among the edges of `x`
      have hnx : node ∉ needs g x := fun h => hp ((hparents x).mpr ⟨hx, h⟩)
      rw [if_neg hp, Finset.sdiff_insert_of_notMem hnx]
  · have hnew : ((parents.filter (needs g · ⊆ insert node taken)).map (heapKey kf)).Nodup :=
      (hpn.filter _).map (heapKey_injective kf)
    refine nodup_append.mpr ⟨nodup_reverse.mpr hnew, hinv.nodup.erase _, ?_⟩
    rintro p hp _ hp' rfl
    obtain ⟨x, hx, rfl⟩ := List.mem_map.mp (mem_reverse.mp hp)
    -- the parent waits for the node, so it was not available before
    obtain ⟨y, hy, hxy⟩ := (hinv.heap _).mp (mem_of_mem_erase hp')
    rw [← heapKey_injective kf hxy] at hy
    exact htaken ((mem_available.mp hy).2.2 ((hparents x).mp (mem_filter.mp hx).1).2)
  · simp only [mem_available_insert hnode hinv.closed]
    rw [mem_append, mem_reverse, List.mem_map, hinv.nodup.mem_erase_iff, hinv.heap]
    constructor
    · rintro (⟨x, hx, rfl⟩ | ⟨hne, x, hx, rfl⟩)
      · obtain ⟨hx, hsub⟩ := mem_filter.mp hx
        obtain ⟨hxg, hxn⟩ := (hparents x).mp hx
        exact ⟨x, .inr ⟨mem_keys.mpr hxg, hxn, of_decide_eq_true hsub⟩, rfl⟩
      · exact ⟨x, .inl ⟨hx, fun h => hne (by rw [h])⟩, rfl⟩
    · rintro ⟨x, ⟨hx, hne⟩ | ⟨hxg, hxn, hsub⟩, rfl⟩
      · exact .inr ⟨fun h => hne (heapKey_injective kf h), x, hx, rfl⟩
      · exact .inl ⟨x, mem_filter.mpr ⟨(hparents x).mpr ⟨mem_keys.mp hxg, hxn⟩, decide_eq_true hsub⟩, rfl⟩

variable [LinearOrder κ]

theorem sortLoop_ok (o : Orders) {reverse : Graph}
    (hreverse : ∀ y ∈ g, ∃ parents, reverse.lookup y = some parents ∧ ∀ p, p ∈ parents ↔ p ∈ g ∧ y ∈ needs g p)
    (fuel : ℕ) {heap : List (κ ×ₗ String)} (hinv : SortInv g kf taken out heap) (hfuel : (g.keys \ taken).card ≤ fuel) :
    ∃ l, eval look (sortLoop o key reverse fuel out heap) = .ok l ∧
      Greedy.Order g.keys (needs g) (heapKey kf) taken l := by
  induction fuel generalizing taken out heap with
  | zero =>
    -- everything is taken, so the heap is empty
    have hnone : available g.keys (needs g) taken = ∅ := by
      refine Finset.eq_empty_of_forall_notMem fun x hx => ?_
      obtain ⟨hxg, hxt, -⟩ := mem_available.mp hx
      have := Finset.card_pos.mpr ⟨x, Finset.mem_sdiff.mpr ⟨hxg, hxt⟩⟩
      omega
    have hheap : heap = [] := eq_nil_iff_forall_not_mem.mpr fun p hp => by
      obtain ⟨x, hx, -⟩ := (hinv.heap p).mp hp
      simp [hnone] at hx
    subst hheap
    exact ⟨[], rfl, .stop hnone⟩
  | succ fuel ih =>
    cases hpop : heappop heap with
    | none =>
      have hheap := heappop_none hpop
      refine ⟨[], by rw [sortLoop, hpop]; rfl, .stop (Finset.eq_empty_of_forall_notMem fun x hx => ?_)⟩
      have := (hinv.heap (heapKey kf x)).mpr ⟨x, hx, rfl⟩
      simp [hheap] at this
    | some r =>
      obtain ⟨least, heap'⟩ := r
      obtain ⟨hleast, hmin, rfl⟩ := heappop_some hpop
      obtain ⟨node, hnode, rfl⟩ := (hinv.heap least).mp hleast
      obtain ⟨hg, htaken, -⟩ := mem_available.mp hnode
      obtain ⟨parents, hparents, hmem⟩ := hreverse node (mem_keys.mp hg)
      obtain ⟨out', heap', hrun, hinv'⟩ := sortStep_ok hkey hinv hnode (o.nodup_ids (.parents node) parents)
        fun p => (o.mem_ids _).trans (hmem p)
      obtain ⟨l, hl, horder⟩ := ih hinv' (by
        have : (g.keys \ insert node taken).card < (g.keys \ taken).card :=
          Finset.card_lt_card ⟨Finset.sdiff_subset_sdiff (Finset.Subset.refl _) (Finset.subset_insert _ _),
            fun h => by simpa using h (Finset.mem_sdiff.mpr ⟨hg, htaken⟩)⟩
        omega)
      refine ⟨node :: l, ?_, .next hnode (fun y hy => hmin _ ((hinv.heap _).mpr ⟨y, hy, rfl⟩)) horder⟩
      rw [sortLoop, hpop]
      show eval look (lift (item reverse node) >>= _) = _
      rw [item_ok.mpr hparents, eval_bind, eval_lift_ok]
      show eval look (_ >>= _) = _
      rw [eval_bind, show (ofLex (heapKey kf node)).2 = node from rfl, hrun]
      show eval look (_ >>= _) = _
      rw [eval_bind, hl]
      rfl

/-- **The sort** of a graph whose edges lead to its nodes is its greedy order by key and id. -/
theorem lexicographicalTopologicalSort_ok (o : Orders) {fuel : ℕ} (hfuel : g.keys.card ≤ fuel) :
    ∃ l, eval look (lexicographicalTopologicalSort o fuel g key) = .ok l ∧
      Greedy.Order g.keys (needs g) (heapKey kf) ∅ l := by
  obtain ⟨reverse, hrun, hreverse⟩ := foldlM_sortNode hkey o
  have hinv : SortInv g kf ∅ g (((o.ids .nodes g.keys).filter (needs g · = ∅)).map (heapKey kf)) := by
    refine ⟨fun y hy => by simp at hy, fun x hx => ?_, ?_, fun p => ?_⟩
    · obtain ⟨s, hs⟩ := mem_iff.mp hx
      simp [needs, hs]
    · exact ((o.nodup_ids .nodes g.keys).filter _).map (heapKey_injective kf)
    · simp [mem_available, eq_comm]
  obtain ⟨l, hl, horder⟩ := sortLoop_ok hkey o hreverse fuel hinv (by simpa using hfuel)
  refine ⟨l, ?_, horder⟩
  rw [lexicographicalTopologicalSort, eval_bind, hrun]
  exact hl

end Kahn

/-! ## The whole sort -/

section PowerSort

variable {env : Env} {cost : String → ℕ} {full : Finset String}

/-- The key of `get_power_order`: the highest power level comes first, then the earliest event. -/
def powerKey (env : Env) (id : String) : ℤ ×ₗ ℤ ×ₗ String :=
  toLex (-(Query.eval env.look (getPowerLevelForSender env.roomId id)).toOption.getD 0,
    toLex (((env.look id).map Event.originServerTs).getD 0, id))

/-- **Sorting a graph** raises in every run because the level of a node does, or gives one list in every run. -/
theorem sortGraph_cases (hfull : AllInRoom env full) {g : Graph} (hg : ∀ y ∈ g, y ∈ full) :
    ((∃ y ∈ g, outcome (eval env.look (getPowerLevelForSender env.roomId y)) = some none) ∧
        ∀ o fuel, outcome (eval env.look (sortGraph o fuel env.roomId g)) = some none) ∨
      ∃ l, Greedy.Order g.keys (needs g) (heapKey (powerKey env)) ∅ l ∧
        ∀ o fuel, g.keys.card ≤ fuel → eval env.look (sortGraph o fuel env.roomId g) = .ok l := by
  have hmem : ∀ (o : Orders) (x : String), x ∈ o.ids .graph g.keys ↔ x ∈ g := fun o x =>
    (o.mem_ids _).trans mem_keys
  have hlevel : ∀ (o : Orders), ∀ k ∈ o.ids .graph g.keys,
      outcome (eval env.look (getPowerLevelForSender env.roomId k)) ≠ none :=
    fun _ k _ => (ensures_getPowerLevelForSender k).ne_none
  by_cases hraise : ∃ y ∈ g, outcome (eval env.look (getPowerLevelForSender env.roomId y)) = some none
  · refine .inl ⟨hraise, fun o fuel => ?_⟩
    obtain ⟨y, hy, hraise⟩ := hraise
    rw [sortGraph, eval_bind, eval_collect]
    rcases collect_cases (hlevel o) with ⟨h, -⟩ | ⟨levels, -, hlook⟩
    · rw [outcome_bind h]
      rfl
    · obtain ⟨b, hb, -⟩ := hlook y ((hmem o y).mpr hy)
      rw [hb] at hraise
      cases hraise
  · -- every node has a level, so the sort has a key for it
    have hsort : ∀ o fuel, g.keys.card ≤ fuel → ∃ l, eval env.look (sortGraph o fuel env.roomId g) = .ok l ∧
        Greedy.Order g.keys (needs g) (heapKey (powerKey env)) ∅ l := by
      intro o fuel hfuel
      rcases collect_cases (hlevel o) with ⟨-, y, hy, h⟩ | ⟨levels, hlevels, hlook⟩
      · exact absurd ⟨y, (hmem o y).mp hy, h⟩ hraise
      have hkey : ∀ x ∈ g, eval env.look (getPowerOrder levels x) = .ok (powerKey env x) := by
        intro x hx
        obtain ⟨e, he, -⟩ := hfull x (hg x hx)
        obtain ⟨pl, hpl, hlevel⟩ := hlook x ((hmem o x).mpr hx)
        rw [getPowerOrder, eval_bind, eval_eventMapItem he]
        show eval env.look (lift (item levels x) >>= _) = _
        rw [item_ok.mpr hlevel, eval_bind, powerKey, hpl, he]
        rfl
      rw [sortGraph, eval_bind, eval_collect, hlevels]
      exact lexicographicalTopologicalSort_ok hkey o hfuel
    obtain ⟨l, -, hl⟩ := hsort .ascending _ le_rfl
    refine .inr ⟨l, hl, fun o fuel hfuel => ?_⟩
    obtain ⟨l', hrun, hl'⟩ := hsort o fuel hfuel
    rw [hrun, hl'.unique (fun _ _ _ _ h => heapKey_injective _ h) hl]

theorem reverseTopologicalPowerSort_outcome (hcost : env.Pays cost) (hfull : AllInRoom env full) :
    ∃ v, ∀ o fuel, (∀ id ∈ full, cost id ≤ fuel) → full.card ≤ fuel →
      outcome (eval env.look (reverseTopologicalPowerSort o fuel env.roomId full)) = some v := by
  obtain ⟨vg, hvg, hgraph⟩ := powerGraph_outcome hcost hfull
  cases vg with
  | none =>
    refine ⟨none, fun o fuel hfuel _ => ?_⟩
    rw [reverseTopologicalPowerSort, eval_bind, outcome_bind (hgraph o fuel hfuel)]
    rfl
  | some g =>
    obtain ⟨starts, hstarts, hg⟩ := hvg g rfl
    have hgfull : ∀ y ∈ g, y ∈ full := fun y => hg.mem_full hstarts
    rcases sortGraph_cases hfull hgfull with ⟨-, hraise⟩ | ⟨l, hl, hsort⟩
    · refine ⟨none, fun o fuel hfuel _ => ?_⟩
      rw [reverseTopologicalPowerSort, eval_bind, ok_of_outcome (hgraph o fuel hfuel)]
      exact hraise o fuel
    refine ⟨some l, fun o fuel hfuel hcard => ?_⟩
    rw [reverseTopologicalPowerSort, eval_bind, ok_of_outcome (hgraph o fuel hfuel)]
    show outcome (eval env.look (sortGraph o fuel env.roomId g)) = _
    rw [hsort o fuel ((Finset.card_le_card fun y hy => hgfull y (mem_keys.mp hy)).trans hcard)]
    rfl

/-- What is required of the sort of some power events. -/
structure PowerSorted (env : Env) (full : Finset String) (eventIds l : List String) : Prop where
  /-- The events are listed with what they reach through auth events in the full conflicted set, -/
  mem : ∀ y, y ∈ l ↔ ∃ p ∈ eventIds, Reaches env full p y
  /-- each once, -/
  nodup : l.Nodup
  /-- after everything that they reach themselves, -/
  after : ∀ front x back, l = front ++ x :: back → ∀ y, Reaches env full x y → y ≠ x → y ∈ front
  /-- and each comes before the others that could stand in its place. -/
  least : ∀ front x back, l = front ++ x :: back → ∀ y ∈ l, y ∉ front → (∀ a ∈ authIn env full y, a ∈ front) →
    powerKey env x ≤ powerKey env y

theorem powerSorted_of_order (hcost : env.Pays cost) {starts l : List String}
    {g : Graph} (hg : Searched env full starts g) (hl : Greedy.Order g.keys (needs g) (heapKey (powerKey env)) ∅ l) :
    PowerSorted env full starts l := by
  have hneeds : ∀ y ∈ g, needs g y = authIn env full y := fun y hy => by
    obtain ⟨s, hs⟩ := mem_iff.mp hy
    rw [needs, hs, getD_some, hg.edges y s hs]
  have hsub : ∀ y ∈ g.keys, needs g y ⊆ g.keys := fun y hy a ha => by
    exact Finmap.mem_keys.mpr (hg.closed hy (hneeds y hy ▸ ha))
  have hwf : WellFounded fun y x => y ∈ needs g x := by
    refine Subrelation.wf (fun {y x} hy => ?_) (measure cost).wf
    by_cases hx : x ∈ g
    · exact cost_lt_of_mem hcost (mem_authIn.mp (hneeds x hx ▸ hy)).1
    · simp [needs, lookup_eq_none.mpr hx] at hy
  have hmem : ∀ y, y ∈ l ↔ y ∈ g := fun y => by
    rw [hl.mem_iff hsub, and_iff_left (hwf.apply y), Finmap.mem_keys]
  have hfront : ∀ {front x back}, l = front ++ x :: back → ∀ a ∈ authIn env full x, a ∈ front := by
    intro front x back h a ha
    have hx : x ∈ g := (hmem x).mp (by rw [h]; simp)
    have := (mem_available.mp (hl.split h).1).2.2
    simpa using this (hneeds x hx ▸ ha)
  refine ⟨fun y => (hmem y).trans (hg.mem y), hl.nodup.1, fun front x back h y hxy hne => ?_,
    fun front x back h y hy hnot hready => ?_⟩
  · -- the first event on the way stands in front, and so does what comes after it
    induction hxy using Relation.ReflTransGen.head_induction_on generalizing front back with
    | refl => exact absurd rfl hne
    | @head x a hxa _ ih =>
      obtain ⟨f₁, f₂, hf⟩ := append_of_mem (hfront h a hxa)
      by_cases hya : y = a
      · rw [hya]
        exact hfront h a hxa
      · rw [hf]
        exact mem_append_left _ (ih f₁ (f₂ ++ x :: back) (by rw [h, hf]; simp) hya)
  · have hyg := (hmem y).mp hy
    have hle := (hl.split h).2 y (mem_available.mpr
      ⟨Finmap.mem_keys.mpr hyg, by simpa using hnot, fun a ha => by simpa using hready a (hneeds y hyg ▸ ha)⟩)
    rcases Prod.Lex.toLex_le_toLex.mp hle with h | h
    · exact h.le
    · exact h.1.le

/-- **The sort of any power events of the full conflicted set** ends in every run, with a list as required; it raises
only where the power level of a listed event cannot be read. -/
theorem reverseTopologicalPowerSortOf_sorted (hacyclic : env.Acyclic) (hfull : AllInRoom env full)
    {eventIds : List String} (hids : ∀ x ∈ eventIds, x ∈ full) :
    ∃ bound, ∀ (o : Orders) (fuel : ℕ), bound ≤ fuel →
      (∃ l, eval env.look (reverseTopologicalPowerSortOf o fuel env.roomId full eventIds) = .ok l ∧
          PowerSorted env full eventIds l) ∨
        (outcome (eval env.look (reverseTopologicalPowerSortOf o fuel env.roomId full eventIds)) = some none ∧
          ∃ p ∈ eventIds, ∃ y, Reaches env full p y ∧
            outcome (eval env.look (getPowerLevelForSender env.roomId y)) = some none) := by
  obtain ⟨cost, hcost⟩ := hacyclic.exists_cost
  refine ⟨full.sum cost + full.card, fun o fuel hfuel => ?_⟩
  obtain ⟨g, hrun, hg⟩ : ∃ g, eval env.look (eventIds.foldlM
      (addEventAndAuthChainToGraph fuel env.roomId full) ∅) = .ok g ∧ Searched env full eventIds g := by
    rw [eval_foldlM]
    refine foldlM_total (Searched env full) .empty fun seen x rest g hl hg => ?_
    have hx : x ∈ full := hids x (by rw [hl]; simp)
    have : cost x ≤ full.sum cost := Finset.single_le_sum (fun _ _ => Nat.zero_le _) hx
    exact hg.add hcost hfull hx (by omega)
  have hgfull : ∀ y ∈ g, y ∈ full := fun y => hg.mem_full hids
  have hcard : g.keys.card ≤ full.card := Finset.card_le_card fun y hy => hgfull y (mem_keys.mp hy)
  rw [reverseTopologicalPowerSortOf, eval_bind, hrun]
  rcases sortGraph_cases hfull hgfull with ⟨⟨y, hy, hlevel⟩, hraise⟩ | ⟨l, hl, hsort⟩
  · obtain ⟨p, hp, hpy⟩ := (hg.mem y).mp hy
    exact .inr ⟨hraise o fuel, p, hp, y, hpy, hlevel⟩
  · exact .inl ⟨l, hsort o fuel (by omega), powerSorted_of_order hcost hg hl⟩

end PowerSort

namespace Levels

/-- A room with the power levels set after its creation. -/
def env : Env where
  roomId := "!r:hs"
  roomVersion := .v10
  eventMap := none
  store := ⟨.ofList [Event.ofContent "$create" create "" "@a:hs" [("creator", .str "@a:hs")],
    { Event.ofContent "$levels" powerLevels "" "@a:hs" [] with authEventIds := ["$create"] }], fun _ _ => ∅⟩
  authCheck _ _ := true

theorem allInRoom : AllInRoom env {"$create", "$levels"} := by
  intro id hid
  rcases Finset.mem_insert.mp hid with rfl | hid
  · exact ⟨_, rfl, rfl⟩
  · cases Finset.mem_singleton.mp hid
    exact ⟨_, rfl, rfl⟩

theorem sorted_levels :
    outcome (eval env.look (reverseTopologicalPowerSortOf .ascending 5 env.roomId {"$create", "$levels"}
        ["$levels"])) = some (some ["$create", "$levels"]) ∧
      ∃ bound, ∀ (o : Orders) (fuel : ℕ), bound ≤ fuel →
        (∃ l, eval env.look (reverseTopologicalPowerSortOf o fuel env.roomId {"$create", "$levels"} ["$levels"]) =
            .ok l ∧ PowerSorted env {"$create", "$levels"} ["$levels"] l) ∨
          (outcome (eval env.look (reverseTopologicalPowerSortOf o fuel env.roomId {"$create", "$levels"}
              ["$levels"])) = some none ∧ ∃ p ∈ ["$levels"], ∃ y, Reaches env {"$create", "$levels"} p y ∧
            outcome (eval env.look (getPowerLevelForSender env.roomId y)) = some none) :=
  ⟨by decide +kernel, reverseTopologicalPowerSortOf_sorted
    (Env.acyclic_of_rank (fun id => if id = "$levels" then 1 else 0) (by decide +kernel)) allInRoom (by simp)⟩

end Levels

end Synapse.StateRes
