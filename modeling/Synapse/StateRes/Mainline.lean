import Synapse.Lib.Dict
import Synapse.StateRes.PowerSort

/-!
# Synapse.StateRes.Mainline — `_mainline_sort`

The events that are not power events, by how far down the mainline of the resolved power levels they hang, then by
timestamp and id.

* `mainlineLoop_agree`, `mainlineDepth_agree`: following the power levels among the auth events ends.
* `mainlineSort_agree`: the sorted list does not depend on the order in which the events come.
-/

namespace Synapse.StateRes

open Lib
open Query hiding pure

/-- The first loop of `_mainline_sort`: the power-levels events from `pl` down, each an auth event of the previous. -/
def mainlineLoop (roomId : String) : ℕ → Option String → Fetch (List String)
  | fuel, pl =>
    -- `while pl:` stops at `None` and at an empty id
    if pl.getD "" = "" then pure []
    else match fuel with
      | 0 => .halt .outOfFuel
      | fuel + 1 => do
        let event ← getEvent roomId (pl.getD "")
        let next ← findAuthEvent roomId (EventTypes.powerLevels, "") event.authEventIds
        let rest ← mainlineLoop roomId fuel (next.map Prod.fst)
        pure (pl.getD "" :: rest)

/-- `{ev_id: i + 1 for i, ev_id in enumerate(reversed(mainline))}` -/
def mainlineMap (mainline : List String) : Finmap fun _ : String => ℕ :=
  mainline.reverse.zipIdx.foldl (fun d p => d.insert p.1 (p.2 + 1)) ∅

/-- `_get_mainline_depth_for_event(clock, event, mainline_map, event_map, state_res_store)`, where `room_id` is that of
the event it is called with. -/
def getMainlineDepthForEvent (mainline : Finmap fun _ : String => ℕ) (roomId : String) : ℕ → Event → Fetch ℕ
  | fuel, event =>
    match mainline.lookup event.eventId with
    | some depth => pure depth
    | none =>
      match fuel with
      | 0 => .halt .outOfFuel
      | fuel + 1 => do
        match ← findAuthEvent roomId (EventTypes.powerLevels, "") event.authEventIds with
        | some (_, aev) => getMainlineDepthForEvent mainline roomId fuel aev
        | none => pure 0

/-- What `_mainline_sort` orders by. -/
abbrev MainlineKey := ℕ ×ₗ ℤ ×ₗ String

/-- `order_map[ev_id]` -/
def mainlineOrder (mainline : Finmap fun _ : String => ℕ) (fuel : ℕ) (evId : String) : Fetch MainlineKey := do
  let event ← eventMapItem evId
  let depth ← getMainlineDepthForEvent mainline event.roomId fuel event
  pure (toLex (depth, toLex (event.originServerTs, evId)))

/-- `event_ids.sort(key=lambda ev_id: order_map[ev_id])` -/
def sortByOrder (orderMap : Finmap fun _ : String => MainlineKey) (eventIds : List String) : List String :=
  eventIds.insertionSort fun a b => (orderMap.lookup a).getD (toLex (0, toLex (0, ""))) ≤
    (orderMap.lookup b).getD (toLex (0, toLex (0, "")))

def mainlineSort (fuel : ℕ) (roomId : String) (eventIds : List String) (resolvedPowerEventId : Option String) :
    Fetch (List String) :=
  if eventIds = [] then pure []
  else do
    let mainline ← mainlineLoop roomId fuel resolvedPowerEventId
    let orderMap ← collect (mainlineOrder (mainlineMap mainline) fuel) eventIds
    pure (sortByOrder orderMap eventIds)

section Outcome

variable {env : Env} {cost : String → ℕ} {id : String}

theorem cost_findAuthEvent (hcost : env.Pays cost) {event : Event}
    (he : env.look id = some event) {key : StateKey} {roomId : String} {next : Option (String × Event)}
    (h : eval env.look (findAuthEvent roomId key event.authEventIds) = .ok next) :
    ∀ r ∈ next, env.look r.1 = some r.2 ∧ cost r.1 < cost id := by
  intro r hr
  obtain ⟨hmem, hlook⟩ := (ensures_findAuthEvent key _).ok h r hr
  exact ⟨hlook, cost_lt_of_mem hcost (by rw [Env.authIds_of_look he]; exact hmem)⟩

theorem mainlineLoop_stop (roomId : String) (fuel : ℕ) {pl : Option String} (h : pl.getD "" = "") :
    mainlineLoop roomId fuel pl = pure [] := by
  unfold mainlineLoop
  exact if_pos h

theorem mainlineLoop_succ (roomId : String) (fuel : ℕ) {pl : Option String} (h : ¬ pl.getD "" = "") :
    mainlineLoop roomId (fuel + 1) pl = (do
      let event ← getEvent roomId (pl.getD "")
      let next ← findAuthEvent roomId (EventTypes.powerLevels, "") event.authEventIds
      let rest ← mainlineLoop roomId fuel (next.map Prod.fst)
      pure (pl.getD "" :: rest)) := by
  exact if_neg h

/-- Enough fuel to follow the power levels from an id. -/
def EnoughFrom (env : Env) (cost : String → ℕ) (id : String) (fuel : ℕ) : Prop :=
  1 ≤ fuel ∧ ∀ e, env.look id = some e → cost id ≤ fuel

variable {fuel fuel' : ℕ}

theorem mainlineLoop_agree (hcost : env.Pays cost) (roomId : String)
    (pl : Option String) (h : ¬ pl.getD "" = "" → EnoughFrom env cost (pl.getD "") fuel)
    (h' : ¬ pl.getD "" = "" → EnoughFrom env cost (pl.getD "") fuel') :
    Agree (eval env.look (mainlineLoop roomId fuel pl)) (eval env.look (mainlineLoop roomId fuel' pl)) := by
  induction fuel generalizing fuel' pl with
  | zero =>
    have hstop : pl.getD "" = "" := by
      by_contra hpl
      exact absurd (h hpl).1 (by omega)
    rw [mainlineLoop_stop roomId 0 hstop, mainlineLoop_stop roomId fuel' hstop]
    exact .refl (by simp)
  | succ fuel ih =>
    by_cases hpl : pl.getD "" = ""
    · rw [mainlineLoop_stop roomId _ hpl, mainlineLoop_stop roomId fuel' hpl]
      exact .refl (by simp)
    obtain ⟨-, hc⟩ := h hpl
    obtain ⟨hpos, hc'⟩ := h' hpl
    obtain ⟨fuel', rfl⟩ : ∃ n, fuel' = n + 1 := ⟨fuel' - 1, by omega⟩
    rw [mainlineLoop_succ roomId fuel hpl, mainlineLoop_succ roomId fuel' hpl]
    simp only [eval_bind]
    refine (Agree.refl (ensures_getEvent roomId _).ne_none).bind fun event hevent => ?_
    refine (Agree.refl (ensures_findAuthEvent _ _).ne_none).bind fun next hnext => ?_
    refine Agree.bind ?_ fun _ _ => .refl (by simp)
    -- the next power levels cost less, so one unit less of fuel is enough for them
    have he := (ensures_getEvent roomId _).ok hevent
    cases next with
    | none => exact ih none (absurd rfl) (absurd rfl)
    | some r =>
      obtain ⟨aid, aev⟩ := r
      have hlt : cost aid < cost (pl.getD "") := (cost_findAuthEvent hcost he hnext _ rfl).2
      have := hc event he
      have := hc' event he
      have := hcost aid
      exact ih (some aid) (fun _ => ⟨by omega, fun _ _ => by simp; omega⟩) (fun _ => ⟨by omega, fun _ _ => by simp; omega⟩)

theorem mainlineDepth_agree (hcost : env.Pays cost) (mainline : Finmap fun _ : String => ℕ) (roomId : String)
    {event : Event} (he : env.look id = some event) (hfuel : cost id ≤ fuel) (hfuel' : cost id ≤ fuel') :
    Agree (eval env.look (getMainlineDepthForEvent mainline roomId fuel event))
      (eval env.look (getMainlineDepthForEvent mainline roomId fuel' event)) := by
  have := hcost id
  induction fuel generalizing fuel' id event with
  | zero => omega
  | succ fuel ih =>
    obtain ⟨fuel', rfl⟩ : ∃ n, fuel' = n + 1 := ⟨fuel' - 1, by omega⟩
    rw [getMainlineDepthForEvent, getMainlineDepthForEvent]
    cases mainline.lookup event.eventId with
    | some depth => exact .refl (by simp)
    | none =>
      simp only [eval_bind]
      refine (Agree.refl (ensures_findAuthEvent _ _).ne_none).bind fun next hn => ?_
      cases next with
      | none => exact .refl (by simp)
      | some r =>
        obtain ⟨haev, hlt⟩ := cost_findAuthEvent hcost he hn r rfl
        exact ih haev (by omega) (by omega) (hcost _)

theorem mainlineOrder_id {look : String → Option Event} {mainline : Finmap fun _ : String => ℕ}
    {key : MainlineKey} (h : eval look (mainlineOrder mainline fuel id) = .ok key) : (ofLex (ofLex key).2).2 = id := by
  unfold mainlineOrder at h
  simp only [eval_bind] at h
  obtain ⟨event, -, h⟩ := exc_bind_ok h
  obtain ⟨depth, -, h⟩ := exc_bind_ok h
  cases h
  rfl

theorem sortByOrder_perm {orderMap : Finmap fun _ : String => MainlineKey} {l l' : List String} (hperm : l.Perm l')
    (hkeys : ∀ id ∈ l, ∃ key, orderMap.lookup id = some key ∧ (ofLex (ofLex key).2).2 = id) :
    sortByOrder orderMap l = sortByOrder orderMap l' := by
  refine insertionSort_eq_of_perm (fun id => (orderMap.lookup id).getD (toLex (0, toLex (0, "")))) hperm
    fun a ha b hb hab => ?_
  obtain ⟨ka, hka, ha⟩ := hkeys a ha
  obtain ⟨kb, hkb, hb⟩ := hkeys b hb
  simp only [hka, hkb, Option.getD_some] at hab
  rw [← ha, ← hb, hab]

theorem mainlineSort_agree (hcost : env.Pays cost) (roomId : String)
    {l l' : List String} (hperm : l.Perm l') (pl : Option String) (hfuel : 1 ≤ fuel) (hfuel' : 1 ≤ fuel')
    (hf : ∀ id e, env.look id = some e → cost id ≤ fuel) (hf' : ∀ id e, env.look id = some e → cost id ≤ fuel') :
    Agree (eval env.look (mainlineSort fuel roomId l pl)) (eval env.look (mainlineSort fuel' roomId l' pl)) := by
  by_cases hnil : l = []
  · have hnil' : l' = [] := (hnil ▸ hperm).nil_eq.symm
    subst hnil hnil'
    exact .refl (by simp [mainlineSort])
  have hnil' : ¬ l' = [] := fun h => hnil (h ▸ hperm).eq_nil
  have horder : ∀ mainline, ∀ id ∈ l, Agree (eval env.look (mainlineOrder mainline fuel id))
      (eval env.look (mainlineOrder mainline fuel' id)) := fun mainline id _ => by
    simp only [mainlineOrder, eval_bind]
    refine (Agree.refl (ensures_eventMapItem (Set.mem_univ _)).ne_none).bind fun event h => ?_
    have he := (ensures_eventMapItem (Set.mem_univ _)).ok h
    exact (mainlineDepth_agree hcost mainline event.roomId he (hf id event he) (hf' id event he)).bind
      fun _ _ => .refl (by simp)
  unfold mainlineSort
  rw [if_neg hnil, if_neg hnil']
  simp only [eval_bind, eval_collect]
  refine (mainlineLoop_agree hcost roomId pl (fun _ => ⟨hfuel, hf _⟩)
    (fun _ => ⟨hfuel', hf' _⟩)).bind fun mainline _ => ?_
  refine (Agree.collect (fun k => hperm.mem_iff) (horder _)).bind fun orderMap horderMap => ?_
  rcases collect_cases (fun id hid => (horder (mainlineMap mainline) id hid).2) with ⟨h, -⟩ | ⟨d, hd, hlook⟩
  · rw [horderMap] at h
    cases h
  cases horderMap.symm.trans hd
  rw [sortByOrder_perm hperm fun id hid => by
    obtain ⟨key, hkey, hlook⟩ := hlook id hid
    exact ⟨key, hlook, mainlineOrder_id hkey⟩]
  exact .refl (by simp)

end Outcome

section Specs

variable {look : String → Option Event} {keys : Set String} {roomId : String}

theorem ensures_mainlineLoop (fuel : ℕ) (pl : Option String) :
    (mainlineLoop roomId fuel pl).Ensures look True keys fun _ => True := by
  fun_induction mainlineLoop roomId fuel pl with
  | case1 => exact ensures_pure trivial
  | case2 => exact ensures_stop
  | case3 pl hpl fuel ih =>
    exact (ensures_getEvent roomId _).bind fun event _ => (ensures_findAuthEvent _ _).bind fun next _ =>
      (ih next).bind fun _ _ => ensures_pure trivial

theorem ensures_getMainlineDepthForEvent (mainline : Finmap fun _ : String => ℕ) (fuel : ℕ) (event : Event) :
    (getMainlineDepthForEvent mainline roomId fuel event).Ensures look True keys fun _ => True := by
  fun_induction getMainlineDepthForEvent mainline roomId fuel event with
  | case1 => exact ensures_pure trivial
  | case2 => exact ensures_stop
  | case3 event hnone fuel ih =>
    refine (ensures_findAuthEvent _ _).bind fun found _ => ?_
    cases found with
    | none => exact ensures_pure trivial
    | some r => exact ih r.2

theorem ensures_mainlineSort {l : List String} (hl : ∀ id ∈ l, id ∈ keys) (fuel : ℕ) (pl : Option String) :
    (mainlineSort fuel roomId l pl).Ensures look True keys fun l' => ∀ id ∈ l', id ∈ l := by
  unfold mainlineSort
  split
  · exact ensures_pure nofun
  refine (ensures_mainlineLoop fuel pl).bind fun mainline _ => ?_
  refine (ensures_collect fun id hid => ?_).bind fun orderMap _ =>
    ensures_pure fun id hid => (List.mem_insertionSort _).mp hid
  refine (ensures_eventMapItem (hl id hid)).bind fun event _ => ?_
  exact (ensures_getMainlineDepthForEvent _ fuel event).bind fun _ _ => ensures_pure trivial

end Specs

end Synapse.StateRes
