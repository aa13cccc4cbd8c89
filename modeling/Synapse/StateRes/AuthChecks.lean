import Synapse.EventAuth.Selection
import Synapse.Lib.Dict
import Synapse.StateRes.PowerSort

/-!
# Synapse.StateRes.AuthChecks — `_iterative_auth_checks`

Each event of a list is checked over the events it lists as auth events, overridden by the resolved state so far, and
enters the resolved state if it passes.

* `iterativeAuthChecks_agree`: the order in which the selected keys are looked up does not matter.
* `iterativeAuthChecks_adds`: what a pass adds to the state is an event of the list under its own key, not rejected and
  accepted over what the pass had resolved before it.
-/

namespace Synapse.StateRes

open Lib
open Query hiding pure

/-- `auth_events`, a dict from `(type, state_key)` to event. -/
abbrev AuthMap := Finmap fun _ : StateKey => Event

/-- The body of the first inner loop: a known auth event that is not rejected. -/
def addAuthEvent (roomId : String) (authEvents : AuthMap) (aid : String) : Fetch AuthMap := do
  match ← getEvent? roomId aid with
  | none => pure authEvents
  | some event =>
    if event.rejectedReason.isSome then pure authEvents
    else do
      let stateKey ← .lift event.stateKeyAttr
      pure (authEvents.insert (event.type, stateKey) event)

/-- The members of `auth_types_for_event(...)` that a state map can have. -/
def selectedKeys (sel : List (String × Json)) : Finset StateKey :=
  (sel.filterMap fun p => match p.2 with
    | .str stateKey => some (p.1, stateKey)
    | _ => none).toFinset

/-- What the second inner loop assigns to a selected key.  `event_map[ev_id]` is the event just fetched. -/
def resolvedAuthEvent (roomId : String) (resolved : StateMap) (key : StateKey) : Fetch (Option Event) :=
  match resolved.lookup key with
  | none => pure none
  | some evId => do
    let event ← getEvent roomId evId
    pure (if event.rejectedReason.isSome then none else some event)

/-- `auth_events` when an event is checked. -/
def authEventsFor (env : Env) (o : Orders) (power : Bool) (resolved : StateMap) (eventId : String) (event : Event) :
    Fetch AuthMap := do
  let authEvents ← event.authEventIds.foldlM (addAuthEvent env.roomId) ∅
  let sel ← .lift (EventAuth.authTypesForEvent env.roomVersion event)
  assign (resolvedAuthEvent env.roomId resolved) authEvents (o.keys (.authTypes power eventId) (selectedKeys sel))

/-- The body of the loop over the events. -/
def checkEvent (env : Env) (o : Orders) (power : Bool) (resolved : StateMap) (eventId : String) : Fetch StateMap := do
  let event ← eventMapItem eventId
  let authEvents ← authEventsFor env o power resolved eventId event
  if event.rejectedReason.isSome then pure resolved
  else if env.authCheck event (authEvents.lookup ·) then do
    let stateKey ← .lift event.stateKeyAttr
    pure (resolved.insert (event.type, stateKey) eventId)
  else pure resolved

def iterativeAuthChecks (env : Env) (o : Orders) (power : Bool) (eventIds : List String) (baseState : StateMap) :
    Fetch StateMap :=
  eventIds.foldlM (checkEvent env o power) baseState

section Outcome

variable {env : Env} {look : String → Option Event} {stop : Prop} {keys : Set String}

theorem ensures_addAuthEvent (roomId : String) (authEvents : AuthMap) (aid : String) :
    (addAuthEvent roomId authEvents aid).Ensures look stop keys fun _ => True := by
  refine (ensures_getEvent? roomId aid).bind fun found _ => ?_
  cases found with
  | none => exact ensures_pure trivial
  | some event =>
    simp only
    split
    · exact ensures_pure trivial
    · exact (ensures_lift fun _ => id).bind fun _ _ => ensures_pure trivial

theorem ensures_resolvedAuthEvent (roomId : String) (resolved : StateMap) (key : StateKey) :
    (resolvedAuthEvent roomId resolved key).Ensures look stop keys fun _ => True := by
  unfold resolvedAuthEvent
  cases resolved.lookup key with
  | none => exact ensures_pure trivial
  | some evId => exact (ensures_getEvent roomId evId).bind fun _ _ => ensures_pure trivial

theorem ensures_addAuthEvents (roomId : String) (ids : List String) :
    (ids.foldlM (addAuthEvent roomId) ∅).Ensures look stop keys fun _ => True :=
  ensures_foldlM _ (fun s _ a _ => ensures_addAuthEvent roomId s a) trivial

theorem ensures_authEventsFor (o : Orders) (power : Bool) (resolved : StateMap) (eventId : String) (event : Event) :
    (authEventsFor env o power resolved eventId event).Ensures look stop keys fun _ => True :=
  (ensures_addAuthEvents env.roomId _).bind fun authEvents _ => (ensures_lift fun _ => id).bind fun _ _ =>
    ensures_assign (fun k _ => ensures_resolvedAuthEvent env.roomId resolved k) authEvents

section

variable (o o' : Orders) (power : Bool) (resolved : StateMap) (eventId : String)

theorem authEventsFor_agree (event : Event) : Agree (eval look (authEventsFor env o power resolved eventId event))
      (eval look (authEventsFor env o' power resolved eventId event)) := by
  unfold authEventsFor
  simp only [eval_bind, eval_assign]
  refine (Agree.refl (ensures_addAuthEvents env.roomId _).ne_none).bind fun authEvents _ => ?_
  refine (Agree.refl (ensures_lift fun _ => id).ne_none).bind fun sel _ => ?_
  exact .assign authEvents (fun k => by rw [Orders.mem_keys, Orders.mem_keys]) fun k _ =>
    .refl (ensures_resolvedAuthEvent env.roomId resolved k).ne_none

theorem checkEvent_agree : Agree (eval look (checkEvent env o power resolved eventId))
      (eval look (checkEvent env o' power resolved eventId)) := by
  unfold checkEvent
  simp only [eval_bind]
  refine (Agree.refl (ensures_eventMapItem (Set.mem_univ _)).ne_none).bind fun event _ => ?_
  refine (authEventsFor_agree o o' power resolved eventId event).bind fun authEvents _ => .refl ?_
  refine Query.Ensures.ne_none (P := fun _ => True) ?_
  split
  · exact ensures_pure trivial
  · split
    · exact (ensures_lift fun _ => id).bind fun _ _ => ensures_pure trivial
    · exact ensures_pure trivial

end

theorem iterativeAuthChecks_agree (o o' : Orders) (power : Bool) (l : List String) (base : StateMap) :
    Agree (eval look (iterativeAuthChecks env o power l base))
      (eval look (iterativeAuthChecks env o' power l base)) := by
  unfold iterativeAuthChecks
  rw [eval_foldlM, eval_foldlM]
  exact .foldlM (fun s id _ => checkEvent_agree o o' power s id) base

end Outcome

/-! ## What a pass adds -/

section Added

variable {env : Env} {stop : Prop} {keys : Set String} {o : Orders} {power : Bool} {l : List String}

/-- The event has the key, is not rejected, and passes the check over its auth events overridden by `resolved`. -/
def PassesOver (env : Env) (o : Orders) (power : Bool) (resolved : StateMap) (key : StateKey) (id : String) : Prop :=
  ∃ event authEvents, env.look id = some event ∧ event.key? = some key ∧ event.rejectedReason = none ∧
    Query.eval env.look (authEventsFor env o power resolved id event) = .ok authEvents ∧
    env.authCheck event (authEvents.lookup ·) = true

/-- The pass over `l` from `base` accepts the event: it passes over what the pass has resolved when it comes to it. -/
def Accepted (env : Env) (o : Orders) (power : Bool) (l : List String) (base : StateMap) (key : StateKey) (id : String) :
    Prop :=
  ∃ before after resolved, l = before ++ id :: after ∧
    Query.eval env.look (iterativeAuthChecks env o power before base) = .ok resolved ∧
    PassesOver env o power resolved key id

theorem Accepted.mem {base : StateMap} {key : StateKey} {id : String} (h : Accepted env o power l base key id) : id ∈ l := by
  obtain ⟨before, after, -, rfl, -⟩ := h
  simp

theorem ensures_checkEvent (o : Orders) (power : Bool) (resolved : StateMap) {id : String} (hid : id ∈ keys) :
    (checkEvent env o power resolved id).Ensures env.look stop keys fun resolved' =>
      resolved' = resolved ∨ ∃ key, resolved' = resolved.insert key id ∧ PassesOver env o power resolved key id := by
  refine (ensures_eventMapItem hid).bind fun event he => ?_
  refine (ensures_authEventsFor o power resolved id event).self.bind fun authEvents hauth => ?_
  split
  · exact ensures_pure (.inl rfl)
  rename_i hrejected
  split
  · rename_i hcheck
    refine (ensures_lift fun _ h => h).bind fun stateKey hkey => ensures_pure ?_
    refine .inr ⟨_, rfl, event, authEvents, he, ?_, by simpa using hrejected, hauth, hcheck⟩
    rw [Event.key?, Event.stateKeyAttr_ok.mp hkey]
    rfl
  · exact ensures_pure (.inl rfl)

theorem ensures_iterativeAuthChecks (o : Orders) (power : Bool) (hl : ∀ id ∈ l, id ∈ keys) (base : StateMap) :
    (iterativeAuthChecks env o power l base).Ensures env.look stop keys fun _ => True :=
  ensures_foldlM _ (fun s _ x hx => (ensures_checkEvent o power s (hl x hx)).mono fun _ _ => trivial) trivial

/-- By induction on what the pass has gone through. -/
theorem iterativeAuthChecks_adds {base resolved : StateMap}
    (h : Query.eval env.look (iterativeAuthChecks env o power l base) = .ok resolved) {key : StateKey} {id : String}
    (hid : resolved.lookup key = some id) : base.lookup key = some id ∨ Accepted env o power l base key id := by
  induction l using List.reverseRecOn generalizing resolved with
  | nil =>
    cases h
    exact .inl hid
  | append_singleton l x ih =>
    have hsplit := h
    rw [iterativeAuthChecks, eval_foldlM, List.foldlM_append, ← eval_foldlM] at hsplit
    obtain ⟨s, hs, hx⟩ := exc_bind_ok hsplit
    rw [List.foldlM_cons] at hx
    obtain ⟨s', hx, hnil⟩ := exc_bind_ok hx
    cases hnil
    have hold : s.lookup key = some id → base.lookup key = some id ∨ Accepted env o power (l ++ [x]) base key id := by
      intro hlook
      refine (ih hs hlook).imp_right ?_
      rintro ⟨before, after, t, rfl, ht, hpass⟩
      exact ⟨before, after ++ [x], t, by simp, ht, hpass⟩
    obtain rfl | ⟨key', rfl, hpass⟩ :=
      (ensures_checkEvent o power s (Set.mem_univ x) : Query.Ensures _ False _ _ _).ok hx
    · exact hold hid
    by_cases hk : key = key'
    · subst hk
      rw [Finmap.lookup_insert] at hid
      cases hid
      exact .inr ⟨l, [], s, rfl, hs, hpass⟩
    · rw [Finmap.lookup_insert_of_ne _ hk] at hid
      exact hold hid

end Added

end Synapse.StateRes
