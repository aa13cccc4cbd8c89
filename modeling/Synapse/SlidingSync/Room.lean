import Synapse.SlidingSync.RequiredState

/-!
# Synapse.SlidingSync.Room — the required state of a room in a response

The part of `get_room_sync_data` that chooses the required state of a room the requester is joined to, and that records
what has been sent.  A connection goes from one response that carries the room to the next; in between the current state
of the room changes by rows of `current_state_delta_stream`.

* `expandedRequiredStateMap`, `requiredStateFilter`: what a request asks for.
* `Connection.requiredRoomState`, `Connection.recordedConfig`: what is sent and what is recorded.
* `Connection.step`, `run`: one request and a run of requests.
* `lookup_requiredRoomState`: when a current state event is in the response.
-/

namespace Synapse.SlidingSync

open Lib State StateValues List Finmap

/-- The requester; a user id starts with `@`, so it is none of the special values. -/
structure Requester where
  userId : String
  valid : userId ∉ StateValues.all

structure RoomSyncConfig where
  timelineLimit : ℕ
  requiredStateMap : RequiredStateMap

/-- What is read of an event of the timeline.  Senders are users, and so are the targets of membership events: their
state keys have a domain, or the event would not have passed authorisation. -/
structure TimelineEvent where
  sender : String
  type : String
  stateKey : Option String
  sender_valid : sender ∉ StateValues.all
  target_valid : type = member → ∀ target, stateKey = some target → target ∉ StateValues.all

/-- A row of `current_state_delta_stream`; the event id is `None` when the state was removed. -/
structure StateDelta where
  eventType : String
  stateKey : String
  eventId : Option String

/-- A request whose response carries the room. -/
structure Request where
  config : RoomSyncConfig
  /-- The requester has joined again since the last response. -/
  newlyJoined : Bool
  /-- The changes of the current state since the last response that carried the room. -/
  deltas : List StateDelta
  /-- The page of the timeline that pagination gives for a limit that is not zero, and whether it is limited. -/
  page : List TimelineEvent
  pageLimited : Bool
  /-- The heroes in the room summary. -/
  heroes : List String

namespace Request

variable (order : SetOrder) (user : Requester) (q : Request)

def roomStateDeltaIdMap : StateMap :=
  q.deltas.foldl (fun m d => d.eventId.elim m fun e => m.insert (d.eventType, d.stateKey) e) ∅

def currentState (state : StateMap) : StateMap :=
  q.deltas.foldl (fun m d =>
    let k := (d.eventType, d.stateKey)
    d.eventId.elim (m.erase k) fun e => m.insert k e) state

def timelineEvents : List TimelineEvent := if q.config.timelineLimit > 0 then q.page else []

def limited : Option Bool := if q.config.timelineLimit > 0 then some q.pageLimited else none

/-- `timeline_membership`: who sent an event of the timeline, and the targets of its membership events. -/
def timelineMembership : Finset String :=
  (q.timelineEvents.flatMap fun e => e.sender :: if e.type = member then e.stateKey.toList else []).toFinset

/-- The entries of the required state, as the nested loops go through them. -/
def entries : List (String × String) :=
  q.config.requiredStateMap.rows.flatMap fun row => (order.iter row.2).map fun key => (row.1, key)

/-- What an entry adds to `required_state_types`. -/
def typesFor (entry : String × String) : List (String × Option String) :=
  if entry.2 = wildcard then [(entry.1, none)]
  else if entry.1 = member ∧ entry.2 = lazy then (order.iter q.timelineMembership).map fun u => (member, some u)
  else if entry.2 = me then [(entry.1, some user.userId)]
  else [(entry.1, some entry.2)]

/-- What an entry adds to the membership entry of `expanded_required_state_map`; for `$ME` it is the membership entry
whatever the type. -/
def membersFor (entry : String × String) : Finset String :=
  if entry.2 = wildcard then ∅
  else if entry.1 = member ∧ entry.2 = lazy then q.timelineMembership
  else if entry.2 = me then {user.userId}
  else ∅

/-- There is an entry for the event type wildcard, `("*", "*")` or another. -/
def hasTypeWildcard : Bool := (q.config.requiredStateMap.find wildcard).isSome

def requiredStateFilter : StateFilter :=
  if q.hasTypeWildcard then .all else .fromTypes ((q.entries order).flatMap (q.typesFor order user))

def expandedRequiredStateMap : RequiredStateMap :=
  if q.hasTypeWildcard then q.config.requiredStateMap
  else (q.entries order).foldl (fun m entry => m.set member (m.get member ∪ q.membersFor user entry))
    q.config.requiredStateMap

end Request

/-- What is kept for a room on a connection, with the current state at the last response and the required state of the
responses so far. -/
structure Connection where
  /-- `room_configs.get(room_id)`; the room has been sent exactly if there is one. -/
  roomConfig : Option RoomSyncConfig
  state : StateMap
  responses : List StateMap

namespace Connection

/-- A new connection, to a room with some state. -/
def new (state : StateMap) : Connection := ⟨none, state, []⟩

variable (order : SetOrder) (user : Requester) (c : Connection) (q : Request)

def initial : Bool := c.roomConfig.isNone || q.newlyJoined

def ignoreTimelineBound : Bool :=
  !q.newlyJoined && c.roomConfig.any fun prev => prev.timelineLimit < q.config.timelineLimit

/-- `name_event_id`, which is only looked up for an initial response. -/
def nameEventId : Option String :=
  if c.initial q then (q.currentState c.state).lookup ("m.room.name", "") else none

def heroUserIds : List String :=
  let membershipChanged := !c.initial q && q.deltas.any fun d => d.eventType = member
  if (c.nameEventId q).isNone && (c.initial q || membershipChanged) then q.heroes else []

def metaRoomState : List (String × Option String) :=
  let changed (t : String) := !c.initial q && q.deltas.any fun d => d.eventType = t && d.stateKey = ""
  (c.heroUserIds q).map (fun u => (member, some u)) ++
    (if c.initial q || changed "m.room.name" then [("m.room.name", some "")] else []) ++
    if c.initial q || changed "m.room.avatar" then [("m.room.avatar", some "")] else []

def stateFilter : StateFilter :=
  let required := q.requiredStateFilter order user
  if required.isFull then .all
  else
    let f := StateFilter.fromTypes (c.metaRoomState q ++ required.toTypes)
    .make f.types required.includeOthers f.nodup f.nodup_keys

/-- `changed_required_state_map` and `added_state_filter` -/
def requiredStateUpdate : Option RequiredStateMap × StateFilter :=
  if c.initial q then (none, .none)
  else c.roomConfig.elim (none, .none) fun prev =>
    requiredStateChanges order user.userId prev.requiredStateMap (q.expandedRequiredStateMap order user)
      q.roomStateDeltaIdMap

/-- The ids of the state to send for a response that is not initial: the changes and what has been added. -/
def stateIds : StateMap :=
  let added := (c.requiredStateUpdate order user q).2
  if added.IsEmpty then q.roomStateDeltaIdMap
  else update q.roomStateDeltaIdMap (added.filterState (q.currentState c.state))

def roomState : StateMap :=
  let current := q.currentState c.state
  if c.initial q then (c.stateFilter order user q).filterState current
  else
    let heroRoomState := (c.heroUserIds q).map fun u => (member, some u)
    let roomState := (c.stateFilter order user q).filterState (c.stateIds order user q)
    if c.heroUserIds q = [] then roomState
    else update roomState ((StateFilter.fromTypes heroRoomState).filterState current)

def requiredRoomState : StateMap :=
  let required := q.requiredStateFilter order user
  if required.IsEmpty then ∅ else required.filterState (c.roomState order user q)

/-- `room_sync_required_state_map_to_persist`; an empty `changed_required_state_map` does not count. -/
def requiredStateMapToPersist : RequiredStateMap :=
  match (c.requiredStateUpdate order user q).1 with
  | some changed => if changed.rows.isEmpty then q.expandedRequiredStateMap order user else changed
  | none => q.expandedRequiredStateMap order user

/-- The config that is put into `new_connection_state.room_configs`, if any. -/
def recordedConfig : Option RoomSyncConfig :=
  let config := some ⟨q.config.timelineLimit, c.requiredStateMapToPersist order user q⟩
  if c.ignoreTimelineBound q then config
  else match c.roomConfig with
    | some prev =>
      if q.limited = some true ∧ prev.timelineLimit > q.config.timelineLimit then config
      else if (c.requiredStateUpdate order user q).1.isSome then config
      else none
    | none => config

def step : Connection where
  roomConfig := (c.recordedConfig order user q).orElse fun _ => c.roomConfig
  state := q.currentState c.state
  responses := c.responses ++ [c.requiredRoomState order user q]

def run (qs : List Request) : Connection := qs.foldl (step order user) c

theorem run_snoc (qs : List Request) : c.run order user (qs ++ [q]) = (c.run order user qs).step order user q := by
  simp [run]

end Connection

/-! ## What a request asks for -/

namespace Request

variable {order : SetOrder} {user : Requester} {q : Request} {k : StateKey}

/-- The request asks for the requester's own key of some type. -/
def AsksForMe (q : Request) : Prop := q.hasTypeWildcard = false ∧ ∃ t, me ∈ q.config.requiredStateMap.get t

variable {t key : String}

theorem mem_entries : (t, key) ∈ q.entries order ↔ key ∈ q.config.requiredStateMap.get t := by
  unfold entries RequiredStateMap.get
  rw [mem_flatMap]
  constructor
  · rintro ⟨⟨t', keys⟩, hrow, hmem⟩
    obtain ⟨key', hkey, heq⟩ := mem_map.mp hmem
    obtain ⟨rfl, rfl⟩ := Prod.mk.inj heq
    rw [Table.mem_rows.mp hrow]
    exact (order.mem _ _).mp hkey
  · intro h
    rcases hf : q.config.requiredStateMap.find t with _ | keys
    · simp [hf] at h
    · rw [hf] at h
      exact ⟨(t, keys), Table.mem_rows.mpr hf, mem_map.mpr ⟨key, (order.mem _ _).mpr h, rfl⟩⟩

theorem hasTypeWildcard_iff : q.hasTypeWildcard = true ↔ (q.config.requiredStateMap.get wildcard).Nonempty := by
  rw [← RequiredStateMap.mem_types, hasTypeWildcard, Table.find_isSome, RequiredStateMap.types, mem_toFinset]

theorem mem_timelineMembership {u : String} (h : u ∈ q.timelineMembership) : u ∉ StateValues.all := by
  obtain ⟨e, -, hu⟩ := mem_flatMap.mp (mem_toFinset.mp h)
  rcases mem_cons.mp hu with rfl | hu
  · exact e.sender_valid
  split at hu
  · rename_i hmember
    exact e.target_valid hmember u (Option.mem_toList.mp hu)
  · cases hu

theorem mem_membersFor {entry : String × String} {u : String} (h : u ∈ q.membersFor user entry) :
    u ∉ StateValues.all ∧ ((entry.1 = member ∧ entry.2 = lazy ∧ u ∈ q.timelineMembership) ∨
      (entry.2 = me ∧ u = user.userId)) := by
  unfold membersFor at h
  split at h
  · cases h
  split at h
  · rename_i hlazy
    exact ⟨mem_timelineMembership h, .inl ⟨hlazy.1, hlazy.2, h⟩⟩
  split at h
  · rename_i hme
    obtain rfl := Finset.mem_singleton.mp h
    exact ⟨user.valid, .inr ⟨hme, rfl⟩⟩
  · cases h

theorem mem_foldl_members (entries : List (String × String)) (m : RequiredStateMap) :
    key ∈ (entries.foldl (fun m entry => m.set member (m.get member ∪ q.membersFor user entry)) m).get t ↔
      key ∈ m.get t ∨ (t = member ∧ ∃ entry ∈ entries, key ∈ q.membersFor user entry) := by
  induction entries generalizing m with
  | nil => simp
  | cons entry entries ih =>
    rw [foldl_cons, ih, RequiredStateMap.get_set]
    by_cases ht : t = member
    · simp [ht, or_assoc]
    · simp [ht]

theorem mem_expanded : key ∈ (q.expandedRequiredStateMap order user).get t ↔ key ∈ q.config.requiredStateMap.get t ∨
      (q.hasTypeWildcard = false ∧ t = member ∧ ∃ entry ∈ q.entries order, key ∈ q.membersFor user entry) := by
  unfold expandedRequiredStateMap
  by_cases hw : q.hasTypeWildcard = true
  · simp [hw]
  · rw [if_neg hw, mem_foldl_members]
    simp [hw]

theorem requiredStateFilter_isFull (h : q.hasTypeWildcard = true) : (q.requiredStateFilter order user).isFull = true := by
  rw [requiredStateFilter, if_pos h]
  rfl

theorem admits_of_entry {entry : String × String} (hentry : entry ∈ q.entries order)
    (h : (k.1, none) ∈ q.typesFor order user entry ∨ (k.1, some k.2) ∈ q.typesFor order user entry) :
    (q.requiredStateFilter order user).admits k = true := by
  unfold requiredStateFilter
  split
  · exact StateFilter.isFull_admits rfl
  · rw [StateFilter.admits_fromTypes]
    exact h.imp (fun h => mem_flatMap.mpr ⟨entry, hentry, h⟩) fun h => mem_flatMap.mpr ⟨entry, hentry, h⟩

theorem admits_of_wildcard (h : wildcard ∈ q.config.requiredStateMap.get k.1) :
    (q.requiredStateFilter order user).admits k = true :=
  admits_of_entry (mem_entries.mpr h) (by simp [typesFor])

theorem admits_of_key (h : k.2 ∈ q.config.requiredStateMap.get k.1) (hk : k.2 ∉ StateValues.all) :
    (q.requiredStateFilter order user).admits k = true :=
  admits_of_entry (mem_entries.mpr h) (by
    simp [typesFor, ne_of_not_mem_all hk])

theorem admits_of_me (h : me ∈ q.config.requiredStateMap.get k.1) (hk : k.2 = user.userId) :
    (q.requiredStateFilter order user).admits k = true :=
  admits_of_entry (mem_entries.mpr h) (by
    have hw : me ≠ wildcard := by decide
    have hl : me ≠ lazy := by decide
    simp [typesFor, hw, hl, hk])

/-- **What a request makes count as sent it also asks for**, except for the requester's membership when it asks for its
own key of any type. -/
theorem admits_of_remembers (h : Remembers (q.expandedRequiredStateMap order user) user.userId k) :
    (q.requiredStateFilter order user).admits k = true ∨ (q.AsksForMe ∧ k = (member, user.userId)) := by
  by_cases hw : q.hasTypeWildcard = true
  · exact .inl (StateFilter.isFull_admits (requiredStateFilter_isFull hw))
  rw [Bool.not_eq_true] at hw
  rcases h with ⟨⟨key, hkey⟩, -⟩ | h | ⟨h, hk⟩ | ⟨h, hne, huser⟩
  · rcases mem_expanded.mp hkey with hkey | ⟨-, hmember, -⟩
    · have := hasTypeWildcard_iff.mpr ⟨key, hkey⟩
      rw [hw] at this
      cases this
    · exact absurd hmember (by decide)
  · rcases mem_expanded.mp h with h | ⟨-, -, entry, -, hmem⟩
    · exact .inl (admits_of_wildcard h)
    · exact absurd (by decide) (mem_membersFor hmem).1
  · rcases mem_expanded.mp h with h | ⟨-, hmember, entry, hentry, hmem⟩
    · exact .inl (admits_of_key h hk)
    rcases (mem_membersFor hmem).2 with ⟨ht, hlazy, hu⟩ | ⟨hme, hu⟩
    · left
      refine admits_of_entry hentry (.inr ?_)
      have hne : lazy ≠ wildcard := by decide
      simp [typesFor, ht, hlazy, hne, hmember, order.mem, hu]
    · exact .inr ⟨⟨hw, entry.1, hme ▸ mem_entries.mp hentry⟩, Prod.ext hmember hu⟩
  · rcases mem_expanded.mp h with h | ⟨-, hmember, -⟩
    · exact .inl (admits_of_me h huser)
    · exact absurd hmember hne

/-! ## Changes of the current state -/

theorem lookup_currentState {state : StateMap} {e : String} (h : (q.currentState state).lookup k = some e) :
    q.roomStateDeltaIdMap.lookup k = some e ∨ (k ∉ q.roomStateDeltaIdMap ∧ state.lookup k = some e) := by
  rw [← lookup_eq_none]
  revert h
  unfold currentState roomStateDeltaIdMap
  induction q.deltas using reverseRecOn generalizing e with
  | nil => exact fun h => .inr ⟨lookup_empty k, h⟩
  | append_singleton deltas d ih =>
    intro h
    rw [foldl_concat] at h ⊢
    rcases hd : d.eventId with _ | e'
    · simp only [hd, Option.elim_none, lookup_erase_eq] at h
      split at h
      · cases h
      · simpa using ih h
    simp only [hd, Option.elim_some, lookup_insert_eq] at h ⊢
    split at h
    · rename_i hk
      simp only [hk]
      exact .inl h
    · rename_i hk
      simp only [hk]
      exact ih h

end Request

/-! ## What is in a response -/

namespace Connection

variable {order : SetOrder} {user : Requester} {c : Connection} {q : Request} {k : StateKey} {e : String}

theorem admits_stateFilter (h : (q.requiredStateFilter order user).admits k = true) :
    (c.stateFilter order user q).admits k = true := by
  unfold stateFilter
  by_cases hfull : (q.requiredStateFilter order user).isFull = true
  · simp only [hfull]
    exact StateFilter.isFull_admits rfl
  simp only [hfull, Bool.false_eq_true, if_false]
  have hothers : (q.requiredStateFilter order user).includeOthers = false := by
    unfold Request.requiredStateFilter at hfull ⊢
    split at hfull
    · exact absurd rfl hfull
    · rename_i hw
      rw [if_neg hw]
      rfl
  rw [StateFilter.make_types _ hothers, StateFilter.admits_fromTypes]
  exact ((StateFilter.admits_iff_toTypes hothers).mp h).imp (mem_append_right _) (mem_append_right _)

theorem lookup_filterState (f : StateFilter) (m : StateMap) :
    (f.filterState m).lookup k = if f.admits k = true then m.lookup k else none := by
  rw [StateFilter.filterState_eq, lookup_restrict]

theorem not_isEmpty_of_admits {f : StateFilter} (h : f.admits k = true) : ¬ f.IsEmpty := by
  rintro ⟨ho, ht⟩
  rw [StateFilter.admits_iff] at h
  simp [ho, ht] at h

theorem lookup_stateIds (hcur : (q.currentState c.state).lookup k = some e)
    (h : q.roomStateDeltaIdMap.lookup k = some e ∨ (c.requiredStateUpdate order user q).2.admits k = true) :
    (c.stateIds order user q).lookup k = some e := by
  unfold stateIds
  by_cases hadd : (c.requiredStateUpdate order user q).2.admits k = true
  · simp [not_isEmpty_of_admits hadd, lookup_update, lookup_filterState, hadd, hcur]
  have hdelta := h.resolve_right hadd
  by_cases hempty : (c.requiredStateUpdate order user q).2.IsEmpty
  · simp [hempty, hdelta]
  · simp [hempty, lookup_update, lookup_filterState, hadd, hdelta]

/-- **A current state event that is asked for is sent** by an initial response, when it has changed, and when it is
fetched. -/
theorem lookup_requiredRoomState (hadm : (q.requiredStateFilter order user).admits k = true)
    (hcur : (q.currentState c.state).lookup k = some e)
    (h : c.initial q = true ∨ q.roomStateDeltaIdMap.lookup k = some e ∨
      (c.requiredStateUpdate order user q).2.admits k = true) :
    (c.requiredRoomState order user q).lookup k = some e := by
  have hroom : (c.roomState order user q).lookup k = some e := by
    unfold roomState
    by_cases hinit : c.initial q = true
    · simp [hinit, lookup_filterState, admits_stateFilter hadm, hcur]
    have hids := lookup_stateIds hcur (h.resolve_left hinit)
    by_cases hheroes : c.heroUserIds q = []
    · simp [hinit, hheroes, lookup_filterState, admits_stateFilter hadm, hids]
    · simp only [hinit, hheroes, Bool.false_eq_true, if_false, lookup_update, lookup_filterState,
        admits_stateFilter hadm, hids, hcur]
      split <;> rfl
  simp [requiredRoomState, not_isEmpty_of_admits hadm, lookup_filterState, hadm, hroom]

theorem lookup_requiredRoomState_eq_none (hinit : c.initial q = false) (hheroes : c.heroUserIds q = [])
    (hdelta : q.roomStateDeltaIdMap.lookup k = none) (hadd : (c.requiredStateUpdate order user q).2.admits k = false) :
    (c.requiredRoomState order user q).lookup k = none := by
  have hids : (c.stateIds order user q).lookup k = none := by
    unfold stateIds
    by_cases hempty : (c.requiredStateUpdate order user q).2.IsEmpty
    · simp [hempty, hdelta]
    · simp [hempty, lookup_update, lookup_filterState, hadd, hdelta]
  unfold requiredRoomState
  by_cases hempty : (q.requiredStateFilter order user).IsEmpty
  · simp [hempty]
  · simp [hempty, roomState, hinit, hheroes, lookup_filterState, hids]

/-! ## What is recorded -/

/-- The requester has joined again, and the old config is kept: it is only replaced when the timeline is limited and
shorter than before. -/
def KeepsOld (prev : RoomSyncConfig) (q : Request) : Prop :=
  q.newlyJoined = true ∧ ¬ (q.limited = some true ∧ prev.timelineLimit > q.config.timelineLimit)

variable {prev : RoomSyncConfig}

variable (order user) in
theorem requiredStateUpdate_eq (hprev : c.roomConfig = some prev) (hinit : c.initial q = false) :
    c.requiredStateUpdate order user q = requiredStateChanges order user.userId prev.requiredStateMap
      (q.expandedRequiredStateMap order user) q.roomStateDeltaIdMap := by
  simp [requiredStateUpdate, hinit, hprev]

theorem initial_eq_false (hprev : c.roomConfig = some prev) (hjoined : q.newlyJoined = false) :
    c.initial q = false := by
  simp [initial, hprev, hjoined]

theorem roomConfig_step_of_keepsOld (hprev : c.roomConfig = some prev) (h : KeepsOld prev q) :
    (c.step order user q).roomConfig = some prev := by
  obtain ⟨hjoined, hlimit⟩ := h
  have hrec : c.recordedConfig order user q = none := by
    simp [recordedConfig, ignoreTimelineBound, hjoined, hprev, hlimit, requiredStateUpdate, initial]
  simp [step, hrec, hprev]

theorem roomConfig_step_of_none (hnone : c.roomConfig = none) :
    (c.step order user q).roomConfig = some ⟨q.config.timelineLimit, q.expandedRequiredStateMap order user⟩ := by
  simp [step, recordedConfig, hnone, requiredStateMapToPersist, requiredStateUpdate]

/-- So does the first response after the requester has joined again, if it replaces the config. -/
theorem roomConfig_step_of_joined (hprev : c.roomConfig = some prev)
    (hjoined : q.newlyJoined = true) (h : ¬ KeepsOld prev q) :
    (c.step order user q).roomConfig = some ⟨q.config.timelineLimit, q.expandedRequiredStateMap order user⟩ := by
  have hlimit : q.limited = some true ∧ prev.timelineLimit > q.config.timelineLimit := by
    by_contra hlimit
    exact h ⟨hjoined, hlimit⟩
  simp [step, recordedConfig, hprev, hjoined, hlimit, requiredStateMapToPersist,
    requiredStateUpdate, initial]

variable (order user) in
/-- Every other response leaves the effective config of `_required_state_changes`, or the expanded one if that makes no
changes or leaves nothing. -/
theorem roomConfig_step_of_some (hprev : c.roomConfig = some prev)
    (hjoined : q.newlyJoined = false) : ∃ config, (c.step order user q).roomConfig = some config ∧
      (config.requiredStateMap = effective order user.userId prev.requiredStateMap
          (q.expandedRequiredStateMap order user) q.roomStateDeltaIdMap ∨
        config.requiredStateMap = q.expandedRequiredStateMap order user ∧
          ∀ changed, (c.requiredStateUpdate order user q).1 = some changed → changed.rows = []) := by
  have hupdate := requiredStateUpdate_eq order user hprev (initial_eq_false hprev hjoined)
  rcases hrec : c.recordedConfig order user q with _ | config
  · refine ⟨prev, by simp [step, hrec, hprev], .inl ?_⟩
    have hnone : (c.requiredStateUpdate order user q).1 = none := by
      by_contra hsome
      have := Option.isSome_iff_ne_none.mpr hsome
      simp [recordedConfig, hprev, this] at hrec
    rw [effective, ← hupdate, hnone]
    rfl
  · refine ⟨config, by simp [step, hrec], ?_⟩
    have hpersist : config.requiredStateMap = c.requiredStateMapToPersist order user q := by
      have hall : c.recordedConfig order user q = none ∨ c.recordedConfig order user q =
          some ⟨q.config.timelineLimit, c.requiredStateMapToPersist order user q⟩ := by
        unfold recordedConfig
        split
        · exact .inr rfl
        split
        · split
          · exact .inr rfl
          split
          · exact .inr rfl
          · exact .inl rfl
        · exact .inr rfl
      rw [hrec] at hall
      rw [Option.some.inj (hall.resolve_left (by simp))]
    rw [hpersist]
    unfold requiredStateMapToPersist
    rcases hchanged : (c.requiredStateUpdate order user q).1 with _ | changed
    · exact .inr ⟨rfl, by simp⟩
    by_cases hempty : changed.rows.isEmpty = true
    · refine .inr ⟨by simp [hempty], ?_⟩
      rintro _ ⟨⟩
      exact List.isEmpty_iff.mp hempty
    · rw [effective, ← hupdate, hchanged]
      simp [hempty]

end Connection

end Synapse.SlidingSync
