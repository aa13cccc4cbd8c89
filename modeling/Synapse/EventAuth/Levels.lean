import Synapse.Event

/-!
# Synapse.EventAuth.Levels — power levels

The lookups of `synapse/event_auth.py` into the power-levels and create events of a room state.

* `AuthDict`: the dict from `(type, state_key)` to event that `check_state_dependent_auth_rules` builds.
* `getUserPowerLevel`, `getNamedLevel`, `getSendLevel`: each reads at most the power-levels and the create event
  (`getUserPowerLevel_congr`, `getNamedLevel_congr`).
-/

namespace Synapse

namespace EventTypes

abbrev member : String := "m.room.member"
abbrev create : String := "m.room.create"
abbrev joinRules : String := "m.room.join_rules"
abbrev powerLevels : String := "m.room.power_levels"
abbrev aliases : String := "m.room.aliases"
abbrev redaction : String := "m.room.redaction"
abbrev thirdPartyInvite : String := "m.room.third_party_invite"

end EventTypes

namespace EventAuth

/-- The `auth_dict` of the auth rules, through its lookups. -/
abbrev AuthDict := StateKey → Option Event

/-- `{(e.type, e.state_key): e for e in auth_events}`: a later event replaces an earlier one of the same key. -/
def authDict (authEvents : List Event) : AuthDict :=
  fun k => authEvents.reverse.find? fun e => e.key? = some k

/-- `auth_events.get((type, k))` for a state key taken from an event's content. -/
def getJson (authEvents : AuthDict) (type : String) (k : Json) : Except Exc (Option Event) :=
  match k with
  | .str s => pure (authEvents (type, s))
  | k => if k.hashable then pure none else throw .typeError

def getPowerLevelEvent (authEvents : AuthDict) : Option Event := authEvents (EventTypes.powerLevels, "")

/-- The level that power-levels content gives to a user: an explicit entry, else `users_default`, else `0`. -/
def contentUserLevel (pl : Event) (userId : String) : Except Exc Int := do
  let level ← (pl.contentGet "users" (.obj [])).get userId .null
  let level := if level.isNone then pl.contentGet "users_default" (.int 0) else level
  if level.isNone then pure 0 else pyInt level

/-- The creator that a create event names. -/
def creatorOf (roomVersion : RoomVersion) (create : Event) : Except Exc Json :=
  if roomVersion.implicitRoomCreator then pure (.str create.sender) else create.contentItem "creator"

def getUserPowerLevel (userId : String) (authEvents : AuthDict) : Except Exc Int :=
  match getPowerLevelEvent authEvents with
  | some pl => contentUserLevel pl userId
  | none =>
    -- without power levels the creator has 100 and everyone else 0
    match authEvents (EventTypes.create, "") with
    | some create => do
      let creator ← creatorOf create.roomVersion create
      pure (if creator.eqStr userId then 100 else 0)
    | none => pure 0

def getNamedLevel (authEvents : AuthDict) (name : String) (default : Int) : Except Exc Int :=
  match getPowerLevelEvent authEvents with
  | none => pure default
  | some pl =>
    let level := pl.contentGet name .null
    if level.isNone then pure default else pyInt level

/-- The level required to send an event of a type, from the power levels in force. -/
def getSendLevel (etype : String) (stateKey : Option String) (powerLevelsEvent : Option Event) : Except Exc Int := do
  let content : JsonDict := (powerLevelsEvent.map Event.content).getD []
  let sendLevel ← ((content.lookup "events").getD (.obj [])).get etype .null
  if sendLevel.isNone then
    if stateKey.isSome then pyInt ((content.lookup "state_default").getD (.int 50))
    else pyInt ((content.lookup "events_default").getD (.int 0))
  else pyInt sendLevel

section Congr

variable {d d' : AuthDict}

theorem getUserPowerLevel_congr (hpl : d (EventTypes.powerLevels, "") = d' (EventTypes.powerLevels, ""))
    (hcr : d (EventTypes.create, "") = d' (EventTypes.create, "")) (userId : String) :
    getUserPowerLevel userId d = getUserPowerLevel userId d' := by
  unfold getUserPowerLevel getPowerLevelEvent
  rw [hpl, hcr]

theorem getNamedLevel_congr (hpl : d (EventTypes.powerLevels, "") = d' (EventTypes.powerLevels, ""))
    (name : String) (default : Int) : getNamedLevel d name default = getNamedLevel d' name default := by
  unfold getNamedLevel getPowerLevelEvent
  rw [hpl]

end Congr

end EventAuth

end Synapse
