import Mathlib.Data.Finmap
import Synapse.Json
import Synapse.RoomVersion

/-!
# Synapse.Event — events and identifiers

`Event` holds what the modelled code reads of an `EventBase`.  `EventBase` defines neither `__bool__` nor `__len__`, so
a test such as `if power_level_event:` is a test for `None`.
-/

namespace Synapse

/-- A `(type, state_key)` pair. -/
abbrev StateKey := String × String

/-- A dict from `(type, state_key)` to event id. -/
abbrev StateMap := Finmap fun _ : StateKey => String

/-- An `EventBase`, with the parts of its internal metadata that are read. -/
structure Event where
  eventId : String
  roomVersion : RoomVersion
  type : String
  /-- `None` for an event that is not a state event. -/
  stateKey : Option String
  sender : String
  roomId : String
  content : JsonDict
  prevEventIds : List String
  authEventIds : List String
  /-- The top-level `redacts` field, `null` when absent. -/
  redactsField : Json
  originServerTs : Int
  rejectedReason : Option String
  outlier : Bool
  softFailed : Bool
  deriving Repr, Inhabited

namespace Event

variable (e : Event) (key : String)

/-- `event.is_state()`. -/
def isState : Bool := e.stateKey.isSome

/-- The attribute `event.state_key`, missing on message events. -/
def stateKeyAttr : Except Exc String :=
  e.stateKey.elim (throw (.attributeError "state_key")) pure

def key? : Option StateKey := e.stateKey.map fun k => (e.type, k)

/-- `event.content.get(key, default)`. -/
def contentGet (default : Json) : Json := (e.content.lookup key).getD default

/-- `key in event.content`. -/
def contentHas : Bool := (e.content.lookup key).isSome

/-- `event.content[key]`. -/
def contentItem : Except Exc Json :=
  (e.content.lookup key).elim (throw (.keyError (.str key))) pure

/-- `event.membership`. -/
def membership : Except Exc Json := e.contentItem "membership"

/-- `event.redacts`: MSC2176 moved the field into the content. -/
def redacts : Json :=
  if e.roomVersion.updatedRedactionRules then e.contentGet "redacts" .null else e.redactsField

/-- The name of the Python class of the event. -/
def className : String :=
  match e.roomVersion.eventFormat with
  | .roomV1V2 => "FrozenEvent"
  | .roomV3 => "FrozenEventV2"
  | .roomV4Plus => "FrozenEventV3"

def repr : Except Exc Msg := do
  let rejection := match e.rejectedReason with
    | some r => if r.isEmpty then [] else [.text s!"REJECTED={r}, "]
    | none => []
  let conditionalMembership ←
    if e.type = "m.room.member" then do pure [.text "membership=", .str (← e.membership), .text ", "] else pure []
  let stateKey := e.stateKey.getD "None"
  let outlier := if e.outlier then "True" else "False"
  return [.text s!"<{e.className} "] ++ rejection ++
    [.text s!"event_id={e.eventId}, type={e.type}, state_key={stateKey}, "] ++ conditionalMembership ++
    [.text s!"outlier={outlier}>"]

variable {e key}

theorem stateKeyAttr_ok {k : String} : e.stateKeyAttr = .ok k ↔ e.stateKey = some k := exc_elim_ok

theorem contentItem_ok {v : Json} : e.contentItem key = .ok v ↔ e.content.lookup key = some v := exc_elim_ok

/-- A state event of a v10 room, from what the auth rules read. -/
def ofContent (eventId type stateKey sender : String) (content : JsonDict) : Event where
  eventId := eventId
  roomVersion := .v10
  type := type
  stateKey := some stateKey
  sender := sender
  roomId := "!r:hs"
  content := content
  prevEventIds := []
  authEventIds := []
  redactsField := .null
  originServerTs := 0
  rejectedReason := none
  outlier := false
  softFailed := false

end Event

/-! ## Identifiers -/

/-- `get_domain_from_id`: what follows the first colon. -/
def getDomainFromId (s : String) : Except Exc String :=
  match s.toList.dropWhile (· ≠ ':') with
  | [] => throw (.synapse 400 [.text "Invalid ID: ", .repr (.str s)])
  | _ :: domain => pure (String.ofList domain)

/-- `UserID.from_string`, as localpart and domain. -/
def userIdFromString (s : String) : Except Exc (String × String) :=
  match s.toList with
  | '@' :: rest => match rest.dropWhile (· ≠ ':') with
    | [] => throw (.synapseError 400 [.text "Expected UserID of the form '@localname:domain'"] .invalidParam)
    | _ :: domain => pure (String.ofList (rest.takeWhile (· ≠ ':')), String.ofList domain)
  | _ => throw (.synapseError 400 [.text "Expected UserID string to start with '@'"] .invalidParam)

example : getDomainFromId "@alice:hs1:8448" = .ok "hs1:8448" := by rfl

end Synapse
