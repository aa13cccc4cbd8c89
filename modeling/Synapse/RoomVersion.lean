/-!
# Synapse.RoomVersion — the known room versions

`synapse/api/room_versions.py` builds one frozen `RoomVersion` object per version and no other code builds one, so the
versions are an enumeration and the attributes are functions of it.  Only the attributes that modelled code reads are
kept.
-/

namespace Synapse

/-- `EventFormatVersions`. -/
inductive EventFormat where
  | roomV1V2
  | roomV3
  | roomV4Plus
  deriving Repr, DecidableEq

/-- `RoomVersions`. -/
inductive RoomVersion where
  | v1 | v2 | v3 | v4 | v5 | v6 | v7 | v8 | v9 | v10 | msc1767v10 | msc3757v10 | v11 | msc3757v11
  deriving Repr, DecidableEq, Inhabited

namespace RoomVersion

/-- The wire format of the events of a room. -/
def eventFormat : RoomVersion → EventFormat
  | v1 | v2 => .roomV1V2
  | v3 => .roomV3
  | _ => .roomV4Plus

/-- Before MSC2432, `m.room.aliases` had special auth rules. -/
def specialCaseAliasesAuth : RoomVersion → Bool
  | v1 | v2 | v3 | v4 | v5 => true
  | _ => false

/-- MSC2209: check the `notifications` key of power levels. -/
def limitNotificationsPowerLevels : RoomVersion → Bool
  | v1 | v2 | v3 | v4 | v5 => false
  | _ => true

/-- The create event has no `creator` field. -/
def implicitRoomCreator : RoomVersion → Bool
  | v11 | msc3757v11 => true
  | _ => false

/-- The redaction rules of room version 11. -/
def updatedRedactionRules : RoomVersion → Bool
  | v11 | msc3757v11 => true
  | _ => false

/-- The `restricted` join rule. -/
def restrictedJoinRule : RoomVersion → Bool
  | v1 | v2 | v3 | v4 | v5 | v6 | v7 => false
  | _ => true

/-- The `knock` join rule. -/
def knockJoinRule : RoomVersion → Bool
  | v1 | v2 | v3 | v4 | v5 | v6 => false
  | _ => true

/-- The `knock_restricted` join rule. -/
def knockRestrictedJoinRule : RoomVersion → Bool
  | v1 | v2 | v3 | v4 | v5 | v6 | v7 | v8 | v9 => false
  | _ => true

def enforceIntPowerLevels : RoomVersion → Bool
  | v1 | v2 | v3 | v4 | v5 | v6 | v7 | v8 | v9 => false
  | _ => true

def msc3757Enabled : RoomVersion → Bool
  | msc3757v10 | msc3757v11 => true
  | _ => false

/-- Every version with the `knock_restricted` rule also has the `restricted` rule. -/
theorem restrictedJoinRule_of_knockRestricted {v : RoomVersion} (h : v.knockRestrictedJoinRule = true) :
    v.restrictedJoinRule = true := by
  cases v <;> first | rfl | cases h

end RoomVersion

end Synapse
