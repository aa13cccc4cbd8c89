import Synapse.EventAuth.Levels

/-!
# Synapse.EventAuth.Rules — the state-dependent auth rules

`checkStateDependentAuthRules` of `synapse/event_auth.py` with everything it calls, exceptions included.  The verdict
is `ok` when the source returns and `error` when it raises; `ok` carries whether the redaction rule set
`internal_metadata.recheck_redaction`.

`Deps` holds what the rules take from outside this repository: the IPv6 test of `netaddr`, the signature check of
`signedjson`, and the iteration order of Python sets.
-/

namespace Synapse.EventAuth

open EventTypes

/-- How decoding a public key and verifying a signed object with it ends. -/
inductive SigOutcome where
  | verified
  /-- `KeyError` or `SignatureVerifyException`, which the caller catches. -/
  | caught
  /-- Any other exception. -/
  | raised (e : Exc)

/-- The parts of the rules that live outside the repository. -/
structure Deps where
  validIpv6 : String → Bool
  /-- Key name, base64 public key, signed object, server name. -/
  verifySigned : String → Json → Json → String → SigOutcome
  /-- The order in which a set is iterated. -/
  setOrder : List Json → List Json
  setOrder_perm : ∀ xs, (setOrder xs).Perm xs

/-- No IPv6 literals, no signatures, sets iterated in insertion order. -/
def Deps.offline : Deps where
  validIpv6 _ := false
  verifySigned _ _ _ _ := .caught
  setOrder xs := xs
  setOrder_perm _ := .refl _

variable (deps : Deps)

/-! ## Federation, sender membership -/

def canFederate (authEvents : AuthDict) : Bool :=
  match authEvents (create, "") with
  | none => false
  | some creation => match creation.contentGet "m.federate" (.bool true) with
    | .bool b => b
    | _ => false

def unfederatable : Exc := .auth 403 [.text "This room has been marked as unfederatable."]

/-- `ev and ev.membership == m`. -/
def hasMembership (ev : Option Event) (m : String) : Except Exc Bool :=
  match ev with
  | none => pure false
  | some e => do pure ((← e.membership).eqStr m)

def reprMember : Option Event → Except Exc Msg
  | none => pure [.text "None"]
  | some m => m.repr

def checkJoinedRoom (member : Option Event) (userId : Json) (roomId : String) : Except Exc Unit := do
  let joined ← hasMembership member "join"
  if joined then pure ()
  else do
    let repr ← reprMember member
    throw (.auth 403 ([.text "User ", .str userId, .text s!" not in room {roomId} ("] ++ repr ++ [.text ")"]))

def checkEventSenderInRoom (event : Event) (authEvents : AuthDict) : Except Exc Unit :=
  checkJoinedRoom (authEvents (member, event.sender)) (.str event.sender) event.roomId

/-! ## Third-party invites -/

/-- How a scan of the signatures ends: a signature verified, the exception handler left the scan, nothing found. -/
inductive Scan where
  | found
  | abandoned
  | exhausted

def scanKeys (signed publicKey : Json) (server : String) : List String → Except Exc Scan
  | [] => pure .exhausted
  | keyName :: rest =>
    if "ed25519:".toList.isPrefixOf keyName.toList then
      match deps.verifySigned keyName publicKey signed server with
      | .verified => pure .found
      | .caught => pure .abandoned
      | .raised e => throw e
    else scanKeys signed publicKey server rest

def scanServers (signed publicKey : Json) : JsonDict → Except Exc Scan
  | [] => pure .exhausted
  | (server, block) :: rest => do
    let keys ← block.keys
    match ← scanKeys deps signed publicKey server keys with
    | .exhausted => scanServers signed publicKey rest
    | r => pure r

/-- The loop over `get_public_keys(invite_event)`.  Reading `public_key` is outside the `try`. -/
def scanPublicKeys (signed signatures : Json) : List Json → Except Exc Bool
  | [] => pure false
  | publicKeyObject :: rest => do
    let publicKey ← publicKeyObject.index (.str "public_key")
    let servers ← signatures.items
    match ← scanServers deps signed publicKey servers with
    | .found => pure true
    | _ => scanPublicKeys signed signatures rest

def getPublicKeys (invite : Event) : Except Exc (List Json) := do
  let first : List Json := match invite.content.lookup "public_key" with
    | none => []
    | some pk => [.obj (("public_key", pk) :: match invite.content.lookup "key_validity_url" with
        | none => []
        | some u => [("key_validity_url", u)])]
  let more ← (invite.contentGet "public_keys" (.arr [])).pyList
  pure (first ++ more)

/-- The `signed` object of a third-party invite with its `mxid`, `token` and `signatures`, when it has them all. -/
def signedInvite (event : Event) : Option (JsonDict × Json × Json × Json) :=
  match event.content.lookup "third_party_invite" with
  | some (.obj tpi) => match tpi.lookup "signed" with
    | some (.obj signed) => do
      let mxid ← signed.lookup "mxid"
      let token ← signed.lookup "token"
      let signatures ← signed.lookup "signatures"
      some (signed, mxid, token, signatures)
    | _ => none
  | _ => none

def verifyThirdPartyInvite (event : Event) (authEvents : AuthDict) : Except Exc Bool :=
  match signedInvite event with
  | none => pure false
  | some (signed, mxid, token, signatures) => do
    match ← getJson authEvents thirdPartyInvite token with
    | none => pure false
    | some invite =>
      -- `user_id` and `sender` are the same field, so the source tests it twice
      if invite.sender ≠ event.sender then pure false
      else if event.sender ≠ invite.sender then pure false
      else do
        let stateKey ← event.stateKeyAttr
        if !mxid.eqStr stateKey then pure false
        else do
          let publicKeys ← getPublicKeys invite
          scanPublicKeys deps (.obj signed) signatures publicKeys

/-! ## Membership changes -/

section Membership

variable (roomVersion : RoomVersion) (event : Event) (targetUserId : String) (authEvents : AuthDict)

/-- The special case of the room creator's first join. -/
def isCreatorJoining (membership : Json) : Except Exc Bool :=
  match event.prevEventIds with
  | [prev] =>
    if membership.eqStr "join" then
      match authEvents (create, "") with
      | some create =>
        if prev = create.eventId then do
          let creator ← creatorOf roomVersion create
          let stateKey ← event.stateKeyAttr
          pure (creator.eqStr stateKey)
        else pure false
      | none => pure false
    else pure false
  | _ => pure false

/-- What the membership rules know about the caller, the target and the levels. -/
structure MembershipInfo where
  callerInRoom : Bool
  callerInvited : Bool
  callerKnocked : Bool
  targetInRoom : Bool
  targetBanned : Bool
  userLevel : Int
  targetLevel : Int
  inviteLevel : Int
  banLevel : Int

def membershipInfo : Except Exc MembershipInfo := do
  let caller := authEvents (member, event.sender)
  let callerInRoom ← hasMembership caller "join"
  let callerInvited ← hasMembership caller "invite"
  let callerKnocked ← (if roomVersion.knockJoinRule then hasMembership caller "knock" else pure false)
  let target := authEvents (member, targetUserId)
  let targetInRoom ← hasMembership target "join"
  let targetBanned ← hasMembership target "ban"
  let userLevel ← getUserPowerLevel event.sender authEvents
  let targetLevel ← getUserPowerLevel targetUserId authEvents
  let inviteLevel ← getNamedLevel authEvents "invite" 0
  let banLevel ← getNamedLevel authEvents "ban" 50
  pure ⟨callerInRoom, callerInvited, callerKnocked, targetInRoom, targetBanned, userLevel, targetLevel, inviteLevel,
    banLevel⟩

/-- The join rule in force; the source reads it for every membership event. -/
def joinRuleOf : Json :=
  match authEvents (joinRules, "") with
  | some e => e.contentGet "join_rule" (.str "invite")
  | none => .str "invite"

def bannedFromRoom : Exc := .auth 403 [.text s!"{targetUserId} is banned from the room"]

def checkInvite (info : MembershipInfo) (targetUserId : String) : Except Exc Unit :=
  if info.targetBanned then throw (bannedFromRoom targetUserId)
  else if info.targetInRoom then
    throw (.unstable 403 [.text s!"{targetUserId} is already in the room."] .alreadyJoined)
  else if info.userLevel < info.inviteLevel then
    throw (.unstable 403 [.text "You don't have permission to invite users"] .insufficientPower)
  else pure ()

/-- A join under the `restricted` or `knock_restricted` rule by a user who is neither joined nor invited. -/
def checkAuthorisedJoin (inviteLevel : Int) : Except Exc Unit :=
  let authorisingUser := event.contentGet "join_authorised_via_users_server" .null
  match authorisingUser with
  | .null => throw (.auth 403 [.text "Join event is missing authorising user."])
  | .str u => do
    checkJoinedRoom (authEvents (member, u)) authorisingUser event.roomId
    let level ← getUserPowerLevel u authEvents
    if level < inviteLevel then throw (.auth 403 [.text "Join event authorised by invalid server."]) else pure ()
  | u => do
    -- no membership event has such a state key
    let member ← getJson authEvents member u
    checkJoinedRoom member u event.roomId

def checkJoin (info : MembershipInfo) : Except Exc Unit :=
  let joinRule := joinRuleOf authEvents
  if event.sender ≠ targetUserId then throw (.auth 403 [.text "Cannot force another user to join."])
  else if info.targetBanned then throw (.auth 403 [.text "You are banned from this room"])
  else if joinRule.eqStr "public" then pure ()
  else if (roomVersion.restrictedJoinRule && joinRule.eqStr "restricted") ||
      (roomVersion.knockRestrictedJoinRule && joinRule.eqStr "knock_restricted") then
    if !info.callerInRoom && !info.callerInvited then checkAuthorisedJoin event authEvents info.inviteLevel
    else pure ()
  else if joinRule.eqStr "invite" || (roomVersion.knockJoinRule && joinRule.eqStr "knock") ||
      (roomVersion.knockRestrictedJoinRule && joinRule.eqStr "knock_restricted") then
    if info.callerInRoom || info.callerInvited then pure ()
    else throw (.auth 403 [.text "You are not invited to this room."])
  else throw (.auth 403 [.text "You are not allowed to join this room"])

def checkLeave (info : MembershipInfo) : Except Exc Unit :=
  if info.targetBanned && info.userLevel < info.banLevel then
    throw (.unstable 403 [.text s!"You cannot unban user {targetUserId}."] .insufficientPower)
  else if targetUserId ≠ event.sender then do
    let kickLevel ← getNamedLevel authEvents "kick" 50
    if info.userLevel < kickLevel ∨ info.userLevel ≤ info.targetLevel then
      throw (.unstable 403 [.text s!"You cannot kick user {targetUserId}."] .insufficientPower)
    else pure ()
  else pure ()

def checkBan (info : MembershipInfo) : Except Exc Unit :=
  if info.userLevel < info.banLevel then
    throw (.unstable 403 [.text "You don't have permission to ban"] .insufficientPower)
  else if info.userLevel ≤ info.targetLevel then
    throw (.unstable 403 [.text "You don't have permission to ban this user"] .insufficientPower)
  else pure ()

def checkKnock (info : MembershipInfo) : Except Exc Unit :=
  let joinRule := joinRuleOf authEvents
  if !joinRule.eqStr "knock" && (!roomVersion.knockRestrictedJoinRule || !joinRule.eqStr "knock_restricted") then
    throw (.auth 403 [.text "You don't have permission to knock"])
  else if targetUserId ≠ event.sender then throw (.auth 403 [.text "You cannot knock for other users"])
  else if info.targetInRoom then
    throw (.unstable 403 [.text "You cannot knock on a room you are already in"] .alreadyJoined)
  else if info.callerInvited then throw (.auth 403 [.text "You are already invited to this room"])
  else if info.targetBanned then throw (.auth 403 [.text "You are banned from this room"])
  else pure ()

/-- The rules for each kind of membership, once the caller may change memberships at all. -/
def checkByMembership (membership : Json) (info : MembershipInfo) : Except Exc Unit :=
  if membership.eqStr "invite" then checkInvite info targetUserId
  else if membership.eqStr "join" then checkJoin roomVersion event targetUserId authEvents info
  else if membership.eqStr "leave" then checkLeave event targetUserId authEvents info
  else if membership.eqStr "ban" then checkBan info
  else if roomVersion.knockJoinRule && membership.eqStr "knock" then
    checkKnock roomVersion event targetUserId authEvents info
  else throw (.auth 500 [.text "Unknown membership ", .str membership])

/-- The rules after the creator's first join has been dealt with. -/
def checkMembershipRules (membership : Json) : Except Exc Unit := do
  let info ← membershipInfo roomVersion event targetUserId authEvents
  if membership.eqStr "invite" && event.contentHas "third_party_invite" then do
    let verified ← verifyThirdPartyInvite deps event authEvents
    if verified then
      if info.targetBanned then throw (bannedFromRoom targetUserId) else pure ()
    else throw (.auth 403 [.text "You are not invited to this room."])
  else if !membership.eqStr "join" && !membership.eqStr "knock" then
    if (info.callerInvited || info.callerKnocked) && membership.eqStr "leave" && targetUserId == event.sender then
      pure ()
    else if !info.callerInRoom then
      throw (.unstable 403 [.text s!"{event.sender} not in room {event.roomId}."] .notJoined)
    else checkByMembership roomVersion event targetUserId authEvents membership info
  else checkByMembership roomVersion event targetUserId authEvents membership info

def isMembershipChangeAllowed : Except Exc Unit := do
  let membership ← event.contentItem "membership"
  let creatorJoining ← isCreatorJoining roomVersion event authEvents membership
  if creatorJoining then pure ()
  else do
    let targetUserId ← event.stateKeyAttr
    let creatingDomain ← getDomainFromId event.roomId
    let targetDomain ← getDomainFromId targetUserId
    if creatingDomain ≠ targetDomain ∧ canFederate authEvents = false then throw unfederatable
    else checkMembershipRules deps roomVersion event targetUserId authEvents membership

end Membership

/-! ## Sending events -/

/-- `VALID_HOST_REGEX`: dot-separated, non-empty labels of ASCII letters, digits and dashes. -/
def validHost (host : List Char) : Bool :=
  (host.splitOn '.').all fun label =>
    !label.isEmpty && label.all fun c => ('0' ≤ c && c ≤ '9') || ('a' ≤ c && c ≤ 'z') || ('A' ≤ c && c ≤ 'Z') || c == '-'

/-- `parse_server_name`: the host, with the port checked to be a number. -/
def parseServerName (name : List Char) : Option (List Char) :=
  if name.getLast? = some ']' then some name
  else match name.reverse.dropWhile (· ≠ ':') with
    | [] => some name
    | _ :: hostRev =>
      let port := String.ofList (name.reverse.takeWhile (· ≠ ':')).reverse
      (intOfStr port).map fun _ => hostRev.reverse

/-- `parse_and_validate_server_name` does not raise. -/
def isValidServerName (name : String) : Bool :=
  match parseServerName name.toList with
  | none => false
  | some ('[' :: rest) => rest.getLast? = some ']' && !rest.dropLast.isEmpty &&
      deps.validIpv6 (String.ofList rest.dropLast)
  | some host => validHost host

/-- `UserID.is_valid`. -/
def isValidUserId (s : String) : Bool :=
  match userIdFromString s with
  | .ok (_, domain) => isValidServerName deps domain
  | .error _ => false

/-- MSC3757: the user who owns a state key, which is the key up to the first underscore after the first colon. -/
def stateKeyOwner (stateKey : String) : Option String :=
  match stateKey.toList.dropWhile (· ≠ ':') with
  | [] => none
  | _ :: afterColon =>
    let owner := if '_' ∈ afterColon then
        String.ofList (stateKey.toList.takeWhile (· ≠ ':') ++ ':' :: afterColon.takeWhile (· ≠ '_'))
      else stateKey
    if isValidUserId deps owner then some owner else none

def othersState : Exc := .auth 403 [.text "You are not allowed to set others state"]

/-- The rule about state keys that look like user ids. -/
def checkStateKeyOwner (event : Event) (stateKey : String) (userLevel : Int) (authEvents : AuthDict) :
    Except Exc Unit :=
  if stateKey.toList.head? = some '@' ∧ stateKey ≠ event.sender then
    if event.roomVersion.msc3757Enabled then
      match stateKeyOwner deps stateKey with
      | none => throw (.synapseError 400
          [.text "State key neither equals a valid user ID, nor starts with one plus an underscore"] .badJson)
      | some owner =>
        if owner = event.sender then pure ()
        else do
          let ownerLevel ← getUserPowerLevel owner authEvents
          if userLevel > ownerLevel then pure () else throw othersState
    else throw othersState
  else pure ()

def canSendEvent (event : Event) (authEvents : AuthDict) : Except Exc Unit := do
  let sendLevel ← getSendLevel event.type event.stateKey (getPowerLevelEvent authEvents)
  let userLevel ← getUserPowerLevel event.sender authEvents
  if userLevel < sendLevel then
    throw (.unstable 403 [.text "You don't have permission to post that to the room. user_level (", .str (.int userLevel),
      .text ") < send_level (", .str (.int sendLevel), .text ")"] .insufficientPower)
  else match event.stateKey with
    | none => pure ()
    | some stateKey => checkStateKeyOwner deps event stateKey userLevel authEvents

/-- `check_redaction`: whether it sets `recheck_redaction`. -/
def checkRedaction (roomVersion : RoomVersion) (event : Event) (authEvents : AuthDict) : Except Exc Bool := do
  let userLevel ← getUserPowerLevel event.sender authEvents
  let redactLevel ← getNamedLevel authEvents "redact" 50
  if userLevel ≥ redactLevel then pure false
  else match roomVersion.eventFormat with
    | .roomV1V2 => do
      let redacterDomain ← getDomainFromId event.eventId
      match event.redacts with
      | .str r => do
        let redacteeDomain ← getDomainFromId r
        if redacterDomain = redacteeDomain then pure false
        else throw (.auth 403 [.text "You don't have permission to redact events"])
      | _ => pure false
    | _ => pure true

/-! ## Power levels -/

/-- The levels of power-levels content that are not in a sub-dictionary, in the order they are checked. -/
def topLevels : List String :=
  ["users_default", "events_default", "state_default", "ban", "redact", "kick", "invite"]

/-- The body of the first loop: the entry is for a user id and has a number. -/
def validateUser (k : String) (v : Json) : Except Exc Unit :=
  match userIdFromString k with
  | .error _ => throw (.synapse 400 [.text s!"Not a valid user_id: {k}"])
  | .ok _ =>
    match pyInt v with
    | .error _ => throw (.synapse 400 [.text "Not a valid power level: ", .str v])
    | .ok _ => pure ()

def validateUsers : JsonDict → Except Exc Unit
  | [] => pure ()
  | (k, v) :: rest => do
    validateUser k v
    validateUsers rest

/-- `all(type(v) is int for v in v.values())` of a mapping. -/
def isIntDict : Json → Bool
  | .obj kvs => kvs.all fun kv => kv.2.isInt
  | _ => false

/-- The second loop, in room versions that enforce integers. -/
def enforceInts : JsonDict → Except Exc Unit
  | [] => pure ()
  | (k, v) :: rest => do
    if k ∈ topLevels ∧ v.isInt = false then throw (.synapse 400 [.repr v, .text " must be an integer."])
    else if k ∈ ["events", "notifications", "users"] ∧ isIntDict v = false then
      throw (.synapse 400 [.repr v, .text " must be a dict wherein all the values are integers."])
    else enforceInts rest

/-- The checks of `_check_power_levels` that do not read the room state; the listed users are returned. -/
def validatePowerLevels (roomVersion : RoomVersion) (event : Event) : Except Exc Json := do
  let userList := event.contentGet "users" (.obj [])
  let users ← userList.items
  validateUsers users
  (if event.type = powerLevels ∧ roomVersion.enforceIntPowerLevels = true then
    enforceInts event.content else pure ())
  pure userList

/-- `int(loc[level])` if the level is in `loc`. -/
def levelIn (loc level : Json) : Except Exc (Option Int) := do
  let isIn ← level.pyIn loc
  if isIn then do
    let v ← loc.index level
    let n ← pyInt v
    pure (some n)
  else pure none

/-- `old_loc`, `new_loc`: the sub-dictionary that holds a level, or the content itself. -/
def levelLoc (dir : Option String) (content : JsonDict) : Json :=
  match dir with
  | none => .obj content
  | some d => (content.lookup d).getD (.obj [])

/-- The body of the last loop: `dir` is the sub-dictionary of the level, if any. -/
def checkLevel (event : Event) (userLevel : Int) (oldState newState : JsonDict) (level : Json)
    (dir : Option String) : Except Exc Unit := do
  let oldLevel ← levelIn (levelLoc dir oldState) level
  let newLevel ← levelIn (levelLoc dir newState) level
  if newLevel.isSome ∧ oldLevel.isSome ∧ newLevel = oldLevel then pure ()
  else if dir = some "users" ∧ level.eqStr event.sender = false ∧ oldLevel = some userLevel then
    throw (.auth 403 [.text "You don't have permission to remove ops level equal to your own"])
  else if oldLevel.any (userLevel < ·) || newLevel.any (userLevel < ·) then
    throw (.auth 403 [.text "You don't have permission to add ops level greater than your own"])
  else pure ()

def checkLevels (event : Event) (userLevel : Int) (oldState newState : JsonDict) :
    List (Json × Option String) → Except Exc Unit
  | [] => pure ()
  | (level, dir) :: rest => do
    checkLevel event userLevel oldState newState level dir
    checkLevels event userLevel oldState newState rest

/-- `set(list(old) + list(new))` in iteration order, each tagged with its sub-dictionary. -/
def dirLevels (dir : String) (old new : Json) : Except Exc (List (Json × Option String)) := do
  let oldNames ← old.pyList
  let newNames ← new.pyList
  let names ← Json.pySet (oldNames ++ newNames)
  pure ((deps.setOrder names).map fun n => (n, some dir))

/-- The comparison of the new power levels with those they replace. -/
def comparePowerLevels (roomVersion : RoomVersion) (event : Event) (userList : Json) (currentState : Event)
    (userLevel : Int) : Except Exc Unit := do
  let users ← dirLevels deps "users" (currentState.contentGet "users" (.obj [])) userList
  let events ← dirLevels deps "events" (currentState.contentGet "events" (.obj []))
    (event.contentGet "events" (.obj []))
  let notifications ← (if roomVersion.limitNotificationsPowerLevels then
      dirLevels deps "notifications" (currentState.contentGet "notifications" (.obj []))
        (event.contentGet "notifications" (.obj []))
    else pure [])
  checkLevels event userLevel currentState.content event.content
    (topLevels.map (fun l => (.str l, none)) ++ users ++ events ++ notifications)

def checkPowerLevels (roomVersion : RoomVersion) (event : Event) (authEvents : AuthDict) : Except Exc Unit := do
  let userList ← validatePowerLevels roomVersion event
  let stateKey ← event.stateKeyAttr
  match authEvents (event.type, stateKey) with
  | none => pure ()
  | some currentState => do
    let userLevel ← getUserPowerLevel event.sender authEvents
    comparePowerLevels deps roomVersion event userList currentState userLevel

/-! ## The rules -/

/-- Rule 4, in room versions where `m.room.aliases` is special. -/
def checkAliases (event : Event) : Except Exc Unit :=
  match event.stateKey with
  | none => throw (.auth 403 [.text "Alias event must be a state event"])
  | some stateKey =>
    if stateKey = "" then throw (.auth 403 [.text "Alias event must have non-empty state_key"])
    else do
      let senderDomain ← getDomainFromId event.sender
      if stateKey ≠ senderDomain then
        throw (.auth 403 [.text "Alias event's state_key does not match sender's domain"])
      else pure ()

/-- The rule that lets users who may invite send third-party invites. -/
def checkThirdPartyInviteEvent (event : Event) (authEvents : AuthDict) : Except Exc Unit := do
  let userLevel ← getUserPowerLevel event.sender authEvents
  let inviteLevel ← getNamedLevel authEvents "invite" 0
  if userLevel < inviteLevel then
    throw (.unstable 403 [.text "You don't have permission to invite users"] .insufficientPower)
  else pure ()

/-- The rules for events other than create, aliases and membership events. -/
def checkOrdinaryEvent (event : Event) (authEvents : AuthDict) : Except Exc Bool := do
  checkEventSenderInRoom event authEvents
  if event.type = thirdPartyInvite then do
    checkThirdPartyInviteEvent event authEvents
    pure false
  else do
    canSendEvent deps event authEvents
    (if event.type = powerLevels then checkPowerLevels deps event.roomVersion event authEvents
      else pure ())
    if event.type = redaction then checkRedaction event.roomVersion event authEvents else pure false

/-- The rules against an `auth_dict`. -/
def checkAgainst (event : Event) (authEvents : AuthDict) : Except Exc Bool := do
  let creatingDomain ← getDomainFromId event.roomId
  let originatingDomain ← getDomainFromId event.sender
  if creatingDomain ≠ originatingDomain ∧ canFederate authEvents = false then throw unfederatable
  else if event.type = aliases ∧ event.roomVersion.specialCaseAliasesAuth = true then do
    checkAliases event
    pure false
  else if event.type = member then do
    isMembershipChangeAllowed deps event.roomVersion event authEvents
    pure false
  else checkOrdinaryEvent deps event authEvents

def checkStateDependentAuthRules (event : Event) (authEvents : List Event) : Except Exc Bool :=
  if event.type = create then pure false
  else if authEvents.all Event.isState then checkAgainst deps event (authDict authEvents)
  else throw (.attributeError "state_key")

theorem checkAgainst_powerLevels {deps : Deps} {event : Event} (ht : event.type = powerLevels) (d : AuthDict) :
    checkAgainst deps event d = (do
      let creatingDomain ← getDomainFromId event.roomId
      let originatingDomain ← getDomainFromId event.sender
      if creatingDomain ≠ originatingDomain ∧ canFederate d = false then throw unfederatable
      else do
        checkEventSenderInRoom event d
        canSendEvent deps event d
        checkPowerLevels deps event.roomVersion event d
        pure false) := by
  have hca : ¬ powerLevels = aliases := by decide
  have hcm : ¬ powerLevels = member := by decide
  have hct : ¬ powerLevels = thirdPartyInvite := by decide
  have hcr : ¬ powerLevels = redaction := by decide
  unfold checkAgainst checkOrdinaryEvent
  simp [ht, hca, hcm, hct, hcr]

end Synapse.EventAuth
