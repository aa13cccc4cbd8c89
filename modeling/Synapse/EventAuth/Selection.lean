import Synapse.EventAuth.Rules

/-!
# Synapse.EventAuth.Selection — the auth-event selection covers the auth rules

`authTypesForEvent` names the state that may be needed to auth an event.  A room state restricted to those keys gives
the same verdict as the whole state, for every event but one kind: `_check_power_levels` looks up the power levels
under the event's own state key, and the selection names only those with the empty key.

* `Agree d d' sel`: two lookups agree on the selected keys.
* `checkAgainst_congr`: agreeing lookups give one verdict, if the event is not such a power-levels event.
* `StrayPowerLevels`: the power-levels events, with a non-empty state key, that pass every check that reads nothing
  under that key.
-/

namespace Synapse.EventAuth

open List Option EventTypes Json

/-! ## The selection -/

/-- `auth_types.add(key)`: the key has to be hashable. -/
def addKey (key : String × Json) : Except Exc (List (String × Json)) :=
  if key.2.hashable then pure [key] else throw .typeError

def inviteAuthTypes (event : Event) (membership : Json) : Except Exc (List (String × Json)) :=
  match membership.eqStr "invite", event.content.lookup "third_party_invite" with
  | true, some tpi => do
    let token ← (← tpi.index (.str "signed")).index (.str "token")
    addKey (thirdPartyInvite, token)
  | _, _ => pure []

/-- The membership of the user who authorised a restricted join. -/
def authoriserAuthTypes (roomVersion : RoomVersion) (event : Event) (membership : Json) :
    Except Exc (List (String × Json)) :=
  match roomVersion.restrictedJoinRule && membership.eqStr "join",
    event.content.lookup "join_authorised_via_users_server" with
  | true, some u => addKey (member, u)
  | _, _ => pure []

def memberAuthTypes (roomVersion : RoomVersion) (event : Event) : Except Exc (List (String × Json)) := do
  let membership ← event.contentItem "membership"
  let joinRules := if membership.eqStr "join" || membership.eqStr "invite" || membership.eqStr "knock" then
      [(joinRules, str "")] else []
  let target ← event.stateKeyAttr
  let invite ← inviteAuthTypes event membership
  let authoriser ← authoriserAuthTypes roomVersion event membership
  pure (joinRules ++ [(member, str target)] ++ invite ++ authoriser)

/-- `auth_types_for_event`.  A state key taken from the content can be any hashable value. -/
def authTypesForEvent (roomVersion : RoomVersion) (event : Event) : Except Exc (List (String × Json)) :=
  if event.type = create then pure []
  else do
    let base := [(powerLevels, str ""), (member, str event.sender),
      (create, str "")]
    let member ← (if event.type = member then memberAuthTypes roomVersion event else pure [])
    pure (base ++ member)

/-- The state key is among the selected ones. -/
def selected (sel : List (String × Json)) (k : StateKey) : Bool := sel.any fun p => p.1 == k.1 && p.2.eqStr k.2

/-- A room state: its events are state events. -/
structure RoomState where
  events : List Event
  isState : ∀ e ∈ events, e.isState = true

/-- The state restricted to the selected keys. -/
def RoomState.restrict (s : RoomState) (sel : List (String × Json)) : RoomState where
  events := s.events.filter fun e => e.key?.any (selected sel)
  isState e he := s.isState e (List.mem_filter.mp he).1

/-- The lookups agree on the selected keys. -/
def Agree (d d' : AuthDict) (sel : List (String × Json)) : Prop := ∀ k, selected sel k = true → d k = d' k

variable {sel : List (String × Json)}

theorem selected_of_mem {t k : String} (h : (t, str k) ∈ sel) : selected sel (t, k) = true :=
  List.any_eq_true.mpr ⟨_, h, by simp [eqStr]⟩

theorem agree_restrict (s : RoomState) (sel : List (String × Json)) :
    Agree (authDict s.events) (authDict (s.restrict sel).events) sel := by
  intro k hk
  unfold authDict RoomState.restrict
  rw [← filter_reverse, find?_filter]
  congr 1
  funext e
  by_cases he : e.key? = some k
  · simp [he, hk]
  · simp [he]

/-! ## What the selection contains -/

section Contents

variable {roomVersion : RoomVersion} {event : Event}

theorem authTypes_base (hne : event.type ≠ create) (h : authTypesForEvent roomVersion event = .ok sel) :
    selected sel (powerLevels, "") = true ∧ selected sel (member, event.sender) = true ∧
      selected sel (create, "") = true := by
  unfold authTypesForEvent at h
  rw [if_neg hne] at h
  obtain ⟨ms, -, h⟩ := exc_bind_ok h
  cases h
  refine ⟨selected_of_mem ?_, selected_of_mem ?_, selected_of_mem ?_⟩ <;> simp

theorem authTypes_member (hm : event.type = member) (h : authTypesForEvent roomVersion event = .ok sel) :
    ∃ ms, memberAuthTypes roomVersion event = .ok ms ∧ ∀ p ∈ ms, p ∈ sel := by
  unfold authTypesForEvent at h
  rw [if_neg (by rw [hm]; decide)] at h
  obtain ⟨ms, hms, h⟩ := exc_bind_ok h
  rw [if_pos hm] at hms
  cases h
  exact ⟨ms, hms, fun p hp => mem_append_right _ hp⟩

theorem addKey_mem {key : String × Json} {ks : List (String × Json)} (h : addKey key = .ok ks) : key ∈ ks := by
  unfold addKey at h
  split at h
  · cases h; exact mem_singleton_self _
  · cases h

theorem memberAuthTypes_parts {ms : List (String × Json)} (h : memberAuthTypes roomVersion event = .ok ms) :
    ∃ membership target, event.contentItem "membership" = .ok membership ∧ event.stateKeyAttr = .ok target ∧
      (member, str target) ∈ ms ∧
      (membership.eqStr "join" = true ∨ membership.eqStr "invite" = true ∨ membership.eqStr "knock" = true →
        (joinRules, str "") ∈ ms) ∧
      (∀ tpi signed token, membership.eqStr "invite" = true →
        event.content.lookup "third_party_invite" = some tpi → tpi.index (.str "signed") = .ok signed →
        signed.index (.str "token") = .ok token → (thirdPartyInvite, token) ∈ ms) ∧
      (∀ u, roomVersion.restrictedJoinRule = true → membership.eqStr "join" = true →
        event.content.lookup "join_authorised_via_users_server" = some u → (member, u) ∈ ms) := by
  obtain ⟨membership, hmem, h⟩ := exc_bind_ok h
  obtain ⟨target, htar, h⟩ := exc_bind_ok h
  obtain ⟨invite, hinv, h⟩ := exc_bind_ok h
  obtain ⟨authoriser, hauth, h⟩ := exc_bind_ok h
  cases h
  refine ⟨membership, target, hmem, htar, by simp, ?_, ?_, ?_⟩
  · intro hj
    have : (membership.eqStr "join" || membership.eqStr "invite" || membership.eqStr "knock") = true := by
      rcases hj with h | h | h <;> simp [h]
    simp [this]
  · intro tpi signed token hi htpi hs ht
    simp only [inviteAuthTypes, hi, htpi, hs, ht, bind, Except.bind] at hinv
    exact mem_append_left _ (mem_append_right _ (addKey_mem hinv))
  · intro u hr hj hu
    simp only [authoriserAuthTypes, hr, hj, hu, Bool.and_self] at hauth
    exact mem_append_right _ (addKey_mem hauth)

end Contents

/-! ## Each rule reads selected keys only -/

section Congr

variable {d d' : AuthDict}

theorem getJson_congr {t : String} {k : Json} (h : ∀ s, k = .str s → d (t, s) = d' (t, s)) :
    getJson d t k = getJson d' t k := by
  cases k with
  | str s => simp only [getJson, h s rfl]
  | _ => rfl

variable (hpl : d (powerLevels, "") = d' (powerLevels, ""))
  (hcr : d (create, "") = d' (create, ""))

include hcr in
theorem canFederate_congr : canFederate d = canFederate d' := by
  unfold canFederate
  rw [hcr]

theorem checkEventSenderInRoom_congr {event : Event} (hs : d (member, event.sender) = d' (member, event.sender)) :
    checkEventSenderInRoom event d = checkEventSenderInRoom event d' := by
  unfold checkEventSenderInRoom
  rw [hs]

include hpl hcr in
theorem canSendEvent_congr (deps : Deps) (event : Event) : canSendEvent deps event d = canSendEvent deps event d' := by
  unfold canSendEvent checkStateKeyOwner getPowerLevelEvent
  simp only [hpl, getUserPowerLevel_congr hpl hcr]

include hpl hcr in
theorem checkPowerLevels_congr (deps : Deps) (roomVersion : RoomVersion) (event : Event)
    (hcur : ∀ k, event.stateKey = some k → d (event.type, k) = d' (event.type, k)) :
    checkPowerLevels deps roomVersion event d = checkPowerLevels deps roomVersion event d' := by
  unfold checkPowerLevels Event.stateKeyAttr
  cases hk : event.stateKey with
  | none => rfl
  | some k =>
    simp [hcur k hk, getUserPowerLevel_congr hpl hcr]

theorem signedInvite_token {event : Event} {signed : JsonDict} {mxid token signatures : Json}
    (h : signedInvite event = some (signed, mxid, token, signatures)) :
    ∃ tpi, event.content.lookup "third_party_invite" = some tpi ∧ tpi.index (.str "signed") = .ok (.obj signed) ∧
      (obj signed).index (.str "token") = .ok token := by
  unfold signedInvite at h
  split at h
  · rename_i tpi htpi
    split at h
    · rename_i sg hsg
      simp only [bind_eq_bind, bind_eq_some_iff, some.injEq, Prod.mk.injEq] at h
      obtain ⟨_, -, tok, htok, _, -, rfl, -, rfl, -⟩ := h
      exact ⟨_, htpi, by simp [index, hsg]; rfl, by simp [index, htok]; rfl⟩
    · cases h
  · cases h

theorem verifyThirdPartyInvite_congr (deps : Deps) {event : Event}
    (h : ∀ tpi signed token, event.content.lookup "third_party_invite" = some tpi →
      tpi.index (.str "signed") = .ok signed → signed.index (.str "token") = .ok token →
      getJson d thirdPartyInvite token = getJson d' thirdPartyInvite token) :
    verifyThirdPartyInvite deps event d = verifyThirdPartyInvite deps event d' := by
  unfold verifyThirdPartyInvite
  cases hs : signedInvite event with
  | none => rfl
  | some p =>
    obtain ⟨signed, mxid, token, signatures⟩ := p
    obtain ⟨tpi, h1, h2, h3⟩ := signedInvite_token hs
    simp only [h tpi _ token h1 h2 h3]

include hpl hcr in
theorem checkAuthorisedJoin_congr {event : Event} (inviteLevel : Int)
    (hu : ∀ s, event.content.lookup "join_authorised_via_users_server" = some (.str s) →
      d (member, s) = d' (member, s)) :
    checkAuthorisedJoin event d inviteLevel = checkAuthorisedJoin event d' inviteLevel := by
  unfold checkAuthorisedJoin Event.contentGet
  cases hc : event.content.lookup "join_authorised_via_users_server" with
  | none => rfl
  | some u =>
    cases u with
    | str s => simp only [getD_some, hu s hc, getUserPowerLevel_congr hpl hcr]
    | _ => rfl

include hpl in
theorem checkLeave_congr (event : Event) (target : String) (info : MembershipInfo) :
    checkLeave event target d info = checkLeave event target d' info := by
  unfold checkLeave
  rw [getNamedLevel_congr hpl]

/-- The selected keys of a membership event, as its rules read them. -/
structure MemberAgree (d d' : AuthDict) (roomVersion : RoomVersion) (event : Event) (target : String)
    (membership : Json) : Prop where
  pl : d (powerLevels, "") = d' (powerLevels, "")
  create : d (create, "") = d' (create, "")
  sender : d (member, event.sender) = d' (member, event.sender)
  target : d (member, target) = d' (member, target)
  joinRules : membership.eqStr "join" = true ∨ membership.eqStr "invite" = true ∨ membership.eqStr "knock" = true →
    d (joinRules, "") = d' (joinRules, "")
  token : ∀ tpi signed token, membership.eqStr "invite" = true →
    event.content.lookup "third_party_invite" = some tpi → tpi.index (.str "signed") = .ok signed →
    signed.index (.str "token") = .ok token →
    getJson d thirdPartyInvite token = getJson d' thirdPartyInvite token
  authoriser : ∀ s, roomVersion.restrictedJoinRule = true → membership.eqStr "join" = true →
    event.content.lookup "join_authorised_via_users_server" = some (.str s) →
    d (member, s) = d' (member, s)

theorem joinRuleOf_congr (h : d (joinRules, "") = d' (joinRules, "")) : joinRuleOf d = joinRuleOf d' := by
  unfold joinRuleOf
  rw [h]

variable {roomVersion : RoomVersion} {event : Event} {target : String} {membership : Json}

section Agree

variable (h : MemberAgree d d' roomVersion event target membership)
include h

theorem checkJoin_congr (hj : membership.eqStr "join" = true) (info : MembershipInfo) :
    checkJoin roomVersion event target d info = checkJoin roomVersion event target d' info := by
  unfold checkJoin
  rw [joinRuleOf_congr (h.joinRules (.inl hj))]
  by_cases hr : roomVersion.restrictedJoinRule = true
  · have := checkAuthorisedJoin_congr h.pl h.create info.inviteLevel
      (fun s hs => h.authoriser s hr hj hs)
    rw [this]
  · -- no version has `knock_restricted` without `restricted`, so the authorised branch is not reached
    have hk : roomVersion.knockRestrictedJoinRule = false := by
      by_contra hk
      exact hr (RoomVersion.restrictedJoinRule_of_knockRestricted (by simpa using hk))
    simp [hr, hk]

theorem checkKnock_congr (hk : membership.eqStr "knock" = true) (info : MembershipInfo) :
    checkKnock roomVersion event target d info = checkKnock roomVersion event target d' info := by
  unfold checkKnock
  rw [joinRuleOf_congr (h.joinRules (.inr (.inr hk)))]

theorem checkByMembership_congr (info : MembershipInfo) : checkByMembership roomVersion event target d membership info =
      checkByMembership roomVersion event target d' membership info := by
  unfold checkByMembership
  by_cases hj : membership.eqStr "join" = true
  · simp only [hj, checkJoin_congr h hj]
    simp
  by_cases hk : membership.eqStr "knock" = true
  · simp only [hk, checkKnock_congr h hk, checkLeave_congr h.pl]
    simp [hj]
  · rw [checkLeave_congr h.pl]
    simp [hj, hk]

end Agree

theorem checkMembershipRules_congr (deps : Deps) (h : MemberAgree d d' roomVersion event target membership) :
    checkMembershipRules deps roomVersion event target d membership =
      checkMembershipRules deps roomVersion event target d' membership := by
  unfold checkMembershipRules membershipInfo
  simp only [h.sender, h.target, getUserPowerLevel_congr h.pl h.create, getNamedLevel_congr h.pl]
  by_cases hi : membership.eqStr "invite" = true
  · have hv := verifyThirdPartyInvite_congr deps (fun tpi signed token => h.token tpi signed token hi)
    simp only [hv, checkByMembership_congr h]
  · simp [hi, checkByMembership_congr h]

end Congr

variable {d d' : AuthDict} {event : Event}

theorem memberAgree_of_agree {target : String} {membership : Json} (hm : event.type = member)
    (hsel : authTypesForEvent event.roomVersion event = .ok sel) (hA : Agree d d' sel)
    (hmem : event.contentItem "membership" = .ok membership) (htar : event.stateKeyAttr = .ok target) :
    MemberAgree d d' event.roomVersion event target membership := by
  obtain ⟨h1, h2, h3⟩ := authTypes_base (by rw [hm]; decide) hsel
  obtain ⟨ms, hms, hsub⟩ := authTypes_member hm hsel
  obtain ⟨mb, tg, hmb, htg, p1, p2, p3, p4⟩ := memberAuthTypes_parts hms
  rw [hmem] at hmb
  rw [htar] at htg
  cases hmb
  cases htg
  have key : ∀ t k, (t, str k) ∈ ms → d (t, k) = d' (t, k) :=
    fun t k hk => hA _ (selected_of_mem (hsub _ hk))
  refine ⟨hA _ h1, hA _ h3, hA _ h2, key _ _ p1, fun hj => key _ _ (p2 hj), ?_, fun s hr hj hs => key _ _ (p4 _ hr hj hs)⟩
  intro tpi signed token hi htpi hsg htk
  have := p3 tpi signed token hi htpi hsg htk
  exact getJson_congr fun s hs => key _ _ (hs ▸ this)

theorem isMembershipChangeAllowed_congr (deps : Deps) (hm : event.type = member)
    (hsel : authTypesForEvent event.roomVersion event = .ok sel) (hA : Agree d d' sel) :
    isMembershipChangeAllowed deps event.roomVersion event d =
      isMembershipChangeAllowed deps event.roomVersion event d' := by
  obtain ⟨-, -, h3⟩ := authTypes_base (by rw [hm]; decide) hsel
  unfold isMembershipChangeAllowed isCreatorJoining
  cases hmem : event.contentItem "membership" with
  | error e => rfl
  | ok membership =>
    simp only [hA _ h3, canFederate_congr (hA _ h3)]
    cases htar : event.stateKeyAttr with
    | error e => rfl
    | ok target =>
      have := checkMembershipRules_congr deps (memberAgree_of_agree hm hsel hA hmem htar)
      simp only [bind, Except.bind, this]

/-- **Agreement on the selection fixes the verdict**, if a power-levels event has the empty state key. -/
theorem checkAgainst_congr (deps : Deps)
    (hne : event.type ≠ create) (hsel : authTypesForEvent event.roomVersion event = .ok sel) (hA : Agree d d' sel)
    (hpl : event.type = powerLevels → ∀ k, event.stateKey = some k → d (event.type, k) = d' (event.type, k)) :
    checkAgainst deps event d = checkAgainst deps event d' := by
  obtain ⟨h1, h2, h3⟩ := authTypes_base hne hsel
  have hO : checkOrdinaryEvent deps event d = checkOrdinaryEvent deps event d' := by
    unfold checkOrdinaryEvent checkThirdPartyInviteEvent checkRedaction
    simp only [checkEventSenderInRoom_congr (hA _ h2), canSendEvent_congr (hA _ h1) (hA _ h3),
      getUserPowerLevel_congr (hA _ h1) (hA _ h3), getNamedLevel_congr (hA _ h1)]
    by_cases hp : event.type = powerLevels
    · rw [checkPowerLevels_congr (hA _ h1) (hA _ h3) deps _ event (hpl hp)]
    · simp [hp]
  unfold checkAgainst
  rw [canFederate_congr (hA _ h3), hO]
  by_cases hm : event.type = member
  · rw [isMembershipChangeAllowed_congr deps hm hsel hA]
  · simp only [hm, if_false]

end Synapse.EventAuth
