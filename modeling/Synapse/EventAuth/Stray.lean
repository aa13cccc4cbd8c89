import Synapse.EventAuth.Selection

/-!
# Synapse.EventAuth.Stray — where the selection misses a lookup

`_check_power_levels` compares a power-levels event with `auth_events.get((event.type, event.state_key))`.  With a
non-empty state key that entry is not selected, so the restricted state lets through what the whole state refuses.
`selection_exact` is the exact extent: the selection is enough for an event in every room state if and only if the
event is not a `StrayPowerLevels` event.
-/

namespace Synapse.EventAuth

open List Option EventTypes Event

/-- The state key does not belong to another user, or MSC3757 lets a high enough level write it. -/
def writableKey (deps : Deps) (event : Event) (stateKey : String) : Bool :=
  !(stateKey.toList.head? == some '@' && stateKey != event.sender) ||
    (event.roomVersion.msc3757Enabled && (stateKeyOwner deps stateKey).isSome)

/-- A power-levels event with a non-empty state key that passes the checks that read nothing of the room state. -/
structure StrayPowerLevels (deps : Deps) (event : Event) : Prop where
  type : event.type = powerLevels
  key : ∃ k, event.stateKey = some k ∧ k ≠ "" ∧ writableKey deps event k = true
  room : (getDomainFromId event.roomId).isOk = true
  sender : (getDomainFromId event.sender).isOk = true
  content : (validatePowerLevels event.roomVersion event).isOk = true

theorem authDict_restrict_none (s : RoomState) {sel : List (String × Json)} {k : StateKey}
    (h : selected sel k = false) : authDict (s.restrict sel).events k = none := by
  unfold authDict RoomState.restrict
  rw [find?_eq_none]
  intro e he hk
  rw [decide_eq_true_eq] at hk
  have := (mem_filter.mp (mem_reverse.mp he)).2
  rw [hk] at this
  simp [h] at this

/-! ## The rules of a power-levels event -/

section PowerLevels

variable {deps : Deps} {event : Event}

theorem writableKey_of_canSend {d : AuthDict} {k : String} {u : Unit} (hk : event.stateKey = some k)
    (h : canSendEvent deps event d = .ok u) : writableKey deps event k = true := by
  obtain ⟨sendLevel, -, h⟩ := exc_bind_ok h
  obtain ⟨userLevel, -, h⟩ := exc_bind_ok h
  rw [hk] at h
  simp only [checkStateKeyOwner] at h
  unfold writableKey
  split_ifs at h with hlt ho hm
  · cases hown : stateKeyOwner deps k with
    | none => rw [hown] at h; cases h
    | some owner => simp [hm]
  · simp only [Bool.or_eq_true, Bool.not_eq_true', Bool.and_eq_false_iff]
    left
    by_contra hc
    push Not at hc
    exact ho ⟨by simpa using hc.1, by simpa using hc.2⟩

theorem checkAgainst_eq_of_not_stray {d d' : AuthDict} (ht : event.type = powerLevels) {k : String}
    (hk : event.stateKey = some k) (hne : k ≠ "") (h : ¬ StrayPowerLevels deps event)
    (hpl : d (powerLevels, "") = d' (powerLevels, "")) (hs : d (member, event.sender) = d' (member, event.sender))
    (hcr : d (create, "") = d' (create, "")) : checkAgainst deps event d = checkAgainst deps event d' := by
  rw [checkAgainst_powerLevels ht, checkAgainst_powerLevels ht, canFederate_congr hcr,
    checkEventSenderInRoom_congr hs, canSendEvent_congr hpl hcr]
  cases hroom : getDomainFromId event.roomId with
  | error e => rfl
  | ok creating =>
    cases hsend : getDomainFromId event.sender with
    | error e => rfl
    | ok originating =>
      cases hsnd : canSendEvent deps event d' with
      | error e => rfl
      | ok u =>
        -- the sending rule accepted the key, so it is the content that is refused
        cases hv : validatePowerLevels event.roomVersion event with
        | error e => simp only [checkPowerLevels, hv]; rfl
        | ok a =>
          exact absurd ⟨ht, ⟨k, hk, hne, writableKey_of_canSend hk hsnd⟩, by rw [hroom]; rfl, by rw [hsend]; rfl,
            by rw [hv]; rfl⟩ h

end PowerLevels

/-! ## A state that a stray event tells apart from its restriction -/

section Stray

variable (event : Event) (k : String)

/-- An event of the room with a given key and content. -/
def roomEvent (type stateKey : String) (content : JsonDict) : Event :=
  { event with type := type, stateKey := some stateKey, content := content }

/-- The sender is joined with level 100, and the power levels under `k` hold an unusable default. -/
def strayState : RoomState where
  events := [roomEvent event create "" [],
    roomEvent event member event.sender [("membership", .str "join")],
    roomEvent event powerLevels "" [("users", .obj [(event.sender, .int 100)])],
    roomEvent event powerLevels k [("users_default", .null)]]
  isState := by simp [roomEvent, isState]

variable {event k}

theorem strayState_selected (hne : k ≠ "") :
    authDict (strayState event k).events (powerLevels, "") =
      some (roomEvent event powerLevels "" [("users", .obj [(event.sender, .int 100)])]) ∧
    authDict (strayState event k).events (member, event.sender) =
      some (roomEvent event member event.sender [("membership", .str "join")]) ∧
    authDict (strayState event k).events (create, "") = some (roomEvent event create "" []) := by
  refine ⟨?_, ?_, ?_⟩ <;> simp [authDict, strayState, roomEvent, key?, hne, powerLevels, create, member]

theorem strayState_stray : authDict (strayState event k).events (powerLevels, k) =
    some (roomEvent event powerLevels k [("users_default", .null)]) := by
  simp [authDict, strayState, roomEvent, key?]

theorem strayState_refuses {deps : Deps} (ht : event.type = powerLevels) (hk : event.stateKey = some k)
    (v : Bool) : checkAgainst deps event (authDict (strayState event k).events) ≠ .ok v := by
  intro h
  rw [checkAgainst_powerLevels ht] at h
  obtain ⟨creating, -, h⟩ := exc_bind_ok h
  obtain ⟨originating, -, h⟩ := exc_bind_ok h
  split at h
  · cases h
  obtain ⟨_, -, h⟩ := exc_bind_ok h
  obtain ⟨_, -, h⟩ := exc_bind_ok h
  obtain ⟨_, h, -⟩ := exc_bind_ok h
  obtain ⟨userList, -, h⟩ := exc_bind_ok h
  simp only [stateKeyAttr, hk, elim_some, pure_bind, ht, strayState_stray] at h
  obtain ⟨userLevel, -, h⟩ := exc_bind_ok h
  obtain ⟨users, -, h⟩ := exc_bind_ok h
  obtain ⟨events, -, h⟩ := exc_bind_ok h
  obtain ⟨notifications, -, h⟩ := exc_bind_ok h
  -- the first level compared is `users_default`
  cases h

theorem restricted_accepts {deps : Deps} (h : StrayPowerLevels deps event) {d : AuthDict}
    (hk : event.stateKey = some k) (hw : writableKey deps event k = true) (hpl : d (powerLevels, "") =
      some (roomEvent event powerLevels "" [("users", .obj [(event.sender, .int 100)])]))
    (hs : d (member, event.sender) =
      some (roomEvent event member event.sender [("membership", .str "join")]))
    (hcr : d (create, "") = some (roomEvent event create "" []))
    (hnone : d (powerLevels, k) = none) : checkAgainst deps event d = .ok false := by
  obtain ⟨creating, hroom⟩ := exc_isOk_iff.mp h.room
  obtain ⟨originating, hsend⟩ := exc_isOk_iff.mp h.sender
  obtain ⟨userList, hval⟩ := exc_isOk_iff.mp h.content
  have hfed : canFederate d = true := by
    simp [canFederate, hcr, roomEvent, contentGet]
  have hjoin : checkEventSenderInRoom event d = .ok () := by
    simp [checkEventSenderInRoom, hs]
    rfl
  have hul : getUserPowerLevel event.sender d = .ok 100 := by
    simp [getUserPowerLevel, getPowerLevelEvent, hpl, contentUserLevel, roomEvent, contentGet, Json.get, pyInt]
    rfl
  have hol : ∀ owner, owner ≠ event.sender → getUserPowerLevel owner d = .ok 0 := by
    intro owner ho
    have : (owner == event.sender) = false := by simpa using ho
    simp [getUserPowerLevel, getPowerLevelEvent, hpl, contentUserLevel, roomEvent, contentGet, Json.get,
      Json.isNone, pyInt, List.lookup_cons, this]
    rfl
  have hsl : getSendLevel event.type event.stateKey (getPowerLevelEvent d) = .ok 50 := by
    simp [getPowerLevelEvent, hpl, hk]
    rfl
  have hown : checkStateKeyOwner deps event k 100 d = .ok () := by
    unfold checkStateKeyOwner
    by_cases ho : k.toList.head? = some '@' ∧ k ≠ event.sender
    · have hw' : event.roomVersion.msc3757Enabled = true ∧ (stateKeyOwner deps k).isSome = true := by
        simpa [writableKey, ho.1, ho.2] using hw
      obtain ⟨owner, howner⟩ := isSome_iff_exists.mp hw'.2
      rw [if_pos ho, if_pos hw'.1, howner]
      by_cases hself : owner = event.sender
      · simp [hself]; rfl
      · simp [hself, hol]; rfl
    · rw [if_neg ho]; rfl
  have hsnd : canSendEvent deps event d = .ok () := by
    rw [hk] at hsl
    simp only [canSendEvent, hk, hsl, hul, bind]
    exact hown
  have hpow : checkPowerLevels deps event.roomVersion event d = .ok () := by
    simp [checkPowerLevels, hval, stateKeyAttr, hk, h.type, hnone]
  rw [checkAgainst_powerLevels h.type, hroom, hsend, hfed, hjoin, hsnd, hpow]
  simp
  rfl

end Stray

/-! ## The extent of the selection -/

theorem not_selected_stray {event : Event} {sel : List (String × Json)} {k : String}
    (ht : event.type = powerLevels) (hsel : authTypesForEvent event.roomVersion event = .ok sel)
    (hne : k ≠ "") : selected sel (powerLevels, k) = false := by
  unfold authTypesForEvent at hsel
  rw [if_neg (by rw [ht]; decide)] at hsel
  obtain ⟨ms, hms, h⟩ := exc_bind_ok hsel
  rw [if_neg (by rw [ht]; decide)] at hms
  cases hms
  cases h
  simp [selected, Json.eqStr, powerLevels, member, hne.symm]

theorem check_roomState {deps : Deps} {event : Event} (hne : event.type ≠ create) (s : RoomState) :
    checkStateDependentAuthRules deps event s.events = checkAgainst deps event (authDict s.events) := by
  unfold checkStateDependentAuthRules
  rw [if_neg hne, if_pos (List.all_eq_true.mpr s.isState)]

/-- **The selection is enough exactly for the events that are not stray power levels**: for those, and for no others,
the verdict on every room state is the verdict on its restriction to the selected keys. -/
theorem selection_exact (deps : Deps) (event : Event) (sel : List (String × Json))
    (hsel : authTypesForEvent event.roomVersion event = .ok sel) :
    (∀ s : RoomState, checkStateDependentAuthRules deps event s.events =
        checkStateDependentAuthRules deps event (s.restrict sel).events) ↔ ¬ StrayPowerLevels deps event := by
  constructor
  · intro hall h
    obtain ⟨k, hk, hne, hw⟩ := h.key
    have hnc : event.type ≠ create := by rw [h.type]; decide
    have heq := hall (strayState event k)
    rw [check_roomState hnc, check_roomState hnc] at heq
    obtain ⟨h1, h2, h3⟩ := authTypes_base hnc hsel
    have hA := agree_restrict (strayState event k) sel
    obtain ⟨hpl, hs, hcr⟩ := @strayState_selected event k hne
    exact strayState_refuses h.type hk false (heq.trans (restricted_accepts h hk hw ((hA _ h1).symm.trans hpl)
      ((hA _ h2).symm.trans hs) ((hA _ h3).symm.trans hcr) (authDict_restrict_none _ (not_selected_stray h.type hsel hne))))
  · intro h s
    by_cases hnc : event.type = create
    · simp [checkStateDependentAuthRules, hnc]
    rw [check_roomState hnc, check_roomState hnc]
    obtain ⟨h1, h2, h3⟩ := authTypes_base hnc hsel
    have hA := agree_restrict s sel
    by_cases hstray : event.type = powerLevels ∧ ∃ k, event.stateKey = some k ∧ k ≠ ""
    · obtain ⟨ht, k, hk, hne⟩ := hstray
      exact checkAgainst_eq_of_not_stray ht hk hne h (hA _ h1) (hA _ h2) (hA _ h3)
    refine checkAgainst_congr deps hnc hsel hA fun ht k hk => ?_
    have hemp : k = "" := by
      by_contra hne
      exact hstray ⟨ht, k, hk, hne⟩
    rw [ht, hemp]
    exact hA _ h1

/-! ## The gap on one room -/

namespace Gap

/-- A moderator at level 50, and power levels stored under the key `x` that only level 100 may change. -/
def state : RoomState where
  events := [ofContent "$create" create "" "@admin:hs" [("creator", .str "@admin:hs")],
    ofContent "$join" member "@mod:hs" "@mod:hs" [("membership", .str "join")],
    ofContent "$pl" powerLevels "" "@admin:hs"
      [("users", .obj [("@admin:hs", .int 100), ("@mod:hs", .int 50)])],
    ofContent "$plx" powerLevels "x" "@admin:hs" [("ban", .int 100)]]
  isState := by decide

/-- The moderator's replacement of the power levels under `x`. -/
def replacement : Event := ofContent "$new" powerLevels "x" "@mod:hs" [("ban", .int 0)]

/-- The keys selected for the replacement. -/
def sel : List (String × Json) :=
  [(powerLevels, .str ""), (member, .str "@mod:hs"), (create, .str "")]

/-- The selection succeeds, the whole state refuses the replacement and the restricted state accepts it. -/
theorem verdicts_differ : authTypesForEvent replacement.roomVersion replacement = .ok sel ∧
    checkStateDependentAuthRules Deps.offline replacement state.events ≠
      checkStateDependentAuthRules Deps.offline replacement (state.restrict sel).events := by
  refine ⟨rfl, fun h => ?_⟩
  have h1 : (checkStateDependentAuthRules Deps.offline replacement state.events).isOk = false := by rfl
  rw [h] at h1
  cases h1

/-- The replacement with the empty state key, for which the selection is enough. -/
def plain : Event := ofContent "$new" powerLevels "" "@mod:hs" [("ban", .int 0)]

theorem selection_exact_plain : authTypesForEvent plain.roomVersion plain = .ok sel ∧
    ((∀ s : RoomState, checkStateDependentAuthRules Deps.offline plain s.events =
        checkStateDependentAuthRules Deps.offline plain (s.restrict sel).events) ↔ ¬ StrayPowerLevels Deps.offline plain) :=
  ⟨rfl, selection_exact Deps.offline plain sel rfl⟩

end Gap

end Synapse.EventAuth
