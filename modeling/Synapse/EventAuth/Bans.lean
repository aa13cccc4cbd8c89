import Synapse.EventAuth.Stray

/-!
# Synapse.EventAuth.Bans — bans over a history of accepted events

A room history is a list of events, each checked by `check_state_dependent_auth_rules` against the state that the
earlier ones left.  `_is_membership_change_allowed` branches on the join rule, restricted joins, third-party invites,
knocks and the room version; this module shows what a ban means across all of them.

* `accept`, `acceptAll`: one event, and a whole history.
* `Unban`: a `leave` for a banned user, sent by a joined user who reaches the ban level.
* `step_banned`: the state after one accepted event.
* `banned_moves`: the same at every point of every history; `banned_until_unban`: what a whole history does.
* `Rejoin.banned_creator_joins`: the one way out of a ban that is no unban.
-/

namespace Synapse.EventAuth

open List Option EventTypes Event

/-! ## Histories -/

/-- The state event takes its place in the room state. -/
def RoomState.put (s : RoomState) (e : Event) (he : e.isState = true) : RoomState where
  events := s.events.filter (fun x => x.key? ≠ e.key?) ++ [e]
  isState x hx := by
    rcases List.mem_append.mp hx with h | h
    · exact s.isState x (List.mem_filter.mp h).1
    · rwa [List.mem_singleton.mp h]

/-- The state after an event, which only a state event changes. -/
def RoomState.after (s : RoomState) (e : Event) : RoomState :=
  if he : e.isState = true then s.put e he else s

/-- The membership event of a user says `m`. -/
def memberOf (d : AuthDict) (userId m : String) : Bool :=
  (d (member, userId)).any fun e => (e.contentGet "membership" .null).eqStr m

/-- The membership of a user in a room state. -/
def RoomState.memberIs (s : RoomState) (userId m : String) : Bool := memberOf (authDict s.events) userId m

variable (deps : Deps)

/-- An event is accepted against a state when the state-dependent rules raise nothing. -/
def accept (s : RoomState) (e : Event) : Except Exc RoomState := do
  let _ ← checkStateDependentAuthRules deps e s.events
  pure (s.after e)

/-- Each event is accepted against the state that the earlier ones left. -/
def acceptAll (s : RoomState) (history : List Event) : Except Exc RoomState := history.foldlM (accept deps) s

/-- The special case of the rules: a join of the room's creator, the first or a later one, whose only prev event is the
create event. -/
def CreatorJoin (s : RoomState) (e : Event) : Prop :=
  ∃ create creator, authDict s.events (EventTypes.create, "") = some create ∧ e.prevEventIds = [create.eventId] ∧
    (e.contentGet "membership" .null).eqStr "join" = true ∧ creatorOf e.roomVersion create = .ok (.str creator) ∧
      e.stateKey = some creator

/-- The event takes the membership of `userId` to `leave`; its sender is joined and reaches the ban level. -/
structure Unban (s : RoomState) (e : Event) (userId : String) : Prop where
  type : e.type = member
  key : e.stateKey = some userId
  membership : (e.contentGet "membership" .null).eqStr "leave" = true
  joined : s.memberIs e.sender "join" = true
  level : ∃ level banLevel, getUserPowerLevel e.sender (authDict s.events) = .ok level ∧
    getNamedLevel (authDict s.events) "ban" 50 = .ok banLevel ∧ banLevel ≤ level

variable {deps}

theorem authDict_put {s : RoomState} {e : Event} (he : e.isState = true) (k : StateKey) :
    authDict (s.put e he).events k = if e.key? = some k then some e else authDict s.events k := by
  unfold authDict RoomState.put
  rw [reverse_append, reverse_singleton, singleton_append, find?_cons]
  split_ifs with hk
  · rw [decide_eq_true hk]
  rw [decide_eq_false hk, ← filter_reverse, find?_filter]
  refine congrArg (find? · _) (funext fun x => ?_)
  by_cases hx : x.key? = some k
  · simp [hx, Ne.symm hk]
  · simp [hx]

theorem memberIs_after (s : RoomState) (e : Event) (userId m : String) : (s.after e).memberIs userId m =
      if e.type = member ∧ e.stateKey = some userId then (e.contentGet "membership" .null).eqStr m
      else s.memberIs userId m := by
  have hkey : e.key? = some (member, userId) ↔ e.type = member ∧ e.stateKey = some userId := by
    cases hs : e.stateKey with
    | none | some => simp [key?, hs]
  unfold RoomState.after RoomState.memberIs memberOf
  by_cases he : e.isState = true
  · rw [dif_pos he, authDict_put]
    by_cases hk : e.type = member ∧ e.stateKey = some userId
    · rw [if_pos hk, if_pos (hkey.mpr hk), any_some]
    · rw [if_neg hk, if_neg (mt hkey.mp hk)]
  · have hnone : e.stateKey = none := by simpa [isState] using he
    rw [dif_neg he, if_neg (by simp [hnone])]

theorem accept_ok {s s' : RoomState} {e : Event} (h : accept deps s e = .ok s') :
    s' = s.after e ∧ (e.type ≠ create → ∃ b, checkAgainst deps e (authDict s.events) = .ok b) := by
  obtain ⟨b, hcheck, h⟩ := exc_bind_ok h
  cases h
  refine ⟨rfl, fun hne => ⟨b, ?_⟩⟩
  rwa [check_roomState hne] at hcheck

/-! ## What the rules know about a banned target -/

section Rules

variable {d : AuthDict} {event : Event} {roomVersion : RoomVersion} {target : String} {m : String}

theorem hasMembership_ok {b : Bool} {userId : String}
    (h : hasMembership (d (member, userId)) m = .ok b) : b = memberOf d userId m := by
  unfold memberOf
  cases hd : d (member, userId) with
  | none =>
    rw [hd] at h
    cases h
    rfl
  | some e =>
    rw [hd] at h
    obtain ⟨v, hv, h⟩ := exc_bind_ok h
    cases h
    simp [contentGet, contentItem_ok.mp hv]

theorem eqStr_unique {v : Json} {n : String} (hm : v.eqStr m = true) (hn : v.eqStr n = true) : m = n := by
  cases v with
  | str t =>
    have h₁ : t = m := by simpa [Json.eqStr] using hm
    have h₂ : t = n := by simpa [Json.eqStr] using hn
    exact h₁.symm.trans h₂
  | _ => cases hm

theorem memberOf_unique {userId n : String} (hm : memberOf d userId m = true) (hne : m ≠ n) :
    memberOf d userId n = false := by
  unfold memberOf at hm ⊢
  cases hd : d (member, userId) with
  | none => rfl
  | some e =>
    rw [hd] at hm
    rw [Bool.eq_false_iff]
    exact fun hn => hne (eqStr_unique hm hn)

variable {membership : Json}

theorem creatorJoin_of_isCreatorJoining {s : RoomState} (hget : event.contentGet "membership" .null = membership)
    (h : isCreatorJoining event.roomVersion event (authDict s.events) membership = .ok true) :
    CreatorJoin s event := by
  unfold isCreatorJoining at h
  split at h
  case h_2 => cases h
  case h_1 prev hprev =>
    split_ifs at h with hjoin
    · cases hcreate : authDict s.events (create, "") with
      | none => rw [hcreate] at h; cases h
      | some create =>
        rw [hcreate] at h
        dsimp only at h
        split_ifs at h with hp
        · obtain ⟨creator, hcreator, h⟩ := exc_bind_ok h
          obtain ⟨stateKey, hkey, h⟩ := exc_bind_ok h
          have heq : creator.eqStr stateKey = true := by injection h
          have hstr : creator = .str stateKey := by
            cases creator with
            | str t => rw [show t = stateKey by simpa [Json.eqStr] using heq]
            | _ => cases heq
          exact ⟨create, stateKey, hcreate, by rw [hprev, hp], hget ▸ hjoin, hstr ▸ hcreator, stateKeyAttr_ok.mp hkey⟩
        · cases h
    · cases h

theorem isMembershipChangeAllowed_of_check {b : Bool} (ht : event.type = member)
    (h : checkAgainst deps event d = .ok b) : isMembershipChangeAllowed deps event.roomVersion event d = .ok () := by
  have hca : ¬ member = aliases := by decide
  obtain ⟨creatingDomain, -, h⟩ := exc_bind_ok h
  obtain ⟨originatingDomain, -, h⟩ := exc_bind_ok h
  split at h
  · cases h
  rw [if_neg (by simp [ht, hca])] at h
  obtain ⟨_, hm, -⟩ := exc_bind_ok h
  exact hm

/-- The facts that the rules read when the target is banned. -/
structure BannedInfo (d : AuthDict) (event : Event) (target : String) (info : MembershipInfo) : Prop where
  banned : info.targetBanned = true
  joined : info.callerInRoom = true → memberOf d event.sender "join" = true
  /-- A banned sender is neither invited nor knocking. -/
  self : target = event.sender → info.callerInvited = false ∧ info.callerKnocked = false
  userLevel : getUserPowerLevel event.sender d = .ok info.userLevel
  banLevel : getNamedLevel d "ban" 50 = .ok info.banLevel

variable {info : MembershipInfo}

theorem membershipInfo_banned (hban : memberOf d target "ban" = true)
    (h : membershipInfo roomVersion event target d = .ok info) : BannedInfo d event target info := by
  obtain ⟨callerInRoom, hin, h⟩ := exc_bind_ok h
  obtain ⟨callerInvited, hinv, h⟩ := exc_bind_ok h
  obtain ⟨callerKnocked, hknock, h⟩ := exc_bind_ok h
  obtain ⟨targetInRoom, -, h⟩ := exc_bind_ok h
  obtain ⟨targetBanned, htb, h⟩ := exc_bind_ok h
  obtain ⟨userLevel, hul, h⟩ := exc_bind_ok h
  obtain ⟨targetLevel, -, h⟩ := exc_bind_ok h
  obtain ⟨inviteLevel, -, h⟩ := exc_bind_ok h
  obtain ⟨banLevel, hbl, h⟩ := exc_bind_ok h
  cases h
  refine ⟨(hasMembership_ok htb).trans hban, fun hj => (hasMembership_ok hin).symm.trans hj, ?_, hul, hbl⟩
  rintro rfl
  refine ⟨(hasMembership_ok hinv).trans (memberOf_unique hban (by decide)), ?_⟩
  -- without the knock rule the source does not look at the membership
  cases hv : roomVersion.knockJoinRule with
  | true =>
    rw [hv] at hknock
    exact (hasMembership_ok hknock).trans (memberOf_unique hban (by decide))
  | false =>
    rw [hv] at hknock
    cases hknock
    rfl

section Banned

variable (hban : info.targetBanned = true)
include hban

theorem checkInvite_banned : checkInvite info target ≠ .ok () := by
  unfold checkInvite
  rw [if_pos hban]
  exact nofun

theorem checkJoin_banned : checkJoin roomVersion event target d info ≠ .ok () := by
  unfold checkJoin
  by_cases hs : event.sender ≠ target
  · rw [if_pos hs]
    exact nofun
  · rw [if_neg hs, if_pos hban]
    exact nofun

theorem checkLeave_banned (h : checkLeave event target d info = .ok ()) : info.banLevel ≤ info.userLevel := by
  unfold checkLeave at h
  by_contra hlt
  rw [if_pos (by simpa [hban] using hlt)] at h
  cases h

theorem checkKnock_banned : checkKnock roomVersion event target d info ≠ .ok () := by
  unfold checkKnock
  dsimp only
  intro h
  split_ifs at h

theorem checkByMembership_banned (h : checkByMembership roomVersion event target d membership info = .ok ()) :
    membership.eqStr "ban" = true ∨ membership.eqStr "leave" = true ∧ info.banLevel ≤ info.userLevel := by
  unfold checkByMembership at h
  split_ifs at h with hinvite hjoin hleave hb hknock
  · exact absurd h (checkInvite_banned hban)
  · exact absurd h (checkJoin_banned hban)
  · exact .inr ⟨hleave, checkLeave_banned hban h⟩
  · exact .inl hb
  · exact absurd h (checkKnock_banned hban)

end Banned

theorem checkMembershipRules_banned (hban : memberOf d target "ban" = true)
    (h : checkMembershipRules deps roomVersion event target d membership = .ok ()) :
    membership.eqStr "ban" = true ∨
      membership.eqStr "leave" = true ∧ memberOf d event.sender "join" = true ∧
        ∃ level banLevel, getUserPowerLevel event.sender d = .ok level ∧
          getNamedLevel d "ban" 50 = .ok banLevel ∧ banLevel ≤ level := by
  obtain ⟨info, hinfo, h⟩ := exc_bind_ok h
  have facts := membershipInfo_banned hban hinfo
  split_ifs at h with htpi hbanned hpresent hself hin
  · -- a third-party invite: its own test of the ban
    obtain ⟨verified, -, h⟩ := exc_bind_ok h
    cases verified <;> cases h
  · exact absurd facts.banned hbanned
  · -- the target would be invited or knocking, but it is banned
    simp only [Bool.and_eq_true, beq_iff_eq] at hself
    obtain ⟨hinv, hknock⟩ := facts.self hself.2
    simp [hinv, hknock] at hself
  · rcases checkByMembership_banned facts.banned h with hb | ⟨hl, hle⟩
    · exact .inl hb
    · exact .inr ⟨hl, facts.joined (by simpa using hin), _, _, facts.userLevel, facts.banLevel, hle⟩
  · -- a join or a knock
    have hother : membership.eqStr "join" = true ∨ membership.eqStr "knock" = true := by
      simpa [or_iff_not_imp_left] using hpresent
    rcases checkByMembership_banned facts.banned h with hb | ⟨hl, -⟩
    · exact .inl hb
    · rcases hother with hj | hk
      · exact absurd (eqStr_unique hl hj) (by decide)
      · exact absurd (eqStr_unique hl hk) (by decide)

/-- A membership event for a banned user that passes the rules is a join of the creator from the create event, a ban or an
unban. -/
theorem isMembershipChangeAllowed_banned {s : RoomState} {u : String} (ht : event.type = member)
    (hk : event.stateKey = some u) (hban : s.memberIs u "ban" = true) (hcreator : ¬ CreatorJoin s event)
    (h : isMembershipChangeAllowed deps event.roomVersion event (authDict s.events) = .ok ()) :
    (event.contentGet "membership" .null).eqStr "ban" = true ∨ Unban s event u := by
  obtain ⟨membership, hm, h⟩ := exc_bind_ok h
  obtain ⟨creatorJoining, hc, h⟩ := exc_bind_ok h
  have hget : event.contentGet "membership" .null = membership := by
    rw [contentGet, contentItem_ok.mp hm]
    rfl
  have hkey : event.stateKeyAttr = .ok u := stateKeyAttr_ok.mpr hk
  cases creatorJoining with
  | true => exact absurd (creatorJoin_of_isCreatorJoining hget hc) hcreator
  | false =>
    obtain ⟨target, htarget, h⟩ := exc_bind_ok h
    cases hkey.symm.trans htarget
    obtain ⟨creatingDomain, -, h⟩ := exc_bind_ok h
    obtain ⟨targetDomain, -, h⟩ := exc_bind_ok h
    split at h
    · cases h
    rcases checkMembershipRules_banned hban h with hb | ⟨hl, hj, hlevel⟩
    · exact .inl (hget ▸ hb)
    · exact .inr ⟨ht, hk, hget ▸ hl, hj, hlevel⟩

end Rules

/-! ## Over a history -/

variable {s s' t : RoomState} {e : Event} {u : String} {history : List Event}

theorem step_banned (h : accept deps s e = .ok s') (hban : s.memberIs u "ban" = true)
    (hcreator : ¬ CreatorJoin s e) : s'.memberIs u "ban" = true ∨ s'.memberIs u "leave" = true ∧ Unban s e u := by
  obtain ⟨rfl, hcheck⟩ := accept_ok h
  rw [memberIs_after, memberIs_after]
  by_cases hk : e.type = member ∧ e.stateKey = some u
  · rw [if_pos hk, if_pos hk]
    obtain ⟨b, hb⟩ := hcheck (by rw [hk.1]; decide)
    rcases isMembershipChangeAllowed_banned hk.1 hk.2 hban hcreator (isMembershipChangeAllowed_of_check hk.1 hb)
      with hb | hu
    · exact .inl hb
    · exact .inr ⟨hu.membership, hu⟩
  · rw [if_neg hk]
    exact .inl hban

theorem acceptAll_split {before after : List Event} (h : acceptAll deps s (before ++ e :: after) = .ok t) :
    ∃ s₁ s₂, acceptAll deps s before = .ok s₁ ∧ accept deps s₁ e = .ok s₂ ∧ acceptAll deps s₂ after = .ok t := by
  unfold acceptAll at h
  rw [foldlM_append] at h
  obtain ⟨s₁, hbefore, h⟩ := exc_bind_ok h
  obtain ⟨s₂, he, hafter⟩ := exc_bind_ok h
  exact ⟨s₁, s₂, hbefore, he, hafter⟩

/-- **Bans.**  At every point of every history, an accepted event that is not a join of the creator from the create event
leaves a banned user banned, or takes them to `leave`; then its sender is joined and reaches the ban level.  It never
takes them to `join`, `invite` or `knock`, whatever the join rule, the room version and the third-party invites of the
room. -/
theorem banned_moves (deps : Deps) (start final : RoomState) (before after : List Event) (e : Event) (u : String)
    (hrun : acceptAll deps start (before ++ e :: after) = .ok final) :
    ∃ s s', acceptAll deps start before = .ok s ∧ accept deps s e = .ok s' ∧
      (s.memberIs u "ban" = true → ¬ CreatorJoin s e →
        (s'.memberIs u "ban" = true ∨ s'.memberIs u "leave" = true ∧ Unban s e u) ∧
          ∀ m ∈ ["join", "invite", "knock"], s'.memberIs u m = false) := by
  obtain ⟨s, s', hbefore, hstep, -⟩ := acceptAll_split hrun
  refine ⟨s, s', hbefore, hstep, fun hban hcreator => ?_⟩
  have hmove := step_banned hstep hban hcreator
  refine ⟨hmove, fun m hm => ?_⟩
  rcases hmove with hb | ⟨hl, -⟩
  · exact memberOf_unique hb (by rintro rfl; exact absurd hm (by decide))
  · exact memberOf_unique hl (by rintro rfl; exact absurd hm (by decide))

/-- Over a whole history a banned user stays banned up to its end or up to an unban. -/
theorem banned_until_unban (hrun : acceptAll deps s history = .ok t) (hban : s.memberIs u "ban" = true)
    (hcreator : ∀ before e after s', history = before ++ e :: after → acceptAll deps s before = .ok s' →
      ¬ CreatorJoin s' e) :
    t.memberIs u "ban" = true ∨ ∃ before e after s', history = before ++ e :: after ∧
      acceptAll deps s before = .ok s' ∧ s'.memberIs u "ban" = true ∧ Unban s' e u := by
  induction history generalizing s with
  | nil =>
    cases hrun
    exact .inl hban
  | cons e history ih =>
    obtain ⟨s₁, s₂, hs₁, hstep, hrest⟩ := acceptAll_split (show acceptAll deps s ([] ++ e :: history) = .ok t from hrun)
    cases hs₁
    rcases step_banned hstep hban (hcreator [] e history s rfl rfl) with hb | ⟨-, hu⟩
    · have hcons (before : List Event) : acceptAll deps s (e :: before) = acceptAll deps s₂ before := by
        rw [acceptAll, foldlM_cons, hstep]
        rfl
      have hrest' := ih hrest hb fun before e' after s' hsplit hbefore =>
        hcreator (e :: before) e' after s' (by rw [hsplit]; rfl) ((hcons before).trans hbefore)
      refine hrest'.imp_right ?_
      rintro ⟨before, e', after, s', hsplit, hbefore, hban', hu⟩
      exact ⟨e :: before, e', after, s', by rw [hsplit]; rfl, (hcons before).trans hbefore, hban', hu⟩
    · exact .inr ⟨[], e, history, s, rfl, rfl, hban, hu⟩

namespace Pardon

/-- A room in which a moderator has banned a user. -/
def state : RoomState where
  events := [ofContent "$create" create "" "@mod:hs" [("creator", .str "@mod:hs")],
    ofContent "$mod" member "@mod:hs" "@mod:hs" [("membership", .str "join")],
    ofContent "$ban" member "@troll:hs" "@mod:hs" [("membership", .str "ban")]]
  isState := by decide

def unban : Event := ofContent "$unban" member "@troll:hs" "@mod:hs" [("membership", .str "leave")]

theorem banned_moves_unban : state.memberIs "@troll:hs" "ban" = true ∧ ¬ CreatorJoin state unban ∧
    ∃ s s', acceptAll Deps.offline state [] = .ok s ∧ accept Deps.offline s unban = .ok s' ∧
      (s.memberIs "@troll:hs" "ban" = true → ¬ CreatorJoin s unban →
        (s'.memberIs "@troll:hs" "ban" = true ∨ s'.memberIs "@troll:hs" "leave" = true ∧ Unban s unban "@troll:hs") ∧
          ∀ m ∈ ["join", "invite", "knock"], s'.memberIs "@troll:hs" m = false) :=
  ⟨by decide, fun ⟨_, _, _, hprev, _⟩ => absurd hprev nofun,
    banned_moves Deps.offline state (state.after unban) [] [] unban "@troll:hs" (by rfl)⟩

theorem banned_until_pardon : (state.after unban).memberIs "@troll:hs" "ban" = true ∨
    ∃ before e after s', [unban] = before ++ e :: after ∧ acceptAll Deps.offline state before = .ok s' ∧
      s'.memberIs "@troll:hs" "ban" = true ∧ Unban s' e "@troll:hs" := by
  refine banned_until_unban (by rfl) (by decide) fun before e after s' hsplit _ => ?_
  obtain rfl : e = unban := mem_singleton.mp (hsplit ▸ mem_append_right before mem_cons_self)
  exact fun ⟨_, _, _, hprev, _⟩ => absurd hprev nofun

end Pardon

namespace Rejoin

/-- The room's creator has joined, and a moderator has more power than they have. -/
def state : RoomState where
  events := [ofContent "$create" create "" "@creator:hs" [("creator", .str "@creator:hs")],
    ofContent "$join" member "@creator:hs" "@creator:hs" [("membership", .str "join")],
    ofContent "$mod" member "@mod:hs" "@mod:hs" [("membership", .str "join")],
    ofContent "$levels" powerLevels "" "@creator:hs" [("users", .obj [("@mod:hs", .int 100)])]]
  isState := by decide

def ban : Event := ofContent "$ban" member "@creator:hs" "@mod:hs" [("membership", .str "ban")]

def rejoin : Event :=
  { ofContent "$rejoin" member "@creator:hs" "@creator:hs" [("membership", .str "join")] with prevEventIds := ["$create"] }

/-- The creator has joined before, is banned, and joins once more. -/
theorem banned_creator_joins : state.memberIs "@creator:hs" "join" = true ∧
    acceptAll Deps.offline state [ban] = .ok (state.after ban) ∧
    (state.after ban).memberIs "@creator:hs" "ban" = true ∧
    accept Deps.offline (state.after ban) rejoin = .ok ((state.after ban).after rejoin) ∧
    ((state.after ban).after rejoin).memberIs "@creator:hs" "join" = true :=
  ⟨by decide, by rfl, by decide, by rfl, by decide⟩

end Rejoin

end Synapse.EventAuth
