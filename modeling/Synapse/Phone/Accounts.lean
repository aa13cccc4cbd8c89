import Synapse.Phone.Verify

/-!
# Synapse.Phone.Accounts — one account for one phone number

* `State.addresses`: the numbers for which codes have been asked for, each with the address it is bound under.
* `Consistent`: a number has one address, and an address that is bound is not bound again.
* `Bound`, `step_bound`: what is known of an address is the account it is bound to.
* **`same_user`**: in consistent runs all successes of a number return one user.
* `Country.two_users`: a run in which they do not, with and without the country.
-/

namespace Synapse.Phone

open Lib List Option Function

variable {S : Server} {s : State}

/-- The E.164 numbers of requests and sessions, with their addresses. -/
def State.addresses (s : State) : List (Text × Text) :=
  s.tokens.map (fun t => (t.phone, t.msisdn)) ++ s.sessions.map fun d => (d.phone, d.address)

/-- The address that a request has read from its session. -/
def Phase.address? : Phase → Option Text
  | .readingExisting msisdn | .checkingUsername msisdn _ _ | .rechecking msisdn _ | .registering msisdn _
  | .binding msisdn _ => some msisdn
  | _ => none

def Phase.user? : Phase → Option Text
  | .registeringDevice userId | .clearingOtp userId | .clearingMsisdn userId | .clearingExpiry userId
  | .clearingExisting userId | .ended (.success userId) => some userId
  | _ => none

/-- The address that a request is about to bind. -/
def Phase.binds? : Phase → Option Text
  | .binding msisdn _ => some msisdn
  | _ => none

/-- **A number has one address, and an address that is bound is not bound again.** -/
def Consistent (S : Server) (s : State) : Action → Prop
  | .requestToken phoneNumber country =>
    ∀ k ∈ tokenMsisdn S.numbers phoneNumber country, ∀ l ∈ s.addresses, l.1 = k.1 → l.2 = k.2
  | .verify i => ∀ v ∈ s.verifies[i]?, ∀ msisdn ∈ v.phase.binds?, s.threepids msisdn = none
  | _ => True

instance : (a : Action) → Decidable (Consistent S s a)
  | .requestToken phoneNumber country =>
    inferInstanceAs (Decidable (∀ k ∈ tokenMsisdn S.numbers phoneNumber country, ∀ l ∈ s.addresses, l.1 = k.1 → l.2 = k.2))
  | .verify i =>
    inferInstanceAs (Decidable (∀ v ∈ s.verifies[i]?, ∀ msisdn ∈ v.phase.binds?, s.threepids msisdn = none))
  | .tick _ | .createSession _ _ | .tokenRaises _ | .requestVerify _ _ _ | .verifyRaises _ _ => .isTrue trivial

def runConsistent (S : Server) (s : State) : List Action → Option State :=
  List.foldlM (fun s a => if Consistent S s a then step S s a else none) s

/-! ## What is known of an address -/

/-- What a request has found fits the account that the address of its session is bound to. -/
structure Phase.Agrees (phase : Phase) (threepids : Text → Option Text) (address : Text) : Prop where
  read : ∀ msisdn ∈ phase.address?, msisdn = address
  found : ∀ userId ∈ phase.user?, threepids address = some userId

structure Session.Agrees (d : Session) (threepids : Text → Option Text) : Prop where
  msisdn : ∀ msisdn ∈ d.msisdn, msisdn = d.address
  existing : ∀ userId ∈ d.existing, threepids d.address = some userId

/-- More addresses are bound, and none to another account. -/
def Extends (threepids threepids' : Text → Option Text) : Prop :=
  ∀ address userId, threepids address = some userId → threepids' address = some userId

variable {threepids threepids' : Text → Option Text} {address : Text} {phase : Phase}

theorem Phase.Agrees.extends (h : phase.Agrees threepids address) (he : Extends threepids threepids') :
    phase.Agrees threepids' address :=
  ⟨h.read, fun userId hu => he _ _ (h.found userId hu)⟩

variable {d : Session}

theorem Session.Agrees.extends (h : d.Agrees threepids) (he : Extends threepids threepids') : d.Agrees threepids' :=
  ⟨h.msisdn, fun userId hu => he _ _ (h.existing userId hu)⟩

theorem Session.Agrees.le {d' : Session} (h : d.Agrees threepids) (hle : d.Le d') : d'.Agrees threepids where
  msisdn m hm := (h.msisdn m (hle.msisdn m hm)).trans hle.address.symm
  existing u hu := hle.address ▸ h.existing u (hle.existing u hu)

structure Bound (s : State) : Prop where
  addresses : ∀ k ∈ s.addresses, ∀ l ∈ s.addresses, l.1 = k.1 → l.2 = k.2
  tokens : ∀ t ∈ s.tokens, ∀ userId ∈ t.existing, s.threepids t.msisdn = some userId
  sessions : ∀ d ∈ s.sessions, d.Agrees s.threepids
  verifies : ∀ v ∈ s.verifies, v.phase.holds = true →
    ∃ d, s.sessions[v.sid]? = some d ∧ v.phase.Agrees s.threepids d.address

theorem start_bound (users : List Text) (threepids : Text → Option Text) : Bound (.start users threepids) where
  addresses _ h := nomatch h
  tokens _ h := nomatch h
  sessions _ h := nomatch h
  verifies _ h := nomatch h

theorem effect_extends (sid : ℕ) (hfree : ∀ msisdn ∈ phase.binds?, s.threepids msisdn = none) :
    Extends s.threepids (effect S s sid phase).threepids := by
  intro a u ha
  cases phase with
  | registering msisdn username =>
    rw [effect]
    split <;> exact ha
  | binding msisdn userId =>
    have hne : a ≠ msisdn := by
      rintro rfl
      rw [hfree a rfl] at ha
      cases ha
    exact (update_of_ne hne _ _).trans ha
  | _ => exact ha

variable {v : Verify}

theorem phaseAfter_address {msisdn : Text}
    (h : msisdn ∈ (phaseAfter S s v d phase).address?) : msisdn ∈ phase.address? ∨ msisdn ∈ d.msisdn := by
  cases phase with
  | readingMsisdn =>
    rw [phaseAfter] at h
    split at h
    · cases h
    · cases h
      exact .inr ‹_›
  | readingExisting | checkingUsername | rechecking | registering =>
    left
    simp only [phaseAfter] at h
    repeat' split at h
    all_goals first | exact h | cases h
  | readingOtp | readingExpiry =>
    rw [phaseAfter] at h
    repeat' split at h
    all_goals cases h
  | _ => cases h

variable {userId : Text}

theorem phaseAfter_user (h : userId ∈ (phaseAfter S s v d phase).user?) :
    userId ∈ phase.user? ∨ userId ∈ d.existing ∨ ∃ msisdn, phase = .binding msisdn userId := by
  cases phase with
  | readingExisting msisdn =>
    rw [phaseAfter] at h
    split at h
    · cases h
      exact .inr (.inl ‹_›)
    · split at h <;> cases h
  | binding msisdn userId' =>
    cases h
    exact .inr (.inr ⟨msisdn, rfl⟩)
  | readingOtp | readingExpiry | readingMsisdn | checkingUsername | rechecking | registering =>
    simp only [phaseAfter] at h
    repeat' split at h
    all_goals cases h
  | _ => exact .inl h

theorem phaseAfter_agrees (sid : ℕ) (hd : d.Agrees s.threepids)
    (hfree : ∀ msisdn ∈ phase.binds?, s.threepids msisdn = none) (h : phase.Agrees s.threepids d.address) :
    (phaseAfter S s v d phase).Agrees (effect S s sid phase).threepids d.address := by
  have he := effect_extends (S := S) sid hfree
  refine ⟨fun msisdn hm => ?_, fun userId hu => ?_⟩
  · rcases phaseAfter_address hm with hm | hm
    · exact h.read msisdn hm
    · exact hd.msisdn msisdn hm
  rcases phaseAfter_user hu with hu | hu | ⟨msisdn, rfl⟩
  · exact he _ _ (h.found userId hu)
  · exact he _ _ (hd.existing userId hu)
  · cases h.read msisdn rfl
    exact update_self ..

theorem Phase.agrees_of_holds (h : phase.holds = false) : phase.Agrees threepids address := by
  cases phase with
  | readingOtp => exact ⟨nofun, nofun⟩
  | ended response =>
    cases response with
    | success userId => cases h
    | _ => exact ⟨nofun, nofun⟩
  | _ => cases h

theorem effect_tokens (sid : ℕ) (phase : Phase) : (effect S s sid phase).tokens = s.tokens := by
  cases phase with
  | registering msisdn username =>
    rw [effect]
    split <;> rfl
  | _ => rfl

theorem effect_addresses {sid : ℕ} {k : Text × Text} (h : k ∈ (effect S s sid phase).addresses) : k ∈ s.addresses := by
  rw [State.addresses, effect_tokens] at h
  refine mem_append.mpr ((mem_append.mp h).imp_right fun h => ?_)
  obtain ⟨d', hd', rfl⟩ := List.mem_map.mp h
  obtain ⟨sid', hsid'⟩ := mem_iff_getElem?.mp hd'
  obtain ⟨d, hd, hle⟩ := effect_session hsid'
  exact List.mem_map.mpr ⟨d, mem_of_getElem? hd, by rw [hle.phone, hle.address]⟩

namespace Bound

theorem effect (h : Bound s) (sid : ℕ) {phase : Phase} (hfree : ∀ msisdn ∈ phase.binds?, s.threepids msisdn = none) :
    Bound (effect S s sid phase) where
  addresses k hk l hl := h.addresses k (effect_addresses hk) l (effect_addresses hl)
  tokens t ht userId hu := by
    rw [effect_tokens] at ht
    exact effect_extends sid hfree _ _ (h.tokens t ht userId hu)
  sessions d' hd' := by
    obtain ⟨sid', hsid'⟩ := mem_iff_getElem?.mp hd'
    obtain ⟨d, hd, hle⟩ := effect_session hsid'
    exact ((h.sessions d (mem_of_getElem? hd)).le hle).extends (effect_extends sid hfree)
  verifies v hv hp := by
    rw [effect_verifies] at hv
    obtain ⟨d, hd, hagrees⟩ := h.verifies v hv hp
    obtain ⟨d', hd', hle⟩ := effect_session_of sid phase hd
    exact ⟨d', hd', hle.address ▸ hagrees.extends (effect_extends sid hfree)⟩

theorem setPhase (h : Bound s) (i : ℕ) (v : Verify) {phase : Phase}
    (hphase : phase.holds = true → ∃ d, s.sessions[v.sid]? = some d ∧ phase.Agrees s.threepids d.address) :
    Bound (s.setPhase i v phase) where
  __ := h
  verifies w hw hp := by
    rcases mem_or_eq_of_mem_set hw with hw | rfl
    · exact h.verifies w hw hp
    · exact hphase hp

theorem requestToken (h : Bound s) {phone msisdn : Text} (hone : ∀ l ∈ s.addresses, l.1 = phone → l.2 = msisdn) :
    Bound { s with tokens := ⟨phone, msisdn, s.threepids msisdn⟩ :: s.tokens } where
  __ := h
  addresses k hk l hl heq := by
    rcases mem_cons.mp hk with rfl | hk
    · rcases mem_cons.mp hl with rfl | hl
      · rfl
      · exact hone l hl heq
    · rcases mem_cons.mp hl with rfl | hl
      · exact (hone k hk heq.symm).symm
      · exact h.addresses k hk l hl heq
  tokens := forall_mem_cons.mpr ⟨fun userId hu => hu, h.tokens⟩

theorem eraseToken (h : Bound s) (i : ℕ) : Bound { s with tokens := s.tokens.eraseIdx i } where
  __ := h
  addresses k hk l hl := by
    have hsub : ∀ k ∈ State.addresses { s with tokens := s.tokens.eraseIdx i }, k ∈ s.addresses := fun k hk =>
      mem_append.mpr ((mem_append.mp hk).imp_left fun hk =>
        map_subset _ (eraseIdx_subset ..) hk)
    exact h.addresses k (hsub k hk) l (hsub l hl)
  tokens t ht := h.tokens t (mem_of_mem_eraseIdx ht)

theorem addSession (h : Bound s) {d : Session} (hd : d.Agrees s.threepids)
    (hone : ∀ l ∈ s.addresses, l.1 = d.phone → l.2 = d.address) : Bound { s with sessions := s.sessions ++ [d] } where
  addresses k hk l hl heq := by
    have hsub : ∀ k ∈ State.addresses { s with sessions := s.sessions ++ [d] },
        k ∈ s.addresses ∨ k = (d.phone, d.address) := by
      intro k hk
      rw [State.addresses, map_append, ← List.append_assoc] at hk
      exact mem_snoc.mp hk
    rcases hsub k hk with hk | rfl
    · rcases hsub l hl with hl | rfl
      · exact h.addresses k hk l hl heq
      · exact (hone k hk heq.symm).symm
    · rcases hsub l hl with hl | rfl
      · exact hone l hl heq
      · rfl
  tokens := h.tokens
  sessions := forall_mem_snoc.mpr ⟨h.sessions, hd⟩
  verifies v hv hp := by
    obtain ⟨d', hd', hagrees⟩ := h.verifies v hv hp
    exact ⟨d', getElem?_concat_of_some hd', hagrees⟩

end Bound

theorem step_bound (h : Bound s) {a : Action} {s' : State} (hcons : Consistent S s a) (hstep : step S s a = some s') :
    Bound s' := by
  cases a with
  | tick ms =>
    cases hstep
    exact { h with }
  | requestToken phoneNumber country =>
    obtain ⟨⟨phone, msisdn⟩, hk, rfl⟩ := map_eq_some_iff.mp hstep
    exact h.requestToken fun l hl heq => hcons _ hk l hl heq
  | createSession i code =>
    obtain ⟨t, ht, rfl⟩ := map_eq_some_iff.mp hstep
    have hmem := mem_of_getElem? ht
    refine (h.addSession ⟨?_, ?_⟩ ?_).eraseToken i
    · exact fun msisdn hm => (some.inj hm).symm
    · exact h.tokens t hmem
    · exact h.addresses (t.phone, t.msisdn) (mem_append_left _ (List.mem_map_of_mem hmem))
  | tokenRaises i =>
    obtain ⟨-, -, rfl⟩ := map_eq_some_iff.mp hstep
    exact h.eraseToken i
  | requestVerify sid otp username =>
    cases hstep
    exact { h with verifies := forall_mem_snoc.mpr ⟨h.verifies, nofun⟩ }
  | verify i =>
    obtain ⟨v, hv, hstep⟩ := bind_eq_some_iff.mp hstep
    obtain ⟨d, hd, hstep⟩ := bind_eq_some_iff.mp hstep
    obtain ⟨-, hstep⟩ := ite_none_left_eq_some.mp hstep
    cases hstep
    have hfree := hcons v hv
    refine (h.effect v.sid hfree).setPhase i v fun _ => ?_
    obtain ⟨d', hd', hle⟩ := effect_session_of v.sid v.phase hd
    refine ⟨d', hd', hle.address ▸ phaseAfter_agrees v.sid (h.sessions d (mem_of_getElem? hd)) hfree ?_⟩
    by_cases hp : v.phase.holds = true
    · obtain ⟨d₀, hd₀, hagrees⟩ := h.verifies v (mem_of_getElem? hv) hp
      cases hd₀.symm.trans hd
      exact hagrees
    · exact Phase.agrees_of_holds (Bool.not_eq_true _ ▸ hp)
  | verifyRaises i response =>
    obtain ⟨v, -, hstep⟩ := bind_eq_some_iff.mp hstep
    obtain ⟨hcond, hstep⟩ := ite_none_left_eq_some.mp hstep
    cases hstep
    cases response with
    | success userId => exact absurd (.inr rfl) hcond
    | error | raised => exact h.setPhase i v nofun

/-! ## Users -/

/-- The users that successful requests for a number have returned. -/
def State.returned (s : State) (phone : Text) : List Text :=
  s.verifies.filterMap fun v =>
    match v.phase, s.sessions[v.sid]? with
    | .ended (.success userId), some d => if d.phone = phone then some userId else none
    | _, _ => none

theorem Bound.returned (h : Bound s) {phone : Text} (hu : userId ∈ s.returned phone) :
    ∃ address, (phone, address) ∈ s.addresses ∧ s.threepids address = some userId := by
  obtain ⟨v, hv, hu⟩ := mem_filterMap.mp hu
  split at hu
  swap
  · cases hu
  rename_i d hphase hd
  obtain ⟨rfl, rfl⟩ := ite_some_none_eq_some.mp hu
  obtain ⟨d₀, hd₀, hagrees⟩ := h.verifies v hv (by rw [hphase]; rfl)
  cases hd₀.symm.trans hd
  refine ⟨d.address, ?_, hagrees.found _ (by rw [hphase]; rfl)⟩
  exact mem_append_right _ (List.mem_map_of_mem (mem_of_getElem? hd))

/-- **One user for each number.**  Whatever accounts there are, and however the requests interleave: if all codes for a
number are asked for under one address, and no request binds an address that is bound, all successes return one user. -/
theorem same_user (S : Server) (users : List Text) (threepids : Text → Option Text) {actions : List Action} {s : State}
    (hrun : runConsistent S (.start users threepids) actions = some s) (phone : Text) :
    ∀ userId ∈ s.returned phone, ∀ userId' ∈ s.returned phone, userId = userId' := by
  have h : Bound s := guarded_preserves (fun h hcons hstep => step_bound h hcons hstep) (start_bound users threepids) hrun
  intro userId hu userId' hu'
  obtain ⟨address, haddress, hbound⟩ := h.returned hu
  obtain ⟨address', haddress', hbound'⟩ := h.returned hu'
  cases h.addresses _ haddress _ haddress' rfl
  exact some.inj (hbound.symm.trans hbound')

/-! ## With and without the country -/

namespace Country

def phone : Text := ['+', '2', '3', '4', '8', '1', '6', '6', '4', '0', '6', '4', '5', '9']

def nigeria : Text := ['N', 'G']

def code : Text := ['1', '2', '3', '4', '5', '6']

/-- A code is asked for, two minutes after the last one. -/
def token (phoneNumber country : Text) : List Action :=
  [.tick 120000, .requestToken phoneNumber country, .createSession 0 code]

/-- A request is made with the code and does all its steps. -/
def verified (sid steps : ℕ) : List Action := .requestVerify sid code none :: .replicate steps (.verify sid)

/-- The user registers without the country, and comes back with it. -/
def comesBack : List Action := token phone [] ++ verified 0 13 ++ token phone nigeria ++ verified 1 14

/-- The user gives the country both times. -/
def alike : List Action := token phone nigeria ++ verified 0 14 ++ token phone nigeria ++ verified 1 9

/-- One number has two users. -/
theorem two_users : ∃ s, run plainServer (.start [] fun _ => none) comesBack = some s ∧
    ∃ userId ∈ s.returned phone, ∃ userId' ∈ s.returned phone, userId ≠ userId' := by
  have h : (run plainServer (.start [] fun _ => none) comesBack).map (fun s => s.returned phone) =
      some [plainServer.userId phone, plainServer.userId (phone.drop 1 ++ ['_', '1'])] := by decide +kernel
  obtain ⟨s, hs, hreturned⟩ := map_eq_some_iff.mp h
  refine ⟨s, hs, ?_⟩
  rw [hreturned]
  decide

theorem alike_same_user : ∃ s, runConsistent plainServer (.start [] fun _ => none) alike = some s ∧
    (s.returned phone).length = 2 ∧ ∀ userId ∈ s.returned phone, ∀ userId' ∈ s.returned phone, userId = userId' := by
  have h : (runConsistent plainServer (.start [] fun _ => none) alike).map (fun s => (s.returned phone).length) =
      some 2 := by decide +kernel
  obtain ⟨s, hs, hlength⟩ := map_eq_some_iff.mp h
  exact ⟨s, hs, hlength, same_user plainServer _ _ hs phone⟩

/-- Two sessions at a time bind the number twice, without a country as well. -/
example : ((run plainServer (.start [] fun _ => none)
    (token phone [] ++ token phone [] ++ verified 0 13 ++ verified 1 14)).map fun s =>
      decide ((s.returned phone).Nodup ∧ (s.returned phone).length = 2)) = some true := by decide +kernel

end Country

end Synapse.Phone
