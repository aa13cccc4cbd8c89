import Synapse.Lib.Numbered
import Synapse.Lib.Runs
import Synapse.Phone.Numbers

/-!
# Synapse.Phone.Verify — logging in and registering with a code that was sent to a phone

`PhoneRegistrationTokenServlet` and `PhoneRegistrationVerifyServlet` of `synapse/rest/client/register.py`, with what they
use of the registration handler and of the session data of `AuthHandler`.  A request is where it waits; every call of the
database that it waits for is a step of its own, and may raise.  Token requests are seen from the lookup of the account on:
those that are refused before it (by the rate limit, or because the number is not allowed) change nothing.  A session gets
its data in one step, since nobody is told of it before.

* `checkUsername`: `RegistrationHandler.check_username`.
* `Phase`, `phaseAfter`, `effect`: a verify request, what it finds and what it writes.
* `step`, `run`: any interleaving of requests.
* `Alone`, `Inv`, `step_inv`: at most one request of a session that has been let in by its code.
* **`verified_once`**: one success for each code, in runs whose requests of one session do not overlap.
* `Overlap.verified_twice`: a run with two.
-/

namespace Synapse.Phone

open Lib List Option

/-- What the handlers know of the server. -/
structure Server where
  numbers : PhoneNumbers
  hostname : Text
  /-- the message of `check_user_id_not_appservice_exclusive`, if it raises -/
  exclusive : Text → Option String

variable (S : Server)

/-! ## User names -/

def Server.userId (localpart : Text) : Text := '@' :: localpart ++ ':' :: S.hostname

/-- `MXID_LOCALPART_ALLOWED_CHARACTERS` -/
def isMxidCharacter (c : Char) : Bool := c.isLower || c.isDigit || c ∈ ['_', '-', '.', '/', '=', '+']

def maxUseridLength : ℕ := 255

/-- `lower(name) = lower(?)` -/
def lower (t : Text) : Text := t.map Char.toLower

/-- The message with which a user name is refused. -/
def checkUsername (users : List Text) (localpart : Text) : Option String :=
  if ¬ localpart.all isMxidCharacter then some "User ID can only contain characters a-z, 0-9, or '=_-./+'"
  else if localpart = [] then some "User ID cannot be empty"
  else if localpart.head? = some '_' then some "User ID may not begin with _"
  else
    match S.exclusive (S.userId localpart) with
    | some message => some message
    | none =>
      if maxUseridLength < (S.userId localpart).length then some "User ID may not be longer than 255 characters"
      else if lower (S.userId localpart) ∈ users.map lower then some "User ID already taken."
      else if localpart.all Char.isDigit then some "Numeric user IDs are reserved for guest users."
      else none

/-! ## Requests -/

inductive Response where
  | success (userId : Text)
  | error (code : ℕ) (message : String)
  /-- an exception that is no `SynapseError` -/
  | raised

inductive Phase where
  | readingOtp
  | readingExpiry (storedOtp : Text)
  | readingMsisdn
  | readingExisting (msisdn : Text)
  /-- `check_username`; with the number of the suffix where the name is made from the phone number -/
  | checkingUsername (msisdn username : Text) (suffix : Option ℕ)
  /-- `check_username` in `register_user` -/
  | rechecking (msisdn username : Text)
  /-- `register_with_store` -/
  | registering (msisdn username : Text)
  /-- `_register_msisdn_threepid` -/
  | binding (msisdn userId : Text)
  | registeringDevice (userId : Text)
  | clearingOtp (userId : Text)
  | clearingMsisdn (userId : Text)
  | clearingExpiry (userId : Text)
  | clearingExisting (userId : Text)
  | ended (response : Response)

structure Verify where
  sid : ℕ
  otp : Text
  username : Option Text
  phase : Phase

/-- The data of a session, and the number and address that it was made for. -/
structure Session where
  phone : Text
  address : Text
  /-- `phone_registration_otp` -/
  otp : Option Text
  /-- `phone_registration_msisdn` -/
  msisdn : Option Text
  /-- `phone_existing_user_id` -/
  existing : Option Text
  /-- `phone_registration_otp_expiry` -/
  expiry : Option ℕ

/-- A token request that has looked up the account. -/
structure Token where
  phone : Text
  msisdn : Text
  existing : Option Text

structure State where
  clock : ℕ
  users : List Text
  /-- `user_threepids`, by the address -/
  threepids : Text → Option Text
  tokens : List Token
  /-- the sessions by their ids -/
  sessions : List Session
  verifies : List Verify

def State.start (users : List Text) (threepids : Text → Option Text) : State := ⟨0, users, threepids, [], [], []⟩

variable (s : State)

def State.setSession (sid : ℕ) (f : Session → Session) : State :=
  { s with sessions := s.sessions.modify sid f }

/-- What a verify request goes on to, with what it has waited for. -/
def phaseAfter (v : Verify) (session : Session) : Phase → Phase
  | .readingOtp =>
    match session.otp with
    | none => .ended (.error 400 "Invalid session")
    | some storedOtp => .readingExpiry storedOtp
  | .readingExpiry storedOtp =>
    match session.expiry with
    -- the time is compared with `None`
    | none => .ended .raised
    | some expiry =>
      if expiry < s.clock then .ended (.error 400 "OTP has expired")
      else if v.otp ≠ storedOtp then .ended (.error 400 "Invalid OTP code")
      else .readingMsisdn
  | .readingMsisdn =>
    match session.msisdn with
    | none => .ended (.error 400 "Invalid session data")
    | some msisdn => .readingExisting msisdn
  | .readingExisting msisdn =>
    match session.existing with
    | some userId => .registeringDevice userId
    | none =>
      match v.username with
      | some username => .checkingUsername msisdn (lower username) none
      | none => .checkingUsername msisdn msisdn (some 0)
  | .checkingUsername msisdn username suffix =>
    match checkUsername S s.users username, suffix with
    | none, _ => .rechecking msisdn username
    | some message, none => .ended (.error 400 ("400: " ++ message))
    | some _, some k => .checkingUsername msisdn (msisdn ++ '_' :: intText (k + 1)) (some (k + 1))
  | .rechecking msisdn username =>
    match checkUsername S s.users username with
    | none => .registering msisdn username
    | some message => .ended (.error 400 message)
  | .registering msisdn username =>
    if S.userId username ∈ s.users then .ended (.error 400 "User ID already taken.")
    else .binding msisdn (S.userId username)
  | .binding _ userId => .registeringDevice userId
  | .registeringDevice userId => .clearingOtp userId
  | .clearingOtp userId => .clearingMsisdn userId
  | .clearingMsisdn userId => .clearingExpiry userId
  | .clearingExpiry userId => .clearingExisting userId
  | .clearingExisting userId => .ended (.success userId)
  | .ended response => .ended response

/-- What a verify request of a session writes. -/
def effect (sid : ℕ) : Phase → State
  | .registering _ username =>
    if S.userId username ∈ s.users then s else { s with users := S.userId username :: s.users }
  -- the row of the address is inserted, or gets the new user
  | .binding msisdn userId => { s with threepids := Function.update s.threepids msisdn (some userId) }
  | .clearingOtp _ => s.setSession sid fun d => { d with otp := none }
  | .clearingMsisdn _ => s.setSession sid fun d => { d with msisdn := none }
  | .clearingExpiry _ => s.setSession sid fun d => { d with expiry := none }
  | .clearingExisting _ => s.setSession sid fun d => { d with existing := none }
  | _ => s

def otpLifetimeMs : ℕ := 10 * 60 * 1000

inductive Action where
  /-- time passes -/
  | tick (ms : ℕ)
  /-- a token request looks up the account of its number -/
  | requestToken (phoneNumber country : Text)
  /-- and makes its session, with a code -/
  | createSession (i : ℕ) (code : Text)
  | tokenRaises (i : ℕ)
  | requestVerify (sid : ℕ) (otp : Text) (username : Option Text)
  /-- what a verify request waits for has been done -/
  | verify (i : ℕ)
  | verifyRaises (i : ℕ) (response : Response)

def State.setPhase (i : ℕ) (v : Verify) (phase : Phase) : State :=
  { s with verifies := s.verifies.set i { v with phase := phase } }

def Phase.isEnded : Phase → Bool
  | .ended _ => true
  | _ => false

def Response.isError : Response → Bool
  | .success _ => false
  | _ => true

def step : Action → Option State
  | .tick ms => some { s with clock := s.clock + ms }
  | .requestToken phoneNumber country =>
    (tokenMsisdn S.numbers phoneNumber country).map fun (phone, msisdn) =>
      { s with tokens := ⟨phone, msisdn, s.threepids msisdn⟩ :: s.tokens }
  | .createSession i code =>
    (s.tokens[i]?).map fun t =>
      { s with
        tokens := s.tokens.eraseIdx i
        sessions := s.sessions ++
          [⟨t.phone, t.msisdn, some code, some t.msisdn, t.existing, some (s.clock + otpLifetimeMs)⟩] }
  | .tokenRaises i => (s.tokens[i]?).map fun _ => { s with tokens := s.tokens.eraseIdx i }
  | .requestVerify sid otp username => some { s with verifies := s.verifies ++ [⟨sid, otp, username, .readingOtp⟩] }
  | .verify i =>
    (s.verifies[i]?).bind fun v =>
      -- for a session that is not there the call raises
      (s.sessions[v.sid]?).bind fun session =>
        if v.phase.isEnded then none
        else some ((effect S s v.sid v.phase).setPhase i v (phaseAfter S s v session v.phase))
  | .verifyRaises i response =>
    (s.verifies[i]?).bind fun v =>
      if v.phase.isEnded ∨ response.isError = false then none else some (s.setPhase i v (.ended response))

def run : List Action → Option State := List.foldlM (step S) s

/-! ## Requests that the code has let in -/

/-- The request has found the code, and has not failed. -/
def Phase.holds : Phase → Bool
  | .readingOtp | .ended (.error _ _) | .ended .raised => false
  | _ => true

/-- The request has cleared the code, and has not failed. -/
def Phase.spent : Phase → Bool
  | .clearingMsisdn _ | .clearingExpiry _ | .clearingExisting _ | .ended (.success _) => true
  | _ => false

def Phase.isSuccess : Phase → Bool
  | .ended (.success _) => true
  | _ => false

/-- How many requests have been successful with the code of a session. -/
def State.successes (sid : ℕ) : ℕ := s.verifies.countP fun v => decide (v.sid = sid) && v.phase.isSuccess

/-- **When a request reads the code of its session, no other request is between its own reading and its end.** -/
def Alone : Action → Prop
  | .verify i =>
    ∀ v ∈ s.verifies[i]?, v.phase.holds = false →
      ∀ w ∈ s.verifies, w.sid = v.sid → w.phase.holds = true → w.phase.isEnded = true
  | _ => True

instance (s : State) (a : Action) : Decidable (Alone s a) := by
  unfold Alone
  split <;> infer_instance

def runAlone : List Action → Option State :=
  List.foldlM (fun s a => if Alone s a then step S s a else none) s

/-- The code of a session has been cleared. -/
def Cleared (sid : ℕ) : Prop := ∃ session, s.sessions[sid]? = some session ∧ session.otp = none

/-- At most one request of a session holds its code, and none after it has been cleared. -/
structure Inv (s : State) : Prop where
  alone : ∀ {i j : ℕ} {v w : Verify}, s.verifies[i]? = some v → s.verifies[j]? = some w → v.sid = w.sid →
    v.phase.holds = true → w.phase.holds = true → i = j
  spent : ∀ {i : ℕ} {v : Verify}, s.verifies[i]? = some v → v.phase.spent = true → Cleared s v.sid

theorem start_inv (users : List Text) (threepids : Text → Option Text) : Inv (.start users threepids) where
  alone h := nomatch h
  spent h := nomatch h

variable {S s}

@[simp]
theorem effect_verifies (sid : ℕ) (phase : Phase) : (effect S s sid phase).verifies = s.verifies := by
  cases phase with
  | registering msisdn username =>
    rw [effect]
    split <;> rfl
  | _ => rfl

/-- A session keeps its number and its data, but for what has been cleared. -/
structure Session.Le (d d' : Session) : Prop where
  phone : d'.phone = d.phone
  address : d'.address = d.address
  otp : ∀ x ∈ d'.otp, x ∈ d.otp
  msisdn : ∀ x ∈ d'.msisdn, x ∈ d.msisdn
  existing : ∀ x ∈ d'.existing, x ∈ d.existing

theorem Session.Le.refl (d : Session) : d.Le d := ⟨rfl, rfl, fun _ h => h, fun _ h => h, fun _ h => h⟩

variable {sid sid' : ℕ}

theorem setSession_session {f : Session → Session} (hf : ∀ d : Session, d.Le (f d)) {d' : Session}
    (h : (s.setSession sid f).sessions[sid']? = some d') : ∃ d, s.sessions[sid']? = some d ∧ d.Le d' := by
  rw [State.setSession, getElem?_modify] at h
  obtain ⟨d, hd, rfl⟩ := map_eq_some_iff.mp h
  refine ⟨d, hd, ?_⟩
  split
  · exact hf d
  · exact Session.Le.refl d

variable {phase : Phase}

theorem effect_session {d' : Session}
    (h : (effect S s sid phase).sessions[sid']? = some d') : ∃ d, s.sessions[sid']? = some d ∧ d.Le d' := by
  cases phase with
  | registering msisdn username =>
    refine ⟨d', ?_, .refl d'⟩
    rw [← h]
    rw [effect]
    split <;> rfl
  | clearingOtp | clearingMsisdn | clearingExpiry | clearingExisting =>
    apply setSession_session _ h
    intro d
    constructor
    all_goals first | rfl | exact fun _ hx => hx | exact nofun
  | _ => exact ⟨d', h, .refl d'⟩

theorem effect_length (sid : ℕ) (phase : Phase) : (effect S s sid phase).sessions.length = s.sessions.length := by
  cases phase with
  | registering msisdn username =>
    rw [effect]
    split <;> rfl
  | clearingOtp | clearingMsisdn | clearingExpiry | clearingExisting => exact length_modify _ _ _
  | _ => rfl

theorem effect_session_of (sid : ℕ) (phase : Phase) {d : Session} (hd : s.sessions[sid']? = some d) :
    ∃ d', (effect S s sid phase).sessions[sid']? = some d' ∧ d.Le d' := by
  have hlt : sid' < (effect S s sid phase).sessions.length := by
    rw [effect_length]
    exact (List.getElem?_eq_some_iff.mp hd).1
  obtain ⟨d₀, hd₀, hle⟩ := effect_session (getElem?_eq_getElem hlt)
  cases hd₀.symm.trans hd
  exact ⟨_, getElem?_eq_getElem hlt, hle⟩

theorem effect_cleared (phase : Phase) (h : Cleared s sid') : Cleared (effect S s sid phase) sid' := by
  obtain ⟨d, hd, hotp⟩ := h
  obtain ⟨d', hd', hle⟩ := effect_session_of sid phase hd
  refine ⟨d', hd', eq_none_iff_forall_not_mem.mpr fun x hx => ?_⟩
  have := hle.otp x hx
  rw [hotp] at this
  cases this

theorem effect_clearingOtp {d : Session} (h : s.sessions[sid]? = some d) (userId : Text) :
    Cleared (effect S s sid (.clearingOtp userId)) sid := by
  refine ⟨{ d with otp := none }, ?_, rfl⟩
  rw [effect, State.setSession, getElem?_modify_eq, h]
  rfl

variable {v : Verify}

theorem phaseAfter_holds {session : Session} (hp : phase.holds = false)
    (h : (phaseAfter S s v session phase).holds = true) : session.otp ≠ none := by
  cases phase with
  | readingOtp =>
    intro hotp
    simp only [phaseAfter, hotp, Phase.holds] at h
    cases h
  | ended response =>
    rw [phaseAfter] at h
    rw [hp] at h
    cases h
  | _ => cases hp

theorem phaseAfter_spent {session : Session}
    (h : (phaseAfter S s v session phase).spent = true) : (∃ userId, phase = .clearingOtp userId) ∨ phase.spent = true := by
  cases phase with
  | clearingOtp userId => exact .inl ⟨userId, rfl⟩
  | clearingMsisdn | clearingExpiry | clearingExisting => exact .inr rfl
  | ended response => exact .inr h
  | readingOtp | readingMsisdn | readingExisting | rechecking | readingExpiry | registering | checkingUsername =>
    simp only [phaseAfter] at h
    repeat' split at h
    all_goals cases h
  | binding | registeringDevice => cases h

theorem Phase.spent_of_ended (h : phase.holds = true) (hended : phase.isEnded = true) : phase.spent = true := by
  cases phase with
  | ended response =>
    cases response with
    | success userId => rfl
    | _ => cases h
  | _ => cases hended

theorem Inv.setPhase (h : Inv s) {i : ℕ} (hv : s.verifies[i]? = some v)
    (hholds : phase.holds = true → v.phase.holds = true ∨
      ∀ {j : ℕ} {w : Verify}, s.verifies[j]? = some w → w.sid = v.sid → w.phase.holds = false)
    (hspent : phase.spent = true → Cleared s v.sid) : Inv (s.setPhase i v phase) where
  alone := by
    -- a request that is let in now is the only one
    have key : ∀ {j : ℕ} {w : Verify}, i ≠ j → s.verifies[j]? = some w → v.sid = w.sid → phase.holds = true →
        w.phase.holds = true → i = j := by
      intro j w hne hw hsid hp hwp
      rcases hholds hp with hvp | hnone
      · exact h.alone hv hw hsid hvp hwp
      · rw [hnone hw hsid.symm] at hwp
        cases hwp
    intro j k w u hw hu hsid hwp hup
    rcases getElem?_set_cases hw with ⟨rfl, rfl⟩ | ⟨hj, hw'⟩
    · rcases getElem?_set_cases hu with ⟨rfl, -⟩ | ⟨hk, hu'⟩
      · rfl
      · exact key hk.symm hu' hsid hwp hup
    · rcases getElem?_set_cases hu with ⟨rfl, rfl⟩ | ⟨-, hu'⟩
      · exact (key hj.symm hw' hsid.symm hup hwp).symm
      · exact h.alone hw' hu' hsid hwp hup
  spent := by
    intro j w hw hwp
    rcases getElem?_set_cases hw with ⟨-, rfl⟩ | ⟨-, hw⟩
    · exact hspent hwp
    · exact h.spent hw hwp

theorem Inv.effect (h : Inv s) (sid : ℕ) (phase : Phase) : Inv (effect S s sid phase) where
  alone hv hw := by
    rw [effect_verifies] at hv hw
    exact h.alone hv hw
  spent hv hp := by
    rw [effect_verifies] at hv
    exact effect_cleared phase (h.spent hv hp)

theorem step_inv (h : Inv s) {a : Action} {s' : State} (halone : Alone s a) (hstep : step S s a = some s') : Inv s' := by
  cases a with
  | tick ms =>
    cases hstep
    exact ⟨h.alone, h.spent⟩
  | requestToken | tokenRaises =>
    obtain ⟨-, -, rfl⟩ := map_eq_some_iff.mp hstep
    exact ⟨h.alone, h.spent⟩
  | createSession i code =>
    obtain ⟨t, -, rfl⟩ := map_eq_some_iff.mp hstep
    refine ⟨h.alone, fun hv hp => ?_⟩
    obtain ⟨d, hd, hotp⟩ := h.spent hv hp
    exact ⟨d, getElem?_concat_of_some hd, hotp⟩
  | requestVerify sid otp username =>
    cases hstep
    refine ⟨fun hv hw hsid hvp hwp => ?_, fun hv hvp => ?_⟩
    · rcases getElem?_concat_cases hv with hv | ⟨-, rfl⟩
      · rcases getElem?_concat_cases hw with hw | ⟨-, rfl⟩
        · exact h.alone hv hw hsid hvp hwp
        · cases hwp
      · cases hvp
    · rcases getElem?_concat_cases hv with hv | ⟨-, rfl⟩
      · exact h.spent hv hvp
      · cases hvp
  | verify i =>
    obtain ⟨v, hv, hstep⟩ := bind_eq_some_iff.mp hstep
    obtain ⟨session, hsession, hstep⟩ := bind_eq_some_iff.mp hstep
    obtain ⟨-, hstep⟩ := ite_none_left_eq_some.mp hstep
    cases hstep
    refine (h.effect v.sid v.phase).setPhase ((congrArg (·[i]?) (effect_verifies ..)).trans hv) ?_ ?_
    · intro hp
      by_cases hvp : v.phase.holds = true
      · exact .inl hvp
      · -- no request has spent the code, and none holds it
        rw [Bool.not_eq_true] at hvp
        refine .inr fun {j w} hw hsid => ?_
        rw [effect_verifies] at hw
        by_contra hwp
        rw [Bool.not_eq_false] at hwp
        have hended := halone v hv hvp w (mem_of_getElem? hw) hsid hwp
        obtain ⟨d, hd, hotp⟩ := h.spent hw (Phase.spent_of_ended hwp hended)
        rw [hsid] at hd
        cases hd.symm.trans hsession
        exact phaseAfter_holds hvp hp hotp
    · intro hp
      rcases phaseAfter_spent hp with ⟨userId, he⟩ | hvp
      · rw [he]
        exact effect_clearingOtp hsession userId
      · exact effect_cleared _ (h.spent hv hvp)
  | verifyRaises i response =>
    obtain ⟨v, hv, hstep⟩ := bind_eq_some_iff.mp hstep
    obtain ⟨hcond, hstep⟩ := ite_none_left_eq_some.mp hstep
    cases hstep
    cases response with
    | success userId => exact absurd (.inr rfl) hcond
    | error | raised => exact h.setPhase hv nofun nofun

theorem Phase.holds_of_isSuccess (h : phase.isSuccess = true) : phase.holds = true := by
  unfold Phase.isSuccess at h
  split at h
  · rfl
  · cases h

/-- **One success for each code.**  Whatever accounts there are, and however the requests interleave: if no request
reads the code of a session while another one is between its own reading and its end, at most one is successful. -/
theorem verified_once (S : Server) (users : List Text) (threepids : Text → Option Text) {actions : List Action}
    {s : State} (hrun : runAlone S (.start users threepids) actions = some s) (sid : ℕ) : s.successes sid ≤ 1 := by
  have h : Inv s := guarded_preserves (fun h halone hstep => step_inv h halone hstep) (start_inv users threepids) hrun
  refine countP_le_one fun {i j v w} hv hw hvp hwp => ?_
  simp only [Bool.and_eq_true, decide_eq_true_eq] at hvp hwp
  exact h.alone hv hw (hvp.1.trans hwp.1.symm) (Phase.holds_of_isSuccess hvp.2) (Phase.holds_of_isSuccess hwp.2)

/-! ## Two requests at once -/

/-- International numbers as they are, and national ones of one country. -/
def plainNumbers : PhoneNumbers where
  Number := Text
  isDecimal := Char.isDigit
  parse
    | '+' :: t, _ => some t
    | '0' :: t, some ['N', 'G'] => some ('2' :: '3' :: '4' :: t)
    | _, _ => none
  isValidNumber n := decide (n.length = 13)
  digits n := n

def plainServer : Server := ⟨plainNumbers, ['h', 's'], fun _ => none⟩

namespace Overlap

def phone : Text := ['+', '2', '3', '4', '8', '1', '6', '6', '4', '0', '6', '4', '5', '9']

def code : Text := ['1', '2', '3', '4', '5', '6']

def bob : Text := ['@', 'b', 'o', 'b', ':', 'h', 's']

def begin : State := .start [bob] fun address => if address = phone then some bob else none

/-- A session, and two requests for it with its code. -/
def requests : List Action :=
  [.requestToken phone [], .createSession 0 code, .requestVerify 0 code none, .requestVerify 0 code none]

/-- Both requests read the data of the session before one of them clears it. -/
def overlapping : List Action :=
  requests ++ .replicate 4 (.verify 0) ++ .replicate 4 (.verify 1) ++ .replicate 5 (.verify 0) ++ .replicate 5 (.verify 1)

/-- The second request begins when the first one has ended. -/
def inTurn : List Action := requests ++ .replicate 9 (.verify 0) ++ [.verify 1]

/-- One code is good for two logins. -/
theorem verified_twice : ∃ s, run plainServer begin overlapping = some s ∧ s.successes 0 = 2 :=
  map_eq_some_iff.mp (by decide +kernel)

theorem verified_in_turn : ∃ s, runAlone plainServer begin inTurn = some s ∧ s.successes 0 = 1 ∧ s.successes 0 ≤ 1 := by
  have h : (runAlone plainServer begin inTurn).map (fun s => s.successes 0) = some 1 := by decide +kernel
  obtain ⟨s, hs, hone⟩ := map_eq_some_iff.mp h
  exact ⟨s, hs, hone, verified_once plainServer _ _ hs 0⟩

end Overlap

end Synapse.Phone
