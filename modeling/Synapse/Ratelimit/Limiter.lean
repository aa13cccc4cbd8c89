import Mathlib.Tactic.FieldSimp
import Synapse.Lib.Dict
import Synapse.Lib.Meter

/-!
# Synapse.Ratelimit.Limiter — rate limits

`Ratelimiter` of `synapse/api/ratelimiting.py`, with exact arithmetic: times, rates and counts are in an ordered field.

* `canDoAction`, `pruneMessageCounts`: a check, and the looping call that drops the keys whose buckets are empty.
* `metered`: a run of checks with a meter for each key, which pruning does not touch.
* `Follows`: the buckets are meters; `Follows.check`, `Follows.prune`, `trace_eq_metered`.
* **`permitted_le_and_prune_invisible`**: the bound for every window, and pruning changes no decision.
* **`retry_permitted_iff`**: when a denied request is permitted at the time that was returned.
* **`record_counted_iff`**: when the actions that are recorded count fully.
-/

namespace Synapse.Ratelimit

open Lib List Finmap

variable {κ 𝕜 : Type}

structure Requester (κ : Type) where
  /-- `user.to_string()` -/
  user : κ
  /-- `app_service.is_rate_limited()` -/
  appService : Option Bool

/-- The arguments of a check, with the time and what `get_ratelimit_for_user` returns. -/
structure Check (κ 𝕜 : Type) where
  requester : Option (Requester κ)
  key : Option κ
  rateHz : Option 𝕜
  burstCount : Option 𝕜
  update : Bool
  nActions : ℤ
  now : 𝕜
  /-- the override of the user, with its `messages_per_second` -/
  override : Option (Option ℤ)

/-- `RatelimitSettings` -/
structure Config (𝕜 : Type) where
  rateHz : 𝕜
  burstCount : 𝕜

/-- `actions`: the count, the time when the bucket was last empty, and the rate. -/
abbrev Actions (κ 𝕜 : Type) := Finmap fun _ : κ => 𝕜 × 𝕜 × 𝕜

inductive Error where
  | valueError (msg : String)

namespace Check

variable (c : Check κ 𝕜)

def getKey : Except Error κ :=
  match c.key with
  | some key => .ok key
  | none =>
    match c.requester with
    | some requester => .ok requester.user
    | none => .error (.valueError "Must supply at least one of `requester` or `key`")

/-- Users of application services that are not rate limited, and users with ratelimiting disabled. -/
def exempt : Bool :=
  match c.requester with
  | none => false
  | some requester =>
    requester.appService = some false || match c.override with
      | some messagesPerSecond => messagesPerSecond = none ∨ messagesPerSecond = some 0
      | none => false

def counts [DecidableEq κ] (key : κ) : Bool :=
  c.update && !c.exempt && match c.getKey with
    | .ok k => k = key
    | .error _ => false

variable {c} in
theorem counts_iff [DecidableEq κ] {key : κ} :
    c.counts key = true ↔ c.update = true ∧ c.exempt = false ∧ c.getKey = .ok key := by
  unfold counts
  cases c.getKey with
  | error e => simp
  | ok k => simp [and_assoc]

end Check

section Limiter

variable [DecidableEq κ] [Field 𝕜] [LinearOrder 𝕜] (cfg : Config 𝕜) (actions : Actions κ 𝕜)

def getActionCounts (key : κ) (now : 𝕜) : 𝕜 × 𝕜 × 𝕜 := (actions.lookup key).getD (0, now, 0)

/-- `can_do_action`, past the exemptions: the decision, and the entry for the key. -/
def decideAction (entry : 𝕜 × 𝕜 × 𝕜) (rateHz burstCount : 𝕜) (nActions : ℤ) (now : 𝕜) : (Bool × 𝕜) × 𝕜 × 𝕜 × 𝕜 :=
  let performedCount := entry.1 - (now - entry.2.1) * rateHz
  let (performedCount, actionCount, timeStart) :=
    if performedCount < 0 then (0, 0, now) else (performedCount, entry.1, entry.2.1)
  let (allowed, actionCount) :=
    if performedCount > burstCount - nActions then (false, actionCount) else (true, actionCount + nActions)
  let timeAllowed :=
    if rateHz > 0 then
      let timeAllowed := timeStart + (actionCount - burstCount + 1) / rateHz
      if timeAllowed < now then now else timeAllowed
    else -1
  ((allowed, timeAllowed), actionCount, timeStart, rateHz)

def canDoAction (c : Check κ 𝕜) : Except Error ((Bool × 𝕜) × Actions κ 𝕜) := do
  let key ← c.getKey
  if c.exempt then return ((true, -1), actions)
  let rateHz := c.rateHz.getD cfg.rateHz
  let burstCount := c.burstCount.getD cfg.burstCount
  let (decision, entry) := decideAction (getActionCounts actions key c.now) rateHz burstCount c.nActions c.now
  return (decision, if c.update then actions.insert key entry else actions)

/-- `record_action`, with the key, the number of actions and the time of a check. -/
def recordAction (c : Check κ 𝕜) : Except Error (Actions κ 𝕜) := do
  let key ← c.getKey
  let (actionCount, timeStart, rateHz) := getActionCounts actions key c.now
  return actions.insert key (actionCount + c.nActions, timeStart, rateHz)

def pruneMessageCounts (now : 𝕜) : Actions κ 𝕜 :=
  restrict (fun key => match actions.lookup key with
    | some (actionCount, timeStart, rateHz) => actionCount - (now - timeStart) * rateHz > 0
    | none => false) actions

inductive Op (κ 𝕜 : Type) where
  | check (c : Check κ 𝕜)
  | prune (now : 𝕜)

def Op.now : Op κ 𝕜 → 𝕜
  | check c => c.now
  | prune now => now

def Op.isCheck : Op κ 𝕜 → Bool
  | check _ => true
  | prune _ => false

def step : Op κ 𝕜 → Actions κ 𝕜
  | .check c =>
    match canDoAction cfg actions c with
    | .ok (_, actions) => actions
    | .error _ => actions
  | .prune now => pruneMessageCounts actions now

/-- The checks of a run, with the decision of each that does not raise. -/
def trace : Actions κ 𝕜 → List (Op κ 𝕜) → List (Check κ 𝕜 × Option (Bool × 𝕜))
  | _, [] => []
  | actions, .check c :: ops =>
    (c, (canDoAction cfg actions c).toOption.map Prod.fst) :: trace (step cfg actions (.check c)) ops
  | actions, .prune now :: ops => trace (step cfg actions (.prune now)) ops

/-- The actions permitted for a key from `first` to `last`. -/
def permitted (key : κ) (first last : 𝕜) (checks : List (Check κ 𝕜 × Option (Bool × 𝕜))) : 𝕜 :=
  (checks.map fun e => if (e.2.any Prod.fst ∧ first ≤ e.1.now ∧ e.1.now ≤ last) ∧ e.1.counts key
    then (e.1.nActions : 𝕜) else 0).sum

def Fixed (rate burst : 𝕜) (ops : List (Op κ 𝕜)) : Prop :=
  ∀ c, .check c ∈ ops → c.rateHz.getD cfg.rateHz = rate ∧ c.burstCount.getD cfg.burstCount = burst

end Limiter

/-! ## Buckets as meters -/

section Levels

variable [Field 𝕜] [LinearOrder 𝕜]

def bucket (entry : 𝕜 × 𝕜 × 𝕜) : Meter 𝕜 := ⟨entry.1, entry.2.1⟩

def level (rate : 𝕜) (entry : Option (𝕜 × 𝕜 × 𝕜)) (now : 𝕜) : 𝕜 :=
  match entry with
  | none => 0
  | some (actionCount, timeStart, _) => max 0 (actionCount - (now - timeStart) * rate)

def decisionAt (rate burst : 𝕜) (nActions : ℤ) (now l : 𝕜) : Bool × 𝕜 :=
  let allowed : Bool := l ≤ burst - nActions
  (allowed, if rate > 0 then max now (now + (l + (if allowed then (nActions : 𝕜) else 0) - burst + 1) / rate) else -1)

variable [IsStrictOrderedRing 𝕜]

/-- The decision depends on the level, and the entry that is put down is the meter after an offer. -/
theorem decideAction_spec (entry : 𝕜 × 𝕜 × 𝕜) (rate burst : 𝕜) (nActions : ℤ) (now : 𝕜) :
    let d := decideAction entry rate burst nActions now
    d.1 = decisionAt rate burst nActions now ((bucket entry).levelAt rate now) ∧ d.2.2.2 = rate ∧
      ∀ t, (bucket d.2).levelAt rate t = ((bucket entry).offer rate burst now nActions).2.levelAt rate t := by
  obtain ⟨actionCount, timeStart, r⟩ := entry
  intro d
  obtain ⟨l, hl⟩ : ∃ l, (bucket (actionCount, timeStart, r)).levelAt rate now = l := ⟨_, rfl⟩
  -- the count and the start time that are used give the level
  obtain ⟨count, start, hcount, hreset⟩ : ∃ count start, (∀ t, count - (t - start) * rate = l - (t - now) * rate) ∧
      (if actionCount - (now - timeStart) * rate < 0 then ((0, 0, now) : 𝕜 × 𝕜 × 𝕜)
        else (actionCount - (now - timeStart) * rate, actionCount, timeStart)) = (l, count, start) := by
    by_cases hempty : actionCount - (now - timeStart) * rate < 0
    · have hzero : l = 0 := hl.symm.trans (max_eq_left hempty.le)
      exact ⟨0, now, fun t => by rw [hzero], by rw [if_pos hempty, hzero]⟩
    · have hfull : l = actionCount - (now - timeStart) * rate := hl.symm.trans (max_eq_right (not_lt.mp hempty))
      exact ⟨actionCount, timeStart, fun t => by rw [hfull]; ring, by rw [if_neg hempty, hfull]⟩
  have hclip : ∀ x : 𝕜, (if x < now then now else x) = max now x := by
    intro x
    rw [max_comm, max_def_lt]
  have htime : rate > 0 → ∀ n : 𝕜, start + (count + n - burst + 1) / rate = now + (l + n - burst + 1) / rate := by
    intro hrate n
    have hnow := hcount now
    rw [sub_self, zero_mul, sub_zero] at hnow
    rw [← hnow]
    field_simp
    ring
  have hleak : ∀ n t : 𝕜, count + n - (t - start) * rate = l + n - (t - now) * rate := fun n t => by linarith [hcount t]
  simp only [d, decideAction, hreset, hclip, hl, decisionAt, Meter.offer, decide_eq_true_eq]
  by_cases hfull : l > burst - nActions
  · have htime' := fun hrate => htime hrate 0
    have hleak' := hleak 0
    simp only [add_zero] at htime' hleak'
    simp only [if_pos hfull, if_neg (not_le.mpr hfull), decide_eq_false (not_le.mpr hfull), add_zero]
    exact ⟨by split_ifs with hrate <;> simp [htime', hrate], trivial, fun t => congrArg (max 0) (hleak' t)⟩
  · simp only [if_neg hfull, if_pos (not_lt.mp hfull), decide_eq_true (not_lt.mp hfull)]
    exact ⟨by split_ifs with hrate <;> simp [htime, hrate], trivial, fun t => congrArg (max 0) (hleak _ t)⟩

end Levels

section Runs

variable [DecidableEq κ] [Field 𝕜] [LinearOrder 𝕜] {cfg : Config 𝕜} {rate burst : 𝕜} {actions : Actions κ 𝕜}
  {ops : List (Op κ 𝕜)} {c : Check κ 𝕜} {key : κ} {since now : 𝕜} {m : κ → Meter 𝕜}

/-- What a check returns where the buckets are meters. -/
def answer (rate burst : 𝕜) (m : κ → Meter 𝕜) (c : Check κ 𝕜) : Option (Bool × 𝕜) :=
  c.getKey.toOption.map fun key =>
    if c.exempt then (true, -1) else decisionAt rate burst c.nActions c.now ((m key).levelAt rate c.now)

/-- A check that counts is an offer to the meter of its key. -/
def offered (rate burst : 𝕜) (m : κ → Meter 𝕜) (c : Check κ 𝕜) : κ → Meter 𝕜 :=
  fun key => if c.counts key then ((m key).offer rate burst c.now c.nActions).2 else m key

/-- The checks of a run where the buckets are meters. -/
def metered (rate burst : 𝕜) : (κ → Meter 𝕜) → List (Op κ 𝕜) → List (Check κ 𝕜 × Option (Bool × 𝕜))
  | _, [] => []
  | m, .check c :: ops => (c, answer rate burst m c) :: metered rate burst (offered rate burst m c) ops
  | m, .prune _ :: ops => metered rate burst m ops

/-- From some time on the buckets are meters. -/
structure Follows (rate since : 𝕜) (actions : Actions κ 𝕜) (m : κ → Meter 𝕜) : Prop where
  rated : ∀ {key entry}, actions.lookup key = some entry → entry.2.2 = rate
  level_eq : ∀ key t, since ≤ t → level rate (actions.lookup key) t = (m key).levelAt rate t

theorem Follows.later (h : Follows rate since actions m) (hle : since ≤ now) : Follows rate now actions m :=
  ⟨h.rated, fun key t ht => h.level_eq key t (hle.trans ht)⟩

theorem level_getActionCounts :
    (bucket (getActionCounts actions key now)).levelAt rate now = level rate (actions.lookup key) now := by
  unfold getActionCounts
  cases actions.lookup key with
  | none =>
    show max 0 (0 - (now - now) * rate) = 0
    rw [sub_self, zero_mul, sub_zero, max_self]
  | some entry => rfl

theorem level_later {entry : Option (𝕜 × 𝕜 × 𝕜)} (h : 0 < level rate entry now) (t : 𝕜) :
    level rate entry t = max 0 (level rate entry now - (t - now) * rate) := by
  cases entry with
  | none => exact absurd h (lt_irrefl 0)
  | some entry =>
    have hraw : level rate (some entry) now = entry.1 - (now - entry.2.1) * rate :=
      max_eq_right_of_lt ((lt_max_iff.mp h).resolve_left (lt_irrefl 0))
    rw [hraw]
    show max 0 _ = max 0 _
    ring_nf

theorem offered_of_not (h : ∀ key, ¬ c.counts key = true) : offered rate burst m c = m := by
  funext key
  exact if_neg (h key)

variable [IsStrictOrderedRing 𝕜]

variable (cfg actions) in
theorem canDoAction_eq (hkey : c.getKey = .ok key) (hexempt : c.exempt = false)
    (hc : c.rateHz.getD cfg.rateHz = rate ∧ c.burstCount.getD cfg.burstCount = burst) :
    ∃ entry, canDoAction cfg actions c = .ok
        (decisionAt rate burst c.nActions c.now (level rate (actions.lookup key) c.now),
          if c.update then actions.insert key entry else actions) ∧ entry.2.2 = rate ∧
      ∀ t, (bucket entry).levelAt rate t =
        ((bucket (getActionCounts actions key c.now)).offer rate burst c.now c.nActions).2.levelAt rate t := by
  obtain ⟨hdecision, hrated, hlevel⟩ := decideAction_spec (getActionCounts actions key c.now) rate burst c.nActions c.now
  rw [level_getActionCounts] at hdecision
  refine ⟨_, ?_, hrated, hlevel⟩
  rw [canDoAction, hkey, hexempt, hc.1, hc.2, ← hdecision]
  rfl

theorem Follows.check (h : Follows rate since actions m) (hsince : since ≤ c.now)
    (hc : c.rateHz.getD cfg.rateHz = rate ∧ c.burstCount.getD cfg.burstCount = burst) :
    (canDoAction cfg actions c).toOption.map Prod.fst = answer rate burst m c ∧
      Follows rate c.now (step cfg actions (.check c)) (offered rate burst m c) := by
  have hlater := h.later hsince
  rw [answer]
  cases hkey : c.getKey with
  | error e =>
    have hrun : canDoAction cfg actions c = .error e := by rw [canDoAction, hkey]; rfl
    rw [offered_of_not fun key hcounts => by simp [Check.counts_iff, hkey] at hcounts]
    simp only [step, hrun]
    exact ⟨rfl, hlater⟩
  | ok key =>
    cases hexempt : c.exempt with
    | true =>
      have hrun : canDoAction cfg actions c = .ok ((true, -1), actions) := by rw [canDoAction, hkey, hexempt]; rfl
      rw [offered_of_not fun key hcounts => by simp [Check.counts_iff, hexempt] at hcounts]
      simp only [step, hrun]
      exact ⟨rfl, hlater⟩
    | false =>
      obtain ⟨entry, hrun, hrated, hlevel⟩ := canDoAction_eq cfg actions hkey hexempt hc
      have hsame := h.level_eq key c.now hsince
      simp only [step, hrun]
      refine ⟨congrArg (fun l => some (decisionAt rate burst c.nActions c.now l)) hsame, ?_⟩
      cases hupdate : c.update with
      | false =>
        rw [offered_of_not fun key hcounts => by simp [Check.counts_iff, hupdate] at hcounts]
        exact hlater
      | true =>
        have hcounts : ∀ k, c.counts k = true ↔ k = key := by
          intro k
          rw [Check.counts_iff, hupdate, hexempt, hkey]
          simp [eq_comm]
        refine ⟨insert_all (fun _ _ he => h.rated he) hrated _ _, fun k t ht => ?_⟩
        show level rate ((actions.insert key entry).lookup k) t = (offered rate burst m c k).levelAt rate t
        rw [lookup_insert_eq, offered]
        by_cases hk : k = key
        · subst hk
          rw [if_pos rfl, if_pos ((hcounts k).mpr rfl), ← Meter.offer_congr (level_getActionCounts.trans hsame)]
          exact hlevel t
        · rw [if_neg hk, if_neg fun hk' => hk ((hcounts k).mp hk')]
          exact hlater.level_eq k t ht

theorem Follows.prune (h : Follows rate since actions m) (hrate : 0 ≤ rate) (hsince : since ≤ now) :
    Follows rate now (pruneMessageCounts actions now) m := by
  have hlookup : ∀ key, (pruneMessageCounts actions now).lookup key = actions.lookup key ∨
      (pruneMessageCounts actions now).lookup key = none ∧
        ∀ t, now ≤ t → level rate (actions.lookup key) t = 0 := by
    intro key
    rw [pruneMessageCounts, lookup_restrict]
    cases hentry : actions.lookup key with
    | none => exact .inl (ite_self _)
    | some entry =>
      obtain ⟨actionCount, timeStart, rateHz⟩ := entry
      by_cases hfull : actionCount - (now - timeStart) * rateHz > 0
      · exact .inl (if_pos (decide_eq_true hfull))
      refine .inr ⟨by simp [hfull], fun t ht => max_eq_left ?_⟩
      have hstored : rateHz = rate := h.rated hentry
      have hleak := mul_le_mul_of_nonneg_right (sub_le_sub_right ht timeStart) hrate
      rw [hstored] at hfull
      show actionCount - (t - timeStart) * rate ≤ 0
      linarith
  refine ⟨fun {key entry} hentry => ?_, fun key t ht => ?_⟩
  · rcases hlookup key with heq | ⟨hnone, -⟩
    · exact h.rated (heq ▸ hentry)
    · cases hnone.symm.trans hentry
  rw [← h.level_eq key t (hsince.trans ht)]
  rcases hlookup key with heq | ⟨hnone, hempty⟩
  · rw [heq]
  · rw [hnone, hempty t ht]
    rfl

theorem trace_eq_metered (hrate : 0 ≤ rate) (h : Follows rate since actions m) (hfixed : Fixed cfg rate burst ops)
    (hsorted : (since :: ops.map Op.now).Pairwise (· ≤ ·)) : trace cfg actions ops = metered rate burst m ops := by
  induction ops generalizing since actions m with
  | nil => rfl
  | cons op ops ih =>
    obtain ⟨hsince, hrest⟩ := pairwise_cons.mp hsorted
    have hnow : since ≤ op.now := hsince op.now mem_cons_self
    have hfixed' : Fixed cfg rate burst ops := fun c hc => hfixed c (mem_cons_of_mem _ hc)
    cases op with
    | check c =>
      obtain ⟨hanswer, hfollows⟩ := h.check hnow (hfixed c mem_cons_self)
      rw [trace, metered, hanswer, ih hfollows hfixed' hrest]
    | prune now => exact ih (h.prune hrate hnow) hfixed' hrest

omit [IsStrictOrderedRing 𝕜] in
theorem metered_filter_check (ops : List (Op κ 𝕜)) (m : κ → Meter 𝕜) :
    metered rate burst m (ops.filter Op.isCheck) = metered rate burst m ops := by
  induction ops generalizing m with
  | nil => rfl
  | cons op ops ih =>
    cases op with
    | check c => rw [filter_cons_of_pos rfl, metered, metered, ih]
    | prune now => rw [filter_cons_of_neg (by simp [Op.isCheck]), metered, ih]

/-- The checks of a key that count, as offers to a meter. -/
def offers (key : κ) (ops : List (Op κ 𝕜)) : List (𝕜 × 𝕜) :=
  ops.filterMap fun
    | .check c => if c.counts key then some (c.now, (c.nActions : 𝕜)) else none
    | .prune _ => none

omit [LinearOrder 𝕜] [IsStrictOrderedRing 𝕜] in
theorem offers_check (key : κ) (c : Check κ 𝕜) (ops : List (Op κ 𝕜)) : offers key (.check c :: ops) =
    if c.counts key then (c.now, (c.nActions : 𝕜)) :: offers key ops else offers key ops := by
  unfold offers
  split_ifs with hcounts
  · exact filterMap_cons_some (by simp [hcounts])
  · rw [filterMap_cons_none (by simp [hcounts])]

omit [IsStrictOrderedRing 𝕜] in
theorem permitted_metered {first last : 𝕜} : permitted key first last (metered rate burst m ops) =
    (m key).admitted rate burst first last (offers key ops) := by
  induction ops generalizing m with
  | nil => rfl
  | cons op ops ih =>
    cases op with
    | prune now => exact ih
    | check c =>
      rw [metered, permitted, map_cons, sum_cons, ← permitted, ih, offered, offers_check]
      by_cases hcounts : c.counts key = true
      · obtain ⟨-, hexempt, hkey⟩ := Check.counts_iff.mp hcounts
        have hallowed : (answer rate burst m c).any Prod.fst = ((m key).offer rate burst c.now c.nActions).1 := by
          simp only [answer, hkey, hexempt, Meter.offer]
          by_cases hfull : (m key).levelAt rate c.now > burst - c.nActions
          · rw [if_pos hfull]
            exact decide_eq_false (not_le.mpr hfull)
          · rw [if_neg hfull]
            exact decide_eq_true (not_lt.mp hfull)
        rw [if_pos hcounts, if_pos hcounts, Meter.admitted, hallowed]
        simp only [hcounts, and_true]
      · rw [if_neg hcounts, if_neg hcounts, if_neg fun hand => hcounts hand.2, zero_add]

omit [Field 𝕜] [IsStrictOrderedRing 𝕜] in
theorem offers_sorted [Field 𝕜] (hsorted : (since :: ops.map Op.now).Pairwise (· ≤ ·)) :
    (since :: (offers key ops).map Prod.fst).Pairwise (· ≤ ·) := by
  have hsub : ((offers key ops).map Prod.fst).Sublist (ops.map Op.now) := by
    clear hsorted
    induction ops with
    | nil => exact .slnil
    | cons op ops ih =>
      cases op with
      | prune now => exact ih.cons _
      | check c =>
        rw [offers_check]
        split
        · exact ih.cons_cons _
        · exact ih.cons _
  exact hsorted.sublist (hsub.cons_cons _)

/-- **Rate limits.**  In a run of checks with a fixed rate and burst, and of prunings, in the order of their times, the
actions permitted for a key in a window are at most the burst plus the rate times the length of the window; and without
the prunings every check would be decided in the same way. -/
theorem permitted_le_and_prune_invisible (hrate : 0 ≤ rate) (hburst : 0 ≤ burst) (hfixed : Fixed cfg rate burst ops)
    (hsorted : (ops.map Op.now).Pairwise (· ≤ ·)) :
    (∀ (key : κ) (first last : 𝕜), first ≤ last →
      permitted key first last (trace cfg ∅ ops) ≤ burst + rate * (last - first)) ∧
    trace cfg ∅ ops = trace cfg ∅ (ops.filter Op.isCheck) := by
  -- the first operation is when the run starts
  obtain ⟨since, hsorted⟩ : ∃ since, (since :: ops.map Op.now).Pairwise (· ≤ ·) := by
    cases ops with
    | nil => exact ⟨0, pairwise_singleton _ _⟩
    | cons op ops =>
      exact ⟨op.now, pairwise_cons.mpr ⟨forall_mem_cons.mpr ⟨le_rfl, (pairwise_cons.mp hsorted).1⟩, hsorted⟩⟩
  have hfollows : Follows rate since (∅ : Actions κ 𝕜) fun _ => ⟨0, since⟩ := by
    refine ⟨fun {key entry} hentry => ?_, fun key t ht => ?_⟩
    · cases hentry
    · have hleak : 0 ≤ (t - since) * rate := mul_nonneg (sub_nonneg.mpr ht) hrate
      rw [lookup_empty, Meter.levelAt, zero_sub, max_eq_left (neg_nonpos.mpr hleak)]
      rfl
  have hsub := filter_sublist (p := Op.isCheck) (l := ops)
  have hfixed' : Fixed cfg rate burst (ops.filter Op.isCheck) := fun c hc => hfixed c (hsub.mem hc)
  rw [trace_eq_metered hrate hfollows hfixed hsorted,
    trace_eq_metered hrate hfollows hfixed' (hsorted.sublist ((hsub.map _).cons_cons _)), metered_filter_check]
  refine ⟨fun key first last hwindow => ?_, rfl⟩
  rw [permitted_metered]
  exact Meter.admitted_le hrate hburst hburst hwindow (offers_sorted hsorted)

/-! ## Retrying, and recording -/

theorem level_denied {time : 𝕜} (hkey : c.getKey = .ok key) (hexempt : c.exempt = false)
    (hc : c.rateHz.getD cfg.rateHz = rate ∧ c.burstCount.getD cfg.burstCount = burst) (hn : c.nActions ≤ burst)
    (h : (canDoAction cfg actions c).toOption.map Prod.fst = some (false, time)) :
    ∃ l, burst - c.nActions < l ∧ decisionAt rate burst c.nActions c.now l = (false, time) ∧
      ∀ t, level rate ((step cfg actions (.check c)).lookup key) t = max 0 (l - (t - c.now) * rate) := by
  obtain ⟨entry, hrun, -, hlevel⟩ := canDoAction_eq cfg actions hkey hexempt hc
  rw [hrun] at h
  have hdecision := Option.some.inj h
  have hfull := not_le.mp (of_decide_eq_false (congrArg Prod.fst hdecision))
  refine ⟨_, hfull, hdecision, fun t => ?_⟩
  simp only [step, hrun]
  cases c.update with
  | false => exact level_later ((sub_nonneg.mpr hn).trans_lt hfull) t
  | true =>
    show level rate ((actions.insert key entry).lookup key) t = _
    rw [lookup_insert]
    exact (hlevel t).trans (by rw [Meter.offer, level_getActionCounts, if_pos hfull, Meter.levelAt])

omit [DecidableEq κ] in
theorem level_at_retry {l time : 𝕜} {n : ℤ} (hrate : 0 < rate) (hn : n ≤ burst) (hfull : burst - n < l)
    (h : decisionAt rate burst n now l = (false, time)) : max 0 (l - (time - now) * rate) ≤ burst - n ↔ n ≤ 1 := by
  have htime : time = max now (now + (l - burst + 1) / rate) := by
    simpa [decisionAt, hrate, not_le.mpr hfull] using (congrArg Prod.snd h).symm
  rw [show n ≤ 1 ↔ (n : 𝕜) ≤ 1 by norm_cast]
  rcases le_total (l - burst + 1) 0 with hlow | hhigh
  · have hnow : time = now := htime.trans (max_eq_left (by linarith [div_nonpos_of_nonpos_of_nonneg hlow hrate.le]))
    have hl := le_max_right 0 l
    rw [hnow, sub_self, zero_mul, sub_zero]
    exact ⟨fun hle => by linarith, fun hle => by linarith⟩
  have hleak : (time - now) * rate = l - burst + 1 := by
    rw [htime, max_eq_right (by linarith [div_nonneg hhigh hrate.le]), add_sub_cancel_left]
    exact div_mul_cancel₀ _ hrate.ne'
  rw [hleak, max_le_iff]
  exact ⟨fun hle => by linarith [hle.2], fun hle => ⟨by linarith, by linarith⟩⟩

/-- **Retrying.**  A request for at most the burst that is denied is permitted at the time that was returned, with
nothing in between, exactly if it is for at most one action. -/
theorem retry_permitted_iff {time : 𝕜} (hrate : 0 < c.rateHz.getD cfg.rateHz)
    (hn : c.nActions ≤ c.burstCount.getD cfg.burstCount)
    (h : (canDoAction cfg actions c).toOption.map Prod.fst = some (false, time)) :
    ((canDoAction cfg (step cfg actions (.check c)) { c with now := time }).toOption.map fun r => r.1.1) = some true ↔
      c.nActions ≤ 1 := by
  cases hkey : c.getKey with
  | error e =>
    rw [canDoAction, hkey] at h
    cases h
  | ok key =>
    cases hexempt : c.exempt with
    | true =>
      rw [canDoAction, hkey, hexempt] at h
      cases h
    | false =>
      obtain ⟨l, hfull, hdecision, hlevel⟩ := level_denied hkey hexempt ⟨rfl, rfl⟩ hn h
      obtain ⟨entry, hretry, -⟩ := canDoAction_eq cfg (step cfg actions (.check c)) (c := { c with now := time })
        hkey hexempt ⟨rfl, rfl⟩
      rw [hretry, hlevel time, ← level_at_retry hrate hn hfull hdecision]
      exact Option.some_inj.trans decide_eq_true_iff

/-- **Recording.**  What is recorded counts fully exactly if it is not positive, or the key has no bucket, or its bucket
has not leaked dry: the start time of a bucket that has is not reset. -/
theorem record_counted_iff {actions' : Actions κ 𝕜} (hkey : c.getKey = .ok key)
    (h : recordAction actions c = .ok actions') :
    level rate (actions.lookup key) c.now + c.nActions ≤ level rate (actions'.lookup key) c.now ↔
      c.nActions ≤ 0 ∨ (actions.lookup key).all fun entry => (c.now - entry.2.1) * rate ≤ entry.1 := by
  rw [recordAction, hkey] at h
  cases Except.ok.inj h
  rw [lookup_insert, show c.nActions ≤ 0 ↔ (c.nActions : 𝕜) ≤ 0 by norm_cast]
  cases actions.lookup key with
  | none => simp [level]
  | some entry =>
    simp only [level, Option.all_some, decide_eq_true_eq]
    rcases le_or_gt ((c.now - entry.2.1) * rate) entry.1 with hle | hgt
    · rw [max_eq_right (sub_nonneg.mpr hle)]
      exact ⟨fun _ => .inr hle, fun _ => le_max_of_le_right (by linarith)⟩
    · rw [max_eq_left (sub_nonpos.mpr hgt.le), zero_add, le_max_iff]
      exact or_congr Iff.rfl ⟨fun h0 => by linarith, fun h0 => by linarith⟩

end Runs

/-- One action a second, two at once. -/
def twoAtOnce : Config ℚ := ⟨1, 2⟩

def requestAt (nActions : ℤ) (now : ℚ) : Check String ℚ := ⟨none, some "key", none, none, true, nActions, now, none⟩

def actionsAt (nActions : ℤ) (now : ℚ) : Op String ℚ := .check (requestAt nActions now)

/-- Two actions, two more that are denied, and one after the key has been dropped. -/
def someActions : List (Op String ℚ) := [actionsAt 2 0, actionsAt 2 1, .prune 5, actionsAt 1 5]

theorem permitted_of_someActions : permitted "key" 0 5 (trace twoAtOnce ∅ someActions) = 3 ∧
    permitted "key" 0 5 (trace twoAtOnce ∅ someActions) ≤ 2 + 1 * (5 - 0) ∧
    trace twoAtOnce ∅ someActions = trace twoAtOnce ∅ (someActions.filter Op.isCheck) := by
  have hfixed : Fixed twoAtOnce 1 2 someActions := by
    intro c hc
    simp only [someActions, actionsAt, mem_cons, not_mem_nil, Op.check.injEq, or_false, reduceCtorEq,
      false_or] at hc
    rcases hc with rfl | rfl | rfl
    · exact ⟨rfl, rfl⟩
    · exact ⟨rfl, rfl⟩
    · exact ⟨rfl, rfl⟩
  have hsorted : (someActions.map Op.now).Pairwise (· ≤ ·) := by decide +kernel
  obtain ⟨hbound, hprune⟩ := permitted_le_and_prune_invisible (by decide : (0 : ℚ) ≤ 1) (by decide : (0 : ℚ) ≤ 2) hfixed hsorted
  exact ⟨by decide +kernel, hbound "key" 0 5 (by decide), hprune⟩

/-- Two actions; then one more is denied, and permitted a second later. -/
theorem retry_permitted_one :
    ((canDoAction twoAtOnce (step twoAtOnce ∅ (actionsAt 2 0)) (requestAt 1 0)).toOption.map Prod.fst) = some (false, 1) ∧
      ((canDoAction twoAtOnce (step twoAtOnce (step twoAtOnce ∅ (actionsAt 2 0)) (.check (requestAt 1 0)))
        (requestAt 1 1)).toOption.map fun r => r.1.1) = some true := by
  have hdenied : ((canDoAction twoAtOnce (step twoAtOnce ∅ (actionsAt 2 0)) (requestAt 1 0)).toOption.map Prod.fst) =
      some (false, 1) := by decide +kernel
  exact ⟨hdenied, (retry_permitted_iff (by decide) (by decide) hdenied).mpr (by decide)⟩

/-- Two actions; then two more are denied, with the time one second later, and denied again at that time. -/
theorem retry_denied_two : (trace twoAtOnce ∅ [actionsAt 2 0, actionsAt 2 0, actionsAt 2 1]).map Prod.snd =
    [some (true, 1), some (false, 1), some (false, 1)] := by decide +kernel

/-- One action, and two that are recorded at the same time. -/
theorem record_counted_at_once : ∃ actions, recordAction (step twoAtOnce ∅ (actionsAt 1 0)) (requestAt 2 0) = .ok actions ∧
    level 1 ((step twoAtOnce ∅ (actionsAt 1 0)).lookup "key") 0 + 2 ≤ level 1 (actions.lookup "key") 0 :=
  ⟨_, rfl, (record_counted_iff (c := requestAt 2 0) rfl rfl).mpr (by decide +kernel)⟩

/-- One action, and ten seconds later two that are recorded: they are not seen. -/
theorem record_not_counted : ∃ actions, recordAction (step twoAtOnce ∅ (actionsAt 1 0)) (requestAt 2 10) = .ok actions ∧
    level 1 ((step twoAtOnce ∅ (actionsAt 1 0)).lookup "key") 10 = 0 ∧ level 1 (actions.lookup "key") 10 = 0 :=
  ⟨_, rfl, by decide +kernel, by decide +kernel⟩

end Synapse.Ratelimit
