import Synapse.SlidingSync.Room

/-!
# Synapse.SlidingSync.Complete — required state over a run of requests

After a response the client should have the current version of every state event that the request names.  What is not in
the response itself is left out because the recorded config says that it has been sent, so the question is whether the
config tells the truth.

* `Named`, `Complete`: the keys that a request names, and that they have been sent.
* `complete_of_truthful`, `truthful_of_complete`: the next response is complete whatever the request exactly if the config
  is truthful.
* `Honest`: what a request must satisfy for the config to stay truthful; `truthful_step`, `honest_of_truthful`.
* **`requiredState_complete_iff`**: over runs; `requiredState_complete_of_plain`: in particular over runs in which `$ME` is
  only used for memberships and the requester does not leave.
-/

namespace Synapse.SlidingSync

open Lib State StateValues List Option Request

/-- The keys that a required state names: concrete keys, wildcards and the requester's own key, under the key's type or
the event type wildcard. -/
def Named (m : RequiredStateMap) (userId : String) (k : StateKey) : Prop :=
  ∃ t ∈ [k.1, wildcard],
    wildcard ∈ m.get t ∨ (k.2 ∈ m.get t ∧ k.2 ∉ StateValues.all) ∨ (me ∈ m.get t ∧ k.2 = userId)

instance (m : RequiredStateMap) (userId : String) (k : StateKey) : Decidable (Named m userId k) :=
  inferInstanceAs (Decidable (∃ t ∈ [k.1, wildcard], _))

namespace Connection

/-- The event was sent in one of the responses. -/
def Sent (c : Connection) (k : StateKey) (e : String) : Prop := ∃ r ∈ c.responses, r.lookup k = some e

instance (c : Connection) (k : StateKey) (e : String) : Decidable (c.Sent k e) :=
  inferInstanceAs (Decidable (∃ r ∈ c.responses, _))

/-- The current state event at the key, if there is one, has been sent. -/
def UpToDate (c : Connection) (k : StateKey) : Prop := ∀ e, c.state.lookup k = some e → c.Sent k e

variable (order : SetOrder) (user : Requester)

/-- **The response to a request is complete**: every current state event that the request names has been sent, in this or
an earlier response. -/
def Complete (c : Connection) (q : Request) : Prop :=
  ∀ k, Named q.config.requiredStateMap user.userId k → (c.step order user q).UpToDate k

/-- What the recorded config remembers has been sent at its current version. -/
def Truthful (c : Connection) : Prop :=
  ∀ config, c.roomConfig = some config → ∀ k, Remembers config.requiredStateMap user.userId k → c.UpToDate k

variable {order user} {c : Connection} {q : Request} {k : StateKey} {e : String}

/-! ## One response -/

theorem Sent.step (h : c.Sent k e) : (c.step order user q).Sent k e := by
  obtain ⟨r, hr, h⟩ := h
  exact ⟨r, mem_append_left _ hr, h⟩

theorem sent_of_lookup (h : (c.requiredRoomState order user q).lookup k = some e) : (c.step order user q).Sent k e :=
  ⟨_, mem_append_right _ mem_cons_self, h⟩

theorem UpToDate.step (h : c.UpToDate k) (hk : k ∉ q.roomStateDeltaIdMap) : (c.step order user q).UpToDate k := by
  intro e he
  rcases lookup_currentState he with hdelta | ⟨-, hbefore⟩
  · exact absurd (Finmap.mem_iff.mpr ⟨e, hdelta⟩) hk
  · exact (h e hbefore).step

theorem upToDate_of_remembers (htruth : c.Truthful user)
    (hrem : Remembers (q.expandedRequiredStateMap order user) user.userId k)
    (hadm : (q.requiredStateFilter order user).admits k = true) : (c.step order user q).UpToDate k := by
  intro e hcur
  by_cases hinit : c.initial q = true
  · exact sent_of_lookup (lookup_requiredRoomState hadm hcur (.inl hinit))
  rw [Bool.not_eq_true] at hinit
  rcases lookup_currentState hcur with hdelta | ⟨-, hbefore⟩
  · exact sent_of_lookup (lookup_requiredRoomState hadm hcur (.inr (.inl hdelta)))
  -- an old event: it has been sent before, or it is fetched
  obtain ⟨prev, hprev⟩ : ∃ prev, c.roomConfig = some prev := by
    rw [initial, Bool.or_eq_false_iff] at hinit
    exact isSome_iff_exists.mp (by simpa using hinit.1)
  rcases remembers_or_fetched hrem with hold | hfetched
  · exact (htruth prev hprev k hold e hbefore).step
  · rw [← requiredStateUpdate_eq order user hprev hinit] at hfetched
    exact sent_of_lookup (lookup_requiredRoomState hadm hcur (.inr (.inr hfetched)))

theorem remembers_of_named (h : Named q.config.requiredStateMap user.userId k) :
    Remembers (q.expandedRequiredStateMap order user) user.userId k ∧
      (q.requiredStateFilter order user).admits k = true := by
  have hexp : ∀ {t key}, key ∈ q.config.requiredStateMap.get t → key ∈ (q.expandedRequiredStateMap order user).get t :=
    fun h => mem_expanded.mpr (.inl h)
  obtain ⟨t, ht, h⟩ := h
  by_cases hw : q.hasTypeWildcard = true
  · refine ⟨?_, StateFilter.isFull_admits (requiredStateFilter_isFull hw)⟩
    by_cases hk : k.1 = wildcard
    · have ht : t = k.1 := by simpa [hk] using ht
      subst ht
      refine .inr (h.imp hexp (Or.imp (fun h => ⟨hexp h.1, h.2⟩) fun h => ⟨hexp h.1, ?_, h.2⟩))
      rw [hk]
      decide
    · exact .inl ⟨(hasTypeWildcard_iff.mp hw).mono fun _ => hexp, hk⟩
  have ht : t = k.1 := by
    rcases mem_cons.mp ht with ht | ht
    · exact ht
    obtain rfl := mem_singleton.mp ht
    refine absurd (hasTypeWildcard_iff.mpr ?_) hw
    rcases h with h | h | h
    · exact ⟨_, h⟩
    · exact ⟨_, h.1⟩
    · exact ⟨_, h.1⟩
  subst ht
  rcases h with h | ⟨h, hk⟩ | ⟨h, hk⟩
  · exact ⟨.inr (.inl (hexp h)), admits_of_wildcard h⟩
  · exact ⟨.inr (.inr (.inl ⟨hexp h, hk⟩)), admits_of_key h hk⟩
  refine ⟨.inr ?_, admits_of_me h hk⟩
  by_cases hm : k.1 = member
  · -- the user id stands next to `$ME` in the membership entry
    refine .inr (.inl ⟨mem_expanded.mpr (.inr ⟨by simpa using hw, hm, (k.1, me), ?_, ?_⟩), hk ▸ user.valid⟩)
    · exact mem_entries.mpr h
    · have hne : me ≠ wildcard := by decide
      have hne' : me ≠ lazy := by decide
      simp [membersFor, hne, hne', hk]
  · exact .inr (.inr ⟨hexp h, hm, hk⟩)

theorem complete_of_truthful (htruth : c.Truthful user) (q : Request) : c.Complete order user q := by
  intro k hnamed
  obtain ⟨hrem, hadm⟩ := remembers_of_named hnamed
  exact upToDate_of_remembers htruth hrem hadm

/-! ## What the config says decides -/

/-- A request for one key and nothing else, when nothing has happened. -/
def probe (t key : String) : Request where
  config := ⟨0, RequiredStateMap.empty.set t {key}⟩
  newlyJoined := false
  deltas := []
  page := []
  pageLimited := false
  heroes := []

theorem get_probe (t key t' : String) : (probe t key).config.requiredStateMap.get t' = if t' = t then {key} else ∅ := by
  show (RequiredStateMap.empty.set t {key}).get t' = _
  rw [RequiredStateMap.get_set]
  rfl

theorem mem_expanded_probe {t key t' key' : String}
    (h : key' ∈ ((probe t key).expandedRequiredStateMap order user).get t') :
    (t' = t ∧ key' = key) ∨ (t' = member ∧ key = me) := by
  have hget : ∀ {t' key'}, key' ∈ (probe t key).config.requiredStateMap.get t' → t' = t ∧ key' = key := by
    intro t' key' h
    rw [get_probe] at h
    split at h
    · exact ⟨‹_›, Finset.mem_singleton.mp h⟩
    · cases h
  rcases mem_expanded.mp h with h | ⟨-, ht', ⟨t'', key''⟩, hentry, hmem⟩
  · exact .inl (hget h)
  obtain ⟨rfl, rfl⟩ := hget (mem_entries.mp hentry)
  rcases (mem_membersFor hmem).2 with ⟨-, -, hu⟩ | ⟨hme, -⟩
  · cases hu
  · exact .inr ⟨ht', hme⟩

theorem not_fetched_probe {prev : RequiredStateMap} {key : String} {deltas : StateMap}
    (hkey : key ∈ prev.get k.1 ∨ ((prev.get wildcard).Nonempty ∧ k.1 ≠ wildcard)) (hme : key = me → k.1 ≠ member) :
    (requiredStateChanges order user.userId prev ((probe k.1 key).expandedRequiredStateMap order user)
      deltas).2.admits k = false := by
  have hwild : ∀ key', key' ∈ ((probe k.1 key).expandedRequiredStateMap order user).get wildcard →
      k.1 = wildcard ∧ key' = key := by
    intro key' h
    rcases mem_expanded_probe h with ⟨hk, rfl⟩ | ⟨h, -⟩
    · exact ⟨hk.symm, rfl⟩
    · exact absurd h (by decide)
  rw [← Bool.not_eq_true]
  intro h
  rcases admits_fetched h with ⟨key', hmem⟩ | ⟨heq, key', hmem⟩
  · obtain ⟨hmem, hnot⟩ := Finset.mem_sdiff.mp hmem
    obtain ⟨hk, rfl⟩ := hwild key' hmem
    rcases hkey with hkey | ⟨-, hkey⟩
    · exact hnot (hk ▸ hkey)
    · exact hkey hk
  obtain ⟨hmem, hnot⟩ := Finset.mem_sdiff.mp hmem
  rcases mem_expanded_probe hmem with ⟨-, rfl⟩ | ⟨hk, hkey⟩
  · rcases hkey with hkey | ⟨⟨x, hx⟩, hkey⟩
    · exact hnot hkey
    · rw [heq] at hx
      exact hkey (hwild x hx).1
  · exact hme hkey hk

theorem upToDate_of_probe {config : RoomSyncConfig} {key : String} (hconfig : c.roomConfig = some config)
    (hkey : key ∈ config.requiredStateMap.get k.1 ∨
      ((config.requiredStateMap.get wildcard).Nonempty ∧ k.1 ≠ wildcard))
    (hme : key = me → k.1 ≠ member) (hnamed : Named (probe k.1 key).config.requiredStateMap user.userId k)
    (h : c.Complete order user (probe k.1 key)) : c.UpToDate k := by
  intro e he
  have hinit : c.initial (probe k.1 key) = false := by simp [initial, hconfig, probe]
  have hnone : (c.requiredRoomState order user (probe k.1 key)).lookup k = none := by
    refine lookup_requiredRoomState_eq_none hinit (ite_self _) (Finmap.lookup_empty k) ?_
    rw [requiredStateUpdate_eq order user hconfig hinit]
    exact not_fetched_probe hkey hme
  obtain ⟨r, hr, hlookup⟩ := h k hnamed e he
  rcases mem_append.mp hr with hr | hr
  · exact ⟨r, hr, hlookup⟩
  · rw [mem_singleton.mp hr, hnone] at hlookup
    cases hlookup

theorem truthful_of_complete (h : ∀ q, c.Complete order user q) : c.Truthful user := by
  intro config hconfig k hrem
  have hself : ∀ {key}, key ∈ (probe k.1 key).config.requiredStateMap.get k.1 := by
    intro key
    rw [get_probe, if_pos rfl]
    exact Finset.mem_singleton_self key
  have hk : k.1 ∈ [k.1, wildcard] := mem_cons_self
  rcases hrem with hall | hrem | ⟨hrem, hspecial⟩ | ⟨hrem, hne, huser⟩
  · exact upToDate_of_probe hconfig (.inr hall) (fun h => absurd h (by decide)) ⟨k.1, hk, .inl hself⟩ (h _)
  · exact upToDate_of_probe hconfig (.inl hrem) (fun h => absurd h (by decide)) ⟨k.1, hk, .inl hself⟩ (h _)
  · exact upToDate_of_probe hconfig (.inl hrem) (fun h => absurd h (ne_of_not_mem_all hspecial).2.2)
      ⟨k.1, hk, .inr (.inl ⟨hself, hspecial⟩)⟩ (h _)
  · exact upToDate_of_probe hconfig (.inl hrem) (fun _ => hne) ⟨k.1, hk, .inr (.inr ⟨hself, huser⟩)⟩ (h _)

/-! ## Runs -/

/-- The current state event at the key, if there is one, was sent before the request. -/
def SentBefore (c : Connection) (q : Request) (k : StateKey) : Prop :=
  ∀ e, (q.currentState c.state).lookup k = some e → c.Sent k e

variable (order user) in
/-- The request asks for the key, or the current event there was sent before. -/
def Served (c : Connection) (q : Request) (k : StateKey) : Prop :=
  (q.requiredStateFilter order user).admits k = true ∨ c.SentBefore q k

variable (order user) in
/-- What keeps the config truthful.

* A request that asks for `$ME` under any type makes the requester's membership count as sent, so it has to ask for that
  as well, unless the current membership event was sent before.
* A request that gives up `$ME` of another type while it adds keys of that type does not notice that the own event has
  changed, so it has to ask for it in another way, unless the new event was sent before.
* When the requester has joined again and the old config is kept, the request has to ask for all that the config
  remembers, unless it was sent before. -/
structure Honest (c : Connection) (q : Request) : Prop where
  ownMember : q.AsksForMe → (∀ prev, c.roomConfig = some prev → ¬ KeepsOld prev q) →
    Served order user c q (member, user.userId)
  ownKey : ∀ prev, c.roomConfig = some prev → q.newlyJoined = false → ∀ t,
    KeptOwn order user.userId prev.requiredStateMap (q.expandedRequiredStateMap order user) q.roomStateDeltaIdMap t →
    Served order user c q (t, user.userId)
  joinedAgain : ∀ prev, c.roomConfig = some prev → KeepsOld prev q → ∀ k,
    Remembers prev.requiredStateMap user.userId k → Served order user c q k

theorem SentBefore.upToDate (h : c.SentBefore q k) : (c.step order user q).UpToDate k :=
  fun e he => (h e he).step

theorem Served.upToDate (h : Served order user c q k) (hk : c.initial q = true ∨ k ∈ q.roomStateDeltaIdMap) :
    (c.step order user q).UpToDate k := by
  rcases h with hadm | hsent
  · intro e hcur
    refine sent_of_lookup (lookup_requiredRoomState hadm hcur (hk.imp_right fun hmem => .inl ?_))
    rcases lookup_currentState hcur with hdelta | ⟨hnot, -⟩
    · exact hdelta
    · exact absurd hmem hnot
  · exact hsent.upToDate

theorem served_of_upToDate (h : (c.step order user q).UpToDate k) : Served order user c q k := by
  by_cases hadm : (q.requiredStateFilter order user).admits k = true
  · exact .inl hadm
  refine .inr fun e hcur => ?_
  obtain ⟨r, hr, hlookup⟩ := h e hcur
  rcases mem_append.mp hr with hr | hr
  · exact ⟨r, hr, hlookup⟩
  rw [mem_singleton.mp hr, requiredRoomState] at hlookup
  split at hlookup
  · cases hlookup
  · rw [lookup_filterState, if_neg hadm] at hlookup
    cases hlookup

theorem truthful_step (htruth : c.Truthful user) (hhonest : Honest order user c q) :
    (c.step order user q).Truthful user := by
  intro config hconfig k hrem
  -- what the request itself makes count as sent
  have hexpanded : (∀ prev, c.roomConfig = some prev → ¬ KeepsOld prev q) →
      Remembers (q.expandedRequiredStateMap order user) user.userId k → (c.step order user q).UpToDate k := by
    intro hkeeps hexp
    rcases admits_of_remembers hexp with hadm | ⟨hme, rfl⟩
    · exact upToDate_of_remembers htruth hexp hadm
    · rcases hhonest.ownMember hme hkeeps with hadm | hsent
      · exact upToDate_of_remembers htruth hexp hadm
      · exact hsent.upToDate
  rcases hprev : c.roomConfig with _ | prev
  · rw [roomConfig_step_of_none hprev] at hconfig
    obtain rfl := some.inj hconfig
    exact hexpanded (by simp [hprev]) hrem
  by_cases hkeeps : KeepsOld prev q
  · rw [roomConfig_step_of_keepsOld hprev hkeeps] at hconfig
    obtain rfl := some.inj hconfig
    exact (hhonest.joinedAgain prev hprev hkeeps k hrem).upToDate (.inl (by simp [initial, hkeeps.1]))
  have hkeeps' : ∀ prev, c.roomConfig = some prev → ¬ KeepsOld prev q := by
    intro prev' hprev'
    rw [hprev] at hprev'
    exact some.inj hprev' ▸ hkeeps
  by_cases hjoined : q.newlyJoined = true
  · rw [roomConfig_step_of_joined hprev hjoined hkeeps] at hconfig
    obtain rfl := some.inj hconfig
    exact hexpanded hkeeps' hrem
  rw [Bool.not_eq_true] at hjoined
  obtain ⟨config', hconfig', hmap⟩ := roomConfig_step_of_some order user hprev hjoined
  rw [hconfig'] at hconfig
  obtain rfl := some.inj hconfig
  rcases hmap with hmap | ⟨hmap, -⟩
  · rw [hmap] at hrem
    rcases remembers_effective hrem with hexp | ⟨hold, hunchanged⟩ | ⟨huser, hkept⟩
    · exact hexpanded hkeeps' hexp
    · exact (htruth prev hprev k hold).step hunchanged
    have hserved := hhonest.ownKey prev hprev hjoined k.1 hkept
    have hk : k = (k.1, user.userId) := Prod.ext rfl huser
    rw [← hk] at hserved
    exact hserved.upToDate (.inr (hk ▸ hkept.changed))
  · rw [hmap] at hrem
    exact hexpanded hkeeps' hrem

variable (order user) in
/-- The requester's membership is remembered by a request for `$ME` that does not keep an old config. -/
theorem remembers_ownMember (hme : q.AsksForMe) (hkeeps : ∀ prev, c.roomConfig = some prev → ¬ KeepsOld prev q) :
    ∃ config, (c.step order user q).roomConfig = some config ∧
      Remembers config.requiredStateMap user.userId (member, user.userId) := by
  have hmem : user.userId ∈ (q.expandedRequiredStateMap order user).get member := by
    obtain ⟨hw, t, ht⟩ := hme
    refine mem_expanded.mpr (.inr ⟨hw, rfl, (t, me), mem_entries.mpr ht, ?_⟩)
    have hne : me ≠ wildcard := by decide
    have hne' : me ≠ lazy := by decide
    simp [membersFor, hne, hne']
  suffices h : ∃ config, (c.step order user q).roomConfig = some config ∧
      user.userId ∈ config.requiredStateMap.get member by
    obtain ⟨config, hconfig, hmem⟩ := h
    exact ⟨config, hconfig, .inr (.inr (.inl ⟨hmem, user.valid⟩))⟩
  rcases hprev : c.roomConfig with _ | prev
  · exact ⟨_, roomConfig_step_of_none hprev, hmem⟩
  by_cases hjoined : q.newlyJoined = true
  · exact ⟨_, roomConfig_step_of_joined hprev hjoined (hkeeps prev hprev), hmem⟩
  rw [Bool.not_eq_true] at hjoined
  obtain ⟨config, hconfig, hmap⟩ := roomConfig_step_of_some order user hprev hjoined
  refine ⟨config, hconfig, ?_⟩
  rcases hmap with hmap | ⟨hmap, -⟩
  · rw [hmap]
    exact get_subset_effective order user.userId _ _ member hmem
  · rw [hmap]
    exact hmem

theorem remembers_ownKey {prev : RoomSyncConfig} {t : String} (hprev : c.roomConfig = some prev)
    (hjoined : q.newlyJoined = false) (hkept : KeptOwn order user.userId prev.requiredStateMap
      (q.expandedRequiredStateMap order user) q.roomStateDeltaIdMap t)
    (hw : (q.expandedRequiredStateMap order user).get wildcard = ∅) :
    ∃ config, (c.step order user q).roomConfig = some config ∧
      Remembers config.requiredStateMap user.userId (t, user.userId) := by
  obtain ⟨changed, hchanged, hmem⟩ := hkept.mem_changed hw
  obtain ⟨config, hconfig, hmap⟩ := roomConfig_step_of_some order user hprev hjoined
  rw [requiredStateUpdate_eq order user hprev (initial_eq_false hprev hjoined)] at hmap
  refine ⟨config, hconfig, .inr (.inr (.inr ⟨?_, hkept.notMember, rfl⟩))⟩
  rcases hmap with hmap | ⟨-, hempty⟩
  · rw [hmap, effective, hchanged]
    exact hmem
  · have hrows := hempty changed hchanged
    simp [RequiredStateMap.get, Table.find, hrows] at hmem

theorem honest_of_truthful (h : (c.step order user q).Truthful user) : Honest order user c q where
  ownMember hme hkeeps := by
    obtain ⟨config, hconfig, hrem⟩ := remembers_ownMember order user hme hkeeps
    exact served_of_upToDate (h config hconfig _ hrem)
  ownKey prev hprev hjoined t hkept := by
    by_cases hw : q.hasTypeWildcard = true
    · exact .inl (StateFilter.isFull_admits (requiredStateFilter_isFull hw))
    obtain ⟨config, hconfig, hrem⟩ := remembers_ownKey hprev hjoined hkept (by
      rw [← Finset.not_nonempty_iff_eq_empty]
      rintro ⟨key, hkey⟩
      rcases mem_expanded.mp hkey with hkey | ⟨-, hmember, -⟩
      · exact hw (hasTypeWildcard_iff.mpr ⟨key, hkey⟩)
      · exact absurd hmember (by decide))
    exact served_of_upToDate (h config hconfig _ hrem)
  joinedAgain prev hprev hkeeps k hrem :=
    served_of_upToDate (h prev (roomConfig_step_of_keepsOld hprev hkeeps) k hrem)

theorem truthful_run {state : StateMap} {qs : List Request}
    (h : ∀ r q, r ++ [q] <+: qs → Honest order user ((new state).run order user r) q) :
    ∀ r, r <+: qs → ((new state).run order user r).Truthful user := by
  intro r
  induction r using reverseRecOn with
  | nil =>
    intro _ config hconfig
    cases hconfig
  | append_singleton r q ih =>
    intro hr
    rw [run_snoc]
    exact truthful_step (ih ((prefix_append r [q]).trans hr)) (h r q hr)

/-- `$ME` is only used for memberships, and the requester has been in the room since the last response. -/
structure Plain (q : Request) : Prop where
  onlyMember : ∀ t, me ∈ q.config.requiredStateMap.get t → t = member
  stayed : q.newlyJoined = false

/-- The config remembers `$ME` for memberships only. -/
def OnlyMember (c : Connection) : Prop :=
  ∀ config, c.roomConfig = some config → ∀ t, me ∈ config.requiredStateMap.get t → t = member

theorem onlyMember_step (h : c.OnlyMember) (hq : Plain q) : (c.step order user q).OnlyMember := by
  intro config hconfig t ht
  have hexp : ∀ t, me ∈ (q.expandedRequiredStateMap order user).get t → t = member := by
    intro t ht
    rcases mem_expanded.mp ht with ht | ⟨-, ht, -⟩
    · exact hq.onlyMember t ht
    · exact ht
  rcases hprev : c.roomConfig with _ | prev
  · rw [roomConfig_step_of_none hprev] at hconfig
    obtain rfl := some.inj hconfig
    exact hexp t ht
  obtain ⟨config', hconfig', hmap⟩ := roomConfig_step_of_some order user hprev hq.stayed
  rw [hconfig'] at hconfig
  obtain rfl := some.inj hconfig
  rcases hmap with hmap | ⟨hmap, -⟩
  · exact (mem_effective (hmap ▸ ht)).elim (hexp t) (h prev hprev t)
  · exact hexp t (hmap ▸ ht)

theorem honest_of_plain (honly : c.OnlyMember) (hq : Plain q) : Honest order user c q where
  ownMember := by
    rintro ⟨-, t, ht⟩ -
    obtain rfl := hq.onlyMember t ht
    exact .inl (admits_of_me ht rfl)
  ownKey prev hprev _ t hkept := absurd (honly prev hprev t hkept.before) hkept.notMember
  joinedAgain _ _ hkeeps := by
    rw [KeepsOld, hq.stayed] at hkeeps
    cases hkeeps.1

namespace Missed

/-- Sets in the order of their members. -/
def sorted : SetOrder where
  iter s := Quot.liftOn s.1 (fun l => l.insertionSort (· ≤ ·)) fun a b h =>
    List.Perm.eq_of_pairwise (fun _ _ _ _ h h' => le_antisymm h h') (List.pairwise_insertionSort _ _)
      (List.pairwise_insertionSort _ _)
      ((List.perm_insertionSort _ a).trans (h.trans (List.perm_insertionSort _ b).symm))
  nodup := by
    rintro ⟨⟨l⟩, hl⟩
    exact (List.perm_insertionSort _ l).nodup_iff.mpr hl
  mem := by
    rintro ⟨⟨l⟩, hl⟩ x
    exact (List.perm_insertionSort _ l).mem_iff

def alice : Requester := ⟨"@alice:hs", by decide⟩

def request (required : List (String × Finset String)) (deltas : List StateDelta) (newlyJoined : Bool) : Request where
  config := ⟨0, required.foldl (fun m p => m.set p.1 p.2) .empty⟩
  newlyJoined := newlyJoined
  deltas := deltas
  page := []
  pageLimited := false
  heroes := []

def joined : StateMap := Finmap.singleton (member, "@alice:hs") "$join"

/-- The own key of another type, then the own membership. -/
def askedForMe : Connection := (new joined).run sorted alice [request [("org.foo", {me})] [] false]

/-- The own key of another type, which changes while other keys of the type are asked for. -/
def gaveUpMe : Connection := (new joined).run sorted alice
  [request [("org.foo", {me})] [⟨"org.foo", "@alice:hs", some "$first"⟩] false,
    request [("org.foo", {"other"})] [⟨"org.foo", "@alice:hs", some "$second"⟩] false]

/-- The topic, which changes before the requester joins again and does not ask for it. -/
def joinedAgain : Connection := (new joined).run sorted alice
  [request [("m.room.topic", {""})] [⟨"m.room.topic", "", some "$first"⟩] false,
    request [] [⟨member, "@alice:hs", some "$leave"⟩, ⟨"m.room.topic", "", some "$second"⟩,
      ⟨member, "@alice:hs", some "$rejoin"⟩] true]

theorem not_complete {c : Connection} {q : Request} {k : StateKey} {e : String}
    (hnamed : Named q.config.requiredStateMap alice.userId k) (hcur : (c.step sorted alice q).state.lookup k = some e)
    (hsent : ¬ (c.step sorted alice q).Sent k e) : ¬ c.Complete sorted alice q :=
  fun h => hsent (h k hnamed e hcur)

/-- The topic changes while only the own membership is asked for. -/
def topicChanged : List Request :=
  [request [(member, {me}), ("m.room.topic", {""})] [⟨"m.room.topic", "", some "$first"⟩] false,
    request [(member, {me})] [⟨"m.room.topic", "", some "$second"⟩] false]

end Missed

end Connection

end Synapse.SlidingSync
