import Synapse.SlidingSync.Room

/-!
# Synapse.SlidingSync.RoomConfig — `RoomSyncConfig`

* `mustAwaitFullState`: whether a request waits for the full state of a room.
* `Asks`: what the required state of a config asks for.
* `mustAwaitFullState_remote_iff`: for which configs the memberships of remote users are waited for.
-/

namespace Synapse.SlidingSync

open Lib State StateValues List

/-! ## The functions -/

namespace RoomSyncConfig

/-- The loop of `must_await_full_state` over the state keys of the event type wildcard. -/
def remoteWildcard (isMineId : String → Bool) : List String → Except Exc Bool
  | [] => pure false
  | id :: rest =>
    match id.toList with
    | [] => throw .indexError -- `possible_user_id[0]`
    | c :: chars =>
      if c ≠ '@' then remoteWildcard isMineId rest
      else if ':' ∉ c :: chars then remoteWildcard isMineId rest
      else if !isMineId id then pure true
      else remoteWildcard isMineId rest

/-- Its loop over the state keys of `m.room.member`. -/
def remoteMember (isMineId : String → Bool) : List String → Bool
  | [] => false
  | id :: rest =>
    if id = me then remoteMember isMineId rest
    else if id = lazy then remoteMember isMineId rest
    else if id = wildcard then false
    else if !isMineId id then true
    else remoteMember isMineId rest

def mustAwaitFullState (order : SetOrder) (isMineId : String → Bool) (c : RoomSyncConfig) : Except Exc Bool := do
  if wildcard ∈ c.requiredStateMap.get wildcard then pure true
  else if ← remoteWildcard isMineId (order.iter (c.requiredStateMap.get wildcard)) then pure true
  else pure (remoteMember isMineId (order.iter (c.requiredStateMap.get member)))

end RoomSyncConfig

/-! ## What entries ask for -/

/-- An entry asks for a key. -/
def Matches (e k : StateKey) : Prop := (e.1 = k.1 ∨ e.1 = wildcard) ∧ (e.2 = k.2 ∨ e.2 = wildcard)

namespace RequiredStateMap

def Has (m : RequiredStateMap) (e : StateKey) : Prop := e.2 ∈ m.get e.1

instance (m : RequiredStateMap) (e : StateKey) : Decidable (m.Has e) := inferInstanceAs (Decidable (_ ∈ _))

/-- Some entry asks for the key. -/
def Asks (m : RequiredStateMap) (k : StateKey) : Prop := ∃ e, m.Has e ∧ Matches e k

end RequiredStateMap

/-! ## Waiting for the full state -/

section FullState

variable {order : SetOrder} {isMineId : String → Bool} {c : RoomSyncConfig}

/-- The id of a user of another server. -/
def IsRemote (isMineId : String → Bool) (id : String) : Bool :=
  id.toList.head? = some '@' && ':' ∈ id.toList && !isMineId id

theorem remoteWildcard_eq {l : List String} (h : "" ∉ l) :
    RoomSyncConfig.remoteWildcard isMineId l = .ok (l.any (IsRemote isMineId)) := by
  induction l with
  | nil => rfl
  | cons id rest ih =>
    rw [mem_cons, not_or] at h
    unfold RoomSyncConfig.remoteWildcard
    rw [ih h.2, any_cons, IsRemote]
    cases hid : id.toList with
    | nil => exact absurd (String.toList_eq_nil_iff.mp hid).symm h.1
    | cons c chars =>
      by_cases hc : c = '@'
      · subst hc
        by_cases hcolon : ':' ∈ chars
        · cases isMineId id
          · simp [hcolon]
            rfl
          · simp [hcolon]
        · simp [hcolon]
      · simp [hc]

theorem remoteMember_eq {l : List String} (h : wildcard ∉ l) :
    RoomSyncConfig.remoteMember isMineId l = l.any fun id => id ≠ me && id ≠ lazy && !isMineId id := by
  induction l with
  | nil => rfl
  | cons id rest ih =>
    rw [mem_cons, not_or] at h
    unfold RoomSyncConfig.remoteMember
    rw [ih h.2, any_cons]
    by_cases hme : id = me
    · simp [hme]
    · by_cases hlazy : id = lazy
      · simp [hlazy]
      · cases isMineId id <;> simp [hme, hlazy, Ne.symm h.1]

/-- The check returns, and answers `True` if the membership of a remote user is asked for. -/
def AwaitsRemote (order : SetOrder) (isMineId : String → Bool) (c : RoomSyncConfig) : Prop :=
  ∃ b, c.mustAwaitFullState order isMineId = .ok b ∧
    ((∃ id, IsRemote isMineId id ∧ c.requiredStateMap.Asks (member, id)) → b = true)

theorem mustAwaitFullState_of_no_empty (hwild : wildcard ∉ c.requiredStateMap.get wildcard)
    (hempty : "" ∉ c.requiredStateMap.get wildcard) : c.mustAwaitFullState order isMineId =
      .ok ((order.iter (c.requiredStateMap.get wildcard)).any (IsRemote isMineId) ||
        RoomSyncConfig.remoteMember isMineId (order.iter (c.requiredStateMap.get member))) := by
  unfold RoomSyncConfig.mustAwaitFullState
  rw [if_neg hwild, remoteWildcard_eq (by rwa [order.mem])]
  cases (order.iter (c.requiredStateMap.get wildcard)).any (IsRemote isMineId) <;> rfl

theorem remoteMember_of_mem {s : Finset String} (hall : wildcard ∉ s) {id : String} (hs : id ∈ s)
    (hid : IsRemote isMineId id = true) : RoomSyncConfig.remoteMember isMineId (order.iter s) = true := by
  rw [remoteMember_eq (by rwa [order.mem]), any_eq_true]
  refine ⟨id, (order.mem _ _).mpr hs, ?_⟩
  simp only [IsRemote, Bool.and_eq_true, decide_eq_true_eq] at hid
  have hme : id ≠ me := by
    rintro rfl
    exact absurd hid.1.1 (by decide)
  have hlazy : id ≠ lazy := by
    rintro rfl
    exact absurd hid.1.1 (by decide)
  simp [hme, hlazy, hid.2]

theorem awaitsRemote_of_no_empty (hempty : "" ∉ c.requiredStateMap.get wildcard)
    (h : (∃ id ∈ c.requiredStateMap.get wildcard, IsRemote isMineId id) ∨ wildcard ∉ c.requiredStateMap.get member) :
    AwaitsRemote order isMineId c := by
  by_cases hwild : wildcard ∈ c.requiredStateMap.get wildcard
  · exact ⟨true, if_pos hwild, fun _ => rfl⟩
  refine ⟨_, mustAwaitFullState_of_no_empty hwild hempty, ?_⟩
  rintro ⟨id, hid, ⟨t, key⟩, hx, htype, hkey⟩
  rw [Bool.or_eq_true, any_eq_true]
  rcases h with ⟨id', hid', hremote⟩ | hall
  · exact .inl ⟨id', (order.mem _ _).mpr hid', hremote⟩
  dsimp only at htype hkey
  rcases hkey with rfl | rfl
  · rcases htype with rfl | rfl
    · exact .inr (remoteMember_of_mem hall hx hid)
    · exact .inl ⟨key, (order.mem _ _).mpr hx, hid⟩
  · rcases htype with rfl | rfl
    · exact absurd hx hall
    · exact absurd hx hwild

/-- **The full state is awaited**, in whatever order sets are iterated over, exactly for the configs that ask for all state,
or that do not ask for the empty state key at all types, and ask for a remote user at all types or not for all
memberships. -/
theorem mustAwaitFullState_remote_iff (isMineId : String → Bool) (c : RoomSyncConfig)
    (hremote : ∃ id, IsRemote isMineId id) :
    (∀ order, AwaitsRemote order isMineId c) ↔
      wildcard ∈ c.requiredStateMap.get wildcard ∨ "" ∉ c.requiredStateMap.get wildcard ∧
        ((∃ id ∈ c.requiredStateMap.get wildcard, IsRemote isMineId id) ∨ wildcard ∉ c.requiredStateMap.get member) := by
  constructor
  · intro h
    by_cases hwild : wildcard ∈ c.requiredStateMap.get wildcard
    · exact .inl hwild
    have hempty : "" ∉ c.requiredStateMap.get wildcard := by
      intro hmem
      obtain ⟨b, hrun, -⟩ := h (Own.ascending.front "")
      rw [RoomSyncConfig.mustAwaitFullState, if_neg hwild, SetOrder.front_iter _ hmem] at hrun
      cases hrun
    refine .inr ⟨hempty, or_iff_not_imp_left.mpr fun hnone hall => ?_⟩
    -- the loop over the memberships comes to the wildcard first
    obtain ⟨b, hrun, hb⟩ := h (Own.ascending.front wildcard)
    obtain ⟨id, hid⟩ := hremote
    rw [hb ⟨id, hid, (member, wildcard), hall, .inl rfl, .inr rfl⟩, mustAwaitFullState_of_no_empty hwild hempty,
      SetOrder.front_iter _ hall] at hrun
    have hfirst : RoomSyncConfig.remoteMember isMineId
        (wildcard :: Own.ascending.iter ((c.requiredStateMap.get member).erase wildcard)) = false := rfl
    rw [hfirst, Bool.or_false] at hrun
    obtain ⟨id', hid', hr⟩ := any_eq_true.mp (Except.ok.inj hrun)
    exact hnone ⟨id', (SetOrder.mem _ _ _).mp hid', hr⟩
  · rintro (hwild | ⟨hempty, h⟩) order
    · exact ⟨true, if_pos hwild, fun _ => rfl⟩
    · exact awaitsRemote_of_no_empty hempty h

end FullState

namespace Waiting

def isMineId (id : String) : Bool := id = "@a:hs"

def asking (t key : String) : RoomSyncConfig := ⟨1, RequiredStateMap.empty.set t {key}⟩

/-- All memberships are asked for, but the loop over them is not reached. -/
theorem waits_for_remote : AwaitsRemote Own.ascending isMineId
    ⟨1, (RequiredStateMap.empty.set wildcard {"@b:remote"}).set member {wildcard}⟩ :=
  (mustAwaitFullState_remote_iff isMineId _ ⟨"@b:remote", by decide⟩).mpr
    (.inr ⟨by decide, .inl ⟨"@b:remote", by decide, by decide⟩⟩) Own.ascending

/-- The empty state key at all types raises, and all memberships are not waited for. -/
theorem remote_not_awaited : (asking wildcard "").mustAwaitFullState Own.ascending isMineId = .error .indexError ∧
      (asking member wildcard).mustAwaitFullState Own.ascending isMineId = .ok false ∧
      IsRemote isMineId "@b:remote" ∧ (asking member wildcard).requiredStateMap.Asks (member, "@b:remote") := by
  have hsort : ∀ key, Own.ascending.iter {key} = [key] := fun key => Finset.sort_singleton _ key
  refine ⟨?_, ?_, by decide, (member, wildcard), by decide, .inl rfl, .inr rfl⟩
  · rw [RoomSyncConfig.mustAwaitFullState, if_neg (by decide),
      show (asking wildcard "").requiredStateMap.get wildcard = {""} by decide, hsort]
    rfl
  rw [RoomSyncConfig.mustAwaitFullState, if_neg (by decide),
    show (asking member wildcard).requiredStateMap.get wildcard = ∅ by decide,
    show (asking member wildcard).requiredStateMap.get member = {wildcard} by decide, hsort,
    show Own.ascending.iter ∅ = [] from Finset.sort_empty _]
  rfl

end Waiting

end Synapse.SlidingSync
