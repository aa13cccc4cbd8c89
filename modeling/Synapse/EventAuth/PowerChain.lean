import Mathlib.Data.Int.ConditionallyCompleteOrder
import Mathlib.Order.ConditionallyCompleteLattice.Finset
import Synapse.EventAuth.Rules
import Synapse.Lib.Dict

/-!
# Synapse.EventAuth.PowerChain — power levels replacing power levels

What `_check_power_levels` guarantees over a history of power-levels events, each authorised against a state that
holds the previous one.

* `heldLevels`: the levels that an event gives to users, through `get_user_power_level`; there are finitely many
  (`heldLevels_finite`), and `topLevel` is the larger of 0 and the highest.
* `new_level_bounded`: in an accepted replacement each number is one that was there before, or one that the sender
  reaches.
* `topLevel_antitone`: along a chain the top level never increases.
-/

namespace Synapse.EventAuth

open List EventTypes Json

/-! ## The levels an event gives -/

variable {v : Json} {d : JsonDict}

theorem mem_of_lookup {k : String} (h : d.lookup k = some v) : (k, v) ∈ d := by
  obtain ⟨l₁, l₂, rfl, -⟩ := lookup_eq_some_iff.mp h
  simp

variable {l : Int}

theorem isNone_of_pyInt_ok (h : pyInt v = .ok l) : v.isNone = false := by
  cases v <;> first | rfl | cases h

variable {pl : Event} {userId : String} {users : JsonDict}

theorem contentUserLevel_listed
    (hu : pl.contentGet "users" (.obj []) = .obj users) (hv : users.lookup userId = some v) (hl : pyInt v = .ok l) :
    contentUserLevel pl userId = .ok l := by
  simp [contentUserLevel, hu, Json.get, hv, isNone_of_pyInt_ok hl, hl, bind, Except.bind, pure, Except.pure]

theorem contentUserLevel_default (hu : pl.contentGet "users" (.obj []) = .obj users) (hv : users.lookup userId = none)
    (hd : pl.content.lookup "users_default" = some v) (hl : pyInt v = .ok l) : contentUserLevel pl userId = .ok l := by
  have hd' : pl.contentGet "users_default" (.int 0) = v := by simp [Event.contentGet, hd]
  have hnull : Json.null.isNone = true := rfl
  simp [contentUserLevel, hu, Json.get, hv, hnull, hd', isNone_of_pyInt_ok hl, hl, bind, Except.bind, pure,
    Except.pure]

theorem contentUserLevel_ok (h : contentUserLevel pl userId = .ok l) :
    ∃ users, pl.contentGet "users" (.obj []) = .obj users ∧
      ((∃ v, users.lookup userId = some v ∧ pyInt v = .ok l) ∨
        l = 0 ∨ ∃ v, pl.content.lookup "users_default" = some v ∧ pyInt v = .ok l) := by
  obtain ⟨level, hget, h⟩ := exc_bind_ok h
  cases hu : pl.contentGet "users" (.obj []) with
  | obj users =>
    refine ⟨users, rfl, ?_⟩
    rw [hu] at hget
    cases hget
    cases hnone : ((users.lookup userId).getD .null).isNone with
    | false =>
      left
      cases hv : users.lookup userId with
      | none => simp [hv, isNone] at hnone
      | some v => simp_all
    | true =>
      -- the entry is missing or `null`: the default decides
      right
      cases hd : pl.content.lookup "users_default" with
      | none => left; simp_all [Event.contentGet, isNone, pyInt, pure, Except.pure]
      | some v =>
        cases hn : v.isNone with
        | true => left; simp_all [Event.contentGet, pure, Except.pure]
        | false => right; simp_all [Event.contentGet]
  | _ => rw [hu] at hget; cases hget

/-- The levels that users have under the power levels `pl`. -/
def heldLevels (pl : Event) : Set Int := {l | ∃ userId, contentUserLevel pl userId = .ok l}

theorem heldLevels_finite (pl : Event) : (heldLevels pl).Finite := by
  cases hu : pl.contentGet "users" (.obj []) with
  | obj users =>
    let numbers : List Int := (users.map Prod.snd ++ (pl.content.lookup "users_default").toList).filterMap
      fun v => (pyInt v).toOption
    refine (finite_toSet (0 :: numbers)).subset ?_
    rintro l ⟨userId, h⟩
    obtain ⟨users', hu', h⟩ := contentUserLevel_ok h
    cases hu.symm.trans hu'
    simp only [Set.mem_ofPred_eq, mem_cons, numbers, mem_filterMap, mem_append, mem_map,
      Option.mem_toList]
    rcases h with ⟨v, hv, hl⟩ | rfl | ⟨v, hv, hl⟩
    · exact .inr ⟨v, .inl ⟨(userId, v), mem_of_lookup hv, rfl⟩, by rw [hl]; rfl⟩
    · exact .inl rfl
    · exact .inr ⟨v, .inr hv, by rw [hl]; rfl⟩
  | _ =>
    refine Set.finite_empty.subset ?_
    rintro l ⟨userId, h⟩
    obtain ⟨users, hu', -⟩ := contentUserLevel_ok h
    cases hu.symm.trans hu'

/-- The larger of 0 and the highest level of any user. -/
noncomputable def topLevel (pl : Event) : Int := sSup (insert 0 (heldLevels pl))

theorem topLevel_isGreatest (pl : Event) : IsGreatest (insert 0 (heldLevels pl)) (topLevel pl) :=
  have hfin := (heldLevels_finite pl).insert 0
  ⟨(Set.insert_nonempty 0 _).csSup_mem hfin, fun _ hl => le_csSup hfin.bddAbove hl⟩

theorem le_topLevel (h : l ∈ heldLevels pl) : l ≤ topLevel pl :=
  (topLevel_isGreatest pl).2 (Set.mem_insert_of_mem 0 h)

theorem topLevel_nonneg (pl : Event) : 0 ≤ topLevel pl := (topLevel_isGreatest pl).2 (Set.mem_insert 0 _)

theorem default_held (hu : pl.contentGet "users" (.obj []) = .obj users)
    (hd : pl.content.lookup "users_default" = some v) (hl : pyInt v = .ok l) : l ∈ heldLevels pl := by
  obtain ⟨userId, hfresh⟩ := Infinite.exists_notMem_finset (users.map Prod.fst).toFinset
  refine ⟨userId, contentUserLevel_default hu ?_ hd hl⟩
  rw [lookup_eq_none_iff]
  rintro ⟨k, w⟩ hk
  have hne : userId ≠ k := fun h => hfresh (mem_toFinset.mpr (mem_map.mpr ⟨(k, w), hk, h.symm⟩))
  simpa using hne

/-! ## One replacement -/

section Replacement

variable {deps : Deps} {event old : Event} {userLevel : Int} {s : String}

theorem eq_of_scalarEq_str {y : Json} (h : (str s).scalarEq y = true) : y = .str s := by
  cases y with
  | str t => rw [show s = t from by simpa [scalarEq] using h]
  | _ => cases h

theorem str_mem_dedup {xs : List Json} (acc : List Json) (hs : .str s ∈ acc ∨ .str s ∈ xs) :
    .str s ∈ xs.foldl (fun acc x => if acc.any (scalarEq x) then acc else acc ++ [x]) acc := by
  refine (Lib.foldl_iff (P := (.str s ∈ ·)) (Q := (.str s = ·)) (fun acc x => ?_) xs acc).mpr (by simpa using hs)
  split_ifs with hany
  · refine ⟨.inl, fun h => h.elim id ?_⟩
    rintro rfl
    obtain ⟨y, hy, heq⟩ := any_eq_true.mp hany
    exact eq_of_scalarEq_str heq ▸ hy
  · rw [mem_append, mem_singleton]

theorem str_mem_pySet {xs ys : List Json} (h : pySet xs = .ok ys) (hs : .str s ∈ xs) : .str s ∈ ys := by
  unfold pySet at h
  split at h
  · cases h
    exact str_mem_dedup [] (.inr hs)
  · cases h

variable {k : String} {levels : List (Json × Option String)}

theorem mem_dirLevels {dir : String} {old : Json} {new : JsonDict} {v : Json}
    (h : dirLevels deps dir old (.obj new) = .ok levels) (hv : new.lookup k = some v) :
    (.str k, some dir) ∈ levels := by
  obtain ⟨oldNames, -, h⟩ := exc_bind_ok h
  obtain ⟨newNames, hnew, h⟩ := exc_bind_ok h
  obtain ⟨names, hnames, hlevels⟩ := exc_bind_ok h
  cases hnew
  cases hlevels
  have hk : str k ∈ names :=
    str_mem_pySet hnames (mem_append_right _ (mem_map.mpr ⟨(k, v), mem_of_lookup hv, rfl⟩))
  exact mem_map.mpr ⟨.str k, (deps.setOrder_perm names).mem_iff.mpr hk, rfl⟩

theorem checkLevels_ok {oldState newState : JsonDict}
    (h : checkLevels event userLevel oldState newState levels = .ok ()) :
    ∀ p ∈ levels, checkLevel event userLevel oldState newState p.1 p.2 = .ok () := by
  induction levels with
  | nil => exact forall_mem_nil _
  | cons p rest ih =>
    obtain ⟨level, dir⟩ := p
    obtain ⟨⟨⟩, hp, h⟩ := exc_bind_ok h
    exact forall_mem_cons.mpr ⟨hp, ih h⟩

theorem levelIn_obj (d : JsonDict) (k : String) :
    levelIn (.obj d) (.str k) = (d.lookup k).elim (.ok none) fun v => (pyInt v).map some := by
  cases hv : d.lookup k <;> simp [levelIn, pyIn, index, hv, bind, Except.bind, pure, Except.pure, Except.map]

theorem levelIn_entry {v : Json} (hv : d.lookup k = some v)
    (hl : pyInt v = .ok l) : levelIn (.obj d) (.str k) = .ok (some l) := by
  rw [levelIn_obj, hv]
  exact congrArg (Except.map some) hl

theorem levelIn_lookup {v : Json} {n : Option Int} (h : levelIn (.obj d) (.str k) = .ok n)
    (hv : d.lookup k = some v) : ∃ l, n = some l ∧ pyInt v = .ok l := by
  rw [levelIn_obj, hv] at h
  cases hl : pyInt v with
  | error e => rw [Option.elim_some, hl] at h; cases h
  | ok l => rw [Option.elim_some, hl] at h; cases h; exact ⟨l, rfl, rfl⟩

theorem levelIn_some (h : levelIn (.obj d) (.str k) = .ok (some l)) : ∃ v, d.lookup k = some v ∧ pyInt v = .ok l := by
  cases hv : d.lookup k with
  | none => rw [levelIn_obj, hv] at h; cases h
  | some v =>
    obtain ⟨_, heq, hl⟩ := levelIn_lookup h hv
    cases heq
    exact ⟨v, rfl, hl⟩

theorem new_level_bounded {oldState newState : JsonDict} {level : Json} {dir : Option String}
    (h : checkLevel event userLevel oldState newState level dir = .ok ())
    (hnew : levelIn (levelLoc dir newState) level = .ok (some l)) :
    levelIn (levelLoc dir oldState) level = .ok (some l) ∨ l ≤ userLevel := by
  obtain ⟨oldLevel, hold, h⟩ := exc_bind_ok h
  obtain ⟨newLevel, hnew', h⟩ := exc_bind_ok h
  cases hnew.symm.trans hnew'
  split at h
  · rename_i heq
    exact .inl (heq.2.2 ▸ hold)
  split at h
  · cases h
  split at h
  · cases h
  rename_i hle
  right
  simp only [Option.any_some, Bool.or_eq_true, decide_eq_true_eq, not_or, not_lt] at hle
  exact hle.2

/-- An accepted replacement has a dict of users; each of its levels passes `checkLevel` with the sender's level. -/
theorem comparePowerLevels_ok {roomVersion : RoomVersion} {userList : JsonDict}
    (h : comparePowerLevels deps roomVersion event (.obj userList) old userLevel = .ok ()) :
    checkLevel event userLevel old.content event.content (.str "users_default") none = .ok () ∧
      ∀ k v, userList.lookup k = some v →
        checkLevel event userLevel old.content event.content (.str k) (some "users") = .ok () := by
  obtain ⟨users, husers, h⟩ := exc_bind_ok h
  obtain ⟨events, -, h⟩ := exc_bind_ok h
  obtain ⟨notifications, -, h⟩ := exc_bind_ok h
  have hall := checkLevels_ok h
  refine ⟨hall (.str "users_default", none) (by simp [topLevels]), fun k v hv => hall (.str k, some "users") ?_⟩
  exact mem_append_left _ (mem_append_left _ (mem_append_right _ (mem_dirLevels husers hv)))

theorem entry_bounded {oldUsers userList : JsonDict} {v : Json} (hold : old.contentGet "users" (.obj []) = .obj oldUsers)
    (hlist : event.contentGet "users" (.obj []) = .obj userList)
    (h : checkLevel event userLevel old.content event.content (.str k) (some "users") = .ok ())
    (hv : userList.lookup k = some v) (hl : pyInt v = .ok l) : contentUserLevel old k = .ok l ∨ l ≤ userLevel := by
  have hnew := hlist ▸ levelIn_entry hv hl
  refine (new_level_bounded h hnew).imp (fun hin => ?_) id
  have hin : levelIn (old.contentGet "users" (.obj [])) (.str k) = .ok (some l) := hin
  rw [hold] at hin
  obtain ⟨w, hw, hwl⟩ := levelIn_some hin
  exact contentUserLevel_listed hold hw hwl

/-- **The bound of a replacement.** The levels that accepted power levels give to users do not exceed the top level
of those they replace, if the sender's level comes from these. -/
theorem heldLevels_bounded {roomVersion : RoomVersion} {userList : JsonDict}
    (hlist : event.contentGet "users" (.obj []) = .obj userList)
    (hsender : contentUserLevel old event.sender = .ok userLevel)
    (h : comparePowerLevels deps roomVersion event (.obj userList) old userLevel = .ok ())
    (hl : l ∈ heldLevels event) : l ≤ topLevel old := by
  obtain ⟨hdefault, husers⟩ := comparePowerLevels_ok h
  have huser : userLevel ≤ topLevel old := le_topLevel ⟨_, hsender⟩
  obtain ⟨oldUsers, hold, -⟩ := contentUserLevel_ok hsender
  obtain ⟨userId, hl⟩ := hl
  obtain ⟨users, hu, hcase⟩ := contentUserLevel_ok hl
  cases hlist.symm.trans hu
  rcases hcase with ⟨v, hv, hn⟩ | rfl | ⟨v, hv, hn⟩
  · rcases entry_bounded hold hlist (husers userId v hv) hv hn with hin | hle
    · exact le_topLevel ⟨userId, hin⟩
    · exact hle.trans huser
  · exact topLevel_nonneg old
  · -- the default
    rcases new_level_bounded hdefault (levelIn_entry hv hn) with hin | hle
    · obtain ⟨w, hw, hwl⟩ := levelIn_some hin
      exact le_topLevel (default_held hold hw hwl)
    · exact hle.trans huser

end Replacement

/-! ## Chains -/

/-- `next` has the empty state key and is authorised against a state whose power levels are `prev`. -/
def Replaces (deps : Deps) (prev next : Event) : Prop :=
  next.type = powerLevels ∧ next.stateKey = some "" ∧
    ∃ authEvents, getPowerLevelEvent (authDict authEvents) = some prev ∧
      (checkStateDependentAuthRules deps next authEvents).isOk = true

variable {deps : Deps} {prev next : Event}

theorem checkPowerLevels_ok {d : AuthDict} {u : Unit} (htype : next.type = powerLevels)
    (hkey : next.stateKey = some "") (hprev : d (powerLevels, "") = some prev)
    (h : checkPowerLevels deps next.roomVersion next d = .ok u) :
    ∃ userLevel userList, next.contentGet "users" (.obj []) = .obj userList ∧
      contentUserLevel prev next.sender = .ok userLevel ∧
      comparePowerLevels deps next.roomVersion next (.obj userList) prev userLevel = .ok () := by
  obtain ⟨userList, hvalid, h⟩ := exc_bind_ok h
  obtain ⟨stateKey, hk, h⟩ := exc_bind_ok h
  simp only [Event.stateKeyAttr, hkey] at hk
  cases hk
  rw [htype, hprev] at h
  obtain ⟨userLevel, hlevel, h⟩ := exc_bind_ok h
  unfold getUserPowerLevel getPowerLevelEvent at hlevel
  rw [hprev] at hlevel
  obtain ⟨users, hitems, hvalid⟩ := exc_bind_ok hvalid
  obtain ⟨_, -, hvalid⟩ := exc_bind_ok hvalid
  obtain ⟨_, -, hvalid⟩ := exc_bind_ok hvalid
  cases hvalid
  cases hu : next.contentGet "users" (.obj []) with
  | obj userList => exact ⟨userLevel, userList, rfl, hlevel, hu ▸ h⟩
  | _ => rw [hu] at hitems; cases hitems

theorem Replaces.compared (h : Replaces deps prev next) :
    ∃ userLevel userList, next.contentGet "users" (.obj []) = .obj userList ∧
      contentUserLevel prev next.sender = .ok userLevel ∧
      comparePowerLevels deps next.roomVersion next (.obj userList) prev userLevel = .ok () := by
  obtain ⟨htype, hkey, authEvents, hprev, hok⟩ := h
  have hprev' := hprev
  obtain ⟨v, hok⟩ := exc_isOk_iff.mp hok
  have hcreate : ¬ next.type = create := by rw [htype]; decide
  unfold checkStateDependentAuthRules at hok
  rw [if_neg hcreate] at hok
  split at hok
  · rw [checkAgainst_powerLevels htype] at hok
    obtain ⟨_, -, hok⟩ := exc_bind_ok hok
    obtain ⟨_, -, hok⟩ := exc_bind_ok hok
    split at hok
    · cases hok
    obtain ⟨_, -, hok⟩ := exc_bind_ok hok
    obtain ⟨_, -, hok⟩ := exc_bind_ok hok
    obtain ⟨_, hpl, -⟩ := exc_bind_ok hok
    exact checkPowerLevels_ok htype hkey hprev' hpl
  · cases hok

theorem topLevel_le_of_replaces (h : Replaces deps prev next) : topLevel next ≤ topLevel prev := by
  obtain ⟨userLevel, userList, hlist, hsender, hcompared⟩ := h.compared
  rcases (topLevel_isGreatest next).1 with h0 | hheld
  · rw [h0]
    exact topLevel_nonneg prev
  · exact heldLevels_bounded hlist hsender hcompared hheld

/-- **Power levels do not escalate.** Along any chain of power-levels events, each authorised over the previous one,
the larger of 0 and the highest level of any user never increases. -/
theorem topLevel_antitone {deps : Deps} {first last : Event}
    (chain : Relation.ReflTransGen (Replaces deps) first last) : topLevel last ≤ topLevel first := by
  induction chain with
  | refl => exact le_refl _
  | tail _ hstep ih => exact (topLevel_le_of_replaces hstep).trans ih

namespace Demotion

def create : Event := .ofContent "$create" EventTypes.create "" "@admin:hs" [("creator", .str "@admin:hs")]

def join : Event := .ofContent "$join" member "@admin:hs" "@admin:hs" [("membership", .str "join")]

def powerLevels (eventId : String) (level usersDefault : Int) : Event :=
  .ofContent eventId EventTypes.powerLevels "" "@admin:hs"
    [("users", .obj [("@admin:hs", .int level)]), ("users_default", .int usersDefault)]

theorem replaces_raised : Replaces Deps.offline (powerLevels "$2" 50 0) (powerLevels "$3" 50 50) :=
  ⟨rfl, rfl, [create, join, powerLevels "$2" 50 0], rfl, rfl⟩

/-- The only administrator gives up half of the level, then raises everyone else to it. -/
theorem topLevel_antitone_demoted :
    Relation.ReflTransGen (Replaces Deps.offline) (powerLevels "$1" 100 0) (powerLevels "$3" 50 50) ∧
      topLevel (powerLevels "$3" 50 50) ≤ topLevel (powerLevels "$1" 100 0) := by
  have h1 : Replaces Deps.offline (powerLevels "$1" 100 0) (powerLevels "$2" 50 0) :=
    ⟨rfl, rfl, [create, join, powerLevels "$1" 100 0], rfl, rfl⟩
  have hchain := (Relation.ReflTransGen.single h1).tail replaces_raised
  exact ⟨hchain, topLevel_antitone hchain⟩

end Demotion

end Synapse.EventAuth
