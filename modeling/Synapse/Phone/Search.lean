import Mathlib.Data.Fintype.Card
import Mathlib.Logic.Function.Iterate
import Synapse.Phone.Verify

/-!
# Synapse.Phone.Search — the user name that is made from a phone number

The loop of `PhoneRegistrationVerifyServlet` over `check_username`, in a server whose users stay the same.

* `candidate`: the names that are tried.
* `Usable`, `Available`: the number can be the beginning of a user name; one of the names is in no exclusive name space, not
  too long, not taken and not for guests alone.
* **`search_ends_iff`**: a name is found exactly if the number is usable and some name is available, as one is where the
  names with a suffix, one more than there are users, are in no exclusive name space and not too long.
* `Reserved.search_goes_on`: a name space of all users, with which the loop has no end.
-/

namespace Synapse.Phone

open Lib List Function

def candidate (msisdn : Text) : ℕ → Text
  | 0 => msisdn
  | k + 1 => msisdn ++ '_' :: intText (k + 1)

variable (S : Server) (s : State) (v : Verify) (session : Session)

/-- What is left of the loop after `n` calls of `check_username`. -/
def searched (msisdn : Text) (n : ℕ) : Phase := (phaseAfter S s v session)^[n] (.checkingUsername msisdn msisdn (some 0))

/-- The search ends with a name that passes the check. -/
def SearchEnds (msisdn : Text) : Prop :=
  ∃ n username, searched S s v session msisdn n = .rechecking msisdn username ∧ checkUsername S s.users username = none

/-- The number can be the beginning of a user name. -/
structure Usable (msisdn : Text) : Prop where
  characters : msisdn.all isMxidCharacter = true
  head : ∃ c rest, msisdn = c :: rest ∧ c ≠ '_'

/-- What is required of a name itself; names of digits are for guests. -/
structure Available (users : List Text) (msisdn : Text) (k : ℕ) : Prop where
  free : S.exclusive (S.userId (candidate msisdn k)) = none
  short : (S.userId (candidate msisdn k)).length ≤ maxUseridLength
  untaken : lower (S.userId (candidate msisdn k)) ∉ users.map lower
  notGuest : k = 0 → msisdn.all Char.isDigit = false

variable {S s v session} {msisdn : Text} {n k : ℕ}

theorem searched_of_refused (h : ∀ k < n, checkUsername S s.users (candidate msisdn k) ≠ none) :
    searched S s v session msisdn n = .checkingUsername msisdn (candidate msisdn n) (some n) := by
  induction n with
  | zero => rfl
  | succ n ih =>
    obtain ⟨message, hmessage⟩ := Option.ne_none_iff_exists'.mp (h n (Nat.lt_succ_self n))
    rw [searched, iterate_succ_apply', ← searched, ih fun k hk => h k (Nat.lt_succ_of_lt hk)]
    simp only [phaseAfter, hmessage]
    rfl

theorem lower_intText (n : ℕ) : lower (intText n) = intText n := by
  refine (map_congr_left fun c hc => ?_).trans (map_id _)
  have hdigit : c.isDigit = true := isDigit_toDigits hc
  simp only [Char.isDigit, Bool.and_eq_true, decide_eq_true_eq] at hdigit
  refine dif_neg fun hupper => ?_
  have hle := UInt32.le_iff_toNat_le.mp hupper.1
  exact absurd (hle.trans hdigit.2) (by decide)

/-- Names with different suffixes are different users. -/
theorem lower_candidate_injective (S : Server) (msisdn : Text) :
    Injective fun k => lower (S.userId (candidate msisdn (k + 1))) := by
  intro j k h
  simp only [Server.userId, candidate, lower, map_append, map_cons, cons.injEq, true_and,
    append_cancel_left_eq, append_cancel_right_eq] at h
  have hj := lower_intText (j + 1)
  have hk := lower_intText (k + 1)
  have htext : intText ((j + 1 : ℕ) : ℤ) = intText ((k + 1 : ℕ) : ℤ) := hj.symm.trans (Eq.trans h hk)
  have hread := congrArg readInt htext
  rw [readInt_intText, readInt_intText] at hread
  have := Option.some.inj hread
  omega

theorem checkUsername_eq_none {users : List Text} {name : Text} :
    checkUsername S users name = none ↔ (name.all isMxidCharacter = true ∧ name ≠ [] ∧ name.head? ≠ some '_') ∧
      S.exclusive (S.userId name) = none ∧ (S.userId name).length ≤ maxUseridLength ∧
      lower (S.userId name) ∉ users.map lower ∧ name.all Char.isDigit = false := by
  unfold checkUsername
  cases S.exclusive (S.userId name) <;> split_ifs <;> simp_all

theorem usable_candidate : (candidate msisdn k).all isMxidCharacter = true ∧ candidate msisdn k ≠ [] ∧
    (candidate msisdn k).head? ≠ some '_' ↔ Usable msisdn := by
  have hsuffix : ∀ n : ℕ, (intText n).all isMxidCharacter = true := fun n =>
    all_eq_true.mpr fun c hc => by simp [isMxidCharacter, isDigit_toDigits hc]
  have hunderscore : isMxidCharacter '_' = true := by decide
  have hall : (candidate msisdn k).all isMxidCharacter = msisdn.all isMxidCharacter := by
    cases k with
    | zero => rfl
    | succ k =>
      have hk : (intText (k + 1)).all isMxidCharacter = true := hsuffix (k + 1)
      rw [candidate, all_append, all_cons, hunderscore, hk, Bool.true_and, Bool.and_true]
  rw [hall]
  constructor
  · rintro ⟨hcharacters, hne, hhead⟩
    cases msisdn with
    | nil => cases k <;> simp [candidate] at hne hhead
    | cons c rest =>
      refine ⟨hcharacters, c, rest, rfl, fun hc => hhead ?_⟩
      subst hc
      cases k <;> rfl
  · rintro ⟨hcharacters, c, rest, rfl, hc⟩
    cases k <;> simp [candidate, hc, hcharacters]

theorem guest_candidate : (candidate msisdn k).all Char.isDigit = false ↔ k = 0 → msisdn.all Char.isDigit = false := by
  cases k with
  | zero => simp [candidate]
  | succ k => simp [candidate]

theorem checkUsername_candidate {users : List Text} :
    checkUsername S users (candidate msisdn k) = none ↔ Usable msisdn ∧ Available S users msisdn k := by
  rw [checkUsername_eq_none, usable_candidate, guest_candidate]
  exact and_congr_right fun _ => ⟨fun ⟨hfree, hshort, huntaken, hguest⟩ => ⟨hfree, hshort, huntaken, hguest⟩,
    fun h => ⟨h.free, h.short, h.untaken, h.notGuest⟩⟩

theorem searchEnds_iff :
    SearchEnds S s v session msisdn ↔ ∃ k, checkUsername S s.users (candidate msisdn k) = none := by
  constructor
  · rintro ⟨n, username, hsearched, -⟩
    by_contra hnone
    rw [searched_of_refused fun k _ hk => hnone ⟨k, hk⟩] at hsearched
    cases hsearched
  · intro hsome
    -- the first name that passes is the one that is found
    have hfirst := Nat.find_spec hsome
    refine ⟨Nat.find hsome + 1, _, ?_, hfirst⟩
    rw [searched, iterate_succ_apply', ← searched, searched_of_refused fun j hj => Nat.find_min hsome hj]
    simp only [phaseAfter, hfirst]

theorem exists_untaken (S : Server) (users : List Text) (msisdn : Text) :
    ∃ k ≤ users.length, lower (S.userId (candidate msisdn (k + 1))) ∉ users.map lower := by
  by_contra hall
  push Not at hall
  have hnodup := (nodup_range (n := users.length + 1)).map (lower_candidate_injective S msisdn)
  have hle := hnodup.length_le_of_subset fun t ht => by
    obtain ⟨k, hk, rfl⟩ := mem_map.mp ht
    exact hall k (Nat.le_of_lt_succ (mem_range.mp hk))
  rw [length_map, length_map, length_range] at hle
  exact absurd hle (Nat.not_succ_le_self _)

/-- **The search for a user name ends exactly if the number can be the beginning of one and some name is available.**  One
is, whatever names are taken, if the names with a suffix, one more than there are users, are in no exclusive name space and
not too long. -/
theorem search_ends_iff (S : Server) (s : State) (v : Verify) (session : Session) (msisdn : Text) :
    (SearchEnds S s v session msisdn ↔ Usable msisdn ∧ ∃ k, Available S s.users msisdn k) ∧
    ((∀ k ≤ s.users.length, S.exclusive (S.userId (candidate msisdn (k + 1))) = none ∧
      (S.userId (candidate msisdn (k + 1))).length ≤ maxUseridLength) → ∃ k, Available S s.users msisdn k) := by
  constructor
  · rw [searchEnds_iff]
    simp only [checkUsername_candidate, exists_and_left]
  · intro hnames
    obtain ⟨k, hk, huntaken⟩ := exists_untaken S s.users msisdn
    exact ⟨k + 1, (hnames k hk).1, (hnames k hk).2, huntaken, nofun⟩

namespace Reserved

def numbers : PhoneNumbers := ⟨Unit, Char.isDigit, fun _ _ => none, fun _ => false, fun _ => []⟩

/-- An application service has all user names for itself. -/
def server : Server := ⟨numbers, "hs".toList, fun _ => some "This user ID is reserved by an application service."⟩

theorem search_goes_on : ¬ SearchEnds server (.start [] fun _ => none) ⟨0, [], none, .readingOtp⟩
    ⟨[], [], none, none, none, none⟩ "1".toList := by
  rintro ⟨n, username, hsearched, -⟩
  rw [searched_of_refused fun k _ => ?_] at hsearched
  · cases hsearched
  · unfold checkUsername
    split_ifs <;> exact nofun

/-- Without it the number, which is for guests alone, gets a suffix. -/
theorem search_ends_free : SearchEnds { server with exclusive := fun _ => none } (.start [] fun _ => none)
    ⟨0, [], none, .readingOtp⟩ ⟨[], [], none, none, none, none⟩ "1".toList :=
  (search_ends_iff _ _ _ _ _).1.mpr ⟨⟨rfl, _, _, rfl, by decide⟩,
    (search_ends_iff _ _ ⟨0, [], none, .readingOtp⟩ ⟨[], [], none, none, none, none⟩ _).2
      fun k hk => ⟨rfl, by cases hk; decide⟩⟩

end Reserved

end Synapse.Phone
