import Synapse.PushActions.Store

/-!
# Synapse.PushActions.Rotation — what the summaries count

* `ThreadInv`: the summary of a thread counts the push actions after its receipt that have been rotated, as long as no
  later receipt of the thread is there.
* `Resets`: a rotation with push actions of one kind only, in a thread with a count of the other kind.  It sets that
  count to zero.
* `totals_kept_iff`: other rotations keep the totals of all threads.
* `run_inv`: the invariant of runs without a reset and without a deletion for age.
-/

namespace Synapse.PushActions

open Lib List Function Table

theorem countP_or {α : Type} {p q : α → Bool} {l : List α} (h : ∀ a ∈ l, p a → q a = false) :
    (l.countP fun a => p a || q a) = l.countP p + l.countP q := by
  induction l with
  | nil => rfl
  | cons a l ih =>
    have ha := h a mem_cons_self
    rw [countP_cons, countP_cons, countP_cons, ih fun b hb => h b (mem_cons_of_mem _ hb)]
    cases hp : p a with
    | true =>
      rw [ha hp]
      simp
      omega
    | false =>
      simp
      omega

/-- The number of push actions of a kind in a thread whose position satisfies a condition. -/
def tally (actions : List PushAction) (kind : Kind) (key : ThreadKey) (p : ℤ → Bool) : ℕ :=
  actions.countP fun a => a.key == key && a.is kind && p a.streamOrdering

variable {rows actions : List PushAction} {changed : String → ℤ → Bool} {s : State} {ops : List Op} {a : PushAction}
  {r : ReceiptKey} {pos upto : ℤ} {kind : Kind} {key : ThreadKey} {p q : ℤ → Bool}

theorem notifUnread_cases (h : notifUnread kind) : kind = .notif ∨ kind = .unread := by
  cases kind <;> simp_all [notifUnread]

theorem tally_append (actions actions' : List PushAction) :
    tally (actions ++ actions') kind key p = tally actions kind key p + tally actions' kind key p :=
  countP_append

theorem tally_eq_zero : tally actions kind key p = 0 ↔
    ∀ a ∈ actions, a.key = key → a.is kind → p a.streamOrdering = false := by
  simp [tally, countP_eq_zero]

theorem tally_add {p' : ℤ → Bool} (h : ∀ x, p' x ↔ p x ∨ q x) (hne : ∀ x, p x → q x = false) :
    tally actions kind key p' = tally actions kind key p + tally actions kind key q := by
  unfold tally
  rw [← countP_or]
  · refine countP_congr fun a _ => ?_
    have hiff := h a.streamOrdering
    grind
  · intro a _ ha
    rw [hne _ (Bool.and_eq_true_iff.mp ha).2, Bool.and_false]

theorem tally_filter (keep : PushAction → Bool) (h : ∀ a ∈ actions, a.key = key → a.is kind → p a.streamOrdering → keep a) :
    tally (actions.filter keep) kind key p = tally actions kind key p := by
  unfold tally
  rw [countP_filter]
  refine countP_congr fun a ha => ?_
  constructor
  · intro hcond
    simp only [Bool.and_eq_true] at hcond ⊢
    exact hcond.1
  · intro hcond
    simp only [Bool.and_eq_true, beq_iff_eq] at hcond ⊢
    exact ⟨hcond, h a ha hcond.1.1 hcond.1.2 hcond.2⟩

/-! ## Counts by thread -/

theorem find_groupByThread_none {kinds : Kind → Bool} {t : String} (h : ∀ a ∈ rows, a.key.threadId ≠ t) :
    (groupByThread rows kinds).find t = none := by
  rw [← Option.not_isSome_iff_eq_none, find_isSome]
  simpa [groupByThread] using h

theorem find_groupByThread (rows : List PushAction) (kinds : Kind → Bool) (t : String) (kind : Kind) :
    (((groupByThread rows kinds).find t).getD .zero).of kind =
      if kinds kind then rows.countP fun a => a.key.threadId == t && a.is kind else 0 := by
  by_cases ht : t ∈ rows.map fun a => a.key.threadId
  · have hfind : (groupByThread rows kinds).find t = some ⟨
        if kinds .notif then rows.countP fun a => a.key.threadId == t && a.is .notif else 0,
        if kinds .unread then rows.countP fun a => a.key.threadId == t && a.is .unread else 0,
        if kinds .highlight then rows.countP fun a => a.key.threadId == t && a.is .highlight else 0⟩ := by
      refine mem_rows.mp (mem_map.mpr ⟨t, mem_dedup.mpr ht, rfl⟩)
    rw [hfind]
    cases kind <;> rfl
  · have hnone : (groupByThread rows kinds).find t = none :=
      find_groupByThread_none fun a ha h => ht (h ▸ mem_map_of_mem ha)
    have hzero : rows.countP (fun a => a.key.threadId == t && a.is kind) = 0 := by
      refine countP_eq_zero.mpr fun a ha hcond => ht ?_
      simp only [Bool.and_eq_true, beq_iff_eq] at hcond
      exact hcond.1 ▸ mem_map_of_mem ha
    rw [hnone, hzero]
    simp

/-- The cache says that a room has not changed only if it has no push action from then on. -/
def Truthful (changed : String → ℤ → Bool) (actions : List PushAction) : Prop :=
  ∀ a ∈ actions, ∀ pos, pos < a.streamOrdering → changed a.key.roomId pos

/-- `_get_notif_unread_count_for_user_room` counts the push actions of each thread in the range. -/
theorem find_getNotifUnreadCount (hchanged : Truthful changed actions) (roomId userId : String) (so : ℤ)
    (maxSo : Option ℤ) (threadId : Option String) (t : String) (hkind : notifUnread kind) :
    (((getNotifUnreadCountForUserRoom changed actions roomId userId so maxSo threadId).find t).getD .zero).of kind =
      if threadId.all (· == t) then
        tally actions kind ⟨userId, roomId, t⟩ fun x => so < x && maxSo.all (x ≤ ·) else 0 := by
  unfold getNotifUnreadCountForUserRoom
  by_cases hstop : changed roomId so = false ∨ maxSo.any (· ≤ so) = true
  · -- nothing is in the range
    have hzero : tally actions kind ⟨userId, roomId, t⟩ (fun x => so < x && maxSo.all (x ≤ ·)) = 0 := by
      refine tally_eq_zero.mpr fun a ha hkey _ => ?_
      rcases hstop with hsame | hmax
      · have hle : ¬ so < a.streamOrdering := fun hlt => by
          have hroom := hchanged a ha so hlt
          rw [hkey] at hroom
          simp [hsame] at hroom
        simp [hle]
      cases maxSo with
      | none => cases hmax
      | some m =>
        have hm : m ≤ so := by simpa using hmax
        simp only [Option.all_some, Bool.and_eq_false_iff, decide_eq_false_iff_not]
        omega
    rw [hzero]
    rcases hstop with hsame | hmax
    · simp [hsame, empty, find]
    · simp [hmax, empty, find]
  · rw [not_or, Bool.not_eq_false, Bool.not_eq_true] at hstop
    rw [hstop.1, hstop.2, if_neg (by simp), if_neg (by simp), find_groupByThread, if_pos hkind, countP_filter]
    split_ifs with ht
    · rw [tally]
      refine countP_congr fun a _ => ?_
      obtain ⟨⟨u, r, t'⟩, x, n, d, g⟩ := a
      by_cases htt : t' = t
      · subst htt
        simp [ht]
        tauto
      · simp [htt]
    · rw [countP_eq_zero]
      intro a _ hcond
      simp only [Bool.and_eq_true, beq_iff_eq] at hcond
      exact ht (hcond.1.1 ▸ hcond.2.2)

/-! ## What is found at a thread -/

/-- The counts of a thread's summary, if there is one. -/
def countsAt (s : State) (key : ThreadKey) : NotifCounts := ((s.summaries.find key).map Summary.counts).getD .zero

/-- The receipt of a thread's summary, if there is one. -/
def lastAt (s : State) (key : ThreadKey) : Option ℤ := (s.summaries.find key).bind (·.lastReceiptStreamOrdering)

section

variable {b : Summary}

theorem countsAt_of_find (hfind : s.summaries.find key = some b) :
    countsAt s key = b.counts ∧ lastAt s key = b.lastReceiptStreamOrdering := by
  rw [countsAt, lastAt, hfind]
  exact ⟨rfl, rfl⟩

theorem countsAt_of_none (hfind : s.summaries.find key = none) : countsAt s key = .zero ∧ lastAt s key = none := by
  rw [countsAt, lastAt, hfind]
  exact ⟨rfl, rfl⟩

end

theorem ReceiptKey.covers_eq_false (h : ¬ (key.userId = r.userId ∧ key.roomId = r.roomId)) : r.covers key = false := by
  rw [← Bool.not_eq_true, covers]
  simp only [Bool.and_eq_true, beq_iff_eq]
  exact fun hcov => h ⟨hcov.1.2.symm, hcov.1.1.symm⟩

theorem find_updateSummaries (summaries : Table ThreadKey Summary) (roomId userId : String) (oldRotate pos : ℤ)
    (unreadCounts : Table String NotifCounts) (key : ThreadKey) :
    (updateSummaries summaries roomId userId oldRotate pos unreadCounts).find key =
      (summaries.find key).map fun b =>
        if key.userId = userId ∧ key.roomId = roomId then
          ((unreadCounts.find key.threadId).map (recounted oldRotate pos)).getD b
        else b := by
  obtain ⟨rows, hnodup⟩ := unreadCounts
  show (rows.foldl _ summaries).find key = (summaries.find key).map fun b =>
    if key.userId = userId ∧ key.roomId = roomId then ((rows.lookup key.threadId).map (recounted oldRotate pos)).getD b
    else b
  induction rows generalizing summaries with
  | nil => simp
  | cons row rows ih =>
    obtain ⟨t, c⟩ := row
    obtain ⟨hnot, hrest⟩ := nodup_cons.mp hnodup
    rw [foldl_cons, ih _ hrest, find_update, Option.map_map, lookup_cons]
    refine congrArg (fun f => (summaries.find key).map f) (funext fun b => ?_)
    obtain ⟨u, r, t'⟩ := key
    by_cases hkey : u = userId ∧ r = roomId
    · obtain ⟨rfl, rfl⟩ := hkey
      by_cases ht : t' = t
      · subst ht
        have hlookup : rows.lookup t' = none := by
          rw [lookup_eq_none_iff]
          intro p hp
          refine bne_iff_ne.mpr ?_
          rintro rfl
          exact hnot (mem_map.mpr ⟨p, hp, rfl⟩)
        simp [hlookup]
      · have hbeq : (t' == t) = false := by simpa using ht
        simp [hbeq, ht]
    · have hne : ¬ (u = userId ∧ r = roomId ∧ t' = t) := fun h => hkey ⟨h.1, h.2.1⟩
      simp [hkey, hne]

/-- `if not unread_counts: unread_counts = [(0, 0, thread_id)]`: the thread of the receipt has counts in any case. -/
theorem find_orZero {counts : Table String NotifCounts} {t : String} (h : ∀ t', t' ≠ t → counts.find t' = none)
    (t' : String) : (if counts.rows.isEmpty then empty.upsert t fun _ => .zero else counts).find t' =
      if t' = t then some ((counts.find t).getD .zero) else none := by
  by_cases hempty : counts.rows.isEmpty
  · have hnil : counts.find t = none := by simp [find, List.isEmpty_iff.mp hempty]
    rw [if_pos hempty, find_upsert, hnil]
    rfl
  rw [if_neg hempty]
  by_cases ht : t' = t
  · subst ht
    obtain ⟨row, hrow⟩ := exists_mem_of_ne_nil _ (mt List.isEmpty_iff.mpr hempty)
    have hfind := mem_rows.mp hrow
    have hrow1 : row.1 = t' := by
      by_contra hne
      rw [h _ hne] at hfind
      cases hfind
    rw [← hrow1, hfind]
    simp
  · rw [if_neg ht, h t' ht]

/-- The counts that a receipt leaves in the summaries that it covers. -/
def recount (changed : String → ℤ → Bool) (s : State) (r : ReceiptKey) (pos : ℤ) (t : String) : NotifCounts :=
  ((getNotifUnreadCountForUserRoom changed (deleteRead s.actions r pos) r.roomId r.userId pos (some s.rotatedUpto)
    r.threadId).find t).getD .zero

theorem find_handleReceipt (changed : String → ℤ → Bool) (s : State) (r : ReceiptKey) (pos : ℤ) (key : ThreadKey) :
    (handleReceipt changed s r pos).summaries.find key = (s.summaries.find key).map fun b =>
      if r.covers key then recounted s.rotatedUpto pos (recount changed s r pos key.threadId) else b := by
  obtain ⟨roomId, type, userId, threadId⟩ := r
  obtain ⟨u, room, t⟩ := key
  cases threadId with
  | none =>
    unfold handleReceipt
    rw [find_updateSummaries, find_update, Option.map_map]
    refine congrArg (fun f => (s.summaries.find _).map f) (funext fun b => ?_)
    by_cases hkey : u = userId ∧ room = roomId
    · obtain ⟨rfl, rfl⟩ := hkey
      simp only [ReceiptKey.covers, recount, BEq.rfl]
      cases (getNotifUnreadCountForUserRoom changed _ _ _ pos _ none).find t <;> rfl
    · have hcov : ReceiptKey.covers ⟨roomId, type, userId, none⟩ ⟨u, room, t⟩ = false := ReceiptKey.covers_eq_false hkey
      simp only [comp, hkey, hcov, if_false, Bool.false_eq_true]
      rw [if_neg]
      simpa using hkey
  | some threadId =>
    have hother : ∀ t', t' ≠ threadId → (getNotifUnreadCountForUserRoom changed
        (deleteRead s.actions ⟨roomId, type, userId, some threadId⟩ pos) roomId userId pos (some s.rotatedUpto)
        (some threadId)).find t' = none := by
      intro t' ht'
      unfold getNotifUnreadCountForUserRoom
      split_ifs
      · rfl
      · rfl
      · refine find_groupByThread_none fun a ha => ?_
        simp only [mem_filter, Bool.and_eq_true, Option.all_some, beq_iff_eq] at ha
        exact fun h => ht' (h.symm.trans ha.2.2.symm)
    unfold handleReceipt
    rw [find_updateSummaries]
    refine congrArg (fun f => (s.summaries.find _).map f) (funext fun b => ?_)
    simp only
    rw [find_orZero hother t]
    by_cases hkey : u = userId ∧ room = roomId
    · obtain ⟨rfl, rfl⟩ := hkey
      by_cases ht : t = threadId
      · subst ht
        simp [ReceiptKey.covers, recount]
      · simp [ReceiptKey.covers, ht, Ne.symm ht]
    · rw [if_neg hkey, ReceiptKey.covers_eq_false hkey]
      rfl

/-! ## Rotation -/

def after (last : Option ℤ) (x : ℤ) : Bool := last.all (· < x)

/-- The rotation sets a count to zero: the thread has push actions of one kind in it, and a count of another kind of
which it has none. -/
def Resets (s : State) (upto : ℤ) : Prop :=
  ∃ key kind other, notifUnread kind ∧ notifUnread other ∧ (countsAt s key).of kind ≠ 0 ∧
    rotating s upto kind key = [] ∧ rotating s upto other key ≠ []

theorem length_rotating : (rotating s upto kind key).length =
    tally s.actions kind key fun x => s.rotatedUpto < x && x ≤ upto && after (lastAt s key) x := by
  unfold rotating tally
  rw [← countP_eq_length_filter]
  refine countP_congr fun a _ => ?_
  by_cases hkey : a.key = key
  · subst hkey
    rfl
  · simp [hkey]

theorem mem_rotatedKeys : key ∈ rotatedKeys s upto kind ↔ rotating s upto kind key ≠ [] := by
  rw [rotatedKeys, mem_dedup, mem_map]
  constructor
  · rintro ⟨a, ha, rfl⟩
    obtain ⟨hmem, hcond⟩ := mem_filter.mp ha
    exact ne_nil_of_mem (mem_filter.mpr ⟨hmem, by simpa using hcond⟩)
  intro hne
  obtain ⟨a, ha⟩ := exists_mem_of_ne_nil _ hne
  obtain ⟨hmem, hcond⟩ := mem_filter.mp ha
  simp only [Bool.and_eq_true, beq_iff_eq] at hcond
  exact ⟨a, mem_filter.mpr ⟨hmem, by simp [hcond]⟩, hcond.1.1⟩

theorem rotatedRow_fst : (rotatedRow s upto kind key).1 = (countsAt s key).of kind + (rotating s upto kind key).length := by
  unfold rotatedRow countsAt
  cases s.summaries.find key <;> simp

theorem rotatedRow_snd_le (h : rotating s upto kind key ≠ []) : (rotatedRow s upto kind key).2 ≤ upto := by
  have hne : (rotating s upto kind key).map PushAction.streamOrdering ≠ [] := by simpa using h
  obtain ⟨m, hm⟩ := Option.ne_none_iff_exists'.mp (mt max?_eq_none_iff.mp hne)
  have hmem := max?_mem hm
  obtain ⟨a, ha, rfl⟩ := mem_map.mp hmem
  simp only [rotatedRow, hm]
  have hcond := (mem_filter.mp ha).2
  simp only [inRotation, Bool.and_eq_true, decide_eq_true_eq] at hcond
  exact hcond.2.1.2

theorem find_rotateNotifsBefore (s : State) (upto : ℤ) (key : ThreadKey) :
    (rotateNotifsBefore s upto).summaries.find key =
      if rotating s upto .unread key ≠ [] ∨ rotating s upto .notif key ≠ [] then
        some (rotatedSummary s upto key (s.summaries.find key))
      else s.summaries.find key := by
  have hkeys : (rotatedKeys s upto .unread ++
      (rotatedKeys s upto .notif).filter (· ∉ rotatedKeys s upto .unread)).Nodup := by
    refine Nodup.append (nodup_dedup _) ((nodup_dedup _).filter _) fun k hk hk' => ?_
    simpa [hk] using (mem_filter.mp hk').2
  unfold rotateNotifsBefore
  rw [find_upsertMany hkeys]
  refine if_congr ?_ rfl rfl
  rw [mem_append, mem_filter, decide_eq_true_eq, mem_rotatedKeys, mem_rotatedKeys]
  tauto

theorem rotatedSummary_of (hrows : rotating s upto .unread key ≠ [] ∨ rotating s upto .notif key ≠ [])
    (hkind : notifUnread kind) (old : Option Summary) : (rotatedSummary s upto key old).counts.of kind =
      if rotating s upto kind key ≠ [] then (rotatedRow s upto kind key).1 else 0 := by
  unfold rotatedSummary
  simp only [mem_rotatedKeys]
  by_cases hunread : rotating s upto .unread key = []
  · have hnotif := hrows.resolve_left (not_not.mpr hunread)
    rcases notifUnread_cases hkind with rfl | rfl <;> simp [hunread, hnotif, Summary.counts, NotifCounts.of]
  · rcases notifUnread_cases hkind with rfl | rfl <;> simp [hunread, Summary.counts, NotifCounts.of]

/-- **A rotation.**  Without a reset, every count is increased by the push actions that the rotation counts. -/
theorem countsAt_rotate (hreset : ¬ Resets s upto) (hkind : notifUnread kind) (key : ThreadKey) :
    (countsAt (rotateNotifsBefore s upto) key).of kind =
      (countsAt s key).of kind + (rotating s upto kind key).length := by
  by_cases hrows : rotating s upto .unread key ≠ [] ∨ rotating s upto .notif key ≠ []
  · have hzero : rotating s upto kind key = [] → (countsAt s key).of kind = 0 := by
      intro hnil
      by_contra hne
      rcases hrows with h | h
      · exact hreset ⟨key, kind, .unread, hkind, rfl, hne, hnil, h⟩
      · exact hreset ⟨key, kind, .notif, hkind, rfl, hne, hnil, h⟩
    rw [countsAt, find_rotateNotifsBefore, if_pos hrows]
    show (rotatedSummary s upto key (s.summaries.find key)).counts.of kind = _
    rw [rotatedSummary_of hrows hkind]
    by_cases hnil : rotating s upto kind key = []
    · rw [if_neg (not_not.mpr hnil), hzero hnil, hnil]
      rfl
    · rw [if_pos hnil, rotatedRow_fst]
  · rw [not_or, not_not, not_not] at hrows
    have hnil : rotating s upto kind key = [] := by
      rcases notifUnread_cases hkind with rfl | rfl
      · exact hrows.2
      · exact hrows.1
    rw [hnil, countsAt, find_rotateNotifsBefore, if_neg (by simp [hrows])]
    rfl

theorem lastAt_rotate (key : ThreadKey) : lastAt (rotateNotifsBefore s upto) key = lastAt s key := by
  unfold lastAt
  rw [find_rotateNotifsBefore]
  split_ifs
  · unfold rotatedSummary
    split_ifs <;> rfl
  · rfl

/-- The count of a summary with the push actions after its receipt that have not been rotated. -/
def total (s : State) (kind : Kind) (key : ThreadKey) : ℕ :=
  (countsAt s key).of kind + tally s.actions kind key fun x => s.rotatedUpto < x && after (lastAt s key) x

theorem total_rotate (hle : s.rotatedUpto ≤ upto) (kind : Kind) (key : ThreadKey) :
    total (rotateNotifsBefore s upto) kind key + (countsAt s key).of kind + (rotating s upto kind key).length =
      total s kind key + (countsAt (rotateNotifsBefore s upto) key).of kind := by
  have hsplit : tally s.actions kind key (fun x => s.rotatedUpto < x && after (lastAt s key) x) =
      (rotating s upto kind key).length + tally s.actions kind key fun x => upto < x && after (lastAt s key) x := by
    rw [length_rotating]
    exact tally_add (by grind) (by grind)
  unfold total
  rw [lastAt_rotate, hsplit]
  show _ + tally s.actions kind key (fun x => upto < x && after (lastAt s key) x) + _ + _ = _
  omega

/-- **A rotation keeps all totals exactly if it resets no count.** -/
theorem totals_kept_iff (hle : s.rotatedUpto ≤ upto) :
    (∀ kind key, notifUnread kind → total (rotateNotifsBefore s upto) kind key = total s kind key) ↔ ¬ Resets s upto := by
  constructor
  · rintro hkept ⟨key, kind, other, hkind, hother, hne, hnil, hrows⟩
    have hrows' : rotating s upto .unread key ≠ [] ∨ rotating s upto .notif key ≠ [] := by
      rcases notifUnread_cases hother with rfl | rfl
      · exact .inr hrows
      · exact .inl hrows
    have hzero : (countsAt (rotateNotifsBefore s upto) key).of kind = 0 := by
      rw [countsAt, find_rotateNotifsBefore, if_pos hrows']
      show (rotatedSummary s upto key (s.summaries.find key)).counts.of kind = 0
      rw [rotatedSummary_of hrows' hkind, if_neg (not_not.mpr hnil)]
    have htotal := total_rotate hle kind key
    rw [hkept kind key hkind, hzero] at htotal
    omega
  · intro hreset kind key hkind
    have htotal := total_rotate hle kind key
    rw [countsAt_rotate hreset hkind] at htotal
    omega

namespace Mixed

def thread : ThreadKey := ⟨"@user:hs", "!room:hs", mainTimeline⟩

/-- One notification has been rotated; the next event counts as `notif`, as `unread` or as both. -/
def state (notif unread : Bool) : State :=
  ⟨[⟨thread, 2, notif, unread, false⟩], Table.empty.upsert thread fun _ => ⟨1, 0, 1, none⟩, 1, .empty, 0, 2⟩

theorem totals_kept_notif :
    total (rotateNotifsBefore (state true false) 2) .notif thread = total (state true false) .notif thread := by
  refine (totals_kept_iff (by decide)).mpr ?_ .notif thread rfl
  rintro ⟨key, kind, other, hkind, -, hne, hnil, hrows⟩
  obtain ⟨a, ha⟩ := exists_mem_of_ne_nil _ hrows
  have hkey : thread = key := by
    simp only [rotating, state, mem_filter, mem_singleton, Bool.and_eq_true, beq_iff_eq] at ha
    obtain ⟨rfl, ha⟩ := ha
    exact ha.1.1
  subst hkey
  cases kind with
  | notif => exact absurd hnil (by decide +kernel)
  | unread => exact hne (by decide +kernel)
  | highlight => cases hkind

/-- An event that is unread only is rotated, and the notification is forgotten. -/
theorem rotation_loses_notif : total (state false true) .notif thread = 1 ∧
    total (rotateNotifsBefore (state false true) 2) .notif thread = 0 := by
  decide +kernel

end Mixed

/-! ## The invariant -/

/-- A receipt for the thread of the push action, at or after it. -/
def covered (receipts : Table ReceiptKey ReceiptRow) (a : PushAction) : Bool :=
  receipts.rows.any fun row => row.1.covers a.key && a.streamOrdering ≤ row.2.eventStreamOrdering

/-- No receipt for the thread is after a position. -/
def ReadUpto (receipts : Table ReceiptKey ReceiptRow) (key : ThreadKey) (pos : ℤ) : Prop :=
  ∀ r row, receipts.find r = some row → r.covers key → row.eventStreamOrdering ≤ pos

structure ThreadInv (s : State) (key : ThreadKey) : Prop where
  counted : (∀ pos, lastAt s key = some pos → ReadUpto s.receipts key pos) → ∀ kind, notifUnread kind →
    (countsAt s key).of kind = tally s.actions kind key fun x => after (lastAt s key) x && x ≤ s.rotatedUpto
  receipt : ∀ pos, lastAt s key = some pos →
    ∃ r row, s.receipts.find r = some row ∧ r.covers key ∧ pos ≤ row.eventStreamOrdering
  ordering : ∀ b, s.summaries.find key = some b → b.lastReceiptStreamOrdering = none → b.streamOrdering ≤ s.rotatedUpto

def pushed (ops : List Op) : List PushAction :=
  ops.filterMap fun
    | .pushAction a => some a
    | _ => none

structure Inv (ops : List Op) (s : State) : Prop where
  rotated_le : s.rotatedUpto ≤ s.currentToken
  /-- What no receipt covers is still there. -/
  kept : s.actions.filter (fun a => !covered s.receipts a) = (pushed ops).filter fun a => !covered s.receipts a
  highlights : s.actions.filter PushAction.highlight = (pushed ops).filter PushAction.highlight
  thread : ∀ key, ThreadInv s key

theorem covered_iff {receipts : Table ReceiptKey ReceiptRow} :
    covered receipts a ↔ ∃ r row, receipts.find r = some row ∧ r.covers a.key ∧
      a.streamOrdering ≤ row.eventStreamOrdering := by
  simp only [covered, any_eq_true, Bool.and_eq_true, decide_eq_true_eq, Prod.exists, mem_rows]

/-! ### Push actions -/

theorem inv_pushAction (h : Inv ops s) (ha : s.currentToken < a.streamOrdering) :
    Inv (ops ++ [.pushAction a]) { s with actions := s.actions ++ [a] } := by
  have hpushed : pushed (ops ++ [.pushAction a]) = pushed ops ++ [a] := by simp [pushed]
  refine ⟨h.rotated_le, ?_, ?_, fun key => ?_⟩
  · rw [hpushed, filter_append, filter_append, h.kept]
  · rw [hpushed, filter_append, filter_append, h.highlights]
  refine ⟨fun hread kind hkind => ?_, (h.thread key).receipt, (h.thread key).ordering⟩
  have hlt : ¬ a.streamOrdering ≤ s.rotatedUpto := by
    have := h.rotated_le
    omega
  have hnew : tally [a] kind key (fun x => after (lastAt s key) x && x ≤ s.rotatedUpto) = 0 :=
    tally_eq_zero.mpr fun b hb _ _ => by
      rw [mem_singleton.mp hb]
      simp [hlt]
  have hold := (h.thread key).counted hread kind hkind
  show _ = tally (s.actions ++ [a]) kind key (fun x => after (lastAt s key) x && x ≤ s.rotatedUpto)
  rw [tally_append, hnew]
  exact hold

/-! ### Receipts -/

def Forwards (receipts receipts' : Table ReceiptKey ReceiptRow) : Prop :=
  ∀ r row, receipts.find r = some row →
    ∃ row', receipts'.find r = some row' ∧ row.eventStreamOrdering ≤ row'.eventStreamOrdering

theorem inv_forwards (h : Inv ops s) {receipts' : Table ReceiptKey ReceiptRow} (hf : Forwards s.receipts receipts') :
    Inv ops { s with receipts := receipts' } := by
  have hcov : ∀ a, covered s.receipts a → covered receipts' a := by
    intro a ha
    obtain ⟨r, row, hfind, hcov, hle⟩ := covered_iff.mp ha
    obtain ⟨row', hfind', hle'⟩ := hf r row hfind
    exact covered_iff.mpr ⟨r, row', hfind', hcov, hle.trans hle'⟩
  have hsub : ∀ l : List PushAction, (l.filter fun a => !covered receipts' a) =
      (l.filter fun a => !covered s.receipts a).filter fun a => !covered receipts' a := by
    intro l
    rw [filter_filter]
    refine filter_congr fun a _ => ?_
    cases hc : covered s.receipts a with
    | false => simp
    | true => simp [hcov a hc]
  refine ⟨h.rotated_le, ?_, h.highlights, fun key => ⟨fun hread => ?_, fun pos hpos => ?_, (h.thread key).ordering⟩⟩
  · show s.actions.filter (fun a => !covered receipts' a) = _
    rw [hsub, h.kept, ← hsub]
  · refine (h.thread key).counted fun pos hpos r row hfind hcovers => ?_
    obtain ⟨row', hfind', hle⟩ := hf r row hfind
    exact hle.trans (hread pos hpos r row' hfind' hcovers)
  · obtain ⟨r, row, hfind, hcovers, hle⟩ := (h.thread key).receipt pos hpos
    obtain ⟨row', hfind', hle'⟩ := hf r row hfind
    exact ⟨r, row', hfind', hcovers, hle.trans hle'⟩

theorem inv_receipt (h : Inv ops s) (r : ReceiptKey) (streamId pos : ℤ) :
    Inv ops (insertLinearizedReceipt s r streamId pos) := by
  unfold insertLinearizedReceipt
  split_ifs with hold
  · exact h
  refine inv_forwards h fun r' row hfind => ?_
  rw [find_upsert]
  by_cases hr : r' = r
  · subst hr
    rw [hfind] at hold
    simp only [Option.any_some, decide_eq_true_eq, not_le, ge_iff_le] at hold
    exact ⟨_, if_pos rfl, hold.le⟩
  · exact ⟨row, by rw [if_neg hr, hfind], le_rfl⟩

/-! ### The handling of receipts -/

theorem of_recounted (hchanged : Truthful changed s.actions)
    (hcov : r.covers key) {rot : ℤ} (hkind : notifUnread kind) :
    (recounted rot pos (recount changed s r pos key.threadId)).counts.of kind =
      tally (deleteRead s.actions r pos) kind key fun x => after (some pos) x && x ≤ s.rotatedUpto := by
  have hleft : Truthful changed (deleteRead s.actions r pos) := fun a ha => hchanged a (mem_of_mem_filter ha)
  have hcounts : (recounted rot pos (recount changed s r pos key.threadId)).counts.of kind =
      (recount changed s r pos key.threadId).of kind := by
    rcases notifUnread_cases hkind with rfl | rfl <;> rfl
  obtain ⟨u, room, t⟩ := key
  simp only [ReceiptKey.covers, Bool.and_eq_true, beq_iff_eq] at hcov
  obtain ⟨⟨rfl, rfl⟩, hthread⟩ := hcov
  rw [hcounts, recount, find_getNotifUnreadCount hleft _ _ _ _ _ _ hkind, if_pos hthread]
  rfl

theorem threadInv_handleReceipt (h : ThreadInv s key)
    (hchanged : Truthful changed s.actions) {row : ReceiptRow} (hrow : s.receipts.find r = some row) :
    ThreadInv (handleReceipt changed s r row.eventStreamOrdering) key := by
  have hfind := find_handleReceipt changed s r row.eventStreamOrdering key
  set s' := handleReceipt changed s r row.eventStreamOrdering
  cases hcov : r.covers key with
  | false =>
    have hsame : s'.summaries.find key = s.summaries.find key := by
      rw [hfind]
      simp [hcov]
    have hcounts : countsAt s' key = countsAt s key := by
      rw [countsAt, hsame]
      rfl
    have hlast : lastAt s' key = lastAt s key := by
      rw [lastAt, hsame]
      rfl
    refine ⟨fun hread kind hkind => ?_, fun pos hpos => h.receipt pos (hlast ▸ hpos), fun b hb => h.ordering b (hsame ▸ hb)⟩
    rw [hcounts, hlast]
    rw [hlast] at hread
    exact (h.counted hread kind hkind).trans (tally_filter _ fun a _ hkey _ _ => by simp [hkey, hcov]).symm
  | true =>
    cases hold : s.summaries.find key with
    | none =>
      have hnone : s'.summaries.find key = none := by
        rw [hfind, hold]
        rfl
      obtain ⟨hcounts, hlast⟩ := countsAt_of_none hold
      obtain ⟨hcounts', hlast'⟩ := countsAt_of_none hnone
      refine ⟨fun _ kind hkind => ?_, by simp [hlast'], by simp [hnone]⟩
      have hzero := h.counted (by simp [hlast]) kind hkind
      rw [hcounts, hlast, NotifCounts.of_zero] at hzero
      rw [hcounts', hlast', NotifCounts.of_zero]
      exact (tally_eq_zero.mpr fun a ha => tally_eq_zero.mp hzero.symm a (mem_of_mem_filter ha)).symm
    | some b =>
      have hsome : s'.summaries.find key = some (recounted s.rotatedUpto row.eventStreamOrdering
          (recount changed s r row.eventStreamOrdering key.threadId)) := by
        rw [hfind, hold]
        simp [hcov]
      obtain ⟨hcounts, hlast⟩ := countsAt_of_find hsome
      refine ⟨fun _ kind hkind => ?_, fun pos hpos => ?_, fun b' hb' hnone => ?_⟩
      · rw [hlast, hcounts]
        exact of_recounted hchanged hcov hkind
      · cases hlast.symm.trans hpos
        exact ⟨r, row, hrow, hcov, le_rfl⟩
      · cases hsome.symm.trans hb'
        cases hnone

theorem inv_handleReceipt (h : Inv ops s) (hchanged : Truthful changed s.actions)
    {row : ReceiptRow} (hrow : s.receipts.find r = some row) :
    Inv ops (handleReceipt changed s r row.eventStreamOrdering) := by
  refine ⟨h.rotated_le, ?_, ?_, fun key => ?_⟩
  · show (deleteRead s.actions r row.eventStreamOrdering).filter (fun a => !covered s.receipts a) = _
    refine Eq.trans ?_ h.kept
    rw [deleteRead, filter_filter]
    refine filter_congr fun a _ => ?_
    cases hdel : (r.covers a.key && decide (a.streamOrdering ≤ row.eventStreamOrdering) && !a.highlight) with
    | false => simp
    | true =>
      simp only [Bool.and_eq_true, decide_eq_true_eq] at hdel
      obtain ⟨⟨hcov, hle⟩, -⟩ := hdel
      simp [covered_iff.mpr ⟨r, row, hrow, hcov, hle⟩]
  · show (deleteRead s.actions r row.eventStreamOrdering).filter PushAction.highlight = _
    rw [← h.highlights, deleteRead, filter_filter]
    refine filter_congr fun a _ => ?_
    cases ha : a.highlight <;> simp
  · exact threadInv_handleReceipt (h.thread key) hchanged hrow

theorem Inv.withLastReceipt (h : Inv ops s) (streamId : ℤ) : Inv ops { s with lastReceiptStreamId := streamId } :=
  { h with thread := fun key => ⟨(h.thread key).counted, (h.thread key).receipt, (h.thread key).ordering⟩ }

theorem inv_handleNewReceipts (h : Inv ops s) (hchanged : Truthful changed s.actions)
    (likeLocal isMine : String → Bool) (maxId : ℤ) (limit : ℕ) :
    Inv ops (handleNewReceipts changed likeLocal isMine maxId limit s) := by
  refine (foldlRecOn (motive := fun s' => Inv ops s' ∧ s'.receipts = s.receipts ∧ Truthful changed s'.actions) _ _
    ⟨h, rfl, hchanged⟩ fun s' ⟨h, hreceipts, hchanged⟩ row hrow => ?_).1.withLastReceipt _
  split_ifs with hmine
  · have hmem : row ∈ s.receipts.rows := mem_of_mem_filter (mem_orderBy.mp (mem_of_mem_take hrow))
    have hfind := mem_rows.mp (hreceipts ▸ hmem)
    exact ⟨inv_handleReceipt h hchanged hfind, hreceipts, fun a ha => hchanged a (mem_of_mem_filter ha)⟩
  · exact ⟨h, hreceipts, hchanged⟩

/-! ### Rotation -/

theorem rotatedUpto_le_rotateTo (h : s.rotatedUpto ≤ s.currentToken) (n : ℕ) : s.rotatedUpto ≤ rotateTo s n := by
  unfold rotateTo
  dsimp only
  split
  · rename_i offset hoffset
    have hmem := mem_orderBy.mp (mem_of_getElem? hoffset)
    obtain ⟨a, ha, rfl⟩ := mem_map.mp hmem
    exact le_min (of_decide_eq_true (mem_filter.mp ha).2).le h
  · exact h

theorem rotateTo_le (n : ℕ) : rotateTo s n ≤ s.currentToken := by
  unfold rotateTo
  dsimp only
  split
  · exact min_le_right _ _
  · exact le_rfl

theorem threadInv_rotate (h : ThreadInv s key) (hle : s.rotatedUpto ≤ upto)
    (hreset : ¬ Resets s upto) : ThreadInv (rotateNotifsBefore s upto) key := by
  refine ⟨fun hread kind hkind => ?_, fun pos hpos => h.receipt pos (lastAt_rotate key ▸ hpos), fun b hb hnone => ?_⟩
  · rw [lastAt_rotate] at hread
    rw [countsAt_rotate hreset hkind, lastAt_rotate, h.counted hread kind hkind, length_rotating]
    show _ = tally s.actions kind key fun x => after (lastAt s key) x && decide (x ≤ upto)
    exact (tally_add (by grind) (by grind)).symm
  · rw [find_rotateNotifsBefore] at hb
    split_ifs at hb with hrows
    · cases hb
      show (rotatedSummary s upto key (s.summaries.find key)).streamOrdering ≤ upto
      unfold rotatedSummary
      simp only [mem_rotatedKeys]
      by_cases hunread : rotating s upto .unread key ≠ []
      · rw [if_pos hunread]
        exact rotatedRow_snd_le hunread
      · rw [if_neg hunread]
        exact rotatedRow_snd_le (hrows.resolve_left hunread)
    · exact (h.ordering b hb hnone).trans hle

theorem inv_rotate (h : Inv ops s) (n : ℕ) (hreset : ¬ Resets s (rotateTo s n)) : Inv ops (rotateNotifs s n) :=
  ⟨rotateTo_le n, h.kept, h.highlights,
    fun key => threadInv_rotate (h.thread key) (rotatedUpto_le_rotateTo h.rotated_le n) hreset⟩

/-! ## Runs -/

/-- What holds when an operation takes place.  Events are persisted in order of their stream ordering up to the current
token, and the cache of changed rooms is truthful.  No rotation resets a count, and no push action is deleted for its
age. -/
def Admissible (s : State) : Op → Prop
  | .pushAction a => s.currentToken < a.streamOrdering
  | .receipt _ _ _ => True
  | .persisted token => s.currentToken ≤ token
  | .handleNewReceipts changed _ _ => Truthful changed s.actions
  | .rotate rotateCount => ¬ Resets s (rotateTo s rotateCount)
  | .removeOld streamOrdering => ∀ a ∈ s.actions, a.streamOrdering ≤ streamOrdering → a.highlight

def State.initial (token : ℤ) : State := ⟨[], .empty, token, .empty, 0, token⟩

inductive Run (host : Host) (token : ℤ) : List Op → State → Prop
  | nil : Run host token [] (.initial token)
  | snoc {ops : List Op} {s : State} {op : Op} :
      Run host token ops s → Admissible s op → Run host token (ops ++ [op]) (step host s op)

theorem Inv.snoc {op : Op} (h : Inv ops s) (hop : pushed [op] = []) : Inv (ops ++ [op]) s := by
  have hpushed : pushed (ops ++ [op]) = pushed ops := by
    rw [pushed, filterMap_append]
    exact (congrArg _ hop).trans (append_nil _)
  exact ⟨h.rotated_le, hpushed ▸ h.kept, hpushed ▸ h.highlights, h.thread⟩

theorem inv_initial (token : ℤ) : Inv [] (.initial token) where
  rotated_le := le_rfl
  kept := rfl
  highlights := rfl
  thread _ :=
    { counted := fun _ kind _ => NotifCounts.of_zero kind
      receipt := fun _ hpos => nomatch hpos
      ordering := fun _ hb => nomatch hb }

theorem step_inv (host : Host) {op : Op} (h : Inv ops s) (hop : Admissible s op) :
    Inv (ops ++ [op]) (step host s op) := by
  cases op with
  | pushAction a => exact inv_pushAction h hop
  | receipt r streamId pos => exact (inv_receipt h r streamId pos).snoc rfl
  | persisted token =>
    refine Inv.snoc ⟨h.rotated_le.trans hop, h.kept, h.highlights, fun key => ?_⟩ rfl
    exact ⟨(h.thread key).counted, (h.thread key).receipt, (h.thread key).ordering⟩
  | handleNewReceipts changed maxId limit =>
    exact (inv_handleNewReceipts h hop host.likeLocal host.isMine maxId limit).snoc rfl
  | rotate n => exact (inv_rotate h n hop).snoc rfl
  | removeOld streamOrdering =>
    have hsame : removeOldPushActions s streamOrdering = s := by
      have hall : s.actions.filter (fun a => !(a.streamOrdering ≤ streamOrdering && !a.highlight)) = s.actions := by
        refine filter_eq_self.mpr fun a ha => ?_
        by_cases hle : a.streamOrdering ≤ streamOrdering
        · simp [hop a ha hle]
        · simp [hle]
      rw [removeOldPushActions, hall]
    show Inv _ (removeOldPushActions s streamOrdering)
    rw [hsame]
    exact h.snoc rfl

theorem run_inv {host : Host} {token : ℤ} (h : Run host token ops s) : Inv ops s := by
  induction h with
  | nil => exact inv_initial token
  | snoc _ hop ih => exact step_inv host ih hop

end Synapse.PushActions
