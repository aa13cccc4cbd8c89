import Synapse.PushActions.Rotation

/-!
# Synapse.PushActions.Counts — the counts of a room

* `NoStaleSummary`: no summary without a receipt that is taken as up to date has counted what has been read.
* `InPlace`: the push actions of the main timeline since the last rotation are added to its own counts.
* `room_counts_iff`: if the summaries are exact, the counts are right if and only if the latter holds.
* `unread_counts_iff`: in every run, the counts are right if and only if both hold.
-/

namespace Synapse.PushActions

open Lib List

/-! ## Adding counts up -/

/-- What a list of counts adds to a thread. -/
def sumAt (rows : List (String × NotifCounts)) (t : String) (kind : Kind) : ℕ :=
  (rows.map fun row => if row.1 = t then row.2.of kind else 0).sum

@[simp] theorem sumAt_nil (t : String) (kind : Kind) : sumAt [] t kind = 0 := rfl

@[simp] theorem sumAt_cons (row : String × NotifCounts) (rows : List (String × NotifCounts)) (t : String) (kind : Kind) :
    sumAt (row :: rows) t kind = (if row.1 = t then row.2.of kind else 0) + sumAt rows t kind := rfl

theorem of_add (c : RoomNotifCounts) (row : String × NotifCounts) (t : String) (kind : Kind) :
    ((c.add row).of t).of kind = (c.of t).of kind + if row.1 = t then row.2.of kind else 0 := by
  unfold RoomNotifCounts.add RoomNotifCounts.of
  by_cases hrow : row.1 = mainTimeline
  · by_cases ht : t = mainTimeline
    · simp [hrow, ht]
    · simp [hrow, ht, Ne.symm ht]
  by_cases ht : t = mainTimeline
  · simp [hrow, ht]
  · by_cases heq : row.1 = t
    · simp [ht, heq, Table.find_upsert]
    · simp [hrow, ht, heq, Table.find_upsert, Ne.symm heq]

theorem of_empty (t : String) (kind : Kind) : (RoomNotifCounts.zero.of t).of kind = 0 := by
  unfold RoomNotifCounts.of
  split_ifs <;> exact NotifCounts.of_zero kind

theorem of_foldl_add (rows : List (String × NotifCounts)) (c : RoomNotifCounts) (t : String) (kind : Kind) :
    ((rows.foldl .add c).of t).of kind = (c.of t).of kind + sumAt rows t kind := by
  induction rows generalizing c with
  | nil => simp
  | cons row rows ih =>
    rw [foldl_cons, ih, of_add, sumAt_cons, Nat.add_assoc]

theorem sumAt_eq_zero {rows : List (String × NotifCounts)} {t : String} (h : t ∉ rows.map Prod.fst) (kind : Kind) :
    sumAt rows t kind = 0 := by
  induction rows with
  | nil => rfl
  | cons row rows ih =>
    rw [map_cons, mem_cons, not_or] at h
    rw [sumAt_cons, ih h.2, if_neg (Ne.symm h.1)]

theorem sumAt_table (counts : Table String NotifCounts) (t : String) (kind : Kind) :
    sumAt counts.rows t kind = ((counts.find t).getD .zero).of kind := by
  obtain ⟨rows, hnodup⟩ := counts
  show sumAt rows t kind = ((rows.lookup t).getD .zero).of kind
  induction rows with
  | nil => simp
  | cons row rows ih =>
    obtain ⟨t', c⟩ := row
    obtain ⟨hnot, hrest⟩ := nodup_cons.mp hnodup
    rw [lookup_cons, sumAt_cons]
    by_cases ht : t = t'
    · subst ht
      simp [sumAt_eq_zero hnot kind]
    · have hbeq : (t == t') = false := by simpa using ht
      simp [hbeq, Ne.symm ht, ih hrest]

theorem sumAt_redirect (counts : Table String NotifCounts) (keep : String → Bool) (main target t : String) (kind : Kind) :
    sumAt ((counts.rows.filter fun row => keep row.1).map fun row => (if row.1 = main then target else row.1, row.2)) t kind =
      (if keep t ∧ t ≠ main then ((counts.find t).getD .zero).of kind else 0) +
        if keep main ∧ target = t then ((counts.find main).getD .zero).of kind else 0 := by
  rw [← sumAt_table, ← sumAt_table]
  induction counts.rows with
  | nil => simp
  | cons row rows ih =>
    obtain ⟨t', c⟩ := row
    by_cases hkeep : keep t'
    · rw [filter_cons, if_pos hkeep, map_cons, sumAt_cons, ih, sumAt_cons, sumAt_cons]
      by_cases hmain : t' = main
      · subst hmain
        by_cases ht : t = t'
        · simp [hkeep, ht]
          split_ifs <;> omega
        · by_cases htarget : target = t <;> simp [hkeep, htarget, Ne.symm ht]
          omega
      · by_cases ht : t' = t
        · subst ht
          simp [hkeep, hmain]
          omega
        · simp [hmain, ht]
    · rw [filter_cons, if_neg hkeep, ih, sumAt_cons, sumAt_cons]
      by_cases ht : t' = t
      · subst ht
        by_cases hmain : t' = main
        · subst hmain
          simp [hkeep]
        · simp [hkeep, hmain]
      · by_cases hmain : t' = main
        · subst hmain
          simp [hkeep, ht]
        · simp [ht, hmain]

/-! ## The later receipt -/

section Position

variable (s : State) (roomId userId : String)

/-- The position of the unthreaded receipt, or of the join. -/
def unthreadedReceipt (joined : ℤ) : ℤ := (lastUnthreadedReceipt s roomId userId).getD joined

def threadedReceipts (threadId : String) : List ℤ :=
  (s.receipts.rows.filter fun row => row.1.userId == userId && row.1.roomId == roomId &&
    row.1.threadId == some threadId).map fun row => row.2.eventStreamOrdering

/-- The later of the user's unthreaded and threaded receipts. -/
def laterReceipt (joined : ℤ) (threadId : String) : ℤ :=
  max (unthreadedReceipt s roomId userId joined)
    ((threadedReceipts s roomId userId threadId).max?.getD (unthreadedReceipt s roomId userId joined))

variable {s roomId userId}

theorem le_max?_getD {l : List ℤ} {x : ℤ} (h : x ∈ l) (d : ℤ) : x ≤ l.max?.getD d := by
  obtain ⟨m, hm⟩ := Option.ne_none_iff_exists'.mp (mt max?_eq_none_iff.mp (ne_nil_of_mem h))
  rw [hm]
  exact (max?_eq_some_iff.mp hm).2 x h

theorem max_max?_eq (l : List ℤ) (u : ℤ) : max u (l.max?.getD u) = ((l.filter (u < ·)).max?).getD u := by
  cases hmax : l.max? with
  | none => simp [max?_eq_none_iff.mp hmax]
  | some m =>
    obtain ⟨hmem, hle⟩ := max?_eq_some_iff.mp hmax
    rw [Option.getD_some]
    rcases lt_or_ge u m with hlt | hge
    · have hfilter : (l.filter (u < ·)).max? = some m :=
        max?_eq_some_iff.mpr ⟨mem_filter.mpr ⟨hmem, decide_eq_true hlt⟩,
          fun b hb => hle b (mem_of_mem_filter hb)⟩
      rw [hfilter, Option.getD_some, max_eq_right hlt.le]
    · have hnil : l.filter (u < ·) = [] :=
        filter_eq_nil_iff.mpr fun b hb => by simpa using (hle b hb).trans hge
      rw [hnil, max_eq_left hge]
      rfl

section

variable (joined : ℤ) (threadId : String)

theorem threadedReceipt_eq : threadedReceipt s roomId userId (unthreadedReceipt s roomId userId joined) threadId =
      laterReceipt s roomId userId joined threadId := by
  rw [laterReceipt, max_max?_eq, threadedReceipt, threadedReceipts, filter_map, filter_filter]
  congr 4
  funext row
  rw [Bool.eq_iff_iff]
  simp only [Bool.and_eq_true]
  tauto

theorem unthreadedReceipt_le :
    unthreadedReceipt s roomId userId joined ≤ laterReceipt s roomId userId joined threadId :=
  le_max_left _ _

theorem readUpto_laterReceipt :
    ReadUpto s.receipts ⟨userId, roomId, threadId⟩ (laterReceipt s roomId userId joined threadId) := by
  intro r row hfind hcov
  have hmem : (r, row) ∈ s.receipts.rows := Table.mem_rows.mpr hfind
  simp only [ReceiptKey.covers, Bool.and_eq_true] at hcov
  obtain ⟨⟨hroom, huser⟩, hthread⟩ := hcov
  cases ht : r.threadId with
  | none =>
    have hin : row.eventStreamOrdering ∈ (s.receipts.rows.filter fun row => row.1.userId == userId &&
        row.1.roomId == roomId && row.1.threadId.isNone).map fun row => row.2.eventStreamOrdering :=
      mem_map.mpr ⟨(r, row), mem_filter.mpr ⟨hmem, by simp [hroom, huser, ht]⟩, rfl⟩
    exact (le_max?_getD hin joined).trans (unthreadedReceipt_le joined threadId)
  | some t =>
    obtain rfl : t = threadId := by simpa [ht] using hthread
    have hin : row.eventStreamOrdering ∈ threadedReceipts s roomId userId t :=
      mem_map.mpr ⟨(r, row), mem_filter.mpr ⟨hmem, by simp [hroom, huser, ht]⟩, rfl⟩
    exact (le_max?_getD hin _).trans (le_max_right _ _)

end

end Position

/-! ## The parts of the answer -/

section Answer

variable {s : State} {roomId userId : String} {joined : ℤ} {changed : String → ℤ → Bool} {rows : List (String × Summary)}

/-- A summary of a thread that is taken as up to date. -/
structure Valid (s : State) (roomId userId : String) (joined : ℤ) (t : String) (b : Summary) : Prop where
  found : s.summaries.find ⟨userId, roomId, t⟩ = some b
  current : b.lastReceiptStreamOrdering = none ∧ laterReceipt s roomId userId joined t < b.streamOrdering ∨
    b.lastReceiptStreamOrdering = some (laterReceipt s roomId userId joined t)
  nonzero : b.notifCount ≠ 0 ∨ b.unreadCount ≠ 0

variable {t : String} {b : Summary}

theorem mem_validSummaries : (t, b) ∈ validSummaries s roomId userId (unthreadedReceipt s roomId userId joined) ↔
      Valid s roomId userId joined t b := by
  simp only [validSummaries, mem_map, mem_filter, Bool.and_eq_true, Bool.or_eq_true, beq_iff_eq, bne_iff_ne,
    decide_eq_true_eq, Option.isNone_iff_eq_none, threadedReceipt_eq, Prod.mk.injEq]
  constructor
  · rintro ⟨⟨⟨u, r, t'⟩, b'⟩, ⟨hmem, ⟨⟨rfl, rfl⟩, hcurrent⟩, hne⟩, rfl, rfl⟩
    exact ⟨Table.mem_rows.mp hmem, hcurrent, hne⟩
  · intro h
    exact ⟨(⟨userId, roomId, t⟩, b), ⟨Table.mem_rows.mpr h.found, ⟨⟨rfl, rfl⟩, h.current⟩, h.nonzero⟩, rfl, rfl⟩

theorem nodup_validSummaries (unthreaded : ℤ) : ((validSummaries s roomId userId unthreaded).map Prod.fst).Nodup := by
  unfold validSummaries
  rw [map_map, show (Prod.fst ∘ fun row => (row.1.threadId, row.2)) =
    ThreadKey.threadId ∘ Prod.fst from rfl, ← map_map]
  refine Nodup.map_on ?_ (s.summaries.nodup.sublist (filter_sublist.map _))
  intro x hx y hy hxy
  obtain ⟨row, hrow, rfl⟩ := mem_map.mp hx
  obtain ⟨row', hrow', rfl⟩ := mem_map.mp hy
  obtain ⟨⟨u, r, t⟩, b⟩ := row
  obtain ⟨⟨u', r', t'⟩, b'⟩ := row'
  simp_all

theorem sumAt_of_mem {counts : List (String × NotifCounts)} (hnodup : (counts.map Prod.fst).Nodup)
    {c : NotifCounts} (h : (t, c) ∈ counts) (kind : Kind) : sumAt counts t kind = c.of kind := by
  have hfind : Table.find ⟨counts, hnodup⟩ t = some c := Table.mem_rows.mp h
  rw [sumAt_table ⟨counts, hnodup⟩, hfind]
  rfl

theorem countP_afterReceipt (p : PushAction → Bool) (t : String) (kind : Kind) :
    ((afterReceipt s roomId userId (unthreadedReceipt s roomId userId joined)).filter p).countP
        (fun a => a.key.threadId == t && a.is kind) =
      s.actions.countP fun a => p a && (a.key == ⟨userId, roomId, t⟩ && a.is kind &&
        decide (laterReceipt s roomId userId joined t < a.streamOrdering)) := by
  unfold afterReceipt
  rw [countP_filter, countP_filter]
  refine countP_congr fun a _ => ?_
  obtain ⟨⟨u, r, t'⟩, x, n, d, g⟩ := a
  simp only [threadedReceipt_eq, Bool.and_eq_true, beq_iff_eq, ThreadKey.mk.injEq]
  constructor
  · rintro ⟨⟨⟨rfl, hkind⟩, hp⟩, ⟨rfl, rfl⟩, hx⟩
    exact ⟨hp, ⟨⟨rfl, rfl, rfl⟩, hkind⟩, hx⟩
  · rintro ⟨hp, ⟨⟨rfl, rfl, rfl⟩, hkind⟩, hx⟩
    exact ⟨⟨⟨rfl, hkind⟩, hp⟩, ⟨rfl, rfl⟩, hx⟩

variable {a : PushAction} {kind : Kind}

theorem notif_or_unread (hkind : notifUnread kind) (h : a.is kind) : a.notif ∨ a.unread := by
  rcases notifUnread_cases hkind with rfl | rfl
  · exact .inl h
  · exact .inr h

theorem exists_kind (h : a.notif ∨ a.unread) : ∃ kind, notifUnread kind ∧ a.is kind := by
  rcases h with h | h
  · exact ⟨.notif, rfl, h⟩
  · exact ⟨.unread, rfl, h⟩

/-- The push actions of a kind in a thread of the room. -/
def inThread (s : State) (roomId userId : String) (kind : Kind) (t : String) (p : ℤ → Bool) : ℕ :=
  tally s.actions kind ⟨userId, roomId, t⟩ p

/-- Where the actions of the main timeline since the last rotation are added. -/
def lastSummarised (rows : List (String × Summary)) : String := ((rows.map Prod.fst).getLast?).getD mainTimeline

def sinceRotation (s : State) (roomId userId : String) (changed : String → ℤ → Bool) (t : String) : NotifCounts :=
  ((getNotifUnreadCountForUserRoom changed s.actions roomId userId s.rotatedUpto none none).find t).getD .zero

/-- What the summaries add to a thread. -/
def summed (rows : List (String × Summary)) : String → Kind → ℕ := sumAt (rows.map fun row => (row.1, row.2.counts))

theorem answer_eq (t : String) (kind : Kind) :
    ((getUnreadCountsByReceipt s roomId userId changed rows joined).of t).of kind =
      summed rows t kind +
      (if kind == .highlight then
        ((afterReceipt s roomId userId (unthreadedReceipt s roomId userId joined)).filter PushAction.highlight).countP
          fun a => a.key.threadId == t && a.is kind
        else 0) +
      ((if t ∈ rows.map Prod.fst ∧ t ≠ mainTimeline then (sinceRotation s roomId userId changed t).of kind else 0) +
        if mainTimeline ∈ rows.map Prod.fst ∧ lastSummarised rows = t then
          (sinceRotation s roomId userId changed mainTimeline).of kind else 0) +
      if notifUnread kind then
        ((afterReceipt s roomId userId (unthreadedReceipt s roomId userId joined)).filter
          fun a => a.key.threadId ∉ rows.map Prod.fst).countP fun a => a.key.threadId == t && a.is kind
        else 0 := by
  have hredirect := sumAt_redirect (getNotifUnreadCountForUserRoom changed s.actions roomId userId s.rotatedUpto none none)
    (fun t => t ∈ rows.map Prod.fst) mainTimeline (lastSummarised rows) t kind
  simp only [decide_eq_true_eq] at hredirect
  unfold sinceRotation summed
  rw [← hredirect]
  unfold getUnreadCountsByReceipt getUnreadCountsByPos lastSummarised
  rw [show (lastUnthreadedReceipt s roomId userId).getD joined = unthreadedReceipt s roomId userId joined from rfl,
    of_foldl_add, of_foldl_add, of_foldl_add, of_foldl_add, sumAt_table, sumAt_table, find_groupByThread,
    find_groupByThread, of_empty, Nat.zero_add]

/-- **The answer**, for notifications and unread messages: the summary, the actions since the last rotation if there is
a summary, and all the actions after the receipt if there is none. -/
theorem counts_eq (hchanged : Truthful changed s.actions) (t : String) (hkind : notifUnread kind) :
    ((getUnreadCountsByReceipt s roomId userId changed rows joined).of t).of kind =
      summed rows t kind +
      ((if t ∈ rows.map Prod.fst ∧ t ≠ mainTimeline then
          inThread s roomId userId kind t (s.rotatedUpto < ·) else 0) +
        if mainTimeline ∈ rows.map Prod.fst ∧ lastSummarised rows = t then
          inThread s roomId userId kind mainTimeline (s.rotatedUpto < ·) else 0) +
      if t ∈ rows.map Prod.fst then 0
        else inThread s roomId userId kind t (laterReceipt s roomId userId joined t < ·) := by
  have hhigh : (kind == Kind.highlight) = false := by
    rcases notifUnread_cases hkind with rfl | rfl <;> rfl
  have hsince : ∀ t', (sinceRotation s roomId userId changed t').of kind =
      inThread s roomId userId kind t' (s.rotatedUpto < ·) := by
    intro t'
    rw [sinceRotation, find_getNotifUnreadCount hchanged _ _ _ _ _ _ hkind, inThread]
    simp
  have hraw : ((afterReceipt s roomId userId (unthreadedReceipt s roomId userId joined)).filter
      fun a => a.key.threadId ∉ rows.map Prod.fst).countP (fun a => a.key.threadId == t && a.is kind) =
      if t ∈ rows.map Prod.fst then 0
        else inThread s roomId userId kind t (laterReceipt s roomId userId joined t < ·) := by
    rw [countP_afterReceipt]
    split_ifs with ht
    · rw [countP_eq_zero]
      intro a _ hcond
      simp only [Bool.and_eq_true, beq_iff_eq, decide_eq_true_eq] at hcond
      rw [hcond.2.1.1] at hcond
      exact hcond.1 ht
    · refine countP_congr fun a _ => ?_
      by_cases hkey : a.key = ⟨userId, roomId, t⟩
      · simp [hkey, ht]
      · simp [hkey]
  rw [answer_eq, hsince, hsince, hhigh, if_neg Bool.false_ne_true, if_pos hkind, hraw, Nat.add_zero]

/-- **The answer**, for highlights: they are counted in the push actions alone. -/
theorem highlights_eq (t : String) :
    ((getUnreadCountsByReceipt s roomId userId changed rows joined).of t).of .highlight =
      inThread s roomId userId .highlight t (laterReceipt s roomId userId joined t < ·) := by
  have hsummary : summed rows t .highlight = 0 := by
    induction rows with
    | nil => rfl
    | cons row rows ih =>
      rw [summed, map_cons, sumAt_cons, ← summed, ih]
      simp [Summary.counts, NotifCounts.of]
  have hsince : ∀ t', (sinceRotation s roomId userId changed t').of .highlight = 0 := by
    intro t'
    unfold sinceRotation getNotifUnreadCountForUserRoom
    split_ifs
    · rfl
    · rfl
    · rw [find_groupByThread]
      rfl
  have hcount : s.actions.countP (fun a => a.highlight && (a.key == ⟨userId, roomId, t⟩ && a.is .highlight &&
      decide (laterReceipt s roomId userId joined t < a.streamOrdering))) =
      inThread s roomId userId .highlight t (laterReceipt s roomId userId joined t < ·) := by
    refine countP_congr fun a _ => ?_
    cases hhigh : a.highlight <;> simp [PushAction.is, hhigh]
  rw [answer_eq, hsummary, hsince, hsince, countP_afterReceipt, hcount]
  simp [notifUnread]

/-! ## What the summaries are worth -/

variable {key : ThreadKey} {pos : ℤ}

/-- Every summary that is taken as up to date counts the actions after the later receipt up to the last rotation. -/
def SummariesExact (s : State) (roomId userId : String) (joined : ℤ) : Prop :=
  ∀ t b, Valid s roomId userId joined t b → ∀ kind, notifUnread kind → b.counts.of kind =
    inThread s roomId userId kind t fun x => laterReceipt s roomId userId joined t < x && x ≤ s.rotatedUpto

theorem since_exact (hnonzero : b.notifCount ≠ 0 ∨ b.unreadCount ≠ 0)
    (hcounted : ∀ k, notifUnread k → b.counts.of k = tally s.actions k key fun x => pos < x && x ≤ s.rotatedUpto)
    (hkind : notifUnread kind) :
    b.counts.of kind + tally s.actions kind key (s.rotatedUpto < ·) = tally s.actions kind key (pos < ·) := by
  -- there is something in the summary, so the last rotation was after the receipt
  have hrotated : pos < s.rotatedUpto := by
    by_contra hge
    have hzero : ∀ k, notifUnread k → b.counts.of k = 0 := by
      intro k hk
      rw [hcounted k hk]
      refine tally_eq_zero.mpr fun a _ _ _ => ?_
      simp only [Bool.and_eq_false_iff, decide_eq_false_iff_not]
      omega
    exact hnonzero.elim (fun hn => hn (hzero .notif rfl)) fun hn => hn (hzero .unread rfl)
  rw [hcounted kind hkind]
  exact (tally_add (by grind) (by grind)).symm

section

variable (h : ThreadInv s key) (hfind : s.summaries.find key = some b)
include h hfind

theorem summary_exact (hnonzero : b.notifCount ≠ 0 ∨ b.unreadCount ≠ 0) (hread : ReadUpto s.receipts key pos)
    (hlast : b.lastReceiptStreamOrdering = some pos) (hkind : notifUnread kind) :
    b.counts.of kind + tally s.actions kind key (s.rotatedUpto < ·) = tally s.actions kind key (pos < ·) := by
  obtain ⟨hcounts, hlastAt⟩ := countsAt_of_find hfind
  rw [hlast] at hlastAt
  refine since_exact hnonzero (fun k hk => ?_) hkind
  have hcounted := h.counted (fun pos hpos => by
    rw [hlastAt] at hpos
    cases hpos
    exact hread) k hk
  rwa [hcounts, hlastAt] at hcounted

variable (hlast : b.lastReceiptStreamOrdering = none)
include hlast

theorem summary_fresh (hkind : notifUnread kind) : b.counts.of kind = tally s.actions kind key (· ≤ s.rotatedUpto) := by
  obtain ⟨hcounts, hlastAt⟩ := countsAt_of_find hfind
  rw [hlast] at hlastAt
  have hcounted := h.counted (fun pos hpos => by rw [hlastAt] at hpos; cases hpos) kind hkind
  rwa [hcounts, hlastAt] at hcounted

theorem summary_all (pos : ℤ) (hkind : notifUnread kind) :
    b.counts.of kind + tally s.actions kind key (s.rotatedUpto < ·) =
      tally s.actions kind key (· ≤ pos) + tally s.actions kind key (pos < ·) := by
  have hall : ∀ bound : ℤ, tally s.actions kind key (fun _ => true) =
      tally s.actions kind key (· ≤ bound) + tally s.actions kind key (bound < ·) := fun bound =>
    tally_add (by grind) (by grind)
  rw [← hall, hall s.rotatedUpto, summary_fresh h hfind hlast hkind]

end

/-! ## The counts of a run -/

/-- No summary without a receipt that is taken as up to date has counted what has been read. -/
def NoStaleSummary (s : State) (roomId userId : String) (joined : ℤ) : Prop :=
  ∀ t b, s.summaries.find ⟨userId, roomId, t⟩ = some b → b.lastReceiptStreamOrdering = none →
    laterReceipt s roomId userId joined t < b.streamOrdering →
    ∀ a ∈ s.actions, a.key = ⟨userId, roomId, t⟩ → a.notif ∨ a.unread →
      laterReceipt s roomId userId joined t < a.streamOrdering

/-- If the main timeline has a summary and push actions since the last rotation, its summary is the last one that the
database returns. -/
def InPlace (s : State) (roomId userId : String) (rows : List (String × Summary)) : Prop :=
  mainTimeline ∈ rows.map Prod.fst → lastSummarised rows ≠ mainTimeline →
    ∀ a ∈ s.actions, a.key = ⟨userId, roomId, mainTimeline⟩ → a.notif ∨ a.unread → a.streamOrdering ≤ s.rotatedUpto

theorem lastSummarised_mem (h : rows ≠ []) : lastSummarised rows ∈ rows.map Prod.fst := by
  have hne : rows.map Prod.fst ≠ [] := by simpa using h
  rw [lastSummarised, getLast?_eq_some_getLast hne]
  exact getLast_mem hne

theorem redirect_eq (hplace : InPlace s roomId userId rows) (ht : t ∈ rows.map Prod.fst) (hkind : notifUnread kind) :
    ((if t ∈ rows.map Prod.fst ∧ t ≠ mainTimeline then inThread s roomId userId kind t (s.rotatedUpto < ·) else 0) +
      if mainTimeline ∈ rows.map Prod.fst ∧ lastSummarised rows = t then
        inThread s roomId userId kind mainTimeline (s.rotatedUpto < ·) else 0) =
    inThread s roomId userId kind t (s.rotatedUpto < ·) := by
  have hzero : mainTimeline ∈ rows.map Prod.fst → lastSummarised rows ≠ mainTimeline →
      inThread s roomId userId kind mainTimeline (s.rotatedUpto < ·) = 0 := by
    intro hmain hlast
    refine tally_eq_zero.mpr fun a ha hkey hk => ?_
    have hle := hplace hmain hlast a ha hkey (notif_or_unread hkind hk)
    simp [hle]
  by_cases hmain : t = mainTimeline
  · subst hmain
    rw [if_neg fun h => h.2 rfl, Nat.zero_add]
    by_cases hlast : lastSummarised rows = mainTimeline
    · rw [if_pos ⟨ht, hlast⟩]
    · rw [if_neg fun h => hlast h.2, hzero ht hlast]
  · rw [if_pos ⟨ht, hmain⟩]
    split_ifs with hlast
    · rw [hzero hlast.1 (hlast.2 ▸ hmain), Nat.add_zero]
    · rw [Nat.add_zero]

section

variable (hrows : rows.Perm (validSummaries s roomId userId (unthreadedReceipt s roomId userId joined)))
include hrows

theorem nodup_rows : (rows.map Prod.fst).Nodup :=
  (hrows.map Prod.fst).nodup_iff.mpr (nodup_validSummaries _)

theorem sumAt_row (hb : (t, b) ∈ rows) (kind : Kind) :
    summed rows t kind = b.counts.of kind := by
  refine sumAt_of_mem ?_ (mem_map.mpr ⟨(t, b), hb, rfl⟩) kind
  rw [map_map]
  exact nodup_rows hrows

/-- A summarised thread: what is after the receipt, and with a summary without a receipt also what is before it. -/
theorem summarised_eq (h : ∀ key, ThreadInv s key) (hb : (t, b) ∈ rows) (hkind : notifUnread kind) :
    summed rows t kind + inThread s roomId userId kind t (s.rotatedUpto < ·) =
      (if b.lastReceiptStreamOrdering = none then
        inThread s roomId userId kind t (· ≤ laterReceipt s roomId userId joined t) else 0) +
      inThread s roomId userId kind t (laterReceipt s roomId userId joined t < ·) := by
  have hv := mem_validSummaries.mp (hrows.mem_iff.mp hb)
  rw [sumAt_row hrows hb]
  cases hlast : b.lastReceiptStreamOrdering with
  | none => exact (summary_all (h _) hv.found hlast _ hkind).trans (by rw [if_pos rfl]; rfl)
  | some pos =>
    have hpos := hv.current.resolve_left fun hnone => by rw [hlast] at hnone; cases hnone.1
    rw [if_neg nofun, Nat.zero_add]
    exact summary_exact (h _) hv.found hv.nonzero (readUpto_laterReceipt joined t) hpos hkind

/-- **The counts of a thread**, when the actions since the last rotation are where they belong. -/
theorem counts_inPlace (h : ∀ key, ThreadInv s key) (hchanged : Truthful changed s.actions)
    (hplace : InPlace s roomId userId rows) (hb : (t, b) ∈ rows) (hkind : notifUnread kind) :
    ((getUnreadCountsByReceipt s roomId userId changed rows joined).of t).of kind =
      (if b.lastReceiptStreamOrdering = none then
        inThread s roomId userId kind t (· ≤ laterReceipt s roomId userId joined t) else 0) +
      inThread s roomId userId kind t (laterReceipt s roomId userId joined t < ·) := by
  have ht : t ∈ rows.map Prod.fst := mem_map_of_mem hb
  rw [counts_eq hchanged t hkind, redirect_eq hplace ht hkind, if_pos ht, Nat.add_zero, summarised_eq hrows h hb hkind]

end

theorem counts_not_summarised (hchanged : Truthful changed s.actions) (ht : t ∉ rows.map Prod.fst)
    (hkind : notifUnread kind) :
    ((getUnreadCountsByReceipt s roomId userId changed rows joined).of t).of kind =
      inThread s roomId userId kind t (laterReceipt s roomId userId joined t < ·) := by
  have hsum : summed rows t kind = 0 := by
    refine sumAt_eq_zero ?_ kind
    rw [map_map]
    exact ht
  have hlast : ¬ (mainTimeline ∈ rows.map Prod.fst ∧ lastSummarised rows = t) := by
    rintro ⟨hmain, rfl⟩
    refine ht (lastSummarised_mem ?_)
    rintro rfl
    cases hmain
  rw [counts_eq hchanged t hkind, hsum, if_neg fun h => ht h.1, if_neg hlast, if_neg ht]
  simp

theorem inThread_pos (ha : a ∈ s.actions) (hkey : a.key = ⟨userId, roomId, t⟩)
    (hk : a.is kind) {p : ℤ → Bool} (hp : p a.streamOrdering) : 0 < inThread s roomId userId kind t p :=
  Nat.pos_of_ne_zero fun hzero => by simp [tally_eq_zero.mp hzero a ha hkey hk] at hp

/-- If the counts are right, then none of the main timeline's actions is added to another thread: that thread has at
least what it should have without them. -/
theorem inPlace_of_counts (hchanged : Truthful changed s.actions)
    (hown : ∀ t b, (t, b) ∈ rows → ∀ kind, notifUnread kind →
      inThread s roomId userId kind t (laterReceipt s roomId userId joined t < ·) ≤
        summed rows t kind + inThread s roomId userId kind t (s.rotatedUpto < ·))
    (hright : ∀ t kind, notifUnread kind → ((getUnreadCountsByReceipt s roomId userId changed rows joined).of t).of kind =
      inThread s roomId userId kind t (laterReceipt s roomId userId joined t < ·)) : InPlace s roomId userId rows := by
  intro hmain hlast a ha hkey hk
  by_contra hle
  obtain ⟨kind, hkind, hk⟩ := exists_kind hk
  have hne : rows ≠ [] := by
    rintro rfl
    cases hmain
  have hmem := lastSummarised_mem hne
  obtain ⟨⟨t, b⟩, hb, ht⟩ := mem_map.mp hmem
  have hcount := hright (lastSummarised rows) kind hkind
  rw [counts_eq hchanged _ hkind, if_pos ⟨hmem, hlast⟩, if_pos ⟨hmain, rfl⟩, if_pos hmem, ← ht] at hcount
  have hpos : 0 < inThread s roomId userId kind mainTimeline (s.rotatedUpto < ·) :=
    inThread_pos ha hkey hk (decide_eq_true (not_le.mp hle))
  have := hown t b hb kind hkind
  simp only at hcount
  omega

/-- **If the summaries are exact, the counts of a room are right exactly when the main timeline's actions are added to
its own counts.** -/
theorem room_counts_iff (hexact : SummariesExact s roomId userId joined) (hchanged : Truthful changed s.actions)
    (hrows : rows.Perm (validSummaries s roomId userId (unthreadedReceipt s roomId userId joined))) :
    (∀ t kind, notifUnread kind → ((getUnreadCountsByReceipt s roomId userId changed rows joined).of t).of kind =
      inThread s roomId userId kind t (laterReceipt s roomId userId joined t < ·)) ↔ InPlace s roomId userId rows := by
  have hown : ∀ t b, (t, b) ∈ rows → ∀ kind, notifUnread kind →
      summed rows t kind + inThread s roomId userId kind t (s.rotatedUpto < ·) =
        inThread s roomId userId kind t (laterReceipt s roomId userId joined t < ·) := by
    intro t b hb kind hkind
    have hv := mem_validSummaries.mp (hrows.mem_iff.mp hb)
    rw [sumAt_row hrows hb]
    exact since_exact hv.nonzero (hexact t b hv) hkind
  refine ⟨inPlace_of_counts hchanged fun t b hb kind hkind => (hown t b hb kind hkind).ge, fun hplace t kind hkind => ?_⟩
  by_cases ht : t ∈ rows.map Prod.fst
  · obtain ⟨⟨t, b⟩, hb, rfl⟩ := mem_map.mp ht
    rw [counts_eq hchanged _ hkind, redirect_eq hplace ht hkind, if_pos ht, Nat.add_zero, hown _ b hb kind hkind]
  · exact counts_not_summarised hchanged ht hkind

theorem inThread_eq_pushed {ops : List Op} (h : Inv ops s) (kind : Kind) (t : String) :
    inThread s roomId userId kind t (laterReceipt s roomId userId joined t < ·) =
      tally (pushed ops) kind ⟨userId, roomId, t⟩ (laterReceipt s roomId userId joined t < ·) := by
  have hkeep : ∀ a : PushAction, a.key = ⟨userId, roomId, t⟩ →
      laterReceipt s roomId userId joined t < a.streamOrdering → covered s.receipts a = false := by
    intro a hkey hlt
    rw [← Bool.not_eq_true, covered_iff]
    rintro ⟨r, row, hfind, hcov, hle⟩
    exact absurd (hle.trans (readUpto_laterReceipt joined t r row hfind (hkey ▸ hcov))) hlt.not_ge
  unfold inThread
  have hsame : ∀ actions, tally (actions.filter fun a => !covered s.receipts a) kind ⟨userId, roomId, t⟩
      (laterReceipt s roomId userId joined t < ·) =
      tally actions kind ⟨userId, roomId, t⟩ (laterReceipt s roomId userId joined t < ·) := by
    intro actions
    refine tally_filter _ fun a _ hkey _ hlt => ?_
    rw [hkeep a hkey (of_decide_eq_true hlt)]
    rfl
  rw [← hsame, h.kept, hsame]

end Answer

/-- **In every run, the counts of a room are right if and only if no summary is stale and the main timeline's actions
are added to its own counts.** -/
theorem unread_counts_iff {host : Host} {token : ℤ} {ops : List Op} {s : State} (h : Run host token ops s)
    (roomId userId : String) (joined : ℤ) {changed : String → ℤ → Bool} (hchanged : Truthful changed s.actions)
    {rows : List (String × Summary)}
    (hrows : rows.Perm (validSummaries s roomId userId (unthreadedReceipt s roomId userId joined))) :
    (∀ t kind, ((getUnreadCountsByReceipt s roomId userId changed rows joined).of t).of kind =
      tally (pushed ops) kind ⟨userId, roomId, t⟩ (laterReceipt s roomId userId joined t < ·)) ↔
    NoStaleSummary s roomId userId joined ∧ InPlace s roomId userId rows := by
  have hinv := run_inv h
  constructor
  · intro hright
    have hplace : InPlace s roomId userId rows := inPlace_of_counts hchanged
      (fun t b hb kind hkind => by have := summarised_eq hrows hinv.thread hb hkind; omega)
      fun t kind _ => (hright t kind).trans (inThread_eq_pushed hinv kind t).symm
    refine ⟨fun t b hfind hnone hlt a ha hkey hk => ?_, hplace⟩
    by_contra hle
    obtain ⟨kind, hkind, hk⟩ := exists_kind hk
    have hread : 0 < inThread s roomId userId kind t (· ≤ laterReceipt s roomId userId joined t) :=
      inThread_pos ha hkey hk (decide_eq_true (not_lt.mp hle))
    have hb : (t, b) ∈ rows := by
      refine hrows.mem_iff.mpr (mem_validSummaries.mpr ⟨hfind, .inl ⟨hnone, hlt⟩, ?_⟩)
      by_contra hzero
      rw [not_or, not_not, not_not] at hzero
      have hcounts : b.counts.of kind = 0 := by
        rcases notifUnread_cases hkind with rfl | rfl
        · exact hzero.1
        · exact hzero.2
      rw [summary_fresh (hinv.thread _) hfind hnone hkind] at hcounts
      have hrotated := (hinv.thread _).ordering b hfind hnone
      have := tally_eq_zero.mp hcounts a ha hkey hk
      rw [decide_eq_false_iff_not] at this
      omega
    have hcount := hright t kind
    rw [← inThread_eq_pushed hinv, counts_inPlace hrows hinv.thread hchanged hplace hb hkind, if_pos hnone] at hcount
    omega
  · rintro ⟨hstale, hplace⟩ t kind
    rw [← inThread_eq_pushed hinv]
    by_cases hkind : notifUnread kind
    · by_cases ht : t ∈ rows.map Prod.fst
      · obtain ⟨⟨t', b⟩, hb, rfl⟩ := mem_map.mp ht
        have hv := mem_validSummaries.mp (hrows.mem_iff.mp hb)
        rw [counts_inPlace hrows hinv.thread hchanged hplace hb hkind]
        by_cases hnone : b.lastReceiptStreamOrdering = none
        · have hlt : laterReceipt s roomId userId joined t' < b.streamOrdering :=
            (hv.current.resolve_right fun h => by rw [hnone] at h; cases h).2
          have hzero : inThread s roomId userId kind t' (· ≤ laterReceipt s roomId userId joined t') = 0 := by
            refine tally_eq_zero.mpr fun a ha hkey hk => ?_
            have := hstale t' b hv.found hnone hlt a ha hkey (notif_or_unread hkind hk)
            simpa using this
          rw [if_pos hnone, hzero, Nat.zero_add]
        · rw [if_neg hnone, Nat.zero_add]
      · exact counts_not_summarised hchanged ht hkind
    · obtain rfl : kind = .highlight := by
        cases kind with
        | notif | unread => exact absurd rfl hkind
        | highlight => rfl
      exact highlights_eq t

/-! ## Runs with wrong counts -/

namespace Wrong

def host : Host := ⟨fun _ => true, fun _ => true⟩

def key (threadId : String) : ThreadKey := ⟨"@user:hs", "!room", threadId⟩

/-- A notification, and a message that is only unread. -/
def notify (threadId : String) (so : ℤ) : PushAction := ⟨key threadId, so, true, false, false⟩
def unread (threadId : String) (so : ℤ) : PushAction := ⟨key threadId, so, false, true, false⟩

def exec (ops : List Op) : State := ops.foldl (step host) (.initial 0)

/-- The counts that the database returns if it returns the summaries in the order of their creation. -/
def counts (ops : List Op) (threadId : String) (kind : Kind) : ℕ :=
  ((getUnreadCountsByReceipt (exec ops) "!room" "@user:hs" (fun _ _ => true)
    (validSummaries (exec ops) "!room" "@user:hs" (unthreadedReceipt (exec ops) "!room" "@user:hs" 0)) 0).of threadId).of
    kind

def expected (ops : List Op) (threadId : String) (kind : Kind) : ℕ :=
  tally (pushed ops) kind (key threadId) (laterReceipt (exec ops) "!room" "@user:hs" 0 threadId < ·)

/-- Three notifications are rotated; then the second is read, and the receipt has not been handled yet. -/
def stale : List Op :=
  [.pushAction (notify "main" 1), .pushAction (notify "main" 2), .pushAction (notify "main" 3), .persisted 3, .rotate 10,
    .receipt ⟨"!room", .read, "@user:hs", none⟩ 1 2]

/-- The main timeline and a thread have been rotated; then there is another notification in the main timeline. -/
def misplaced : List Op :=
  [.pushAction (notify "main" 1), .pushAction (notify "$thread" 2), .persisted 2, .rotate 10,
    .pushAction (notify "main" 3)]

theorem misplaced_exact : SummariesExact (exec misplaced) "!room" "@user:hs" 0 := by
  intro t b hv kind _
  have hmem := Table.mem_rows.mpr hv.found
  rcases mem_cons.mp hmem with h | h
  · cases h
    cases kind <;> decide
  · cases mem_singleton.mp h
    cases kind <;> decide

/-- With the summary of the main timeline in the last place, the counts are right. -/
theorem room_counts_last : ((getUnreadCountsByReceipt (exec misplaced) "!room" "@user:hs" (fun _ _ => true)
      (validSummaries (exec misplaced) "!room" "@user:hs" (unthreadedReceipt (exec misplaced) "!room" "@user:hs" 0)).reverse
      0).of "main").of .notif =
    inThread (exec misplaced) "!room" "@user:hs" .notif "main"
      (laterReceipt (exec misplaced) "!room" "@user:hs" 0 "main" < ·) :=
  (room_counts_iff misplaced_exact (fun _ _ _ _ => rfl) (reverse_perm _)).mpr
    (fun _ hlast => absurd (by decide) hlast) "main" .notif rfl

/-- With another summary there, a notification of the main timeline is counted in that thread. -/
theorem room_counts_misplaced : SummariesExact (exec misplaced) "!room" "@user:hs" 0 ∧
    counts misplaced "main" .notif = 1 ∧ inThread (exec misplaced) "!room" "@user:hs" .notif "main"
      (laterReceipt (exec misplaced) "!room" "@user:hs" 0 "main" < ·) = 2 ∧
    counts misplaced "$thread" .notif = 2 ∧ inThread (exec misplaced) "!room" "@user:hs" .notif "$thread"
      (laterReceipt (exec misplaced) "!room" "@user:hs" 0 "$thread" < ·) = 1 :=
  ⟨misplaced_exact, by decide⟩

/-- A notification is rotated, and then an unread message. -/
def reset : List Op :=
  [.pushAction (notify "main" 1), .persisted 1, .rotate 10, .pushAction (unread "main" 2), .persisted 2, .rotate 10]

/-- The main timeline and a thread have been rotated; then the first notification is read, and the receipt is handled. -/
def handled : List Op :=
  [.pushAction (notify "main" 1), .pushAction (notify "$thread" 2), .pushAction (notify "main" 3), .persisted 3, .rotate 10,
    .receipt ⟨"!room", .read, "@user:hs", none⟩ 1 1, .handleNewReceipts (fun _ _ => true) 1 100]

theorem run_handled : Run host 0 handled (exec handled) := by
  have hfirst : Run host 0 (handled.take 1) (exec (handled.take 1)) := Run.nil.snoc (show (0 : ℤ) < 1 by decide)
  have hthread : Run host 0 (handled.take 2) (exec (handled.take 2)) := hfirst.snoc (show (0 : ℤ) < 2 by decide)
  have hsecond : Run host 0 (handled.take 3) (exec (handled.take 3)) := hthread.snoc (show (0 : ℤ) < 3 by decide)
  have hpersisted : Run host 0 (handled.take 4) (exec (handled.take 4)) := hsecond.snoc (show (0 : ℤ) ≤ 3 by decide)
  have hrotated : Run host 0 (handled.take 5) (exec (handled.take 5)) := by
    refine hpersisted.snoc fun hreset => ?_
    obtain ⟨_, kind, _, _, _, hne, _⟩ := hreset
    exact hne (NotifCounts.of_zero kind)
  have hread : Run host 0 (handled.take 6) (exec (handled.take 6)) := hrotated.snoc trivial
  exact hread.snoc fun _ _ _ _ => rfl

theorem unread_counts_handled : counts handled "main" .notif = expected handled "main" .notif ∧
    counts handled "$thread" .notif = expected handled "$thread" .notif ∧
    expected handled "main" .notif = 1 ∧ expected handled "$thread" .notif = 1 := by
  -- handling the receipt has set the last receipt of both summaries
  have hset : ∀ row ∈ (exec handled).summaries.rows, row.2.lastReceiptStreamOrdering ≠ none := by decide
  have hright : ∀ t kind, counts handled t kind = expected handled t kind := by
    refine (unread_counts_iff run_handled "!room" "@user:hs" 0 (fun _ _ _ _ => rfl) (List.Perm.refl _)).mpr ⟨?_, ?_⟩
    · exact fun t b hfind hnone => absurd hnone (hset _ (Table.mem_rows.mpr hfind))
    · exact fun _ _ => by decide
  exact ⟨hright "main" .notif, hright "$thread" .notif, by decide⟩

/-- **The counts are wrong in each of the three ways.** -/
theorem counts_wrong : (counts stale "main" .notif = 3 ∧ expected stale "main" .notif = 1) ∧
    (counts misplaced "main" .notif = 1 ∧ expected misplaced "main" .notif = 2 ∧
      counts misplaced "$thread" .notif = 2 ∧ expected misplaced "$thread" .notif = 1) ∧
    (counts reset "main" .notif = 0 ∧ expected reset "main" .notif = 1) := by
  decide

end Wrong

end Synapse.PushActions
