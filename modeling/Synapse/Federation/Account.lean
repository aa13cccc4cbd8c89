import Synapse.Federation.Sender
import Synapse.Lib.Runs

/-!
# Synapse.Federation.Account — what becomes of an event on its way to the destination

An event that was recorded for the destination has been delivered (or a later event of its room has), or extremities of
its room were sent for it, or it waits for the queue, or it is in the queue, or the catch-up will come to its room.
Which of these hold depends on where the transmission loop is.

* `Delivered`, `Answered`, `Above`, `Counted`: what there is to say about an event.
* `Mark`: a value below which nothing is lost; `Todo`: what the catch-up still has to deal with.
* `Core`: the invariant, over the ledger, the events that wait for the queue, the queue and the loop.
* `Core.store`, `Core.sendPdu`, …: a lemma for each change of these.
-/

namespace Synapse.Federation

open Lib List PerDestinationQueue

/-! ## What is said -/

section Said

variable (ev : Events) (l : Ledger)

/-- The event itself or a later event of its room has been delivered. -/
def Delivered (e : ℕ) : Prop := ∃ d ∈ l.delivered, ev.room d = ev.room e ∧ e ≤ d

/-- The catch-up has sent forward extremities of the room in place of the event or a later one. -/
def Replaced (e : ℕ) : Prop := ∃ d ∈ l.replaced, ev.room d = ev.room e ∧ e ≤ d

def Answered (e : ℕ) : Prop := Delivered ev l e ∨ Replaced ev l e

/-- The newest event of the room that was recorded for the destination is above the value. -/
def Above (e s : ℕ) : Prop := ∃ r, l.destinationRooms.find (ev.room e) = some r ∧ s < r

/-- The event counts: it is above the first recorded value. -/
def Counted (e : ℕ) : Prop := ∃ f, l.firstRecorded = some f ∧ f < e

/-- A value below which nothing that counts is lost. -/
structure Mark (x : ℕ) : Prop where
  handed : x ∈ l.handed
  answered : Answered ev l x
  ok : ∀ e ∈ l.handed, Counted l e → Answered ev l e ∨ Above ev l e x

end Said

/-! ## The invariant -/

section Invariant

variable (ev : Events) (rooms : Table String ℕ) (handed : List ℕ)

/-- A room's entry is the newest of its events. -/
structure RowsInv : Prop where
  row_le : ∀ e ∈ handed, ∃ r, rooms.find (ev.room e) = some r ∧ e ≤ r
  row_handed : ∀ room r, rooms.find room = some r → r ∈ handed ∧ ev.room r = room

/-- An event that waits is the newest of its room, and what has reached the queue is below what has not. -/
structure OrderInv (waiting : ℕ → Prop) (pending : List ℕ) (skipped : ℕ) : Prop where
  waiting_row : ∀ e, waiting e → rooms.find (ev.room e) = some e
  waiting_last : ∀ e ∈ handed, ∀ f, waiting f → e ≤ f ∨ waiting e
  pending_handed : ∀ p ∈ pending, p ∈ handed
  pending_sorted : pending.Pairwise (· ≤ ·)
  pending_le : ∀ p ∈ pending, ∀ f, waiting f → p ≤ f
  skipped_handed : skipped = 0 ∨ skipped ∈ handed
  skipped_le : ∀ f, waiting f → skipped ≤ f

/-- The events that the catch-up still has to deal with after a value: every room is below the value, among them, or above
all of them. -/
structure Todo (x : ℕ) (todo : List ℕ) : Prop where
  sorted : todo.Pairwise (· ≤ ·)
  handed : ∀ t ∈ todo, t ∈ handed
  above : ∀ t ∈ todo, x ≤ t
  rows : ∀ room r, rooms.find room = some r → r ≤ x ∨ r ∈ todo ∨ ∀ t ∈ todo, t ≤ r

/-- Where an event is that has not been answered: in the queue or on its way there. -/
def Pending (waiting : ℕ → Prop) (pending : List ℕ) (e : ℕ) : Prop := e ∈ pending ∨ waiting e

variable (l : Ledger) (waiting : ℕ → Prop) (q : PerDestinationQueue)

/-- The recorded and the cached value are marks; what has not been answered is still to come. -/
structure MarksInv : Prop where
  recorded : ∀ s, l.lastSuccessful = some s → Mark ev l s
  cached : ∀ c, q.lastSuccessfulStreamOrdering = some c → Mark ev l c ∧ l.lastSuccessful ≠ none
  first_none : l.firstRecorded = none ↔ l.lastSuccessful = none
  /-- Before anything is recorded, what was lost is below what is in the queue. -/
  lost : l.firstRecorded = none → ∀ e ∈ l.handed,
    Answered ev l e ∨ Pending waiting q.pendingPdus e ∨ ∀ p ∈ q.pendingPdus, e < p
  /-- Outside the catch-up what has not been answered is in the queue or on its way there. -/
  normal : q.catchingUp = false → ∀ e ∈ l.handed, Counted l e →
    Answered ev l e ∨ Pending waiting q.pendingPdus e

/-- What holds where the loop awaits something. -/
def LoopInv : Loop → Prop
  | .idle | .retryLimiter | .readLast => True
  | .query _ last => q.lastSuccessfulStreamOrdering = some last
  | .queried _ last pdus => q.lastSuccessfulStreamOrdering = some last ∧ Todo l.destinationRooms l.handed last pdus ∧
      -- nothing was left when the query ran, and what came later waits, is in the queue or was noted as skipped
      (pdus = [] → ∀ e ∈ l.handed, Counted l e →
        Answered ev l e ∨ Pending waiting q.pendingPdus e ∨ last < q.catchupLastSkipped)
  | .catchUp _ last pdu rest =>
    q.lastSuccessfulStreamOrdering = some last ∧ Todo l.destinationRooms l.handed last (pdu :: rest)
  | .recordCatchUp _ pdu rest =>
    q.lastSuccessfulStreamOrdering = some pdu ∧ Todo l.destinationRooms l.handed pdu rest
  | .enter => q.catchingUp = false
  | .sending pdus => q.catchingUp = false ∧ pdus <+: q.pendingPdus
  | .record pdus => q.catchingUp = false ∧ ∀ m, pdus.getLast? = some m → Mark ev l m ∧
      (l.firstRecorded = none → ∀ e ∈ l.handed, Answered ev l e ∨ Pending waiting q.pendingPdus e ∨ e ≤ m)

/-- The invariant; `waiting` are the events that are recorded and have not reached the queue. -/
structure Core (loop : Loop) : Prop where
  rows : RowsInv ev l.destinationRooms l.handed
  order : OrderInv ev l.destinationRooms l.handed waiting q.pendingPdus q.catchupLastSkipped
  marks : MarksInv ev l waiting q
  loop : LoopInv ev l waiting q loop

end Invariant

section Lemmas

variable {ev : Events} {l l' : Ledger} {waiting waiting' : ℕ → Prop} {q : PerDestinationQueue} {loop loop' : Loop}
variable {rooms : Table String ℕ} {handed pending pdus rest todo : List ℕ} {skipped : ℕ}
variable {e f x m last pdu : ℕ}

/-! ## Answers and marks -/

theorem Answered.of_le (h : Answered ev l x) (hroom : ev.room x = ev.room e) (hle : e ≤ x) : Answered ev l e := by
  obtain ⟨d, hd, hr, hxd⟩ | ⟨d, hd, hr, hxd⟩ := h
  · exact .inl ⟨d, hd, hr.trans hroom, hle.trans hxd⟩
  · exact .inr ⟨d, hd, hr.trans hroom, hle.trans hxd⟩

theorem answered_or_above (hrows : RowsInv ev l.destinationRooms l.handed) (he : e ∈ l.handed)
    (hx : Answered ev l x) (hle : x ≤ e) : Answered ev l e ∨ Above ev l e x := by
  obtain ⟨r, hr, her⟩ := hrows.row_le e he
  rcases hle.eq_or_lt with rfl | hlt
  · exact .inl hx
  · exact .inr ⟨r, hr, by omega⟩

/-- More has been answered, of the same events. -/
structure Ledger.Extends (l l' : Ledger) : Prop where
  rooms : l'.destinationRooms = l.destinationRooms
  handed : l'.handed = l.handed
  delivered : l.delivered ⊆ l'.delivered
  replaced : l.replaced ⊆ l'.replaced
  counted : ∀ e, Counted l' e → Counted l e

theorem Answered.extend (hext : l.Extends l') (h : Answered ev l e) : Answered ev l' e := by
  obtain ⟨d, hd, h⟩ | ⟨d, hd, h⟩ := h
  · exact .inl ⟨d, hext.delivered hd, h⟩
  · exact .inr ⟨d, hext.replaced hd, h⟩

theorem Mark.extend (hext : l.Extends l') (h : Mark ev l x) : Mark ev l' x where
  handed := hext.handed ▸ h.handed
  answered := h.answered.extend hext
  ok e he hc := by
    rw [hext.handed] at he
    refine (h.ok e he (hext.counted e hc)).imp (·.extend hext) ?_
    rintro ⟨r, hr, hlt⟩
    exact ⟨r, hext.rooms ▸ hr, hlt⟩

theorem Ledger.extends_deliver (l : Ledger) (pdus : List ℕ) : l.Extends (l.deliver pdus) where
  rooms := rfl
  handed := rfl
  delivered := subset_append_left ..
  replaced := Subset.refl _
  counted _ h := h

theorem Ledger.extends_replace (l : Ledger) (pdu : ℕ) (pdus : List ℕ) : l.Extends (l.replace pdu pdus) := by
  unfold Ledger.replace
  split
  · exact l.extends_deliver pdus
  · exact ⟨rfl, rfl, subset_append_left .., subset_cons_self .., fun _ h => h⟩

theorem Ledger.extends_setLastSuccessful (h : l.firstRecorded ≠ none) (s : ℕ) : l.Extends (l.setLastSuccessful s) := by
  refine ⟨rfl, rfl, Subset.refl _, Subset.refl _, ?_⟩
  rintro e ⟨f, hf, hlt⟩
  obtain ⟨f', hf'⟩ := Option.ne_none_iff_exists'.mp h
  refine ⟨f', hf', ?_⟩
  simp only [Ledger.setLastSuccessful, hf', Option.some_or, Option.some.injEq] at hf
  omega

theorem answered_deliver (he : e ∈ pdus) : Answered ev (l.deliver pdus) e :=
  .inl ⟨e, mem_append_right _ he, rfl, le_rfl⟩

theorem answered_replace (pdu : ℕ) (pdus : List ℕ) : Answered ev (l.replace pdu pdus) pdu := by
  unfold Ledger.replace
  split
  · exact answered_deliver ‹_›
  · exact .inr ⟨pdu, mem_cons_self, rfl, le_rfl⟩

theorem MarksInv.first_ne_none (h : MarksInv ev l waiting q) (hq : q.lastSuccessfulStreamOrdering = some x) :
    l.firstRecorded ≠ none :=
  fun hn => (h.cached x hq).2 (h.first_none.mp hn)

/-! ## Recording an event -/

theorem find_store (room : String) : (l.store (ev.room e) e).destinationRooms.find room =
    if room = ev.room e then some e else l.destinationRooms.find room := by
  rw [show (l.store (ev.room e) e).destinationRooms = l.destinationRooms.upsert (ev.room e) fun _ => e from rfl,
    Table.find_upsert]

section Store

variable (hmax : ∀ e' ∈ l.handed, e' ≤ e)
include hmax

theorem RowsInv.store (h : RowsInv ev l.destinationRooms l.handed) :
    RowsInv ev (l.store (ev.room e) e).destinationRooms (l.store (ev.room e) e).handed where
  row_le e' he' := by
    rw [find_store]
    split
    · exact ⟨e, rfl, by rcases mem_cons.mp he' with rfl | he'; exacts [le_rfl, hmax e' he']⟩
    · rcases mem_cons.mp he' with rfl | he'
      · exact absurd rfl ‹_›
      · exact h.row_le e' he'
  row_handed room r hr := by
    rw [find_store] at hr
    split at hr
    · obtain rfl := Option.some.inj hr
      exact ⟨mem_cons_self, Eq.symm ‹_›⟩
    · exact ⟨mem_cons_of_mem _ (h.row_handed room r hr).1, (h.row_handed room r hr).2⟩

theorem OrderInv.store (h : OrderInv ev l.destinationRooms l.handed waiting pending skipped)
    (hw : ∀ f, waiting' f ↔ f = e ∨ waiting f) (hfree : ∀ f, waiting f → ev.room f ≠ ev.room e) :
    OrderInv ev (l.store (ev.room e) e).destinationRooms (l.store (ev.room e) e).handed waiting' pending skipped where
  waiting_row f hf := by
    rw [find_store]
    rcases (hw f).mp hf with rfl | hf
    · rw [if_pos rfl]
    · rw [if_neg (hfree f hf)]
      exact h.waiting_row f hf
  waiting_last e' he' f hf := by
    rcases mem_cons.mp he' with rfl | hold
    · exact .inr ((hw e').mpr (.inl rfl))
    · rcases (hw f).mp hf with rfl | hf
      · exact .inl (hmax e' hold)
      · exact (h.waiting_last e' hold f hf).imp_right fun hwt => (hw e').mpr (.inr hwt)
  pending_handed p hp := mem_cons_of_mem _ (h.pending_handed p hp)
  pending_sorted := h.pending_sorted
  pending_le p hp f hf := by
    rcases (hw f).mp hf with rfl | hf
    · exact hmax p (h.pending_handed p hp)
    · exact h.pending_le p hp f hf
  skipped_handed := h.skipped_handed.imp_right fun hs => mem_cons_of_mem _ hs
  skipped_le f hf := by
    rcases (hw f).mp hf with rfl | hf
    · rcases h.skipped_handed with h0 | hs
      · omega
      · exact hmax skipped hs
    · exact h.skipped_le f hf

theorem Mark.store (hrows : RowsInv ev l.destinationRooms l.handed) (h : Mark ev l x) :
    Mark ev (l.store (ev.room e) e) x where
  handed := mem_cons_of_mem _ h.handed
  answered := h.answered
  ok e' he' hc := by
    rcases mem_cons.mp he' with rfl | he'
    · exact answered_or_above (hrows.store hmax) mem_cons_self h.answered (hmax x h.handed)
    refine (h.ok e' he' hc).imp id ?_
    rintro ⟨r, hr, hlt⟩
    -- a room's entry only goes up
    obtain ⟨r', hr', hrr'⟩ := (hrows.store hmax).row_le r (mem_cons_of_mem _ (hrows.row_handed _ r hr).1)
    exact ⟨r', (hrows.row_handed _ r hr).2 ▸ hr', by omega⟩

theorem Todo.store (h : Todo l.destinationRooms l.handed x todo) :
    Todo (l.store (ev.room e) e).destinationRooms (l.store (ev.room e) e).handed x todo where
  __ := h
  handed t ht := mem_cons_of_mem _ (h.handed t ht)
  rows room r hr := by
    rw [find_store] at hr
    split at hr
    · obtain rfl := Option.some.inj hr
      exact .inr (.inr fun t ht => hmax t (h.handed t ht))
    · exact h.rows room r hr

theorem Core.store (h : Core ev l waiting q loop) (hw : ∀ f, waiting' f ↔ f = e ∨ waiting f)
    (hfree : ∀ f, waiting f → ev.room f ≠ ev.room e) : Core ev (l.store (ev.room e) e) waiting' q loop := by
  have hnew : ∀ ps, Pending waiting' ps e := fun _ => .inr ((hw e).mpr (.inl rfl))
  have hold : ∀ ps e', Pending waiting ps e' → Pending waiting' ps e' :=
    fun _ e' he' => he'.imp_right fun hwt => (hw e').mpr (.inr hwt)
  refine ⟨h.rows.store hmax, h.order.store hmax hw hfree, ⟨?_, ?_, h.marks.first_none, ?_, ?_⟩, ?_⟩
  · exact fun s hs => (h.marks.recorded s hs).store hmax h.rows
  · exact fun c hc => ⟨(h.marks.cached c hc).1.store hmax h.rows, (h.marks.cached c hc).2⟩
  · intro hn e' he'
    rcases mem_cons.mp he' with rfl | he'
    · exact .inr (.inl (hnew _))
    · exact (h.marks.lost hn e' he').imp_right (Or.imp_left (hold _ e'))
  · intro hcu e' he' hc
    rcases mem_cons.mp he' with rfl | he'
    · exact .inr (hnew _)
    · exact (h.marks.normal hcu e' he' hc).imp_right (hold _ e')
  · have hloop := h.loop
    cases loop with
    | idle | retryLimiter | readLast | query _ _ | enter | sending _ => exact hloop
    | queried first last pdus =>
      refine ⟨hloop.1, hloop.2.1.store hmax, fun hnil e' he' hc => ?_⟩
      rcases mem_cons.mp he' with rfl | he'
      · exact .inr (.inl (hnew _))
      · exact (hloop.2.2 hnil e' he' hc).imp_right (Or.imp_left (hold _ e'))
    | catchUp | recordCatchUp => exact ⟨hloop.1, hloop.2.store hmax⟩
    | record pdus =>
      refine ⟨hloop.1, fun m hm => ⟨(hloop.2 m hm).1.store hmax h.rows, fun hn e' he' => ?_⟩⟩
      rcases mem_cons.mp he' with rfl | he'
      · exact .inr (.inl (hnew _))
      · exact ((hloop.2 m hm).2 hn e' he').imp_right (Or.imp_left (hold _ e'))

end Store

/-! ## An event reaches the queue -/

section Reach

variable (hw : ∀ f, waiting f ↔ f = e ∨ waiting' f) (hmin : ∀ f, waiting' f → e ≤ f)
include hw hmin

theorem OrderInv.done (h : OrderInv ev rooms handed waiting pending skipped) :
    OrderInv ev rooms handed waiting' pending skipped where
  __ := h
  waiting_row f hf := h.waiting_row f ((hw f).mpr (.inr hf))
  waiting_last e' he' f hf := by
    rcases h.waiting_last e' he' f ((hw f).mpr (.inr hf)) with hle | hwt
    · exact .inl hle
    · rcases (hw e').mp hwt with rfl | hwt
      · exact .inl (hmin f hf)
      · exact .inr hwt
  pending_le p hp f hf := h.pending_le p hp f ((hw f).mpr (.inr hf))
  skipped_le f hf := h.skipped_le f ((hw f).mpr (.inr hf))

theorem OrderInv.push (he : e ∈ handed) (h : OrderInv ev rooms handed waiting pending skipped) :
    OrderInv ev rooms handed waiting' (pending ++ [e]) skipped where
  __ := h.done hw hmin
  pending_handed := forall_mem_snoc.mpr ⟨h.pending_handed, he⟩
  pending_sorted := by
    refine pairwise_snoc.mpr ⟨h.pending_sorted, fun p hp => ?_⟩
    exact h.pending_le p hp e ((hw e).mpr (.inl rfl))
  pending_le p hp f hf := by
    rcases mem_snoc.mp hp with hp | rfl
    · exact h.pending_le p hp f ((hw f).mpr (.inr hf))
    · exact hmin f hf

theorem OrderInv.skip (he : e ∈ handed) (h : OrderInv ev rooms handed waiting pending skipped) :
    OrderInv ev rooms handed waiting' pending e where
  __ := h.done hw hmin
  skipped_handed := .inr he
  skipped_le := hmin

omit hmin in
theorem pending_push : Pending waiting' (pending ++ [e]) f ↔ Pending waiting pending f := by
  unfold Pending
  rw [hw f, mem_snoc, or_assoc]

section

variable (h : Core ev l waiting q loop)
include h

theorem Core.push (he : e ∈ l.handed) : Core ev l waiting' { q with pendingPdus := q.pendingPdus ++ [e] } loop := by
  refine ⟨h.rows, h.order.push hw hmin he, { h.marks with lost := ?_, normal := ?_ }, ?_⟩
  · intro hn e' he'
    rw [pending_push hw]
    rcases h.marks.lost hn e' he' with ha | hp | hlt
    · exact .inl ha
    · exact .inr (.inl hp)
    rcases h.order.waiting_last e' he' e ((hw e).mpr (.inl rfl)) with hle | hwt
    · rcases hle.eq_or_lt with rfl | hlt'
      · exact .inr (.inl (.inr ((hw e').mpr (.inl rfl))))
      exact .inr (.inr (forall_mem_snoc.mpr ⟨hlt, hlt'⟩))
    · exact .inr (.inl (.inr hwt))
  · intro hcu e' he' hc
    rw [pending_push hw]
    exact h.marks.normal hcu e' he' hc
  · have hloop := h.loop
    cases loop with
    | idle | retryLimiter | readLast | query _ _ | enter | catchUp _ _ _ _ | recordCatchUp _ _ _ => exact hloop
    | queried | record => simpa only [LoopInv, pending_push hw] using hloop
    | sending pdus => exact ⟨hloop.1, hloop.2.trans (prefix_append ..)⟩

theorem Core.skip (he : e ∈ l.handed) (hcu : q.catchingUp = true)
    (hlast : q.lastSuccessfulStreamOrdering = some x) : Core ev l waiting' { q with catchupLastSkipped := e } loop := by
  refine ⟨h.rows, h.order.skip hw hmin he, { h.marks with lost := ?_, normal := ?_ }, ?_⟩
  · exact fun hn => absurd hn (h.marks.first_ne_none hlast)
  · exact fun hcu' => absurd (hcu.symm.trans hcu') (by decide)
  have hloop := h.loop
  cases loop with
  | idle | retryLimiter | readLast | query _ _ | catchUp _ _ _ _ | recordCatchUp _ _ _ => exact hloop
  | enter => exact absurd (hcu.symm.trans hloop) (by decide)
  | sending | record => exact absurd (hcu.symm.trans hloop.1) (by decide)
  | queried first last pdus =>
    refine ⟨hloop.1, hloop.2.1, fun hnil e' he' hc => ?_⟩
    rcases hloop.2.2 hnil e' he' hc with ha | (hp | hwt) | hlt
    · exact .inl ha
    · exact .inr (.inl (.inl hp))
    · rcases (hw e').mp hwt with rfl | hwt
      · -- its room's entry is the event itself
        refine ((h.marks.cached last hloop.1).1.ok e' he' hc).imp_right ?_
        rintro ⟨r, hr, hlt⟩
        obtain rfl := Option.some.inj (hr.symm.trans (h.order.waiting_row e' ((hw e').mpr (.inl rfl))))
        exact .inr hlt
      · exact .inr (.inl (.inr hwt))
    · exact .inr (.inr (hlt.trans_le (h.order.skipped_le e ((hw e).mpr (.inl rfl)))))

theorem Core.sendPdu : Core ev l waiting' (q.sendPdu e) loop := by
  have he : e ∈ l.handed := (h.rows.row_handed _ e (h.order.waiting_row e ((hw e).mpr (.inl rfl)))).1
  unfold PerDestinationQueue.sendPdu
  split
  · exact h.push hw hmin he
  rename_i hcond
  simp only [Bool.or_eq_true, Bool.not_eq_true', Option.isNone_iff_eq_none, not_or, Bool.not_eq_false] at hcond
  obtain ⟨hcu, hlast⟩ := hcond
  obtain ⟨x, hx⟩ := Option.ne_none_iff_exists'.mp hlast
  exact h.skip hw hmin he hcu hx

theorem Core.withhold (hcu : q.catchingUp = true)
    (hlast : l.lastSuccessful ≠ none) (hloop : loop = .idle ∨ loop = .retryLimiter) : Core ev l waiting' q loop := by
  refine ⟨h.rows, h.order.done hw hmin, { h.marks with lost := ?_, normal := ?_ }, ?_⟩
  · exact fun hn => absurd (h.marks.first_none.mp hn) hlast
  · exact fun hcu' => absurd (hcu.symm.trans hcu') (by decide)
  · rcases hloop with rfl | rfl <;> trivial

end

end Reach

/-! ## The queue is emptied -/

theorem OrderInv.sublist (h : OrderInv ev rooms handed waiting pending skipped) (hsub : rest.Sublist pending) :
    OrderInv ev rooms handed waiting rest skipped where
  __ := h
  pending_handed p hp := h.pending_handed p (hsub.subset hp)
  pending_sorted := h.pending_sorted.sublist hsub
  pending_le p hp := h.pending_le p (hsub.subset hp)

theorem MarksInv.startCatchingUp (h : MarksInv ev l waiting q) : MarksInv ev l waiting q.startCatchingUp where
  __ := h
  lost _ e _ := .inr (.inr fun p hp => absurd hp not_mem_nil)
  normal hcu := absurd hcu (by simp [PerDestinationQueue.startCatchingUp])

theorem Core.startCatchingUp (h : Core ev l waiting q loop) (hloop : LoopInv ev l waiting q.startCatchingUp loop') :
    Core ev l waiting q.startCatchingUp loop' :=
  ⟨h.rows, h.order.sublist (nil_sublist _), h.marks.startCatchingUp, hloop⟩

theorem Core.restart (h : Core ev l waiting q loop) (hw : ∀ f, ¬ waiting' f) : Core ev l waiting' .new .idle where
  rows := h.rows
  order := ⟨fun f hf => absurd hf (hw f), fun _ _ f hf => absurd hf (hw f), by simp [new],
    by simp [new], by simp [new], .inl rfl, fun f hf => absurd hf (hw f)⟩
  marks := ⟨h.marks.recorded, fun _ hc => (by cases hc), h.marks.first_none,
    fun _ _ _ => .inr (.inr fun p hp => absurd hp not_mem_nil), fun hcu => absurd hcu (by decide)⟩
  loop := trivial

/-! ## The catch-up -/

theorem mem_getCatchUp : x ∈ getCatchUpRoomEventIds rooms last → last < x ∧ ∃ room, rooms.find room = some x := by
  intro hx
  have := mem_of_mem_take hx
  simp only [mem_insertionSort, mem_filter, mem_map, decide_eq_true_eq] at this
  obtain ⟨⟨row, hrow, rfl⟩, hlt⟩ := this
  exact ⟨hlt, row.1, Table.mem_rows.mp hrow⟩

theorem sorted_getCatchUp : (getCatchUpRoomEventIds rooms last).Pairwise (· ≤ ·) :=
  (pairwise_insertionSort (· ≤ ·) _).sublist (take_sublist ..)

theorem getCatchUp_complete {room : String} (hr : rooms.find room = some x) (hlt : last < x) :
    x ∈ getCatchUpRoomEventIds rooms last ∨
      getCatchUpRoomEventIds rooms last ≠ [] ∧ ∀ t ∈ getCatchUpRoomEventIds rooms last, t ≤ x := by
  unfold getCatchUpRoomEventIds
  generalize hl : ((rooms.rows.map Prod.snd).filter (last < ·)).insertionSort (· ≤ ·) = sorted
  have hx : x ∈ sorted := by
    rw [← hl, mem_insertionSort, mem_filter, mem_map]
    exact ⟨⟨(room, x), Table.mem_rows.mpr hr, rfl⟩, by simpa using hlt⟩
  have hsorted : sorted.Pairwise (· ≤ ·) := hl ▸ pairwise_insertionSort (· ≤ ·) _
  rw [← take_append_drop 50 sorted] at hx hsorted
  rcases mem_append.mp hx with hx | hx
  · exact .inl hx
  refine .inr ⟨?_, fun t ht => (pairwise_append.mp hsorted).2.2 t ht x hx⟩
  intro hnil
  rcases take_eq_nil_iff.mp hnil with h0 | h0
  · omega
  · simp [h0] at hx

variable {first : Bool}

theorem Core.runQuery (h : Core ev l waiting q (.query first last)) :
    Core ev l waiting q (.queried first last (getCatchUpRoomEventIds l.destinationRooms last)) := by
  refine ⟨h.rows, h.order, h.marks, h.loop, ⟨sorted_getCatchUp, ?_, ?_, ?_⟩, ?_⟩
  · intro t ht
    obtain ⟨-, room, hroom⟩ := mem_getCatchUp ht
    exact (h.rows.row_handed room t hroom).1
  · exact fun t ht => (mem_getCatchUp ht).1.le
  · intro room r hr
    rcases le_or_gt r last with hle | hlt
    · exact .inl hle
    · exact .inr ((getCatchUp_complete hr hlt).imp_right And.right)
  intro hnil e he hc
  refine ((h.marks.cached last h.loop).1.ok e he hc).imp_right ?_
  rintro ⟨r, hr, hlt⟩
  have := getCatchUp_complete hr hlt
  simp [hnil] at this

theorem Core.caughtUp (h : Core ev l waiting q (.queried first last []))
    (hskip : ¬ q.catchupLastSkipped > last) : Core ev l waiting { q with catchingUp := false } .enter := by
  refine ⟨h.rows, h.order, { h.marks with normal := ?_ }, rfl⟩
  intro _ e he hc
  rcases h.loop.2.2 rfl e he hc with ha | hp | hlt
  · exact .inl ha
  · exact .inr hp
  · exact absurd hlt hskip

theorem Core.nothingRecorded (h : Core ev l waiting q loop) (hnone : l.lastSuccessful = none) :
    Core ev l waiting { q with catchingUp := false } .enter := by
  refine ⟨h.rows, h.order, { h.marks with normal := ?_ }, rfl⟩
  rintro - e - ⟨f, hf, -⟩
  rw [h.marks.first_none.mpr hnone] at hf
  cases hf

theorem Core.readLast {s : ℕ} (h : Core ev l waiting q loop) (hs : l.lastSuccessful = some s) :
    Core ev l waiting { q with lastSuccessfulStreamOrdering := some s } (.query first s) := by
  refine ⟨h.rows, h.order, { h.marks with cached := ?_ }, rfl⟩
  intro c hc
  obtain rfl := Option.some.inj hc
  exact ⟨h.marks.recorded _ hs, by simp [hs]⟩

theorem MarksInv.extend (hext : l.Extends l') (hlast : l'.lastSuccessful = l.lastSuccessful)
    (hfirst : l'.firstRecorded = l.firstRecorded) (h : MarksInv ev l waiting q) : MarksInv ev l' waiting q where
  recorded s hs := (h.recorded s (hlast ▸ hs)).extend hext
  cached c hc := ⟨(h.cached c hc).1.extend hext, hlast ▸ (h.cached c hc).2⟩
  first_none := by rw [hlast, hfirst, h.first_none]
  lost hn e he := (h.lost (hfirst ▸ hn) e (hext.handed ▸ he)).imp_left (·.extend hext)
  normal hcu e he hc := (h.normal hcu e (hext.handed ▸ he) (hext.counted e hc)).imp_left (·.extend hext)

/-- The room's newest event is answered: every other room with something left is above it. -/
theorem Mark.next (hrows : RowsInv ev l.destinationRooms l.handed) (hext : l.Extends l') (h : Mark ev l last)
    (htodo : Todo l.destinationRooms l.handed last (pdu :: rest)) (hpdu : Answered ev l' pdu) : Mark ev l' pdu where
  handed := hext.handed ▸ htodo.handed pdu mem_cons_self
  answered := hpdu
  ok e he hc := by
    rw [hext.handed] at he
    rcases h.ok e he (hext.counted e hc) with ha | ⟨r, hr, hlt⟩
    · exact .inl (ha.extend hext)
    have hle : pdu ≤ r := by
      rcases htodo.rows _ r hr with hle | hmem | hall
      · omega
      · rcases mem_cons.mp hmem with rfl | hmem
        · exact le_rfl
        · exact rel_of_pairwise_cons htodo.sorted hmem
      · exact hall pdu mem_cons_self
    rcases hle.eq_or_lt with rfl | hlt'
    · obtain ⟨r', hr', her'⟩ := hrows.row_le e he
      obtain rfl := Option.some.inj (hr.symm.trans hr')
      exact .inl (hpdu.of_le (hrows.row_handed _ _ hr).2 her')
    · exact .inr ⟨r, hext.rooms ▸ hr, hlt'⟩

theorem Todo.tail (h : Todo rooms handed last (pdu :: rest)) : Todo rooms handed pdu rest where
  sorted := h.sorted.tail
  handed t ht := h.handed t (mem_cons_of_mem _ ht)
  above t ht := rel_of_pairwise_cons h.sorted ht
  rows room r hr := by
    rcases h.rows room r hr with hle | hmem | hall
    · exact .inl (hle.trans (h.above pdu mem_cons_self))
    · rcases mem_cons.mp hmem with rfl | hmem
      · exact .inl le_rfl
      · exact .inr (.inl hmem)
    · exact .inr (.inr fun t ht => hall t (mem_cons_of_mem _ ht))

theorem Core.catchUpSent (h : Core ev l waiting q (.catchUp first last pdu rest)) (pdus : List ℕ) :
    Core ev (l.replace pdu pdus) waiting { q with lastSuccessfulStreamOrdering := some pdu }
      (.recordCatchUp first pdu rest) := by
  have hext := l.extends_replace pdu pdus
  have hlast : (l.replace pdu pdus).lastSuccessful = l.lastSuccessful := by unfold Ledger.replace; split <;> rfl
  have hfirst : (l.replace pdu pdus).firstRecorded = l.firstRecorded := by unfold Ledger.replace; split <;> rfl
  have hmarks := h.marks.extend hext hlast hfirst
  have hmark := (h.marks.cached last h.loop.1)
  refine ⟨?_, ?_, { hmarks with cached := ?_ }, rfl, ?_⟩
  · rw [hext.rooms, hext.handed]
    exact h.rows
  · rw [hext.rooms, hext.handed]
    exact h.order
  · intro c hc
    obtain rfl := Option.some.inj hc
    exact ⟨hmark.1.next h.rows hext h.loop.2 (answered_replace _ pdus), hlast ▸ hmark.2⟩
  · rw [hext.rooms, hext.handed]
    exact h.loop.2.tail

theorem MarksInv.setLastSuccessful (h : MarksInv ev l waiting q) (hfirst : l.firstRecorded ≠ none)
    (hm : Mark ev l m) : MarksInv ev (l.setLastSuccessful m) waiting q := by
  have hext := Ledger.extends_setLastSuccessful hfirst m
  refine ⟨?_, fun c hc => ⟨(h.cached c hc).1.extend hext, Option.some_ne_none m⟩, ?_, ?_, ?_⟩
  · intro s hs
    obtain rfl := Option.some.inj hs
    exact hm.extend hext
  · simp [Ledger.setLastSuccessful]
  · intro hn
    simp [Ledger.setLastSuccessful] at hn
  · exact fun hcu e he hc => h.normal hcu e he (hext.counted e hc)

theorem Core.recordCatchUp (h : Core ev l waiting q (.recordCatchUp first pdu rest))
    (hloop : LoopInv ev (l.setLastSuccessful pdu) waiting q loop') :
    Core ev (l.setLastSuccessful pdu) waiting q loop' :=
  ⟨h.rows, h.order, h.marks.setLastSuccessful (h.marks.first_ne_none h.loop.1) (h.marks.cached pdu h.loop.1).1, hloop⟩

/-! ## Transactions of the queue -/

theorem Core.sent (h : Core ev l waiting q (.sending pdus)) :
    Core ev (l.deliver pdus) waiting { q with pendingPdus := q.pendingPdus.drop pdus.length } (.record pdus) := by
  obtain ⟨hcu, rest, hrest⟩ := h.loop
  have hdrop : q.pendingPdus.drop pdus.length = rest := by rw [← hrest, drop_left]
  rw [hdrop]
  have hext := l.extends_deliver pdus
  have hmarks := h.marks.extend hext rfl rfl
  have hsub : rest.Sublist q.pendingPdus := hrest ▸ sublist_append_right ..
  -- what was in the transaction is answered, and the rest is where it was
  have hpending : ∀ e, Pending waiting q.pendingPdus e → Answered ev (l.deliver pdus) e ∨ Pending waiting rest e := by
    rintro e (he | he)
    · rcases mem_append.mp (hrest ▸ he) with he | he
      · exact .inl (answered_deliver he)
      · exact .inr (.inl he)
    · exact .inr (.inr he)
  have hnormal : ∀ e ∈ l.handed, Counted l e → Answered ev (l.deliver pdus) e ∨ Pending waiting rest e :=
    fun e he hc => (hmarks.normal hcu e he hc).elim .inl (hpending e)
  have hlost : l.firstRecorded = none → ∀ e ∈ l.handed,
      Answered ev (l.deliver pdus) e ∨ Pending waiting rest e ∨ ∀ p ∈ q.pendingPdus, e < p := by
    intro hn e he
    rcases hmarks.lost hn e he with ha | hp | hlt
    · exact .inl ha
    · exact (hpending e hp).imp_right .inl
    · exact .inr (.inr hlt)
  refine ⟨h.rows, h.order.sublist hsub, { hmarks with lost := ?_, normal := fun _ => hnormal },
    hcu, fun m hm => ?_⟩
  · exact fun hn e he => (hlost hn e he).imp_right (Or.imp_right fun hlt p hp => hlt p (hsub.subset hp))
  have hmem : m ∈ pdus := mem_of_getLast? hm
  have hmp : m ∈ q.pendingPdus := hrest ▸ mem_append_left _ hmem
  refine ⟨⟨h.order.pending_handed m hmp, answered_deliver hmem, fun e he hc => ?_⟩, fun hn e he => ?_⟩
  · rcases hnormal e he hc with ha | hr | hwt
    · exact .inl ha
    · have hle : m ≤ e := (pairwise_append.mp (hrest ▸ h.order.pending_sorted)).2.2 m hmem e hr
      exact answered_or_above h.rows he (answered_deliver hmem) hle
    · exact answered_or_above h.rows he (answered_deliver hmem) (h.order.pending_le m hmp e hwt)
  · exact (hlost hn e he).imp_right (Or.imp_right fun hlt => (hlt m hmp).le)

theorem MarksInv.setFirst (hrows : RowsInv ev l.destinationRooms l.handed) (h : MarksInv ev l waiting q)
    (hfirst : l.firstRecorded = none) (hm : Mark ev l m)
    (hlost : ∀ e ∈ l.handed, Answered ev l e ∨ Pending waiting q.pendingPdus e ∨ e ≤ m) :
    MarksInv ev (l.setLastSuccessful m) waiting q := by
  have hcounted : ∀ e, Counted (l.setLastSuccessful m) e → m < e := by
    rintro e ⟨f, hf, hlt⟩
    simp only [Ledger.setLastSuccessful, hfirst, Option.none_or, Option.some.injEq] at hf
    omega
  refine ⟨?_, fun c hc => absurd hfirst (h.first_ne_none hc), ?_, ?_, ?_⟩
  · intro s hs
    obtain rfl := Option.some.inj hs
    exact ⟨hm.handed, hm.answered, fun e he hc => answered_or_above hrows he hm.answered (hcounted e hc).le⟩
  · simp [Ledger.setLastSuccessful]
  · intro hn
    simp [Ledger.setLastSuccessful] at hn
  intro _ e he hc
  rcases hlost e he with ha | hp | hle
  · exact .inl ha
  · exact .inr hp
  · exact absurd (hcounted e hc) (by omega)

theorem Core.record (h : Core ev l waiting q (.record pdus)) :
    Core ev (pdus.getLast?.elim l l.setLastSuccessful) waiting q .enter := by
  cases hm : pdus.getLast? with
  | none => exact ⟨h.rows, h.order, h.marks, h.loop.1⟩
  | some m =>
    obtain ⟨hmark, hlost⟩ := h.loop.2 m hm
    refine ⟨h.rows, h.order, ?_, h.loop.1⟩
    by_cases hfirst : l.firstRecorded = none
    · exact h.marks.setFirst h.rows hfirst hmark (hlost hfirst)
    · exact h.marks.setLastSuccessful hfirst hmark

end Lemmas

end Synapse.Federation
