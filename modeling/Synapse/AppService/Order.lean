import Synapse.AppService.Transactions

/-!
# Synapse.AppService.Order — the order in which a service acknowledges its transactions

* `Orderly`: the handlers of failed sends are apart from the reads of sends and from recoverers that end.
* `Apart`: the sender pushes only while there is neither a handler nor a recoverer, and there is one recoverer at most.
* `Ordered`: the acknowledged transactions are older than the stored ones.
* **`acked_in_order`**: in orderly runs transactions are acknowledged in order.
* `Overtaking.overtaken`: a run in which they are not.
-/

namespace Synapse.AppService.Transactions

open Lib Finset Option

/-- **The handlers are apart.**  No send reads the state while a handler is about to mark the service as down.  No handler
runs while a recoverer is ending.  The service can be marked as up. -/
def HandlersApart (s : State) : Action → Prop
  | .sender .read => .settingDown ∉ s.handlers
  | .sender .raised => ∀ r ∈ s.recoverers, ¬ r.Ending
  | .recoverer _ .fetched => s.txns = ∅ → s.handlers = []
  | .recoverer i .raised => s.recoverers[i]? ≠ some .markingUp
  | _ => True

instance (s : State) (a : Action) : Decidable (HandlersApart s a) := by
  rcases a with a | ⟨_, a⟩ | ⟨_, a⟩ <;> cases a <;> dsimp only [HandlersApart] <;> infer_instance

def Orderly (s : State) (a : Action) : Prop := Undisturbed s a ∧ HandlersApart s a

instance (s : State) (a : Action) : Decidable (Orderly s a) := inferInstanceAs (Decidable (_ ∧ _))

def runOrderly (s : State) : List Action → Option State :=
  List.foldlM (fun s a => if Orderly s a then step s a else none) s

/-! ## Who may push -/

/-- A send that has read that the service is up. -/
def SenderPhase.Pushing : SenderPhase → Prop
  | .creating serviceIsUp => serviceIsUp = true
  | .sending _ => True
  | .completing _ => True
  | _ => False

theorem SenderPhase.owns_eq_empty {p : SenderPhase} (h : ¬ p.Pushing) : p.owns = ∅ := by
  cases p with
  | sending | completing => exact absurd trivial h
  | idle | reading | creating => rfl

/-- There is one recoverer at most, while the service is down.  A send pushes only while the service is up and no other send
has failed. -/
structure Apart (serviceState : Option ServiceState) (sender : SenderPhase) (handlers : List HandlerPhase)
    (recoverers : List RecovererPhase) (registered : Bool) : Prop where
  one : recoverers = [] ∧ registered = false ∨ ∃ r, recoverers = [r] ∧ (registered = true ↔ r ≠ .markingUp)
  ending : ∀ r ∈ recoverers, r.Ending → handlers = []
  up : serviceState ≠ some .down → recoverers = [] ∧ ∀ p ∈ handlers, p = .settingDown
  pushing : sender.Pushing → serviceState ≠ some .down ∧ handlers = []
  storing : sender = .creating false → serviceState = some .down

variable {p : RecovererPhase}

section Apart

variable {serviceState : Option ServiceState} {sender : SenderPhase} {handlers : List HandlerPhase}
  {recoverers : List RecovererPhase} {registered : Bool}

variable (h : Apart serviceState sender handlers recoverers registered)
include h

theorem Apart.eq_singleton {i : ℕ}
    (hi : recoverers[i]? = some p) : i = 0 ∧ recoverers = [p] ∧ (registered = true ↔ p ≠ .markingUp) := by
  rcases h.one with ⟨rfl, _⟩ | ⟨r, rfl, hreg⟩
  · simp at hi
  cases i with
  | zero =>
    obtain rfl : r = p := by simpa using hi
    exact ⟨rfl, rfl, hreg⟩
  | succ i => simp at hi

theorem Apart.send_on {sender' : SenderPhase}
    (hpushing : sender'.Pushing → sender.Pushing) (hstoring : sender' ≠ .creating false) :
    Apart serviceState sender' handlers recoverers registered :=
  ⟨h.one, h.ending, h.up, fun hp => h.pushing (hpushing hp), fun hs => absurd hs hstoring⟩

theorem Apart.fail (hlive : ∀ r ∈ recoverers, ¬ r.Ending) :
    Apart serviceState .idle (handlers ++ [.settingDown]) recoverers registered where
  one := h.one
  ending r hr hend := absurd hend (hlive r hr)
  up hup := by
    obtain ⟨hnil, hall⟩ := h.up hup
    exact ⟨hnil, forall_mem_snoc.mpr ⟨hall, rfl⟩⟩
  pushing := nofun
  storing := nofun

theorem Apart.no_recoverer (hp : sender.Pushing) : recoverers = [] := (h.up (h.pushing hp).1).1

theorem Apart.retry_on {i : ℕ} {q : RecovererPhase}
    (hi : recoverers[i]? = some p) (hp : p ≠ .markingUp) (hq : q ≠ .markingUp) (hending : q.Ending → handlers = []) :
    Apart serviceState sender handlers (recoverers.set i q) registered := by
  obtain ⟨rfl, rfl, hreg⟩ := h.eq_singleton hi
  refine ⟨.inr ⟨q, rfl, iff_of_true (hreg.mpr hp) hq⟩, ?_, fun hup => absurd (h.up hup).1 (by simp), h.pushing,
    h.storing⟩
  intro r hr hend
  cases List.mem_singleton.mp hr
  exact hending hend

end Apart

def State.Apart (s : State) : Prop :=
  Transactions.Apart s.serviceState s.sender s.handlers s.recoverers s.registered

variable {s s' : State}

theorem senderStep_apart (h : s.Apart) {a : SenderAction} (ha : HandlersApart s (.sender a))
    (hstep : senderStep s s.sender a = some s') : s'.Apart := by
  unfold State.Apart at h ⊢
  generalize s.sender = p at h hstep
  cases senderStep_cases hstep with
  | send | nothing | completed => exact h.send_on nofun nofun
  | readRaised | createRaised | completeRaised => exact h.fail ha
  | read =>
    have hhandlers : .settingDown ∉ s.handlers := ha
    refine ⟨h.one, h.ending, h.up, fun hpush => ?_, fun hdown => ?_⟩
    · have hup := s.isServiceUp_iff.mp hpush
      refine ⟨hup, List.eq_nil_iff_forall_not_mem.mpr fun p hmem => ?_⟩
      exact hhandlers ((h.up hup).2 p hmem ▸ hmem)
    · by_contra hup
      simp [s.isServiceUp_iff.mpr hup] at hdown
  | @created serviceIsUp id =>
    cases serviceIsUp
    · exact h.send_on nofun nofun
    · exact h.send_on (fun _ => rfl) nofun
  | pushed => exact h.send_on id nofun
  | refused =>
    refine h.fail fun r hr => ?_
    rw [h.no_recoverer trivial] at hr
    cases hr

variable {i : ℕ}

theorem handlerStep_apart (h : s.Apart) {p : HandlerPhase} (hi : s.handlers[i]? = some p)
    {a : HandlerAction} (hcalm : Undisturbed s (.handler i a)) (hstep : handlerStep s i p a = some s') : s'.Apart := by
  -- no send is pushing, and no recoverer is ending
  have hmem : p ∈ s.handlers := List.mem_of_getElem? hi
  have hsome : s.handlers ≠ [] := List.ne_nil_of_mem hmem
  have hquiet : ¬ s.sender.Pushing := fun hpush => hsome (h.pushing hpush).2
  have hlive : ∀ r ∈ s.recoverers, ¬ r.Ending := fun r hr hend => hsome (h.ending r hr hend)
  cases handlerStep_cases hstep with
  | markedDown =>
    exact ⟨h.one, fun r hr hend => absurd hend (hlive r hr), absurd rfl,
      fun hpush => absurd hpush hquiet, fun _ => rfl⟩
  | raised => exact hcalm.elim
  | startRecoverer =>
    have hdown : s.serviceState = some .down := by
      by_contra hup
      cases (h.up hup).2 _ hmem
    unfold State.startRecoverer
    split_ifs with hreg
    · exact ⟨h.one, fun r hr hend => absurd hend (hlive r hr), absurd hdown,
        fun hpush => absurd hpush hquiet, h.storing⟩
    have hnone : s.recoverers = [] := by
      rcases h.one with ⟨hnil, _⟩ | ⟨r, hr, hreg'⟩
      · exact hnil
      have hmark : r = .markingUp := by
        by_contra hne
        exact hreg (hreg'.mpr hne)
      exact absurd (.inr hmark) (hlive r (by simp [hr]))
    refine ⟨.inr ⟨.waiting, by simp [hnone], by simp⟩, fun r hr hend => ?_, absurd hdown,
      fun hpush => absurd hpush hquiet, h.storing⟩
    rw [show s.recoverers ++ [.waiting] = [.waiting] by simp [hnone]] at hr
    cases List.mem_singleton.mp hr
    exact absurd hend (by decide)

theorem recovererStep_apart (hinv : Inv s) (h : s.Apart)
    (hi : s.recoverers[i]? = some p) {a : RecovererAction} (ha : HandlersApart s (.recoverer i a))
    (hstep : recovererStep s i p a = some s') : s'.Apart := by
  obtain ⟨rfl, hone, hreg⟩ := h.eq_singleton hi
  cases recovererStep_cases hstep with
  | retry | found | fetchRaised | pushed | refused | completed | completeRaised | unregistered =>
    exact h.retry_on hi (by simp) (by simp) (by simp [RecovererPhase.Ending])
  | noneFound hempty => exact h.retry_on hi (by simp) (by simp) fun _ => ha hempty
  | onRecovered =>
    have hhandlers := h.ending _ (List.mem_of_getElem? hi) (.inl rfl)
    rw [hone]
    exact ⟨.inr ⟨.markingUp, rfl, by simp⟩, fun _ _ _ => hhandlers,
      fun hup => absurd (h.up hup).1 (by simp [hone]), h.pushing, h.storing⟩
  | markedUp =>
    have hmem := List.mem_of_getElem? hi
    have hhandlers := h.ending _ hmem (.inr rfl)
    have hcreating := (hinv.ending _ hmem (.inr rfl)).2
    rw [hone, hhandlers]
    refine ⟨.inl ⟨rfl, ?_⟩, by simp, fun _ => ⟨rfl, by simp⟩, fun _ => ⟨by simp, rfl⟩, fun hc => absurd ⟨_, hc⟩ hcreating⟩
    by_contra hne
    exact hreg.mp (by simpa using hne) rfl
  | markRaised => exact absurd hi ha

/-! ## What has been acknowledged -/

/-- A transaction may be acknowledged again after itself if it could not be deleted. -/
def Before (undeleted : Finset ℕ) (a b : ℕ) : Prop := a < b ∨ a = b ∧ a ∈ undeleted

/-- Transactions were acknowledged in order, and all before those that are stored.  The stored transactions among the
acknowledged ones are being deleted, or could not be. -/
structure Ordered (txns : Finset ℕ) (lastId : ℕ) (acked : List ℕ) (undeleted : Finset ℕ) (deleting : ℕ → Prop) :
    Prop where
  sorted : acked.Pairwise (Before undeleted)
  txns_le : ∀ u ∈ txns, u ≤ lastId
  acked_le : ∀ a ∈ acked, a ≤ lastId
  ahead : ∀ a ∈ acked, ∀ u ∈ txns, a < u ∨ a = u ∧ (a ∈ undeleted ∨ deleting a)

variable {id : ℕ}

namespace Ordered

variable {txns : Finset ℕ} {lastId : ℕ} {acked : List ℕ} {undeleted : Finset ℕ} {deleting deleting' : ℕ → Prop}

section

variable (h : Ordered txns lastId acked undeleted deleting)
include h

theorem congr (hd : ∀ a, deleting a → deleting' a) : Ordered txns lastId acked undeleted deleting' :=
  { h with ahead := fun a ha u hu => (h.ahead a ha u hu).imp_right (.imp_right (.imp_right (hd a))) }

theorem create (hid : lastId < id) : Ordered (insert id txns) id acked undeleted deleting where
  sorted := h.sorted
  txns_le u hu := by
    rcases mem_insert.mp hu with rfl | hu
    · exact le_rfl
    · exact (h.txns_le u hu).trans hid.le
  acked_le a ha := (h.acked_le a ha).trans hid.le
  ahead a ha u hu := by
    rcases mem_insert.mp hu with rfl | hu
    · exact .inl ((h.acked_le a ha).trans_lt hid)
    · exact h.ahead a ha u hu

theorem ack (hmem : id ∈ txns) (hmin : ∀ u ∈ txns, id ≤ u) (hnone : ∀ a, ¬ deleting a) :
    Ordered txns lastId (acked ++ [id]) undeleted (· = id) where
  sorted := by
    refine pairwise_snoc.mpr ⟨h.sorted, fun a ha => ?_⟩
    exact (h.ahead a ha id hmem).imp_right (.imp_right (Or.resolve_right · (hnone a)))
  txns_le := h.txns_le
  acked_le := forall_mem_snoc.mpr ⟨h.acked_le, h.txns_le id hmem⟩
  ahead a ha u hu := by
    rcases mem_snoc.mp ha with ha | rfl
    · exact (h.ahead a ha u hu).imp_right (.imp_right (.imp_right (absurd · (hnone a))))
    · exact (hmin u hu).lt_or_eq.imp_right fun heq => ⟨heq, .inr rfl⟩

end

theorem complete (h : Ordered txns lastId acked undeleted (· = id)) :
    Ordered (txns.erase id) lastId acked undeleted deleting where
  __ := h
  txns_le u hu := h.txns_le u (mem_of_mem_erase hu)
  ahead a ha u hu := by
    obtain ⟨hne, hu⟩ := mem_erase.mp hu
    refine (h.ahead a ha u hu).imp_right fun ⟨heq, hor⟩ => ⟨heq, hor.imp_right fun hid => ?_⟩
    exact absurd (heq.symm.trans hid) hne

theorem keep (h : Ordered txns lastId acked undeleted (· = id)) :
    Ordered txns lastId acked (insert id undeleted) deleting where
  __ := h
  sorted := h.sorted.imp (.imp_right (.imp_right (mem_insert_of_mem ·)))
  ahead a ha u hu := (h.ahead a ha u hu).imp_right (.imp_right fun hor => .inl (mem_insert.mpr hor.symm))

end Ordered

def Deleting (sender : SenderPhase) (recoverers : List RecovererPhase) (a : ℕ) : Prop :=
  sender = .completing a ∨ .completing a ∈ recoverers

/-- Besides, the transactions that a send or a recoverer pushes are stored, and that of a recoverer is the oldest. -/
structure Sorted (txns : Finset ℕ) (lastId : ℕ) (acked : List ℕ) (undeleted : Finset ℕ) (sender : SenderPhase)
    (recoverers : List RecovererPhase) : Prop where
  ordered : Ordered txns lastId acked undeleted (Deleting sender recoverers)
  owned : sender.owns ⊆ txns
  oldest : ∀ id, .sending id ∈ recoverers ∨ .completing id ∈ recoverers → id ∈ txns ∧ ∀ u ∈ txns, id ≤ u

def State.Sorted (s : State) : Prop := Transactions.Sorted s.txns s.lastId s.acked s.undeleted s.sender s.recoverers

structure OrderlyInv (s : State) : Prop where
  inv : Inv s
  apart : s.Apart
  sorted : s.Sorted

theorem OrderlyInv.txns_eq (h : OrderlyInv s) (hp : s.sender.Pushing) : s.txns = s.sender.owns := by
  refine subset_antisymm ?_ h.sorted.owned
  rcases h.inv.settled with hne | hne | ⟨hsub, _, _⟩
  · exact absurd (h.apart.pushing hp).2 hne
  · exact absurd (h.apart.no_recoverer hp) hne
  · exact hsub

section Sorted

variable {txns : Finset ℕ} {lastId : ℕ} {acked : List ℕ} {undeleted : Finset ℕ} {sender : SenderPhase}
  {recoverers : List RecovererPhase}

theorem Sorted.send_on (h : Sorted txns lastId acked undeleted sender recoverers) {sender' : SenderPhase}
    (hne : ∀ a, sender ≠ .completing a) (howns : sender'.owns ⊆ txns) :
    Sorted txns lastId acked undeleted sender' recoverers :=
  ⟨h.ordered.congr fun a hd => .inr (hd.resolve_left (hne a)), howns, h.oldest⟩

theorem Sorted.retry_on (h : Sorted txns lastId acked undeleted sender recoverers) {recoverers' : List RecovererPhase}
    (hne : ∀ a, .completing a ∉ recoverers)
    (holdest : ∀ id, .sending id ∈ recoverers' ∨ .completing id ∈ recoverers' → id ∈ txns ∧ ∀ u ∈ txns, id ≤ u) :
    Sorted txns lastId acked undeleted sender recoverers' :=
  ⟨h.ordered.congr fun a hd => .inl (hd.resolve_right (hne a)), h.owned, holdest⟩

end Sorted

theorem deleting_sender {recoverers : List RecovererPhase} {a : ℕ} (hnil : recoverers = [])
    (h : Deleting (.completing id) recoverers a) : a = id := by
  subst hnil
  rcases h with h | h
  · exact (SenderPhase.completing.inj h).symm
  · cases h

theorem deleting_recoverer {sender : SenderPhase} {a : ℕ} (hne : ∀ a, sender ≠ .completing a)
    (h : Deleting sender [.completing id] a) : a = id := by
  rcases h with h | h
  · exact absurd h (hne a)
  · exact RecovererPhase.completing.inj (List.mem_singleton.mp h)

section

variable (h : OrderlyInv s)
include h

theorem senderStep_sorted {a : SenderAction} (hstep : senderStep s s.sender a = some s') : s'.Sorted := by
  have hsorted := h.sorted
  have htxns := h.txns_eq
  have hnone := h.apart.no_recoverer
  unfold State.Sorted at hsorted ⊢
  generalize s.sender = p at hsorted hstep htxns hnone
  cases senderStep_cases hstep with
  | send | nothing | read | readRaised | createRaised | refused =>
    exact hsorted.send_on nofun (empty_subset _)
  | @created serviceIsUp id hid =>
    refine ⟨(hsorted.ordered.create hid).congr fun a hd => .inr (hd.resolve_left nofun), ?_, fun b hb => ?_⟩
    · cases serviceIsUp
      · exact empty_subset _
      · exact singleton_subset_iff.mpr (mem_insert_self id _)
    obtain ⟨hmem, hmin⟩ := hsorted.oldest b hb
    refine ⟨mem_insert_of_mem hmem, fun u hu => ?_⟩
    rcases mem_insert.mp hu with rfl | hu
    · exact (hsorted.ordered.txns_le b hmem).trans hid.le
    · exact hmin u hu
  | @pushed id =>
    have heq : s.txns = {id} := htxns trivial
    rw [hnone trivial, heq] at hsorted ⊢
    have hack := hsorted.ordered.ack (mem_singleton_self id)
      (fun u hu => (mem_singleton.mp hu).ge) (fun a hd => hd.elim nofun nofun)
    exact ⟨hack.congr fun a ha => .inl (by rw [ha]), subset_rfl, nofun⟩
  | @completed id =>
    have hdel := hsorted.ordered.congr fun a hd => deleting_sender (hnone trivial) hd
    rw [hnone trivial]
    exact ⟨hdel.complete, empty_subset _, nofun⟩
  | @completeRaised id =>
    have hdel := hsorted.ordered.congr fun a hd => deleting_sender (hnone trivial) hd
    exact ⟨hdel.keep, empty_subset _, hsorted.oldest⟩

theorem recovererStep_sorted
    (hi : s.recoverers[i]? = some p) {a : RecovererAction} (hstep : recovererStep s i p a = some s') : s'.Sorted := by
  obtain ⟨rfl, hone, hreg⟩ := h.apart.eq_singleton hi
  have hquiet : ¬ s.sender.Pushing := fun hpush => absurd (h.apart.no_recoverer hpush) (by simp [hone])
  have hidle : ∀ a, s.sender ≠ .completing a := fun a ha => hquiet (by rw [ha]; trivial)
  have hsorted := h.sorted
  unfold State.Sorted at hsorted ⊢
  cases recovererStep_cases hstep with
  | retry | noneFound | fetchRaised | refused | onRecovered | unregistered | markedUp | markRaised =>
    rw [hone] at hsorted ⊢
    exact hsorted.retry_on (by simp) (by simp)
  | found hne =>
    rw [hone] at hsorted ⊢
    refine hsorted.retry_on (by simp) fun id hid => ?_
    obtain rfl : id = s.txns.min' hne := by simpa using hid
    exact ⟨min'_mem _ hne, min'_le _⟩
  | @pushed id =>
    rw [hone] at hsorted ⊢
    obtain ⟨hmem, hmin⟩ := hsorted.oldest id (.inl (by simp))
    have hack := hsorted.ordered.ack hmem hmin (fun a hd => hd.elim (hidle a) (by simp))
    refine ⟨hack.congr fun a ha => .inr (by simp [ha]), hsorted.owned, fun b hb => ?_⟩
    obtain rfl : b = id := by simpa using hb
    exact ⟨hmem, hmin⟩
  | @completed id =>
    rw [hone] at hsorted ⊢
    have hdel := hsorted.ordered.congr fun a hd => deleting_recoverer hidle hd
    exact ⟨hdel.complete, SenderPhase.owns_eq_empty hquiet ▸ empty_subset _, by simp⟩
  | @completeRaised id =>
    rw [hone] at hsorted ⊢
    have hdel := hsorted.ordered.congr fun a hd => deleting_recoverer hidle hd
    exact ⟨hdel.keep, hsorted.owned, by simp⟩

theorem handlerStep_sorted {p : HandlerPhase} {a : HandlerAction}
    (hstep : handlerStep s i p a = some s') : s'.Sorted := by
  have hsorted := h.sorted
  cases handlerStep_cases hstep with
  | markedDown | raised => exact hsorted
  | startRecoverer =>
    unfold State.startRecoverer
    split_ifs
    · exact hsorted
    · refine ⟨hsorted.ordered.congr fun a hd => hd.imp_right (List.mem_append_left _), hsorted.owned, fun id hid => ?_⟩
      exact hsorted.oldest id (by simpa using hid)

theorem step_orderlyInv {a : Action} (ha : Orderly s a) (hstep : step s a = some s') : OrderlyInv s' := by
  have hinv : Inv s' := step_inv h.inv ha.1 hstep
  cases a with
  | sender a => exact ⟨hinv, senderStep_apart h.apart ha.2 hstep, senderStep_sorted h hstep⟩
  | handler i a =>
    obtain ⟨p, hi, hstep⟩ := bind_eq_some_iff.mp hstep
    exact ⟨hinv, handlerStep_apart h.apart hi ha.1 hstep, handlerStep_sorted h hstep⟩
  | recoverer i a =>
    obtain ⟨p, hi, hstep⟩ := bind_eq_some_iff.mp hstep
    exact ⟨hinv, recovererStep_apart h.inv h.apart hi ha.2 hstep, recovererStep_sorted h hi hstep⟩

theorem runOrderly_inv {actions : List Action} (hrun : runOrderly s actions = some s') : OrderlyInv s' :=
  guarded_preserves (fun hs ha hstep => step_orderlyInv hs ha hstep) h hrun

end

theorem State.Starting.orderlyInv (hs : s.Starting) : OrderlyInv s := by
  rcases hs with ⟨serviceState, lastId, hne, rfl⟩ | ⟨txns, lastId, hle, rfl⟩
  · exact ⟨startUp_inv hne lastId, ⟨.inl ⟨rfl, rfl⟩, nofun, fun _ => ⟨rfl, nofun⟩, nofun, nofun⟩,
      ⟨⟨.nil, nofun, nofun, nofun⟩, subset_rfl, nofun⟩⟩
  · exact ⟨startDown_inv txns lastId, ⟨.inl ⟨rfl, rfl⟩, nofun, absurd rfl, nofun, nofun⟩,
      ⟨⟨.nil, hle, nofun, nofun⟩, empty_subset _, nofun⟩⟩

/-- Transactions have been acknowledged in increasing order, again only those that could not be deleted, and none before an
older one that is unsent. -/
structure AckedInOrder (s : State) : Prop where
  increasing : s.acked.Pairwise (Before s.undeleted)
  none_skipped : ∀ a ∈ s.acked, ∀ u ∈ s.txns, u ∉ s.acked → a < u

/-- **In every state of an orderly run, transactions have been acknowledged in order.** -/
theorem acked_in_order {s s' : State} (hs : s.Starting) (actions : List Action)
    (hrun : runOrderly s actions = some s') : AckedInOrder s' := by
  have h := (runOrderly_inv hs.orderlyInv hrun).sorted.ordered
  refine ⟨h.sorted, fun a ha u hu hne => (h.ahead a ha u hu).resolve_right ?_⟩
  rintro ⟨rfl, _⟩
  exact hne ha

namespace Overtaking

/-- A transaction fails, and the next send waits until the service is marked as down. -/
def waiting : List Action :=
  [.sender (.send true), .sender .read, .sender (.created 1), .sender (.pushed false), .sender (.send true),
    .handler 0 .markedDown, .sender .read, .sender (.created 2), .handler 0 .startRecoverer, .recoverer 0 .retry,
    .recoverer 0 .fetched, .recoverer 0 (.pushed true), .recoverer 0 .completed, .recoverer 0 .fetched,
    .recoverer 0 (.pushed true)]

theorem waiting_in_order : ∃ s, runOrderly (.startUp none 0) waiting = some s ∧ s.acked = [1, 2] ∧ AckedInOrder s :=
  ⟨_, rfl, rfl, acked_in_order (.inl ⟨none, 0, nofun, rfl⟩) waiting rfl⟩

/-- A transaction fails, and the next send reads the state before the service is marked as down. -/
def overtaking : List Action :=
  [.sender (.send true), .sender .read, .sender (.created 1), .sender (.pushed false), .sender (.send true),
    .sender .read, .sender (.created 2), .sender (.pushed true)]

/-- **The second transaction is acknowledged while the first is unsent.** -/
theorem overtaken : ∃ s, run (.startUp none 0) overtaking = some s ∧ s.acked = [2] ∧ 1 ∈ s.txns :=
  ⟨_, rfl, rfl, by decide⟩

end Overtaking

end Synapse.AppService.Transactions
