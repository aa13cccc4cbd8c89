import Mathlib.Data.Prod.Lex
import Mathlib.Data.String.Basic
import Synapse.Event
import Synapse.Lib.Dict

/-!
# Synapse.ChildEvents — the order in which the children of a space are listed

`RoomSummaryHandler._get_child_events` and `_child_events_comparison_key` of `synapse/handlers/room_summary.py`.  The
room id of the key is that of the child event, which is the room id of the space.

* `getChildEvents`: the child events, sorted; the sort is stable.
* **`child_order_fixed_iff`**: the children are listed in one order, however they are loaded, exactly if those listed differ
  in order or time.
* `Siblings.load_order_shows`: two children that do not.
-/

namespace Synapse.RoomSummary

open List

/-- `_has_valid_via` -/
def hasValidVia (e : Event) : Bool :=
  match e.contentGet "via" .null with
  | .arr via => via ≠ [] ∧ via.all fun v => match v with
    | .str _ => true
    | _ => false
  | _ => false

/-- The `order` of a child, if it is valid. -/
def validOrder (e : Event) : Option String :=
  match e.contentGet "order" .null with
  | .str order => if order.length ≤ 50 ∧ order.toList.all fun c => ' ' ≤ c ∧ c ≤ '~' then some order else none
  | _ => none

/-- Whether a child has no order, its order and its time; `None` is compared with `None` alone. -/
def place (e : Event) : Bool ×ₗ String ×ₗ ℤ :=
  toLex ((validOrder e).isNone, toLex ((validOrder e).getD "", e.originServerTs))

def childEventsComparisonKey (e : Event) : Bool ×ₗ String ×ₗ ℤ ×ₗ String :=
  toLex ((validOrder e).isNone, toLex ((validOrder e).getD "", toLex (e.originServerTs, e.roomId)))

def getChildEvents (events : List Event) : List Event :=
  (events.filter hasValidVia).insertionSort fun a b => childEventsComparisonKey a ≤ childEventsComparisonKey b

/-- Where the children of a space are listed for one order of loading, they are for all. -/
def ListedAlike (events : List Event) : Prop := ∀ events', events.Perm events' → getChildEvents events = getChildEvents events'

theorem place_le_of_key_le {a b : Event} (h : childEventsComparisonKey a ≤ childEventsComparisonKey b) :
    place a ≤ place b := by
  simp only [childEventsComparisonKey, place, Prod.Lex.toLex_le_toLex] at h ⊢
  rcases h with h | ⟨h, horder | ⟨horder, htime⟩⟩
  · exact .inl h
  · exact .inr ⟨h, .inl horder⟩
  · exact .inr ⟨h, .inr ⟨horder, htime.elim le_of_lt fun htime => htime.1.le⟩⟩

theorem place_eq_of_key_eq {a b : Event} (h : childEventsComparisonKey a = childEventsComparisonKey b) :
    validOrder a = validOrder b ∧ a.originServerTs = b.originServerTs := by
  simp only [childEventsComparisonKey, toLex_inj, Prod.mk.injEq] at h
  refine ⟨?_, h.2.2.1⟩
  cases ha : validOrder a <;> cases hb : validOrder b <;> simp_all

/-- Two elements of a list without repetitions stand in one order. -/
theorem not_sublist_swap {a b : Event} {l : List Event} (hl : l.Nodup) (hab : [a, b] <+ l) : ¬ [b, a] <+ l := by
  intro hba
  induction l with
  | nil => cases hab
  | cons x l ih =>
    obtain ⟨hx, hl⟩ := nodup_cons.mp hl
    rcases cons_sublist_cons'.mp hab with hab' | ⟨rfl, hb⟩
    · rcases cons_sublist_cons'.mp hba with hba' | ⟨rfl, -⟩
      · exact ih hl hab' hba'
      · exact hx (hab'.subset (mem_cons_of_mem a mem_cons_self))
    · rcases cons_sublist_cons'.mp hba with hba' | ⟨rfl, -⟩
      · exact hx (hba'.subset (mem_cons_of_mem b mem_cons_self))
      · exact hx (hb.subset mem_cons_self)

/-- The sort is stable: of two listed children with one key, the one that is loaded first comes first. -/
theorem pair_sublist_getChildEvents {a b : Event} (hkey : childEventsComparisonKey a = childEventsComparisonKey b)
    (ha : hasValidVia a = true) (hb : hasValidVia b = true) (rest : List Event) :
    [a, b] <+ getChildEvents (a :: b :: rest) := by
  refine pair_sublist_insertionSort hkey.le ?_
  rw [filter_cons_of_pos ha, filter_cons_of_pos hb]
  exact ((nil_sublist _).cons_cons b).cons_cons a

/-- **The children of a space are listed in one order, whatever the order in which they are loaded, exactly if no two of
those listed have the same order and time**; valid orders come first, then the time decides. -/
theorem child_order_fixed_iff (space : String) (events : List Event) (hrooms : ∀ e ∈ events, e.roomId = space)
    (hnodup : (events.map Event.stateKey).Nodup) :
    (ListedAlike events ↔ ∀ a ∈ events, ∀ b ∈ events, hasValidVia a = true → hasValidVia b = true →
      validOrder a = validOrder b → a.originServerTs = b.originServerTs → a = b) ∧
    (getChildEvents events).Pairwise fun a b => place a ≤ place b := by
  refine ⟨⟨fun hlisted a ha b hb hva hvb horder htime => ?_, fun hplace events' hperm => ?_⟩, ?_⟩
  · by_contra hne
    classical
    have hkey : childEventsComparisonKey a = childEventsComparisonKey b := by
      rw [childEventsComparisonKey, childEventsComparisonKey, horder, htime, hrooms a ha, hrooms b hb]
    -- the two are loaded first, in either order
    have hperm := (perm_cons_erase ha).trans
      ((perm_cons_erase ((mem_erase_of_ne (Ne.symm hne)).mpr hb)).cons a)
    have hab := pair_sublist_getChildEvents hkey hva hvb ((events.erase a).erase b)
    have hba := pair_sublist_getChildEvents hkey.symm hvb hva ((events.erase a).erase b)
    rw [← hlisted _ hperm] at hab
    rw [← hlisted _ (hperm.trans (.swap ..))] at hba
    refine not_sublist_swap ?_ hab hba
    exact (perm_insertionSort _ _).nodup_iff.mpr ((Nodup.of_map _ hnodup).filter _)
  · refine Lib.insertionSort_eq_of_perm childEventsComparisonKey (hperm.filter hasValidVia) fun a ha b hb hkey => ?_
    obtain ⟨horder, htime⟩ := place_eq_of_key_eq hkey
    obtain ⟨ha, hva⟩ := mem_filter.mp ha
    obtain ⟨hb, hvb⟩ := mem_filter.mp hb
    exact hplace a ha b hb hva hvb horder htime
  · exact (pairwise_insertionSort _ _).imp place_le_of_key_le

namespace Siblings

/-- A child without an order. -/
def child (room : String) (ts : ℤ) : Event :=
  { Event.ofContent s!"${room}" "m.space.child" room "@u:hs" [("via", .arr [.str "hs"])] with originServerTs := ts }

theorem load_order_shows : [child "!a" 1, child "!b" 1].map Event.stateKey = [some "!a", some "!b"] ∧
    ¬ ListedAlike [child "!a" 1, child "!b" 1] := by
  refine ⟨rfl, fun h => ?_⟩
  have hsame := congrArg (map Event.stateKey) (h [child "!b" 1, child "!a" 1] (.swap ..))
  exact absurd hsame (by decide)

/-- A child without a server is not listed, so that its time does not matter. -/
theorem listed_by_time : ListedAlike [child "!a" 1, child "!b" 2, { child "!c" 2 with content := [] }] := by
  refine (child_order_fixed_iff "!r:hs" _ (by simp [child, Event.ofContent]) (by simp [child, Event.ofContent])).1.mpr ?_
  intro a ha b hb hva hvb _ htime
  simp only [mem_cons, not_mem_nil, or_false] at ha hb
  rcases ha with rfl | rfl | rfl <;> rcases hb with rfl | rfl | rfl
  all_goals first | rfl | exact absurd htime (by decide) | exact absurd hva (by decide) | exact absurd hvb (by decide)

end Siblings

end Synapse.RoomSummary
