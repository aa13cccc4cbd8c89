import Mathlib.Data.Fin.VecNotation
import Synapse.Lib.Dict

/-!
# Synapse.Cache.TreeCache — the tree behind caches with tuple keys

`synapse/util/caches/treecache.py`, for keys of `n + 1` elements.  What a path leads to is in the type, so `set` meets
no value on its way.  Values have no `get` of their own.

* `find`: the value at a path, which says what a tree stands for.
* **`refines_map`**: lookups, pops by full keys and prefixes, pruning and the size over such runs.
-/

namespace Synapse.Cache

open Finmap Lib

/-- What is stored `n` elements above the end of a key: a `TreeCacheNode`, or a value. -/
@[reducible] def Sub (K V : Type) : ℕ → Type
  | 0 => V
  | n + 1 => Finmap fun _ : K => Sub K V n

abbrev TreeCacheNode (K V : Type) (n : ℕ) := Finmap fun _ : K => Sub K V n

/-- What `get` and `pop` return: a value, a node or the default. -/
abbrev Below (K V : Type) := Option (Σ n, Sub K V n)

abbrev TupleMap (K V : Type) := Finmap fun _ : List K => V

structure TreeCache (K V : Type) (n : ℕ) where
  size : ℤ := 0
  root : TreeCacheNode K V n := ∅

inductive TreeCacheError where
  | indexError
  | valueError (message : String)
  | attributeError

namespace TreeCache

variable {K V : Type}

/-- What `iterate_tree_cache_items` yields; `iterate_tree_cache_entry` yields the values of it. -/
def iterateTreeCacheItems (key : List K) : (n : ℕ) → Sub K V n → Multiset (Σ _ : List K, V)
  | 0, value => {⟨key, value⟩}
  | n + 1, node => (entries node).bind fun e => iterateTreeCacheItems (key ++ [e.1]) n e.2

/-- The entries of what was found at a path. -/
def itemsAt (p : List K) (found : Below K V) : Multiset (Σ _ : List K, V) :=
  found.elim 0 fun x => iterateTreeCacheItems p x.1 x.2

variable [DecidableEq K]

/-- The loop of `set`, from what is at the path so far. -/
def setIn (value : V) : (n : ℕ) → Option (Sub K V n) → (Fin n → K) → Sub K V n
  | 0, _, _ => value
  | n + 1, node, key =>
    let node : TreeCacheNode K V n := node.getD ∅
    node.insert (key 0) (setIn value n (node.lookup (key 0)) (Fin.tail key))

def getIn : (n : ℕ) → Sub K V n → List K → Except TreeCacheError (Below K V)
  | n, x, [] => .ok (some ⟨n, x⟩)
  | 0, _, _ :: _ => .error .attributeError
  | n + 1, node, k :: rest =>
    match lookup k node with
    | none => .ok none
    | some child => getIn n child rest

/-- `if n`, on the way back up: an empty node is no longer there. -/
def prune {n : ℕ} (node : TreeCacheNode K V n) : Option (Sub K V (n + 1)) := if keys node = ∅ then none else some node

/-- The loops of `pop`: what is popped, and what is left for the parent. -/
def popIn : (n : ℕ) → Sub K V n → List K → Except TreeCacheError (Below K V × Option (Sub K V n))
  | n, x, [] => .ok (some ⟨n, x⟩, none)
  | 0, _, _ :: _ => .error (.valueError "pop() key too long")
  | n + 1, node, k :: rest =>
    match lookup k node with
    | none => .ok (none, some node)
    | some child =>
      match popIn n child rest with
      | .error e => .error e
      | .ok (popped, left) => .ok (popped, prune (left.elim (erase k node) (insert k · node)))

variable {n : ℕ} (c : TreeCache K V n)

def set (key : Fin (n + 1) → K) (value : V) : TreeCache K V n :=
  ⟨c.size + 1, setIn value (n + 1) (some c.root) key⟩

def get (key : List K) : Except TreeCacheError (Below K V) :=
  if key = [] then .error .indexError else getIn (n + 1) c.root key

def pop (key : List K) : Except TreeCacheError (Below K V × TreeCache K V n) :=
  if key = [] then .error .indexError
  else (popIn (n + 1) c.root key).map fun (popped, left) =>
    (popped, ⟨c.size - (itemsAt key popped).card, left.getD ∅⟩)

/-- The value at a path of exactly `n` elements. -/
def find : (n : ℕ) → Sub K V n → List K → Option V
  | 0, value, q => if q = [] then some value else none
  | _ + 1, _, [] => none
  | n + 1, node, k :: rest => (lookup k node).bind (find n · rest)

/-- The caches that runs reach which set only absent keys, each with its map. -/
inductive Reaches : TreeCache K V n → TupleMap K V → Prop
  | init : Reaches {} ∅
  | set {c m} (key : Fin (n + 1) → K) (value : V) :
      Reaches c m → List.ofFn key ∉ m → Reaches (c.set key value) (m.insert (List.ofFn key) value)
  | pop {c c' m key popped} : Reaches c m → c.pop key = .ok (popped, c') →
      Reaches c' (restrict (fun q => ¬ key <+: q) m)
  | clear {c m} : Reaches c m → Reaches {} ∅

variable (m : TupleMap K V)

/-- Every lookup by a full key is that of the map. -/
def Agrees : Prop :=
  ∀ key : Fin (n + 1) → K, c.get (List.ofFn key) = .ok ((m.lookup (List.ofFn key)).map (⟨0, ·⟩))

/-- No node is empty. -/
def Full : (n : ℕ) → Sub K V n → Prop
  | 0, _ => True
  | n + 1, node => keys node ≠ ∅ ∧ ∀ k child, lookup k node = some child → Full n child

structure Refines : Prop where
  lookup : ∀ q, find (n + 1) c.root q = m.lookup q
  full : c.root = ∅ ∨ Full (n + 1) c.root
  size : c.size = m.entries.card

variable {c m}

theorem find_setIn (value : V) (x : Option (Sub K V n)) (key : Fin n → K) (q : List K) :
    find n (setIn value n x key) q = if q = List.ofFn key then some value else x.bind (find n · q) := by
  induction n generalizing q with
  | zero => cases q <;> cases x <;> simp [setIn, find]
  | succ n ih =>
    obtain _ | ⟨k, rest⟩ := q
    · cases x <;> simp [find]
    simp only [setIn, find, lookup_insert_eq, List.ofFn_succ, List.cons.injEq]
    by_cases hk : k = key 0
    · subst hk
      cases x <;> simp [ih, Fin.tail_def]
    · cases x <;> simp [hk]

theorem full_setIn (value : V) {x : Option (Sub K V n)} (h : ∀ y ∈ x, Full n y) (key : Fin n → K) :
    Full n (setIn value n x key) := by
  induction n with
  | zero => trivial
  | succ n ih =>
    refine ⟨Finset.ne_empty_of_mem (mem_keys.mpr (Finmap.mem_insert.mpr (.inl rfl))), ?_⟩
    have hold : ∀ a y, lookup a (x.getD ∅) = some y → Full n y := by
      cases x with
      | none => simp
      | some node => exact (h node rfl).2
    exact insert_all hold (ih (fun y hy => hold _ y hy) _)

theorem lookup_elim (node : TreeCacheNode K V n) (k a : K) (left : Option (Sub K V n)) :
    lookup a (left.elim (erase k node) (insert k · node)) = if a = k then left else lookup a node := by
  cases left
  · exact lookup_erase_eq node k a
  · exact lookup_insert_eq node k a _

theorem find_prune (node : TreeCacheNode K V n) (q : List K) :
    (prune node).bind (find (n + 1) · q) = find (n + 1) node q := by
  rw [prune]
  split_ifs with hempty
  · have hnone : ∀ a, lookup a node = none := fun a =>
      lookup_eq_none.mpr fun ha => Finset.ne_empty_of_mem (mem_keys.mpr ha) hempty
    cases q <;> simp [find, hnone]
  · rfl

theorem popIn_ok {p : List K} {x : Sub K V n} {popped : Below K V} {left : Option (Sub K V n)}
    (h : popIn n x p = .ok (popped, left)) :
    getIn n x p = .ok popped ∧ (∀ s, (popped.bind fun y => find y.1 y.2 s) = find n x (p ++ s)) ∧
      (∀ q, left.bind (find n · q) = if p <+: q then none else find n x q) ∧ (Full n x → ∀ y ∈ left, Full n y) := by
  fun_induction popIn n x p generalizing popped with
  | case1 =>
    cases h
    simp [getIn]
  | case2 => cases h
  | case3 n k rest node hk =>
    cases h
    refine ⟨by simp [getIn, hk], fun s => by simp [find, hk], fun q => ?_, fun hfull y hy => Option.some.inj hy ▸ hfull⟩
    split_ifs with hq
    · obtain ⟨s, rfl⟩ := hq
      simp [find, hk]
    · rfl
  | case4 => cases h
  | case5 n k rest child popped left hpop node hk ih =>
    cases h
    obtain ⟨hget, hfind, hleft, hfull⟩ := ih hpop
    refine ⟨by simp [getIn, hk, hget], fun s => by simp [find, hk, hfind], fun q => ?_, fun hnode y hy => ?_⟩
    · rw [find_prune]
      obtain _ | ⟨a, q⟩ := q
      · simp [find]
      rw [find, lookup_elim]
      by_cases ha : k = a
      · subst ha
        simp [find, hk, hleft]
      · simp [find, ha, Ne.symm ha]
    · obtain ⟨hne, hy⟩ := Option.ite_none_left_eq_some.mp hy
      cases hy
      refine ⟨hne, fun a b hb => ?_⟩
      rw [lookup_elim] at hb
      split at hb
      · exact hfull (hnode.2 k child hk) b hb
      · exact hnode.2 a b hb

theorem popIn_short {p : List K} (x : Sub K V n) (hlen : p.length ≤ n) :
    ∃ popped left, popIn n x p = .ok (popped, left) := by
  fun_induction popIn n x p with
  | case2 => simp at hlen
  | case4 n k rest child e hpop node hk ih =>
    obtain ⟨_, _, h⟩ := ih (by simpa using hlen)
    cases hpop.symm.trans h
  | _ => exact ⟨_, _, rfl⟩

theorem getIn_full (x : Sub K V n) (key : Fin n → K) :
    getIn n x (List.ofFn key) = .ok ((find n x (List.ofFn key)).map (⟨0, ·⟩)) := by
  induction n with
  | zero => simp [getIn, find]
  | succ n ih => cases hk : lookup (key 0) x <;> simp [getIn, find, hk, ih]

theorem mem_items {x : Sub K V n} {key q : List K} {v : V} :
    ⟨q, v⟩ ∈ iterateTreeCacheItems key n x ↔ ∃ s, q = key ++ s ∧ find n x s = some v := by
  induction n generalizing key with
  | zero => simp [iterateTreeCacheItems, find, eq_comm]
  | succ n ih =>
    simp only [iterateTreeCacheItems, Multiset.mem_bind, ih]
    constructor
    · rintro ⟨e, he, s, rfl, hs⟩
      exact ⟨e.1 :: s, by simp, by simp [find, lookup_eq_some_iff.mpr he, hs]⟩
    · rintro ⟨_ | ⟨a, s⟩, rfl, hs⟩
      · cases hs
      obtain ⟨b, hb, hs⟩ := Option.bind_eq_some_iff.mp hs
      exact ⟨⟨a, b⟩, lookup_eq_some_iff.mp hb, s, by simp, hs⟩

theorem nodup_items (x : Sub K V n) (key : List K) : (iterateTreeCacheItems key n x).Nodup := by
  induction n generalizing key with
  | zero => simp [iterateTreeCacheItems]
  | succ n ih =>
    refine Multiset.nodup_bind.mpr ⟨fun e _ => ih _ _, Multiset.Nodup.pairwise ?_ (nodup_entries x)⟩
    rintro ⟨a, b⟩ he ⟨a', b'⟩ he' hne
    refine Multiset.disjoint_left.mpr @fun ⟨q, v⟩ hq hq' => hne ?_
    obtain ⟨s, rfl, -⟩ := mem_items.mp hq
    obtain ⟨s', hs, -⟩ := mem_items.mp hq'
    obtain rfl : a = a' := by simp_all
    cases (lookup_eq_some_iff.mpr he).symm.trans (lookup_eq_some_iff.mpr he')
    rfl

theorem items_popped {p : List K} {popped : Below K V}
    (h : ∀ s, (popped.bind fun x => find x.1 x.2 s) = m.lookup (p ++ s)) :
    itemsAt p popped = (restrict (p <+: ·) m).entries := by
  refine (Multiset.Nodup.ext ?_ (nodup_entries _)).mpr fun ⟨q, v⟩ => ?_
  · cases popped <;> simp [itemsAt, nodup_items]
  have hpopped : ⟨q, v⟩ ∈ itemsAt p popped ↔
      ∃ s, q = p ++ s ∧ (popped.bind fun x => find x.1 x.2 s) = some v := by
    cases popped <;> simp [itemsAt, mem_items]
  rw [hpopped, ← lookup_eq_some_iff, lookup_restrict]
  simp only [h]
  constructor
  · rintro ⟨s, rfl, hs⟩
    simpa using hs
  · intro hq
    obtain ⟨⟨s, rfl⟩, hs⟩ : p <+: q ∧ m.lookup q = some v := by simpa using hq
    exact ⟨s, rfl, hs⟩

theorem refines_init : Refines ({} : TreeCache K V n) ∅ :=
  ⟨fun q => by cases q <;> simp [find], .inl rfl, rfl⟩

namespace Refines

variable (h : Refines c m)
include h

theorem set {key : Fin (n + 1) → K} (hkey : List.ofFn key ∉ m) (value : V) :
    Refines (c.set key value) (m.insert (List.ofFn key) value) where
  lookup q := by rw [lookup_insert_eq, ← h.lookup]; exact find_setIn value (some c.root) key q
  full := by
    refine .inr ?_
    rcases h.full with hempty | hfull
    · rw [TreeCache.set, hempty]
      exact full_setIn value (x := none) nofun key
    · exact full_setIn (n := n + 1) value (by simpa using hfull) key
  size := by rw [entries_insert_of_notMem hkey, Multiset.card_cons]; simp [TreeCache.set, h.size]

theorem pop {p : List K} {popped : Below K V} {c' : TreeCache K V n} (hpop : c.pop p = .ok (popped, c')) :
    Refines c' (restrict (fun q => ¬ p <+: q) m) ∧ c.get p = .ok popped ∧
      itemsAt p popped = (restrict (p <+: ·) m).entries := by
  obtain _ | ⟨k, rest⟩ := p
  · cases hpop
  obtain ⟨r, hin, hr⟩ : ∃ r, popIn (n + 1) c.root (k :: rest) = .ok r ∧ _ = _ := by
    cases hin : popIn (n + 1) c.root (k :: rest) <;> rw [TreeCache.pop, hin] at hpop
    · cases hpop
    · exact ⟨_, rfl, Except.ok.inj hpop⟩
  cases hr
  obtain ⟨hget, hfind, hleft, hfull⟩ := popIn_ok hin
  have hitems := items_popped fun s => (hfind s).trans (h.lookup (k :: rest ++ s))
  refine ⟨⟨fun q => ?_, ?_, ?_⟩, hget, hitems⟩
  · have hq : find (n + 1) (r.2.getD ∅) q = _ := .trans (by cases r.2 <;> cases q <;> simp [find]) (hleft q)
    rw [hq, lookup_restrict, h.lookup]
    simp only [decide_not, Bool.not_eq_true', decide_eq_false_iff_not, ite_not]
  · rcases h.full with hempty | hroot
    · rw [hempty] at hin
      cases hin
      exact .inl rfl
    · cases hr : r.2 with
      | none => exact .inl rfl
      | some y => exact .inr (hfull hroot y hr)
  · have hadd := congrArg Multiset.card (Multiset.filter_add_not (fun e => k :: rest <+: e.1) m.entries)
    simp only [hitems, h.size, restrict]
    simp at hadd ⊢
    omega

theorem agrees : c.Agrees m := by
  intro key
  rw [← h.lookup, TreeCache.get, if_neg (by simp)]
  exact getIn_full (n := n + 1) c.root key

end Refines

theorem Reaches.refines (h : Reaches c m) : Refines c m := by
  induction h with
  | set key value _ hkey ih => exact ih.set hkey value
  | pop _ hpop ih => exact (ih.pop hpop).1
  | _ => exact refines_init

theorem refines_map (h : Reaches c m) :
    c.Agrees m ∧ (c.root = ∅ ∨ Full (n + 1) c.root) ∧ c.size = m.entries.card ∧
    ∀ p ≠ [], p.length ≤ n + 1 → ∃ popped c', c.pop p = .ok (popped, c') ∧ c.get p = .ok popped ∧
      itemsAt p popped = (restrict (p <+: ·) m).entries ∧
      c'.Agrees (restrict (fun q => ¬ p <+: q) m) := by
  have href := h.refines
  refine ⟨href.agrees, href.full, href.size, fun p hp hlen => ?_⟩
  obtain ⟨popped, left, hin⟩ := popIn_short (n := n + 1) c.root hlen
  have hpop : ∃ c', c.pop p = .ok (popped, c') := ⟨_, by rw [TreeCache.pop, if_neg hp, hin]; rfl⟩
  obtain ⟨c', hpop⟩ := hpop
  obtain ⟨hleft, hget, hitems⟩ := href.pop hpop
  exact ⟨popped, c', hpop, hget, hitems, hleft.agrees⟩

def threeKeys : TreeCache ℕ ℕ 1 := (({} : TreeCache ℕ ℕ 1).set ![0, 1] 5 |>.set ![0, 2] 6).set ![3, 1] 7

def threeEntries : TupleMap ℕ ℕ := (((∅ : TupleMap ℕ ℕ).insert [0, 1] 5).insert [0, 2] 6).insert [3, 1] 7

theorem reaches_threeKeys : Reaches threeKeys threeEntries :=
  .set ![3, 1] 7 (.set ![0, 2] 6 (.set ![0, 1] 5 .init notMem_empty) (by decide)) (by decide)

/-- The two entries below a prefix are popped, and the third one stays. -/
theorem refines_map_three_keys : threeKeys.Agrees threeEntries ∧ threeKeys.size = 3 ∧
    ∃ popped c', threeKeys.pop [0] = .ok (popped, c') ∧
      itemsAt [0] popped = (((∅ : TupleMap ℕ ℕ).insert [0, 1] 5).insert [0, 2] 6).entries ∧
      c'.Agrees ((∅ : TupleMap ℕ ℕ).insert [3, 1] 7) := by
  obtain ⟨hagrees, -, hsize, hpop⟩ := refines_map reaches_threeKeys
  obtain ⟨popped, c', hpopped, -, hitems, hleft⟩ := hpop [0] (by decide) (by decide)
  refine ⟨hagrees, hsize.trans (by decide), popped, c', hpopped, hitems.trans (by decide), ?_⟩
  rwa [show restrict (fun q => ¬ [0] <+: q) threeEntries = (∅ : TupleMap ℕ ℕ).insert [3, 1] 7 by decide] at hleft

theorem pop_empty_key : Reaches (({} : TreeCache ℕ ℕ 1).set Fin.val 5) (Finmap.insert [0, 1] 5 ∅) ∧
    (({} : TreeCache ℕ ℕ 1).set Fin.val 5).pop [] = .error .indexError :=
  ⟨.set Fin.val 5 .init notMem_empty, rfl⟩

end TreeCache

end Synapse.Cache
