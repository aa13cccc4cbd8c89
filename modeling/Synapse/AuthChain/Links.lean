import Synapse.AuthChain.Allocate

/-!
# Synapse.AuthChain.Links — links of the events of a batch

* `reduction_eq`: an auth event is kept unless it is on the event's chain or a listed event leads to it.
* `Linking`: the links given so far; `calculateLinks_ok`: every auth event of every new event is dealt with.
* `linkEvent_exact_iff`: an auth event listed twice leads to itself, so it has to be reached in another way.
-/

namespace Synapse.AuthChain

open Lib Chain Greedy Relation List Function

/-! ## The reduction -/

section Reduction

theorem mem_permutations {β : Type} [DecidableEq β] {l : List β} {a b : β} :
    (a, b) ∈ permutations l ↔ a ∈ l ∧ b ∈ l ∧ (a = b → 2 ≤ l.count b) := by
  have hidx : (a, b) ∈ permutations l ↔ ∃ i j : ℕ, i ≠ j ∧ l[i]? = some a ∧ l[j]? = some b := by
    unfold permutations
    simp only [mem_flatMap, mem_map, mem_filter, Prod.mk.injEq, Prod.exists, decide_eq_true_eq,
      mk_mem_zipIdx_iff_getElem?]
    constructor
    · rintro ⟨_, i, hi, _, j, ⟨hj, hne⟩, rfl, rfl⟩
      exact ⟨i, j, Ne.symm hne, hi, hj⟩
    · rintro ⟨i, j, hne, hi, hj⟩
      exact ⟨a, i, hi, b, j, ⟨hj, Ne.symm hne⟩, rfl, rfl⟩
  rw [hidx]
  constructor
  · rintro ⟨i, j, hne, hi, hj⟩
    refine ⟨mem_of_getElem? hi, mem_of_getElem? hj, ?_⟩
    rintro rfl
    obtain ⟨hi', hi⟩ := List.getElem?_eq_some_iff.mp hi
    obtain ⟨hj', hj⟩ := List.getElem?_eq_some_iff.mp hj
    rw [← duplicate_iff_two_le_count, duplicate_iff_exists_distinct_get]
    rcases lt_or_gt_of_ne hne with h | h
    · exact ⟨⟨i, hi'⟩, ⟨j, hj'⟩, h, hi.symm, hj.symm⟩
    · exact ⟨⟨j, hj'⟩, ⟨i, hi'⟩, h, hj.symm, hi.symm⟩
  · rintro ⟨ha, hb, hcount⟩
    by_cases hab : a = b
    · subst hab
      obtain ⟨i, j, hij, hi, hj⟩ := duplicate_iff_exists_distinct_get.mp
        (duplicate_iff_two_le_count.mpr (hcount rfl))
      exact ⟨i, j, (Fin.lt_def.mp hij).ne, by simp [hi], by simp [hj]⟩
    obtain ⟨i, hi⟩ := mem_iff_getElem?.mp ha
    obtain ⟨j, hj⟩ := mem_iff_getElem?.mp hb
    refine ⟨i, j, ?_, hi, hj⟩
    rintro rfl
    exact hab (Option.some.inj (hi.symm.trans hj))

theorem foldl_discard {γ : Type} (pairs : List γ) (discards : γ → Bool) (key : γ → String) (start : List String) :
    pairs.foldl (fun reduction pair => if discards pair then reduction.filter (· ≠ key pair) else reduction) start =
      start.filter fun b => ∀ pair ∈ pairs, discards pair = true → key pair ≠ b := by
  induction pairs generalizing start with
  | nil => simp
  | cons pair pairs ih =>
    rw [foldl_cons, ih]
    by_cases hd : discards pair = true
    · rw [if_pos hd, filter_filter]
      refine filter_congr fun b _ => ?_
      rw [← Bool.decide_and, decide_eq_decide, forall_mem_cons, and_comm, ne_comm]
      simp only [hd, true_imp_iff]
    · simp [hd]

/-- The position that the map has for an event. -/
def place (chainMap : Dict Pos) (a : String) : Pos := (chainMap.lookup a).getD (0, 0)

/-- Whether the reduction keeps an auth event: it is on another chain, and no listed event leads to it. -/
def kept (m : LinkMap) (p : Pos) (chainMap : Dict Pos) (auth : List String) (b : String) : Prop :=
  (place chainMap b).1 ≠ p.1 ∧ ∀ a ∈ auth, (a = b → 2 ≤ auth.count b) →
    m.existsPathFrom (place chainMap a) (place chainMap b) = false

instance (m : LinkMap) (p : Pos) (chainMap : Dict Pos) (auth : List String) :
    DecidablePred (kept m p chainMap auth) := fun _ => inferInstanceAs (Decidable (_ ∧ _))

theorem reduction_eq (m : LinkMap) (p : Pos) (chainMap : Dict Pos) (auth : List String) :
    reduction m p (auth.map fun a => (a, place chainMap a)) = auth.filter (kept m p chainMap auth) := by
  have hinj : Function.Injective fun a => (a, place chainMap a) := fun _ _ h => (Prod.mk.inj h).1
  have hcnt := @List.count_map_of_injective _ _ _ _ instBEqOfDecidableEq _ auth _ hinj
  rw [reduction, foldl_discard, List.filter_map, List.filter_filter, List.filter_map, List.map_map]
  show List.map id _ = _
  rw [map_id]
  refine filter_congr fun b hb => ?_
  simp only [comp, ← Bool.decide_and, decide_eq_decide]
  refine and_comm.trans (and_congr_right fun _ => ⟨fun h a ha hcount => ?_, ?_⟩)
  · by_contra hpath
    refine h ((a, place chainMap a), (b, place chainMap b)) (mem_permutations.mpr
      ⟨mem_map_of_mem ha, mem_map_of_mem hb, fun heq => ?_⟩) (by simpa using hpath) rfl
    exact (hcount (hinj heq)).trans_eq (hcnt b).symm
  rintro h ⟨x, y⟩ hmem hpath rfl
  obtain ⟨hx, hy, hcount⟩ := mem_permutations.mp hmem
  obtain ⟨a, ha, rfl⟩ := mem_map.mp hx
  obtain ⟨b, -, rfl⟩ := mem_map.mp hy
  have := h a ha fun hab => (hcount (by rw [hab])).trans_eq (hcnt b)
  simp [this] at hpath

end Reduction

/-! ## The loop over the new events -/

section Linking

variable (ev : Events) (pos : String → Option Pos) (stored : List Link)

/-- The loop over the new events, when some have been linked. -/
structure Linking (seen : List String) (acc : LinkMap × List Link) : Prop where
  sub : ∀ l ∈ acc.1, l ∈ stored ∨ l ∈ acc.2
  sound : ∀ l ∈ acc.2, l.src.1 ≠ l.target.1 ∧
    ∃ id, ∃ a ∈ ev.auth id, pos id = some l.src ∧ pos a = some l.target
  covered : ∀ id ∈ seen, ∀ p, pos id = some p → ∀ b ∈ ev.auth id, ∀ q, pos b = some q →
    q.1 = p.1 ∨ ⟨p, q⟩ ∈ acc.2 ∨
      ∃ a ∈ ev.auth id, a ≠ b ∧ ∃ r, pos a = some r ∧ Reach {l | l ∈ stored ∨ l ∈ acc.2} r q

variable {ev pos stored} {o : Orders} {authChain : Dict (List String)} {chainMap : Dict Pos} {seen : List String}
variable {acc : LinkMap × List Link} {id : String} {p : Pos}

theorem getItem_ok {β : Type} {d : Dict β} {key : String} {b : β} (h : d.lookup key = some b) : getItem d key = .ok b := by
  rw [getItem, h]
  rfl

/-- Links from a position to those of some events. -/
def linksTo (chainMap : Dict Pos) (p : Pos) (kept : List String) : List Link :=
  kept.filterMap fun a => (chainMap.lookup a).map fun q => ⟨p, q⟩

theorem mem_linksTo {kept : List String} {l : Link} :
    l ∈ linksTo chainMap p kept ↔ ∃ a ∈ kept, ∃ q, chainMap.lookup a = some q ∧ l = ⟨p, q⟩ := by
  unfold linksTo
  rw [mem_filterMap]
  refine exists_congr fun a => and_congr_right fun _ => ?_
  rw [Option.map_eq_some_iff]
  exact exists_congr fun q => and_congr_right fun _ => eq_comm

theorem addLink_ok (m : LinkMap) {src target : Pos} (h : src.1 ≠ target.1) (new : Bool) :
    ∃ r, m.addLink src target new = .ok r := by
  unfold LinkMap.addLink
  rw [if_neg h]
  split <;> exact ⟨_, rfl⟩

theorem addNewLinks_ok (acc : LinkMap × List Link) {kept : List String}
    (hkept : ∀ a ∈ kept, ∃ q, chainMap.lookup a = some q ∧ q.1 ≠ p.1) :
    ∃ acc', kept.foldlM (addNewLink chainMap p) acc = .ok acc' ∧
      (∀ l ∈ acc'.1, l ∈ acc.1 ∨ l ∈ acc'.2) ∧ acc'.2 = acc.2 ++ linksTo chainMap p kept := by
  refine foldlM_total (fun done (acc' : LinkMap × List Link) =>
    (∀ l ∈ acc'.1, l ∈ acc.1 ∨ l ∈ acc'.2) ∧ acc'.2 = acc.2 ++ linksTo chainMap p done)
    ⟨fun l hl => .inl hl, (append_nil _).symm⟩ ?_
  rintro done a rest acc' hsplit ⟨hsub, hlinks⟩
  obtain ⟨q, hq, hne⟩ := hkept a (hsplit ▸ mem_append_right _ mem_cons_self)
  obtain ⟨⟨added, m'⟩, hadd⟩ := addLink_ok acc'.1 hne.symm true
  refine ⟨(m', acc'.2 ++ [⟨p, q⟩]), ?_, fun l hl => ?_, ?_⟩
  · unfold addNewLink
    rw [getItem_ok hq]
    show ((acc'.1.addLink p q true).mapError Halt.raised >>= fun r => pure (r.2, acc'.2 ++ [⟨p, q⟩])) = _
    rw [hadd]
    rfl
  · rcases mem_of_addLink hadd hl with hl | rfl
    · exact (hsub l hl).imp_right (mem_append_left _)
    · exact .inr (mem_append_right _ mem_cons_self)
  · simp [hlinks, linksTo, hq]

theorem mapM_getItem {auth : List String} (h : ∀ a ∈ auth, ∃ q, chainMap.lookup a = some q) :
    (auth.mapM fun a => (getItem chainMap a).map fun q => (a, q)) = .ok (auth.map fun a => (a, place chainMap a)) := by
  induction auth with
  | nil => rfl
  | cons a auth ih =>
    obtain ⟨q, hq⟩ := h a mem_cons_self
    rw [mapM_cons, getItem_ok hq, ih fun a' ha' => h a' (mem_cons_of_mem _ ha'), map_cons, place, hq]
    rfl

theorem linkEvent_eq {auth : List String} (hid : (authChain.lookup id).getD [] = auth) (hp : chainMap.lookup id = some p)
    (hmap : ∀ a ∈ auth, ∃ q, chainMap.lookup a = some q) :
    linkEvent o authChain chainMap acc id =
      (o.strings (auth.filter (kept acc.1 p chainMap auth))).foldlM (addNewLink chainMap p) acc := by
  unfold linkEvent
  rw [hid, getItem_ok hp]
  show (_ >>= fun auth => _) = _
  rw [mapM_getItem hmap]
  show (o.strings (reduction acc.1 p _)).foldlM _ _ = _
  rw [reduction_eq]

theorem exists_path_of_not_kept {m : LinkMap} {auth : List String} {b : String} (hk : ¬ kept m p chainMap auth b)
    (hchain : (place chainMap b).1 ≠ p.1) : ∃ a ∈ auth, (a = b → 2 ≤ auth.count b) ∧
      m.existsPathFrom (place chainMap a) (place chainMap b) = true := by
  simp only [kept, hchain, not_and, not_forall, ne_eq, not_false_eq_true, true_imp_iff] at hk
  obtain ⟨a, ha, hab, hpath⟩ := hk
  exact ⟨a, ha, hab, by simpa using hpath⟩

variable (o acc) in
theorem linkEvent_links {auth : List String} (hid : (authChain.lookup id).getD [] = auth)
    (hp : chainMap.lookup id = some p) (hmap : ∀ a ∈ auth, ∃ q, chainMap.lookup a = some q) :
    ∃ acc', linkEvent o authChain chainMap acc id = .ok acc' ∧ (∀ l ∈ acc'.1, l ∈ acc.1 ∨ l ∈ acc'.2) ∧
      ∀ l, l ∈ acc'.2 ↔ l ∈ acc.2 ∨ ∃ a ∈ auth, kept acc.1 p chainMap auth a ∧ l = ⟨p, place chainMap a⟩ := by
  have hplace : ∀ a ∈ auth, chainMap.lookup a = some (place chainMap a) := by
    intro a ha
    obtain ⟨q, hq⟩ := hmap a ha
    rw [place, hq]
    rfl
  have hkept : ∀ {a}, a ∈ o.strings (auth.filter (kept acc.1 p chainMap auth)) ↔
      a ∈ auth ∧ kept acc.1 p chainMap auth a := by
    intro a
    rw [(o.strings_perm _).mem_iff, mem_filter, decide_eq_true_iff]
  obtain ⟨acc', hfold, hsub, hlinks⟩ := addNewLinks_ok acc fun a ha =>
    ⟨_, hplace a (hkept.mp ha).1, (hkept.mp ha).2.1⟩
  refine ⟨acc', (linkEvent_eq hid hp hmap).trans hfold, hsub, fun l => ?_⟩
  rw [hlinks, mem_append, mem_linksTo]
  refine or_congr_right ⟨?_, ?_⟩
  · rintro ⟨a, ha, q, hq, rfl⟩
    obtain ⟨ha, hk⟩ := hkept.mp ha
    cases hq.symm.trans (hplace a ha)
    exact ⟨a, ha, hk, rfl⟩
  · rintro ⟨a, ha, hk, rfl⟩
    exact ⟨a, hkept.mpr ⟨ha, hk⟩, _, hplace a ha, rfl⟩

/-- **The body of the loop**: after it every auth event of the event is on its chain, linked to, or led to by another. -/
theorem linkEvent_ok (hauth : ((authChain.lookup id).getD []).Perm (ev.auth id))
    (hmap : ∀ x ∈ id :: ev.auth id, ∃ p, chainMap.lookup x = some p ∧ pos x = some p)
    (h : Linking ev pos stored seen acc) :
    ∃ acc', linkEvent o authChain chainMap acc id = .ok acc' ∧ Linking ev pos stored (seen ++ [id]) acc' := by
  obtain ⟨p, hp, hposp⟩ := hmap id mem_cons_self
  have hplace : ∀ a ∈ ev.auth id, chainMap.lookup a = some (place chainMap a) ∧ pos a = some (place chainMap a) := by
    intro a ha
    obtain ⟨q, hq, hpos⟩ := hmap a (mem_cons_of_mem _ ha)
    simp [place, hq, hpos]
  generalize hid : (authChain.lookup id).getD [] = auth at hauth
  obtain ⟨acc', hrun, hsub, hlinks⟩ := linkEvent_links o acc hid hp fun a ha =>
    ⟨_, (hplace a (hauth.mem_iff.mp ha)).1⟩
  have hold : ∀ l ∈ acc.2, l ∈ acc'.2 := fun l hl => (hlinks l).mpr (.inl hl)
  have hreach : ∀ {r q}, Reach {l | l ∈ stored ∨ l ∈ acc.2} r q → Reach {l | l ∈ stored ∨ l ∈ acc'.2} r q :=
    Reach.mono fun l hl => hl.imp_right (hold l)
  refine ⟨acc', hrun, ?_, ?_, ?_⟩
  · intro l hl
    rcases hsub l hl with hl | hl
    · exact (h.sub l hl).imp_right (hold l)
    · exact .inr hl
  · intro l hl
    rcases (hlinks l).mp hl with hl | ⟨a, ha, hk, rfl⟩
    · exact h.sound l hl
    · have ha := hauth.mem_iff.mp ha
      exact ⟨hk.1.symm, id, a, ha, hposp, (hplace a ha).2⟩
  · intro x hx p' hp' b hb q hq
    rcases mem_append.mp hx with hx | hx
    · rcases h.covered x hx p' hp' b hb q hq with hchain | hlink | ⟨a, ha, hne, r, hr, hreach'⟩
      · exact .inl hchain
      · exact .inr (.inl (hold _ hlink))
      · exact .inr (.inr ⟨a, ha, hne, r, hr, hreach hreach'⟩)
    obtain rfl := mem_singleton.mp hx
    cases hposp.symm.trans hp'
    cases hq.symm.trans (hplace b hb).2
    by_cases hk : kept acc.1 p chainMap auth b
    · exact .inr (.inl ((hlinks _).mpr (.inr ⟨b, hauth.mem_iff.mpr hb, hk, rfl⟩)))
    by_cases hchain : (place chainMap b).1 = p.1
    · exact .inl hchain
    · -- another auth event leads to it, for none is listed twice
      have hcount : auth.count b ≤ 1 := nodup_iff_count_le_one.mp (hauth.nodup_iff.mpr (ev.nodup x)) b
      obtain ⟨a, ha, hab, hpath⟩ := exists_path_of_not_kept hk hchain
      obtain ⟨-, hposa⟩ := hplace a (hauth.mem_iff.mp ha)
      refine .inr (.inr ⟨a, hauth.mem_iff.mp ha, fun h => by have := hab h; omega, _, hposa, hreach ?_⟩)
      exact (reach_of_existsPathFrom hpath).mono fun l hl => h.sub l hl

/-- The index is exact, but for an event at `p` that has no links yet.  Auth events may be listed more than once. -/
structure Unlinked (auth : String → List String) (pos : String → Option Pos) (links : Set Link) (id : String) (p : Pos) :
    Prop where
  acyclic : ∀ a, ¬ TransGen (Edge auth) a a
  unique : ∀ a b p, pos a = some p → pos b = some p → a = b
  contiguous : Contiguous auth pos
  sound : ∀ l ∈ links, ∃ a, ∃ b ∈ auth a, pos a = some l.src ∧ pos b = some l.target
  covered : ∀ a q, pos a = some q → a ≠ id → ∀ b ∈ auth a, ∃ r, pos b = some r ∧ Reach links q r
  here : pos id = some p
  known : ∀ b ∈ auth id, ∃ q, pos b = some q
  fresh : ∀ l ∈ links, l.src ≠ p

section Repetitions

variable {auth : String → List String} {links links' : Set Link} {b : String} {q : Pos}

/-- An auth event on the chain of the event is below it, for else the event would be in its own auth chain. -/
theorem Unlinked.lower (h : Unlinked auth pos links id p) (hb : b ∈ auth id) (hq : pos b = some q) (hchain : q.1 = p.1) :
    q.2 ≤ p.2 := by
  by_contra hlt
  obtain ⟨c, hc, hpath⟩ := descend h.contiguous hq (seq_pos h.contiguous h.here) (by omega : p.2 ≤ q.2)
  rw [hchain] at hc
  obtain rfl := h.unique c id p hc h.here
  exact h.acyclic c (.head' hb hpath)

/-- The auth chain of an auth event of the event is reached. -/
theorem Unlinked.reach (h : Unlinked auth pos links id p) {c : String} (hq : pos b = some q)
    (hpath : ReflTransGen (Edge auth) c b) (hc : TransGen (Edge auth) id c) : ∀ r, pos c = some r → Reach links r q := by
  induction hpath using ReflTransGen.head_induction_on with
  | refl =>
    intro r hr
    cases hr.symm.trans hq
    exact .refl
  | head hedge _ ih =>
    intro r hr
    obtain ⟨r', hr', hreach⟩ := h.covered _ r hr (fun heq => h.acyclic id (heq ▸ hc)) _ hedge
    exact hreach.trans (ih (hc.tail hedge) r' hr')

/-- What is reached from the event is on its chain, or is reached from an auth event other than `b`, if `b` is not on its
chain and not linked to. -/
theorem Unlinked.way (h : Unlinked auth pos links id p) (hsub : links ⊆ links') (hq : pos b = some q) (hchain : q.1 ≠ p.1)
    (hnew : ∀ l ∈ links', l ∈ links ∨ l.src = p ∧ ∃ a ∈ auth id, a ≠ b ∧ pos a = some l.target) {r : Pos}
    (hreach : Reach links' p r) :
    (r.1 = p.1 ∧ r.2 ≤ p.2) ∨ ∃ a ∈ auth id, a ≠ b ∧ ∃ t, pos a = some t ∧ Reach links' t r := by
  induction hreach with
  | refl => exact .inl ⟨rfl, le_rfl⟩
  | tail hpath hmove ih =>
    rcases ih with ⟨hsame, hle⟩ | ⟨a, ha, hne, t, ht, hreach⟩
    · rcases hmove with ⟨hdown, hseq⟩ | ⟨l, hl, hsrc, hseq, rfl⟩
      · exact .inl ⟨hdown.symm.trans hsame, hseq.trans hle⟩
      rcases hnew l hl with hold | ⟨-, a, ha, hne, ht⟩
      · -- the link starts below the event, so at or below the event before it
        obtain ⟨x, -, -, hx, -⟩ := h.sound l hold
        have hne : l.src.2 ≠ p.2 := fun heq => h.fresh l hold (Prod.ext (hsrc.trans hsame) heq)
        have hpos := seq_pos h.contiguous hx
        rcases h.contiguous id p h.here with hone | ⟨-, c, hc, hposc⟩
        · omega
        refine .inr ⟨c, hc, ?_, _, hposc, Reach.link (hsub hold) (hsrc.trans hsame) (show l.src.2 ≤ p.2 - 1 by omega)⟩
        rintro rfl
        cases hposc.symm.trans hq
        exact hchain rfl
      · exact .inr ⟨a, ha, hne, _, ht, .refl⟩
    · exact .inr ⟨a, ha, hne, t, ht, hreach.tail hmove⟩

/-- If the links after it are the links of `kept`, what has to be reached in another way is. -/
theorem Unlinked.exact (h : Unlinked auth pos links id p) (hold : links ⊆ links')
    (hsound : ∀ l ∈ links', ∃ a, ∃ b ∈ auth a, pos a = some l.src ∧ pos b = some l.target)
    (hred : ∀ b ∈ auth id, ∀ q, pos b = some q → q.1 = p.1 ∨ ⟨p, q⟩ ∈ links' ∨
      ∃ c ∈ auth id, c ≠ b ∧ ∃ r, pos c = some r ∧ Reach links r q) : Exact auth pos links' := by
  refine Cover.exact ⟨h.unique, h.contiguous, hsound, fun a q ha b hb => ?_⟩
  by_cases haid : a = id
  · subst haid
    cases h.here.symm.trans ha
    refine reach_of_reduced h.acyclic h.unique h.contiguous hsound h.known (fun b hb q hq => ?_) b hb
    rcases hred b hb q hq with hchain | hlink | ⟨c, hc, hne, r, hr, hreach⟩
    · exact .inl (.down hchain.symm (h.lower hb hq hchain))
    · exact .inl (Reach.link hlink rfl le_rfl)
    · exact .inr ⟨c, hc, hne, r, hr, hreach.mono hold⟩
  · obtain ⟨r, hr, hreach⟩ := h.covered a q ha haid b hb
    exact ⟨r, hr, hreach.mono hold⟩

end Repetitions

/-- **Repetitions.**  An event that lists auth events more than once leaves the index exact exactly if each of these is on
the chain of the event or in the auth chain of another auth event that it lists. -/
theorem linkEvent_exact_iff (o : Orders) (acc : LinkMap × List Link) {auth : String → List String}
    (h : Unlinked auth pos {l | l ∈ stored ∨ l ∈ acc.2} id p) (hsub : ∀ l ∈ acc.1, l ∈ stored ∨ l ∈ acc.2)
    (hid : (authChain.lookup id).getD [] = auth id) (hmap : ∀ x ∈ id :: auth id, chainMap.lookup x = pos x) :
    ∃ acc', linkEvent o authChain chainMap acc id = .ok acc' ∧ (Exact auth pos {l | l ∈ stored ∨ l ∈ acc'.2} ↔
      ∀ b, 2 ≤ (auth id).count b → ∀ q, pos b = some q →
        q.1 = p.1 ∨ ∃ a ∈ auth id, a ≠ b ∧ ReflTransGen (Edge auth) a b) := by
  have hplace : ∀ a ∈ auth id, chainMap.lookup a = some (place chainMap a) ∧ pos a = some (place chainMap a) := by
    intro a ha
    obtain ⟨q, hq⟩ := h.known a ha
    have hlook := (hmap a (mem_cons_of_mem _ ha)).trans hq
    simp [place, hlook, hq]
  obtain ⟨acc', hrun, -, hlinks⟩ := linkEvent_links o acc hid ((hmap id mem_cons_self).trans h.here)
    fun a ha => ⟨_, (hplace a ha).1⟩
  refine ⟨acc', hrun, ?_⟩
  have hold : {l | l ∈ stored ∨ l ∈ acc.2} ⊆ {l | l ∈ stored ∨ l ∈ acc'.2} := fun l hl =>
    hl.imp_right fun hl => (hlinks l).mpr (.inl hl)
  have hnew : ∀ l ∈ {l | l ∈ stored ∨ l ∈ acc'.2}, l ∈ {l | l ∈ stored ∨ l ∈ acc.2} ∨
      l.src = p ∧ ∃ a ∈ auth id, kept acc.1 p chainMap (auth id) a ∧ pos a = some l.target := by
    rintro l (hl | hl)
    · exact .inl (.inl hl)
    rcases (hlinks l).mp hl with hl | ⟨a, ha, hk, rfl⟩
    · exact .inl (.inr hl)
    · exact .inr ⟨rfl, a, ha, hk, (hplace a ha).2⟩
  have hsound : ∀ l ∈ {l | l ∈ stored ∨ l ∈ acc'.2}, ∃ a, ∃ b ∈ auth a, pos a = some l.src ∧ pos b = some l.target := by
    intro l hl
    rcases hnew l hl with hl | ⟨hsrc, a, ha, -, hpos⟩
    · exact h.sound l hl
    · exact ⟨id, a, ha, hsrc ▸ h.here, hpos⟩
  constructor
  · intro hexact b hcount q hq
    have hb : b ∈ auth id := count_pos_iff.mp (by omega)
    by_cases hchain : q.1 = p.1
    · exact .inl hchain
    have hreach := (hexact.reach id b p q h.here hq).mpr (.single hb)
    -- it leads to itself
    have hself : ¬ kept acc.1 p chainMap (auth id) b := fun hk => by
      have hpath := hk.2 b hb fun _ => hcount
      simp [LinkMap.existsPathFrom] at hpath
    rcases h.way hold hq hchain (fun l hl => (hnew l hl).imp_right fun ⟨hsrc, a, ha, hk, ht⟩ =>
      ⟨hsrc, a, ha, fun hab => hself (hab ▸ hk), ht⟩) hreach with ⟨hsame, -⟩ | ⟨a, ha, hne, t, ht, hreach⟩
    · exact absurd hsame hchain
    · exact .inr ⟨a, ha, hne, path_of_reach h.unique h.contiguous hsound ht hq hreach⟩
  · intro hrep
    refine h.exact hold hsound fun b hb q hq => ?_
    cases hq.symm.trans (hplace b hb).2
    by_cases hk : kept acc.1 p chainMap (auth id) b
    · exact .inr (.inl (.inr ((hlinks _).mpr (.inr ⟨b, hb, hk, rfl⟩))))
    by_cases hchain : (place chainMap b).1 = p.1
    · exact .inl hchain
    obtain ⟨c, hc, hcb, hpath⟩ := exists_path_of_not_kept hk hchain
    by_cases heq : c = b
    · obtain hsame | ⟨c', hc', hne, hpath'⟩ := hrep b (hcb heq) _ hq
      · exact absurd hsame hchain
      · have hposc := (hplace c' hc').2
        exact .inr (.inr ⟨c', hc', hne, _, hposc, h.reach hq hpath' (.single hc') _ hposc⟩)
    · exact .inr (.inr ⟨c, hc, heq, _, (hplace c hc).2, (reach_of_existsPathFrom hpath).mono fun l hl => hsub l hl⟩)

theorem loadLinks_ok {rows : List Link} (h : ∀ l ∈ rows, l.src.1 ≠ l.target.1) :
    ∃ m, loadLinks rows = .ok m ∧ ∀ l ∈ m, l ∈ rows := by
  refine (foldlM_total (fun done (m : LinkMap) => ∀ l ∈ m, l ∈ done) (by simp) ?_)
  intro done l rest m hsplit hm
  obtain ⟨⟨added, m'⟩, hadd⟩ := addLink_ok m (h l (hsplit ▸ mem_append_right _ mem_cons_self)) false
  refine ⟨m', ?_, fun l' hl' => ?_⟩
  · rw [hadd]
    rfl
  · rcases mem_of_addLink hadd hl' with hl' | rfl
    · exact mem_append_left _ (hm l' hl')
    · exact mem_append_right _ mem_cons_self

variable (pos) in
theorem calculateLinks_ok {nodes : List String} (hstored : ∀ l ∈ stored, l.src.1 ≠ l.target.1)
    (hauth : ∀ id ∈ sortedTopologically nodes authChain, ((authChain.lookup id).getD []).Perm (ev.auth id))
    (hmap : ∀ id ∈ sortedTopologically nodes authChain, ∀ x ∈ id :: ev.auth id,
      ∃ p, chainMap.lookup x = some p ∧ pos x = some p) :
    ∃ links, calculateLinks o authChain chainMap stored nodes = .ok links ∧
      ∃ m, Linking ev pos stored (sortedTopologically nodes authChain) (m, links) := by
  have hloaded : ∀ l ∈ (getChainLinks stored (o.numbers (chainMap.entries.map fun e => e.2.1).dedup)).flatten,
      l.src.1 ≠ l.target.1 := by
    intro l hl
    obtain ⟨rows, hrows, hl⟩ := mem_flatten.mp hl
    exact hstored l (mem_of_mem_getChainLinks hrows hl)
  obtain ⟨m, hload, hm⟩ := loadLinks_ok hloaded
  have hstart : Linking ev pos stored [] (m, []) := by
    refine ⟨fun l hl => ?_, by simp, by simp⟩
    obtain ⟨rows, hrows, hl⟩ := mem_flatten.mp (hm l hl)
    exact .inl (mem_of_mem_getChainLinks hrows hl)
  obtain ⟨acc, hfold, hacc⟩ := foldlM_total (f := linkEvent o authChain chainMap)
    (l := sortedTopologically nodes authChain) (Linking ev pos stored) hstart fun seen id rest acc hsplit h => by
      have hid := hsplit ▸ mem_append_right _ mem_cons_self
      exact linkEvent_ok (hauth id hid) (hmap id hid) h
  refine ⟨acc.2, ?_, acc.1, hacc⟩
  unfold calculateLinks
  rw [hload]
  show ((sortedTopologically nodes authChain).foldlM (linkEvent o authChain chainMap) (m, []) >>= fun r => pure r.2) = _
  rw [hfold]
  rfl

end Linking

/-! ### An auth event listed twice -/

namespace Twice

def positions : Dict Pos :=
  (((∅ : Dict Pos).insert "$create" (1, 1)).insert "$join" (2, 1)).insert "$levels" (3, 1)

def listing (id : String) (auth : List String) : Dict (List String) := (∅ : Dict (List String)).insert id auth

/-- The join lists the create event twice, -/
def auth (id : String) : List String := if id = "$join" then ["$create", "$create"] else []

/-- and is on its chain. -/
def pos (id : String) : Option Pos := if id = "$create" then some (1, 1) else if id = "$join" then some (1, 2) else none

theorem mem_auth {a b : String} : b ∈ auth a ↔ a = "$join" ∧ b = "$create" := by
  unfold auth
  split_ifs with ha
  · simp [ha]
  · simp [ha]

theorem unlinked : Unlinked auth pos {l | l ∈ [] ∨ l ∈ []} "$join" (1, 2) where
  acyclic a h := by
    obtain ⟨b, hab, -⟩ := TransGen.head'_iff.mp h
    obtain ⟨c, -, hca⟩ := TransGen.tail'_iff.mp h
    exact absurd ((mem_auth.mp hab).1.symm.trans (mem_auth.mp hca).2) (by decide)
  unique a b p ha hb := by
    unfold pos at ha hb
    split_ifs at ha hb with hac hbc hbj haj hbc hbj
    · rw [hac, hbc]
    · cases ha.trans hb.symm
    · cases ha.trans hb.symm
    · rw [haj, hbj]
  contiguous a p ha := by
    unfold pos at ha
    split_ifs at ha with hcreate hjoin
    · cases ha
      exact .inl rfl
    · cases ha
      exact .inr ⟨by decide, "$create", mem_auth.mpr ⟨hjoin, rfl⟩, rfl⟩
  sound := by simp
  covered a q ha hne b hb := absurd (mem_auth.mp hb).1 hne
  here := rfl
  known b hb := ⟨(1, 1), by rw [(mem_auth.mp hb).2]; rfl⟩
  fresh := by simp

theorem linkEvent_repeated_create : ∃ acc', linkEvent .listed (listing "$join" (auth "$join"))
      (((∅ : Dict Pos).insert "$create" (1, 1)).insert "$join" (1, 2)) ([], []) "$join" = .ok acc' ∧
    Exact auth pos {l | l ∈ [] ∨ l ∈ acc'.2} := by
  obtain ⟨acc', hrun, hiff⟩ := linkEvent_exact_iff .listed ([], []) unlinked (by simp)
    (show ((listing "$join" (auth "$join")).lookup "$join").getD [] = _ from rfl)
    (show ∀ x ∈ ["$join", "$create", "$create"],
      (((∅ : Dict Pos).insert "$create" (1, 1)).insert "$join" (1, 2)).lookup x = pos x by decide)
  refine ⟨acc', hrun, hiff.mpr fun b hb q hq => .inl ?_⟩
  obtain rfl := (mem_auth.mp (count_pos_iff.mp (Nat.lt_of_lt_of_le Nat.two_pos hb))).2
  cases hq
  rfl

/-- The only auth event of the join is listed twice, and the join is not linked to it. -/
theorem repetition_loses_link :
    calculateLinks .listed (listing "$join" ["$create"]) positions [] ["$join"] = .ok [⟨(2, 1), (1, 1)⟩] ∧
      calculateLinks .listed (listing "$join" ["$create", "$create"]) positions [] ["$join"] = .ok [] ∧
      ¬ Reach {l | l ∈ ([] : List Link)} (2, 1) (1, 1) := by
  refine ⟨rfl, rfl, fun h => ?_⟩
  have hchain : ∀ p q, Reach {l | l ∈ ([] : List Link)} p q → q.1 = p.1 := by
    intro p q hpq
    induction hpq with
    | refl => rfl
    | tail _ hmove ih =>
      rcases hmove with ⟨hsame, -⟩ | ⟨l, hl, -⟩
      · exact hsame.symm.trans ih
      · cases hl
  cases hchain _ _ h

end Twice

end Synapse.AuthChain
