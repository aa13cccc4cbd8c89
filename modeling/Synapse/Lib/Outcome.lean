import Synapse.Lib.Dict

/-!
# Synapse.Lib.Outcome — computations that may raise or run out of fuel

* `Halt`: why a computation has no result.  Loops without a structural bound take fuel; running out of it stands for
  not terminating.
* `outcome`: what is observed of a run, up to which exception is raised.
* `Agree`: two runs end with the same outcome; `Agree.bind`, `Agree.foldlM`, `Agree.assign`: they do so step by step.
* `foldlM_total`: the invariant rule of a loop over a list, with its total correctness.
* `mapM_ok`: a list comprehension, with the relation between the elements and their results.
* `gather`: loops whose calls do not depend on what has been gathered.
* `assign`, `collect`: loops that assign to the keys of a dict; their outcome does not depend on the order of the keys.
-/

namespace Synapse.Lib

open List Option Finmap

/-- Why a computation has no result. -/
inductive Halt (ε : Type) where
  | raised (e : ε)
  | outOfFuel

variable {ε α β σ κ : Type}

/-- `none` without termination, `some none` with an exception, `some (some a)` with the result `a`. -/
def outcome : Except (Halt ε) α → Option (Option α)
  | .ok a => some (some a)
  | .error (.raised _) => some none
  | .error .outOfFuel => none

@[simp] theorem outcome_ok (a : α) : outcome (.ok a : Except (Halt ε) α) = some (some a) := rfl

@[simp] theorem outcome_pure (a : α) : outcome (pure a : Except (Halt ε) α) = some (some a) := rfl

variable {x : Except (Halt ε) α}

theorem ok_of_outcome {a : α} (h : outcome x = some (some a)) : x = .ok a := by
  rcases x with (_ | _) | _ <;> simp_all [outcome]

theorem ok_or_raised (h : outcome x ≠ none) : (∃ a, x = .ok a) ∨ outcome x = some none := by
  match x with
  | .ok a => exact .inl ⟨a, rfl⟩
  | .error (.raised e) => exact .inr rfl
  | .error .outOfFuel => exact absurd rfl h

/-- A run whose first part has the outcome `some v` ends as the rest does. -/
theorem outcome_bind {f : α → Except (Halt ε) β} {v : Option α} (h : outcome x = some v) :
    outcome (x >>= f) = v.elim (some none) (outcome <| f ·) := by
  rcases x with (_ | _) | a <;> simp_all [outcome] <;> subst h <;> rfl

theorem outcome_bind_ne_none {f : α → Except (Halt ε) β} (h : outcome x ≠ none)
    (hf : ∀ a, x = .ok a → outcome (f a) ≠ none) : outcome (x >>= f) ≠ none := by
  rcases ok_or_raised h with ⟨a, rfl⟩ | hx
  · exact hf a rfl
  · rw [outcome_bind hx]
    simp

/-- Both runs end, with the same outcome. -/
def Agree (x y : Except (Halt ε) α) : Prop := outcome x = outcome y ∧ outcome x ≠ none

theorem Agree.refl (h : outcome x ≠ none) : Agree x x := ⟨rfl, h⟩

theorem Agree.bind {y : Except (Halt ε) α} {f g : α → Except (Halt ε) β} (h : Agree x y)
    (hfg : ∀ a, x = .ok a → Agree (f a) (g a)) : Agree (x >>= f) (y >>= g) := by
  refine ⟨?_, outcome_bind_ne_none h.2 fun a ha => (hfg a ha).2⟩
  rcases ok_or_raised h.2 with ⟨a, rfl⟩ | hx
  · rw [ok_of_outcome h.1.symm]
    exact (hfg a rfl).1
  · rw [outcome_bind hx, outcome_bind (h.1.symm.trans hx)]
    rfl

/-! ## Computations that end

Up to which exception is raised, the outcome is `Except.toOption`. -/

theorem outcome_eq_toOption (h : outcome x ≠ none) : outcome x = some x.toOption := by
  match x with
  | .ok a => rfl
  | .error (.raised e) => rfl
  | .error .outOfFuel => exact absurd rfl h

theorem ok_or_raises (x : Except ε α) : (∃ a, x = .ok a) ∨ x.toOption = none := by
  cases x with
  | ok a => exact .inl ⟨a, rfl⟩
  | error e => exact .inr rfl

theorem ok_of_toOption {x : Except ε α} {a : α} (h : x.toOption = some a) : x = .ok a := by
  cases x with
  | ok b =>
    cases h
    rfl
  | error e => cases h

variable {f : α → Except ε β}

theorem toOption_bind_congr {x y : Except ε α} {g : α → Except ε β} (h : x.toOption = y.toOption)
    (hfg : ∀ a, x = .ok a → (f a).toOption = (g a).toOption) : (x >>= f).toOption = (y >>= g).toOption := by
  cases x with
  | ok a =>
    rw [ok_of_toOption h.symm]
    exact hfg a rfl
  | error e =>
    cases y with
    | ok b => cases h
    | error e' => rfl

/-! ## Loops over a list -/

variable {l : List α} {s : σ}

/-- **The rule of a loop.** `Inv seen s` holds of the part of the list already visited. -/
theorem foldlM_total {f : σ → α → Except ε σ} (Inv : List α → σ → Prop) (h0 : Inv [] s)
    (hstep : ∀ seen x rest s, l = seen ++ x :: rest → Inv seen s → ∃ s', f s x = .ok s' ∧ Inv (seen ++ [x]) s') :
    ∃ s', l.foldlM f s = .ok s' ∧ Inv l s' := by
  suffices h : ∀ rest seen s, l = seen ++ rest → Inv seen s → ∃ s', rest.foldlM f s = .ok s' ∧ Inv l s' from
    h l [] s rfl h0
  intro rest
  induction rest with
  | nil =>
    intro seen s hl hs
    exact ⟨s, rfl, by rwa [hl, append_nil]⟩
  | cons x rest ih =>
    intro seen s hl hs
    obtain ⟨s', hx, hs'⟩ := hstep seen x rest s hl hs
    obtain ⟨s'', hrest, hs''⟩ := ih (seen ++ [x]) s' (by simp [hl]) hs'
    exact ⟨s'', by rw [foldlM_cons, hx]; exact hrest, hs''⟩

theorem foldlM_raises {f : σ → α → Except ε σ} {x : α} (hx : x ∈ l) (h : ∀ s, (f s x).toOption = none) (s : σ) :
    (l.foldlM f s).toOption = none := by
  induction l generalizing s with
  | nil => cases hx
  | cons y rest ih =>
    rw [foldlM_cons]
    cases hy : f s y with
    | error e => rfl
    | ok s' =>
      rcases mem_cons.mp hx with rfl | hx
      · have hraise := h s
        rw [hy] at hraise
        cases hraise
      · exact ih hx s'

theorem Agree.foldlM {f g : σ → α → Except (Halt ε) σ} (h : ∀ s, ∀ a ∈ l, Agree (f s a) (g s a)) (s : σ) :
    Agree (l.foldlM f s) (l.foldlM g s) := by
  induction l generalizing s with
  | nil => exact .refl (by simp)
  | cons a l ih =>
    exact (h s a (by simp)).bind fun s' _ => ih (fun s a ha => h s a (by simp [ha])) s'

theorem outcome_foldlM_raised {f : σ → α → Except (Halt ε) σ} (Inv : σ → Prop) (hs : Inv s)
    (hstep : ∀ s, Inv s → ∀ x ∈ l, (∃ s', f s x = .ok s' ∧ Inv s') ∨ outcome (f s x) = some none)
    {x : α} (hx : x ∈ l) (hraise : ∀ s, Inv s → outcome (f s x) = some none) : outcome (l.foldlM f s) = some none := by
  induction l generalizing s with
  | nil => cases hx
  | cons y rest ih =>
    rw [foldlM_cons]
    rcases hstep s hs y (by simp) with ⟨s', hy, hs'⟩ | hy
    · have hxy : x ≠ y := by
        rintro rfl
        have := hraise s hs
        rw [hy] at this
        cases this
      rw [hy]
      exact ih hs' (fun s hs z hz => hstep s hs z (by simp [hz])) ((mem_cons.mp hx).resolve_left hxy)
    · rw [outcome_bind hy]
      rfl

variable {R : α → β → Prop}

theorem mapM_ok (h : ∀ a ∈ l, ∃ b, f a = .ok b ∧ R a b) : ∃ bs, l.mapM f = .ok bs ∧ Forall₂ R l bs := by
  induction l with
  | nil => exact ⟨[], rfl, .nil⟩
  | cons a l ih =>
    obtain ⟨b, hb, hab⟩ := h a mem_cons_self
    obtain ⟨bs, hbs, hall⟩ := ih fun a' ha' => h a' (mem_cons_of_mem _ ha')
    refine ⟨b :: bs, ?_, .cons hab hall⟩
    rw [mapM_cons, hb, hbs]
    rfl

/-! ## Loops that gather

Each pass makes a call that does not depend on what has been gathered. -/

/-- `for x in l: s = g(s, x, f(x))` -/
def gather (f : α → Except ε β) (g : σ → α → β → σ) (s : σ) (l : List α) : Except ε σ :=
  l.foldlM (fun s x => do pure (g s x (← f x))) s

/-- What has been gathered when no call raises. -/
def gathered (f : α → Except ε β) (g : σ → α → β → σ) (s : σ) (l : List α) : σ :=
  l.foldl (fun s x => (f x).toOption.elim s (g s x)) s

variable {g : σ → α → β → σ}

theorem gather_ok (h : ∀ x ∈ l, ∃ b, f x = .ok b) (s : σ) : gather f g s l = .ok (gathered f g s l) := by
  induction l generalizing s with
  | nil => rfl
  | cons x l ih =>
    obtain ⟨b, hb⟩ := h x mem_cons_self
    rw [gather, foldlM_cons, gathered, foldl_cons, hb]
    exact ih (fun y hy => h y (mem_cons_of_mem _ hy)) (g s x b)

theorem gather_raises {x : α} (hx : x ∈ l) (h : (f x).toOption = none) (s : σ) : (gather f g s l).toOption = none := by
  refine foldlM_raises hx (fun s => ?_) s
  cases hfx : f x with
  | ok b =>
    rw [hfx] at h
    cases h
  | error e => rfl

theorem gather_inv {s' : σ} (h : gather f g s l = .ok s') : (∀ x ∈ l, ∃ b, f x = .ok b) ∧ s' = gathered f g s l := by
  have hok : ∀ x ∈ l, ∃ b, f x = .ok b := by
    intro x hx
    refine (ok_or_raises (f x)).resolve_right fun hraise => ?_
    have hnone := gather_raises (g := g) hx hraise s
    rw [h] at hnone
    cases hnone
  refine ⟨hok, ?_⟩
  rw [gather_ok hok] at h
  cases h
  rfl

/-- **What is gathered does not depend on the order of the list**, if it does not do so where no call raises. -/
theorem toOption_gather_congr {f' : α → Except ε β} {g' : σ → α → β → σ} {l' : List α} (hmem : ∀ x, x ∈ l ↔ x ∈ l')
    (hf : ∀ x ∈ l, (f x).toOption = (f' x).toOption) (s : σ) (hsame : gathered f g s l = gathered f' g' s l') :
    (gather f g s l).toOption = (gather f' g' s l').toOption := by
  by_cases hraise : ∃ x ∈ l, (f x).toOption = none
  · obtain ⟨x, hx, hraise⟩ := hraise
    rw [gather_raises hx hraise, gather_raises ((hmem x).mp hx) ((hf x hx).symm.trans hraise)]
  · have hok : ∀ x ∈ l, ∃ b, f x = .ok b := fun x hx => (ok_or_raises (f x)).resolve_right fun h => hraise ⟨x, hx, h⟩
    have hok' : ∀ x ∈ l', ∃ b, f' x = .ok b := fun x hx => by
      obtain ⟨b, hb⟩ := hok x ((hmem x).mpr hx)
      exact ⟨b, ok_of_toOption (by rw [← hf x ((hmem x).mpr hx), hb]; rfl)⟩
    rw [gather_ok hok, gather_ok hok', hsame]

/-! ## Lists side by side -/

variable {l' : List β}

theorem forall₂_quantifiers {A : α → Prop} {B : β → Prop} (h : Forall₂ (fun a b => B b ↔ A a) l l') :
    ((∃ b ∈ l', B b) ↔ ∃ a ∈ l, A a) ∧ ((∀ b ∈ l', B b) ↔ ∀ a ∈ l, A a) := by
  induction h with
  | nil => simp
  | cons hab _ ih => simp [hab, ih.1, ih.2]

theorem forall₂_comp {γ : Type} {S : β → γ → Prop} {l'' : List γ}
    (h : Forall₂ R l l') (h' : Forall₂ S l' l'') : Forall₂ (fun a c => ∃ b, R a b ∧ S b c) l l'' := by
  induction h generalizing l'' with
  | nil =>
    cases h'
    exact .nil
  | cons hab _ ih =>
    cases h' with
    | cons hbc hrest => exact .cons ⟨_, hab, hbc⟩ (ih hrest)

theorem forall₂_right (h : Forall₂ R l l') : ∀ b ∈ l', ∃ a ∈ l, R a b := by
  induction h with
  | nil => exact fun b hb => absurd hb not_mem_nil
  | cons hab _ ih =>
    intro b hb
    rcases mem_cons.mp hb with rfl | hb
    · exact ⟨_, mem_cons_self, hab⟩
    · obtain ⟨a, ha, hab⟩ := ih b hb
      exact ⟨a, mem_cons_of_mem _ ha, hab⟩

/-! ## Assignments to a dict -/

section Assign

variable [DecidableEq κ]

/-- `for k in keys: v = f(k); if v is not None: d[k] = v` -/
def assign {m : Type → Type} [Monad m] (f : κ → m (Option β)) (d : Finmap fun _ : κ => β) (keys : List κ) :
    m (Finmap fun _ : κ => β) :=
  keys.foldlM (fun d k => do
    match ← f k with
    | some b => pure (d.insert k b)
    | none => pure d) d

/-- `{k: f(k) for k in keys}` -/
def collect {m : Type → Type} [Monad m] (f : κ → m β) (keys : List κ) : m (Finmap fun _ : κ => β) :=
  assign (fun k => do pure (some (← f k))) ∅ keys

variable {f : κ → Except ε (Option β)} {keys : List κ}

theorem assign_eq_gather (d : Finmap fun _ : κ => β) :
    assign f d keys = gather f (fun d k b => b.elim d (d.insert k)) d keys := by
  refine congrArg (fun step => keys.foldlM step d) (funext fun d => funext fun k => ?_)
  rcases f k with _ | (_ | _) <;> rfl

theorem gathered_eq_setItems (d : Finmap fun _ : κ => β) : gathered f (fun d k b => b.elim d (d.insert k)) d keys =
    setItems (fun k => (f k).toOption.join) d keys := by
  refine congrArg (fun step => keys.foldl step d) (funext fun d => funext fun k => ?_)
  dsimp only
  rcases f k with _ | (_ | _) <;> rfl

theorem assign_raises (d : Finmap fun _ : κ => β) {k : κ} (hk : k ∈ keys)
    (h : (f k).toOption = none) : (assign f d keys).toOption = none := by
  rw [assign_eq_gather]
  exact gather_raises hk h d

theorem assign_inv {d d' : Finmap fun _ : κ => β} (h : assign f d keys = .ok d') :
    (∀ k ∈ keys, ∃ b, f k = .ok b) ∧ d' = setItems (fun k => (f k).toOption.join) d keys := by
  rw [assign_eq_gather] at h
  rw [← gathered_eq_setItems]
  exact gather_inv h

variable {keys' : List κ}

section

variable (d : Finmap fun _ : κ => β)

/-- **Assignments that end do not depend on the order of their keys.** -/
theorem toOption_assign_congr {f' : κ → Except ε (Option β)}
    (hmem : ∀ k, k ∈ keys ↔ k ∈ keys') (hf : ∀ k ∈ keys, (f k).toOption = (f' k).toOption) :
    (assign f d keys).toOption = (assign f' d keys').toOption := by
  rw [assign_eq_gather, assign_eq_gather]
  refine toOption_gather_congr hmem hf d ?_
  rw [gathered_eq_setItems, gathered_eq_setItems]
  refine ext_lookup fun k => ?_
  rw [lookup_setItems, lookup_setItems]
  by_cases hk : k ∈ keys
  · rw [if_pos hk, if_pos ((hmem k).mp hk), hf k hk]
  · rw [if_neg hk, if_neg fun h => hk ((hmem k).mpr h)]

section

variable {f : κ → Except (Halt ε) (Option β)} (hf : ∀ k ∈ keys, outcome (f k) ≠ none)
include hf

theorem outcome_assign_ne_none : outcome (assign f d keys) ≠ none := by
  refine (Agree.foldlM (fun d k hk => (Agree.refl (hf k hk)).bind fun b _ => .refl ?_) d).2
  cases b <;> simp

theorem assign_cases : (outcome (assign f d keys) = some none ∧ ∃ k ∈ keys, outcome (f k) = some none) ∨
      ((∀ k ∈ keys, ∃ b, f k = .ok b) ∧ assign f d keys = .ok (setItems (fun k => (f k).toOption.join) d keys)) := by
  by_cases hraise : ∃ k ∈ keys, outcome (f k) = some none
  · obtain ⟨k, hk, hraise⟩ := hraise
    refine .inl ⟨?_, k, hk, hraise⟩
    rw [outcome_eq_toOption (hf k hk)] at hraise
    rw [outcome_eq_toOption (outcome_assign_ne_none d hf), assign_raises d hk (some.inj hraise)]
  · have hval : ∀ k ∈ keys, ∃ b, f k = .ok b := fun k hk =>
      (ok_or_raised (hf k hk)).resolve_right fun h => hraise ⟨k, hk, h⟩
    exact .inr ⟨hval, by rw [assign_eq_gather, gather_ok hval, gathered_eq_setItems]⟩

end

/-- **Assignments do not depend on the order of their keys.** -/
theorem Agree.assign {f f' : κ → Except (Halt ε) (Option β)}
    (hmem : ∀ k, k ∈ keys ↔ k ∈ keys') (hf : ∀ k ∈ keys, Agree (f k) (f' k)) :
    Agree (Lib.assign f d keys) (Lib.assign f' d keys') := by
  have hne : ∀ k ∈ keys, outcome (f' k) ≠ none := fun k hk => (hf k hk).1 ▸ (hf k hk).2
  refine ⟨?_, outcome_assign_ne_none d fun k hk => (hf k hk).2⟩
  rw [outcome_eq_toOption (outcome_assign_ne_none d fun k hk => (hf k hk).2),
    outcome_eq_toOption (outcome_assign_ne_none d fun k hk => hne k ((hmem k).mpr hk))]
  refine congrArg some (toOption_assign_congr d hmem fun k hk => some.inj ?_)
  rw [← outcome_eq_toOption (hf k hk).2, ← outcome_eq_toOption (hne k hk), (hf k hk).1]

end

/-! ## Dict comprehensions -/

theorem outcome_bind_some (x : Except (Halt ε) β) :
    outcome (x >>= fun b => pure (some b)) = (outcome x).map (Option.map some) := by
  rcases x with (_ | _) | _ <;> rfl

/-- A comprehension raises because `f` does at some key, or it has the value of `f` at each key. -/
theorem collect_cases {f : κ → Except (Halt ε) β} (hf : ∀ k ∈ keys, outcome (f k) ≠ none) :
    (outcome (collect f keys) = some none ∧ ∃ k ∈ keys, outcome (f k) = some none) ∨ ∃ d, collect f keys = .ok d ∧
      ∀ k ∈ keys, ∃ b, f k = .ok b ∧ d.lookup k = some b := by
  have hf' : ∀ k ∈ keys, outcome (f k >>= fun b => pure (some b)) ≠ none := fun k hk => by
    rw [outcome_bind_some]
    simpa using hf k hk
  rcases assign_cases ∅ hf' with ⟨h, k, hk, hraise⟩ | ⟨hok, hd⟩
  · rw [outcome_bind_some] at hraise
    exact .inl ⟨h, k, hk, by simpa using hraise⟩
  refine .inr ⟨_, hd, fun k hk => ?_⟩
  obtain ⟨b, hb⟩ := (ok_or_raised (hf k hk)).resolve_right fun h => by
    -- `f k` does not raise, for the assignment at `k` does not
    obtain ⟨b, hb⟩ := hok k hk
    have := outcome_bind_some (f k)
    rw [hb, h] at this
    cases this
  refine ⟨b, hb, ?_⟩
  rw [lookup_setItems, if_pos hk, hb]
  rfl

/-- **Comprehensions do not depend on the order of their keys.** -/
theorem Agree.collect {f f' : κ → Except (Halt ε) β} (hmem : ∀ k, k ∈ keys ↔ k ∈ keys')
    (hf : ∀ k ∈ keys, Agree (f k) (f' k)) : Agree (Lib.collect f keys) (Lib.collect f' keys') :=
  .assign ∅ hmem fun k hk => (hf k hk).bind fun _ _ => .refl (by simp)

end Assign

end Synapse.Lib
