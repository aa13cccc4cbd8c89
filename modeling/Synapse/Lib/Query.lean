import Synapse.Lib.Worklist

/-!
# Synapse.Lib.Query — programs that read a store through a cache

A `Query` asks for values by key.  `fetch` looks in the cache first and keeps what the store returns; `cached` looks
in the cache only.

* `run`: the program with its cache, a dict that it changes.
* `eval`: the program over a fixed lookup, without a cache.
* `Ensures`: a specification of the program over the lookup, with its rules.
* `run_eq_eval`: a cache that agrees with the lookup is not observable, as long as the program uses `cached` at keys
  that are there (`Covered`).
-/

namespace Synapse.Lib

open List Finmap

/-- A program over keys `κ` with values `β`. -/
inductive Query (κ β ε α : Type) where
  | pure (a : α)
  | halt (h : Halt ε)
  | fetch (k : κ) (cont : Option β → Query κ β ε α)
  | cached (k : κ) (cont : Option β → Query κ β ε α)

namespace Query

variable {κ β ε α γ σ : Type}

def bind : Query κ β ε α → (α → Query κ β ε γ) → Query κ β ε γ
  | pure a, f => f a
  | halt h, _ => halt h
  | fetch k cont, f => fetch k fun b => (cont b).bind f
  | cached k cont, f => cached k fun b => (cont b).bind f

instance : Monad (Query κ β ε) where
  pure := pure
  bind := bind

/-- `raise e`. -/
def raise (e : ε) : Query κ β ε α := halt (.raised e)

/-- The computation `x`, which asks for nothing. -/
def lift : Except ε α → Query κ β ε α
  | .ok a => pure a
  | .error e => raise e

section Run

variable [DecidableEq κ] (store : κ → Option β)

def run : Query κ β ε α → (Finmap fun _ : κ => β) → Except (Halt ε) (α × Finmap fun _ : κ => β)
  | pure a, d => .ok (a, d)
  | halt h, _ => .error h
  | fetch k cont, d =>
    match d.lookup k with
    | some b => (cont (some b)).run d
    | none =>
      match store k with
      | some b => (cont (some b)).run (d.insert k b)
      | none => (cont none).run d
  | cached k cont, d => (cont (d.lookup k)).run d

end Run

variable (look : κ → Option β)

def eval : Query κ β ε α → Except (Halt ε) α
  | pure a => .ok a
  | halt h => .error h
  | fetch k cont => (cont (look k)).eval
  | cached k cont => (cont (look k)).eval

/-- Over the lookup, the program uses `cached` only at keys in `keys`. -/
def Covered (keys : Set κ) : Query κ β ε α → Prop
  | pure _ => True
  | halt _ => True
  | fetch k cont => (cont (look k)).Covered keys
  | cached k cont => k ∈ keys ∧ (cont (look k)).Covered keys

section Laws

variable {look} {keys : Set κ}

@[simp] theorem eval_pure (a : α) : eval look (Pure.pure a : Query κ β ε α) = .ok a := rfl

@[simp] theorem eval_raise (e : ε) : eval look (raise e : Query κ β ε α) = .error (.raised e) := rfl

@[simp] theorem eval_halt (h : Halt ε) : eval look (halt h : Query κ β ε α) = .error h := rfl

@[simp] theorem eval_lift_ok (a : α) : eval look (lift (.ok a) : Query κ β ε α) = .ok a := rfl

@[simp] theorem eval_bind (p : Query κ β ε α) (f : α → Query κ β ε γ) :
    eval look (p >>= f) = eval look p >>= fun a => eval look (f a) := by
  induction p with
  | pure a => rfl
  | halt h => rfl
  | fetch k cont ih | cached k cont ih => exact ih (look k)

theorem eval_foldlM (f : σ → α → Query κ β ε σ) (l : List α) (s : σ) :
    eval look (l.foldlM f s) = l.foldlM (fun s a => eval look (f s a)) s := by
  induction l generalizing s with
  | nil => rfl
  | cons a l ih =>
    rw [foldlM_cons, eval_bind]
    exact congrArg _ (funext ih)

theorem eval_assign [DecidableEq α] (f : α → Query κ β ε (Option γ)) (d : Finmap fun _ : α => γ) (l : List α) :
    eval look (assign f d l) = assign (fun a => eval look (f a)) d l := by
  unfold assign
  rw [eval_foldlM]
  refine congrArg (fun step => l.foldlM step d) (funext fun d => funext fun a => ?_)
  rw [eval_bind]
  refine congrArg _ (funext fun r => ?_)
  cases r <;> rfl

theorem eval_collect [DecidableEq α] (f : α → Query κ β ε γ) (l : List α) :
    eval look (collect f l) = collect (fun a => eval look (f a)) l := by
  unfold collect
  rw [eval_assign]
  simp only [eval_bind]
  rfl

theorem eval_worklist (stop : Query κ β ε σ) (visit : α → σ → Query κ β ε (σ × List α)) (fuel : ℕ) (stack : List α)
    (s : σ) : eval look (worklist stop visit fuel stack s) =
      worklist (eval look stop) (fun x s => eval look (visit x s)) fuel stack s := by
  fun_induction worklist stop visit fuel stack s with
  | case1 =>
    rw [worklist]
    rfl
  | case2 => rw [worklist]
  | case3 fuel x stack s ih =>
    rw [eval_bind]
    exact congrArg _ (funext fun r => ih r.1 r.2)

variable {f : α → Query κ β ε γ}

theorem covered_bind {p : Query κ β ε α} (hp : p.Covered look keys)
    (hf : ∀ a, eval look p = .ok a → (f a).Covered look keys) : (p >>= f).Covered look keys := by
  induction p with
  | pure a => exact hf a rfl
  | halt h => trivial
  | fetch k cont ih => exact ih (look k) hp hf
  | cached k cont ih => exact ⟨hp.1, ih (look k) hp.2 hf⟩

/-! ## Specifications -/

/-- The program ends unless `stop` holds, and its result satisfies `Q`; it uses `cached` only at keys in `keys`. -/
structure Ensures (look : κ → Option β) (stop : Prop) (keys : Set κ) (p : Query κ β ε α) (Q : α → Prop) : Prop where
  covered : p.Covered look keys
  ends : stop ∨ outcome (eval look p) ≠ none
  post : ∀ a, eval look p = .ok a → Q a

variable {stop : Prop} {P : α → Prop} {Q : γ → Prop}

theorem ensures_pure {a : α} (h : P a) : (Pure.pure a : Query κ β ε α).Ensures look stop keys P :=
  ⟨trivial, .inr nofun, fun _ ha => Except.ok.inj ha ▸ h⟩

theorem ensures_raise (e : ε) : (raise e : Query κ β ε α).Ensures look stop keys P :=
  ⟨trivial, .inr nofun, nofun⟩

theorem ensures_stop : (halt .outOfFuel : Query κ β ε α).Ensures look True keys P :=
  ⟨trivial, .inl trivial, nofun⟩

theorem ensures_lift {x : Except ε α} (h : ∀ a, x = .ok a → P a) : (lift x : Query κ β ε α).Ensures look stop keys P := by
  cases x with
  | ok a => exact ensures_pure (h a rfl)
  | error e => exact ensures_raise e

variable {cont : Option β → Query κ β ε α}

theorem ensures_fetch {k : κ} (h : (cont (look k)).Ensures look stop keys P) :
    (fetch k cont).Ensures look stop keys P :=
  { h with }

theorem ensures_cached {k : κ} (hk : k ∈ keys)
    (h : (cont (look k)).Ensures look stop keys P) : (cached k cont).Ensures look stop keys P :=
  ⟨⟨hk, h.covered⟩, h.ends, h.post⟩

namespace Ensures

variable {p : Query κ β ε α}

theorem ne_none (h : p.Ensures look False Set.univ P) : outcome (eval look p) ≠ none := h.ends.resolve_left id

theorem ok (h : p.Ensures look False Set.univ P) {a : α} (ha : eval look p = .ok a) : P a := h.post a ha

theorem mono {P' : α → Prop} (h : p.Ensures look stop keys P) (hP : ∀ a, P a → P' a) : p.Ensures look stop keys P' :=
  ⟨h.covered, h.ends, fun a ha => hP a (h.post a ha)⟩

theorem self (h : p.Ensures look stop keys P) : p.Ensures look stop keys fun a => eval look p = .ok a :=
  ⟨h.covered, h.ends, fun _ => id⟩

theorem bind (hp : p.Ensures look stop keys P)
    (hf : ∀ a, P a → (f a).Ensures look stop keys Q) : (p >>= f).Ensures look stop keys Q := by
  refine ⟨covered_bind hp.covered fun a ha => (hf a (hp.post a ha)).covered, ?_, fun c hc => ?_⟩
  · refine or_iff_not_imp_left.mpr fun hstop => ?_
    rw [eval_bind]
    exact outcome_bind_ne_none (hp.ends.resolve_left hstop) fun a ha => (hf a (hp.post a ha)).ends.resolve_left hstop
  rw [eval_bind] at hc
  cases ha : eval look p with
  | error e => rw [ha] at hc; cases hc
  | ok a =>
    rw [ha] at hc
    exact (hf a (hp.post a ha)).post c hc

end Ensures

theorem ensures_foldlM (Inv : σ → Prop) {f : σ → α → Query κ β ε σ} {l : List α}
    (hf : ∀ s, Inv s → ∀ a ∈ l, (f s a).Ensures look stop keys Inv) {s : σ} (hs : Inv s) :
    (l.foldlM f s).Ensures look stop keys Inv := by
  induction l generalizing s with
  | nil => exact ensures_pure hs
  | cons a l ih =>
    exact (hf s hs a (by simp)).bind fun s' hs' => ih (fun s hs a ha => hf s hs a (by simp [ha])) hs'

theorem ensures_assign [DecidableEq α] {f : α → Query κ β ε (Option γ)} {l : List α}
    (hf : ∀ a ∈ l, (f a).Ensures look stop keys fun _ => True) (d : Finmap fun _ : α => γ) :
    (assign f d l).Ensures look stop keys fun _ => True := by
  refine ensures_foldlM _ (fun d _ a ha => (hf a ha).bind fun r _ => ?_) trivial
  cases r <;> exact ensures_pure trivial

theorem ensures_collect [DecidableEq α] {l : List α}
    (hf : ∀ a ∈ l, (f a).Ensures look stop keys fun _ => True) : (collect f l).Ensures look stop keys fun _ => True :=
  ensures_assign (fun a ha => (hf a ha).bind fun _ _ => ensures_pure trivial) ∅

theorem ensures_worklist (Inv : List α → σ → Prop) {visit : α → σ → Query κ β ε (σ × List α)}
    (hvisit : ∀ x stack s, Inv (x :: stack) s →
      (visit x s).Ensures look True keys fun r => Inv (r.2.reverse ++ stack) r.1)
    {fuel : ℕ} {stack : List α} {s : σ} (hs : Inv stack s) :
    (worklist (halt .outOfFuel) visit fuel stack s).Ensures look True keys (Inv []) := by
  fun_induction worklist (halt .outOfFuel) visit fuel stack s with
  | case1 => exact ensures_pure hs
  | case2 => exact ensures_stop
  | case3 fuel x stack s ih => exact (hvisit x stack s hs).bind fun r hr => ih _ _ hr

end Laws

/-! ## The cache -/

variable [DecidableEq κ] (store : κ → Option β)

/-- The cache holds values of the lookup, and the store has the rest. -/
structure Faithful (d : Finmap fun _ : κ => β) : Prop where
  hit : ∀ k b, d.lookup k = some b → look k = some b
  miss : ∀ k, d.lookup k = none → store k = look k

variable {look store}

theorem Faithful.insert {d : Finmap fun _ : κ => β} (h : Faithful look store d) {k : κ} {b : β} (hk : look k = some b) :
    Faithful look store (d.insert k b) := by
  constructor
  · exact insert_all h.hit hk
  · intro j hj
    by_cases hjk : j = k
    · subst hjk
      rw [lookup_insert] at hj
      cases hj
    · rw [lookup_insert_of_ne _ hjk] at hj
      exact h.miss j hj

/-- **The cache is not observable.** -/
theorem run_eq_eval {keys : Set κ} {p : Query κ β ε α} (hp : p.Covered look keys) {d : Finmap fun _ : κ => β}
    (hd : Faithful look store d) (hkeys : ∀ k ∈ keys, k ∈ d) :
    ∃ d', Faithful look store d' ∧ (∀ k ∈ d, k ∈ d') ∧ run store p d = (eval look p).map (·, d') := by
  induction p generalizing d with
  | pure | halt h => exact ⟨d, hd, fun _ h => h, rfl⟩
  | fetch k cont ih =>
    unfold run eval
    cases hk : d.lookup k with
    | some b =>
      rw [hd.hit k b hk]
      exact ih (some b) (by rw [← hd.hit k b hk]; exact hp) hd hkeys
    | none =>
      have hmiss := hd.miss k hk
      cases hb : store k with
      | none =>
        rw [hb] at hmiss
        rw [← hmiss]
        exact ih none (by rw [hmiss]; exact hp) hd hkeys
      | some b =>
        rw [hb] at hmiss
        obtain ⟨d', hd', hsub, hrun⟩ := ih (some b) (by rw [hmiss]; exact hp) (hd.insert hmiss.symm)
          fun j hj => mem_insert.mpr (.inr (hkeys j hj))
        rw [← hmiss]
        exact ⟨d', hd', fun j hj => hsub j (mem_insert.mpr (.inr hj)), hrun⟩
  | cached k cont ih =>
    unfold run eval
    obtain ⟨b, hb⟩ := mem_iff.mp (hkeys k hp.1)
    rw [hb, hd.hit k b hb]
    exact ih (some b) (by rw [← hd.hit k b hb]; exact hp.2) hd hkeys

end Query

end Synapse.Lib
