import Mathlib.Data.Int.Notation
import Mathlib.Tactic.Common

/-!
# Synapse.Lib.Text — decimal numbers and separators in texts

* `intText`, `readInt`: `str(n)` and `int(text)`; `readInt_intText`: the one undoes the other.
* `mem_intText`: the characters of a number.
* `splitOnce`: `text.split(sep, 1)`; `splitOnce_append`.
-/

namespace Synapse.Lib

open List

abbrev Text := List Char

/-! ## Numbers -/

/-- `str(n)` -/
def intText : ℤ → Text
  | .ofNat n => Nat.toDigits 10 n
  | .negSucc n => '-' :: Nat.toDigits 10 (n + 1)

def isSpace (c : Char) : Bool := c = ' ' ∨ (9 ≤ c.toNat ∧ c.toNat ≤ 13) ∨ (28 ≤ c.toNat ∧ c.toNat ≤ 31)

/-- `text.strip()` -/
def strip (t : Text) : Text := ((t.dropWhile isSpace).reverse.dropWhile isSpace).reverse

/-- Digits, with single underscores between them; `between` says that a digit has to come next. -/
def readDigits (between : Bool) (n : ℕ) : Text → Option ℕ
  | [] => if between then none else some n
  | c :: t =>
    if c.isDigit then readDigits false (10 * n + (c.toNat - '0'.toNat)) t
    else if c = '_' ∧ between = false then readDigits true n t
    else none

/-- `int(text)`, for ASCII texts; `none` where it raises a `ValueError`. -/
def readInt (t : Text) : Option ℤ :=
  match strip t with
  | '-' :: digits => (readDigits true 0 digits).map fun n : ℕ => -(n : ℤ)
  | '+' :: digits => (readDigits true 0 digits).map fun n : ℕ => (n : ℤ)
  | digits => (readDigits true 0 digits).map fun n : ℕ => (n : ℤ)

theorem readDigits_of_digits {t : Text} (h : ∀ c ∈ t, c.isDigit = true) (n : ℕ) :
    readDigits false n t = some (Nat.ofDigitChars 10 t n) := by
  induction t generalizing n with
  | nil => rfl
  | cons c t ih =>
    rw [readDigits, if_pos (h c mem_cons_self), ih fun d hd => h d (mem_cons_of_mem _ hd)]
    rfl

theorem isDigit_toDigits {n : ℕ} {c : Char} (h : c ∈ Nat.toDigits 10 n) : c.isDigit = true :=
  Nat.isDigit_of_mem_toDigits (by decide) (by decide) h

theorem readDigits_toDigits (n : ℕ) : readDigits true 0 (Nat.toDigits 10 n) = some n := by
  have hdigits : ∀ c ∈ Nat.toDigits 10 n, c.isDigit = true := fun c => isDigit_toDigits
  have hvalue := readDigits_of_digits hdigits 0
  rw [Nat.ofDigitChars_toDigits (by decide) (by decide)] at hvalue
  cases ht : Nat.toDigits 10 n with
  | nil => exact absurd ht Nat.toDigits_ne_nil
  | cons c t =>
    rw [ht] at hdigits hvalue
    have hc := hdigits c mem_cons_self
    rw [readDigits, if_pos hc] at hvalue ⊢
    exact hvalue

theorem mem_intText {z : ℤ} {c : Char} (h : c ∈ intText z) : c = '-' ∨ c.isDigit = true := by
  cases z with
  | ofNat n => exact .inr (isDigit_toDigits h)
  | negSucc n =>
    rcases mem_cons.mp h with rfl | h
    · exact .inl rfl
    · exact .inr (isDigit_toDigits h)

theorem notMem_intText {z : ℤ} {c : Char} (hc : c ≠ '-') (hdigit : c.isDigit = false) : c ∉ intText z := by
  intro h
  rcases mem_intText h with rfl | h
  · exact hc rfl
  · rw [hdigit] at h
    cases h

theorem not_isSpace_of_isDigit {c : Char} (h : c.isDigit = true) : isSpace c = false := by
  have hrange : 48 ≤ c.toNat ∧ c.toNat ≤ 57 := by
    simpa [Char.isDigit, UInt32.le_iff_toNat_le] using h
  have hne : c ≠ ' ' := by
    rintro rfl
    exact absurd hrange.1 (by decide)
  unfold isSpace
  simp only [hne, false_or, decide_eq_false_iff_not, not_or, not_and]
  omega

theorem strip_of {t : Text} (h : ∀ c ∈ t, isSpace c = false) : strip t = t := by
  have hdrop : ∀ u : Text, (∀ c ∈ u, isSpace c = false) → u.dropWhile isSpace = u := by
    intro u hu
    cases u with
    | nil => rfl
    | cons c u => rw [dropWhile_cons_of_neg (by simp [hu c mem_cons_self])]
  rw [strip, hdrop t h, hdrop _ fun c hc => h c (mem_reverse.mp hc), reverse_reverse]

theorem readInt_intText (z : ℤ) : readInt (intText z) = some z := by
  have hstrip : strip (intText z) = intText z := strip_of fun c hc => by
    rcases mem_intText hc with rfl | hc
    · decide
    · exact not_isSpace_of_isDigit hc
  rw [readInt, hstrip]
  cases z with
  | ofNat n =>
    have hvalue := readDigits_toDigits n
    have hfirst : ∀ c t, Nat.toDigits 10 n = c :: t → c.isDigit = true :=
      fun c t ht => isDigit_toDigits (ht ▸ mem_cons_self)
    rw [intText]
    split
    · exact absurd (hfirst _ _ ‹_›) (by decide)
    · exact absurd (hfirst _ _ ‹_›) (by decide)
    · rw [hvalue]
      rfl
  | negSucc n =>
    show (readDigits true 0 (Nat.toDigits 10 (n + 1))).map _ = _
    rw [readDigits_toDigits]
    rfl

/-! ## Separators -/

/-- `text.split(sep, 1)`: the text before the first separator and, if there is one, what comes after it. -/
def splitOnce (sep : Char) (t : Text) : Text × Option Text :=
  match t.dropWhile (· ≠ sep) with
  | [] => (t, none)
  | _ :: rest => (t.takeWhile (· ≠ sep), some rest)

theorem splitOnce_append {sep : Char} {t : Text} (h : sep ∉ t) (rest : Text) :
    splitOnce sep (t ++ sep :: rest) = (t, some rest) := by
  have hne : ∀ c ∈ t, decide (c ≠ sep) = true := by
    intro c hc
    rw [decide_eq_true_eq]
    rintro rfl
    exact h hc
  unfold splitOnce
  rw [dropWhile_append_of_pos hne, takeWhile_append_of_pos hne, dropWhile_cons_of_neg (by simp),
    takeWhile_cons_of_neg (by simp), append_nil]

end Synapse.Lib
