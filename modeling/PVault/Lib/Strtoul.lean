import Mathlib.Data.List.TakeWhile
import PVault.Lib.Digits

/-!
# `strtoul`

The conversion of a text to an `unsigned long` of 64 bits, base 10, as the C standard
describes it: leading white space is skipped, one sign may follow, then digits up to the
first other character. A number that does not fit is reported (`ERANGE`), and a minus sign
negates the value in the return type, that is modulo `2 ^ 64`.

* `CLib.strtoul_whole_iff` — the texts that are converted whole, and to what.
-/

namespace CLib

/-- `isspace` of the C locale. -/
def isSpace (c : UInt8) : Bool := c == 0x20 || (0x09 ≤ c && c ≤ 0x0d)

/-- `isdigit`. -/
def isDigit (c : UInt8) : Bool := 0x30 ≤ c && c ≤ 0x39

/-- The value of a run of digits. -/
def digitsValue (digits : List UInt8) : Nat :=
  Digits.value 10 0 (digits.map fun c => c.toNat - 0x30)

/-- What `strtoul` returns: the value, the text from the end pointer on, whether a
conversion was performed at all, and whether `errno` was set to `ERANGE`. -/
structure Conversion : Type where
  value : Nat
  rest : List UInt8
  converted : Bool
  range : Bool
  deriving DecidableEq

/-- The sign, if there is one, and what follows it. -/
def sign : List UInt8 → Bool × List UInt8
  | 0x2d :: rest => (true, rest)
  | 0x2b :: rest => (false, rest)
  | text => (false, text)

/-- `strtoul(text, &end, 10)`. -/
def strtoul (text : List UInt8) : Conversion :=
  let (negative, body) := sign (text.dropWhile isSpace)
  let digits := body.takeWhile isDigit
  let rest := body.dropWhile isDigit
  if digits = [] then ⟨0, text, false, false⟩
  else if digitsValue digits ≥ 2 ^ 64 then ⟨2 ^ 64 - 1, rest, true, true⟩
  else ⟨if negative then (2 ^ 64 - digitsValue digits) % 2 ^ 64 else digitsValue digits, rest,
    true, false⟩

/-- An optionally signed decimal integer literal and its value. -/
inductive Literal : List UInt8 → ℤ → Prop where
  /-- no sign -/
  | plain {digits : List UInt8} : digits ≠ [] → (∀ c ∈ digits, isDigit c = true) →
      Literal digits (digitsValue digits)
  /-- a plus sign -/
  | plus {digits : List UInt8} : digits ≠ [] → (∀ c ∈ digits, isDigit c = true) →
      Literal (0x2b :: digits) (digitsValue digits)
  /-- a minus sign -/
  | minus {digits : List UInt8} : digits ≠ [] → (∀ c ∈ digits, isDigit c = true) →
      Literal (0x2d :: digits) (-digitsValue digits)

theorem sign_cases (text : List UInt8) :
    (∃ body, text = 0x2d :: body ∧ sign text = (true, body)) ∨
      (∃ body, text = 0x2b :: body ∧ sign text = (false, body)) ∨ sign text = (false, text) := by
  rw [sign.eq_def]
  split
  · exact .inl ⟨_, rfl, rfl⟩
  · exact .inr (.inl ⟨_, rfl, rfl⟩)
  · exact .inr (.inr rfl)

theorem sign_digits {text : List UInt8} (hall : ∀ c ∈ text, isDigit c = true) :
    sign text = (false, text) := by
  rcases sign_cases text with ⟨body, rfl, -⟩ | ⟨body, rfl, -⟩ | h
  · exact absurd (hall 0x2d (by simp)) (by decide)
  · exact absurd (hall 0x2b (by simp)) (by decide)
  · exact h

theorem literal_iff {text : List UInt8} {n : ℤ} :
    Literal text n ↔ (sign text).2 ≠ [] ∧ (∀ c ∈ (sign text).2, isDigit c = true) ∧
      n = if (sign text).1 then -(digitsValue (sign text).2 : ℤ) else digitsValue (sign text).2 := by
  constructor
  · rintro (⟨hne, hall⟩ | ⟨hne, hall⟩ | ⟨hne, hall⟩)
    · rw [sign_digits hall]
      exact ⟨hne, hall, rfl⟩
    · exact ⟨hne, hall, rfl⟩
    · exact ⟨hne, hall, rfl⟩
  · rcases sign_cases text with ⟨body, rfl, hsign⟩ | ⟨body, rfl, hsign⟩ | hsign <;> rw [hsign]
    · rintro ⟨hne, hall, rfl⟩
      exact .minus hne hall
    · rintro ⟨hne, hall, rfl⟩
      exact .plus hne hall
    · rintro ⟨hne, hall, rfl⟩
      exact .plain hne hall

/-- The value of a literal in the return type. -/
def wrapped (n : ℤ) : Nat := (n % 2 ^ 64).toNat

theorem wrapped_natCast {v : Nat} (h : v < 2 ^ 64) : wrapped v = v := by
  rw [wrapped]
  omega

theorem wrapped_neg_natCast {v : Nat} (h : v < 2 ^ 64) : wrapped (-v) = (2 ^ 64 - v) % 2 ^ 64 := by
  rw [wrapped]
  omega

/-- **What `strtoul` converts whole**: the literals whose magnitude fits, each to its value
modulo `2 ^ 64`. -/
theorem strtoul_whole_iff {text : List UInt8} {m : Nat}
    (hspace : ∀ c ∈ text.head?, isSpace c = false) :
    strtoul text = ⟨m, [], true, false⟩ ↔
      ∃ n : ℤ, Literal text n ∧ n.natAbs < 2 ^ 64 ∧ m = wrapped n := by
  have hdrop : text.dropWhile isSpace = text := by
    cases text with
    | nil => rfl
    | cons c rest => exact List.dropWhile_cons_of_neg (by simp [hspace c rfl])
  simp only [literal_iff, strtoul, hdrop]
  rcases sign text with ⟨negative, body⟩
  dsimp only
  by_cases hall : ∀ c ∈ body, isDigit c = true
  swap
  · -- the conversion stops before the end of the text
    have hrest : body.dropWhile isDigit ≠ [] := fun h => hall (List.dropWhile_eq_nil_iff.mp h)
    refine iff_of_false ?_ fun ⟨_, ⟨_, hdigits, _⟩, _⟩ => hall hdigits
    split_ifs <;> simp [hrest]
  rw [List.takeWhile_eq_self_iff.mpr hall, List.dropWhile_eq_nil_iff.mpr hall]
  by_cases hne : body = []
  · simp [hne]
  by_cases hbig : digitsValue body ≥ 2 ^ 64
  · rw [if_neg hne, if_pos hbig]
    refine iff_of_false (by simp) ?_
    rintro ⟨n, ⟨-, -, rfl⟩, hn, -⟩
    cases negative <;> simp only [if_true, Bool.false_eq_true, if_false] at hn <;> omega
  have hfits : digitsValue body < 2 ^ 64 := not_le.mp hbig
  rw [if_neg hne, if_neg hbig]
  cases negative with
  | true =>
    simp only [if_true, Conversion.mk.injEq, and_true, ← wrapped_neg_natCast hfits]
    constructor
    · intro h
      exact ⟨_, ⟨hne, hall, rfl⟩, by omega, h.symm⟩
    · rintro ⟨n, ⟨-, -, rfl⟩, -, rfl⟩
      rfl
  | false =>
    simp only [Bool.false_eq_true, if_false, Conversion.mk.injEq, and_true]
    constructor
    · intro h
      exact ⟨_, ⟨hne, hall, rfl⟩, by omega, by rw [wrapped_natCast hfits, h]⟩
    · rintro ⟨n, ⟨-, -, rfl⟩, -, rfl⟩
      exact (wrapped_natCast hfits).symm

end CLib
