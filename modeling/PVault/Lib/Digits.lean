import Mathlib.Algebra.Order.Ring.Nat
import Mathlib.Data.List.Induction
import Mathlib.Tactic.Ring

/-!
# Numerals of a fixed width

The numeral of `n` in base `b` with exactly `w` digits, most significant first, and the
value of a list of digits. On numbers below `b ^ w` and on lists of `w` digits the two
are inverse to each other.
-/

namespace Digits

/-- The `w` last digits of `n` in base `b`, most significant first. -/
def numeral (b : Nat) : Nat → Nat → List Nat
  | 0, _ => []
  | w + 1, n => numeral b w (n / b) ++ [n % b]

/-- The number a list of digits spells, read on after `acc`. -/
def value (b acc : Nat) (ds : List Nat) : Nat := ds.foldl (fun acc d => acc * b + d) acc

@[simp] theorem value_nil (b acc : Nat) : value b acc [] = acc := rfl

@[simp] theorem value_cons (b acc d : Nat) (ds : List Nat) :
    value b acc (d :: ds) = value b (acc * b + d) ds := rfl

theorem value_append_singleton (b acc d : Nat) (ds : List Nat) :
    value b acc (ds ++ [d]) = value b acc ds * b + d := by
  rw [value, List.foldl_append]
  rfl

@[simp] theorem length_numeral (b w n : Nat) : (numeral b w n).length = w := by
  induction w generalizing n with
  | zero => rfl
  | succ w ih => rw [numeral, List.length_append, ih, List.length_singleton]

theorem lt_of_mem_numeral {b w n d : Nat} (hb : 0 < b) (h : d ∈ numeral b w n) : d < b := by
  induction w generalizing n with
  | zero => cases h
  | succ w ih =>
    rcases List.mem_append.mp h with hmem | hmem
    · exact ih hmem
    · rw [List.mem_singleton.mp hmem]
      exact Nat.mod_lt _ hb

/-- The numeral of a number that fits spells that number. -/
theorem value_numeral {b w n : Nat} (h : n < b ^ w) : value b 0 (numeral b w n) = n := by
  induction w generalizing n with
  | zero => exact (Nat.lt_one_iff.mp h).symm
  | succ w ih =>
    have hdiv : n / b < b ^ w := Nat.div_lt_of_lt_mul (by rwa [Nat.pow_succ, Nat.mul_comm] at h)
    rw [numeral, value_append_singleton, ih hdiv, Nat.mul_comm]
    exact Nat.div_add_mod n b

/-- Digits are the numeral of the number they spell. -/
theorem numeral_value {b : Nat} (ds : List Nat) (h : ∀ d ∈ ds, d < b) :
    numeral b ds.length (value b 0 ds) = ds := by
  induction ds using List.reverseRecOn with
  | nil => rfl
  | append_singleton ds d ih =>
    have hd : d < b := h d (by simp)
    have hdiv : (value b 0 ds * b + d) / b = value b 0 ds := by
      rw [Nat.mul_comm, Nat.mul_add_div (by omega), Nat.div_eq_of_lt hd, Nat.add_zero]
    have hmod : (value b 0 ds * b + d) % b = d := by
      rw [Nat.mul_comm, Nat.mul_add_mod, Nat.mod_eq_of_lt hd]
    rw [List.length_append, List.length_singleton, numeral, value_append_singleton, hdiv, hmod,
      ih fun d' hd' => h d' (List.mem_append_left _ hd')]

theorem value_eq_add (b acc : Nat) (ds : List Nat) :
    value b acc ds = acc * b ^ ds.length + value b 0 ds := by
  induction ds generalizing acc with
  | nil => simp
  | cons d ds ih =>
    rw [value_cons, value_cons, ih, ih (0 * b + d), List.length_cons]
    ring

theorem value_lt {b : Nat} {ds : List Nat} (h : ∀ d ∈ ds, d < b) (acc : Nat) :
    value b acc ds < (acc + 1) * b ^ ds.length := by
  induction ds generalizing acc with
  | nil => simp
  | cons d ds ih =>
    obtain ⟨hd, hds⟩ := List.forall_mem_cons.mp h
    rw [value_cons, List.length_cons, pow_succ']
    calc value b (acc * b + d) ds < (acc * b + d + 1) * b ^ ds.length := ih hds _
      _ ≤ (acc + 1) * b * b ^ ds.length := Nat.mul_le_mul_right _ (by rw [Nat.add_mul]; omega)
      _ = (acc + 1) * (b * b ^ ds.length) := Nat.mul_assoc _ _ _

/-- The most significant digit comes first. -/
theorem numeral_succ (b w n : Nat) : numeral b (w + 1) n = (n / b ^ w % b) :: numeral b w n := by
  induction w generalizing n with
  | zero => simp [numeral]
  | succ w ih =>
    rw [numeral, ih, Nat.div_div_eq_div_mul, ← pow_succ', List.cons_append]
    rfl

/-- Digits above the width do not matter. -/
theorem numeral_add_mul {b : Nat} (hb : 0 < b) (w c n : Nat) :
    numeral b w (c * b ^ w + n) = numeral b w n := by
  induction w generalizing n with
  | zero => rfl
  | succ w ih =>
    have hsplit : c * b ^ (w + 1) + n = b * (c * b ^ w) + n := by ring
    rw [numeral, numeral, hsplit, Nat.mul_add_div hb, Nat.mul_add_mod, ih]

/-- A digit in front of a numeral. -/
theorem numeral_cons {b w r : Nat} (hr : r < b ^ w) (d : Nat) (hb : 0 < b) :
    numeral b (w + 1) (d * b ^ w + r) = d % b :: numeral b w r := by
  rw [numeral_succ, numeral_add_mul hb, Nat.mul_comm, Nat.mul_add_div (Nat.pow_pos hb),
    Nat.div_eq_of_lt hr, Nat.add_zero]

end Digits
