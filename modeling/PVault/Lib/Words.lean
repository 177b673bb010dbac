import Mathlib.Data.List.Infix

/-!
# Repeated words

A word written several times in a row, and what is found in it: prefixes and factors are
recognised index by index (`prefix_pow_iff`, `infix_pow_iff`).
-/

namespace Words

variable {α : Type*} {w xs : List α} {n i : Nat}

/-- The word written `n` times. -/
def pow (w : List α) (n : Nat) : List α := (List.replicate n w).flatten

theorem pow_succ (w : List α) (n : Nat) : pow w (n + 1) = w ++ pow w n := by
  rw [pow, List.replicate_succ, List.flatten_cons, pow]

@[simp] theorem length_pow (w : List α) (n : Nat) : (pow w n).length = n * w.length := by
  induction n with
  | zero => rw [Nat.zero_mul]; rfl
  | succ n ih => rw [pow_succ, List.length_append, ih, Nat.succ_mul, Nat.add_comm]

theorem getElem?_pow (h : i < n * w.length) : (pow w n)[i]? = w[i % w.length]? := by
  induction n generalizing i with
  | zero => exact absurd h (by rw [Nat.zero_mul]; exact Nat.not_lt_zero i)
  | succ n ih =>
    rw [pow_succ]
    by_cases hi : i < w.length
    · rw [List.getElem?_append_left hi, Nat.mod_eq_of_lt hi]
    · rw [Nat.succ_mul] at h
      rw [List.getElem?_append_right (Nat.le_of_not_lt hi), ih (by omega),
        Nat.mod_eq_sub_mod (Nat.le_of_not_lt hi)]

/-- **A prefix of a repeated word** agrees with the word at every index. -/
theorem prefix_pow_iff (hw : w ≠ []) :
    (∃ n, xs <+: pow w n) ↔ ∀ i < xs.length, xs[i]? = w[i % w.length]? := by
  have hpos : 0 < w.length := List.length_pos_of_ne_nil hw
  constructor
  · rintro ⟨n, hpre⟩ i hi
    have hlen := hpre.length_le
    rw [length_pow] at hlen
    rw [← getElem?_pow (Nat.lt_of_lt_of_le hi hlen), List.getElem?_eq_getElem hi]
    exact (List.prefix_iff_getElem?.mp hpre i hi).symm
  · intro h
    have hlen : xs.length ≤ xs.length * w.length := Nat.le_mul_of_pos_right _ hpos
    refine ⟨xs.length, List.prefix_iff_getElem?.mpr fun i hi => ?_⟩
    rw [getElem?_pow (Nat.lt_of_lt_of_le hi hlen), ← h i hi, List.getElem?_eq_getElem hi]

/-- **A factor of a repeated word** agrees with the word from some index of it on. -/
theorem infix_pow_iff (hw : w ≠ []) :
    (∃ n, xs <:+: pow w n) ↔
      ∃ offset < w.length, ∀ i < xs.length, xs[i]? = w[(offset + i) % w.length]? := by
  have hpos : 0 < w.length := List.length_pos_of_ne_nil hw
  constructor
  · rintro ⟨n, before, after, heq⟩
    refine ⟨before.length % w.length, Nat.mod_lt _ hpos, fun i hi => ?_⟩
    have hlen := congrArg List.length heq
    rw [length_pow, List.length_append, List.length_append] at hlen
    rw [Nat.mod_add_mod, ← getElem?_pow (n := n) (by omega), ← heq, List.append_assoc,
      List.getElem?_append_right (Nat.le_add_right ..), Nat.add_sub_cancel_left,
      List.getElem?_append_left hi]
  · rintro ⟨offset, hoffset, h⟩
    have hlen : xs.length ≤ xs.length * w.length := Nat.le_mul_of_pos_right _ hpos
    refine ⟨xs.length + 1, List.infix_iff_prefix_suffix.mpr
      ⟨(pow w (xs.length + 1)).drop offset, List.prefix_iff_getElem?.mpr fun i hi => ?_,
        List.drop_suffix ..⟩⟩
    rw [List.getElem?_drop, getElem?_pow (by rw [Nat.succ_mul]; omega), ← h i hi,
      List.getElem?_eq_getElem hi]

end Words
