import Mathlib.Data.Nat.Bitwise
import Mathlib.Data.List.Basic

/-!
# Bump allocation

The arithmetic of a bump allocator: a cursor that only moves forward, and requests
that are placed at the next multiple of their alignment.

* `alignUp` — the next multiple, with the mask expression a program computes it by
  (`land_highMask`, `alignUp_eq_land`).
* `place` / `placeAll` — the cursor after one request and after a list of them.
  Placing is monotone in the cursor (`placeAll_mono`) and in the requests
  (`placeAll_sublist`).
* how far two runs from different cursors can drift apart (`placeAll_shift`,
  `placeAll_add_le`), which is what decides whether moving a request elsewhere can
  make a layout longer.
-/

namespace Bump

variable {k n a p : Nat}

/-! ## Alignment -/

/-- The next multiple of `a` at or after `p`. -/
def alignUp (a p : Nat) : Nat := (p + (a - 1)) / a * a

/-- Clearing the low `k` bits of a `w`-bit word by a mask. -/
theorem land_highMask {w : Nat} (hk : k ≤ w) (hn : n < 2 ^ w) :
    n &&& (2 ^ w - 1 - (2 ^ k - 1)) = n / 2 ^ k * 2 ^ k := by
  have hpos : 0 < 2 ^ k := Nat.two_pow_pos k
  have hle : 2 ^ k ≤ 2 ^ w := Nat.pow_le_pow_right (by omega) hk
  have hmask : 2 ^ w - 1 - (2 ^ k - 1) = 2 ^ w - (2 ^ k - 1 + 1) := by omega
  apply Nat.eq_of_testBit_eq
  intro i
  rw [Nat.testBit_and, hmask, Nat.testBit_two_pow_sub_succ (by omega), Nat.testBit_two_pow_sub_one,
    Nat.testBit_mul_two_pow, Nat.testBit_div_two_pow]
  by_cases hik : k ≤ i
  · by_cases hiw : i < w
    · simp [hik, hiw, Nat.not_lt.mpr hik]
    · have hbit : n.testBit i = false :=
        Nat.testBit_lt_two_pow (lt_of_lt_of_le hn (Nat.pow_le_pow_right (by omega) (by omega)))
      simp [hik, hbit]
  · simp [hik, Nat.lt_of_not_le hik]

/-- The usual test for a power of two. -/
theorem exists_two_pow_of_land_pred (hne : a ≠ 0) (hland : a &&& (a - 1) = 0) :
    ∃ k, a = 2 ^ k := by
  have hle := Nat.log2_self_le hne
  have hlt : a < 2 ^ (a.log2 + 1) := Nat.lt_log2_self
  refine ⟨a.log2, ?_⟩
  by_contra hgt
  -- otherwise `a - 1` has the same highest bit
  have hbit : (a &&& (a - 1)).testBit a.log2 = true := by
    rw [Nat.testBit_and, Nat.testBit_of_two_pow_le_and_two_pow_add_one_gt hle hlt,
      Nat.testBit_of_two_pow_le_and_two_pow_add_one_gt (by omega) (by omega), Bool.true_and]
  rw [hland, Nat.zero_testBit] at hbit
  cases hbit

@[simp] theorem alignUp_one (p : Nat) : alignUp 1 p = p := by simp [alignUp]

theorem le_alignUp (ha : 0 < a) (p : Nat) : p ≤ alignUp a p := by
  have hdiv := Nat.div_add_mod (p + (a - 1)) a
  have hmod := Nat.mod_lt (p + (a - 1)) ha
  rw [Nat.mul_comm] at hdiv
  rw [alignUp]
  omega

theorem alignUp_lt (ha : 0 < a) (p : Nat) : alignUp a p < p + a := by
  have hdiv := Nat.div_mul_le_self (p + (a - 1)) a
  rw [alignUp]
  omega

theorem alignUp_mono (a : Nat) {q : Nat} (h : p ≤ q) : alignUp a p ≤ alignUp a q := by
  exact Nat.mul_le_mul_right a (Nat.div_le_div_right (by omega))

/-- The cursor's overflow check and mask compute `alignUp`. -/
theorem alignUp_eq_land {w : Nat} (hk : k ≤ w) (hp : p + (2 ^ k - 1) < 2 ^ w) :
    (p + (2 ^ k - 1)) &&& (2 ^ w - 1 - (2 ^ k - 1)) = alignUp (2 ^ k) p := by
  rw [land_highMask hk hp, alignUp]

/-! ## Requests -/

/-- An allocation request. -/
structure Request where
  /-- bytes asked for -/
  size : Nat
  /-- alignment asked for -/
  align : Nat
  align_pos : 0 < align

/-- The cursor after placing one request. -/
def place (p : Nat) (r : Request) : Nat := alignUp r.align p + r.size

/-- The cursor after placing a list of requests. -/
def placeAll (p : Nat) (rs : List Request) : Nat := rs.foldl place p

variable {rs : List Request}

@[simp] theorem placeAll_nil (p : Nat) : placeAll p [] = p := rfl

@[simp] theorem placeAll_cons (p : Nat) (r : Request) (rs : List Request) :
    placeAll p (r :: rs) = placeAll (place p r) rs := rfl

@[simp] theorem placeAll_append (p : Nat) (rs ss : List Request) :
    placeAll p (rs ++ ss) = placeAll (placeAll p rs) ss := List.foldl_append ..

theorem le_place (p : Nat) (r : Request) : p ≤ place p r :=
  le_trans (le_alignUp r.align_pos p) (Nat.le_add_right _ _)

theorem le_placeAll (rs : List Request) : ∀ p : Nat, p ≤ placeAll p rs := by
  induction rs with
  | nil => intro p; exact le_refl p
  | cons r rs ih =>
    intro p
    rw [placeAll_cons]
    exact le_trans (le_place p r) (ih _)

theorem place_mono (r : Request) {q : Nat} (h : p ≤ q) : place p r ≤ place q r :=
  Nat.add_le_add_right (alignUp_mono r.align h) _

theorem placeAll_mono (rs : List Request) : ∀ {p q : Nat}, p ≤ q → placeAll p rs ≤ placeAll q rs := by
  induction rs with
  | nil => intro p q h; exact h
  | cons r rs ih =>
    intro p q h
    rw [placeAll_cons, placeAll_cons]
    exact ih (place_mono r h)

/-- Leaving requests out never moves the end further. -/
theorem placeAll_sublist {ss : List Request} (h : rs.Sublist ss) :
    ∀ p : Nat, placeAll p rs ≤ placeAll p ss := by
  induction h with
  | slnil => intro p; exact le_refl p
  | cons r _ ih =>
    intro p
    rw [placeAll_cons]
    exact le_trans (ih p) (placeAll_mono _ (le_place p r))
  | cons_cons r _ ih =>
    intro p
    rw [placeAll_cons, placeAll_cons]
    exact ih _

/-! ## Drift -/

theorem dvd_alignUp (a p : Nat) : a ∣ alignUp a p := Nat.dvd_mul_left _ _

/-- Shifting the cursor by a multiple of the alignment shifts the next multiple. -/
theorem alignUp_add (ha : 0 < a) (hk : a ∣ k) (p : Nat) :
    alignUp a (p + k) = alignUp a p + k := by
  obtain ⟨c, rfl⟩ := hk
  rw [alignUp, alignUp, show p + a * c + (a - 1) = p + (a - 1) + a * c by omega,
    Nat.add_mul_div_left _ _ ha, Nat.add_mul, Nat.mul_comm c a]

/-- The alignments of all requests divide `n`. -/
def AlignedTo (n : Nat) (rs : List Request) : Prop := ∀ r ∈ rs, r.align ∣ n

theorem AlignedTo.append {ss : List Request} (hr : AlignedTo n rs) (hs : AlignedTo n ss) :
    AlignedTo n (rs ++ ss) :=
  List.forall_mem_append.mpr ⟨hr, hs⟩

/-- Shifting the cursor by a common multiple of the alignments shifts the whole layout. -/
theorem placeAll_shift (h : AlignedTo n rs) (hk : n ∣ k) :
    ∀ p : Nat, placeAll (p + k) rs = placeAll p rs + k := by
  induction rs with
  | nil => intro p; rfl
  | cons r rs ih =>
    intro p
    obtain ⟨hr, hrs⟩ := List.forall_mem_cons.mp h
    rw [placeAll_cons, placeAll_cons, place, alignUp_add r.align_pos (Nat.dvd_trans hr hk),
      Nat.add_right_comm]
    exact ih hrs _

/-- Moving the start by `x` moves the end by at most `x` rounded up. -/
theorem placeAll_add_le (hn : 0 < n) (h : AlignedTo n rs) (p x : Nat) :
    placeAll (p + x) rs ≤ placeAll p rs + alignUp n x := by
  rw [← placeAll_shift h (dvd_alignUp n x)]
  exact placeAll_mono rs (Nat.add_le_add_left (le_alignUp hn x) p)

end Bump
