import PVault.Lib.Digits

/-!
# UTF-8

The encoding of a scalar value is the standard library's `String.utf8EncodeChar`: the
shortest of the four forms. This file says in arithmetic which bytes it consists of
(`Utf8.encode_one_iff` … `Utf8.encode_four_iff`), and reads the masks and shifts of a
decoder as arithmetic.
-/

namespace Utf8

/-- The bytes `10xxxxxx`. -/
def Cont (b : UInt8) : Prop := b.toNat / 64 = 2

instance (b : UInt8) : Decidable (Cont b) := inferInstanceAs (Decidable (b.toNat / 64 = 2))

/-- The text of a sequence of scalar values. -/
def text (cs : List Char) : List UInt8 := cs.flatMap String.utf8EncodeChar

@[simp] theorem text_nil : text [] = [] := rfl

@[simp] theorem text_cons (c : Char) (cs : List Char) :
    text (c :: cs) = String.utf8EncodeChar c ++ text cs := rfl

/-! ## Masks and shifts -/

theorem toNat_and_mask (b : UInt8) {m k : Nat} (hm : m < 256) (hk : m = 2 ^ k - 1) :
    (b &&& UInt8.ofNat m).toUInt32.toNat = b.toNat % 2 ^ k := by
  rw [UInt8.toNat_toUInt32, UInt8.toNat_and, UInt8.toNat_ofNat_of_lt' hm, hk,
    Nat.and_two_pow_sub_one_eq_mod]

theorem and_c0_iff (b : UInt8) : b &&& 0xc0 = 0x80 ↔ Cont b := by
  have htable : ∀ n < 256, n &&& 0xc0 = 0x80 ↔ n / 64 = 2 := by decide +kernel
  rw [← UInt8.toNat_inj, UInt8.toNat_and]
  exact htable b.toNat b.toNat_lt

theorem toNat_shift_or {v x : UInt32} (hv : v.toNat < 2 ^ 26) (hx : x.toNat < 64) :
    (v <<< 6 ||| x).toNat = v.toNat * 64 + x.toNat := by
  have hshift : (v <<< 6).toNat = v.toNat <<< 6 := by
    rw [UInt32.toNat_shiftLeft, Nat.mod_eq_of_lt]
    · rfl
    · rw [Nat.shiftLeft_eq]
      show v.toNat * 2 ^ 6 < 2 ^ 32
      omega
  rw [UInt32.toNat_or, hshift, ← Nat.shiftLeft_add_eq_or_of_lt hx, Nat.shiftLeft_eq]

/-! ## The four forms -/

theorem ofNat_eq_iff {n : Nat} {b : UInt8} : UInt8.ofNat n = b ↔ n % 256 = b.toNat := by
  rw [← UInt8.toNat_inj, UInt8.toNat_ofNat']

theorem scalar_bounds (c : Char) :
    c.val.toNat < 0xd800 ∨ 0xdfff < c.val.toNat ∧ c.val.toNat < 0x110000 := c.valid

section Forms

variable {c : Char} {b₀ b₁ b₂ b₃ : UInt8}

theorem encode_one_iff :
    String.utf8EncodeChar c = [b₀] ↔ b₀.toNat ≤ 0x7f ∧ c.val.toNat = b₀.toNat := by
  have := b₀.toNat_lt
  rw [String.utf8EncodeChar]
  split_ifs <;> simp only [List.cons.injEq, and_true, reduceCtorEq, and_false, false_iff,
    ofNat_eq_iff] <;> omega

theorem encode_two_iff :
    String.utf8EncodeChar c = [b₀, b₁] ↔ 0xc2 ≤ b₀.toNat ∧ b₀.toNat ≤ 0xdf ∧ Cont b₁ ∧
      c.val.toNat = b₀.toNat % 32 * 64 + b₁.toNat % 64 := by
  have := b₀.toNat_lt
  have := b₁.toNat_lt
  rw [String.utf8EncodeChar, Cont]
  split_ifs <;> simp only [List.cons.injEq, and_true, reduceCtorEq, and_false, false_iff,
    ofNat_eq_iff] <;> omega

theorem encode_three_iff :
    String.utf8EncodeChar c = [b₀, b₁, b₂] ↔ 0xe0 ≤ b₀.toNat ∧ b₀.toNat ≤ 0xef ∧ Cont b₁ ∧
      Cont b₂ ∧ 0x800 ≤ c.val.toNat ∧
      c.val.toNat = (b₀.toNat % 16 * 64 + b₁.toNat % 64) * 64 + b₂.toNat % 64 := by
  have := b₀.toNat_lt
  have := b₁.toNat_lt
  have := b₂.toNat_lt
  rw [String.utf8EncodeChar, Cont, Cont]
  split_ifs <;> simp only [List.cons.injEq, and_true, reduceCtorEq, and_false, false_iff,
    ofNat_eq_iff] <;> omega

theorem encode_four_iff :
    String.utf8EncodeChar c = [b₀, b₁, b₂, b₃] ↔ 0xf0 ≤ b₀.toNat ∧ b₀.toNat ≤ 0xf4 ∧ Cont b₁ ∧
      Cont b₂ ∧ Cont b₃ ∧ 0x10000 ≤ c.val.toNat ∧ c.val.toNat =
        ((b₀.toNat % 8 * 64 + b₁.toNat % 64) * 64 + b₂.toNat % 64) * 64 + b₃.toNat % 64 := by
  have := b₀.toNat_lt
  have := b₁.toNat_lt
  have := b₂.toNat_lt
  have := b₃.toNat_lt
  have := scalar_bounds c
  rw [String.utf8EncodeChar, Cont, Cont, Cont]
  split_ifs <;> simp only [List.cons.injEq, and_true, reduceCtorEq, and_false, false_iff,
    ofNat_eq_iff] <;> omega

end Forms

/-- A byte of a character's form is the character itself, or no ASCII byte. -/
theorem mem_encode {c : Char} {b : UInt8} (h : b ∈ String.utf8EncodeChar c) :
    0x80 ≤ b.toNat ∨ b.toNat = c.val.toNat := by
  have hc := scalar_bounds c
  rw [String.utf8EncodeChar] at h
  split_ifs at h <;> simp only [List.mem_cons, List.not_mem_nil, or_false, eq_comm (a := b),
    ofNat_eq_iff] at h <;> omega

end Utf8
