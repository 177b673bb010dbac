import PVault.Lib.Utf8
import PVault.Text

/-!
# Text for the terminal (`src/util.c`)

Titles, user names and notes come from vault files and imports, so before they reach the
terminal every control character, every bidirectional or invisible format character and
every byte that is not UTF-8 is replaced by `?`. `pv_text_sanitize` does so into a buffer,
`pv_text_fprint` on the way to a stream; both use `decode_codepoint`, a second decoder
beside the validator `pv_utf8_valid`.

* `pvUtf8Valid_iff` — the validator accepts exactly the texts of scalar values.
* `pvTextSanitize_safe` — what the sanitiser writes.
* `pvTextFprint_eq` — the two ways to the terminal show the same bytes.
-/

namespace PVault

open Binary

variable {bits v : UInt32} {first : UInt8} {width fuel : Nat} {data : Bytes}

/-! ## `decode_codepoint` -/

/-- The bits of the code point in the first byte, and the width of its sequence. -/
def codepointLead (first : UInt8) : Option (UInt32 × Nat) :=
  if 0xc2 ≤ first ∧ first ≤ 0xdf then some ((first &&& 0x1f).toUInt32, 2)
  else if 0xe0 ≤ first ∧ first ≤ 0xef then some ((first &&& 0x0f).toUInt32, 3)
  else if 0xf0 ≤ first ∧ first ≤ 0xf4 then some ((first &&& 0x07).toUInt32, 4)
  else none

/-- `decode_codepoint`: the first code point of the data and its width, which is `none`
where the source returns the width 0. -/
def decodeCodepoint : Bytes → Option (UInt32 × Nat)
  | [] => none
  | first :: rest =>
    if first ≤ 0x7f then some (first.toUInt32, 1)
    else
      match codepointLead first with
      | none => none
      | some (bits, width) =>
        if width > (first :: rest).length then none
        else
          match utf8Continue bits (rest.take (width - 1)) with
          | none => none
          | some value =>
            if (width = 3 ∧ value < 0x800) ∨ (width = 4 ∧ value < 0x10000) ∨
                value > 0x10ffff ∨ (0xd800 ≤ value ∧ value ≤ 0xdfff) then none
            else some (value, width)

/-- The inner loop reads base-64 digits, as long as they fit into the word. -/
theorem utf8Continue_eq_some {ks : Bytes} (hfit : (bits.toNat + 1) * 64 ^ ks.length ≤ 2 ^ 32) :
    utf8Continue bits ks = some v ↔ (∀ k ∈ ks, Utf8.Cont k) ∧
      v.toNat = Digits.value 64 bits.toNat (ks.map fun k => k.toNat % 64) := by
  induction ks generalizing bits with
  | nil => simp [utf8Continue, ← UInt32.toNat_inj, eq_comm]
  | cons k ks ih =>
    rw [utf8Continue]
    by_cases hk : Utf8.Cont k
    · have hx : (k &&& 0x3f).toUInt32.toNat = k.toNat % 64 :=
        Utf8.toNat_and_mask k (m := 0x3f) (k := 6) (by decide) (by decide)
      have hpow : 1 ≤ 64 ^ ks.length := Nat.one_le_pow _ _ (by decide)
      have hroom : (bits.toNat + 1) * 64 * 64 ^ ks.length ≤ 2 ^ 32 := by
        rw [List.length_cons, pow_succ] at hfit
        calc _ = (bits.toNat + 1) * (64 ^ ks.length * 64) := by ring
          _ ≤ _ := hfit
      have hbits : bits.toNat < 2 ^ 26 := by
        have := Nat.le_trans (Nat.le_mul_of_pos_right _ hpow) hroom
        omega
      have hnext := Utf8.toNat_shift_or hbits (x := (k &&& 0x3f).toUInt32) (by rw [hx]; omega)
      rw [if_neg (not_not.mpr ((Utf8.and_c0_iff k).mpr hk)), ih, hnext, hx]
      · simp [hk]
      · rw [hnext, hx]
        exact Nat.le_trans (Nat.mul_le_mul_right _ (by omega)) hroom
    · rw [if_pos fun h => hk ((Utf8.and_c0_iff k).mp h)]
      simp [hk]

theorem codepointLead_eq_some :
    codepointLead first = some (bits, width) ↔
      (0xc2 ≤ first.toNat ∧ first.toNat ≤ 0xdf ∧ width = 2 ∧ bits.toNat = first.toNat % 32) ∨
      (0xe0 ≤ first.toNat ∧ first.toNat ≤ 0xef ∧ width = 3 ∧ bits.toNat = first.toNat % 16) ∨
      (0xf0 ≤ first.toNat ∧ first.toNat ≤ 0xf4 ∧ width = 4 ∧ bits.toNat = first.toNat % 8) := by
  have h₂ : (first &&& 0x1f).toUInt32.toNat = first.toNat % 32 :=
    Utf8.toNat_and_mask first (m := 0x1f) (k := 5) (by decide) (by decide)
  have h₃ : (first &&& 0x0f).toUInt32.toNat = first.toNat % 16 :=
    Utf8.toNat_and_mask first (m := 0x0f) (k := 4) (by decide) (by decide)
  have h₄ : (first &&& 0x07).toUInt32.toNat = first.toNat % 8 :=
    Utf8.toNat_and_mask first (m := 0x07) (k := 3) (by decide) (by decide)
  simp only [codepointLead, UInt8.le_iff_toNat_le, UInt8.reduceToNat]
  split_ifs
  · rw [Option.some.injEq, Prod.mk.injEq, ← UInt32.toNat_inj, h₂]
    omega
  · rw [Option.some.injEq, Prod.mk.injEq, ← UInt32.toNat_inj, h₃]
    omega
  · rw [Option.some.injEq, Prod.mk.injEq, ← UInt32.toNat_inj, h₄]
    omega
  · rw [false_iff]
    omega

theorem exists_codepointLead {n : Nat}
    (h : (0xc2 ≤ first.toNat ∧ first.toNat ≤ 0xdf ∧ width = 2 ∧ n = first.toNat % 32) ∨
      (0xe0 ≤ first.toNat ∧ first.toNat ≤ 0xef ∧ width = 3 ∧ n = first.toNat % 16) ∨
      (0xf0 ≤ first.toNat ∧ first.toNat ≤ 0xf4 ∧ width = 4 ∧ n = first.toNat % 8)) :
    ∃ bits, codepointLead first = some (bits, width) ∧ bits.toNat = n := by
  have hn : (UInt32.ofNat n).toNat = n := UInt32.toNat_ofNat_of_lt' (show n < 4294967296 by omega)
  exact ⟨UInt32.ofNat n, codepointLead_eq_some.mpr (by rw [hn]; exact h), hn⟩

theorem decodeCodepoint_ascii (h : first.toNat ≤ 0x7f) (rest : Bytes) :
    decodeCodepoint (first :: rest) = some (first.toUInt32, 1) := by
  rw [decodeCodepoint, if_pos (UInt8.le_iff_toNat_le.mpr h)]

/-- A sequence of more than one byte: its lead, its digits and the checks on its value. -/
theorem decodeCodepoint_eq_some {rest : Bytes} (h : 0x7f < first.toNat) :
    decodeCodepoint (first :: rest) = some (v, width) ↔
      ∃ bits, codepointLead first = some (bits, width) ∧ width ≤ rest.length + 1 ∧
        utf8Continue bits (rest.take (width - 1)) = some v ∧
        ¬((width = 3 ∧ v < 0x800) ∨ (width = 4 ∧ v < 0x10000) ∨ v > 0x10ffff ∨
          (0xd800 ≤ v ∧ v ≤ 0xdfff)) := by
  have hascii : ¬first ≤ 0x7f := fun hle => by
    have : first.toNat ≤ 0x7f := UInt8.le_iff_toNat_le.mp hle
    omega
  rw [decodeCodepoint, if_neg hascii]
  cases hlead : codepointLead first with
  | none => simp
  | some lead =>
    obtain ⟨bits, w⟩ := lead
    dsimp only
    rw [List.length_cons]
    split
    · next hshort =>
      simp
      omega
    next hlong =>
    cases hcont : utf8Continue bits (rest.take (w - 1)) with
    | none =>
      simp
      grind
    | some value =>
      dsimp only
      split
      · next hbad =>
        simp only [reduceCtorEq, false_iff, Option.some.injEq, Prod.mk.injEq]
        rintro ⟨bits', ⟨rfl, rfl⟩, -, hv, hgood⟩
        rw [hcont, Option.some.injEq] at hv
        exact hgood (hv ▸ hbad)
      · next hgood =>
        simp only [Option.some.injEq, Prod.mk.injEq]
        constructor
        · rintro ⟨rfl, rfl⟩
          exact ⟨bits, ⟨rfl, rfl⟩, not_lt.mp hlong, hcont, hgood⟩
        · rintro ⟨bits', ⟨rfl, rfl⟩, -, hv, -⟩
          rw [hcont, Option.some.injEq] at hv
          exact ⟨hv, rfl⟩

/-- What the decoder asks of a sequence with the continuation bytes `ks`, in arithmetic. -/
theorem decodeCodepoint_multi (ks t : Bytes) (hlead : codepointLead first = some (bits, width))
    (hks : ks.length + 1 = width) :
    decodeCodepoint (first :: (ks ++ t)) = some (v, width) ↔ (∀ k ∈ ks, Utf8.Cont k) ∧
      v.toNat = Digits.value 64 bits.toNat (ks.map fun k => k.toNat % 64) ∧
      (width = 3 → 0x800 ≤ v.toNat) ∧ (width = 4 → 0x10000 ≤ v.toNat) ∧ v.toNat ≤ 0x10ffff ∧
      ¬(0xd800 ≤ v.toNat ∧ v.toNat ≤ 0xdfff) := by
  have htable := codepointLead_eq_some.mp hlead
  have hfit : (bits.toNat + 1) * 64 ^ ks.length ≤ 2 ^ 32 := by
    have hbits : bits.toNat + 1 ≤ 32 := by omega
    have hpow : 64 ^ ks.length ≤ 64 ^ 3 := Nat.pow_le_pow_right (by decide) (by omega)
    exact Nat.le_trans (Nat.mul_le_mul hbits hpow) (by decide)
  have htake : (ks ++ t).take (width - 1) = ks := by
    rw [← hks, Nat.add_sub_cancel, List.take_left]
  have hrange : ¬((width = 3 ∧ v < 0x800) ∨ (width = 4 ∧ v < 0x10000) ∨ v > 0x10ffff ∨
      (0xd800 ≤ v ∧ v ≤ 0xdfff)) ↔ (width = 3 → 0x800 ≤ v.toNat) ∧
      (width = 4 → 0x10000 ≤ v.toNat) ∧ v.toNat ≤ 0x10ffff ∧
      ¬(0xd800 ≤ v.toNat ∧ v.toNat ≤ 0xdfff) := by
    simp only [UInt32.lt_iff_toNat_lt, UInt32.le_iff_toNat_le, UInt32.reduceToNat, gt_iff_lt]
    omega
  rw [decodeCodepoint_eq_some (by omega), ← hrange, ← and_assoc, ← utf8Continue_eq_some hfit]
  constructor
  · rintro ⟨bits', hlead', -, hcont, hgood⟩
    obtain rfl : bits = bits' := by simpa [hlead] using hlead'
    exact ⟨htake ▸ hcont, hgood⟩
  · rintro ⟨hcont, hgood⟩
    exact ⟨bits, hlead, by rw [List.length_append]; omega, htake.symm ▸ hcont, hgood⟩

/-- **The decoder reads back what the encoding wrote**, whatever follows. -/
theorem decodeCodepoint_encode (c : Char) (t : Bytes) :
    decodeCodepoint (String.utf8EncodeChar c ++ t) =
      some (c.val, (String.utf8EncodeChar c).length) := by
  have hsize := c.utf8Size_eq
  have hbounds := Utf8.scalar_bounds c
  rw [← String.length_utf8EncodeChar] at hsize
  rcases hc : String.utf8EncodeChar c with _ | ⟨b₀, _ | ⟨b₁, _ | ⟨b₂, _ | ⟨b₃, _ | _⟩⟩⟩⟩
  · simp [hc] at hsize
  · obtain ⟨hlead, hval⟩ := Utf8.encode_one_iff.mp hc
    have hb : c.val = b₀.toUInt32 := UInt32.toNat_inj.mp hval
    rw [List.singleton_append, decodeCodepoint_ascii hlead, hb]
    rfl
  · obtain ⟨hlo, hhi, h₁, hval⟩ := Utf8.encode_two_iff.mp hc
    obtain ⟨bits, hlead, hbits⟩ := exists_codepointLead (.inl ⟨hlo, hhi, rfl, rfl⟩)
    refine (decodeCodepoint_multi [b₁] t hlead rfl).mpr ⟨by simp [h₁], ?_, by omega⟩
    simp [hval, hbits]
  · obtain ⟨hlo, hhi, h₁, h₂, hlow, hval⟩ := Utf8.encode_three_iff.mp hc
    obtain ⟨bits, hlead, hbits⟩ := exists_codepointLead (.inr (.inl ⟨hlo, hhi, rfl, rfl⟩))
    refine (decodeCodepoint_multi [b₁, b₂] t hlead rfl).mpr
      ⟨by simp [h₁, h₂], ?_, by omega⟩
    simp [hval, hbits]
  · obtain ⟨hlo, hhi, h₁, h₂, h₃, hlow, hval⟩ := Utf8.encode_four_iff.mp hc
    obtain ⟨bits, hlead, hbits⟩ := exists_codepointLead (.inr (.inr ⟨hlo, hhi, rfl, rfl⟩))
    refine (decodeCodepoint_multi [b₁, b₂, b₃] t hlead rfl).mpr
      ⟨by simp [h₁, h₂, h₃], ?_, by omega⟩
    simp [hval, hbits]
  · simp [hc] at hsize

theorem encode_eq_of_multi {ks : Bytes} {c : Char}
    (hlead : codepointLead first = some (bits, width)) (hks : ks.length + 1 = width)
    (hcont : ∀ k ∈ ks, Utf8.Cont k)
    (hval : c.val.toNat = Digits.value 64 bits.toNat (ks.map fun k => k.toNat % 64))
    (hthree : width = 3 → 0x800 ≤ c.val.toNat) (hfour : width = 4 → 0x10000 ≤ c.val.toNat) :
    String.utf8EncodeChar c = first :: ks := by
  rcases codepointLead_eq_some.mp hlead with ⟨hlo, hhi, rfl, hbits⟩ | ⟨hlo, hhi, rfl, hbits⟩ |
    ⟨hlo, hhi, rfl, hbits⟩
  · obtain ⟨b₁, rfl⟩ := List.length_eq_one_iff.mp (Nat.succ.inj hks)
    exact Utf8.encode_two_iff.mpr ⟨hlo, hhi, hcont _ (by simp), by simpa [hbits] using hval⟩
  · obtain ⟨b₁, b₂, rfl⟩ := List.length_eq_two.mp (Nat.succ.inj hks)
    exact Utf8.encode_three_iff.mpr ⟨hlo, hhi, hcont _ (by simp), hcont _ (by simp), hthree rfl,
      by simpa [hbits] using hval⟩
  · obtain ⟨b₁, b₂, b₃, rfl⟩ := List.length_eq_three.mp (Nat.succ.inj hks)
    exact Utf8.encode_four_iff.mpr ⟨hlo, hhi, hcont _ (by simp), hcont _ (by simp),
      hcont _ (by simp), hfour rfl, by simpa [hbits] using hval⟩

/-- **The decoder accepts encodings only**: shortest forms of scalar values. -/
theorem decodeCodepoint_sound (h : decodeCodepoint data = some (v, width)) :
    ∃ (c : Char) (t : Bytes), data = String.utf8EncodeChar c ++ t ∧ v = c.val ∧
      width = (String.utf8EncodeChar c).length := by
  cases data with
  | nil => cases h
  | cons first rest =>
    by_cases hascii : first.toNat ≤ 0x7f
    · rw [decodeCodepoint_ascii hascii] at h
      cases h
      have hv : first.toUInt32.toNat = first.toNat := UInt8.toNat_toUInt32 first
      have hc : String.utf8EncodeChar ⟨first.toUInt32, .inl (by omega)⟩ = [first] :=
        Utf8.encode_one_iff.mpr ⟨hascii, hv⟩
      exact ⟨_, rest, by rw [hc]; rfl, rfl, by rw [hc]; rfl⟩
    · obtain ⟨bits, hlead, hlen, -, -⟩ := (decodeCodepoint_eq_some (by omega)).mp h
      have htable := codepointLead_eq_some.mp hlead
      have hks : (rest.take (width - 1)).length + 1 = width := by
        rw [List.length_take]
        omega
      rw [← List.take_append_drop (width - 1) rest, decodeCodepoint_multi _ _ hlead hks] at h
      obtain ⟨hcont, hval, hthree, hfour, hmax, hsur⟩ := h
      have hscalar : v.isValidChar := by
        show v.toNat < 0xd800 ∨ 0xdfff < v.toNat ∧ v.toNat < 0x110000
        omega
      have hshape : String.utf8EncodeChar ⟨v, hscalar⟩ = first :: rest.take (width - 1) :=
        encode_eq_of_multi hlead hks hcont hval hthree hfour
      refine ⟨⟨v, hscalar⟩, rest.drop (width - 1), ?_⟩
      rw [hshape, List.cons_append, List.take_append_drop, List.length_cons]
      exact ⟨rfl, rfl, hks.symm⟩

/-! ## `pv_utf8_valid` -/

theorem codepointLead_eq (first : UInt8) :
    codepointLead first = (utf8Lead first).map fun (bits, continuation) => (bits, continuation + 1) := by
  rw [codepointLead, utf8Lead]
  split_ifs <;> rfl

/-- A pass of the validator is a decoded code point. -/
theorem utf8Loop_succ (fuel : Nat) (first : UInt8) (rest : Bytes) :
    utf8Loop (fuel + 1) (first :: rest) =
      match decodeCodepoint (first :: rest) with
      | none => false
      | some (_, width) => utf8Loop fuel ((first :: rest).drop width) := by
  rw [utf8Loop, decodeCodepoint]
  split
  · rfl
  rw [codepointLead_eq]
  rcases utf8Lead first with _ | ⟨bits, continuation⟩
  · rfl
  simp only [Option.map_some, List.length_cons, Nat.add_sub_cancel, gt_iff_lt,
    Nat.add_lt_add_iff_right, Nat.reduceEqDiff]
  split
  · rfl
  rcases utf8Continue bits (rest.take continuation) with _ | codepoint
  · rfl
  dsimp only
  split <;> rfl

theorem utf8Loop_iff (h : data.length ≤ fuel) :
    utf8Loop fuel data = true ↔ ∃ cs : List Char, data = Utf8.text cs := by
  induction fuel generalizing data with
  | zero =>
    obtain rfl := List.eq_nil_of_length_eq_zero (Nat.le_zero.mp h)
    exact ⟨fun _ => ⟨[], rfl⟩, fun _ => rfl⟩
  | succ fuel ih =>
    cases data with
    | nil => exact ⟨fun _ => ⟨[], rfl⟩, fun _ => rfl⟩
    | cons first rest =>
      rw [utf8Loop_succ]
      constructor
      · intro hloop
        rcases hdec : decodeCodepoint (first :: rest) with _ | ⟨v, width⟩
        · rw [hdec] at hloop
          cases hloop
        · obtain ⟨c, t, hdata, -, rfl⟩ := decodeCodepoint_sound hdec
          have hpos := c.utf8Size_pos
          rw [hdec, hdata] at hloop
          dsimp only at hloop
          rw [List.drop_left] at hloop
          rw [hdata, List.length_append, String.length_utf8EncodeChar] at h
          obtain ⟨cs, rfl⟩ := (ih (by omega)).mp hloop
          exact ⟨c :: cs, hdata⟩
      · rintro ⟨cs, htext⟩
        cases cs with
        | nil => cases htext
        | cons c cs =>
          have hpos := c.utf8Size_pos
          rw [htext, Utf8.text_cons] at h ⊢
          rw [List.length_append, String.length_utf8EncodeChar] at h
          rw [decodeCodepoint_encode]
          dsimp only
          rw [List.drop_left]
          exact (ih (by omega)).mpr ⟨cs, rfl⟩

/-- **The validator accepts exactly well-formed UTF-8**: the concatenations of the
shortest-form encodings of scalar values (`Char` is the type of these). -/
theorem pvUtf8Valid_iff (s : Bytes) :
    pvUtf8Valid s = true ↔ ∃ cs : List Char, s = cs.flatMap String.utf8EncodeChar :=
  utf8Loop_iff (le_refl s.length)

/-! ## `pv_text_sanitize` -/

/-- `display_codepoint_unsafe`: controls, and the format characters that are invisible or
change the direction of the text. -/
def displayCodepointUnsafe (codepoint : UInt32) : Prop :=
  codepoint ≤ 0x1f ∨ (codepoint ≥ 0x7f ∧ codepoint ≤ 0x9f) ∨
    codepoint = 0x061c ∨ (codepoint ≥ 0x200b ∧ codepoint ≤ 0x200f) ∨
    (codepoint ≥ 0x2028 ∧ codepoint ≤ 0x202e) ∨
    (codepoint ≥ 0x2060 ∧ codepoint ≤ 0x2069) ∨ codepoint = 0xfeff

instance (codepoint : UInt32) : Decidable (displayCodepointUnsafe codepoint) :=
  inferInstanceAs (Decidable (_ ∨ _))

/-- The loop of `pv_text_sanitize`: the input that is left, the output buffer and the
position in it. A pass consumes at least one byte, so the length of the input is enough
fuel. -/
def sanitizeLoop : Nat → Bytes → Bytes → Nat → Bytes × Nat
  | 0, _, output, outputPosition => (output, outputPosition)
  | _ + 1, [], output, outputPosition => (output, outputPosition)
  | fuel + 1, first :: rest, output, outputPosition =>
    match decodeCodepoint (first :: rest) with
    | none => sanitizeLoop fuel rest (splice output outputPosition [0x3f]) (outputPosition + 1)
    | some (codepoint, width) =>
      if displayCodepointUnsafe codepoint then
        sanitizeLoop fuel ((first :: rest).drop width) (splice output outputPosition [0x3f])
          (outputPosition + 1)
      else
        sanitizeLoop fuel ((first :: rest).drop width)
          (splice output outputPosition ((first :: rest).take width)) (outputPosition + width)

/-- `pv_text_sanitize` with an output buffer of `capacity` bytes: the buffer after the call
and the length of the text in it. -/
def pvTextSanitize (slice output : Bytes) (capacity : Nat) : Option (Bytes × Nat) :=
  if capacity < slice.length then none
  else some (sanitizeLoop slice.length slice output 0)

/-- What is shown of the data, from its decoded code points. -/
def shown : Nat → Bytes → Bytes
  | 0, _ => []
  | _ + 1, [] => []
  | fuel + 1, first :: rest =>
    match decodeCodepoint (first :: rest) with
    | none => 0x3f :: shown fuel rest
    | some (codepoint, width) =>
      (if displayCodepointUnsafe codepoint then [0x3f] else (first :: rest).take width) ++
        shown fuel ((first :: rest).drop width)

/-- What is shown of one scalar value. -/
def shownChar (c : Char) : Bytes :=
  if displayCodepointUnsafe c.val then [0x3f] else String.utf8EncodeChar c

theorem decodeCodepoint_cases (data : Bytes) :
    decodeCodepoint data = none ∨ ∃ (c : Char) (t : Bytes), data = String.utf8EncodeChar c ++ t ∧
      decodeCodepoint data = some (c.val, (String.utf8EncodeChar c).length) := by
  rcases hdec : decodeCodepoint data with _ | ⟨v, width⟩
  · exact .inl rfl
  · obtain ⟨c, t, hdata, rfl, rfl⟩ := decodeCodepoint_sound hdec
    exact .inr ⟨c, t, hdata, rfl⟩

/-- Both display loops take one code point or one broken byte at a time. -/
theorem display_induction {P : Nat → Bytes → Prop} (hnil : ∀ fuel, P fuel [])
    (hbad : ∀ fuel first rest, decodeCodepoint (first :: rest) = none → P fuel rest →
      P (fuel + 1) (first :: rest))
    (hchar : ∀ fuel c t, P fuel t → P (fuel + 1) (String.utf8EncodeChar c ++ t)) :
    ∀ {fuel : Nat} {data : Bytes}, data.length ≤ fuel → P fuel data := by
  intro fuel
  induction fuel with
  | zero =>
    intro data h
    rw [List.eq_nil_of_length_eq_zero (Nat.le_zero.mp h)]
    exact hnil 0
  | succ fuel ih =>
    intro data h
    cases data with
    | nil => exact hnil _
    | cons first rest =>
      rcases decodeCodepoint_cases (first :: rest) with hnone | ⟨c, t, hdata, -⟩
      · exact hbad fuel first rest hnone (ih (Nat.le_of_succ_le_succ h))
      · have hpos := c.utf8Size_pos
        rw [hdata, List.length_append, String.length_utf8EncodeChar] at h
        rw [hdata]
        exact hchar fuel c t (ih (by omega))

/-- The encoding of a scalar value is not empty, so the loops look at its first byte. -/
theorem encode_eq_cons (c : Char) (t : Bytes) :
    ∃ first rest, String.utf8EncodeChar c ++ t = first :: rest := by
  have hpos := c.utf8Size_pos
  rw [← String.length_utf8EncodeChar] at hpos
  obtain ⟨first, more, hcons⟩ := List.exists_cons_of_length_pos hpos
  exact ⟨first, more ++ t, by rw [hcons, List.cons_append]⟩

theorem shown_encode (fuel : Nat) (c : Char) (t : Bytes) :
    shown (fuel + 1) (String.utf8EncodeChar c ++ t) = shownChar c ++ shown fuel t := by
  obtain ⟨first, rest, hdata⟩ := encode_eq_cons c t
  have hdec := decodeCodepoint_encode c t
  rw [hdata] at hdec
  rw [hdata, shown, hdec]
  dsimp only
  rw [← hdata, List.take_left, List.drop_left, shownChar]

theorem sanitizeLoop_encode (fuel : Nat) (c : Char) (t output : Bytes) (pos : Nat) :
    sanitizeLoop (fuel + 1) (String.utf8EncodeChar c ++ t) output pos =
      sanitizeLoop fuel t (splice output pos (shownChar c)) (pos + (shownChar c).length) := by
  obtain ⟨first, rest, hdata⟩ := encode_eq_cons c t
  have hdec := decodeCodepoint_encode c t
  rw [hdata] at hdec
  rw [hdata, sanitizeLoop, hdec]
  dsimp only
  rw [← hdata, List.take_left, List.drop_left, shownChar]
  split <;> rfl

@[simp] theorem shown_nil (fuel : Nat) : shown fuel [] = [] := by
  cases fuel <;> rfl

theorem shown_bad {rest : Bytes} (h : decodeCodepoint (first :: rest) = none) :
    shown (fuel + 1) (first :: rest) = 0x3f :: shown fuel rest := by
  rw [shown, h]

theorem length_shownChar_le (c : Char) :
    (shownChar c).length ≤ (String.utf8EncodeChar c).length := by
  rw [shownChar]
  split
  · rw [String.length_utf8EncodeChar]
    exact c.utf8Size_pos
  · exact le_refl _

theorem length_shown_le (h : data.length ≤ fuel) :
    (shown fuel data).length ≤ data.length := by
  refine display_induction (P := fun fuel data => (shown fuel data).length ≤ data.length)
    (fun fuel => by simp) (fun fuel first rest hnone ih => ?_) (fun fuel c t ih => ?_) h
  · rw [shown_bad hnone]
    exact Nat.succ_le_succ ih
  · rw [shown_encode, List.length_append, List.length_append]
    exact Nat.add_le_add (length_shownChar_le c) ih

/-- The loop appends what is shown to what it has written. -/
theorem sanitizeLoop_eq (h : data.length ≤ fuel) :
    ∀ {output : Bytes} {pos : Nat}, pos + data.length ≤ output.length →
      sanitizeLoop fuel data output pos =
        (splice output pos (shown fuel data), pos + (shown fuel data).length) := by
  refine display_induction (P := fun fuel data => ∀ {output : Bytes} {pos : Nat},
    pos + data.length ≤ output.length → sanitizeLoop fuel data output pos =
      (splice output pos (shown fuel data), pos + (shown fuel data).length))
    (fun fuel output pos _ => ?_) (fun fuel first rest hnone ih output pos hfit => ?_)
    (fun fuel c t ih output pos hfit => ?_) h
  · rw [shown_nil, splice_nil]
    cases fuel <;> rfl
  · have hone : pos + [(0x3f : UInt8)].length ≤ output.length := by
      rw [List.length_cons] at hfit
      rw [List.length_singleton]
      omega
    have htwo : splice (splice output pos [0x3f]) (pos + 1) (shown fuel rest) =
        splice output pos (0x3f :: shown fuel rest) := splice_splice hone
    have hrest : pos + 1 + rest.length ≤ (splice output pos [0x3f]).length := by
      rw [length_splice hone]
      rw [List.length_cons] at hfit
      omega
    rw [sanitizeLoop, hnone, shown_bad hnone]
    dsimp only
    rw [ih hrest, htwo, List.length_cons, Nat.add_assoc, Nat.add_comm 1]
  · have hle := length_shownChar_le c
    rw [List.length_append] at hfit
    rw [sanitizeLoop_encode, shown_encode, ih (by rw [length_splice (by omega)]; omega),
      splice_splice (by omega), List.length_append, Nat.add_assoc]

/-- What is shown is a text of harmless scalar values, the `?` among them. -/
theorem exists_shown_text (h : data.length ≤ fuel) :
    ∃ cs : List Char, shown fuel data = Utf8.text cs ∧ ∀ c ∈ cs, ¬displayCodepointUnsafe c.val := by
  have hmark : String.utf8EncodeChar '?' = [0x3f] ∧ ¬displayCodepointUnsafe '?'.val := by decide
  refine display_induction (P := fun fuel data => ∃ cs : List Char,
    shown fuel data = Utf8.text cs ∧ ∀ c ∈ cs, ¬displayCodepointUnsafe c.val)
    (fun fuel => ⟨[], by simp⟩) ?_ ?_ h
  · rintro fuel first rest hnone ⟨cs, hcs, hsafe⟩
    refine ⟨'?' :: cs, ?_, List.forall_mem_cons.mpr ⟨hmark.2, hsafe⟩⟩
    rw [shown_bad hnone, hcs, Utf8.text_cons, hmark.1, List.singleton_append]
  · rintro fuel c t ⟨cs, hcs, hsafe⟩
    rw [shown_encode, hcs, shownChar]
    split
    · exact ⟨'?' :: cs, by rw [Utf8.text_cons, hmark.1],
        List.forall_mem_cons.mpr ⟨hmark.2, hsafe⟩⟩
    · next hc => exact ⟨c :: cs, rfl, List.forall_mem_cons.mpr ⟨hc, hsafe⟩⟩

theorem shown_text (cs : List Char) :
    ∀ {fuel : Nat}, (Utf8.text cs).length ≤ fuel → shown fuel (Utf8.text cs) = cs.flatMap shownChar := by
  induction cs with
  | nil => exact fun _ => shown_nil _
  | cons c cs ih =>
    intro fuel h
    have hpos := c.utf8Size_pos
    rw [Utf8.text_cons, List.length_append, String.length_utf8EncodeChar] at h
    obtain ⟨fuel, rfl⟩ : ∃ k, fuel = k + 1 := ⟨fuel - 1, by omega⟩
    rw [Utf8.text_cons, shown_encode, ih (by omega), List.flatMap_cons]

/-- A text without unsafe code points is shown as it is. -/
theorem shown_safe {cs : List Char} (hsafe : ∀ c ∈ cs, ¬displayCodepointUnsafe c.val)
    (h : (Utf8.text cs).length ≤ fuel) : shown fuel (Utf8.text cs) = Utf8.text cs := by
  rw [shown_text cs h]
  exact List.flatMap_congr fun c hc => if_neg (hsafe c hc)

/-- A text has one segmentation only. -/
theorem text_injective {cs ds : List Char} (h : Utf8.text cs = Utf8.text ds) : cs = ds := by
  induction cs generalizing ds with
  | nil =>
    cases ds with
    | nil => rfl
    | cons d ds =>
      obtain ⟨first, rest, hcons⟩ := encode_eq_cons d (Utf8.text ds)
      rw [Utf8.text_cons, hcons] at h
      cases h
  | cons c cs ih =>
    cases ds with
    | nil =>
      obtain ⟨first, rest, hcons⟩ := encode_eq_cons c (Utf8.text cs)
      rw [Utf8.text_cons, hcons] at h
      cases h
    | cons d ds =>
      have hc := decodeCodepoint_encode c (Utf8.text cs)
      rw [← Utf8.text_cons, h, Utf8.text_cons, decodeCodepoint_encode, Option.some.injEq,
        Prod.mk.injEq] at hc
      obtain rfl : c = d := Char.ext hc.1.symm
      rw [ih (List.append_cancel_left h)]

/-- What a caller of `pv_text_sanitize` may rely on, for the slice `s`, the buffer before the
call and the buffer and length it comes back with. -/
structure Sanitized (s output buffer : Bytes) (len : Nat) : Prop where
  /-- at most as many bytes as the slice has are written -/
  length_le : len ≤ s.length
  /-- the buffer keeps its size and whatever lies behind them -/
  spared : buffer.length = output.length ∧ buffer.drop s.length = output.drop s.length
  /-- the text is UTF-8 -/
  valid : pvUtf8Valid (buffer.take len) = true
  /-- none of its code points is unsafe -/
  safe : ∀ cs, buffer.take len = Utf8.text cs → ∀ c ∈ cs, ¬displayCodepointUnsafe c.val
  /-- of valid text, each unsafe code point is replaced by one `?` and nothing else changes -/
  replaced : ∀ cs, s = Utf8.text cs → buffer.take len =
    cs.flatMap fun c => if displayCodepointUnsafe c.val then [0x3f] else String.utf8EncodeChar c
  /-- valid text without unsafe code points comes back -/
  kept : pvUtf8Valid s = true →
    (∀ cs, s = Utf8.text cs → ∀ c ∈ cs, ¬displayCodepointUnsafe c.val) → buffer.take len = s
  /-- sanitising once more changes nothing -/
  idempotent : ∀ output₂ : Bytes, len ≤ output₂.length → ∃ buffer₂,
    pvTextSanitize (buffer.take len) output₂ output₂.length = some (buffer₂, len) ∧
      buffer₂.take len = buffer.take len

theorem pvTextSanitize_eq {s output : Bytes} (h : s.length ≤ output.length) :
    pvTextSanitize s output output.length =
      some (splice output 0 (shown s.length s), (shown s.length s).length) := by
  rw [pvTextSanitize, if_neg (by omega), sanitizeLoop_eq (le_refl _) (by omega), Nat.zero_add]

theorem take_splice_zero {bs src : Bytes} (h : src.length ≤ bs.length) :
    (splice bs 0 src).take src.length = src := by
  have := @take_splice bs src 0 (by omega)
  rwa [Nat.zero_add, List.take_zero, List.nil_append] at this

/-- **Sanitised text is safe to display**: with enough room the sanitiser succeeds, whatever
the bytes are. -/
theorem pvTextSanitize_safe {s output : Bytes} {capacity : Nat} (hcapacity : s.length ≤ capacity)
    (houtput : output.length = capacity) :
    ∃ buffer len, pvTextSanitize s output capacity = some (buffer, len) ∧
      Sanitized s output buffer len := by
  subst houtput
  have hle : (shown s.length s).length ≤ s.length := length_shown_le (le_refl _)
  have htext : (splice output 0 (shown s.length s)).take (shown s.length s).length =
      shown s.length s := take_splice_zero (by omega)
  obtain ⟨cs, hcs, hsafe⟩ := exists_shown_text (le_refl s.length)
  refine ⟨_, _, pvTextSanitize_eq hcapacity, hle, ⟨length_splice (by omega), ?_⟩, ?_, ?_, ?_, ?_, ?_⟩
  · rw [splice, List.take_zero, List.nil_append, Nat.zero_add, List.drop_append,
      List.drop_eq_nil_of_le hle, List.nil_append, List.drop_drop]
    congr 1
    omega
  · rw [htext, hcs]
    exact (utf8Loop_iff (le_refl _)).mpr ⟨cs, rfl⟩
  · intro ds hds
    rw [htext, hcs] at hds
    exact text_injective hds ▸ hsafe
  · intro ds hds
    rw [htext, hds]
    exact shown_text ds (le_refl _)
  · intro hvalid hall
    obtain ⟨ds, hds⟩ := (utf8Loop_iff (le_refl _)).mp hvalid
    rw [htext, hds, shown_safe (hall ds hds) (le_refl _)]
  · intro output₂ hroom
    have hagain : shown (shown s.length s).length (shown s.length s) = shown s.length s := by
      rw [hcs]
      exact shown_safe hsafe (le_refl _)
    have hsecond := pvTextSanitize_eq hroom
    rw [hagain] at hsecond
    rw [htext]
    exact ⟨_, hsecond, take_splice_zero hroom⟩

/-- An escape character, a stray byte and an accented letter. -/
theorem pvTextSanitize_safe_escape :
    ∃ buffer len, pvTextSanitize [0x1b, 0x5b, 0xff, 0xc3, 0xa9] (List.replicate 5 0) 5 =
      some (buffer, len) ∧
      Sanitized [0x1b, 0x5b, 0xff, 0xc3, 0xa9] (List.replicate 5 0) buffer len :=
  pvTextSanitize_safe (by decide) rfl

example : pvTextSanitize [0x1b, 0x5b, 0xff, 0xc3, 0xa9] (List.replicate 5 0) 5 =
    some ([0x3f, 0x5b, 0x3f, 0xc3, 0xa9], 5) := by
  decide

/-! ## `pv_text_fprint` -/

/-- The run of safe bytes that has not been written yet. -/
def flushSafe (slice : Bytes) (safeStart position : Nat) : List Bytes :=
  if position > safeStart then [Binary.slice slice safeStart (position - safeStart)] else []

/-- The loop of `pv_text_fprint`: the writes to the stream, in order. -/
def fprintLoop : Nat → Bytes → Nat → Nat → List Bytes
  | 0, slice, position, safeStart => flushSafe slice safeStart position
  | fuel + 1, slice, position, safeStart =>
    if position < slice.length then
      match decodeCodepoint (slice.drop position) with
      | none =>
        flushSafe slice safeStart position ++
          [0x3f] :: fprintLoop fuel slice (position + 1) (position + 1)
      | some (codepoint, width) =>
        if displayCodepointUnsafe codepoint then
          flushSafe slice safeStart position ++
            [0x3f] :: fprintLoop fuel slice (position + width) (position + width)
        else fprintLoop fuel slice (position + width) safeStart
    else flushSafe slice safeStart position

/-- `pv_text_fprint`: the writes to the stream, all of which succeed. -/
def pvTextFprint (slice : Bytes) : List Bytes := fprintLoop slice.length slice 0 0

theorem flatten_flushSafe (s : Bytes) (safeStart position : Nat) :
    (flushSafe s safeStart position).flatten = slice s safeStart (position - safeStart) := by
  rw [flushSafe]
  split
  · exact List.flatten_singleton
  · next h => rw [Nat.sub_eq_zero_of_le (not_lt.mp h), slice_zero, List.flatten_nil]

/-- What the loop writes: the run it holds back, then what is shown of the rest. -/
theorem flatten_fprintLoop (h : data.length ≤ fuel) :
    ∀ {s : Bytes} {position safeStart : Nat}, s.drop position = data → position ≤ s.length →
      safeStart ≤ position → (fprintLoop fuel s position safeStart).flatten =
        slice s safeStart (position - safeStart) ++ shown fuel data := by
  refine display_induction (P := fun fuel data => ∀ {s : Bytes} {position safeStart : Nat},
    s.drop position = data → position ≤ s.length → safeStart ≤ position →
      (fprintLoop fuel s position safeStart).flatten =
        slice s safeStart (position - safeStart) ++ shown fuel data) ?_ ?_ ?_ h
  · intro fuel s position safeStart hdata _ _
    have hend : ¬position < s.length := not_lt.mpr (List.drop_eq_nil_iff.mp hdata)
    cases fuel with
    | zero => rw [fprintLoop, flatten_flushSafe, shown_nil, List.append_nil]
    | succ fuel => rw [fprintLoop, if_neg hend, flatten_flushSafe, shown_nil, List.append_nil]
  · intro fuel first rest hnone ih s position safeStart hdata hpos hsafe
    have hlt : position < s.length := by
      by_contra hge
      rw [List.drop_eq_nil_of_le (not_lt.mp hge)] at hdata
      cases hdata
    have hrest : s.drop (position + 1) = rest := by rw [← List.drop_drop, hdata]; rfl
    rw [fprintLoop, if_pos hlt, hdata, hnone]
    dsimp only
    rw [List.flatten_append, List.flatten_cons, flatten_flushSafe, shown_bad hnone,
      ih hrest hlt (le_refl _), Nat.sub_self, slice_zero, List.nil_append, List.singleton_append]
  · intro fuel c t ih s position safeStart hdata hpos hsafe
    have hlen : (s.drop position).length = s.length - position := List.length_drop
    have hsize := c.utf8Size_pos
    rw [hdata, List.length_append, String.length_utf8EncodeChar] at hlen
    have hrest : s.drop (position + (String.utf8EncodeChar c).length) = t := by
      rw [← List.drop_drop, hdata, List.drop_left]
    have hbound : position + (String.utf8EncodeChar c).length ≤ s.length := by
      rw [String.length_utf8EncodeChar]
      omega
    rw [fprintLoop, if_pos (by omega), hdata, decodeCodepoint_encode, shown_encode, shownChar]
    dsimp only
    split
    · rw [List.flatten_append, List.flatten_cons, flatten_flushSafe, ih hrest hbound (le_refl _),
        Nat.sub_self, slice_zero, List.nil_append]
    · -- the run grows by the code point
      have hrun : slice s safeStart (position + (String.utf8EncodeChar c).length - safeStart) =
          slice s safeStart (position - safeStart) ++ String.utf8EncodeChar c := by
        rw [Nat.sub_add_comm hsafe, ← slice_append_slice, Nat.add_sub_cancel' hsafe, slice, slice,
          hdata, List.take_left]
      rw [ih hrest hbound (by omega), hrun, List.append_assoc]

/-- **The two display paths agree**: the writes to the stream are the sanitised text. -/
theorem pvTextFprint_eq {s output : Bytes} {capacity : Nat} (hcapacity : s.length ≤ capacity)
    (houtput : output.length = capacity) :
    ∃ buffer len, pvTextSanitize s output capacity = some (buffer, len) ∧
      (pvTextFprint s).flatten = buffer.take len := by
  subst houtput
  refine ⟨_, _, pvTextSanitize_eq hcapacity, ?_⟩
  have hle : (shown s.length s).length ≤ s.length := length_shown_le (le_refl _)
  rw [pvTextFprint, flatten_fprintLoop (le_refl s.length) List.drop_zero (Nat.zero_le _) (le_refl 0),
    take_splice_zero (by omega), Nat.sub_self, slice_zero, List.nil_append]

/-- A run before a control, one after it and a broken sequence at the end. -/
theorem pvTextFprint_eq_bell :
    ∃ buffer len, pvTextSanitize [0x61, 0x62, 0x07, 0x63, 0xe2, 0x80] (List.replicate 6 0) 6 =
      some (buffer, len) ∧
      (pvTextFprint [0x61, 0x62, 0x07, 0x63, 0xe2, 0x80]).flatten = buffer.take len :=
  pvTextFprint_eq (by decide) rfl

end PVault
