import PVault.Lib.Bytes
import PVault.Lib.Digits
import PVault.Status

/-!
# Recovery keys as text (`src/recovery.c`)

A recovery key is written down by hand: `PV1R-`, then the 32 bytes of the key and a checksum
of five bytes in Crockford's Base32, grouped by hyphens. Reading it back ignores hyphens,
white space and case, and takes `O` for `0` and `I`, `L` for `1`.

The two Base32 loops shift bits through a small buffer. Read as numbers, they change the base
of one number: `base32Encode_eq` and `base32Decode_eq` say which digits come out. The result
is `pvRecoveryDecode_iff`: a text is accepted, and gives a key, exactly when it is such a
variant of what `pv_recovery_encode` writes for the key.
-/

namespace PVault

open Binary Digits

variable {input : Bytes} {buffer bits : Nat} {c : UInt8}

/-! ## Characters -/

/-- `isspace`, in the C locale. -/
def isSpace (c : UInt8) : Bool := c = 32 ∨ 9 ≤ c ∧ c ≤ 13

/-- `toupper`, in the C locale. -/
def toUpper (c : UInt8) : UInt8 := if 97 ≤ c ∧ c ≤ 122 then c - 32 else c

/-- `crockford_alphabet`: `0123456789ABCDEFGHJKMNPQRSTVWXYZ`. -/
def crockfordAlphabet : Bytes :=
  [48, 49, 50, 51, 52, 53, 54, 55, 56, 57, 65, 66, 67, 68, 69, 70, 71, 72, 74, 75, 77, 78, 80, 81,
    82, 83, 84, 86, 87, 88, 89, 90]

/-- The character of a digit. -/
def crockfordDigit (n : Nat) : UInt8 := crockfordAlphabet.getD n 0

/-- `crockford_value`, with `none` for -1. The search of `strchr` includes the terminating
zero of the alphabet. -/
def crockfordValue (c : UInt8) : Option Nat :=
  let upper := toUpper c
  if upper = 79 then some 0
  else if upper = 73 ∨ upper = 76 then some 1
  else (crockfordAlphabet ++ [0]).idxOf? upper

/-! ## Base32 -/

/-- `buffer &= (1 << bits) - 1`, or zero when no bit is left. -/
def lowBits (buffer bits : Nat) : Nat := if bits = 0 then 0 else buffer &&& (1 <<< bits - 1)

/-- The input, the buffer and its bits once a round of `base32_encode` has five bits to write:
a byte is loaded when there are fewer, and the last digit is filled up with zeroes. -/
def base32Load (input : Bytes) (buffer bits : Nat) : Bytes × Nat × Nat :=
  if bits < 5 then
    match input with
    | byte :: rest => (rest, buffer <<< 8 ||| byte.toNat, bits + 8)
    | [] => ([], buffer <<< (5 - bits), 5)
  else (input, buffer, bits)

theorem base32Load_lt (h : ¬(input = [] ∧ bits = 0)) :
    8 * (base32Load input buffer bits).1.length + ((base32Load input buffer bits).2.2 - 5) <
      8 * input.length + bits := by
  cases input with
  | nil =>
    rw [base32Load]
    simp only [true_and] at h
    split_ifs <;> simp only [List.length_nil] <;> omega
  | cons byte rest =>
    rw [base32Load]
    split_ifs <;> simp only [List.length_cons] <;> omega

/-- The loop of `base32_encode`. Nothing is returned when the output would not fit. -/
def base32EncodeLoop (cap : Nat) (input : Bytes) (buffer bits : Nat) (out : Bytes) :
    Option Bytes :=
  if input = [] ∧ bits = 0 then some out
  else if out.length + 1 ≥ cap then none
  else
    let next := base32Load input buffer bits
    base32EncodeLoop cap next.1 (lowBits next.2.1 (next.2.2 - 5)) (next.2.2 - 5)
      (out ++ [crockfordDigit (next.2.1 >>> (next.2.2 - 5) &&& 31)])
termination_by 8 * input.length + bits
decreasing_by exact base32Load_lt ‹_›

/-- `base32_encode`: the characters, none of them when they would not fit. -/
def base32Encode (input : Bytes) (cap : Nat) : Bytes :=
  (base32EncodeLoop cap input 0 0 []).getD []

/-- The loop of `base32_decode`. -/
def base32DecodeLoop (outputLen : Nat) : Bytes → Nat → Nat → Bytes → Option Bytes
  | [], buffer, bits, out =>
    if out.length = outputLen ∧ (bits = 0 ∨ buffer = 0) then some out else none
  | c :: rest, buffer, bits, out =>
    match crockfordValue c with
    | none => none
    | some value =>
      let buffer := buffer <<< 5 ||| value
      let bits := bits + 5
      if bits ≥ 8 then
        let bits := bits - 8
        if out.length ≥ outputLen then none
        else
          base32DecodeLoop outputLen rest (lowBits buffer bits) bits
            (out ++ [UInt8.ofNat (buffer >>> bits)])
      else base32DecodeLoop outputLen rest buffer bits out

/-- `base32_decode`: the bytes, or nothing for `false`. -/
def base32Decode (input : Bytes) (outputLen : Nat) : Option Bytes :=
  base32DecodeLoop outputLen input 0 0 []

/-! ## Recovery texts -/

/-- `PV_RECOVERY_CHECKSUM_BYTES`. -/
abbrev pvRecoveryChecksumBytes : Nat := 5

/-- What the recovery functions get from outside: the first bytes of the hash of a vault id
and a key, and whether the three requests for secret memory are granted. -/
structure RecoveryEnv where
  checksum : Block pvVaultIdBytes → Block pvRecoveryKeyBytes → Block pvRecoveryChecksumBytes
  workspace : Bool
  material : Bool
  text : Bool

/-- `recovery_checksum`. -/
def recoveryChecksum (env : RecoveryEnv) (vaultId : Block pvVaultIdBytes)
    (key : Block pvRecoveryKeyBytes) : Except PvStatus (Block pvRecoveryChecksumBytes) :=
  if env.workspace = false then .error .errSecureMemory else .ok (env.checksum vaultId key)

/-- `PV1R`. -/
def recoveryTag : Bytes := [80, 86, 49, 82]

/-- The loop that writes the characters in groups of five. -/
def groupLoop : Nat → Bytes → Bytes
  | _, [] => []
  | i, c :: rest => (if i > 0 ∧ i % 5 = 0 then [45, c] else [c]) ++ groupLoop (i + 1) rest

/-- `pv_recovery_encode`: the status and the text. -/
def pvRecoveryEncode (env : RecoveryEnv) (vaultId : Block pvVaultIdBytes)
    (key : Block pvRecoveryKeyBytes) (encodedLen : Nat) : PvStatus × Bytes :=
  if encodedLen < 16 then (.errUsage, [])
  else if env.material = false ∨ env.text = false then (.errSecureMemory, [])
  else
    match recoveryChecksum env vaultId key with
    | .error status => (status, [])
    | .ok checksum =>
      let raw := base32Encode (key.bytes ++ checksum.bytes) 80
      if raw.length = 0 then (.errLimit, [])
      else if encodedLen ≤ 5 + raw.length + raw.length / 5 then (.errLimit, [])
      else (.ok, recoveryTag ++ [45] ++ groupLoop 0 raw)

/-- The loop that drops separators and folds the case; it gives up on 80 characters. -/
def normalizeLoop : Bytes → Bytes → Option Bytes
  | [], normalized => some normalized
  | c :: rest, normalized =>
    if c ≠ 45 ∧ isSpace c = false then
      if normalized.length + 1 ≥ 80 then none else normalizeLoop rest (normalized ++ [toUpper c])
    else normalizeLoop rest normalized

/-- The end of `pv_recovery_decode`: the key, if the checksum behind it is its own. -/
def checkMaterial (env : RecoveryEnv) (vaultId : Block pvVaultIdBytes) (material : Bytes) :
    PvStatus × Block pvRecoveryKeyBytes :=
  let key := Block.ofBytes pvRecoveryKeyBytes material
  match recoveryChecksum env vaultId key with
  | .error _ => (.errAuth, Block.zero _)
  | .ok expected =>
    if expected.bytes ≠ slice material pvRecoveryKeyBytes pvRecoveryChecksumBytes then
      (.errAuth, Block.zero _)
    else (.ok, key)

/-- `pv_recovery_decode`: the status and the key. -/
def pvRecoveryDecode (env : RecoveryEnv) (encoded : Bytes) (vaultId : Block pvVaultIdBytes) :
    PvStatus × Block pvRecoveryKeyBytes :=
  let cursor := encoded.dropWhile isSpace
  if (cursor.take 4).map toUpper ≠ recoveryTag then (.errAuth, Block.zero _)
  else if env.text = false ∨ env.material = false then (.errSecureMemory, Block.zero _)
  else
    match normalizeLoop (cursor.drop 4) [] with
    | none => (.errAuth, Block.zero _)
    | some normalized =>
      match base32Decode normalized (pvRecoveryKeyBytes + pvRecoveryChecksumBytes) with
      | none => (.errAuth, Block.zero _)
      | some material => checkMaterial env vaultId material

/-! ## The loops as changes of base -/

variable {env : RecoveryEnv}

theorem shiftLeft_or {a b k : Nat} (h : b < 2 ^ k) : a <<< k ||| b = a * 2 ^ k + b := by
  rw [← Nat.shiftLeft_add_eq_or_of_lt h, Nat.shiftLeft_eq]

theorem lowBits_eq (buffer bits : Nat) : lowBits buffer bits = buffer % 2 ^ bits := by
  rw [lowBits]
  split_ifs with h
  · rw [h, pow_zero, Nat.mod_one]
  · rw [Nat.one_shiftLeft, Nat.and_two_pow_sub_one_eq_mod]

/-- The number of digits that `n` bits take. -/
def base32Digits (n : Nat) : Nat := (n + 4) / 5

/-- The digits of a byte string: the number it spells, with zero bits up to a multiple of
five. `buffer` holds the `bits` bits in front of it. -/
def base32Number (input : Bytes) (buffer bits : Nat) : Nat :=
  value 256 buffer (input.map UInt8.toNat) *
    2 ^ (5 * base32Digits (8 * input.length + bits) - (8 * input.length + bits))

theorem map_toNat_lt (input : Bytes) : ∀ d ∈ input.map UInt8.toNat, d < 256 := by
  intro d hd
  obtain ⟨b, -, rfl⟩ := List.mem_map.mp hd
  exact b.toNat_lt

/-- Bits, bytes and the zeroes at the end make up the digits. -/
theorem pow_base32Digits (len bits : Nat) :
    (32 : Nat) ^ base32Digits (8 * len + bits) = 2 ^ bits * 256 ^ len *
      2 ^ (5 * base32Digits (8 * len + bits) - (8 * len + bits)) := by
  have hle : 8 * len + bits ≤ 5 * base32Digits (8 * len + bits) := by
    rw [base32Digits]
    omega
  rw [show (32 : Nat) = 2 ^ 5 from rfl, show (256 : Nat) = 2 ^ 8 from rfl, ← pow_mul, ← pow_mul,
    ← pow_add, ← pow_add]
  congr 1
  omega

theorem base32Number_lt (input : Bytes) (h : buffer < 2 ^ bits) :
    base32Number input buffer bits < 32 ^ base32Digits (8 * input.length + bits) := by
  have hvalue := value_lt (map_toNat_lt input) buffer
  rw [List.length_map] at hvalue
  rw [base32Number, pow_base32Digits]
  refine Nat.mul_lt_mul_of_pos_right (lt_of_lt_of_le hvalue ?_) (Nat.two_pow_pos _)
  exact Nat.mul_le_mul_right _ h

/-- Loading a byte, or the zero bits at the end, does not change the number. -/
theorem base32Load_spec (hbuffer : buffer < 2 ^ bits) (h : ¬(input = [] ∧ bits = 0)) :
    5 ≤ (base32Load input buffer bits).2.2 ∧
    (base32Load input buffer bits).2.1 < 2 ^ (base32Load input buffer bits).2.2 ∧
    base32Digits (8 * (base32Load input buffer bits).1.length + (base32Load input buffer bits).2.2) =
      base32Digits (8 * input.length + bits) ∧
    base32Number (base32Load input buffer bits).1 (base32Load input buffer bits).2.1
      (base32Load input buffer bits).2.2 = base32Number input buffer bits := by
  by_cases hbits : bits < 5
  · cases input with
    | nil =>
      simp only [true_and] at h
      have hw : base32Digits bits = 1 := by
        rw [base32Digits]
        omega
      rw [base32Load, if_pos hbits]
      refine ⟨le_refl _, ?_, ?_, ?_⟩
      · rw [Nat.shiftLeft_eq]
        calc buffer * 2 ^ (5 - bits) < 2 ^ bits * 2 ^ (5 - bits) :=
              Nat.mul_lt_mul_of_pos_right hbuffer (Nat.two_pow_pos _)
          _ = 2 ^ 5 := by rw [← pow_add]; congr 1; omega
      · simp only [List.length_nil, Nat.mul_zero, Nat.zero_add, hw]
        rfl
      · simp only [base32Number, List.length_nil, Nat.mul_zero, Nat.zero_add, hw, List.map_nil,
          value_nil, Nat.shiftLeft_eq, Nat.mul_one]
        rw [show base32Digits 5 = 1 from rfl, Nat.mul_one, Nat.sub_self, pow_zero, Nat.mul_one]
    | cons byte rest =>
      have hbyte := byte.toNat_lt
      have hload : buffer <<< 8 ||| byte.toNat = buffer * 256 + byte.toNat := shiftLeft_or hbyte
      have hsum : 8 * rest.length + (bits + 8) = 8 * (byte :: rest).length + bits := by
        rw [List.length_cons]
        omega
      rw [base32Load, if_pos hbits]
      refine ⟨Nat.le_add_left 5 (bits + 3), ?_, ?_, ?_⟩
      · show buffer <<< 8 ||| byte.toNat < 2 ^ (bits + 8)
        rw [hload, pow_add]
        omega
      · rw [hsum]
      · rw [base32Number, base32Number, hsum, hload, List.map_cons, value_cons]
  · have hload : base32Load input buffer bits = (input, buffer, bits) := by
      cases input <;> rw [base32Load, if_neg hbits]
    rw [hload]
    exact ⟨Nat.not_lt.mp hbits, hbuffer, rfl, rfl⟩

/-- Writing a digit takes it off the front of the number. -/
theorem base32Number_split (input : Bytes) (buffer : Nat) (hbits : 5 ≤ bits) :
    base32Digits (8 * input.length + bits) = base32Digits (8 * input.length + (bits - 5)) + 1 ∧
    base32Number input buffer bits =
      buffer / 2 ^ (bits - 5) * 32 ^ base32Digits (8 * input.length + (bits - 5)) +
        base32Number input (buffer % 2 ^ (bits - 5)) (bits - 5) := by
  have hcount : base32Digits (8 * input.length + bits) =
      base32Digits (8 * input.length + (bits - 5)) + 1 := by
    rw [base32Digits, base32Digits]
    omega
  refine ⟨hcount, ?_⟩
  have hpad : 5 * base32Digits (8 * input.length + bits) - (8 * input.length + bits) =
      5 * base32Digits (8 * input.length + (bits - 5)) - (8 * input.length + (bits - 5)) := by
    omega
  rw [base32Number, base32Number, hpad, pow_base32Digits, value_eq_add 256 buffer,
    value_eq_add 256 (buffer % _), List.length_map]
  nth_rewrite 1 [← Nat.div_add_mod buffer (2 ^ (bits - 5))]
  ring

/-- **What `base32_encode` writes**: the digits of the number that its input spells. -/
theorem base32EncodeLoop_eq (cap : Nat) (input : Bytes) (buffer bits : Nat) (out : Bytes)
    (hbuffer : buffer < 2 ^ bits) (hcap : out.length + base32Digits (8 * input.length + bits) < cap) :
    base32EncodeLoop cap input buffer bits out =
      some (out ++ (numeral 32 (base32Digits (8 * input.length + bits))
        (base32Number input buffer bits)).map crockfordDigit) := by
  induction input, buffer, bits, out using base32EncodeLoop.induct cap with
  | case1 input buffer bits out hdone =>
    obtain ⟨rfl, rfl⟩ := hdone
    rw [base32EncodeLoop, if_pos ⟨rfl, rfl⟩]
    simp [base32Digits, numeral]
  | case2 input buffer bits out hmore hfull =>
    have hpos : 0 < base32Digits (8 * input.length + bits) := by
      rw [base32Digits]
      have : input.length ≠ 0 ∨ bits ≠ 0 := by
        by_contra hcon
        simp only [not_or, not_not, List.length_eq_zero_iff] at hcon
        exact hmore hcon
      omega
    omega
  | case3 input buffer bits out hmore hroom next ih =>
    have hload := base32Load_spec hbuffer hmore
    rw [show base32Load input buffer bits = next from rfl] at hload
    obtain ⟨hfive, hlt, hcount, hnumber⟩ := hload
    obtain ⟨hcount', hsplit⟩ := base32Number_split next.1 next.2.1 hfive
    have hrest : lowBits next.2.1 (next.2.2 - 5) < 2 ^ (next.2.2 - 5) := by
      rw [lowBits_eq]
      exact Nat.mod_lt _ (Nat.two_pow_pos _)
    have hdigit : next.2.1 >>> (next.2.2 - 5) &&& 31 = next.2.1 / 2 ^ (next.2.2 - 5) % 32 := by
      rw [Nat.shiftRight_eq_div_pow]
      exact Nat.and_two_pow_sub_one_eq_mod _ 5
    rw [base32EncodeLoop, if_neg hmore, if_neg hroom]
    refine (ih hrest ?_).trans ?_
    · rw [List.length_append, List.length_singleton]
      omega
    · rw [lowBits_eq] at hrest ⊢
      rw [← hnumber, ← hcount, hsplit, hcount',
        numeral_cons (base32Number_lt next.1 hrest) _ (by decide), List.map_cons, ← hdigit,
        List.append_assoc, List.singleton_append]

/-- How a character is read: in upper case, `O` as `0`, and `I`, `L` as `1`. -/
def readAs (c : UInt8) : UInt8 :=
  if toUpper c = 79 then 48 else if toUpper c = 73 ∨ toUpper c = 76 then 49 else toUpper c

/-- A character has a value exactly when it is read as the digit of the value. -/
theorem crockfordValue_eq_some (hc : c ≠ 0) {v : Nat} :
    crockfordValue c = some v ↔ v < 32 ∧ readAs c = crockfordDigit v := by
  have hsound : ∀ n < 256, UInt8.ofNat n ≠ 0 → (crockfordValue (UInt8.ofNat n)).all
      (fun v => decide (v < 32 ∧ readAs (UInt8.ofNat n) = crockfordDigit v)) = true := by
    decide +kernel
  have hcomplete : ∀ n < 256, ∀ v < 32, readAs (UInt8.ofNat n) = crockfordDigit v →
      crockfordValue (UInt8.ofNat n) = some v := by decide +kernel
  have hs := hsound c.toNat c.toNat_lt
  have hcomp := hcomplete c.toNat c.toNat_lt
  rw [UInt8.ofNat_toNat] at hs hcomp
  refine ⟨fun h => ?_, fun ⟨hv, h⟩ => hcomp v hv h⟩
  have hall := hs hc
  rw [h] at hall
  exact of_decide_eq_true hall

theorem mapM_crockfordValue {chars : Bytes} (hzero : 0 ∉ chars) {ds : List Nat} :
    chars.mapM crockfordValue = some ds ↔
      (∀ d ∈ ds, d < 32) ∧ chars.map readAs = ds.map crockfordDigit := by
  induction chars generalizing ds with
  | nil =>
    rw [List.mapM_nil, List.map_nil]
    refine ⟨fun h => ?_, fun ⟨_, h⟩ => ?_⟩
    · cases h
      exact ⟨List.forall_mem_nil _, rfl⟩
    · rw [List.map_eq_nil_iff.mp h.symm]
      rfl
  | cons c rest ih =>
    obtain ⟨hc, hrest⟩ := not_or.mp (List.mem_cons.not.mp hzero)
    have hvalue := fun v => crockfordValue_eq_some (v := v) fun h => hc h.symm
    rw [List.mapM_cons, List.map_cons]
    refine ⟨fun h => ?_, fun ⟨hds, h⟩ => ?_⟩
    · obtain ⟨v, hv, h⟩ := Option.bind_eq_some_iff.mp h
      obtain ⟨vs, hvs, h⟩ := Option.bind_eq_some_iff.mp h
      cases h
      obtain ⟨hlt, hread⟩ := (hvalue v).mp hv
      obtain ⟨hlts, hreads⟩ := (ih hrest).mp hvs
      exact ⟨List.forall_mem_cons.mpr ⟨hlt, hlts⟩, by rw [hread, hreads, List.map_cons]⟩
    · cases ds with
      | nil => cases h
      | cons d ds =>
        obtain ⟨hd, hds⟩ := List.forall_mem_cons.mp hds
        rw [List.map_cons, List.cons.injEq] at h
        rw [(hvalue d).mpr ⟨hd, h.1⟩, (ih hrest).mpr ⟨hds, h.2⟩]
        rfl

/-- A byte in front of `n` bits: it is the first byte of the whole bytes, and leaves the bits
that do not make up a byte. -/
theorem numeral_byte {n rest : Nat} (hrest : rest < 2 ^ n) (byte : Nat) :
    numeral 256 (n / 8 + 1) ((byte * 2 ^ n + rest) / 2 ^ (n % 8)) =
      byte % 256 :: numeral 256 (n / 8) (rest / 2 ^ (n % 8)) ∧
    (byte * 2 ^ n + rest) % 2 ^ (n % 8) = rest % 2 ^ (n % 8) := by
  have hpow : 2 ^ n = 2 ^ (n % 8) * 256 ^ (n / 8) := by
    rw [show (256 : Nat) = 2 ^ 8 from rfl, ← pow_mul, ← pow_add, Nat.mod_add_div]
  have hsplit : byte * 2 ^ n + rest = 2 ^ (n % 8) * (byte * 256 ^ (n / 8)) + rest := by
    rw [hpow]
    ring
  have hlt : rest / 2 ^ (n % 8) < 256 ^ (n / 8) := Nat.div_lt_of_lt_mul (by rwa [← hpow])
  rw [hsplit, Nat.mul_add_div (Nat.two_pow_pos _), numeral_cons hlt _ (by decide), Nat.mul_add_mod]
  exact ⟨rfl, rfl⟩

/-- The bits above `bits` are the front of the number. -/
theorem value_split (ds : List Nat) (hds : ∀ d ∈ ds, d < 32) (buffer bits : Nat) :
    value 32 buffer ds = buffer / 2 ^ bits * 2 ^ (bits + 5 * ds.length) +
      value 32 (buffer % 2 ^ bits) ds ∧
    value 32 (buffer % 2 ^ bits) ds < 2 ^ (bits + 5 * ds.length) := by
  have hpow : 2 ^ (bits + 5 * ds.length) = 2 ^ bits * 32 ^ ds.length := by
    rw [pow_add, pow_mul, show 2 ^ 5 = 32 from rfl]
  refine ⟨?_, lt_of_lt_of_le (value_lt hds _) ?_⟩
  · rw [value_eq_add, value_eq_add 32 (buffer % _), hpow]
    nth_rewrite 1 [← Nat.div_add_mod buffer (2 ^ bits)]
    ring
  · rw [hpow]
    exact Nat.mul_le_mul_right _ (Nat.mod_lt _ (Nat.two_pow_pos _))

/-- **What `base32_decode` returns**: the bytes of the number that the digits spell, when
there are as many bytes as asked for and only zero bits are left over. -/
theorem base32DecodeLoop_eq (outputLen : Nat) (ds : List Nat) (hds : ∀ d ∈ ds, d < 32) :
    ∀ (chars : Bytes) (buffer bits : Nat) (out : Bytes), chars.mapM crockfordValue = some ds →
      buffer < 2 ^ bits → bits < 8 →
      base32DecodeLoop outputLen chars buffer bits out =
        if out.length + (bits + 5 * ds.length) / 8 = outputLen ∧
            value 32 buffer ds % 2 ^ ((bits + 5 * ds.length) % 8) = 0 then
          some (out ++ (numeral 256 ((bits + 5 * ds.length) / 8)
            (value 32 buffer ds / 2 ^ ((bits + 5 * ds.length) % 8))).map UInt8.ofNat)
        else none := by
  induction ds with
  | nil =>
    intro chars buffer bits out hmap hbuffer hbits
    have hnil : chars = [] := by
      cases chars with
      | nil => rfl
      | cons c rest =>
        rw [List.mapM_cons] at hmap
        obtain ⟨v, -, h⟩ := Option.bind_eq_some_iff.mp hmap
        obtain ⟨vs, -, h⟩ := Option.bind_eq_some_iff.mp h
        cases h
    have hdiv : bits / 8 = 0 := Nat.div_eq_of_lt hbits
    have hmod : bits % 8 = bits := Nat.mod_eq_of_lt hbits
    rw [hnil, base32DecodeLoop]
    simp only [List.length_nil, Nat.mul_zero, Nat.add_zero, value_nil, hdiv, hmod, numeral,
      List.map_nil, List.append_nil, Nat.mod_eq_of_lt hbuffer]
    have hzero : (bits = 0 ∨ buffer = 0) ↔ buffer = 0 := by
      refine ⟨fun h => h.elim (fun hb => ?_) id, .inr⟩
      rw [hb, pow_zero] at hbuffer
      omega
    simp only [hzero]
  | cons v vs ih =>
    intro chars buffer bits out hmap hbuffer hbits
    obtain ⟨hv, hvs⟩ := List.forall_mem_cons.mp hds
    cases chars with
    | nil => cases hmap
    | cons c rest =>
      rw [List.mapM_cons] at hmap
      obtain ⟨v', hvalue, hmap⟩ := Option.bind_eq_some_iff.mp hmap
      obtain ⟨vs', hrest, hmap⟩ := Option.bind_eq_some_iff.mp hmap
      cases hmap
      have hload : buffer <<< 5 ||| v = buffer * 32 + v := shiftLeft_or hv
      have hbuffer' : buffer * 32 + v < 2 ^ (bits + 5) := by
        rw [pow_add]
        omega
      rw [base32DecodeLoop, hvalue]
      dsimp only
      rw [hload, value_cons, List.length_cons]
      by_cases hbyte : bits + 5 ≥ 8
      · obtain ⟨bits', rfl⟩ : ∃ bits', bits = bits' + 3 := ⟨bits - 3, by omega⟩
        have hsub : bits' + 3 + 5 - 8 = bits' := by omega
        have hsum : bits' + 3 + 5 * (vs.length + 1) = bits' + 5 * vs.length + 8 := by omega
        rw [if_pos hbyte, hsub, hsum, Nat.add_div_right _ (by decide), Nat.add_mod_right]
        by_cases hfull : out.length ≥ outputLen
        · rw [if_pos hfull, if_neg fun h => by omega]
        · obtain ⟨hsplit, hlt⟩ := value_split vs hvs (buffer * 32 + v) bits'
          obtain ⟨hnumeral, hmod⟩ := numeral_byte hlt ((buffer * 32 + v) / 2 ^ bits')
          rw [if_neg hfull, lowBits_eq, ih hvs rest _ _ _ hrest (Nat.mod_lt _ (Nat.two_pow_pos _))
            (by omega), hsplit, Nat.shiftRight_eq_div_pow, hmod, hnumeral, List.map_cons,
            List.length_append, List.length_singleton, Nat.add_assoc, Nat.add_comm 1,
            List.append_assoc, List.singleton_append, UInt8.ofNat_mod_size]
      · rw [if_neg hbyte, ih hvs rest _ _ _ hrest hbuffer' (by omega), Nat.mul_add, Nat.mul_one,
          Nat.add_assoc, Nat.add_comm 5]

theorem mapM_isSome_of_decode (outputLen : Nat) : ∀ {chars : Bytes} {buffer bits : Nat}
    {out out' : Bytes}, base32DecodeLoop outputLen chars buffer bits out = some out' →
    ∃ ds, chars.mapM crockfordValue = some ds := by
  intro chars
  induction chars with
  | nil => exact fun _ => ⟨[], rfl⟩
  | cons c rest ih =>
    intro buffer bits out out' h
    rw [base32DecodeLoop] at h
    rcases hvalue : crockfordValue c with _ | v
    · rw [hvalue] at h
      cases h
    · rw [hvalue] at h
      dsimp only at h
      have hrest : ∃ ds, rest.mapM crockfordValue = some ds := by
        split_ifs at h
        · exact ih h
        · exact ih h
      obtain ⟨ds, hds⟩ := hrest
      exact ⟨v :: ds, by rw [List.mapM_cons, hvalue, hds]; rfl⟩

/-- The characters for 37 bytes are the sixty digits of the number the bytes spell, followed
by four zero bits. -/
theorem base32Encode_eq (hlen : input.length = 37) :
    base32Encode input 80 =
      (numeral 32 60 (value 256 0 (input.map UInt8.toNat) * 16)).map crockfordDigit := by
  have hdigits : base32Digits (8 * input.length + 0) = 60 := by rw [hlen]; rfl
  have hnumber : base32Number input 0 0 = value 256 0 (input.map UInt8.toNat) * 16 := by
    rw [base32Number, hdigits, hlen, show 2 ^ (5 * 60 - (8 * 37 + 0)) = 16 from rfl]
  rw [base32Encode, base32EncodeLoop_eq 80 input 0 0 [] Nat.one_pos (by rw [hdigits]; decide),
    hdigits, hnumber, List.nil_append, Option.getD_some]

theorem value_bytes_lt (hlen : input.length = 37) :
    value 256 0 (input.map UInt8.toNat) * 16 < 32 ^ 60 := by
  have h := value_lt (map_toNat_lt input) 0
  rw [List.length_map, hlen] at h
  calc value 256 0 (input.map UInt8.toNat) * 16 < (0 + 1) * 256 ^ 37 * 16 :=
        Nat.mul_lt_mul_of_pos_right h (by decide)
    _ = 32 ^ 60 := by norm_num

theorem map_toNat_ofNat {ds : List Nat} (h : ∀ d ∈ ds, d < 256) :
    (ds.map UInt8.ofNat).map UInt8.toNat = ds := by
  rw [List.map_map]
  refine (List.map_congr_left fun d hd => ?_).trans (List.map_id ds)
  rw [Function.comp_apply, UInt8.toNat_ofNat']
  exact Nat.mod_eq_of_lt (h d hd)

theorem map_ofNat_toNat (bytes : Bytes) : (bytes.map UInt8.toNat).map UInt8.ofNat = bytes := by
  rw [List.map_map]
  refine (List.map_congr_left fun b _ => ?_).trans (List.map_id bytes)
  exact UInt8.ofNat_toNat

/-- **Base32 text is accepted exactly when it reads as the encoding of the bytes.** -/
theorem base32Decode_iff {chars : Bytes} (hzero : 0 ∉ chars) {bytes : Bytes} :
    base32Decode chars 37 = some bytes ↔
      bytes.length = 37 ∧ chars.map readAs = base32Encode bytes 80 := by
  have hbase : ∀ n : Nat, ∀ d ∈ numeral 256 37 n, d < 256 :=
    fun n d hd => lt_of_mem_numeral (by decide) hd
  have hloop : ∀ ds, (∀ d ∈ ds, d < 32) → chars.mapM crockfordValue = some ds →
      base32Decode chars 37 = if 5 * ds.length / 8 = 37 ∧
          value 32 0 ds % 2 ^ (5 * ds.length % 8) = 0 then
        some ((numeral 256 (5 * ds.length / 8) (value 32 0 ds / 2 ^ (5 * ds.length % 8))).map
          UInt8.ofNat) else none := by
    intro ds hlt hds
    rw [base32Decode, base32DecodeLoop_eq 37 ds hlt chars 0 0 [] hds Nat.one_pos (by decide),
      List.length_nil, Nat.zero_add, Nat.zero_add, List.nil_append]
  refine ⟨fun h => ?_, fun ⟨hlen, h⟩ => ?_⟩
  · obtain ⟨ds, hds⟩ := mapM_isSome_of_decode 37 h
    obtain ⟨hlt, hread⟩ := (mapM_crockfordValue hzero).mp hds
    rw [hloop ds hlt hds] at h
    split_ifs at h with hcond
    obtain ⟨hcount, hleft⟩ := hcond
    -- 37 bytes are sixty digits, with four bits left
    have hsixty : ds.length = 60 := by omega
    have hfour : 5 * ds.length % 8 = 4 := by omega
    rw [hcount, hfour] at h
    rw [hfour] at hleft
    have hbytes := Option.some.inj h
    have hlen : bytes.length = 37 := by rw [← hbytes, List.length_map, length_numeral]
    have hbound : value 32 0 ds / 2 ^ 4 < 256 ^ 37 := by
      have hvalue := value_lt hlt 0
      rw [hsixty] at hvalue
      refine Nat.div_lt_of_lt_mul (lt_of_lt_of_le hvalue ?_)
      norm_num
    have hnumber : value 256 0 (bytes.map UInt8.toNat) * 16 = value 32 0 ds := by
      rw [← hbytes, map_toNat_ofNat (hbase _), value_numeral hbound]
      exact Nat.div_mul_cancel (Nat.dvd_of_mod_eq_zero hleft)
    refine ⟨hlen, ?_⟩
    rw [base32Encode_eq hlen, hnumber, ← hsixty, numeral_value ds hlt, hread]
  · rw [base32Encode_eq hlen] at h
    have hlt : ∀ d ∈ numeral 32 60 (value 256 0 (bytes.map UInt8.toNat) * 16), d < 32 :=
      fun d hd => lt_of_mem_numeral (by decide) hd
    rw [hloop _ hlt ((mapM_crockfordValue hzero).mpr ⟨hlt, h⟩), length_numeral,
      value_numeral (value_bytes_lt hlen), if_pos ⟨rfl, Nat.mul_mod_left _ _⟩,
      show 5 * 60 % 8 = 4 from rfl, show 5 * 60 / 8 = 37 from rfl, show 2 ^ 4 = 16 from rfl,
      Nat.mul_div_cancel _ (by decide)]
    have hback := numeral_value (bytes.map UInt8.toNat) (map_toNat_lt bytes)
    rw [List.length_map, hlen] at hback
    rw [hback, map_ofNat_toNat]

/-! ## Which texts are accepted -/

/-- The characters of a text without hyphens and white space. -/
def keptCharacters (text : Bytes) : Bytes := text.filter fun c => c ≠ 45 ∧ isSpace c = false

/-- The text is a way to write down `raw`: after white space it begins with `PV1R` in any
case, and what follows reads as `raw`. -/
def Spells (text raw : Bytes) : Prop :=
  ∃ tag rest, text.dropWhile isSpace = tag ++ rest ∧ tag.map toUpper = recoveryTag ∧
    (keptCharacters rest).map readAs = raw

/-- The Base32 characters for a key of a vault. -/
def recoveryCharacters (env : RecoveryEnv) (vaultId : Block pvVaultIdBytes)
    (key : Block pvRecoveryKeyBytes) : Bytes :=
  base32Encode (key.bytes ++ (env.checksum vaultId key).bytes) 80

/-- All requests for secret memory are granted. -/
structure RecoveryEnv.Granted (env : RecoveryEnv) : Prop where
  workspace_eq : env.workspace = true
  material_eq : env.material = true
  text_eq : env.text = true

theorem normalizeLoop_eq (cs normalized : Bytes) (h : normalized.length ≤ 79) :
    normalizeLoop cs normalized =
      if (normalized ++ (keptCharacters cs).map toUpper).length ≤ 79 then
        some (normalized ++ (keptCharacters cs).map toUpper)
      else none := by
  induction cs generalizing normalized with
  | nil => simp [normalizeLoop, keptCharacters, h]
  | cons c rest ih =>
    rw [normalizeLoop]
    by_cases hkept : c ≠ 45 ∧ isSpace c = false
    · have hcons : keptCharacters (c :: rest) = c :: keptCharacters rest :=
        List.filter_cons_of_pos (by simpa using hkept)
      rw [if_pos hkept, hcons, List.map_cons]
      split_ifs with hlong hfit hfit
      · simp only [List.length_append, List.length_cons] at hfit
        omega
      · rfl
      · rw [ih _ (by rw [List.length_append, List.length_singleton]; omega), List.append_assoc,
          List.singleton_append, if_pos hfit]
      · rw [ih _ (by rw [List.length_append, List.length_singleton]; omega), List.append_assoc,
          List.singleton_append, if_neg hfit]
    · have hcons : keptCharacters (c :: rest) = keptCharacters rest :=
        List.filter_cons_of_neg (by simpa using hkept)
      rw [if_neg hkept, hcons, ih _ h]

theorem readAs_toUpper (c : UInt8) : readAs (toUpper c) = readAs c := by
  have hall : ∀ n < 256, readAs (toUpper (UInt8.ofNat n)) = readAs (UInt8.ofNat n) := by
    decide +kernel
  have hc := hall c.toNat c.toNat_lt
  rwa [UInt8.ofNat_toNat] at hc

theorem toUpper_ne_zero (h : c ≠ 0) : toUpper c ≠ 0 := by
  have hall : ∀ n < 256, UInt8.ofNat n ≠ 0 → toUpper (UInt8.ofNat n) ≠ 0 := by decide +kernel
  have hc := hall c.toNat c.toNat_lt
  rw [UInt8.ofNat_toNat] at hc
  exact hc h

theorem length_recoveryCharacters (env : RecoveryEnv) (vaultId : Block pvVaultIdBytes)
    (key : Block pvRecoveryKeyBytes) : (recoveryCharacters env vaultId key).length = 60 := by
  rw [recoveryCharacters, base32Encode_eq (by simp; rfl), List.length_map, length_numeral]

/-- The material is accepted when it is a key and its checksum; else the key is zero. -/
theorem checkMaterial_iff (hgranted : env.Granted) (vaultId : Block pvVaultIdBytes)
    {material : Bytes} (hlen : material.length = 37) :
    (∀ key, checkMaterial env vaultId material = (.ok, key) ↔
      material = key.bytes ++ (env.checksum vaultId key).bytes) ∧
    (checkMaterial env vaultId material = (.errAuth, Block.zero _) ∨
      ∃ key, checkMaterial env vaultId material = (.ok, key)) := by
  have htake : (Block.ofBytes pvRecoveryKeyBytes material).bytes = material.take 32 := by
    rw [Block.ofBytes]
    simp [hlen, pvRecoveryKeyBytes]
  have hslice : slice material pvRecoveryKeyBytes pvRecoveryChecksumBytes = material.drop 32 :=
    List.take_of_length_le (by rw [List.length_drop, hlen]; decide)
  have hkey : ∀ key : Block pvRecoveryKeyBytes,
      material = key.bytes ++ (env.checksum vaultId key).bytes →
      Block.ofBytes pvRecoveryKeyBytes material = key := by
    intro key h
    ext1
    rw [htake, h]
    exact List.take_left' key.length_eq
  rw [checkMaterial, recoveryChecksum, hgranted.workspace_eq, if_neg (by decide)]
  dsimp only
  rw [hslice]
  split_ifs with hbad
  · refine ⟨fun key => iff_of_false (fun h => by cases h) fun h => hbad ?_, .inl rfl⟩
    rw [hkey key h, h]
    exact (List.drop_left' key.length_eq).symm
  · rw [not_not] at hbad
    refine ⟨fun key => ⟨fun h => ?_, fun h => by rw [hkey key h]⟩, .inr ⟨_, rfl⟩⟩
    obtain ⟨-, rfl⟩ := Prod.mk.inj h
    rw [hbad, htake, List.take_append_drop]

theorem spells_iff_take (text raw : Bytes) : Spells text raw ↔
    ((text.dropWhile isSpace).take 4).map toUpper = recoveryTag ∧
      (keptCharacters ((text.dropWhile isSpace).drop 4)).map readAs = raw := by
  refine ⟨fun ⟨tag, rest, hsplit, htag, hraw⟩ => ?_, fun ⟨htag, hraw⟩ =>
    ⟨_, _, (List.take_append_drop 4 _).symm, htag, hraw⟩⟩
  have hlen : tag.length = 4 := by
    have h := congrArg List.length htag
    rwa [List.length_map] at h
  rw [hsplit, List.take_left' hlen, List.drop_left' hlen]
  exact ⟨htag, hraw⟩

/-- **Which texts give which key**: the ways to write down its characters. Every other text is
refused, and the key is zeroed. -/
theorem pvRecoveryDecode_eq (hgranted : env.Granted) {text : Bytes} (hzero : 0 ∉ text)
    (vaultId : Block pvVaultIdBytes) :
    (∀ key, pvRecoveryDecode env text vaultId = (.ok, key) ↔
      Spells text (recoveryCharacters env vaultId key)) ∧
    (pvRecoveryDecode env text vaultId = (.errAuth, Block.zero _) ∨
      ∃ key, pvRecoveryDecode env text vaultId = (.ok, key)) := by
  have hrefused : ∀ {p : Prop} {key : Block pvRecoveryKeyBytes}, ¬p →
      (((PvStatus.errAuth, Block.zero pvRecoveryKeyBytes) = (.ok, key)) ↔ p) :=
    fun hp => iff_of_false (fun h => by cases h) hp
  rw [pvRecoveryDecode]
  split_ifs with htag hmem
  · refine ⟨fun key => hrefused fun h => ?_, .inl rfl⟩
    exact htag ((spells_iff_take _ _).mp h).1
  · rw [hgranted.text_eq, hgranted.material_eq] at hmem
    simp at hmem
  rw [not_not] at htag
  -- the rest of the text, normalised
  have hread : ((keptCharacters ((text.dropWhile isSpace).drop 4)).map toUpper).map readAs =
      (keptCharacters ((text.dropWhile isSpace).drop 4)).map readAs := by
    rw [List.map_map]
    exact List.map_congr_left fun c _ => readAs_toUpper c
  have hkept : 0 ∉ (keptCharacters ((text.dropWhile isSpace).drop 4)).map toUpper := by
    intro hmem
    obtain ⟨c, hc, hup⟩ := List.mem_map.mp hmem
    refine toUpper_ne_zero (fun h => hzero ?_) hup
    rw [← h]
    exact (List.dropWhile_sublist _).subset (List.mem_of_mem_drop (List.mem_of_mem_filter hc))
  have hspells : ∀ key, Spells text (recoveryCharacters env vaultId key) ↔
      ((keptCharacters ((text.dropWhile isSpace).drop 4)).map toUpper).map readAs =
        recoveryCharacters env vaultId key := by
    intro key
    rw [spells_iff_take, hread]
    exact and_iff_right htag
  rw [normalizeLoop_eq _ _ (Nat.zero_le _), List.nil_append]
  by_cases hlong : ((keptCharacters ((text.dropWhile isSpace).drop 4)).map toUpper).length ≤ 79
  · rw [if_pos hlong]
    dsimp only
    rcases hdecode : base32Decode ((keptCharacters ((text.dropWhile isSpace).drop 4)).map toUpper)
      (pvRecoveryKeyBytes + pvRecoveryChecksumBytes) with _ | material
    · refine ⟨fun key => hrefused fun h => ?_, .inl rfl⟩
      have hlen : (key.bytes ++ (env.checksum vaultId key).bytes).length = 37 := by simp; rfl
      have hsome := (base32Decode_iff hkept).mpr ⟨hlen, (hspells key).mp h⟩
      rw [show pvRecoveryKeyBytes + pvRecoveryChecksumBytes = 37 from rfl, hsome] at hdecode
      cases hdecode
    · obtain ⟨hlen, hchars⟩ := (base32Decode_iff hkept).mp hdecode
      obtain ⟨hiff, htotal⟩ := checkMaterial_iff hgranted vaultId hlen
      refine ⟨fun key => (hiff key).trans ?_, htotal⟩
      rw [hspells, hchars, recoveryCharacters]
      refine ⟨fun h => by rw [h], fun h => ?_⟩
      -- the encoding determines the bytes
      have hlen' : (key.bytes ++ (env.checksum vaultId key).bytes).length = 37 := by simp; rfl
      have hsame := (base32Decode_iff hkept).mpr ⟨hlen', hchars.trans h⟩
      exact Option.some.inj (hdecode.symm.trans hsame)
  · rw [if_neg hlong]
    refine ⟨fun key => hrefused fun h => hlong ?_, .inl rfl⟩
    have hcount := congrArg List.length ((hspells key).mp h)
    rw [List.length_map, length_recoveryCharacters] at hcount
    omega

/-! ## The text that is written -/

theorem crockfordDigit_kept : ∀ v < 32, crockfordDigit v ≠ 45 ∧ isSpace (crockfordDigit v) = false ∧
    readAs (crockfordDigit v) = crockfordDigit v ∧ crockfordDigit v ≠ 0 := by decide +kernel

/-- The characters for a key are digits: they are kept, read as themselves and not zero. -/
theorem recoveryCharacters_kept {vaultId : Block pvVaultIdBytes} {key : Block pvRecoveryKeyBytes}
    (h : c ∈ recoveryCharacters env vaultId key) :
    c ≠ 45 ∧ isSpace c = false ∧ readAs c = c ∧ c ≠ 0 := by
  rw [recoveryCharacters, base32Encode_eq (by simp; rfl)] at h
  obtain ⟨v, hv, rfl⟩ := List.mem_map.mp h
  exact crockfordDigit_kept v (lt_of_mem_numeral (by decide) hv)

theorem keptCharacters_append (a b : Bytes) :
    keptCharacters (a ++ b) = keptCharacters a ++ keptCharacters b :=
  List.filter_append ..

theorem keptCharacters_groupLoop (i : Nat) (raw : Bytes) :
    keptCharacters (groupLoop i raw) = keptCharacters raw := by
  induction raw generalizing i with
  | nil => rfl
  | cons c rest ih =>
    rw [groupLoop, keptCharacters_append, ih, show c :: rest = [c] ++ rest from rfl,
      keptCharacters_append]
    split_ifs
    · rfl
    · rfl

theorem mem_groupLoop {i : Nat} {raw : Bytes} (h : c ∈ groupLoop i raw) :
    c = 45 ∨ c ∈ raw := by
  induction raw generalizing i with
  | nil => cases h
  | cons d rest ih =>
    rw [groupLoop, List.mem_append] at h
    rcases h with h | h
    · split_ifs at h <;> simp at h <;> simp [h]
      tauto
    · exact (ih h).imp_right (List.mem_cons_of_mem _)

theorem length_groupLoop_le (i : Nat) (raw : Bytes) :
    (groupLoop i raw).length ≤ 2 * raw.length := by
  induction raw generalizing i with
  | nil => exact Nat.le_refl _
  | cons c rest ih =>
    have := ih (i + 1)
    rw [groupLoop, List.length_append, List.length_cons]
    split_ifs <;> simp only [List.length_cons, List.length_nil] <;> omega

/-- What `pv_recovery_encode` writes into a buffer of more than 77 bytes. -/
theorem pvRecoveryEncode_eq (hgranted : env.Granted) (vaultId : Block pvVaultIdBytes)
    (key : Block pvRecoveryKeyBytes) {encodedLen : Nat} (hlen : 77 < encodedLen) :
    pvRecoveryEncode env vaultId key encodedLen =
      (.ok, recoveryTag ++ [45] ++ groupLoop 0 (recoveryCharacters env vaultId key)) := by
  have hsixty := length_recoveryCharacters env vaultId key
  rw [recoveryCharacters] at hsixty
  rw [pvRecoveryEncode, if_neg (by omega), hgranted.material_eq, hgranted.text_eq,
    if_neg (by decide), recoveryChecksum, hgranted.workspace_eq, if_neg (by decide)]
  dsimp only
  rw [hsixty, if_neg (by decide), if_neg (by omega), recoveryCharacters]

/-- The hyphens go, the digits stay. -/
theorem keptCharacters_written {vaultId : Block pvVaultIdBytes} {key : Block pvRecoveryKeyBytes} :
    keptCharacters ([45] ++ groupLoop 0 (recoveryCharacters env vaultId key)) =
      recoveryCharacters env vaultId key := by
  rw [keptCharacters_append, keptCharacters_groupLoop, show keptCharacters [45] = [] from rfl,
    List.nil_append, keptCharacters, List.filter_eq_self]
  intro c hc
  have h := recoveryCharacters_kept hc
  simp [h.1, h.2.1]

/-- The text written for a key gives the key. -/
theorem pvRecoveryDecode_written (hgranted : env.Granted) (vaultId : Block pvVaultIdBytes)
    (key : Block pvRecoveryKeyBytes) :
    pvRecoveryDecode env
      (recoveryTag ++ ([45] ++ groupLoop 0 (recoveryCharacters env vaultId key))) vaultId =
      (.ok, key) := by
  have hzero : 0 ∉ recoveryTag ++ ([45] ++ groupLoop 0 (recoveryCharacters env vaultId key)) := by
    intro hmem
    rcases List.mem_append.mp hmem with hmem | hmem
    · exact absurd hmem (by decide)
    rcases List.mem_append.mp hmem with hmem | hmem
    · exact absurd hmem (by decide)
    · rcases mem_groupLoop hmem with h | h
      · cases h
      · exact (recoveryCharacters_kept h).2.2.2 rfl
  refine ((pvRecoveryDecode_eq hgranted hzero vaultId).1 key).mpr ⟨recoveryTag, _, rfl, by decide, ?_⟩
  rw [keptCharacters_written]
  exact (List.map_congr_left fun c hc => (recoveryCharacters_kept hc).2.2.1).trans (List.map_id _)

/-- **Recovery texts.** For every vault id and every text of a C string, with memory granted:
the text is accepted and gives a key exactly when it is a way to write down the sixty
characters that `pv_recovery_encode` emits for the key; every other text is refused with
`PV_ERR_AUTH` and a zero key; and the text written for a key gives the key. -/
theorem pvRecoveryDecode_iff {env : RecoveryEnv} (hgranted : env.Granted)
    (vaultId : Block pvVaultIdBytes) {text : Bytes} (hzero : 0 ∉ text) :
    (∀ key, pvRecoveryDecode env text vaultId = (.ok, key) ↔
      Spells text (recoveryCharacters env vaultId key)) ∧
    ((∀ key, ¬Spells text (recoveryCharacters env vaultId key)) →
      pvRecoveryDecode env text vaultId = (.errAuth, Block.zero _)) ∧
    (∀ key encodedLen, 77 < encodedLen →
      (recoveryCharacters env vaultId key).length = 60 ∧
      ∃ written, pvRecoveryEncode env vaultId key encodedLen =
          (.ok, recoveryTag ++ written) ∧
        keptCharacters written = recoveryCharacters env vaultId key ∧
        pvRecoveryDecode env (recoveryTag ++ written) vaultId = (.ok, key)) := by
  obtain ⟨hiff, htotal⟩ := pvRecoveryDecode_eq hgranted hzero vaultId
  refine ⟨hiff, fun hnone => ?_, fun key encodedLen hlen => ?_⟩
  · rcases htotal with hauth | ⟨key, hok⟩
    · exact hauth
    · exact absurd ((hiff key).mp hok) (hnone key)
  · refine ⟨length_recoveryCharacters env vaultId key, _, ?_, keptCharacters_written,
      pvRecoveryDecode_written hgranted vaultId key⟩
    rw [pvRecoveryEncode_eq hgranted vaultId key hlen, List.append_assoc]

/-- An environment that grants its memory, with a checksum of zeroes. -/
def zeroChecksumEnv : RecoveryEnv := ⟨fun _ _ => Block.zero _, true, true, true⟩

/-- The theorem at a text that is cut off after its first letter. -/
theorem pvRecoveryDecode_iff_cut :
    pvRecoveryDecode zeroChecksumEnv [80] (Block.zero _) = (.errAuth, Block.zero _) ∧
    ∃ written, pvRecoveryEncode zeroChecksumEnv (Block.zero _) (Block.zero _) 128 =
        (.ok, recoveryTag ++ written) ∧
      pvRecoveryDecode zeroChecksumEnv (recoveryTag ++ written) (Block.zero _) =
        (.ok, Block.zero _) := by
  have hgranted : zeroChecksumEnv.Granted := ⟨rfl, rfl, rfl⟩
  have hzero : 0 ∉ ([80] : Bytes) := by decide
  obtain ⟨-, hrefused, hwritten⟩ := pvRecoveryDecode_iff hgranted (Block.zero _) hzero
  refine ⟨hrefused fun key h => ?_, ?_⟩
  · exact absurd ((spells_iff_take _ _).mp h).1 (by decide)
  · obtain ⟨-, written, hencode, -, hdecode⟩ := hwritten (Block.zero _) 128 (by decide)
    exact ⟨written, hencode, hdecode⟩

end PVault
