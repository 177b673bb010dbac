import PVault.Lib.Bytes
import PVault.Lib.Digits
import PVault.Status

/-!
# Names of snapshots, backups, locks and temporary files (`src/store.c`)

An automatic backup is called `auto-v1-<vault id>-g<generation>.pvlt`, with the vault id
in lower-case hexadecimal and the generation in twenty decimal digits.

The results: `parseAutomaticBackupName_format`, a formatted name parses back to what it
was formatted from, and `format_of_parse`, no other name parses. So the name determines
the vault id and the generation, and they determine the name (`automatic_backup_names_are_a_code`).
-/

namespace PVault

open Binary

variable {c : UInt8} {vaultId : Block pvVaultIdBytes} {generation : Nat} {name : Bytes}

/-! ## Digits -/

/-- A digit of the alphabet `0123456789abcdef`. -/
def hexDigit (n : Nat) : UInt8 := UInt8.ofNat (if n < 10 then 48 + n else 87 + n)

/-- `pv_hex_encode`. -/
def pvHexEncode (input : Bytes) : Bytes :=
  input.flatMap fun b => [hexDigit (b.toNat / 16), hexDigit (b.toNat % 16)]

/-- `pv_hex_encode` into a buffer of `outputLen` bytes, as the text in it: none if it does not fit. -/
def hexText (input : Bytes) (outputLen : Nat) : Bytes :=
  if input.length > (outputLen - 1) / 2 then [] else pvHexEncode input

/-- `%08x`. -/
def hex8 (n : UInt32) : Bytes := (Digits.numeral 16 8 n.toNat).map hexDigit

/-- `%0<width>llu`, for numbers of at most `width` digits. -/
def decimal (width n : Nat) : Bytes := (Digits.numeral 10 width n).map hexDigit

/-- `%020lld`. -/
def signedDecimal (n : Int) : Bytes :=
  if n < 0 then 45 :: decimal 19 n.natAbs else decimal 20 n.natAbs

/-- `lowercase_hex_value`, with `none` for -1. -/
def lowercaseHexValue (value : UInt8) : Option Nat :=
  if 48 ≤ value ∧ value ≤ 57 then some (value.toNat - 48)
  else if 97 ≤ value ∧ value ≤ 102 then some (value.toNat - 97 + 10)
  else none

/-! ## Names -/

/-- `.tmp.`, between the name of a file and the random suffix of its temporary. -/
def temporaryMarker : Bytes := [0x2e, 0x74, 0x6d, 0x70, 0x2e]

/-- `<name>.tmp.<suffix>`. -/
def temporaryName (name : Bytes) (suffix : UInt32) : Bytes := name ++ temporaryMarker ++ hex8 suffix

/-- `<name>.lock`. -/
def lockName (name : Bytes) : Bytes := name ++ [0x2e, 0x6c, 0x6f, 0x63, 0x6b]

/-- `backups`. -/
def backupsName : Bytes := [0x62, 0x61, 0x63, 0x6b, 0x75, 0x70, 0x73]

/-- `.pvlt`. -/
def snapshotExtension : Bytes := [0x2e, 0x70, 0x76, 0x6c, 0x74]

/-- `pre-restore-`. -/
def preRestoreStart : Bytes :=
  [0x70, 0x72, 0x65, 0x2d, 0x72, 0x65, 0x73, 0x74, 0x6f, 0x72, 0x65, 0x2d]

/-- `pre-restore-<milliseconds>-<suffix>.pvlt`. -/
def preRestoreName (nowMs : Int) (suffix : UInt32) : Bytes :=
  preRestoreStart ++ signedDecimal nowMs ++ [0x2d] ++ hex8 suffix ++ snapshotExtension

/-- `PV_AUTO_BACKUP_PREFIX`: `auto-v1-`. -/
def autoBackupStart : Bytes := [0x61, 0x75, 0x74, 0x6f, 0x2d, 0x76, 0x31, 0x2d]

/-- `-g`, between the vault id and the generation. -/
def generationMarker : Bytes := [0x2d, 0x67]

/-- The name of the automatic backup of a generation. -/
def autoBackupName (vaultId : Block pvVaultIdBytes) (generation : Nat) : Bytes :=
  autoBackupStart ++ pvHexEncode vaultId.bytes ++ generationMarker ++ decimal 20 generation ++
    snapshotExtension

/-- `format_automatic_backup_name`. -/
def formatAutomaticBackupName (vaultId : Block pvVaultIdBytes) (generation : UInt64) :
    Except PvStatus Bytes :=
  if generation = 0 then
    .error .errUsage
  else
    let vaultHex := hexText vaultId.bytes (pvVaultIdBytes * 2 + 1)
    if vaultHex = [] then
      .error .errState
    else
      let output := autoBackupStart ++ vaultHex ++ generationMarker ++ decimal 20 generation.toNat ++
        snapshotExtension
      if output.length = 67 then .ok output else .error .errLimit

/-- The first loop of `parse_automatic_backup_name`: two hexadecimal digits a byte. -/
def parseHexBytes : Bytes → Option Bytes
  | [] => some []
  | [_] => none
  | h :: l :: rest =>
    match lowercaseHexValue h, lowercaseHexValue l with
    | some high, some low => (parseHexBytes rest).map (UInt8.ofNat (high * 16 + low) :: ·)
    | _, _ => none

/-- The second loop of `parse_automatic_backup_name`, which gives up before the number
passes `UINT64_MAX`. -/
def parseGeneration (parsed : Nat) : Bytes → Option Nat
  | [] => some parsed
  | c :: rest =>
    if c < 48 ∨ c > 57 then none
    else if parsed > (sizeMax - (c.toNat - 48)) / 10 then none
    else parseGeneration (parsed * 10 + (c.toNat - 48)) rest

/-- The same loop in 64-bit arithmetic, which wraps. -/
def parseGenerationWord (parsed : UInt64) : Bytes → Option UInt64
  | [] => some parsed
  | c :: rest =>
    if c < 48 ∨ c > 57 then none
    else if parsed > (0xffffffffffffffff - (c - 48).toUInt64) / 10 then none
    else parseGenerationWord (parsed * 10 + (c - 48).toUInt64) rest

/-- `parse_automatic_backup_name`. -/
def parseAutomaticBackupName (name : Bytes) : Option (Block pvVaultIdBytes × Nat) :=
  if name.length ≠ 67 ∨ slice name 0 8 ≠ autoBackupStart ∨ slice name 40 2 ≠ generationMarker ∨
      slice name 62 5 ≠ snapshotExtension then
    none
  else
    match parseHexBytes (slice name 8 32), parseGeneration 0 (slice name 42 20) with
    | some id, some generation =>
      if generation = 0 then none else some (Block.ofBytes _ id, generation)
    | _, _ => none

/-! ## Digits read back -/

theorem lowercaseHexValue_hexDigit : ∀ n < 16, lowercaseHexValue (hexDigit n) = some n := by decide

theorem hexDigit_of_value {v : Nat} (h : lowercaseHexValue c = some v) :
    v < 16 ∧ hexDigit v = c := by
  have hall : ∀ n < 256, (lowercaseHexValue (UInt8.ofNat n)).all
      (fun v => decide (v < 16 ∧ hexDigit v = UInt8.ofNat n)) = true := by decide +kernel
  have hc := hall c.toNat c.toNat_lt
  rw [UInt8.ofNat_toNat, h] at hc
  exact of_decide_eq_true hc

theorem parseHexBytes_pvHexEncode (bs : Bytes) : parseHexBytes (pvHexEncode bs) = some bs := by
  induction bs with
  | nil => rfl
  | cons b bs ih =>
    have hlt := b.toNat_lt
    have hback : UInt8.ofNat (b.toNat / 16 * 16 + b.toNat % 16) = b := by
      rw [Nat.mul_comm, Nat.div_add_mod, UInt8.ofNat_toNat]
    rw [show pvHexEncode (b :: bs) = hexDigit (b.toNat / 16) :: hexDigit (b.toNat % 16) ::
      pvHexEncode bs from rfl, parseHexBytes, lowercaseHexValue_hexDigit _ (by omega),
      lowercaseHexValue_hexDigit _ (by omega), ih]
    exact congrArg (fun x => some (x :: bs)) hback

theorem pvHexEncode_of_parse {xs : Bytes} : ∀ {bs : Bytes}, parseHexBytes xs = some bs →
    pvHexEncode bs = xs := by
  induction xs using parseHexBytes.induct with
  | case1 =>
    intro bs h
    cases h
    rfl
  | case2 => intro bs h; cases h
  | case3 h l rest high low hhigh hlow ih =>
    intro bs hparse
    rw [parseHexBytes, hhigh, hlow] at hparse
    obtain ⟨tail, htail, rfl⟩ := Option.map_eq_some_iff.mp hparse
    obtain ⟨hh, rfl⟩ := hexDigit_of_value hhigh
    obtain ⟨hl, rfl⟩ := hexDigit_of_value hlow
    have hbyte : (UInt8.ofNat (high * 16 + low)).toNat = high * 16 + low := by
      rw [UInt8.toNat_ofNat']
      exact Nat.mod_eq_of_lt (by omega)
    rw [show pvHexEncode (UInt8.ofNat (high * 16 + low) :: tail) =
      hexDigit ((UInt8.ofNat (high * 16 + low)).toNat / 16) ::
        hexDigit ((UInt8.ofNat (high * 16 + low)).toNat % 16) :: pvHexEncode tail from rfl,
      hbyte, ih htail, show (high * 16 + low) / 16 = high by omega,
      show (high * 16 + low) % 16 = low by omega]
  | case4 h l rest hnone =>
    intro bs hparse
    rw [parseHexBytes] at hparse
    split at hparse
    · next high low hhigh hlow => exact absurd hlow (hnone high low hhigh)
    · cases hparse

/-- A decimal digit is the hexadecimal digit of its value. -/
theorem hexDigit_decimal (h : ¬(c < 48 ∨ c > 57)) :
    c.toNat - 48 < 10 ∧ hexDigit (c.toNat - 48) = c := by
  have hall : ∀ n < 256, ¬(UInt8.ofNat n < 48 ∨ UInt8.ofNat n > 57) →
      (UInt8.ofNat n).toNat - 48 < 10 ∧ hexDigit ((UInt8.ofNat n).toNat - 48) = UInt8.ofNat n := by
    decide +kernel
  have hc := hall c.toNat c.toNat_lt
  rw [UInt8.ofNat_toNat] at hc
  exact hc h

theorem toNat_hexDigit : ∀ n < 10,
    ¬(hexDigit n < 48 ∨ hexDigit n > 57) ∧ (hexDigit n).toNat - 48 = n := by decide

theorem le_value (ds : List Nat) (acc : Nat) : acc ≤ Digits.value 10 acc ds := by
  induction ds generalizing acc with
  | nil => exact Nat.le_refl _
  | cons d ds ih => exact Nat.le_trans (by omega) (ih (acc * 10 + d))

/-- The overflow guard rejects nothing that fits in 64 bits. -/
theorem parseGeneration_map {ds : List Nat} : ∀ {acc : Nat}, (∀ d ∈ ds, d < 10) →
    Digits.value 10 acc ds ≤ sizeMax →
    parseGeneration acc (ds.map hexDigit) = some (Digits.value 10 acc ds) := by
  induction ds with
  | nil => intro acc _ _; rfl
  | cons d ds ih =>
    intro acc hds hle
    have hd : d < 10 := hds d List.mem_cons_self
    obtain ⟨hdigit, hval⟩ := toNat_hexDigit d hd
    have hbound := Nat.le_trans (le_value ds (acc * 10 + d)) hle
    rw [List.map_cons, parseGeneration, if_neg hdigit, hval,
      if_neg (by have := sizeMax_eq; omega)]
    exact ih (fun d' h' => hds d' (List.mem_cons_of_mem _ h')) hle

/-- What the loop accepts is decimal digits, and the number they spell. -/
theorem parseGeneration_some {cs : Bytes} : ∀ {acc g : Nat}, parseGeneration acc cs = some g →
    ∃ ds, cs = ds.map hexDigit ∧ (∀ d ∈ ds, d < 10) ∧ g = Digits.value 10 acc ds := by
  induction cs with
  | nil =>
    intro acc g h
    cases h
    exact ⟨[], rfl, by simp, rfl⟩
  | cons c cs ih =>
    intro acc g h
    rw [parseGeneration] at h
    split at h
    · cases h
    · next hdigit =>
      split at h
      · cases h
      · obtain ⟨ds, rfl, hds, rfl⟩ := ih h
        obtain ⟨hlt, heq⟩ := hexDigit_decimal hdigit
        refine ⟨(c.toNat - 48) :: ds, by rw [List.map_cons, heq], ?_, rfl⟩
        intro d hd
        rcases List.mem_cons.mp hd with rfl | hd
        · exact hlt
        · exact hds d hd

/-- **The loop does not wrap**: in 64 bits it computes what it computes without bounds. -/
theorem toNat_parseGenerationWord (cs : Bytes) : ∀ parsed : UInt64,
    (parseGenerationWord parsed cs).map UInt64.toNat = parseGeneration parsed.toNat cs := by
  induction cs with
  | nil => exact fun _ => rfl
  | cons c cs ih =>
    intro parsed
    rw [parseGenerationWord, parseGeneration]
    split
    · rfl
    next hdigit =>
    have hc : 48 ≤ c.toNat ∧ c.toNat ≤ 57 := by
      rw [not_or, UInt8.not_lt, UInt8.not_lt, UInt8.le_iff_toNat_le, UInt8.le_iff_toNat_le] at hdigit
      exact hdigit
    have hval : (c - 48).toUInt64.toNat = c.toNat - 48 := by
      have hle : 48 ≤ c := UInt8.le_iff_toNat_le.mpr hc.1
      rw [UInt8.toNat_toUInt64, UInt8.toNat_sub_of_le _ _ hle]
      rfl
    have hroom : ((0xffffffffffffffff - (c - 48).toUInt64) / 10 : UInt64).toNat =
        (sizeMax - (c.toNat - 48)) / 10 := by
      have hle : (c - 48).toUInt64 ≤ 0xffffffffffffffff := by
        rw [UInt64.le_iff_toNat_le, hval]
        exact Nat.le_trans (Nat.sub_le _ _) (Nat.le_trans hc.2 (by decide))
      rw [UInt64.toNat_div, UInt64.toNat_sub_of_le _ _ hle, hval, sizeMax_eq]
      rfl
    have hguard : parsed > (0xffffffffffffffff - (c - 48).toUInt64) / 10 ↔
        parsed.toNat > (sizeMax - (c.toNat - 48)) / 10 := by
      rw [gt_iff_lt, UInt64.lt_iff_toNat_lt, hroom]
    by_cases hover : parsed.toNat > (sizeMax - (c.toNat - 48)) / 10
    · rw [if_pos (hguard.mpr hover), if_pos hover]
      rfl
    · rw [if_neg (fun h => hover (hguard.mp h)), if_neg hover, ih]
      have hnext : (parsed * 10 + (c - 48).toUInt64).toNat = parsed.toNat * 10 + (c.toNat - 48) := by
        have hmax := sizeMax_eq
        rw [UInt64.toNat_add, UInt64.toNat_mul, hval, Nat.mod_add_mod]
        exact Nat.mod_eq_of_lt (by show parsed.toNat * 10 + _ < _; omega)
      rw [hnext]

/-! ## Backup names -/

theorem mem_pvHexEncode {bs : Bytes} (h : c ∈ pvHexEncode bs) :
    ∃ n < 16, c = hexDigit n := by
  obtain ⟨b, -, hc⟩ := List.mem_flatMap.mp h
  have := b.toNat_lt
  simp only [List.mem_cons, List.not_mem_nil, or_false] at hc
  rcases hc with rfl | rfl
  · exact ⟨_, by omega, rfl⟩
  · exact ⟨_, by omega, rfl⟩

theorem le_of_mem_pvHexEncode {bs : Bytes} (h : c ∈ pvHexEncode bs) :
    0x30 ≤ c.toNat := by
  have hdigit : ∀ n < 16, 0x30 ≤ (hexDigit n).toNat := by decide
  obtain ⟨n, hn, rfl⟩ := mem_pvHexEncode h
  exact hdigit n hn

@[simp] theorem length_pvHexEncode (bs : Bytes) : (pvHexEncode bs).length = 2 * bs.length := by
  induction bs with
  | nil => rfl
  | cons b bs ih =>
    rw [show pvHexEncode (b :: bs) = hexDigit (b.toNat / 16) :: hexDigit (b.toNat % 16) ::
      pvHexEncode bs from rfl, List.length_cons, List.length_cons, ih, List.length_cons]
    omega

@[simp] theorem length_decimal (w n : Nat) : (decimal w n).length = w := by
  rw [decimal, List.length_map, Digits.length_numeral]

theorem length_autoBackupName (vaultId : Block pvVaultIdBytes) (generation : Nat) :
    (autoBackupName vaultId generation).length = 67 := by
  simp only [autoBackupName, List.length_append, length_pvHexEncode, length_decimal,
    Block.length_bytes]
  rfl

/-- A formatted name parses back to what it was formatted from. -/
theorem parseAutomaticBackupName_format (hpos : 0 < generation) (hle : generation ≤ sizeMax) :
    parseAutomaticBackupName (autoBackupName vaultId generation) = some (vaultId, generation) := by
  have hhex : (pvHexEncode vaultId.bytes).length = 32 := by
    rw [length_pvHexEncode, vaultId.length_eq]
    rfl
  -- The five pieces, each cut out at the parser's fixed offset.
  have hstart : slice (autoBackupName vaultId generation) 0 8 = autoBackupStart := by
    rw [autoBackupName, List.append_assoc, List.append_assoc, List.append_assoc,
      slice_append_left (by decide)]
    rfl
  have hid : slice (autoBackupName vaultId generation) 8 32 = pvHexEncode vaultId.bytes := by
    rw [autoBackupName, slice_append_left (by simp [hhex]; decide),
      slice_append_left (by simp [hhex]; decide), slice_append_left (by simp [hhex]; decide)]
    exact slice_append_right rfl hhex.symm
  have hmarker : slice (autoBackupName vaultId generation) 40 2 = generationMarker := by
    rw [autoBackupName, slice_append_left (by simp [hhex]; decide),
      slice_append_left (by simp [hhex]; decide)]
    exact slice_append_right (by simp [hhex]; decide) rfl
  have hgeneration : slice (autoBackupName vaultId generation) 42 20 = decimal 20 generation := by
    rw [autoBackupName, slice_append_left (by simp [hhex]; decide)]
    exact slice_append_right (by simp [hhex]; decide) (by simp)
  have hextension : slice (autoBackupName vaultId generation) 62 5 = snapshotExtension := by
    exact slice_append_right (by simp [hhex]; decide) rfl
  have hvalue : Digits.value 10 0 (Digits.numeral 10 20 generation) = generation :=
    Digits.value_numeral (by have := sizeMax_eq; omega)
  have hparse : parseGeneration 0 (decimal 20 generation) = some generation := by
    rw [decimal, parseGeneration_map (fun d hd => Digits.lt_of_mem_numeral (by decide) hd)
      (by rw [hvalue]; exact hle), hvalue]
  rw [parseAutomaticBackupName, hstart, hid, hmarker, hgeneration, hextension,
    length_autoBackupName, parseHexBytes_pvHexEncode, hparse, if_neg (by simp)]
  simp only [if_neg (Nat.ne_of_gt hpos), Block.ofBytes_bytes]

/-- The buffer for the vault id and the one for the name are long enough. -/
theorem formatAutomaticBackupName_eq (vaultId : Block pvVaultIdBytes) (generation : UInt64) :
    formatAutomaticBackupName vaultId generation =
      if generation = 0 then .error .errUsage else .ok (autoBackupName vaultId generation.toNat) := by
  have hhex : hexText vaultId.bytes (pvVaultIdBytes * 2 + 1) = pvHexEncode vaultId.bytes := by
    rw [hexText, if_neg]
    rw [vaultId.length_eq]
    decide
  have hne : pvHexEncode vaultId.bytes ≠ [] := by
    intro hnil
    have hlen := length_pvHexEncode vaultId.bytes
    rw [hnil, vaultId.length_eq] at hlen
    cases hlen
  rw [formatAutomaticBackupName, hhex]
  dsimp only
  have hlen := length_autoBackupName vaultId generation.toNat
  rw [autoBackupName] at hlen
  rw [if_neg hne, if_pos hlen, autoBackupName]

theorem formatAutomaticBackupName_ok {generation : UInt64}
    (h : formatAutomaticBackupName vaultId generation = .ok name) :
    generation ≠ 0 ∧ name = autoBackupName vaultId generation.toNat := by
  rw [formatAutomaticBackupName_eq] at h
  split at h
  · cases h
  · next hne =>
    cases h
    exact ⟨hne, rfl⟩

/-- No name parses but the formatted one of what it parses to. -/
theorem format_of_parse (h : parseAutomaticBackupName name = some (vaultId, generation)) :
    name = autoBackupName vaultId generation := by
  rw [parseAutomaticBackupName] at h
  split at h
  · cases h
  · next hshape =>
    simp only [not_or, not_not] at hshape
    obtain ⟨hlen, hstart, hmarker, hextension⟩ := hshape
    split at h
    · next id g hid hg =>
      split at h
      · cases h
      · cases h
        have hhex := pvHexEncode_of_parse hid
        have hidlen : id.length = pvVaultIdBytes := by
          have := congrArg List.length hhex
          rw [length_pvHexEncode, length_slice (by omega)] at this
          exact Nat.mul_left_cancel (by decide) this
        obtain ⟨ds, hds, hlt, rfl⟩ := parseGeneration_some hg
        have hdslen : ds.length = 20 := by
          have := congrArg List.length hds
          rw [length_slice (by omega), List.length_map] at this
          exact this.symm
        have hdecimal : decimal 20 (Digits.value 10 0 ds) = slice name 42 20 := by
          rw [decimal, ← hdslen, Digits.numeral_value ds hlt, hdslen, hds]
        rw [autoBackupName, Block.bytes_ofBytes hidlen, hhex, hdecimal, ← hstart, ← hmarker,
          ← hextension, slice_append_slice, slice_append_slice, slice_append_slice,
          slice_append_slice]
        exact (hlen ▸ slice_full name).symm
    · cases h

/-- The generation a name parses to is not zero. -/
theorem parse_pos (h : parseAutomaticBackupName name = some (vaultId, generation)) :
    0 < generation := by
  rw [parseAutomaticBackupName] at h
  split at h
  · cases h
  · split at h
    · split at h
      · cases h
      · next hne =>
        cases h
        exact Nat.pos_of_ne_zero hne
    · cases h

theorem parse_le (h : parseAutomaticBackupName name = some (vaultId, generation)) :
    generation ≤ sizeMax := by
  rw [parseAutomaticBackupName] at h
  split at h
  · cases h
  · split at h
    · next id g _ hg =>
      split at h
      · cases h
      · cases h
        rw [← show (0 : UInt64).toNat = 0 from rfl, ← toNat_parseGenerationWord] at hg
        obtain ⟨word, -, rfl⟩ := Option.map_eq_some_iff.mp hg
        exact Nat.le_pred_of_lt word.toNat_lt
    · cases h

/-- **Automatic backup names are a code**: the name of every vault id and generation parses back to
them, every name that parses is the name of what it parses to, and the 64-bit loop of the parser
never wraps. -/
theorem automatic_backup_names_are_a_code :
    (∀ (vaultId : Block pvVaultIdBytes) (generation : UInt64), generation ≠ 0 → ∃ name,
      formatAutomaticBackupName vaultId generation = .ok name ∧
      parseAutomaticBackupName name = some (vaultId, generation.toNat)) ∧
    (∀ name vaultId g, parseAutomaticBackupName name = some (vaultId, g) →
      ∃ generation : UInt64, generation ≠ 0 ∧ generation.toNat = g ∧
        formatAutomaticBackupName vaultId generation = .ok name) ∧
    ∀ digits, (parseGenerationWord 0 digits).map UInt64.toNat = parseGeneration 0 digits := by
  refine ⟨fun vaultId generation hne => ?_, fun name vaultId g hparse => ?_,
    fun digits => toNat_parseGenerationWord digits 0⟩
  · refine ⟨autoBackupName vaultId generation.toNat, ?_, parseAutomaticBackupName_format ?_ ?_⟩
    · rw [formatAutomaticBackupName_eq, if_neg hne]
    · exact Nat.pos_of_ne_zero fun hzero => hne (UInt64.toNat_inj.mp hzero)
    · exact Nat.le_pred_of_lt generation.toNat_lt
  · have hpos := parse_pos hparse
    have hg : (UInt64.ofNat g).toNat = g := by
      have hle := parse_le hparse
      have hmax := sizeMax_eq
      exact UInt64.toNat_ofNat_of_lt' (by show g < 2 ^ 64; omega)
    have hne : UInt64.ofNat g ≠ 0 := by
      intro hzero
      rw [hzero] at hg
      exact Nat.ne_of_gt hpos hg.symm
    refine ⟨UInt64.ofNat g, hne, hg, ?_⟩
    rw [formatAutomaticBackupName_eq, if_neg hne, hg, format_of_parse hparse]

/-- The last generation: the digits of `UINT64_MAX` pass, those of the next number do not. -/
theorem automatic_backup_names_are_a_code_at_max :
    (∃ name, formatAutomaticBackupName (Block.zero _) 0xffffffffffffffff = .ok name ∧
      parseAutomaticBackupName name = some (Block.zero _, 2 ^ 64 - 1)) ∧
    parseGenerationWord 0 (decimal 20 (2 ^ 64)) = none :=
  ⟨automatic_backup_names_are_a_code.1 (Block.zero _) 0xffffffffffffffff (by decide), by decide⟩

/-! ## Temporary names -/

@[simp] theorem length_hex8 (n : UInt32) : (hex8 n).length = 8 := by
  rw [hex8, List.length_map, Digits.length_numeral]

/-- A file is never called like its own temporary. -/
theorem temporaryName_ne (name : Bytes) (suffix : UInt32) : temporaryName name suffix ≠ name := by
  intro h
  have := congrArg List.length h
  simp only [temporaryName, List.length_append, length_hex8] at this
  omega

/-- A temporary name ends in a hexadecimal digit. -/
theorem getLast?_temporaryName (name : Bytes) (suffix : UInt32) :
    ∃ n < 16, (temporaryName name suffix).getLast? = some (hexDigit n) := by
  have hne : hex8 suffix ≠ [] := by
    intro h
    have := length_hex8 suffix
    rw [h] at this
    cases this
  have hmem := List.getLast_mem hne
  obtain ⟨n, hn, hlast⟩ := List.mem_map.mp hmem
  refine ⟨n, Digits.lt_of_mem_numeral (by decide) hn, ?_⟩
  rw [temporaryName, List.getLast?_append_of_ne_nil _ hne, List.getLast?_eq_some_getLast hne, hlast]

/-- So it is not the name of a finished snapshot, nor of the directory of backups. -/
theorem temporaryName_not_snapshot (name : Bytes) (suffix : UInt32) :
    ¬snapshotExtension <:+ temporaryName name suffix := by
  rintro ⟨stem, h⟩
  obtain ⟨n, hn, hlast⟩ := getLast?_temporaryName name suffix
  rw [← h, List.getLast?_append_of_ne_nil _ (by decide)] at hlast
  have hall : ∀ n < 16, (snapshotExtension.getLast? : Option UInt8) ≠ some (hexDigit n) := by decide
  exact hall n hn hlast

theorem temporaryName_ne_backups (name : Bytes) (suffix : UInt32) :
    temporaryName name suffix ≠ backupsName := by
  intro h
  obtain ⟨n, hn, hlast⟩ := getLast?_temporaryName name suffix
  rw [h] at hlast
  have hall : ∀ n < 16, (backupsName.getLast? : Option UInt8) ≠ some (hexDigit n) := by decide
  exact hall n hn hlast

theorem autoBackupName_snapshot (vaultId : Block pvVaultIdBytes) (generation : Nat) :
    snapshotExtension <:+ autoBackupName vaultId generation := List.suffix_append _ _

theorem preRestoreName_snapshot (nowMs : Int) (suffix : UInt32) :
    snapshotExtension <:+ preRestoreName nowMs suffix := List.suffix_append _ _

end PVault
