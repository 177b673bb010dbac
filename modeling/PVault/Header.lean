import PVault.Lib.Bytes
import PVault.Status

/-!
# The file header and its codec (`src/crypto.c`)

A snapshot starts with a fixed header of 252 bytes: nineteen fields copied to
hand-written offsets by `pvHeaderEncode` and cut out of the same offsets by
`pvHeaderDecode`, which then checks the version 1.0 constraints.

The main result is `headerCodec_bijective`: the codec is a bijection between the
accepted byte strings and the headers that satisfy `FileHeader.V1`. It rests on
one fact about the layout, `headerFields_tile`: the nineteen writes cover the 252
bytes without gap or overlap.
-/

namespace PVault

open Binary

variable {input : Bytes} {off : Nat}

/-! ## The header -/

/-- `pv_keyslot_password`. -/
structure KeyslotPassword where
  /-- Argon2id passes -/
  opslimit : UInt64
  /-- Argon2id memory in bytes -/
  memlimit : UInt64
  /-- Argon2id salt -/
  salt : Block pvSaltBytes
  /-- nonce of the wrapping -/
  nonce : Block pvWrapNonceBytes
  /-- the vault master key, wrapped under the password key -/
  wrappedVmk : Block pvWrappedVmkBytes
  deriving DecidableEq

/-- `pv_keyslot_recovery`. -/
structure KeyslotRecovery where
  /-- nonce of the wrapping -/
  nonce : Block pvWrapNonceBytes
  /-- the vault master key, wrapped under the recovery key -/
  wrappedVmk : Block pvWrappedVmkBytes
  deriving DecidableEq

/-- `pv_file_header`. -/
structure FileHeader where
  magic : Block pvMagicLen
  major : UInt16
  minor : UInt16
  headerLen : UInt32
  flags : UInt32
  vaultId : Block pvVaultIdBytes
  kdfId : UInt16
  wrapAeadId : UInt16
  bodyAeadId : UInt16
  slotCount : UInt16
  passwordSlot : KeyslotPassword
  recoverySlot : KeyslotRecovery
  bodyNonce : Block pvWrapNonceBytes
  bodyCiphertextLen : UInt64
  deriving DecidableEq

/-- The header `sodium_memzero` leaves behind. -/
def FileHeader.zero : FileHeader where
  magic := Block.zero _
  major := 0
  minor := 0
  headerLen := 0
  flags := 0
  vaultId := Block.zero _
  kdfId := 0
  wrapAeadId := 0
  bodyAeadId := 0
  slotCount := 0
  passwordSlot := ⟨0, 0, Block.zero _, Block.zero _, Block.zero _⟩
  recoverySlot := ⟨Block.zero _, Block.zero _⟩
  bodyNonce := Block.zero _
  bodyCiphertextLen := 0

/-- `pv_magic`: `PVLT` and the four bytes that detect a mangled transfer. -/
def pvMagic : Block pvMagicLen := ⟨[0x50, 0x56, 0x4c, 0x54, 0x0d, 0x0a, 0x1a, 0x0a], rfl⟩

/-- `PV_FILE_MAJOR`. -/
def pvFileMajor : UInt16 := 1
/-- `PV_FILE_MINOR`. -/
def pvFileMinor : UInt16 := 0
/-- `PV_KDF_ARGON2ID13`. -/
def pvKdfArgon2id13 : UInt16 := 1
/-- `PV_AEAD_XCHACHA20POLY1305`. -/
def pvAeadXchacha20poly1305 : UInt16 := 1
/-- `PV_V1_PASSWORD_OPSLIMIT`, also the smallest accepted value. -/
def pvV1PasswordOpslimit : UInt64 := 3
/-- `PV_V1_PASSWORD_OPSLIMIT_MAX`. -/
def pvV1PasswordOpslimitMax : UInt64 := 10
/-- `PV_V1_PASSWORD_MEMLIMIT`, also the smallest accepted value. -/
def pvV1PasswordMemlimit : UInt64 := 268435456
/-- `PV_V1_PASSWORD_MEMLIMIT_MAX`. -/
def pvV1PasswordMemlimitMax : UInt64 := 1073741824

/-! ## Little-endian fields -/

/-- `put_u16_le`: the two bytes it stores. -/
def putU16Le (value : UInt16) : Bytes := leBytes 2 value.toNat
/-- `put_u32_le`: the four bytes it stores. -/
def putU32Le (value : UInt32) : Bytes := leBytes 4 value.toNat
/-- `put_u64_le`: the eight bytes it stores. -/
def putU64Le (value : UInt64) : Bytes := leBytes 8 value.toNat

/-- `get_u16_le` at an offset of the input. -/
def getU16Le (input : Bytes) (off : Nat) : UInt16 := UInt16.ofNat (orShifted (slice input off 2))
/-- `get_u32_le` at an offset of the input. -/
def getU32Le (input : Bytes) (off : Nat) : UInt32 := UInt32.ofNat (orShifted (slice input off 4))
/-- `get_u64_le` at an offset of the input. -/
def getU64Le (input : Bytes) (off : Nat) : UInt64 := UInt64.ofNat (orShifted (slice input off 8))

@[simp] theorem length_putU16Le (v : UInt16) : (putU16Le v).length = 2 := length_leBytes ..
@[simp] theorem length_putU32Le (v : UInt32) : (putU32Le v).length = 4 := length_leBytes ..
@[simp] theorem length_putU64Le (v : UInt64) : (putU64Le v).length = 8 := length_leBytes ..

theorem getU16Le_put {v : UInt16} (h : slice input off 2 = putU16Le v) :
    getU16Le input off = v := by
  rw [getU16Le, h, putU16Le, orShifted_eq_leNat, leNat_leBytes 2 v.toNat_lt, UInt16.ofNat_toNat]

theorem getU32Le_put {v : UInt32} (h : slice input off 4 = putU32Le v) :
    getU32Le input off = v := by
  rw [getU32Le, h, putU32Le, orShifted_eq_leNat, leNat_leBytes 4 v.toNat_lt, UInt32.ofNat_toNat]

theorem getU64Le_put {v : UInt64} (h : slice input off 8 = putU64Le v) :
    getU64Le input off = v := by
  rw [getU64Le, h, putU64Le, orShifted_eq_leNat, leNat_leBytes 8 v.toNat_lt, UInt64.ofNat_toNat]

/-- A slice of `w` bytes is the little-endian spelling of the number it spells. -/
theorem leBytes_orShifted_slice {w : Nat} (h : off + w ≤ input.length) :
    leBytes w (orShifted (slice input off w)) = slice input off w ∧
      orShifted (slice input off w) < 256 ^ w := by
  have hlen : (slice input off w).length = w := length_slice h
  have hback := leBytes_leNat (slice input off w)
  have hlt := leNat_lt (slice input off w)
  rw [hlen] at hback hlt
  rw [orShifted_eq_leNat]
  exact ⟨hback, hlt⟩

theorem putU16Le_get (h : off + 2 ≤ input.length) :
    putU16Le (getU16Le input off) = slice input off 2 := by
  obtain ⟨hback, hlt⟩ := leBytes_orShifted_slice h
  rw [putU16Le, getU16Le, UInt16.toNat_ofNat_of_lt' hlt, hback]

theorem putU32Le_get (h : off + 4 ≤ input.length) :
    putU32Le (getU32Le input off) = slice input off 4 := by
  obtain ⟨hback, hlt⟩ := leBytes_orShifted_slice h
  rw [putU32Le, getU32Le, UInt32.toNat_ofNat_of_lt' hlt, hback]

theorem putU64Le_get (h : off + 8 ≤ input.length) :
    putU64Le (getU64Le input off) = slice input off 8 := by
  obtain ⟨hback, hlt⟩ := leBytes_orShifted_slice h
  rw [putU64Le, getU64Le, UInt64.toNat_ofNat_of_lt' hlt, hback]

/-- `memcpy` of `n` bytes out of the input. -/
def getBlock (n : Nat) (input : Bytes) (off : Nat) : Block n := Block.ofBytes n (slice input off n)

theorem getBlock_put {n : Nat} {b : Block n} (h : slice input off n = b.bytes) :
    getBlock n input off = b := by
  rw [getBlock, h, Block.ofBytes_bytes]

theorem bytes_getBlock {n : Nat} (h : off + n ≤ input.length) :
    (getBlock n input off).bytes = slice input off n :=
  Block.bytes_ofBytes (length_slice h)

/-! ## The codec -/

/-- The nineteen copies of `pv_header_encode`, in the order of the source. -/
def headerFields (header : FileHeader) : List (Nat × Bytes) :=
  [(0, header.magic.bytes),
   (8, putU16Le header.major),
   (10, putU16Le header.minor),
   (12, putU32Le header.headerLen),
   (16, putU32Le header.flags),
   (20, header.vaultId.bytes),
   (36, putU16Le header.kdfId),
   (38, putU16Le header.wrapAeadId),
   (40, putU16Le header.bodyAeadId),
   (42, putU16Le header.slotCount),
   (44, putU64Le header.passwordSlot.opslimit),
   (52, putU64Le header.passwordSlot.memlimit),
   (60, header.passwordSlot.salt.bytes),
   (76, header.passwordSlot.nonce.bytes),
   (100, header.passwordSlot.wrappedVmk.bytes),
   (148, header.recoverySlot.nonce.bytes),
   (172, header.recoverySlot.wrappedVmk.bytes),
   (220, header.bodyNonce.bytes),
   (244, putU64Le header.bodyCiphertextLen)]

/-- **The layout has no gap and no overlap**: the nineteen fields tile the header. -/
theorem headerFields_tile (header : FileHeader) : Tiles 0 (headerFields header) pvFileHeaderLen := by
  simp only [headerFields, Tiles, Block.length_bytes, length_putU16Le, length_putU32Le,
    length_putU64Le]
  decide

/-- `pv_header_encode`, over whatever the output array held before. -/
def pvHeaderEncode (header : FileHeader) (output : Block pvFileHeaderLen) :
    Block pvFileHeaderLen :=
  ⟨writeFields (headerFields header) output.bytes, by
    rw [length_writeFields _ (headerFields_tile header) (by simp), output.length_eq]⟩

/-- The header `pv_header_decode` fills in before it checks anything. -/
def parseHeader (input : Bytes) : FileHeader where
  magic := getBlock _ input 0
  major := getU16Le input 8
  minor := getU16Le input 10
  headerLen := getU32Le input 12
  flags := getU32Le input 16
  vaultId := getBlock _ input 20
  kdfId := getU16Le input 36
  wrapAeadId := getU16Le input 38
  bodyAeadId := getU16Le input 40
  slotCount := getU16Le input 42
  passwordSlot :=
    { opslimit := getU64Le input 44
      memlimit := getU64Le input 52
      salt := getBlock _ input 60
      nonce := getBlock _ input 76
      wrappedVmk := getBlock _ input 100 }
  recoverySlot :=
    { nonce := getBlock _ input 148
      wrappedVmk := getBlock _ input 172 }
  bodyNonce := getBlock _ input 220
  bodyCiphertextLen := getU64Le input 244

/-- `maximum_ciphertext` of `pv_header_decode`. -/
def maximumCiphertext : UInt64 := UInt64.ofNat (pvMaxPlaintext + pvBodyTagBytes)

/-- The checks of `pv_header_decode` after the magic and the version. The
subtraction is the source's unsigned one; the disjunct before it keeps it from
wrapping. -/
def headerChecksFail (header : FileHeader) : Bool :=
  bytesAllZero header.vaultId.bytes ||
  header.headerLen != 252 ||
  header.flags != 0 ||
  header.kdfId != pvKdfArgon2id13 ||
  header.wrapAeadId != pvAeadXchacha20poly1305 ||
  header.bodyAeadId != pvAeadXchacha20poly1305 ||
  header.slotCount != 2 ||
  header.passwordSlot.opslimit < pvV1PasswordOpslimit ||
  header.passwordSlot.opslimit > pvV1PasswordOpslimitMax ||
  header.passwordSlot.memlimit < pvV1PasswordMemlimit ||
  header.passwordSlot.memlimit > pvV1PasswordMemlimitMax ||
  header.bodyCiphertextLen < 4096 + 16 ||
  (header.bodyCiphertextLen - 16) % 4096 != 0 ||
  header.bodyCiphertextLen > maximumCiphertext

/-- `pv_header_decode`: the status and the output header. -/
def pvHeaderDecode (input : Block pvFileHeaderLen) : PvStatus × FileHeader :=
  let header := parseHeader input.bytes
  if header.magic ≠ pvMagic then
    (.errFormat, FileHeader.zero)
  else if header.major ≠ pvFileMajor ∨ header.minor ≠ pvFileMinor then
    (.errUnsupported, FileHeader.zero)
  else if headerChecksFail header then
    (.errFormat, FileHeader.zero)
  else
    (.ok, header)

/-! ## The version 1.0 constraints -/

/-- What a version 1.0 header satisfies. -/
structure FileHeader.V1 (header : FileHeader) : Prop where
  magic_eq : header.magic = pvMagic
  major_eq : header.major = 1
  minor_eq : header.minor = 0
  headerLen_eq : header.headerLen = 252
  flags_eq : header.flags = 0
  vaultId_ne : header.vaultId ≠ Block.zero _
  kdfId_eq : header.kdfId = 1
  wrapAeadId_eq : header.wrapAeadId = 1
  bodyAeadId_eq : header.bodyAeadId = 1
  slotCount_eq : header.slotCount = 2
  opslimit_mem : 3 ≤ header.passwordSlot.opslimit.toNat ∧ header.passwordSlot.opslimit.toNat ≤ 10
  memlimit_mem : 268435456 ≤ header.passwordSlot.memlimit.toNat ∧
    header.passwordSlot.memlimit.toNat ≤ 1073741824
  /-- the body is one to 512 pages and a tag -/
  bodyLen_eq : ∃ k, 1 ≤ k ∧ k ≤ 512 ∧ header.bodyCiphertextLen.toNat = 16 + k * 4096

/-- The unsigned subtraction does not wrap once the minimum length is checked. -/
theorem toNat_sub_tag {len : UInt64} (h : 16 ≤ len.toNat) : (len - 16).toNat = len.toNat - 16 := by
  have hle : (16 : UInt64) ≤ len := UInt64.le_iff_toNat_le.mpr h
  rw [UInt64.toNat_sub_of_le _ _ hle]
  rfl

/-- The three checks on the body length, read as numbers. -/
theorem bodyLen_checks (len : UInt64) :
    (¬len < 4096 + 16 ∧ (len - 16) % 4096 = 0 ∧ ¬len > maximumCiphertext) ↔
      ∃ k, 1 ≤ k ∧ k ≤ 512 ∧ len.toNat = 16 + k * 4096 := by
  have hmin : ¬len < 4096 + 16 ↔ 4112 ≤ len.toNat := by
    rw [UInt64.lt_iff_toNat_lt, Nat.not_lt]
    rfl
  have hmax : ¬len > maximumCiphertext ↔ len.toNat ≤ 2097168 := by
    rw [gt_iff_lt, UInt64.lt_iff_toNat_lt, Nat.not_lt]
    rfl
  have hmod : 16 ≤ len.toNat → ((len - 16) % 4096 = 0 ↔ (len.toNat - 16) % 4096 = 0) := by
    intro h
    rw [← UInt64.toNat_inj, UInt64.toNat_mod, toNat_sub_tag h]
    rfl
  rw [hmin, hmax]
  constructor
  · rintro ⟨hlo, hrem, hhi⟩
    have := (hmod (by omega)).mp hrem
    exact ⟨(len.toNat - 16) / 4096, by omega, by omega, by omega⟩
  · rintro ⟨k, hk1, hk2, hlen⟩
    exact ⟨by omega, (hmod (by omega)).mpr (by omega), by omega⟩

/-- The checks pass exactly on the headers of version 1.0. -/
theorem checks_pass_iff (header : FileHeader) :
    (header.magic = pvMagic ∧ (header.major = pvFileMajor ∧ header.minor = pvFileMinor) ∧
      headerChecksFail header = false) ↔ header.V1 := by
  have hops : (¬header.passwordSlot.opslimit < pvV1PasswordOpslimit ∧
      ¬header.passwordSlot.opslimit > pvV1PasswordOpslimitMax) ↔
      (3 ≤ header.passwordSlot.opslimit.toNat ∧ header.passwordSlot.opslimit.toNat ≤ 10) := by
    rw [gt_iff_lt, UInt64.lt_iff_toNat_lt, UInt64.lt_iff_toNat_lt, Nat.not_lt, Nat.not_lt]
    rfl
  have hmem : (¬header.passwordSlot.memlimit < pvV1PasswordMemlimit ∧
      ¬header.passwordSlot.memlimit > pvV1PasswordMemlimitMax) ↔
      (268435456 ≤ header.passwordSlot.memlimit.toNat ∧
        header.passwordSlot.memlimit.toNat ≤ 1073741824) := by
    rw [gt_iff_lt, UInt64.lt_iff_toNat_lt, UInt64.lt_iff_toNat_lt, Nat.not_lt, Nat.not_lt]
    rfl
  have hid : bytesAllZero header.vaultId.bytes = false ↔ header.vaultId ≠ Block.zero _ := by
    rw [Ne, ← Block.allZero_iff, Bool.not_eq_true]
  have hlen := bodyLen_checks header.bodyCiphertextLen
  simp only [headerChecksFail, Bool.or_eq_false_iff, bne_eq_false_iff_eq, decide_eq_false_iff_not,
    hid]
  constructor
  · rintro ⟨hmagic, ⟨hmajor, hminor⟩, ⟨⟨⟨⟨⟨⟨⟨⟨⟨⟨⟨⟨⟨h1, h2⟩, h3⟩, h4⟩, h5⟩, h6⟩, h7⟩, h8⟩, h9⟩, h10⟩,
      h11⟩, h12⟩, h13⟩, h14⟩⟩
    exact ⟨hmagic, hmajor, hminor, h2, h3, h1, h4, h5, h6, h7, hops.mp ⟨h8, h9⟩,
      hmem.mp ⟨h10, h11⟩, hlen.mp ⟨h12, h13, h14⟩⟩
  · intro h
    obtain ⟨h8, h9⟩ := hops.mpr h.opslimit_mem
    obtain ⟨h10, h11⟩ := hmem.mpr h.memlimit_mem
    obtain ⟨h12, h13, h14⟩ := hlen.mpr h.bodyLen_eq
    exact ⟨h.magic_eq, ⟨h.major_eq, h.minor_eq⟩, ⟨⟨⟨⟨⟨⟨⟨⟨⟨⟨⟨⟨⟨h.vaultId_ne, h.headerLen_eq⟩,
      h.flags_eq⟩, h.kdfId_eq⟩, h.wrapAeadId_eq⟩, h.bodyAeadId_eq⟩, h.slotCount_eq⟩, h8⟩, h9⟩, h10⟩,
      h11⟩, h12⟩, h13⟩, h14⟩⟩

/-- What `pvHeaderDecode` returns: the parsed header when it satisfies the
constraints, an error and the zero header otherwise. -/
theorem pvHeaderDecode_cases (input : Block pvFileHeaderLen) :
    ((parseHeader input.bytes).V1 ∧ pvHeaderDecode input = (.ok, parseHeader input.bytes)) ∨
    (¬(parseHeader input.bytes).V1 ∧ (pvHeaderDecode input).1 ≠ .ok ∧
      (pvHeaderDecode input).2 = FileHeader.zero) := by
  rw [← checks_pass_iff]
  unfold pvHeaderDecode
  dsimp only
  by_cases hmagic : (parseHeader input.bytes).magic = pvMagic
  · rw [if_neg (not_not.mpr hmagic)]
    by_cases hver : (parseHeader input.bytes).major = pvFileMajor ∧
        (parseHeader input.bytes).minor = pvFileMinor
    · rw [if_neg (by tauto)]
      by_cases hfail : headerChecksFail (parseHeader input.bytes) = true
      · exact .inr ⟨by simp [hfail], by simp [hfail], by simp [hfail]⟩
      · exact .inl ⟨⟨hmagic, hver, by simpa using hfail⟩, by simp [hfail]⟩
    · rw [if_pos (by tauto)]
      exact .inr ⟨by tauto, by simp, rfl⟩
  · rw [if_pos hmagic]
    exact .inr ⟨by tauto, by simp, rfl⟩

theorem pvHeaderDecode_ne_durability (input : Block pvFileHeaderLen) :
    (pvHeaderDecode input).1 ≠ .errDurability := by
  rw [pvHeaderDecode]
  split_ifs <;> exact nofun

/-! ## The two directions -/

/-- The encoded header is the concatenation of its fields; what the output array
held before is gone. -/
theorem bytes_pvHeaderEncode (header : FileHeader) (output : Block pvFileHeaderLen) :
    (pvHeaderEncode header output).bytes = fieldBytes (headerFields header) := by
  refine writeFields_eq ?_
  rw [output.length_eq]
  exact headerFields_tile header

/-- Every field of the encoded header reads back at its offset. -/
theorem slice_pvHeaderEncode (header : FileHeader) (output : Block pvFileHeaderLen)
    {w : Nat × Bytes} (hw : w ∈ headerFields header) :
    slice (pvHeaderEncode header output).bytes w.1 w.2.length = w.2 := by
  rw [bytes_pvHeaderEncode]
  have := slice_fieldBytes [] (headerFields_tile header) rfl hw
  rwa [List.nil_append] at this

/-- Parsing what the encoder wrote gives the header back. -/
theorem parseHeader_pvHeaderEncode (header : FileHeader) (output : Block pvFileHeaderLen) :
    parseHeader (pvHeaderEncode header output).bytes = header := by
  have read : ∀ w ∈ headerFields header,
      slice (pvHeaderEncode header output).bytes w.1 w.2.length = w.2 :=
    fun w hw => slice_pvHeaderEncode header output hw
  generalize (pvHeaderEncode header output).bytes = b at read
  simp only [headerFields, List.forall_mem_cons, Block.length_bytes, length_putU16Le,
    length_putU32Le, length_putU64Le] at read
  obtain ⟨h0, h8, h10, h12, h16, h20, h36, h38, h40, h42, h44, h52, h60, h76, h100, h148, h172,
    h220, h244, -⟩ := read
  simp only [parseHeader, getBlock_put h0, getU16Le_put h8, getU16Le_put h10, getU32Le_put h12,
    getU32Le_put h16, getBlock_put h20, getU16Le_put h36, getU16Le_put h38, getU16Le_put h40,
    getU16Le_put h42, getU64Le_put h44, getU64Le_put h52, getBlock_put h60, getBlock_put h76,
    getBlock_put h100, getBlock_put h148, getBlock_put h172, getBlock_put h220, getU64Le_put h244]

/-- Encoding what the parser read gives the bytes back. -/
theorem pvHeaderEncode_parseHeader (input output : Block pvFileHeaderLen) :
    pvHeaderEncode (parseHeader input.bytes) output = input := by
  ext1
  have hlen : input.bytes.length = pvFileHeaderLen := input.length_eq
  have hfull := slice_full input.bytes
  rw [hlen] at hfull
  rw [bytes_pvHeaderEncode,
    fieldBytes_slices input.bytes (headerFields_tile _) ?_, Nat.sub_zero, hfull]
  have h16 : ∀ off, off + 2 ≤ 252 → putU16Le (getU16Le input.bytes off) = slice input.bytes off 2 :=
    fun off h => putU16Le_get (by rw [hlen]; exact h)
  have h32 : ∀ off, off + 4 ≤ 252 → putU32Le (getU32Le input.bytes off) = slice input.bytes off 4 :=
    fun off h => putU32Le_get (by rw [hlen]; exact h)
  have h64 : ∀ off, off + 8 ≤ 252 → putU64Le (getU64Le input.bytes off) = slice input.bytes off 8 :=
    fun off h => putU64Le_get (by rw [hlen]; exact h)
  have hblock : ∀ n off, off + n ≤ 252 →
      (getBlock n input.bytes off).bytes = slice input.bytes off n :=
    fun n off h => bytes_getBlock (by rw [hlen]; exact h)
  simp only [headerFields, parseHeader, List.forall_mem_cons, Block.length_bytes, length_putU16Le,
    length_putU32Le, length_putU64Le]
  refine ⟨hblock _ _ ?_, h16 _ ?_, h16 _ ?_, h32 _ ?_, h32 _ ?_, hblock _ _ ?_, h16 _ ?_, h16 _ ?_,
    h16 _ ?_, h16 _ ?_, h64 _ ?_, h64 _ ?_, hblock _ _ ?_, hblock _ _ ?_, hblock _ _ ?_,
    hblock _ _ ?_, hblock _ _ ?_, hblock _ _ ?_, h64 _ ?_, by simp⟩ <;> decide

/-- The serialisation does not depend on the array it is written to. -/
theorem pvHeaderEncode_output (header : FileHeader) (out out' : Block pvFileHeaderLen) :
    pvHeaderEncode header out = pvHeaderEncode header out' := by
  ext1
  rw [bytes_pvHeaderEncode, bytes_pvHeaderEncode]

/-- Distinct headers have distinct serialisations. -/
theorem pvHeaderEncode_injective {h h' : FileHeader} {out out' : Block pvFileHeaderLen}
    (heq : pvHeaderEncode h out = pvHeaderEncode h' out') : h = h' := by
  rw [← parseHeader_pvHeaderEncode h out, heq, parseHeader_pvHeaderEncode]

/-- **The header codec is a bijection onto the accepted headers.** An accepted byte
string is the encoding of its header, a version 1.0 header decodes to itself from
whatever array it was encoded into, and the decoder accepts a byte string exactly
when its fields satisfy the constraints; otherwise it fails and the output header is
all zero. -/
theorem headerCodec_bijective :
    (∀ b out : Block pvFileHeaderLen, (pvHeaderDecode b).1 = .ok →
      pvHeaderEncode (pvHeaderDecode b).2 out = b) ∧
    (∀ (h : FileHeader) (out : Block pvFileHeaderLen), h.V1 →
      pvHeaderDecode (pvHeaderEncode h out) = (.ok, h)) ∧
    (∀ b : Block pvFileHeaderLen, (pvHeaderDecode b).1 = .ok →
      (pvHeaderDecode b).2 = parseHeader b.bytes ∧ (parseHeader b.bytes).V1) ∧
    (∀ b : Block pvFileHeaderLen, ¬(parseHeader b.bytes).V1 →
      (pvHeaderDecode b).1 ≠ .ok ∧ (pvHeaderDecode b).2 = FileHeader.zero) := by
  refine ⟨?_, ?_, ?_, ?_⟩
  · intro b out hok
    rcases pvHeaderDecode_cases b with ⟨-, h⟩ | ⟨-, hne, -⟩
    · rw [h]
      exact pvHeaderEncode_parseHeader b out
    · exact absurd hok hne
  · intro h out hv
    rcases pvHeaderDecode_cases (pvHeaderEncode h out) with ⟨-, hd⟩ | ⟨hnv, -, -⟩
    · rw [hd, parseHeader_pvHeaderEncode]
    · rw [parseHeader_pvHeaderEncode] at hnv
      exact absurd hv hnv
  · intro b hok
    rcases pvHeaderDecode_cases b with ⟨hv, h⟩ | ⟨-, hne, -⟩
    · rw [h]
      exact ⟨rfl, hv⟩
    · exact absurd hok hne
  · intro b hnv
    rcases pvHeaderDecode_cases b with ⟨hv, -⟩ | ⟨-, hne, hz⟩
    · exact absurd hv hnv
    · exact ⟨hne, hz⟩

end PVault
