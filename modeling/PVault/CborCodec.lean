import PVault.Cbor
import PVault.Stored

/-!
# The payload encoder (`src/cbor_codec.c`)

The plaintext of a snapshot is one CBOR map of a fixed shape. The encoder writes a vault's
tokens (`payloadTokens`) into a buffer of 2 MiB, and `pvCborEncode_valid` says exactly which
bytes those are. `PVault.CborRead` and `PVault.CborDecode` read the same shape back.
-/

namespace PVault

open Binary Bump

variable {mask : UInt64} {k : Nat}

/-! ## Times and flags -/

/-- `INT64_MAX`. -/
def int64Max : UInt64 := 9223372036854775807

theorem toUInt64_le_of_nonneg {t : Int64} (h : 0 ≤ t) : t.toUInt64 ≤ int64Max := by
  have hnonneg : (0 : Int) ≤ t.toInt := Int64.le_iff_toInt_le.mp h
  have htoInt : t.toInt = t.toUInt64.toBitVec.toInt := rfl
  have htoNat : t.toUInt64.toBitVec.toNat = t.toUInt64.toNat := rfl
  rw [htoInt, BitVec.toInt_eq_toNat_cond] at hnonneg
  refine UInt64.le_iff_toNat_le.mpr ?_
  show t.toUInt64.toNat ≤ 9223372036854775807
  split at hnonneg
  · omega
  · omega

theorem toInt64_nonneg {v : UInt64} (h : v ≤ int64Max) : 0 ≤ v.toInt64 := by
  have hle : v.toNat ≤ 9223372036854775807 := UInt64.le_iff_toNat_le.mp h
  have htoInt : v.toInt64.toInt = v.toBitVec.toInt := rfl
  have htoNat : v.toBitVec.toNat = v.toNat := rfl
  refine Int64.le_iff_toInt_le.mpr ?_
  rw [htoInt, BitVec.toInt_eq_toNat_cond, if_pos (by omega)]
  exact Int.natCast_nonneg _

/-- A flag word has no bit outside its `k` low ones exactly when it is below `2 ^ k`. -/
theorem flags32_known {f mask : UInt32} (hk : k ≤ 32) (hmask : mask.toNat = 2 ^ k - 1) :
    f &&& ~~~mask = 0 ↔ f.toNat < 2 ^ k := by
  have hland : (f &&& ~~~mask).toNat = f.toNat / 2 ^ k * 2 ^ k := by
    rw [UInt32.toNat_and, UInt32.toNat_not, hmask]
    exact land_highMask hk f.toNat_lt
  rw [← UInt32.toNat_inj, hland, ← Nat.div_eq_zero_iff_lt (Nat.two_pow_pos k)]
  exact ⟨fun h => (Nat.mul_eq_zero.mp h).resolve_right (Nat.two_pow_pos k).ne',
    fun h => by rw [h, Nat.zero_mul]; rfl⟩

theorem flags64_known {f : UInt64} (hk : k ≤ 64) (hmask : mask.toNat = 2 ^ k - 1) :
    f &&& ~~~mask = 0 ↔ f.toNat < 2 ^ k := by
  have hland : (f &&& ~~~mask).toNat = f.toNat / 2 ^ k * 2 ^ k := by
    rw [UInt64.toNat_and, UInt64.toNat_not, hmask]
    exact land_highMask hk f.toNat_lt
  rw [← UInt64.toNat_inj, hland, ← Nat.div_eq_zero_iff_lt (Nat.two_pow_pos k)]
  exact ⟨fun h => (Nat.mul_eq_zero.mp h).resolve_right (Nat.two_pow_pos k).ne',
    fun h => by rw [h, Nat.zero_mul]; rfl⟩

/-- The decoder's check of a flag word: a 32-bit value without unknown bits. -/
def flagsAccepted (value mask : UInt64) : Bool := value ≤ 0xffffffff && value &&& ~~~mask == 0

theorem flagsAccepted_of_known {f : UInt32} {mask32 : UInt32} (hk : k ≤ 32)
    (hmask32 : mask32.toNat = 2 ^ k - 1) (hmask : mask.toNat = 2 ^ k - 1)
    (h : f &&& ~~~mask32 = 0) : flagsAccepted f.toUInt64 mask = true := by
  have hlt := (flags32_known hk hmask32).mp h
  have hf := f.toNat_lt
  rw [flagsAccepted, Bool.and_eq_true, decide_eq_true_eq, beq_iff_eq]
  refine ⟨UInt64.le_iff_toNat_le.mpr ?_, (flags64_known (by omega) hmask).mpr ?_⟩
  · rw [UInt32.toNat_toUInt64]
    show f.toNat ≤ 4294967295
    omega
  · rw [UInt32.toNat_toUInt64]
    exact hlt

theorem known_of_flagsAccepted {v : UInt64} (mask32 : UInt32) (hk : k ≤ 32)
    (hmask32 : mask32.toNat = 2 ^ k - 1) (hmask : mask.toNat = 2 ^ k - 1)
    (h : flagsAccepted v mask = true) :
    v.toUInt32 &&& ~~~mask32 = 0 ∧ v.toUInt32.toUInt64 = v := by
  rw [flagsAccepted, Bool.and_eq_true, decide_eq_true_eq, beq_iff_eq] at h
  have hle : v.toNat ≤ 4294967295 := UInt64.le_iff_toNat_le.mp h.1
  have hlt := (flags64_known (by omega) hmask).mp h.2
  have hcast : v.toUInt32.toNat = v.toNat := by
    rw [UInt64.toNat_toUInt32]
    exact Nat.mod_eq_of_lt (by omega)
  refine ⟨(flags32_known hk hmask32).mpr (by rw [hcast]; exact hlt), ?_⟩
  apply UInt64.toNat_inj.mp
  rw [UInt32.toNat_toUInt64, hcast]

/-! ## The encoder -/

/-- `PV_CBOR_SCHEMA_VERSION`. -/
def pvCborSchemaVersion : UInt64 := 1

/-- `encode_field`. -/
def encodeField (field : CustomField Bytes) : CborWriter → CborWriter :=
  writerAll
    [writerMap 3,
      writerUint 0, writerBlob 3 field.name,
      writerUint 1, writerBlob 2 field.value,
      writerUint 2, writerUint field.flags.toUInt64]

/-- `encode_record`. -/
def encodeRecord (record : Record Bytes) : CborWriter → CborWriter :=
  writerAll
    [writerMap 12,
      writerUint 0, writerBlob 2 record.id.bytes,
      writerUint 1, writerUint record.revision,
      writerUint 2, writerUint record.createdMs.toUInt64,
      writerUint 3, writerUint record.updatedMs.toUInt64,
      writerUint 4, writerUint record.flags.toUInt64,
      writerUint 5, writerBlob 3 record.title,
      writerUint 6, writerBlob 3 record.username,
      writerUint 7, writerBlob 2 record.password,
      writerUint 8, writerArray record.urls.length, writeEach (writerBlob 3) record.urls,
      writerUint 9, writerBlob 3 record.notes,
      writerUint 10, writerArray record.tags.length, writeEach (writerBlob 3) record.tags,
      writerUint 11, writerArray record.fields.length, writeEach encodeField record.fields]

/-- The contents of a payload. -/
structure Payload where
  generation : UInt64
  deviceId : Block pvDeviceIdBytes
  createdMs : Int64
  updatedMs : Int64
  records : List (Record Bytes)

/-- The writes of `pv_cbor_encode`. -/
def encodePayload (payload : Payload) : CborWriter → CborWriter :=
  writerAll
    [writerMap 6,
      writerUint 0, writerUint pvCborSchemaVersion,
      writerUint 1, writerUint payload.generation,
      writerUint 2, writerBlob 2 payload.deviceId.bytes,
      writerUint 3, writerUint payload.createdMs.toUInt64,
      writerUint 4, writerUint payload.updatedMs.toUInt64,
      writerUint 5, writerArray payload.records.length, writeEach encodeRecord payload.records]

/-- The contents of a vault. -/
def Vault.payload {Hash : Type} (vault : Vault Hash) : Payload :=
  ⟨vault.generation, vault.deviceId, vault.createdMs, vault.updatedMs, vault.view⟩

/-- `pv_cbor_encode`: the status and the output buffer; `mem` is the answer to its request
for secret memory. -/
def pvCborEncode {Hash : Type} (vault : Vault Hash) (mem : Bool) : PvStatus × Bytes :=
  if vault.createdMs < 0 ∨ vault.updatedMs < 0 then (.errUsage, [])
  else if bytesAllZero vault.deviceId.bytes then (.errFormat, [])
  else if firstFailure pvModelValidateRecord vault.view ≠ .ok then
    (firstFailure pvModelValidateRecord vault.view, [])
  else if mem = false then (.errSecureMemory, [])
  else
    let writer := encodePayload vault.payload ⟨[], pvMaxPlaintext, .ok, by decide⟩
    if writer.status ≠ .ok then (writer.status, []) else (.ok, writer.data)

/-! ## The tokens of a payload

One group for each write of the encoder. -/

/-- The tokens of a custom field. -/
def fieldTokens (field : CustomField Bytes) : List CborToken :=
  List.flatten
    [[.head 5 (UInt64.ofNat 3)],
      [.head 0 0], [.blob 3 field.name],
      [.head 0 1], [.blob 2 field.value],
      [.head 0 2], [.head 0 field.flags.toUInt64]]

/-- The tokens of a list of texts. -/
def textTokens (texts : List Bytes) : List CborToken := texts.flatMap fun s => [.blob 3 s]

/-- The tokens of a record. -/
def recordTokens (record : Record Bytes) : List CborToken :=
  List.flatten
    [[.head 5 (UInt64.ofNat 12)],
      [.head 0 0], [.blob 2 record.id.bytes],
      [.head 0 1], [.head 0 record.revision],
      [.head 0 2], [.head 0 record.createdMs.toUInt64],
      [.head 0 3], [.head 0 record.updatedMs.toUInt64],
      [.head 0 4], [.head 0 record.flags.toUInt64],
      [.head 0 5], [.blob 3 record.title],
      [.head 0 6], [.blob 3 record.username],
      [.head 0 7], [.blob 2 record.password],
      [.head 0 8], [.head 4 (UInt64.ofNat record.urls.length)], textTokens record.urls,
      [.head 0 9], [.blob 3 record.notes],
      [.head 0 10], [.head 4 (UInt64.ofNat record.tags.length)], textTokens record.tags,
      [.head 0 11], [.head 4 (UInt64.ofNat record.fields.length)],
        record.fields.flatMap fieldTokens]

/-- The tokens of a payload. -/
def payloadTokens (payload : Payload) : List CborToken :=
  List.flatten
    [[.head 5 (UInt64.ofNat 6)],
      [.head 0 0], [.head 0 pvCborSchemaVersion],
      [.head 0 1], [.head 0 payload.generation],
      [.head 0 2], [.blob 2 payload.deviceId.bytes],
      [.head 0 3], [.head 0 payload.createdMs.toUInt64],
      [.head 0 4], [.head 0 payload.updatedMs.toUInt64],
      [.head 0 5], [.head 4 (UInt64.ofNat payload.records.length)],
        payload.records.flatMap recordTokens]

theorem emits_encodeField (field : CustomField Bytes) :
    Emits (encodeField field) (fieldTokens field) :=
  emits_writerAll (.cons (emits_writerMap 3) (.cons (emits_writerUint 0)
    (.cons (emits_writerBlob 3 field.name) (.cons (emits_writerUint 1)
      (.cons (emits_writerBlob 2 field.value) (.cons (emits_writerUint 2)
        (.cons (emits_writerUint _) .nil)))))))

theorem emits_encodeRecord (record : Record Bytes) :
    Emits (encodeRecord record) (recordTokens record) := by
  have text : ∀ texts, Emits (writeEach (writerBlob 3) texts) (textTokens texts) :=
    emits_writeEach fun s => emits_writerBlob 3 s
  exact emits_writerAll (.cons (emits_writerMap 12)
    (.cons (emits_writerUint 0) (.cons (emits_writerBlob 2 _)
    (.cons (emits_writerUint 1) (.cons (emits_writerUint _)
    (.cons (emits_writerUint 2) (.cons (emits_writerUint _)
    (.cons (emits_writerUint 3) (.cons (emits_writerUint _)
    (.cons (emits_writerUint 4) (.cons (emits_writerUint _)
    (.cons (emits_writerUint 5) (.cons (emits_writerBlob 3 _)
    (.cons (emits_writerUint 6) (.cons (emits_writerBlob 3 _)
    (.cons (emits_writerUint 7) (.cons (emits_writerBlob 2 _)
    (.cons (emits_writerUint 8) (.cons (emits_writerArray _) (.cons (text _)
    (.cons (emits_writerUint 9) (.cons (emits_writerBlob 3 _)
    (.cons (emits_writerUint 10) (.cons (emits_writerArray _) (.cons (text _)
    (.cons (emits_writerUint 11) (.cons (emits_writerArray _)
    (.cons (emits_writeEach emits_encodeField _) .nil))))))))))))))))))))))))))))

theorem emits_encodePayload (payload : Payload) :
    Emits (encodePayload payload) (payloadTokens payload) :=
  emits_writerAll (.cons (emits_writerMap 6)
    (.cons (emits_writerUint 0) (.cons (emits_writerUint _)
    (.cons (emits_writerUint 1) (.cons (emits_writerUint _)
    (.cons (emits_writerUint 2) (.cons (emits_writerBlob 2 _)
    (.cons (emits_writerUint 3) (.cons (emits_writerUint _)
    (.cons (emits_writerUint 4) (.cons (emits_writerUint _)
    (.cons (emits_writerUint 5) (.cons (emits_writerArray _)
    (.cons (emits_writeEach emits_encodeRecord _) .nil))))))))))))))

/-- The bytes of a payload. -/
def payloadBytes (payload : Payload) : Bytes := tokensBytes (payloadTokens payload)

/-- What the encoder accepts. -/
structure Payload.Valid (payload : Payload) : Prop where
  created_nonneg : 0 ≤ payload.createdMs
  updated_nonneg : 0 ≤ payload.updatedMs
  deviceId_ne : bytesAllZero payload.deviceId.bytes = false
  records_valid : ∀ r ∈ payload.records, pvModelValidateRecord r = .ok

/-- **The encoder writes the tokens of a valid payload**, or fails with `PV_ERR_LIMIT` when
they do not fit 2 MiB. -/
theorem pvCborEncode_valid {Hash : Type} {vault : Vault Hash} (hvalid : vault.payload.Valid) :
    pvCborEncode vault true =
      if (payloadBytes vault.payload).length ≤ pvMaxPlaintext then
        (.ok, payloadBytes vault.payload)
      else (.errLimit, []) := by
  have hrecords : firstFailure pvModelValidateRecord vault.view = .ok :=
    firstFailure_ok.mpr hvalid.records_valid
  have htimes : ¬(vault.createdMs < 0 ∨ vault.updatedMs < 0) := by
    rw [not_or, Int64.not_lt, Int64.not_lt]
    exact ⟨hvalid.created_nonneg, hvalid.updated_nonneg⟩
  have hdevice : ¬bytesAllZero vault.deviceId.bytes = true := by
    rw [Bool.not_eq_true]
    exact hvalid.deviceId_ne
  obtain ⟨-, hfits, hfull⟩ := emits_encodePayload vault.payload
  rw [pvCborEncode, if_neg htimes, if_neg hdevice, if_neg (not_not.mpr hrecords),
    if_neg (by decide)]
  dsimp only
  by_cases hlen : (payloadBytes vault.payload).length ≤ pvMaxPlaintext
  · rw [hfits ⟨[], pvMaxPlaintext, .ok, by decide⟩ rfl (by rw [List.length_nil, Nat.zero_add]; exact hlen),
      if_neg (fun hne => hne rfl), if_pos hlen]
    rfl
  · have hlimit := hfull ⟨[], pvMaxPlaintext, .ok, by decide⟩ rfl (Nat.zero_le _)
      (by rw [List.length_nil, Nat.zero_add]; exact Nat.lt_of_not_le hlen)
    rw [if_neg hlen, hlimit, if_pos (by decide)]

/-- A successful encoding is the payload's bytes, of a valid payload that fits. -/
theorem pvCborEncode_ok {Hash : Type} {vault : Vault Hash} {mem : Bool} {out : Bytes}
    (h : pvCborEncode vault mem = (.ok, out)) :
    vault.payload.Valid ∧ out = payloadBytes vault.payload ∧ out.length ≤ pvMaxPlaintext := by
  have hvalid : vault.payload.Valid := by
    rw [pvCborEncode] at h
    split_ifs at h with htimes hdevice hrecords hmem
    · cases h
    · cases h
    · exact absurd (Prod.mk.inj h).1 hrecords
    · cases h
    · rw [not_or, Int64.not_lt, Int64.not_lt] at htimes
      rw [Bool.not_eq_true] at hdevice
      exact ⟨htimes.1, htimes.2, hdevice, firstFailure_ok.mp (not_not.mp hrecords)⟩
  have hmem : mem = true := by
    by_contra hmem
    rw [pvCborEncode] at h
    split_ifs at h with htimes hdevice hrecords hmem'
    · cases h
    · cases h
    · exact absurd (Prod.mk.inj h).1 hrecords
    · cases h
    · exact hmem' (by simpa using hmem)
  rw [hmem, pvCborEncode_valid hvalid] at h
  split_ifs at h with hlen
  · obtain ⟨-, rfl⟩ := Prod.mk.inj h
    exact ⟨hvalid, rfl, hlen⟩
  · cases h

end PVault
