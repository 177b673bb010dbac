import PVault.Body
import PVault.Rebuild
import PVault.Retention

/-!
# The snapshot that is written for a vault

`pv_crypto_encrypt_body` turns the encoded contents of a vault into a body and completes the
header; the two together are the snapshot. What `read_disk_file_at` reads of it is
`sealedDisk`, and `authenticateBackup_sealed` says that it validates as the backup of the
generation it holds.
-/

namespace PVault

open Binary Conc

variable {Hash : Type} {so : Sodium Hash}

/-- A header that encryption completes: of version 1 whatever its body fields are. -/
def FileHeader.Usable (header : FileHeader) : Prop :=
  FileHeader.V1 { header with bodyCiphertextLen := 4112 }

/-- A header of version 1 can be used again. -/
theorem FileHeader.V1.usable {header : FileHeader} (h : header.V1) : header.Usable :=
  { h with bodyLen_eq := ⟨1, Nat.le_refl 1, by decide, rfl⟩ }

/-- The body fields do not matter, for they are written anew. -/
theorem FileHeader.Usable.withBody {header : FileHeader} (h : header.Usable)
    {nonce : Block pvWrapNonceBytes} {len : UInt64} :
    FileHeader.Usable { header with bodyNonce := nonce, bodyCiphertextLen := len } := { h with }

/-- What the store reads back of a snapshot. -/
def sealedDisk (so : Sodium Hash) (header : FileHeader) (ciphertext : Bytes) (st : Stat) :
    DiskFile Hash :=
  ⟨pvHeaderEncode header (Block.zero _), header, ciphertext,
    so.generichash (serialized header ++ ciphertext), st⟩

@[simp] theorem sealedDisk_stat {header : FileHeader} {ciphertext : Bytes} {st : Stat} :
    (sealedDisk so header ciphertext st).stat = st := rfl

theorem sealedDisk_reads {header : FileHeader} {ciphertext : Bytes} (st : Stat) (hv : header.V1)
    (hlen : ciphertext.length = header.bodyCiphertextLen.toNat) :
    (sealedDisk so header ciphertext st).Reads so (serialized header ++ ciphertext) where
  bytes_eq := rfl
  decode_eq := by
    rcases pvHeaderDecode_cases (pvHeaderEncode header (Block.zero _)) with ⟨-, heq⟩ | ⟨hbad, -⟩
    · rw [parseHeader_pvHeaderEncode] at heq
      exact heq
    · rw [parseHeader_pvHeaderEncode] at hbad
      exact absurd hv hbad
  length_eq := hlen
  hash_eq := rfl

section Encrypted

variable {base header : FileHeader} {vmk : Block pvWrapKeyBytes} {plaintext ciphertext : Bytes}
  {draws : BodyDraws} {mem : BodyMemory}

/-- Encryption completes a usable header, and changes nothing but its body fields. -/
theorem pvCryptoEncryptBody_v1 (hbase : base.Usable)
    (henc : pvCryptoEncryptBody so base vmk plaintext draws mem = (.ok, header, ciphertext)) :
    header.V1 ∧ ciphertext.length = header.bodyCiphertextLen.toNat ∧
      header = { base with
        bodyNonce := header.bodyNonce, bodyCiphertextLen := header.bodyCiphertextLen } := by
  obtain ⟨hlen, hbody⟩ := pvCryptoEncryptBody_bodyLen henc
  obtain ⟨key, pages, -, -, -, hheader, -⟩ := pvCryptoEncryptBody_ok henc
  have hframe : header = { base with
      bodyNonce := header.bodyNonce, bodyCiphertextLen := header.bodyCiphertextLen } := by
    rw [hheader]
  refine ⟨?_, hlen.symm, hframe⟩
  rw [hframe]
  exact { hbase with bodyLen_eq := hbody }

/-- The memory and the environment in which a snapshot can be decoded. -/
structure OpenEnv.Grants (env : OpenEnv) : Prop where
  body_eq : env.body = .granted
  arena_eq : env.arena = .allocated
  vmk_eq : env.vmk = .allocated
  stream : StreamDecodes env.decode.streamDecode
  readonly_eq : env.decode.readonly = true

/-- **A snapshot validates as a backup** of the generation it holds, if its contents fit a
fresh vault. -/
theorem authenticateBackup_sealed (hcorrect : so.AeadCorrect) {payload : Payload}
    (haccepted : payload.Accepted)
    (hfits : rebuiltEnd (payload.records.map Record.lengths) ≤ pvArenaCapacity)
    (henc : pvCryptoEncryptBody so base vmk (payloadBytes payload) draws mem =
      (.ok, header, ciphertext)) {env : OpenEnv} (henv : env.Grants) (st : Stat) :
    authenticateBackup so env header.vaultId vmk payload.generation.toNat
      (sealedDisk so header ciphertext st) = .ok := by
  have hdecrypt := pvCryptoDecryptBody_encrypt hcorrect henc
  obtain ⟨fresh, hinit⟩ := pvModelInit_granted so.zeroHash (show ([0x2e] : Bytes).length < pathMax by decide)
  obtain ⟨vault, hdecode, hpayload⟩ :=
    ((pvModelInit_ok hinit).reload haccepted henv.stream henv.readonly_eq).1 hfits
  have hcbor : cborDecode env.decode (payloadBytes payload) fresh = (.ok, vault) := by
    rw [cborDecode]
    exact Option.get_of_eq_some _ hdecode
  have hgeneration : vault.generation = payload.generation := congrArg Payload.generation hpayload
  rw [authenticateBackup, sealedDisk, henv.body_eq, henv.arena_eq, henv.vmk_eq]
  simp only [hdecrypt, hinit, hcbor, hgeneration]
  simp

/-- The memory and the environment in which a snapshot can be opened. -/
structure UnlockEnv.Grants (env : UnlockEnv) : Prop extends env.toOpenEnv.Grants where
  buffer_eq : env.buffer = .allocated
  key_eq : env.key = .granted

/-- An open that nothing is missing for. -/
def openingEnv : UnlockEnv := ⟨⟨.granted, .allocated, .allocated, sampleEnv⟩, .allocated, .granted⟩

theorem openingEnv_grants : openingEnv.Grants := ⟨⟨rfl, rfl, rfl, streamDecodes_plain, rfl⟩, rfl, rfl⟩

/-- **A snapshot opens** with a credential that unwraps its key, if its contents fit a fresh vault. -/
theorem openDisk_decrypted {payload : Payload} (haccepted : payload.Accepted)
    (hfits : rebuiltEnd (payload.records.map Record.lengths) ≤ pvArenaCapacity)
    {disk : DiskFile Hash} {env : UnlockEnv} (henv : env.Grants) {path credential : Bytes}
    {recovery : Bool} (hpath : path.length < pathMax)
    (hunlock : unlockVmk so env disk.header credential recovery = (.ok, vmk))
    (hdecrypt : pvCryptoDecryptBody so disk.header vmk disk.ciphertext .granted =
      (.ok, payloadBytes payload)) :
    ∃ vault, openDisk so env path credential recovery disk = .ok (vault, disk.header) := by
  obtain ⟨fresh, hinit⟩ := pvModelInit_granted so.zeroHash hpath
  have hfresh : Fresh { fresh with
      vaultId := disk.header.vaultId, vmk := vmk, sourceHash := disk.hash } :=
    { pvModelInit_ok hinit with }
  obtain ⟨vault, hdecode, -⟩ := (hfresh.reload haccepted henv.stream henv.readonly_eq).1 hfits
  have hcbor := Option.get_of_eq_some (Option.isSome_iff_exists.mpr ⟨_, hdecode⟩) hdecode
  obtain ⟨-, payload', -, -, hdecoded⟩ := pvCborDecode_ok hfresh.capacity_pos hdecode
  refine ⟨vault, ?_⟩
  rw [openDisk, if_neg (fun h => h henv.buffer_eq), henv.body_eq, henv.arena_eq, henv.vmk_eq]
  simp only [hunlock, hdecrypt, hinit, cborDecode, hcbor]
  exact if_neg (fun h => h hdecoded.named.2)

end Encrypted

/-! ## Encoding and encrypting never warn -/

theorem firstFailure_ne {α : Type} {check : α → PvStatus} {bad : PvStatus} (hbad : bad ≠ .ok)
    (h : ∀ x, check x ≠ bad) (xs : List α) : firstFailure check xs ≠ bad := by
  induction xs with
  | nil => exact hbad.symm
  | cons x xs ih =>
    rw [firstFailure]
    split
    · exact ih
    · exact h x

theorem pvModelValidateRecord_ne_durability (record : Record Bytes) :
    pvModelValidateRecord record ≠ .errDurability := by
  have htext : ∀ maxLen s, validateText maxLen s ≠ .errDurability := by
    intro maxLen s
    rw [validateText]
    split_ifs <;> decide
  have hfield : ∀ field, validateField field ≠ .errDurability := by
    intro field
    rw [validateField]
    split_ifs <;> decide
  have hfields : validateRecordFields record ≠ .errDurability := by
    rw [validateRecordFields]
    split_ifs
    · decide
    · decide
    · exact firstFailure_ne (by decide) (htext _) _
    · exact firstFailure_ne (by decide) (htext _) _
    · exact firstFailure_ne (by decide) hfield _
  rw [pvModelValidateRecord]
  split_ifs
  · exact hfields
  · decide
  · decide

theorem pvCborEncode_ne_durability (vault : Vault Hash) (mem : Bool) :
    (pvCborEncode vault mem).1 ≠ .errDurability := by
  rw [pvCborEncode]
  split_ifs with htimes hdevice hrecords hmem
  · decide
  · decide
  · exact firstFailure_ne (by decide) pvModelValidateRecord_ne_durability _
  · decide
  · -- The writer fails only for want of room.
    obtain ⟨-, hfits, hfull⟩ := emits_encodePayload vault.payload
    have hstatus : (encodePayload vault.payload ⟨[], pvMaxPlaintext, .ok, by decide⟩).status = .ok ∨
        (encodePayload vault.payload ⟨[], pvMaxPlaintext, .ok, by decide⟩).status = .errLimit := by
      by_cases hlen : (payloadBytes vault.payload).length ≤ pvMaxPlaintext
      · left
        rw [hfits _ rfl (by rw [List.length_nil, Nat.zero_add]; exact hlen)]
      · exact .inr (hfull _ rfl (Nat.zero_le _)
          (by rw [List.length_nil, Nat.zero_add]; exact Nat.lt_of_not_le hlen))
    dsimp only
    split_ifs
    · rcases hstatus with h | h <;> rw [h] <;> decide
    · exact fun h => by cases h

theorem secureKeyAlloc_ne_durability (mem : SecureAlloc) : secureKeyAlloc mem ≠ .errDurability := by
  cases mem <;> decide

theorem pvCryptoEncryptBody_ne_durability (header : FileHeader) (vmk : Block pvWrapKeyBytes)
    (plaintext : Bytes) (draws : BodyDraws) (mem : BodyMemory) :
    (pvCryptoEncryptBody so header vmk plaintext draws mem).1 ≠ .errDurability := by
  rw [pvCryptoEncryptBody]
  split
  · exact fun h => by cases h
  · split
    · exact fun h => by cases h
    · split
      · exact fun h => by cases h
      · split
        · exact fun h => by cases h
        · split
          · exact secureKeyAlloc_ne_durability _
          · split
            · next h => exact fun hbad => bodyKey_refused h (.inr hbad)
            · split
              · exact fun h => by cases h
              · dsimp only
                split
                · exact fun h => by cases h
                · split
                  · exact fun h => by cases h
                  · exact fun h => by cases h

/-! ## Keyslots -/

theorem pvCryptoRewrapPassword_ne_durability (header : FileHeader) (password : Bytes)
    (vmk : Block pvWrapKeyBytes) (draws : PasswordDraws) (mem : KeyMemory) :
    (pvCryptoRewrapPassword so header password vmk draws mem).1 ≠ .errDurability := by
  rw [pvCryptoRewrapPassword]
  dsimp only
  split
  · exact secureKeyAlloc_ne_durability _
  · split
    · next h => exact fun hbad => passwordKey_refused h (.inr hbad)
    · split
      · next h => exact fun hbad => wrapVmk_refused h (.inr hbad)
      · exact nofun

theorem pvCryptoRewrapRecovery_ne_durability (header : FileHeader)
    (recoveryKey : Block pvRecoveryKeyBytes) (vmk : Block pvWrapKeyBytes)
    (nonce : Block pvWrapNonceBytes) (mem : KeyMemory) :
    (pvCryptoRewrapRecovery so header recoveryKey vmk nonce mem).1 ≠ .errDurability := by
  rw [pvCryptoRewrapRecovery]
  dsimp only
  split
  · exact secureKeyAlloc_ne_durability _
  · split
    · next h => exact fun hbad => recoveryWrapKey_refused h (.inr hbad)
    · split
      · next h => exact fun hbad => wrapVmk_refused h (.inr hbad)
      · exact nofun

theorem pvCryptoCreateHeader_ne_durability (header : FileHeader) (password : Bytes)
    (recoveryKey : Block pvRecoveryKeyBytes) (vmk : Block pvWrapKeyBytes) (draws : HeaderDraws)
    (mem mem' : KeyMemory) :
    (pvCryptoCreateHeader so header password recoveryKey vmk draws mem mem').1 ≠
      .errDurability := by
  rw [pvCryptoCreateHeader]
  split
  · exact pvCryptoRewrapRecovery_ne_durability _ _ _ _ _
  · next status header' _ h =>
    have hne : (pvCryptoRewrapPassword so (freshHeader header draws) password vmk draws.password mem).1 ≠
        .errDurability := pvCryptoRewrapPassword_ne_durability _ _ _ _ _
    rw [h] at hne
    exact hne

end PVault
