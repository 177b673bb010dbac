import PVault.Lib.Bump
import PVault.Header

/-!
# Keyslots and the encrypted body (`src/crypto.c`)

The vault master key is wrapped twice in the header, once under a key derived from
the password and once under a key derived from the recovery key. Each wrapping
authenticates a prefix of the serialised header: 76 bytes for the password slot, 44
for the recovery slot. The body is encrypted under a key derived from the master
key and authenticates the whole header.

libsodium is the parameter `Sodium`; random bytes and the outcome of memory
requests are arguments of the operations that ask for them.

Main results:

* `pvCryptoRewrapPassword_ok`, `pvCryptoRewrapRecovery_ok` — what a successful rewrap
  did, and the frame lemmas that say what no rewrap touches.
* `pvCryptoEncryptBody_ok` and `pvCryptoDecryptBody_ok` — what a successful body
  encryption and decryption did.
-/

namespace PVault

open Binary

/-! ## libsodium -/

/-- The libsodium functions the program calls, with `Hash` the type of its digests. -/
structure Sodium (Hash : Type) where
  /-- `crypto_generichash` -/
  generichash : Bytes → Hash
  /-- the all-zero digest -/
  zeroHash : Hash
  /-- `crypto_pwhash` with Argon2id: password, salt, passes, memory -/
  pwhash : Bytes → Block pvSaltBytes → UInt64 → UInt64 → Block pvWrapKeyBytes
  /-- `crypto_kdf_derive_from_key`: subkey number, context, key -/
  kdfDeriveFromKey : Nat → Bytes → Block pvWrapKeyBytes → Option (Block pvWrapKeyBytes)
  /-- `crypto_aead_xchacha20poly1305_ietf_encrypt`: key, nonce, associated data, message -/
  aeadEncrypt : Block pvWrapKeyBytes → Block pvWrapNonceBytes → Bytes → Bytes → Option Bytes
  /-- `crypto_aead_xchacha20poly1305_ietf_decrypt`: key, nonce, associated data, ciphertext -/
  aeadDecrypt : Block pvWrapKeyBytes → Block pvWrapNonceBytes → Bytes → Bytes → Option Bytes

/-- Decryption returns what was encrypted under the same key, nonce and associated data. -/
def Sodium.AeadCorrect {Hash : Type} (so : Sodium Hash) : Prop :=
  ∀ key nonce aad message ciphertext,
    so.aeadEncrypt key nonce aad message = some ciphertext →
      so.aeadDecrypt key nonce aad ciphertext = some message

/-- A toy instance whose digests are the messages themselves and whose tag is a prefix of
the key: enough to run the model on concrete inputs. -/
def Sodium.toy : Sodium Bytes where
  generichash := id
  zeroHash := List.replicate 32 0
  pwhash password salt _ _ := Block.ofBytes _ (password ++ salt.bytes)
  kdfDeriveFromKey n context key := some (Block.ofBytes _ (UInt8.ofNat n :: context ++ key.bytes))
  aeadEncrypt key _ _ message := some (message ++ key.bytes.take pvBodyTagBytes)
  aeadDecrypt key _ _ ciphertext :=
    if ciphertext.drop (ciphertext.length - pvBodyTagBytes) = key.bytes.take pvBodyTagBytes then
      some (ciphertext.take (ciphertext.length - pvBodyTagBytes))
    else
      none

theorem Sodium.toy_injective : Function.Injective Sodium.toy.generichash := fun _ _ h => h

theorem Sodium.toy_aeadCorrect : Sodium.toy.AeadCorrect := by
  intro key nonce aad message ciphertext h
  have htag : (key.bytes.take pvBodyTagBytes).length = pvBodyTagBytes := by
    rw [List.length_take, key.length_eq]
    rfl
  have hlen : ciphertext.length - pvBodyTagBytes = message.length := by
    rw [← Option.some.inj h, List.length_append, htag, Nat.add_sub_cancel]
  simp only [toy, hlen]
  rw [← Option.some.inj h, List.drop_left, List.take_left, if_pos rfl]

/-- `secure_key_alloc`: its status. -/
def secureKeyAlloc : SecureAlloc → PvStatus
  | .allocated => .ok
  | .noMemory => .errNomem
  | .notLocked => .errSecureMemory

/-- The memory a keyslot operation asks for. -/
structure KeyMemory where
  /-- the key buffer -/
  key : SecureAlloc
  /-- the memory of the password hash -/
  argon : Bool
  deriving DecidableEq

/-- All requests are granted. -/
def KeyMemory.granted : KeyMemory := ⟨.allocated, true⟩

/-- The memory a body operation asks for. -/
structure BodyMemory where
  /-- the key buffer -/
  key : SecureAlloc
  /-- the message buffers, and locking them -/
  buffers : Bool
  deriving DecidableEq

/-- All requests are granted. -/
def BodyMemory.granted : BodyMemory := ⟨.allocated, true⟩

/-- `crypto_pwhash_PASSWD_MAX`. -/
def pwhashPasswdMax : Nat := 4294967295
/-- `PV_PASSWORD_AAD_LEN`. -/
def pvPasswordAadLen : Nat := 76
/-- `PV_RECOVERY_AAD_LEN`. -/
def pvRecoveryAadLen : Nat := 44
/-- `body_kdf_context`: `PVBODY01`. -/
def bodyKdfContext : Bytes := [0x50, 0x56, 0x42, 0x4f, 0x44, 0x59, 0x30, 0x31]
/-- `recovery_kdf_context`: `PVRECV01`. -/
def recoveryKdfContext : Bytes := [0x50, 0x56, 0x52, 0x45, 0x43, 0x56, 0x30, 0x31]

section Operations

variable {Hash : Type} (so : Sodium Hash)

/-! ## Key derivation and wrapping -/

/-- `password_key`. -/
def passwordKey (slot : KeyslotPassword) (password : Bytes) (mem : KeyMemory) :
    Except PvStatus (Block pvWrapKeyBytes) :=
  if password.length = 0 ∨ password.length > pwhashPasswdMax ∨
      slot.opslimit < pvV1PasswordOpslimit ∨ slot.opslimit > pvV1PasswordOpslimitMax ∨
      slot.memlimit < pvV1PasswordMemlimit ∨ slot.memlimit > pvV1PasswordMemlimitMax then
    .error .errAuth
  else if mem.argon then
    .ok (so.pwhash password slot.salt slot.opslimit slot.memlimit)
  else
    .error .errSecureMemory

/-- `recovery_wrap_key`. -/
def recoveryWrapKey (recoveryKey : Block pvRecoveryKeyBytes) :
    Except PvStatus (Block pvWrapKeyBytes) :=
  match so.kdfDeriveFromKey 0 recoveryKdfContext recoveryKey with
  | some key => .ok key
  | none => .error .errState

/-- `body_key`. -/
def bodyKey (vmk : Block pvWrapKeyBytes) : Except PvStatus (Block pvWrapKeyBytes) :=
  match so.kdfDeriveFromKey 1 bodyKdfContext vmk with
  | some key => .ok key
  | none => .error .errState

/-- `wrap_vmk`. -/
def wrapVmk (aad : Bytes) (nonce : Block pvWrapNonceBytes) (key vmk : Block pvWrapKeyBytes) :
    Except PvStatus (Block pvWrappedVmkBytes) :=
  match so.aeadEncrypt key nonce aad vmk.bytes with
  | some wrapped =>
    if h : wrapped.length = pvWrappedVmkBytes then .ok ⟨wrapped, h⟩ else .error .errState
  | none => .error .errState

/-- `unwrap_vmk`: the status and the key buffer, zeroed on failure. -/
def unwrapVmk (aad : Bytes) (nonce : Block pvWrapNonceBytes) (key : Block pvWrapKeyBytes)
    (wrapped : Block pvWrappedVmkBytes) : PvStatus × Block pvWrapKeyBytes :=
  match so.aeadDecrypt key nonce aad wrapped.bytes with
  | some vmk =>
    if h : vmk.length = pvWrapKeyBytes then (.ok, ⟨vmk, h⟩) else (.errAuth, Block.zero _)
  | none => (.errAuth, Block.zero _)

/-- The stack buffer `serialized` after `pv_header_encode`; its previous content does
not matter (`pvHeaderEncode_output`). -/
def serialized (header : FileHeader) : Bytes := (pvHeaderEncode header (Block.zero _)).bytes

/-! ## Keyslots -/

/-- The random bytes of `pv_crypto_rewrap_password`. -/
structure PasswordDraws where
  salt : Block pvSaltBytes
  nonce : Block pvWrapNonceBytes

/-- `pv_crypto_rewrap_password`: the status and the header, whose cost, salt and nonce
are replaced even when a later step fails. -/
def pvCryptoRewrapPassword (header : FileHeader) (newPassword : Bytes)
    (vmk : Block pvWrapKeyBytes) (draws : PasswordDraws) (mem : KeyMemory) :
    PvStatus × FileHeader :=
  let header := { header with
    passwordSlot := { header.passwordSlot with
      opslimit := pvV1PasswordOpslimit
      memlimit := pvV1PasswordMemlimit
      salt := draws.salt
      nonce := draws.nonce } }
  if secureKeyAlloc mem.key ≠ .ok then
    (secureKeyAlloc mem.key, header)
  else
    match passwordKey so header.passwordSlot newPassword mem with
    | .error status => (status, header)
    | .ok key =>
      match wrapVmk so ((serialized header).take pvPasswordAadLen) header.passwordSlot.nonce key
          vmk with
      | .error status => (status, header)
      | .ok wrapped =>
        (.ok, { header with passwordSlot := { header.passwordSlot with wrappedVmk := wrapped } })

/-- `pv_crypto_rewrap_recovery`: the status and the header, whose nonce is replaced
even when a later step fails. -/
def pvCryptoRewrapRecovery (header : FileHeader) (recoveryKey : Block pvRecoveryKeyBytes)
    (vmk : Block pvWrapKeyBytes) (nonce : Block pvWrapNonceBytes) (mem : KeyMemory) :
    PvStatus × FileHeader :=
  let header := { header with recoverySlot := { header.recoverySlot with nonce := nonce } }
  if secureKeyAlloc mem.key ≠ .ok then
    (secureKeyAlloc mem.key, header)
  else
    match recoveryWrapKey so recoveryKey with
    | .error status => (status, header)
    | .ok key =>
      match wrapVmk so ((serialized header).take pvRecoveryAadLen) header.recoverySlot.nonce key
          vmk with
      | .error status => (status, header)
      | .ok wrapped =>
        (.ok, { header with recoverySlot := { header.recoverySlot with wrappedVmk := wrapped } })

/-- The random bytes of `pv_crypto_create_header`. -/
structure HeaderDraws where
  vaultId : Block pvVaultIdBytes
  password : PasswordDraws
  recoveryNonce : Block pvWrapNonceBytes

/-- The header before its keyslots are filled: the caller's vault id is kept unless it
is zero. -/
def freshHeader (requested : FileHeader) (draws : HeaderDraws) : FileHeader :=
  { FileHeader.zero with
    magic := pvMagic
    major := pvFileMajor
    minor := pvFileMinor
    headerLen := 252
    kdfId := pvKdfArgon2id13
    wrapAeadId := pvAeadXchacha20poly1305
    bodyAeadId := pvAeadXchacha20poly1305
    slotCount := 2
    vaultId := if requested.vaultId.bytes.any (· != 0) then requested.vaultId else draws.vaultId }

/-- `pv_crypto_create_header`. -/
def pvCryptoCreateHeader (header : FileHeader) (password : Bytes)
    (recoveryKey : Block pvRecoveryKeyBytes) (vmk : Block pvWrapKeyBytes) (draws : HeaderDraws)
    (passwordMem recoveryMem : KeyMemory) : PvStatus × FileHeader :=
  match pvCryptoRewrapPassword so (freshHeader header draws) password vmk draws.password
      passwordMem with
  | (.ok, header) => pvCryptoRewrapRecovery so header recoveryKey vmk draws.recoveryNonce recoveryMem
  | (status, header) => (status, header)

/-- `pv_crypto_unlock_password`, over the key buffer of the caller. -/
def pvCryptoUnlockPassword (header : FileHeader) (password : Bytes) (mem : KeyMemory)
    (vmk : Block pvWrapKeyBytes) : PvStatus × Block pvWrapKeyBytes :=
  if secureKeyAlloc mem.key ≠ .ok then
    (secureKeyAlloc mem.key, vmk)
  else
    match passwordKey so header.passwordSlot password mem with
    | .error status => (status, vmk)
    | .ok key =>
      unwrapVmk so ((serialized header).take pvPasswordAadLen) header.passwordSlot.nonce key
        header.passwordSlot.wrappedVmk

/-- `pv_crypto_unlock_recovery`, over the key buffer of the caller. -/
def pvCryptoUnlockRecovery (header : FileHeader) (recoveryKey : Block pvRecoveryKeyBytes)
    (mem : KeyMemory) (vmk : Block pvWrapKeyBytes) : PvStatus × Block pvWrapKeyBytes :=
  if secureKeyAlloc mem.key ≠ .ok then
    (secureKeyAlloc mem.key, vmk)
  else
    match recoveryWrapKey so recoveryKey with
    | .error status => (status, vmk)
    | .ok key =>
      unwrapVmk so ((serialized header).take pvRecoveryAadLen) header.recoverySlot.nonce key
        header.recoverySlot.wrappedVmk

/-! ## The body -/

/-- The random bytes of `pv_crypto_encrypt_body`. -/
structure BodyDraws where
  /-- the padding, for any length asked for -/
  padding : (n : Nat) → Block n
  nonce : Block pvWrapNonceBytes

/-- The page-aligned length of a body: `(raw_len + 4095) & ~4095`. -/
def paddedLen (rawLen : Nat) : Nat := (rawLen + 4095) &&& (sizeMax - 4095)

/-- `pv_crypto_encrypt_body`: the status, the header and the ciphertext buffer. The
header's body nonce and length are replaced even when a later step fails. -/
def pvCryptoEncryptBody (header : FileHeader) (vmk : Block pvWrapKeyBytes) (plaintext : Bytes)
    (draws : BodyDraws) (mem : BodyMemory) : PvStatus × FileHeader × Bytes :=
  if plaintext.length = 0 then
    (.errUsage, header, [])
  else
    match pvSizeAdd plaintext.length 4 with
    | none => (.errLimit, header, [])
    | some rawLen =>
      if rawLen > pvMaxPlaintext then
        (.errLimit, header, [])
      else if paddedLen rawLen = 0 ∨ paddedLen rawLen > pvMaxPlaintext then
        (.errLimit, header, [])
      else if secureKeyAlloc mem.key ≠ .ok then
        (secureKeyAlloc mem.key, header, [])
      else
        match bodyKey so vmk with
        | .error status => (status, header, [])
        | .ok key =>
          if mem.buffers = false then
            (.errSecureMemory, header, [])
          else
            let padded := putU32Le (UInt32.ofNat plaintext.length) ++ plaintext ++
              (draws.padding (paddedLen rawLen - rawLen)).bytes
            let header := { header with
              bodyNonce := draws.nonce
              bodyCiphertextLen := UInt64.ofNat (paddedLen rawLen + pvBodyTagBytes) }
            match so.aeadEncrypt key header.bodyNonce (serialized header) padded with
            | none => (.errState, header, [])
            | some ciphertext =>
              if ciphertext.length ≠ header.bodyCiphertextLen.toNat then
                (.errState, header, [])
              else
                (.ok, header, ciphertext)

/-- `pv_crypto_decrypt_body`: the status and the plaintext buffer. -/
def pvCryptoDecryptBody (header : FileHeader) (vmk : Block pvWrapKeyBytes) (ciphertext : Bytes)
    (mem : BodyMemory) : PvStatus × Bytes :=
  if ciphertext.length ≠ header.bodyCiphertextLen.toNat ∨
      ciphertext.length < 4096 + pvBodyTagBytes ∨
      (ciphertext.length - pvBodyTagBytes) % 4096 ≠ 0 then
    (.errFormat, [])
  else if secureKeyAlloc mem.key ≠ .ok then
    (secureKeyAlloc mem.key, [])
  else
    match bodyKey so vmk with
    | .error status => (status, [])
    | .ok key =>
      if mem.buffers = false then
        (.errSecureMemory, [])
      else
        match so.aeadDecrypt key header.bodyNonce (serialized header) ciphertext with
        | none => (.errAuth, [])
        | some decoded =>
          if decoded.length < 4 ∨ decoded.length > pvMaxPlaintext ∨ decoded.length % 4096 ≠ 0 then
            (.errFormat, [])
          else
            let contentLen := (getU32Le decoded 0).toNat
            if contentLen > decoded.length - 4 ∨ contentLen = 0 then
              (.errFormat, [])
            else
              (.ok, slice decoded 4 contentLen)

end Operations

/-! ## What the keyslots authenticate -/

theorem serialized_eq (header : FileHeader) : serialized header = fieldBytes (headerFields header) :=
  bytes_pvHeaderEncode header _

@[simp] theorem length_serialized (header : FileHeader) :
    (serialized header).length = pvFileHeaderLen := Block.length_bytes _

theorem serialized_injective {h h' : FileHeader} (heq : serialized h = serialized h') : h = h' :=
  pvHeaderEncode_injective (Block.ext heq)

/-- The password slot authenticates the first thirteen fields: everything up to its own
salt. -/
theorem passwordAad_eq (header : FileHeader) :
    (serialized header).take pvPasswordAadLen = fieldBytes ((headerFields header).take 13) := by
  rw [serialized_eq]
  refine take_fieldBytes ?_
  simp only [headerFields, Tiles, List.take_succ_cons, List.take_zero, Block.length_bytes,
    length_putU16Le, length_putU32Le, length_putU64Le]
  decide

/-- The recovery slot authenticates the first ten fields: everything before the slots. -/
theorem recoveryAad_eq (header : FileHeader) :
    (serialized header).take pvRecoveryAadLen = fieldBytes ((headerFields header).take 10) := by
  rw [serialized_eq]
  refine take_fieldBytes ?_
  simp only [headerFields, Tiles, List.take_succ_cons, List.take_zero, Block.length_bytes,
    length_putU16Le, length_putU32Le]
  decide

section Keyslots

variable {Hash : Type} {so : Sodium Hash}
variable {nonce : Block pvWrapNonceBytes} {key vmk : Block pvWrapKeyBytes} {status : PvStatus}
  {password : Bytes} {mem : KeyMemory} {header header' : FileHeader}
variable {aad plaintext ciphertext : Bytes} {slot : KeyslotPassword}
  {recoveryKey : Block pvRecoveryKeyBytes}

/-! ## Inversion of the keyslot operations -/

theorem wrapVmk_ok {wrapped : Block pvWrappedVmkBytes}
    (h : wrapVmk so aad nonce key vmk = .ok wrapped) :
    so.aeadEncrypt key nonce aad vmk.bytes = some wrapped.bytes := by
  unfold wrapVmk at h
  rcases henc : so.aeadEncrypt key nonce aad vmk.bytes with _ | out
  · rw [henc] at h
    cases h
  · rw [henc] at h
    dsimp only at h
    split at h
    · cases h
      rfl
    · cases h

theorem wrapVmk_refused (h : wrapVmk so aad nonce key vmk = .error status) :
    ¬status.Committed := by
  unfold wrapVmk at h
  split at h
  · split at h
    · cases h
    · cases h
      decide
  · cases h
    decide

theorem passwordKey_refused (h : passwordKey so slot password mem = .error status) :
    ¬status.Committed := by
  unfold passwordKey at h
  split at h
  · cases h
    decide
  · split at h
    · cases h
    · cases h
      decide

theorem recoveryWrapKey_refused (h : recoveryWrapKey so recoveryKey = .error status) :
    ¬status.Committed := by
  unfold recoveryWrapKey at h
  split at h
  · cases h
  · cases h
    decide

theorem bodyKey_refused (h : bodyKey so vmk = .error status) : ¬status.Committed := by
  unfold bodyKey at h
  split at h
  · cases h
  · cases h
    decide

/-- A password key that was derived once is derived again, whenever memory is granted. -/
theorem passwordKey_granted (h : passwordKey so slot password mem = .ok key) :
    passwordKey so slot password .granted = .ok key := by
  unfold passwordKey at h ⊢
  split at h
  · cases h
  · rename_i hvalid
    rw [if_neg hvalid]
    split at h
    · exact h
    · cases h

/-- What a successful password rewrap did: the slot holds the wrapping of the master key
under the new password, authenticated by the new header; nothing else changed. -/
theorem pvCryptoRewrapPassword_ok {draws : PasswordDraws}
    (h : pvCryptoRewrapPassword so header password vmk draws mem = (.ok, header')) :
    ∃ slot : KeyslotPassword, ∃ key : Block pvWrapKeyBytes,
      header' = { header with passwordSlot := slot } ∧
      passwordKey so slot password .granted = .ok key ∧
      so.aeadEncrypt key slot.nonce ((serialized header').take pvPasswordAadLen) vmk.bytes =
        some slot.wrappedVmk.bytes := by
  unfold pvCryptoRewrapPassword at h
  dsimp only at h
  split at h
  · rename_i hne
    exact absurd (Prod.mk.inj h).1 hne
  · split at h
    · rename_i status hkey
      exact absurd (Prod.mk.inj h).1 (PvStatus.ne_ok (passwordKey_refused hkey))
    · rename_i key hkey
      split at h
      · rename_i status hwrap
        exact absurd (Prod.mk.inj h).1 (PvStatus.ne_ok (wrapVmk_refused hwrap))
      · rename_i wrapped hwrap
        obtain ⟨-, rfl⟩ := Prod.mk.inj h
        refine ⟨_, key, rfl, passwordKey_granted hkey, ?_⟩
        -- the slot's wrapped key is not among the authenticated fields
        have henc := wrapVmk_ok hwrap
        rw [passwordAad_eq] at henc ⊢
        exact henc

/-- What a successful recovery rewrap did. -/
theorem pvCryptoRewrapRecovery_ok
    (h : pvCryptoRewrapRecovery so header recoveryKey vmk nonce mem = (.ok, header')) :
    ∃ slot : KeyslotRecovery, ∃ key : Block pvWrapKeyBytes,
      header' = { header with recoverySlot := slot } ∧
      recoveryWrapKey so recoveryKey = .ok key ∧
      so.aeadEncrypt key slot.nonce ((serialized header').take pvRecoveryAadLen) vmk.bytes =
        some slot.wrappedVmk.bytes := by
  unfold pvCryptoRewrapRecovery at h
  dsimp only at h
  split at h
  · rename_i hne
    exact absurd (Prod.mk.inj h).1 hne
  · split at h
    · rename_i status hkey
      exact absurd (Prod.mk.inj h).1 (PvStatus.ne_ok (recoveryWrapKey_refused hkey))
    · rename_i key hkey
      split at h
      · rename_i status hwrap
        exact absurd (Prod.mk.inj h).1 (PvStatus.ne_ok (wrapVmk_refused hwrap))
      · rename_i wrapped hwrap
        obtain ⟨-, rfl⟩ := Prod.mk.inj h
        refine ⟨_, key, rfl, hkey, ?_⟩
        have henc := wrapVmk_ok hwrap
        rw [recoveryAad_eq] at henc ⊢
        exact henc

variable (so) in
/-- A password rewrap, successful or not, touches the password slot only. -/
theorem pvCryptoRewrapPassword_frame (header : FileHeader) (password : Bytes)
    (vmk : Block pvWrapKeyBytes) (draws : PasswordDraws) (mem : KeyMemory) :
    ∃ slot, (pvCryptoRewrapPassword so header password vmk draws mem).2 =
      { header with passwordSlot := slot } := by
  unfold pvCryptoRewrapPassword
  dsimp only
  split
  · exact ⟨_, rfl⟩
  · split
    · exact ⟨_, rfl⟩
    · split
      · exact ⟨_, rfl⟩
      · exact ⟨_, rfl⟩

variable (so) in
/-- A recovery rewrap, successful or not, touches the recovery slot only. -/
theorem pvCryptoRewrapRecovery_frame (header : FileHeader) (recoveryKey : Block pvRecoveryKeyBytes)
    (vmk : Block pvWrapKeyBytes) (nonce : Block pvWrapNonceBytes) (mem : KeyMemory) :
    ∃ slot, (pvCryptoRewrapRecovery so header recoveryKey vmk nonce mem).2 =
      { header with recoverySlot := slot } := by
  unfold pvCryptoRewrapRecovery
  dsimp only
  split
  · exact ⟨_, rfl⟩
  · split
    · exact ⟨_, rfl⟩
    · split
      · exact ⟨_, rfl⟩
      · exact ⟨_, rfl⟩

/-! ## Inversion of the body operations -/

/-- The page alignment of a body, without the mask. -/
theorem paddedLen_eq {rawLen : Nat} (h : rawLen ≤ pvMaxPlaintext) :
    paddedLen rawLen = (rawLen + 4095) / 4096 * 4096 := by
  have hmax := pvMaxPlaintext_eq
  have hlt : rawLen + 4095 < 2 ^ 64 := by omega
  exact Bump.land_highMask (w := 64) (k := 12) (by omega) hlt

/-- **What a successful body encryption did**: it set the body nonce and the body length,
one to 512 pages and a tag, and encrypted a page-aligned frame of the plaintext under the
body key with the whole new header as associated data. -/
theorem pvCryptoEncryptBody_ok {draws : BodyDraws} {mem : BodyMemory}
    (h : pvCryptoEncryptBody so header vmk plaintext draws mem = (.ok, header', ciphertext)) :
    ∃ key pages, bodyKey so vmk = .ok key ∧ 1 ≤ pages ∧ pages ≤ 512 ∧
      header' = { header with
        bodyNonce := draws.nonce
        bodyCiphertextLen := UInt64.ofNat (pages * 4096 + pvBodyTagBytes) } ∧
      (∃ padding : Bytes, so.aeadEncrypt key draws.nonce (serialized header')
        (putU32Le (UInt32.ofNat plaintext.length) ++ plaintext ++ padding) = some ciphertext ∧
        4 + plaintext.length + padding.length = pages * 4096) ∧
      plaintext ≠ [] ∧ ciphertext.length = pages * 4096 + pvBodyTagBytes := by
  unfold pvCryptoEncryptBody at h
  split at h
  · cases h
  · rename_i hempty
    split at h
    · cases h
    · rename_i rawLen hraw
      have hrawLen : rawLen = plaintext.length + 4 := by
        unfold pvSizeAdd at hraw
        split at hraw
        · cases hraw
        · exact (Option.some.inj hraw).symm
      split at h
      · cases h
      · rename_i hmax
        split at h
        · cases h
        · rename_i hpad
          split at h
          · rename_i hne
            exact absurd (Prod.mk.inj h).1 hne
          · split at h
            · rename_i status hkey
              exact absurd (Prod.mk.inj h).1 (PvStatus.ne_ok (bodyKey_refused hkey))
            · rename_i key hkey
              split at h
              · cases h
              · dsimp only at h
                split at h
                · cases h
                · rename_i out henc
                  split at h
                  · cases h
                  · rename_i hlen
                    have hbound := pvMaxPlaintext_eq
                    have hpages := paddedLen_eq (Nat.not_lt.mp hmax)
                    obtain ⟨-, hh, rfl⟩ := by simpa only [Prod.mk.injEq] using h
                    refine ⟨key, (rawLen + 4095) / 4096, hkey, by omega, by omega, ?_, ?_, ?_, ?_⟩
                    · rw [← hh, hpages]
                    · refine ⟨_, by rw [← hh]; exact henc, ?_⟩
                      rw [Block.length_bytes]
                      omega
                    · intro hnil
                      exact hempty (by rw [hnil]; rfl)
                    · have := not_not.mp hlen
                      have hlt : paddedLen rawLen + pvBodyTagBytes < UInt64.size := by
                        have htag : pvBodyTagBytes = 16 := rfl
                        have hsize : UInt64.size = 2 ^ 64 := rfl
                        omega
                      rw [this, UInt64.toNat_ofNat_of_lt' hlt, hpages]

variable (so) in
/-- A body encryption, successful or not, touches the body nonce and the body length only. -/
theorem pvCryptoEncryptBody_frame (header : FileHeader) (vmk : Block pvWrapKeyBytes)
    (plaintext : Bytes) (draws : BodyDraws) (mem : BodyMemory) :
    ∃ nonce len, (pvCryptoEncryptBody so header vmk plaintext draws mem).2.1 =
      { header with bodyNonce := nonce, bodyCiphertextLen := len } := by
  unfold pvCryptoEncryptBody
  split
  · exact ⟨_, _, rfl⟩
  · split
    · exact ⟨_, _, rfl⟩
    · split
      · exact ⟨_, _, rfl⟩
      · split
        · exact ⟨_, _, rfl⟩
        · split
          · exact ⟨_, _, rfl⟩
          · split
            · exact ⟨_, _, rfl⟩
            · split
              · exact ⟨_, _, rfl⟩
              · dsimp only
                split
                · exact ⟨_, _, rfl⟩
                · split
                  · exact ⟨_, _, rfl⟩
                  · exact ⟨_, _, rfl⟩

/-- **What a successful body decryption did**: the ciphertext has the length the header
announces and decrypts under the body key with the whole header as associated data. -/
theorem pvCryptoDecryptBody_ok {mem : BodyMemory}
    (h : pvCryptoDecryptBody so header vmk ciphertext mem = (.ok, plaintext)) :
    ∃ key decoded, bodyKey so vmk = .ok key ∧
      ciphertext.length = header.bodyCiphertextLen.toNat ∧
      so.aeadDecrypt key header.bodyNonce (serialized header) ciphertext = some decoded ∧
      plaintext = slice decoded 4 (getU32Le decoded 0).toNat := by
  unfold pvCryptoDecryptBody at h
  split at h
  · cases h
  · rename_i hframe
    split at h
    · rename_i hne
      exact absurd (Prod.mk.inj h).1 hne
    · split at h
      · rename_i status hkey
        exact absurd (Prod.mk.inj h).1 (PvStatus.ne_ok (bodyKey_refused hkey))
      · rename_i key hkey
        split at h
        · cases h
        · split at h
          · cases h
          · rename_i decoded hdec
            split at h
            · cases h
            · dsimp only at h
              split at h
              · cases h
              · obtain ⟨-, rfl⟩ := Prod.mk.inj h
                exact ⟨key, decoded, hkey, by omega, hdec, rfl⟩

end Keyslots

end PVault
