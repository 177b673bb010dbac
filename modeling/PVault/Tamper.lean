import PVault.Rewind
import PVault.Rotation

/-!
# Whole-file tamper evidence

The body authenticates all 252 bytes of the header, the keyslots authenticate shorter parts
of it, and a file has exactly the length its header announces. So with an ideal AEAD, one
whose decryption succeeds only on what an encryption produced, a file that opens is byte for
byte a snapshot that `pv_crypto_encrypt_body` and `pv_header_encode` produced.

* `openDisk_genuine` — the argument, for one file.
* `opens_only_genuine` — the same for both ways to open a vault, and what it means for
  changed, truncated, extended and spliced files.
-/

namespace PVault

open Binary Conc

/-! ## An ideal AEAD -/

/-- The calls of the program that encrypt something. -/
inductive SealCall : Type where
  | rewrapPassword (header : FileHeader) (password : Bytes) (vmk : Block pvWrapKeyBytes)
      (draws : PasswordDraws) (mem : KeyMemory)
  | rewrapRecovery (header : FileHeader) (recoveryKey : Block pvRecoveryKeyBytes)
      (vmk : Block pvWrapKeyBytes) (nonce : Block pvWrapNonceBytes) (mem : KeyMemory)
  | encryptBody (header : FileHeader) (vmk : Block pvWrapKeyBytes) (plaintext : Bytes)
      (draws : BodyDraws) (mem : BodyMemory)

/-- The key, nonce, associated data and ciphertext of the encryption a successful call made. -/
inductive SealCall.Produces {Hash : Type} (so : Sodium Hash) :
    SealCall → Block pvWrapKeyBytes → Block pvWrapNonceBytes → Bytes → Bytes → Prop
  | password {header header' : FileHeader} {password : Bytes} {vmk key : Block pvWrapKeyBytes}
      {draws : PasswordDraws} {mem : KeyMemory}
      (h : pvCryptoRewrapPassword so header password vmk draws mem = (.ok, header'))
      (hkey : passwordKey so header'.passwordSlot password mem = .ok key) :
      Produces so (.rewrapPassword header password vmk draws mem) key header'.passwordSlot.nonce
        ((serialized header').take pvPasswordAadLen) header'.passwordSlot.wrappedVmk.bytes
  | recovery {header header' : FileHeader} {recoveryKey : Block pvRecoveryKeyBytes}
      {vmk key : Block pvWrapKeyBytes} {nonce : Block pvWrapNonceBytes} {mem : KeyMemory}
      (h : pvCryptoRewrapRecovery so header recoveryKey vmk nonce mem = (.ok, header'))
      (hkey : recoveryWrapKey so recoveryKey = .ok key) :
      Produces so (.rewrapRecovery header recoveryKey vmk nonce mem) key header'.recoverySlot.nonce
        ((serialized header').take pvRecoveryAadLen) header'.recoverySlot.wrappedVmk.bytes
  | body {header header' : FileHeader} {vmk key : Block pvWrapKeyBytes}
      {plaintext ciphertext : Bytes} {draws : BodyDraws} {mem : BodyMemory}
      (h : pvCryptoEncryptBody so header vmk plaintext draws mem = (.ok, header', ciphertext))
      (hkey : bodyKey so vmk = .ok key) :
      Produces so (.encryptBody header vmk plaintext draws mem) key header'.bodyNonce
        (serialized header') ciphertext

/-- **The ideal AEAD**: decryption under a key succeeds only on what one of the calls made so
far produced under that key. -/
def Sodium.Ideal {Hash : Type} (so : Sodium Hash) (calls : SealCall → Prop) : Prop :=
  ∀ key nonce aad ciphertext message, so.aeadDecrypt key nonce aad ciphertext = some message →
    ∃ call, calls call ∧ call.Produces so key nonce aad ciphertext

/-- A snapshot: the serialised header and the ciphertext that a body encryption under the
master key returned. -/
def Genuine {Hash : Type} (so : Sodium Hash) (calls : SealCall → Prop) (vmk : Block pvWrapKeyBytes)
    (file : Bytes) : Prop :=
  ∃ header plaintext draws mem header' ciphertext,
    calls (.encryptBody header vmk plaintext draws mem) ∧
    pvCryptoEncryptBody so header vmk plaintext draws mem = (.ok, header', ciphertext) ∧
    file = (pvHeaderEncode header' (Block.zero _)).bytes ++ ciphertext

/-- Nonces and ciphertexts do not repeat: two snapshots with the same header, or with the same
ciphertext, are the same. -/
def FreshSeals {Hash : Type} (so : Sodium Hash) (calls : SealCall → Prop) : Prop :=
  ∀ vmk vmk' file file', Genuine so calls vmk file → Genuine so calls vmk' file' →
    file.take pvFileHeaderLen = file'.take pvFileHeaderLen ∨
      file.drop pvFileHeaderLen = file'.drop pvFileHeaderLen → file = file'

section Files

variable {Hash : Type} {so : Sodium Hash} {calls : SealCall → Prop}
variable {disk : DiskFile Hash} {data : Bytes} {vmk : Block pvWrapKeyBytes} {header : FileHeader}
variable {file path credential : Bytes} {env : UnlockEnv} {recovery : Bool} {vault : Vault Hash}

/-- The header of a snapshot on disk serialises to the bytes it was read from. -/
theorem DiskFile.Reads.serialized_eq (h : disk.Reads so data) :
    serialized disk.header = disk.headerBytes.bytes := by
  rcases pvHeaderDecode_cases disk.headerBytes with ⟨-, heq⟩ | ⟨-, hne, -⟩
  · rw [h.decode_eq] at heq
    rw [(Prod.mk.inj heq).2, serialized, pvHeaderEncode_parseHeader]
  · exact absurd (congrArg Prod.fst h.decode_eq) hne

/-- The length of a snapshot is the one its header announces. -/
theorem Genuine.length_eq (h : Genuine so calls vmk file) :
    ∃ header', file.take pvFileHeaderLen = serialized header' ∧
      file.length = pvFileHeaderLen + header'.bodyCiphertextLen.toNat := by
  obtain ⟨header, plaintext, draws, mem, header', ciphertext, -, henc, hfile⟩ := h
  have hfile' : file = serialized header' ++ ciphertext := hfile
  refine ⟨header', ?_, ?_⟩
  · rw [hfile', List.take_left' (length_serialized header')]
  · rw [hfile', List.length_append, length_serialized, (pvCryptoEncryptBody_bodyLen henc).1]

/-- A file that is read as a snapshot and starts like a genuine one is as long. -/
theorem DiskFile.Reads.length_genuine (h : disk.Reads so data) (hfile : Genuine so calls vmk file)
    (hstart : data.take pvFileHeaderLen = file.take pvFileHeaderLen) :
    data.length = file.length := by
  obtain ⟨header', htake, hlen⟩ := hfile.length_eq
  have hhead : serialized disk.header = serialized header' := by
    rw [h.serialized_eq, ← htake, ← hstart, ← h.bytes_eq, DiskFile.bytes,
      List.take_left' disk.headerBytes.length_eq]
  rw [hlen, h.data_length, serialized_injective hhead]

/-- The associated data of a keyslot is shorter than a header. -/
theorem SealCall.Produces.body_of_length {call : SealCall} {key : Block pvWrapKeyBytes}
    {nonce : Block pvWrapNonceBytes} {ciphertext : Bytes}
    (h : call.Produces so key nonce (serialized header) ciphertext) :
    ∃ header₀ vmk plaintext draws mem, call = .encryptBody header₀ vmk plaintext draws mem ∧
      bodyKey so vmk = .ok key ∧
      pvCryptoEncryptBody so header₀ vmk plaintext draws mem = (.ok, header, ciphertext) := by
  have hlen := length_serialized header
  generalize haad : serialized header = aad at h hlen
  cases h with
  | password h hkey =>
    rw [List.length_take, length_serialized] at hlen
    exact absurd hlen (by decide)
  | recovery h hkey =>
    rw [List.length_take, length_serialized] at hlen
    exact absurd hlen (by decide)
  | body h hkey =>
    rw [serialized_injective haad]
    exact ⟨_, _, _, _, _, rfl, hkey, h⟩

/-- **One file.** If a file opens, a body encryption produced exactly its bytes, under a
master key with the body key of the one that the file's own keyslot unwraps to. -/
theorem openDisk_genuine (hideal : so.Ideal calls) (hread : disk.Reads so data)
    (h : openDisk so env path credential recovery disk = .ok (vault, header)) :
    ∃ vmk vmk' key, Unwraps so disk.header credential recovery vmk ∧ bodyKey so vmk = .ok key ∧
      bodyKey so vmk' = .ok key ∧ Genuine so calls vmk' data := by
  obtain ⟨-, vmk, plaintext, start, hunlock, hdecrypt, -, -⟩ := openDisk_ok h
  obtain ⟨key, decoded, hkey, hlen, hdec, -⟩ := pvCryptoDecryptBody_ok hdecrypt
  obtain ⟨call, hcall, hproduces⟩ := hideal _ _ _ _ _ hdec
  obtain ⟨header₀, vmk', plaintext', draws, mem, rfl, hkey', henc⟩ := hproduces.body_of_length
  refine ⟨vmk, vmk', key, ⟨env, hunlock⟩, hkey, hkey', ?_⟩
  refine ⟨header₀, plaintext', draws, mem, disk.header, disk.ciphertext, hcall, henc, ?_⟩
  rw [← hread.bytes_eq, DiskFile.bytes]
  exact congrArg (· ++ disk.ciphertext) hread.serialized_eq.symm

/-! ## Opening a vault -/

/-- What an accepted file is: a genuine snapshot under the master key that its own keyslot
unwraps to (up to the derivation of the body key). It is not a genuine snapshot cut short or
extended, and if nonces and ciphertexts are fresh it shares its header or its body with no
genuine snapshot but itself. -/
structure Authentic (so : Sodium Hash) (calls : SealCall → Prop) (credential : Bytes)
    (recovery : Bool) (header : FileHeader) (file : Bytes) : Prop where
  genuine : ∃ vmk vmk', Unwraps so header credential recovery vmk ∧
    bodyKey so vmk' = bodyKey so vmk ∧ Genuine so calls vmk' file ∧
    (Function.Injective (so.kdfDeriveFromKey 1 bodyKdfContext) → vmk' = vmk)
  not_cut : ∀ vmk whole rest, Genuine so calls vmk whole → whole = file ++ rest → rest = []
  not_extended : ∀ vmk whole rest, Genuine so calls vmk whole → file = whole ++ rest → rest = []
  not_spliced : FreshSeals so calls → ∀ vmk whole, Genuine so calls vmk whole →
    whole.take pvFileHeaderLen = file.take pvFileHeaderLen ∨
      whole.drop pvFileHeaderLen = file.drop pvFileHeaderLen → whole = file

theorem bodyKey_injective (hkdf : Function.Injective (so.kdfDeriveFromKey 1 bodyKdfContext))
    {vmk' : Block pvWrapKeyBytes} {key : Block pvWrapKeyBytes} (h : bodyKey so vmk = .ok key)
    (h' : bodyKey so vmk' = .ok key) : vmk' = vmk := by
  rw [bodyKey] at h h'
  refine hkdf ?_
  split at h
  · next k hk =>
    split at h'
    · next k' hk' =>
      cases h
      cases h'
      rw [hk, hk']
    · cases h'
  · cases h

theorem openDisk_authentic (hideal : so.Ideal calls) (hread : disk.Reads so data)
    (h : openDisk so env path credential recovery disk = .ok (vault, header)) :
    Authentic so calls credential recovery header data := by
  obtain ⟨rfl, -⟩ := openDisk_ok h
  obtain ⟨vmk, vmk', key, hunwraps, hkey, hkey', hgenuine⟩ := openDisk_genuine hideal hread h
  have hlong : pvFileHeaderLen ≤ data.length := by
    rw [hread.data_length]
    exact Nat.le_add_right _ _
  refine ⟨⟨vmk, vmk', hunwraps, hkey'.trans hkey.symm, hgenuine, fun hkdf =>
      bodyKey_injective hkdf hkey hkey'⟩, fun vmk₁ whole rest hwhole heq => ?_,
    fun vmk₁ whole rest hwhole heq => ?_, fun hfresh vmk₁ whole hwhole hsame =>
      hfresh _ _ _ _ hwhole hgenuine hsame⟩
  · have hlen := hread.length_genuine hwhole (by rw [heq, List.take_append_of_le_length hlong])
    rw [heq, List.length_append] at hlen
    exact List.length_eq_zero_iff.mp (by omega)
  · obtain ⟨header', -, hwholeLen⟩ := hwhole.length_eq
    have hlen := hread.length_genuine hwhole
      (by rw [heq, List.take_append_of_le_length (by omega)])
    rw [heq, List.length_append] at hlen
    exact List.length_eq_zero_iff.mp (by omega)

/-- **Whole-file tamper evidence.** With an ideal AEAD, whatever file is at the path, opening
the vault with a password or with a recovery key succeeds only if the file is, byte for byte,
a snapshot that was produced under the master key its own keyslot unwraps to. -/
theorem opens_only_genuine (hideal : so.Ideal calls) (host : Host) (faults : Bool)
    (env : UnlockEnv) (fs : Fs) (path : Bytes) :
    (∀ password, (files faults Alone fun _ _ => True).wp
      (pvStoreOpenPassword so host env path password)
      (fun r _ => ∀ vault header, r = .ok (vault, header) →
        ∃ file, fs.entry path = .holds file ∧ Authentic so calls password false header file) fs) ∧
    ∀ recoveryKey, (files faults Alone fun _ _ => True).wp
      (pvStoreOpenRecovery so host env path recoveryKey)
      (fun r _ => ∀ vault header, r = .ok (vault, header) →
        ∃ file, fs.entry path = .holds file ∧
          Authentic so calls recoveryKey.bytes true header file) fs := by
  have hopen : ∀ credential recovery, (files faults Alone fun _ _ => True).wp
      (openCommon so host env path credential recovery)
      (fun r _ => ∀ vault header, r = .ok (vault, header) →
        ∃ file, fs.entry path = .holds file ∧
          Authentic so calls credential recovery header file) fs := by
    intro credential recovery
    refine Sem.wp_mono (openCommon_alone fun _ => trivial) ?_
    rintro r fs' ⟨-, hr⟩ vault header heq
    obtain ⟨location, disk, hat, hshows, hdisk⟩ := hr _ heq
    obtain ⟨i, n, -, -, -, hread, -⟩ := id hshows
    refine ⟨disk.bytes, hat.entry_eq.trans hshows.slot_eq, ?_⟩
    exact openDisk_authentic hideal (hread.bytes_eq.symm ▸ hread) hdisk
  exact ⟨fun password => hopen password false, fun key => hopen key.bytes true⟩

end Files

/-! ## A library that knows its own seals -/

section Knowing

variable {Hash : Type} {so : Sodium Hash} {calls : SealCall → Prop} {call : SealCall}
  {key : Block pvWrapKeyBytes} {nonce : Block pvWrapNonceBytes} {aad ciphertext : Bytes}
  {header : FileHeader}

open Classical in
/-- The library, with a decryption that accepts what the calls produced and nothing else. -/
noncomputable def Sodium.knowing (so : Sodium Hash) (calls : SealCall → Prop) : Sodium Hash :=
  { so with
    aeadDecrypt := fun key nonce aad ciphertext =>
      if ∃ call, calls call ∧ call.Produces so key nonce aad ciphertext then
        so.aeadDecrypt key nonce aad ciphertext
      else
        none }

/-- Encryption does not notice. -/
theorem SealCall.Produces.knowing (h : call.Produces so key nonce aad ciphertext) :
    call.Produces (so.knowing calls) key nonce aad ciphertext := by
  cases h with
  | password h hkey => exact .password h hkey
  | recovery h hkey => exact .recovery h hkey
  | body h hkey => exact .body h hkey

theorem Sodium.knowing_ideal : (so.knowing calls).Ideal calls := by
  intro key nonce aad ciphertext message h
  by_cases hknown : ∃ call, calls call ∧ call.Produces so key nonce aad ciphertext
  · obtain ⟨call, hcall, hproduces⟩ := hknown
    exact ⟨call, hcall, hproduces.knowing⟩
  · cases (if_neg hknown).symm.trans h

theorem Sodium.knowing_decrypt (hcall : calls call)
    (h : call.Produces so key nonce aad ciphertext) :
    (so.knowing calls).aeadDecrypt key nonce aad ciphertext = so.aeadDecrypt key nonce aad ciphertext :=
  if_pos ⟨call, hcall, h⟩

/-- A password slot that one of the calls wrapped is unwrapped as before. -/
theorem pvCryptoUnlockPassword_knowing {password : Bytes} {mem : KeyMemory} (hcall : calls call)
    (hkey : passwordKey so header.passwordSlot password mem = .ok key)
    (h : call.Produces so key header.passwordSlot.nonce ((serialized header).take pvPasswordAadLen)
      header.passwordSlot.wrappedVmk.bytes) (vmk : Block pvWrapKeyBytes) :
    pvCryptoUnlockPassword (so.knowing calls) header password mem vmk =
      pvCryptoUnlockPassword so header password mem vmk := by
  have hkey' : passwordKey (so.knowing calls) header.passwordSlot password mem = .ok key := hkey
  rw [pvCryptoUnlockPassword, pvCryptoUnlockPassword, hkey, hkey']
  simp only [unwrapVmk, Sodium.knowing_decrypt hcall h]

/-- So is a body that one of them encrypted. -/
theorem pvCryptoDecryptBody_knowing {vmk : Block pvWrapKeyBytes} {mem : BodyMemory} (hcall : calls call)
    (hkey : bodyKey so vmk = .ok key)
    (h : call.Produces so key header.bodyNonce (serialized header) ciphertext) :
    pvCryptoDecryptBody (so.knowing calls) header vmk ciphertext mem =
      pvCryptoDecryptBody so header vmk ciphertext mem := by
  have hkey' : bodyKey (so.knowing calls) vmk = .ok key := hkey
  simp only [pvCryptoDecryptBody, hkey, hkey', Sodium.knowing_decrypt hcall h]

end Knowing

/-- What making the first vault encrypts: its master key under the password and under the recovery
key, and its contents. -/
inductive FirstSeal : SealCall → Prop
  | password : FirstSeal (.rewrapPassword
      (freshHeader { FileHeader.zero with vaultId := firstEnv.vaultId } firstEnv.header) [0x61]
      firstEnv.vmk firstEnv.header.password firstEnv.passwordMem)
  | recovery {header : FileHeader} (h : pvCryptoRewrapPassword Sodium.toy
        (freshHeader { FileHeader.zero with vaultId := firstEnv.vaultId } firstEnv.header) [0x61]
        firstEnv.vmk firstEnv.header.password firstEnv.passwordMem = (.ok, header)) :
      FirstSeal (.rewrapRecovery header firstKey firstEnv.vmk firstEnv.header.recoveryNonce
        firstEnv.recoveryMem)
  | body : FirstSeal (.encryptBody firstHeader (Block.zero _) (payloadBytes (emptyPayload 1 0))
      (writeEnv 1).draws .granted)

/-- The password slot of the vault is the one that was wrapped: what is written after it is not in
its prefix. -/
theorem firstSeal_password {header : FileHeader} (hframe : header = { firstHeader with
      bodyNonce := header.bodyNonce, bodyCiphertextLen := header.bodyCiphertextLen }) :
    ∃ call key, FirstSeal call ∧ passwordKey Sodium.toy header.passwordSlot [0x61] .granted = .ok key ∧
      call.Produces Sodium.toy key header.passwordSlot.nonce ((serialized header).take pvPasswordAadLen)
        header.passwordSlot.wrappedVmk.bytes := by
  have hcreated := newHeader_first
  unfold newHeader pvCryptoCreateHeader at hcreated
  split at hcreated
  · next mid hwrap =>
    obtain ⟨slot, key, hmid, hkey, -⟩ := pvCryptoRewrapPassword_ok hwrap
    obtain ⟨slot', key', hfirst, -⟩ := pvCryptoRewrapRecovery_ok hcreated
    have hslot : header.passwordSlot = mid.passwordSlot := by rw [hframe, hfirst]
    have haad : (serialized header).take pvPasswordAadLen = (serialized mid).take pvPasswordAadLen := by
      rw [passwordAad_eq, passwordAad_eq, hframe, hfirst]
      rfl
    have hkey' : passwordKey Sodium.toy mid.passwordSlot [0x61] .granted = .ok key := by
      rw [hmid]
      exact hkey
    rw [hslot, haad]
    exact ⟨_, key, .password, hkey', .password hwrap hkey'⟩
  · next status mid hne hwrap => exact absurd (Prod.mk.inj hcreated).1 hne

/-- A library that knows these three opens the vault with its password. -/
theorem openDisk_firstSeal {disk : DiskFile Bytes}
    (hreads : disk.Reads (Sodium.toy.knowing FirstSeal) (writtenSnapshot 1 1)) :
    ∃ vault, openDisk (Sodium.toy.knowing FirstSeal) openingEnv vaultPath [0x61] false disk =
      .ok (vault, disk.header) := by
  obtain ⟨header, ciphertext, hbody, hbytes, hv, -, -, hct⟩ := writtenSnapshot_ok 1 1
  obtain ⟨-, -, hframe⟩ := pvCryptoEncryptBody_v1 firstHeader_usable hbody
  obtain ⟨key, pages, hkey, -⟩ := pvCryptoEncryptBody_ok hbody
  rw [hbytes] at hreads
  have hdisk : disk = sealedDisk (Sodium.toy.knowing FirstSeal) header ciphertext disk.stat :=
    hreads.unique (sealedDisk_reads disk.stat hv hct) sealedDisk_stat.symm
  have hunlock : unlockVmk (Sodium.toy.knowing FirstSeal) openingEnv header [0x61] false =
      (.ok, Block.zero _) := by
    obtain ⟨call, key, hcall, hkey, hproduces⟩ := firstSeal_password hframe
    refine (pvCryptoUnlockPassword_knowing hcall hkey hproduces _).trans ?_
    have hslots : SlotsOpen Sodium.toy (Block.zero _) ⟨header, [0x61], firstKey⟩ :=
      ⟨(pvCryptoCreateHeader_slotsOpen newHeader_first).of_later_fields hframe,
        (pvCryptoCreateHeader_slotsOpen newHeader_first).of_password_fields hframe⟩
    exact hslots.unlockPassword Sodium.toy_aeadCorrect _
  have hdecrypt : pvCryptoDecryptBody (Sodium.toy.knowing FirstSeal) header (Block.zero _) ciphertext
      .granted = (.ok, payloadBytes (emptyPayload 1 0)) :=
    (pvCryptoDecryptBody_knowing FirstSeal.body hkey (.body hbody hkey)).trans
      (pvCryptoDecryptBody_encrypt Sodium.toy_aeadCorrect hbody)
  rw [hdisk]
  exact openDisk_decrypted (emptyPayload_accepted 1) (show rebuiltEnd [] ≤ pvArenaCapacity by decide)
    openingEnv_grants (show vaultPath.length < pathMax by decide) hunlock hdecrypt

/-- A vault is made, and opened with a library that knows no other seals. -/
theorem opens_only_genuine_created : ∃ saved w vault header fs',
    Sem.Run (undisturbed 0) (pvStoreCreate Sodium.toy plainHost firstEnv vaultPath [0x61] firstKey)
      emptyWorld (.ret (.ok, saved)) w ∧
    (Sodium.toy.knowing FirstSeal).Ideal FirstSeal ∧
    Sem.Run (files false Alone fun _ _ => True) (pvStoreOpenPassword (Sodium.toy.knowing FirstSeal)
      plainHost openingEnv vaultPath [0x61]) w.fs (.ret (.ok (vault, header))) fs' ∧
    w.fs.entry vaultPath = .holds (writtenSnapshot 1 1) ∧
    Authentic (Sodium.toy.knowing FirstSeal) FirstSeal [0x61] false header (writtenSnapshot 1 1) := by
  obtain ⟨saved, w, hcreate, hstage⟩ := firstStage
  have hleads := hstage.orderly.settled.leadsTo
  have hentry : w.fs.entry vaultPath = .holds (writtenSnapshot 1 1) :=
    hleads.at.entry_eq.trans hstage.holds.active
  obtain ⟨disk, hreads, -⟩ := writtenSnapshot_reads 1 1
  have hreads' : disk.Reads (Sodium.toy.knowing FirstSeal) (writtenSnapshot 1 1) := { hreads with }
  obtain ⟨st, -, hshown⟩ := hstage.holds.shows hreads'
  have hideal : (Sodium.toy.knowing FirstSeal).Ideal FirstSeal := Sodium.knowing_ideal
  have hwp : (files false Alone fun _ _ => True).wp (pvStoreOpenPassword (Sodium.toy.knowing FirstSeal)
    plainHost openingEnv vaultPath [0x61]) _ w.fs := openCommon_shown (fun _ => trivial) hleads hshown
  obtain ⟨r, fs', hopen, -, disk', hshows, rfl⟩ := returns_files hwp
  obtain ⟨vault, hok⟩ := openDisk_firstSeal (hstage.holds.reads hshows).1
  rw [hok] at hopen
  obtain ⟨file, hfile, hauthentic⟩ := Sem.wp_run hopen alone_refl alone_trans (fun _ _ _ h _ => h)
    ((opens_only_genuine hideal plainHost false openingEnv w.fs vaultPath).1 [0x61]) _ _ rfl
  rw [← Slot.holds.inj (hentry.symm.trans hfile)] at hauthentic
  exact ⟨saved, w, vault, _, fs', hcreate, hideal, hopen, hentry, hauthentic⟩

end PVault
