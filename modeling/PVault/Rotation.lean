import PVault.Crypto
import Mathlib.Logic.Relation

/-!
# Rotating the credentials of a vault

A header lives through rewraps of either slot, body encryptions and trips through the
disk. `RotationStep` is one successful operation of that kind, `SlotsOpen` the invariant:
each slot holds the wrapping of the master key under its current credential, with the
header as it is now as associated data.

The point is what the associated data leaves out. The password slot authenticates the
fields before its nonce and the recovery slot the fields before the slots, so neither
sees the other slot, its own wrapped key or the body fields change
(`passwordAad_eq`, `recoveryAad_eq`).
-/

namespace PVault

open Binary

/-- A header together with the credentials that are current for it. -/
structure Rotation where
  header : FileHeader
  /-- the most recent password -/
  password : Bytes
  /-- the most recent recovery key -/
  recoveryKey : Block pvRecoveryKeyBytes

section

variable {Hash : Type} (so : Sodium Hash) (vmk : Block pvWrapKeyBytes)

/-- One successful operation on the header with the master key `vmk`. -/
inductive RotationStep : Rotation → Rotation → Prop where
  /-- `pv_crypto_rewrap_password` -/
  | rewrapPassword {s : Rotation} {password draws mem header'} :
      pvCryptoRewrapPassword so s.header password vmk draws mem = (.ok, header') →
      RotationStep s ⟨header', password, s.recoveryKey⟩
  /-- `pv_crypto_rewrap_recovery` -/
  | rewrapRecovery {s : Rotation} {recoveryKey nonce mem header'} :
      pvCryptoRewrapRecovery so s.header recoveryKey vmk nonce mem = (.ok, header') →
      RotationStep s ⟨header', s.password, recoveryKey⟩
  /-- `pv_crypto_encrypt_body` -/
  | encryptBody {s : Rotation} {plaintext draws mem header' ciphertext} :
      pvCryptoEncryptBody so s.header vmk plaintext draws mem = (.ok, header', ciphertext) →
      RotationStep s ⟨header', s.password, s.recoveryKey⟩
  /-- `pv_header_encode` followed by `pv_header_decode` -/
  | reload {s : Rotation} {output header'} :
      pvHeaderDecode (pvHeaderEncode s.header output) = (.ok, header') →
      RotationStep s ⟨header', s.password, s.recoveryKey⟩

/-- Both slots wrap the master key under their current credential. -/
structure SlotsOpen (s : Rotation) : Prop where
  password : ∃ key, passwordKey so s.header.passwordSlot s.password .granted = .ok key ∧
    so.aeadEncrypt key s.header.passwordSlot.nonce ((serialized s.header).take pvPasswordAadLen)
      vmk.bytes = some s.header.passwordSlot.wrappedVmk.bytes
  recovery : ∃ key, recoveryWrapKey so s.recoveryKey = .ok key ∧
    so.aeadEncrypt key s.header.recoverySlot.nonce ((serialized s.header).take pvRecoveryAadLen)
      vmk.bytes = some s.header.recoverySlot.wrappedVmk.bytes

end

section

variable {Hash : Type} {so : Sodium Hash} {vmk : Block pvWrapKeyBytes}
variable {s : Rotation} {nonce : Block pvWrapNonceBytes} {header' : FileHeader}

/-- The invariant of the password slot survives any change to the later fields. -/
theorem SlotsOpen.of_later_fields (h : SlotsOpen so vmk s) {recoverySlot : KeyslotRecovery}
    {len : UInt64}
    (hheader : header' = { s.header with
      recoverySlot := recoverySlot, bodyNonce := nonce, bodyCiphertextLen := len }) :
    ∃ key, passwordKey so header'.passwordSlot s.password .granted = .ok key ∧
      so.aeadEncrypt key header'.passwordSlot.nonce ((serialized header').take pvPasswordAadLen)
        vmk.bytes = some header'.passwordSlot.wrappedVmk.bytes := by
  subst hheader
  obtain ⟨key, hkey, henc⟩ := h.password
  refine ⟨key, hkey, ?_⟩
  rw [passwordAad_eq] at henc ⊢
  exact henc

/-- The invariant of the recovery slot survives any change to the password slot and to
the body fields. -/
theorem SlotsOpen.of_password_fields (h : SlotsOpen so vmk s) {passwordSlot : KeyslotPassword}
    {len : UInt64}
    (hheader : header' = { s.header with
      passwordSlot := passwordSlot, bodyNonce := nonce, bodyCiphertextLen := len }) :
    ∃ key, recoveryWrapKey so s.recoveryKey = .ok key ∧
      so.aeadEncrypt key header'.recoverySlot.nonce ((serialized header').take pvRecoveryAadLen)
        vmk.bytes = some header'.recoverySlot.wrappedVmk.bytes := by
  subst hheader
  obtain ⟨key, hkey, henc⟩ := h.recovery
  refine ⟨key, hkey, ?_⟩
  rw [recoveryAad_eq] at henc ⊢
  exact henc

/-- **One operation keeps both slots open.** -/
theorem RotationStep.slotsOpen {s' : Rotation} (hstep : RotationStep so vmk s s')
    (h : SlotsOpen so vmk s) : SlotsOpen so vmk s' := by
  cases hstep with
  | rewrapPassword hop =>
    obtain ⟨slot, key, rfl, hkey, henc⟩ := pvCryptoRewrapPassword_ok hop
    exact ⟨⟨key, hkey, henc⟩, h.of_password_fields rfl⟩
  | rewrapRecovery hop =>
    obtain ⟨slot, key, rfl, hkey, henc⟩ := pvCryptoRewrapRecovery_ok hop
    exact ⟨h.of_later_fields rfl, ⟨key, hkey, henc⟩⟩
  | encryptBody hop =>
    obtain ⟨-, pages, -, -, -, rfl, -⟩ := pvCryptoEncryptBody_ok hop
    exact ⟨h.of_later_fields rfl, h.of_password_fields rfl⟩
  | reload hop =>
    rename_i output header'
    -- an accepted reload returns the header it encoded
    rcases pvHeaderDecode_cases (pvHeaderEncode s.header output) with ⟨-, hd⟩ | ⟨-, hne, -⟩
    · rw [hop, parseHeader_pvHeaderEncode] at hd
      obtain ⟨-, rfl⟩ := Prod.mk.inj hd
      exact h
    · exact absurd (congrArg Prod.fst hop) hne

/-- Every run of operations keeps both slots open. -/
theorem slotsOpen_run {s' : Rotation} (hrun : Relation.ReflTransGen (RotationStep so vmk) s s')
    (h : SlotsOpen so vmk s) : SlotsOpen so vmk s' := by
  induction hrun with
  | refl => exact h
  | tail _ hstep ih => exact hstep.slotsOpen ih

/-- A new header opens under both credentials. -/
theorem pvCryptoCreateHeader_slotsOpen {header : FileHeader} {password : Bytes}
    {recoveryKey : Block pvRecoveryKeyBytes} {draws : HeaderDraws} {mem mem' : KeyMemory}
    (h : pvCryptoCreateHeader so header password recoveryKey vmk draws mem mem' = (.ok, header')) :
    SlotsOpen so vmk ⟨header', password, recoveryKey⟩ := by
  unfold pvCryptoCreateHeader at h
  split at h
  · rename_i mid hpw
    obtain ⟨pslot, pkey, rfl, hpkey, hpenc⟩ := pvCryptoRewrapPassword_ok hpw
    obtain ⟨rslot, rkey, rfl, hrkey, hrenc⟩ := pvCryptoRewrapRecovery_ok h
    refine ⟨⟨pkey, hpkey, ?_⟩, ⟨rkey, hrkey, hrenc⟩⟩
    rw [passwordAad_eq] at hpenc ⊢
    exact hpenc
  · rename_i status mid hne hpw
    obtain ⟨rfl, -⟩ := Prod.mk.inj h
    exact (hne rfl).elim

/-- Unwrapping what was wrapped under the same key, nonce and prefix gives the master key. -/
theorem unwrapVmk_wrapped (hso : so.AeadCorrect) {aad : Bytes} {key : Block pvWrapKeyBytes}
    {wrapped : Block pvWrappedVmkBytes}
    (h : so.aeadEncrypt key nonce aad vmk.bytes = some wrapped.bytes) :
    unwrapVmk so aad nonce key wrapped = (.ok, vmk) := by
  unfold unwrapVmk
  rw [hso _ _ _ _ _ h]
  dsimp only
  rw [dif_pos vmk.length_eq]

theorem SlotsOpen.unlockPassword (hso : so.AeadCorrect) (h : SlotsOpen so vmk s)
    (buffer : Block pvWrapKeyBytes) :
    pvCryptoUnlockPassword so s.header s.password .granted buffer = (.ok, vmk) := by
  obtain ⟨key, hkey, henc⟩ := h.password
  unfold pvCryptoUnlockPassword
  rw [if_neg (by decide), hkey]
  exact unwrapVmk_wrapped hso henc

theorem SlotsOpen.unlockRecovery (hso : so.AeadCorrect) (h : SlotsOpen so vmk s) {mem : KeyMemory}
    (hmem : mem.key = .allocated) (buffer : Block pvWrapKeyBytes) :
    pvCryptoUnlockRecovery so s.header s.recoveryKey mem buffer = (.ok, vmk) := by
  obtain ⟨key, hkey, henc⟩ := h.recovery
  unfold pvCryptoUnlockRecovery
  rw [hmem, if_neg (by decide), hkey]
  exact unwrapVmk_wrapped hso henc

/-- The bytes of the password slot in a serialised header. -/
def passwordSlotBytes (header : FileHeader) : Bytes := slice (serialized header) 44 104

/-- The bytes of the recovery slot in a serialised header. -/
def recoverySlotBytes (header : FileHeader) : Bytes := slice (serialized header) 148 72

theorem passwordSlot_tiles (header : FileHeader) :
    Tiles 0 ((headerFields header).take 10) 44 ∧
      Tiles 44 (((headerFields header).drop 10).take 5) 148 := by
  simp only [headerFields, Tiles, List.drop_succ_cons, List.drop_zero, List.take_succ_cons,
    List.take_zero, Block.length_bytes, length_putU16Le, length_putU32Le, length_putU64Le]
  decide

theorem recoverySlot_tiles (header : FileHeader) :
    Tiles 0 ((headerFields header).take 15) 148 ∧
      Tiles 148 (((headerFields header).drop 15).take 2) 220 := by
  simp only [headerFields, Tiles, List.drop_succ_cons, List.drop_zero, List.take_succ_cons,
    List.take_zero, Block.length_bytes, length_putU16Le, length_putU32Le, length_putU64Le]
  decide

theorem passwordSlotBytes_congr {h h' : FileHeader} (heq : h.passwordSlot = h'.passwordSlot) :
    passwordSlotBytes h = passwordSlotBytes h' := by
  have run : ∀ header : FileHeader,
      passwordSlotBytes header = fieldBytes (((headerFields header).drop 10).take 5) := by
    intro header
    rw [passwordSlotBytes, serialized_eq, show 104 = 148 - 44 from rfl]
    exact slice_fieldBytes_run (passwordSlot_tiles header).1 (passwordSlot_tiles header).2
  rw [run, run]
  simp [headerFields, heq]

theorem recoverySlotBytes_congr {h h' : FileHeader} (heq : h.recoverySlot = h'.recoverySlot) :
    recoverySlotBytes h = recoverySlotBytes h' := by
  have run : ∀ header : FileHeader,
      recoverySlotBytes header = fieldBytes (((headerFields header).drop 15).take 2) := by
    intro header
    rw [recoverySlotBytes, serialized_eq, show 72 = 220 - 148 from rfl]
    exact slice_fieldBytes_run (recoverySlot_tiles header).1 (recoverySlot_tiles header).2
  rw [run, run]
  simp [headerFields, heq]

/-- **Keyslot rotation keeps both credentials working.** Start from a header made by
`pvCryptoCreateHeader` and run any sequence of successful rewraps, body encryptions and
reloads with the same master key: both current credentials unlock exactly that key
whenever the key memory is granted. A rewrap of one slot, successful or not, leaves the
other slot and all its bytes as they were. -/
theorem rotation_keeps_credentials (hso : so.AeadCorrect)
    {requested header : FileHeader} {password : Bytes} {recoveryKey : Block pvRecoveryKeyBytes}
    {draws : HeaderDraws} {mem mem' : KeyMemory}
    (hcreate : pvCryptoCreateHeader so requested password recoveryKey vmk draws mem mem' =
      (.ok, header))
    {s : Rotation}
    (hrun : Relation.ReflTransGen (RotationStep so vmk) ⟨header, password, recoveryKey⟩ s) :
    (∀ buffer, pvCryptoUnlockPassword so s.header s.password .granted buffer = (.ok, vmk)) ∧
    (∀ buffer, pvCryptoUnlockRecovery so s.header s.recoveryKey .granted buffer = (.ok, vmk)) ∧
    (∀ password' draws' mem'',
      let header' := (pvCryptoRewrapPassword so s.header password' vmk draws' mem'').2
      header'.recoverySlot = s.header.recoverySlot ∧
        recoverySlotBytes header' = recoverySlotBytes s.header) ∧
    (∀ recoveryKey' nonce' mem'',
      let header' := (pvCryptoRewrapRecovery so s.header recoveryKey' vmk nonce' mem'').2
      header'.passwordSlot = s.header.passwordSlot ∧
        passwordSlotBytes header' = passwordSlotBytes s.header) := by
  have hopen := slotsOpen_run hrun (pvCryptoCreateHeader_slotsOpen hcreate)
  refine ⟨fun buffer => hopen.unlockPassword hso buffer,
    fun buffer => hopen.unlockRecovery hso rfl buffer, ?_, ?_⟩
  · intro password' draws' mem''
    obtain ⟨slot, hslot⟩ := pvCryptoRewrapPassword_frame so s.header password' vmk draws' mem''
    dsimp only
    rw [hslot]
    exact ⟨rfl, recoverySlotBytes_congr rfl⟩
  · intro recoveryKey' nonce' mem''
    obtain ⟨slot, hslot⟩ := pvCryptoRewrapRecovery_frame so s.header recoveryKey' vmk nonce' mem''
    dsimp only
    rw [hslot]
    exact ⟨rfl, passwordSlotBytes_congr rfl⟩

end

/-- The theorem on a concrete header: the password is changed once, and the new password
and the old recovery key both open it. -/
theorem rotation_keeps_credentials_changed_password :
    let draws : HeaderDraws := ⟨Block.ofBytes _ [1], ⟨Block.ofBytes _ [2], Block.ofBytes _ [3]⟩,
      Block.ofBytes _ [4]⟩
    let vmk : Block pvWrapKeyBytes := Block.ofBytes _ [5]
    let header := (pvCryptoCreateHeader Sodium.toy FileHeader.zero [0x61] (Block.ofBytes _ [6]) vmk
      draws .granted .granted).2
    let header' := (pvCryptoRewrapPassword Sodium.toy header [0x62] vmk
      ⟨Block.ofBytes _ [7], Block.ofBytes _ [8]⟩ .granted).2
    pvCryptoUnlockPassword Sodium.toy header' [0x62] .granted (Block.zero _) = (.ok, vmk) ∧
    pvCryptoUnlockRecovery Sodium.toy header' (Block.ofBytes _ [6]) .granted (Block.zero _) =
      (.ok, vmk) := by
  intro draws vmk header header'
  have hcreate : pvCryptoCreateHeader Sodium.toy FileHeader.zero [0x61] (Block.ofBytes _ [6]) vmk
      draws .granted .granted = (.ok, header) := rfl
  have hrewrap : pvCryptoRewrapPassword Sodium.toy header [0x62] vmk
      ⟨Block.ofBytes _ [7], Block.ofBytes _ [8]⟩ .granted = (.ok, header') := rfl
  have hstep : RotationStep Sodium.toy vmk ⟨header, [0x61], Block.ofBytes _ [6]⟩
      ⟨header', [0x62], Block.ofBytes _ [6]⟩ := .rewrapPassword hrewrap
  have h := rotation_keeps_credentials Sodium.toy_aeadCorrect hcreate (.single hstep)
  exact ⟨h.1 _, h.2.1 _⟩

end PVault
