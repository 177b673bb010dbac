import Mathlib.Algebra.Group.Nat.Defs

/-!
# Statuses and limits

The status codes every operation returns, and the size limits of the format
(`include/pvault/pvault.h`, `src/pvault_internal.h`).
-/

namespace PVault

/-- `pv_status`. -/
inductive PvStatus : Type where
  | ok
  | errUsage
  | errAuth
  | errIo
  | errSecureMemory
  | errLocked
  | errExternal
  | errFormat
  | errLimit
  | errNotFound
  | errExists
  | errState
  | errDurability
  | errNomem
  | errUnsupported
  deriving DecidableEq, Repr

/-- `status_committed`: the change has reached the disk. -/
def PvStatus.Committed (status : PvStatus) : Prop := status = .ok ∨ status = .errDurability

instance (status : PvStatus) : Decidable status.Committed := inferInstanceAs (Decidable (_ ∨ _))

theorem PvStatus.ne_ok {status : PvStatus} (h : ¬status.Committed) : status ≠ .ok :=
  fun hok => h (.inl hok)

/-- What `sodium_malloc` and `sodium_mlock` answered to a request for secret memory. -/
inductive SecureAlloc : Type where
  | allocated
  | noMemory
  | notLocked
  deriving DecidableEq, Repr

/-! ## Sizes of identifiers, keys and tags -/

/-- `PV_MAGIC_LEN`. -/
abbrev pvMagicLen : Nat := 8
/-- `PV_VAULT_ID_BYTES`. -/
abbrev pvVaultIdBytes : Nat := 16
/-- `PV_RECORD_ID_BYTES`. -/
abbrev pvRecordIdBytes : Nat := 16
/-- `PV_DEVICE_ID_BYTES`. -/
abbrev pvDeviceIdBytes : Nat := 16
/-- `PV_FILE_HEADER_LEN`. -/
abbrev pvFileHeaderLen : Nat := 252
/-- `PV_SALT_BYTES`. -/
abbrev pvSaltBytes : Nat := 16
/-- `PV_WRAP_KEY_BYTES`, also `PV_BODY_KEY_BYTES`. -/
abbrev pvWrapKeyBytes : Nat := 32
/-- `PV_WRAP_NONCE_BYTES`. -/
abbrev pvWrapNonceBytes : Nat := 24
/-- `PV_WRAP_TAG_BYTES`, also `PV_BODY_TAG_BYTES`. -/
abbrev pvBodyTagBytes : Nat := 16
/-- `PV_WRAPPED_VMK_BYTES`. -/
abbrev pvWrappedVmkBytes : Nat := 48
/-- `PV_RECOVERY_KEY_BYTES`. -/
abbrev pvRecoveryKeyBytes : Nat := 32

/-! ## Limits -/

/-- `PV_MAX_PLAINTEXT`: 2 MiB. -/
abbrev pvMaxPlaintext : Nat := 2 * 1024 * 1024
/-- `PV_ARENA_CAPACITY`. -/
abbrev pvArenaCapacity : Nat := pvMaxPlaintext
/-- `PATH_MAX`. -/
abbrev pathMax : Nat := 4096
/-- `PV_DEFAULT_CLIPBOARD_TTL`. -/
abbrev pvDefaultClipboardTtl : Nat := 10
/-- `PV_DEFAULT_SESSION_TTL`. -/
abbrev pvDefaultSessionTtl : Nat := 300
/-- `PV_DEFAULT_BACKUP_RETENTION`. -/
abbrev pvDefaultBackupRetention : Nat := 20
/-- `SIZE_MAX` of a 64-bit `size_t`. -/
abbrev sizeMax : Nat := 2 ^ 64 - 1
/-- `PV_MAX_TITLE`. -/
abbrev pvMaxTitle : Nat := 1024
/-- `PV_MAX_USERNAME`. -/
abbrev pvMaxUsername : Nat := 4096
/-- `PV_MAX_PASSWORD`. -/
abbrev pvMaxPassword : Nat := 65536
/-- `PV_MAX_URL`. -/
abbrev pvMaxUrl : Nat := 8192
/-- `PV_MAX_NOTES`. -/
abbrev pvMaxNotes : Nat := 262144
/-- `PV_MAX_TAG`. -/
abbrev pvMaxTag : Nat := 256
/-- `PV_MAX_FIELD_NAME`. -/
abbrev pvMaxFieldName : Nat := 256
/-- `PV_MAX_FIELD_VALUE`. -/
abbrev pvMaxFieldValue : Nat := 65536
/-- `PV_MAX_COLLECTION_ITEMS`. -/
abbrev pvMaxCollectionItems : Nat := 64

-- The two constants as numerals, for linear arithmetic.
theorem pvMaxPlaintext_eq : pvMaxPlaintext = 2097152 := rfl
theorem sizeMax_eq : sizeMax = 18446744073709551615 := rfl

/-! ## Checked `size_t` arithmetic (`src/util.c`) -/

/-- `pv_size_add`. -/
def pvSizeAdd (a b : Nat) : Option Nat := if b > sizeMax - a then none else some (a + b)

/-- `pv_size_mul`. -/
def pvSizeMul (a b : Nat) : Option Nat :=
  if a ≠ 0 ∧ b > sizeMax / a then none else some (a * b)

theorem pvSizeAdd_eq_some {a b c : Nat} (ha : a ≤ sizeMax) :
    pvSizeAdd a b = some c ↔ a + b ≤ sizeMax ∧ c = a + b := by
  unfold pvSizeAdd
  split
  · constructor
    · intro h; cases h
    · rintro ⟨h, -⟩
      omega
  · constructor
    · intro h
      exact ⟨by omega, (Option.some.inj h).symm⟩
    · rintro ⟨-, rfl⟩
      rfl

theorem pvSizeMul_eq_some {a b c : Nat} :
    pvSizeMul a b = some c ↔ a * b ≤ sizeMax ∧ c = a * b := by
  unfold pvSizeMul
  by_cases ha : a = 0
  · subst ha
    simp [eq_comm]
  · have hiff : b > sizeMax / a ↔ sizeMax < a * b := by
      rw [gt_iff_lt, Nat.div_lt_iff_lt_mul (Nat.pos_of_ne_zero ha), Nat.mul_comm]
    by_cases hb : b > sizeMax / a
    · rw [if_pos ⟨ha, hb⟩]
      constructor
      · intro h; cases h
      · rintro ⟨h, -⟩
        exact absurd (hiff.mp hb) (Nat.not_lt.mpr h)
    · rw [if_neg fun h => hb h.2]
      constructor
      · intro h
        exact ⟨Nat.not_lt.mp fun hlt => hb (hiff.mpr hlt), (Option.some.inj h).symm⟩
      · rintro ⟨-, rfl⟩
        rfl

end PVault
